import Partee.Startup.Model
import Mathlib.Tactic.Common

/-!
# The two phases of the barrier

When the count of the barrier is the number `c` of the threads, the groups that the
barrier releases separate the life of each thread into three parts: it sets its
deque up, it works, it is about to release its deque.  The invariant reads the part
off the program point (`Pc.arrivals`, `Pc.passed`, `Pc.queue`) and says what the
barrier's generation means for it.
-/

namespace Partee
namespace Startup

open Transition

/-! ## What a program point says -/

/-- How often the thread has called `pthread_barrier_wait`. -/
def Pc.arrivals : Pc → ℕ
  | .blocked last _ => last.toNat + 1
  | .arrive last => last.toNat
  | .test | .work | .inOp _ _ | .storeActive => 1
  | .join _ | .release | .done => 2
  | _ => 0

/-- How often `pthread_barrier_wait` has returned to the thread. -/
def Pc.passed : Pc → ℕ
  | .blocked last _ => last.toNat
  | pc => pc.arrivals

/-- The state of the thread's own deque. -/
def Pc.queue : Pc → QueueState
  | .absent | .barrierInit | .exited | .newQueue => .none
  | .initQueue => .allocated
  | .done => .released
  | _ => .ready

/-- The workers from this number on do not exist, as far as the program point of
the main thread can tell when there are `c` threads. -/
def Pc.created (c : ℕ) : Pc → ℕ
  | .create j => j
  | .absent | .barrierInit | .exited | .newQueue | .initQueue => 1
  | _ => c

/-- The program points of thread `i` when there are `c` threads. -/
def Pc.RoleOk (c i : ℕ) : Pc → Prop
  | .absent => i ≠ 0
  | .exited => False
  | .barrierInit | .storeActive | .join _ => i = 0
  | .create j => i = 0 ∧ 1 ≤ j ∧ j ≤ c
  | .blocked last g => i < c ∧ g = last.toNat
  | .inOp j _ => i < c ∧ j < c
  | _ => i < c

section ProgramPoints

variable {c i : ℕ} {last : Bool} {pc : Pc}

theorem Pc.arrivals_le_passed (pc : Pc) : pc.arrivals ≤ pc.passed + 1 := by
  cases pc <;> simp [Pc.passed, Pc.arrivals]

/-- Who has called `pthread_barrier_wait` is one of the `c` threads. -/
theorem Pc.RoleOk.lt_of_arrivals (hc : 0 < c) (h : pc.RoleOk c i) (ha : 0 < pc.arrivals) :
    i < c := by
  cases pc <;> simp_all [Pc.RoleOk, Pc.arrivals]

/-- After the first barrier a deque is set up; after the second it may be
released. -/
theorem Pc.queue_of_arrivals (h0 : 0 < pc.arrivals) (h1 : pc.passed < 2) :
    pc.queue = .ready := by
  cases pc <;> simp_all [Pc.queue, Pc.arrivals, Pc.passed]

@[simp] theorem arrivals_afterBarrier : (afterBarrier i last).arrivals = last.toNat + 1 := by
  cases last <;> simp only [afterBarrier] <;> split <;> rfl

@[simp] theorem passed_afterBarrier : (afterBarrier i last).passed = last.toNat + 1 := by
  cases last <;> simp only [afterBarrier] <;> split <;> rfl

@[simp] theorem queue_afterBarrier : (afterBarrier i last).queue = .ready := by
  cases last <;> simp only [afterBarrier] <;> split <;> rfl

@[simp] theorem created_afterBarrier : (afterBarrier i last).created c = c := by
  cases last <;> simp only [afterBarrier] <;> split <;> rfl

theorem roleOk_afterBarrier (h : i < c) : (afterBarrier i last).RoleOk c i := by
  cases last <;> simp only [afterBarrier] <;> split <;> simp_all [Pc.RoleOk]

end ProgramPoints

/-! ## The invariant -/

/-- The invariant of `tpc_init(c)` when the runtime has `c` threads. -/
structure Inv (c : ℕ) (s : State) : Prop where
  role : ∀ i, (s.pc i).RoleOk c i
  queue : ∀ i, s.queue i = (s.pc i).queue
  steal : ∀ i, s.stealIndex i < c
  waits : ∀ g i, i ∈ s.waits g ↔ g < (s.pc i).arrivals
  passed : ∀ i, (s.pc i).passed ≤ s.gen
  full : ∀ g < s.gen, (s.waits g).card = c
  arrived : s.arrived = (s.waits s.gen).card
  room : s.arrived < c
  count : s.pc 0 ≠ .barrierInit → s.count = c
  created : ∀ i ≠ 0, (s.pc 0).created c ≤ i → s.pc i = .absent

theorem inv_init {c : ℕ} (hc : 0 < c) : Inv c init where
  role i := by
    simp only [init]
    split <;> simp_all [Pc.RoleOk]
  queue i := by
    simp only [init]
    split <;> rfl
  steal i := hc
  waits g i := by
    simp only [init]
    split <;> simp [Pc.arrivals]
  passed i := by
    simp only [init]
    split <;> simp [Pc.passed, Pc.arrivals]
  full g hg := by simp [init] at hg
  arrived := rfl
  room := hc
  count h := by simp [init] at h
  created i hi _ := by simp [init, hi]

namespace Inv

variable {c i : ℕ} {s : State} {pc pc' : Pc}

/-- The threads that have waited in a generation are among the `c` threads. -/
theorem waits_subset (h : Inv c s) (hc : 0 < c) (g : ℕ) : s.waits g ⊆ Finset.range c := by
  intro i hi
  have hg := (h.waits g i).mp hi
  exact Finset.mem_range.mpr ((h.role i).lt_of_arrivals hc (by omega))

/-- **A released group is the group of all threads.** -/
theorem waits_eq (h : Inv c s) (hc : 0 < c) {g : ℕ} (hg : g < s.gen) :
    s.waits g = Finset.range c :=
  Finset.eq_of_subset_of_card_le (h.waits_subset hc g) (by simp [h.full g hg])

/-- What has been released has been waited for by each thread. -/
theorem gen_le_arrivals (h : Inv c s) (hc : 0 < c) (hi : i < c) : s.gen ≤ (s.pc i).arrivals := by
  by_contra hlt
  have hmem : i ∈ s.waits (s.pc i).arrivals := by
    rw [h.waits_eq hc (by omega)]
    exact Finset.mem_range.mpr hi
  have := (h.waits _ _).mp hmem
  omega

/-- A thread that works finds the deque of every thread set up and not
released. -/
theorem queue_ready (h : Inv c s) (hc : 0 < c) {j : ℕ} (hj : j < c) (hi : i < c)
    (hpassed : (s.pc i).passed = 1) (harrivals : (s.pc i).arrivals = 1) :
    s.queue j = .ready := by
  have hgen : s.gen = 1 := by
    have h1 := h.passed i
    have h2 := h.gen_le_arrivals hc hi
    omega
  have h1 := h.passed j
  have h2 := h.gen_le_arrivals hc hj
  rw [h.queue]
  exact Pc.queue_of_arrivals (by omega) (by omega)

/-- A thread arrives at the barrier in the generation that it has not seen. -/
theorem gen_eq (h : Inv c s) (hc : 0 < c) {last : Bool} (hi : i < c)
    (hpc : s.pc i = .arrive last) : s.gen = last.toNat := by
  have h1 := h.passed i
  have h2 := h.gen_le_arrivals hc hi
  simp only [hpc, Pc.passed, Pc.arrivals] at h1 h2
  omega

/-! ## Steps -/

/-- A thread that exists has been created. -/
theorem made (h : Inv c s) (hpc : s.pc i ≠ .absent) (hi : i ≠ 0) : i < (s.pc 0).created c := by
  by_contra hle
  exact hpc (h.created i hi (by omega))

/-- A thread moves on and its deque with it, and nobody arrives at the barrier. -/
theorem move (h : Inv c s) (pc' : Pc) (count : ℕ) (active : Bool) (hpc : s.pc i = pc)
    (hmade : i ≠ 0 → i < (s.pc 0).created c) (hrole : pc'.RoleOk c i)
    (harrivals : pc'.arrivals = pc.arrivals) (hpassed : pc'.passed ≤ s.gen)
    (hcreated : i = 0 → pc.created c ≤ pc'.created c)
    (hcount : s.pc 0 ≠ .barrierInit → count = s.count)
    (hinit : i = 0 → pc = .barrierInit → count = c) :
    Inv c { (s.setQueue i pc'.queue).setPc i pc' with count := count, active := active } where
  role k := by
    obtain rfl | hk := eq_or_ne k i
    · simpa [State.setPc] using hrole
    · simpa [State.setPc, State.setQueue, hk] using h.role k
  queue k := by
    obtain rfl | hk := eq_or_ne k i
    · simp [State.setPc, State.setQueue]
    · simpa [State.setPc, State.setQueue, hk] using h.queue k
  steal := h.steal
  waits g k := by
    obtain rfl | hk := eq_or_ne k i
    · simpa [State.setPc, State.setQueue, harrivals, ← hpc] using h.waits g k
    · simpa [State.setPc, State.setQueue, hk] using h.waits g k
  passed k := by
    obtain rfl | hk := eq_or_ne k i
    · simpa [State.setPc, State.setQueue] using hpassed
    · simpa [State.setPc, State.setQueue, hk] using h.passed k
  full := h.full
  arrived := h.arrived
  room := h.room
  count h0 := by
    by_cases hb : s.pc 0 = .barrierInit
    · obtain rfl | hi := eq_or_ne i 0
      · exact hinit rfl (hpc.symm.trans hb)
      · simp [State.setPc, State.setQueue, hi.symm, hb] at h0
    · exact (hcount hb).trans (h.count hb)
  created k hk hle := by
    have hle' : (s.pc 0).created c ≤ k := by
      obtain rfl | hi := eq_or_ne i 0
      · rw [hpc]
        exact (hcreated rfl).trans (by simpa [State.setPc] using hle)
      · simpa [State.setPc, State.setQueue, hi.symm] using hle
    have hki : k ≠ i := by
      rintro rfl
      exact absurd (hmade hk) (by omega)
    simpa [State.setPc, State.setQueue, hki] using h.created k hk hle'

/-- A thread that is past `pthread_barrier_init` moves on, and its deque with
it. -/
theorem advance (h : Inv c s) (pc' : Pc) (hpc : s.pc i = pc)
    (hmade : i ≠ 0 → i < (s.pc 0).created c) (hb : pc ≠ .barrierInit) (hrole : pc'.RoleOk c i)
    (harrivals : pc'.arrivals = pc.arrivals) (hpassed : pc'.passed ≤ s.gen)
    (hcreated : pc.created c ≤ pc'.created c) :
    Inv c ((s.setQueue i pc'.queue).setPc i pc') :=
  h.move pc' s.count s.active hpc hmade hrole harrivals hpassed (fun _ => hcreated) (fun _ => rfl)
    fun _ h0 => absurd h0 hb

theorem setQueue_self (h : Inv c s) (pc' : Pc) (hpc : s.pc i = pc) (hq : pc'.queue = pc.queue) :
    s.setQueue i pc'.queue = s := by
  rw [hq, ← hpc, ← h.queue i, State.setQueue, Function.update_eq_self]

/-- The same when the step does not touch the deque. -/
theorem advance_of_queue (h : Inv c s) (hpc : s.pc i = pc)
    (hmade : i ≠ 0 → i < (s.pc 0).created c) (hb : pc ≠ .barrierInit)
    (hrole : pc'.RoleOk c i) (harrivals : pc'.arrivals = pc.arrivals)
    (hpassed : pc'.passed ≤ s.gen) (hcreated : pc.created c ≤ pc'.created c)
    (hq : pc'.queue = pc.queue) : Inv c (s.setPc i pc') := by
  have hinv := h.advance pc' hpc hmade hb hrole harrivals hpassed hcreated
  rwa [h.setQueue_self pc' hpc hq] at hinv

/-- The main thread creates the next worker. -/
theorem createWorker (h : Inv c s) {j : ℕ} (hpc : s.pc 0 = .create j) (hj : j < c) :
    Inv c ((s.setPc j .newQueue).setPc 0 (.create (j + 1))) := by
  have hrole := h.role 0
  rw [hpc] at hrole
  obtain ⟨-, hj1, -⟩ := hrole
  have hmain : Inv c (s.setPc 0 (.create (j + 1))) :=
    h.advance_of_queue hpc (by simp) nofun ⟨rfl, by omega, hj⟩ rfl (Nat.zero_le _)
      (Nat.le_succ j) rfl
  have habs : (s.setPc 0 (.create (j + 1))).pc j = .absent := by
    simp only [State.setPc]
    rw [Function.update_of_ne (by omega)]
    exact h.created j (by omega) (by simp [hpc, Pc.created])
  have hmade : (Pc.create (j + 1)).created c = j + 1 := rfl
  have hworker : Inv c ((s.setPc 0 (.create (j + 1))).setPc j .newQueue) :=
    hmain.advance_of_queue habs (by simp [State.setPc, hmade]) nofun hj rfl (Nat.zero_le _)
      le_rfl rfl
  have hcomm : (s.setPc 0 (.create (j + 1))).setPc j .newQueue
      = (s.setPc j .newQueue).setPc 0 (.create (j + 1)) := by
    simp only [State.setPc]
    rw [Function.update_comm (by omega)]
  rwa [hcomm] at hworker

/-- The count is set before any thread but the main one exists. -/
theorem count_eq (h : Inv c s) (hpc : s.pc i ≠ .absent) (hb : s.pc i ≠ .barrierInit) :
    s.count = c := by
  apply h.count
  intro h0
  obtain rfl | hi := eq_or_ne i 0
  · exact hb h0
  · have := h.made hpc hi
    simp only [h0, Pc.created] at this
    omega

/-- Nobody is ahead of the barrier by more than the group that it is collecting. -/
theorem notMem_waits_succ (h : Inv c s) (k : ℕ) : k ∉ s.waits (s.gen + 1) := by
  rw [h.waits]
  have h1 := h.passed k
  have h2 := (s.pc k).arrivals_le_passed
  omega

/-- **A thread waits on the barrier**, and it may be the last of its group. -/
theorem barrierWait (h : Inv c s) (hc : 0 < c) {last : Bool} (hpc : s.pc i = .arrive last) :
    Inv c (barrierWait s i last) := by
  have hi : i < c := by
    have hrole := h.role i
    rwa [hpc] at hrole
  have hgen := h.gen_eq hc hi hpc
  have hcount : s.count = c := h.count_eq (i := i) (by simp [hpc]) (by simp [hpc])
  have hqueue : s.queue i = .ready := by
    rw [h.queue, hpc]
    rfl
  have hmade : i ≠ 0 → i < (s.pc 0).created c := h.made (by simp [hpc])
  have hold : (s.pc i).arrivals = last.toNat := by
    rw [hpc]
    rfl
  have hnot : i ∉ s.waits s.gen := by
    rw [h.waits, hold, hgen]
    exact Nat.lt_irrefl _
  have hcard : (insert i (s.waits s.gen)).card = s.arrived + 1 := by
    rw [Finset.card_insert_of_notMem hnot, h.arrived]
  -- the thread goes to `pc`, which counts one more call
  have hwaits : ∀ pc : Pc, pc.arrivals = last.toNat + 1 → ∀ g k,
      k ∈ Function.update s.waits s.gen (insert i (s.waits s.gen)) g
        ↔ g < ((s.setPc i pc).pc k).arrivals := by
    intro pc harrivals g k
    have hk := h.waits g k
    obtain rfl | hg := eq_or_ne g s.gen <;> obtain rfl | hki := eq_or_ne k i
    · simp [State.setPc, harrivals, hgen]
    · simp [State.setPc, hki, hk]
    · simp only [Function.update_of_ne hg, State.setPc, Function.update_self, hk, hold, harrivals]
      omega
    · simp [State.setPc, hg, hki, hk]
  have hcreated : ∀ pc : Pc, pc.created c = c → ∀ k ≠ 0,
      ((s.setPc i pc).pc 0).created c ≤ k → (s.setPc i pc).pc k = .absent := by
    intro pc hpcc k hk hle
    have hle' : (s.pc 0).created c ≤ k := by
      obtain rfl | hi0 := eq_or_ne i 0
      · rw [hpc]
        exact hpcc.symm.le.trans (by simpa [State.setPc] using hle)
      · simpa [State.setPc, hi0.symm] using hle
    have hki : k ≠ i := by
      rintro rfl
      exact absurd (hmade hk) (by omega)
    simpa [State.setPc, hki] using h.created k hk hle'
  simp only [Startup.barrierWait]
  split
  · -- the group is complete
    rename_i hlast
    exact {
      role := fun k => by
        obtain rfl | hk := eq_or_ne k i
        · simpa [State.setPc] using roleOk_afterBarrier hi
        · simpa [State.setPc, hk] using h.role k
      queue := fun k => by
        obtain rfl | hk := eq_or_ne k i
        · simpa [State.setPc] using hqueue
        · simpa [State.setPc, hk] using h.queue k
      steal := h.steal
      waits := hwaits _ arrivals_afterBarrier
      passed := fun k => by
        obtain rfl | hk := eq_or_ne k i
        · simp [State.setPc, hgen]
        · simpa [State.setPc, hk] using (h.passed k).trans (Nat.le_succ _)
      full := fun g hg => by
        obtain rfl | hne := eq_or_ne g s.gen
        · simpa [hcard] using hlast.trans hcount
        · simpa [hne] using h.full g (by simp only at hg; omega)
      arrived := by
        simp [Finset.eq_empty_of_forall_notMem h.notMem_waits_succ]
      room := hc
      count := fun _ => hcount
      created := hcreated _ created_afterBarrier }
  · rename_i hlast
    exact {
      role := fun k => by
        obtain rfl | hk := eq_or_ne k i
        · simpa [State.setPc, Pc.RoleOk] using ⟨hi, hgen⟩
        · simpa [State.setPc, hk] using h.role k
      queue := fun k => by
        obtain rfl | hk := eq_or_ne k i
        · simpa [State.setPc, Pc.queue] using hqueue
        · simpa [State.setPc, hk] using h.queue k
      steal := h.steal
      waits := hwaits _ rfl
      passed := fun k => by
        obtain rfl | hk := eq_or_ne k i
        · simp [State.setPc, hgen, Pc.passed]
        · simpa [State.setPc, hk] using h.passed k
      full := fun g hg => by
        have hne : g ≠ s.gen := Nat.ne_of_lt hg
        simpa [hne] using h.full g hg
      arrived := by simp [State.setPc, hcard]
      room := by
        have := h.room
        simp only
        omega
      count := fun _ => hcount
      created := hcreated _ rfl }

/-- A thief chooses its next victim. -/
theorem retarget (h : Inv c s) {k : ℕ} (hk : k < c) :
    Inv c { s with stealIndex := Function.update s.stealIndex i k } where
  role := h.role
  queue := h.queue
  steal j := by
    obtain rfl | hj := eq_or_ne j i
    · simpa using hk
    · simpa [hj] using h.steal j
  waits := h.waits
  passed := h.passed
  full := h.full
  arrived := h.arrived
  room := h.room
  count := h.count
  created := h.created

end Inv

/-- Up to `MAX_THREADS` threads, the number that the rest of the runtime uses is the
one that was asked for. -/
theorem maxActiveThreads_eq {threads systemProc : ℕ} (h0 : 0 < threads)
    (h : threads ≤ maxThreads) : maxActiveThreads threads systemProc = threads := by
  rw [maxActiveThreads, if_neg (by omega)]

/-- **Every step keeps the invariant.** -/
theorem inv_step {threads systemProc : ℕ} {s t : State} {a : ℕ × Choice} (h0 : 0 < threads)
    (hmax : threads ≤ maxThreads) (h : Inv threads s)
    (hstep : step threads systemProc s a = some t) : Inv threads t := by
  obtain ⟨i, choice⟩ := a
  simp only [step] at hstep
  have hact : maxActiveThreads threads systemProc = threads := maxActiveThreads_eq h0 hmax
  have hrole := h.role i
  have hpassed := h.passed i
  have hmade := h.made (i := i)
  cases hpc : s.pc i with
  | absent => cases choice <;> simp [hpc, threadStep] at hstep
  | barrierInit =>
    cases choice <;> simp only [hpc, threadStep, reduceCtorEq] at hstep
    rw [if_neg (by omega)] at hstep
    cases hstep
    rw [hpc] at hrole
    obtain rfl : i = 0 := hrole
    have hinv := h.move .newQueue threads s.active hpc (by simp)
      h0 rfl (Nat.zero_le _) (fun _ => le_rfl) (fun hb => absurd hpc hb) (fun _ _ => rfl)
    rwa [h.setQueue_self .newQueue hpc rfl] at hinv
  | exited => cases choice <;> simp [hpc, threadStep] at hstep
  | newQueue =>
    cases choice <;> simp only [hpc, threadStep, reduceCtorEq] at hstep
    cases hstep
    rw [hpc] at hrole
    exact h.advance .initQueue hpc (hmade (by simp [hpc])) nofun hrole rfl
      (Nat.zero_le _) le_rfl
  | initQueue =>
    cases choice <;> simp only [hpc, threadStep, reduceCtorEq] at hstep
    cases hstep
    rw [hpc] at hrole
    obtain rfl | hi := eq_or_ne i 0
    · exact h.advance (.create 1) hpc (by simp) nofun ⟨rfl, le_rfl, h0⟩ rfl
        (Nat.zero_le _) le_rfl
    · rw [if_neg hi]
      exact h.advance (.arrive false) hpc (hmade (by simp [hpc])) nofun hrole rfl
        (Nat.zero_le _) h0
  | create j =>
    cases choice <;> simp only [hpc, threadStep, reduceCtorEq] at hstep
    rw [hpc] at hrole
    obtain ⟨rfl, hj1, hj⟩ := hrole
    rw [hact] at hstep
    split at hstep
    · rename_i hlt
      cases hstep
      exact h.createWorker hpc hlt
    · cases hstep
      exact h.advance_of_queue hpc (by simp) nofun h0 rfl (Nat.zero_le _) hj rfl
  | arrive last =>
    cases choice <;> simp only [hpc, threadStep, reduceCtorEq] at hstep
    cases hstep
    exact h.barrierWait h0 hpc
  | blocked last g =>
    cases choice <;> simp only [hpc, threadStep, reduceCtorEq] at hstep
    split at hstep
    · cases hstep
    · rename_i hg
      cases hstep
      rw [hpc] at hrole hpassed
      obtain ⟨hi, rfl⟩ := hrole
      have hgen : last.toNat + 1 ≤ s.gen := lt_of_le_of_ne hpassed (Ne.symm hg)
      exact h.advance_of_queue hpc (hmade (by simp [hpc])) nofun
        (roleOk_afterBarrier hi) arrivals_afterBarrier (by rwa [passed_afterBarrier])
        created_afterBarrier.ge queue_afterBarrier
  | test =>
    cases choice <;> simp only [hpc, threadStep, reduceCtorEq] at hstep
    cases hstep
    rw [hpc] at hrole hpassed
    split
    · exact h.advance_of_queue hpc (hmade (by simp [hpc])) nofun hrole rfl hpassed le_rfl rfl
    · exact h.advance_of_queue hpc (hmade (by simp [hpc])) nofun hrole rfl hpassed le_rfl rfl
  | work =>
    rw [hpc] at hrole hpassed
    cases choice <;> simp only [hpc, threadStep, reduceCtorEq] at hstep
    case own =>
      cases hstep
      exact h.advance_of_queue hpc (hmade (by simp [hpc])) nofun ⟨hrole, hrole⟩ rfl hpassed
        le_rfl rfl
    case steal =>
      cases hstep
      exact h.advance_of_queue hpc (hmade (by simp [hpc])) nofun ⟨hrole, h.steal i⟩ rfl
        hpassed le_rfl rfl
    case leave =>
      cases hstep
      split
      · rename_i hi
        exact h.advance_of_queue hpc (hmade (by simp [hpc])) nofun hi rfl hpassed le_rfl rfl
      · exact h.advance_of_queue hpc (hmade (by simp [hpc])) nofun hrole rfl hpassed le_rfl
          rfl
  | inOp j steal =>
    rw [hpc] at hrole hpassed
    have hinv : Inv threads (s.setPc i .work) :=
      h.advance_of_queue hpc (hmade (by simp [hpc])) nofun hrole.1 rfl hpassed le_rfl rfl
    cases choice <;> cases steal <;> simp only [hpc, threadStep, reduceCtorEq] at hstep
    · cases hstep
      exact hinv
    · cases hstep
      exact hinv
    · cases hstep
      rw [hact]
      exact hinv.retarget (Nat.mod_lt _ h0)
  | storeActive =>
    cases choice <;> simp only [hpc, threadStep, reduceCtorEq] at hstep
    cases hstep
    rw [hpc] at hrole hpassed
    obtain rfl : i = 0 := hrole
    have hinv := h.move (.arrive true) s.count false hpc (by simp)
      h0 rfl hpassed (fun _ => le_rfl) (fun _ => rfl) nofun
    rwa [h.setQueue_self (.arrive true) hpc rfl] at hinv
  | join j =>
    cases choice <;> simp only [hpc, threadStep, reduceCtorEq] at hstep
    rw [hpc] at hrole hpassed
    obtain rfl : i = 0 := hrole
    split at hstep
    · split at hstep
      · cases hstep
        exact h.advance_of_queue hpc (by simp) nofun rfl rfl hpassed le_rfl rfl
      · cases hstep
    · cases hstep
      exact h.advance_of_queue hpc (by simp) nofun h0 rfl hpassed le_rfl rfl
  | release =>
    cases choice <;> simp only [hpc, threadStep, reduceCtorEq] at hstep
    cases hstep
    rw [hpc] at hrole hpassed
    exact h.advance .done hpc (hmade (by simp [hpc])) nofun hrole rfl hpassed le_rfl
  | done => cases choice <;> simp [hpc, threadStep] at hstep

end Startup
end Partee
