import Partee.Startup.Phases

/-!
# The lifetime of the deques

Up to `MAX_THREADS` threads the deques live as long as they are used.  With more
threads `tpc_init` goes on with the number of processors, while the barrier still
has the count that was asked for: if there are at most `MAX_THREADS` processors all
threads wait for others that nobody creates, and if there are more the main thread
writes past the end of `thread`.
-/

namespace Partee
namespace Startup

open Transition

variable {threads systemProc : ℕ} {s : State}

/-! ## Up to `MAX_THREADS` threads -/

theorem participants_eq (h0 : 0 < threads) (h : threads ≤ maxThreads) :
    participants threads systemProc = threads := by
  rw [participants, maxActiveThreads_eq h0 h]
  omega

theorem Inv.good (h : Inv threads s) (h0 : 0 < threads) (hmax : threads ≤ maxThreads) :
    Good threads systemProc s where
  bounds i j hj := by
    have hrole := h.role i
    cases hpc : s.pc i <;>
      simp only [hpc, uses, maxActiveThreads_eq h0 hmax, List.mem_ite_nil_right,
        List.mem_singleton, List.not_mem_nil, Pc.RoleOk] at hj hrole
    all_goals omega
  operations i j steal hpc := by
    have hrole := h.role i
    rw [hpc] at hrole
    exact h.queue_ready h0 hrole.2 hrole.1 (by rw [hpc]; rfl) (by rw [hpc]; rfl)
  barrier g hclosed := by
    rw [participants_eq h0 hmax] at hclosed ⊢
    have hall : s.waits g = Finset.range threads := by
      obtain hg | hg := hclosed
      · exact h.waits_eq h0 hg
      · exact (h.waits_subset h0 g).antisymm fun i hi => hg i (Finset.mem_range.mp hi)
    have hmain : 0 ∈ s.waits g := by
      rw [hall]
      exact Finset.mem_range.mpr h0
    have hcount : s.count = threads := by
      apply h.count
      intro hb
      have := (h.waits g 0).mp hmain
      rw [hb] at this
      exact absurd this (Nat.not_lt_zero g)
    rw [hall, hcount, Finset.card_range]
    exact ⟨rfl, fun i hi => Finset.mem_range.mpr hi⟩

/-! ## The count 0 -/

/-- `pthread_barrier_init` refuses the count 0, and the program ends. -/
structure Refused (s : State) : Prop where
  main : s.pc 0 = .barrierInit ∨ s.pc 0 = .exited
  workers : ∀ i ≠ 0, s.pc i = .absent
  gen : s.gen = 0
  waits : ∀ g, s.waits g = ∅

theorem refused_init : Refused init where
  main := .inl rfl
  workers i hi := by simp [init, hi]
  gen := rfl
  waits g := rfl

theorem refused_step {t : State} {a : ℕ × Choice} (h : Refused s)
    (hstep : step 0 systemProc s a = some t) : Refused t := by
  obtain ⟨i, choice⟩ := a
  simp only [step] at hstep
  obtain rfl | hi := eq_or_ne i 0
  · obtain hpc | hpc := h.main
    · cases choice <;> simp only [hpc, threadStep, reduceCtorEq, if_true] at hstep
      cases hstep
      exact { main := .inr (by simp [State.setPc])
              workers := fun i hi => by simpa [State.setPc, hi] using h.workers i hi
              gen := h.gen
              waits := h.waits }
    · cases choice <;> simp [hpc, threadStep] at hstep
  · cases choice <;> simp [h.workers i hi, threadStep] at hstep

theorem Refused.good (h : Refused s) : Good 0 systemProc s where
  bounds i j hj := by
    obtain rfl | hi := eq_or_ne i 0
    · obtain hpc | hpc := h.main <;> simp [hpc, uses] at hj
    · simp [h.workers i hi, uses] at hj
  operations i j steal hpc := by
    obtain rfl | hi := eq_or_ne i 0
    · obtain hpc' | hpc' := h.main <;> simp [hpc'] at hpc
    · simp [h.workers i hi] at hpc
  barrier g hclosed := by
    obtain hg | hg := hclosed
    · rw [h.gen] at hg
      exact absurd hg (Nat.not_lt_zero g)
    · have hmem := hg 0 (by simp [participants])
      simp [h.waits g] at hmem

/-! ## More than `MAX_THREADS` threads -/

theorem maxActiveThreads_of_gt (h : maxThreads < threads) :
    maxActiveThreads threads systemProc = systemProc := by
  rw [maxActiveThreads, if_pos (.inr h)]

/-- The main thread is about to create worker `k`, and no worker before it has
taken a step. -/
structure Creating (threads k : ℕ) (s : State) : Prop where
  main : s.pc 0 = .create k
  workers : ∀ i, 0 < i → i < k → s.pc i = .newQueue
  count : s.count = threads
  gen : s.gen = 0
  arrived : s.arrived = 0
  waits : s.waits 0 = ∅

/-- The threads below `k` wait on the barrier, and the workers from `m` to `n` have
not taken a step. -/
structure Waiting (threads n m k : ℕ) (s : State) : Prop where
  workers : ∀ i, m ≤ i → i < n → s.pc i = .newQueue
  count : s.count = threads
  gen : s.gen = 0
  arrived : s.arrived = k
  waits : s.waits 0 = Finset.range k

theorem creating_one (h : threads ≠ 0) :
    ∃ s, Reachable threads systemProc s ∧ Creating threads 1 s := by
  have h1 : Reachable threads systemProc { init.setPc 0 .newQueue with count := threads } :=
    Run.refl.tail (a := (0, .go)) trivial (by simp [step, init, threadStep, h])
  have h2 := h1.tail (a := (0, .go)) trivial (by simp [step, State.setPc, threadStep]; rfl)
  have h3 := h2.tail (a := (0, .go)) trivial (by simp [step, State.setPc, threadStep]; rfl)
  exact ⟨_, h3, { main := by simp
                  workers := fun i h0 h1 => by omega
                  count := rfl
                  gen := rfl
                  arrived := rfl
                  waits := rfl }⟩

theorem Creating.next {k : ℕ} (h : Creating threads k s) (hk : 0 < k)
    (hlt : k < maxActiveThreads threads systemProc) (hr : Reachable threads systemProc s) :
    ∃ t, Reachable threads systemProc t ∧ Creating threads (k + 1) t := by
  refine ⟨(s.setPc k .newQueue).setPc 0 (.create (k + 1)), hr.tail (a := (0, .go)) trivial ?_, ?_⟩
  · simp [step, h.main, threadStep, hlt]
  · exact { main := by simp [State.setPc]
            workers := fun i h0 h1 => by
              obtain rfl | hne := eq_or_ne i k
              · simp [State.setPc, h0.ne']
              · simpa [State.setPc, h0.ne', hne] using h.workers i h0 (by omega)
            count := h.count
            gen := h.gen
            arrived := h.arrived
            waits := h.waits }

/-- The main thread gets to the creation of each worker. -/
theorem exists_creating (h : threads ≠ 0) {k : ℕ} (hk : 0 < k)
    (hle : k ≤ participants threads systemProc) :
    ∃ s, Reachable threads systemProc s ∧ Creating threads k s := by
  induction k, hk using Nat.le_induction with
  | base => exact creating_one h
  | succ k hk ih =>
    obtain ⟨s, hr, hs⟩ := ih (by omega)
    exact hs.next hk (by rw [participants] at hle; omega) hr

/-- One more thread waits on the barrier, and its group is not complete. -/
theorem Waiting.arrive {n k : ℕ} (h : Waiting threads n (k + 1) k s)
    (hpc : s.pc k = .arrive false) (hlt : k + 1 < threads) (hr : Reachable threads systemProc s) :
    ∃ t, Reachable threads systemProc t ∧ Waiting threads n (k + 1) (k + 1) t := by
  have hne : ¬ s.arrived + 1 = s.count := by
    rw [h.arrived, h.count]
    omega
  refine ⟨barrierWait s k false, hr.tail (a := (k, .go)) trivial ?_, ?_⟩
  · simp [step, hpc, threadStep]
  · rw [barrierWait, if_neg hne]
    exact { workers := fun i hm hn => by
              simpa [State.setPc, show i ≠ k by omega] using h.workers i hm hn
            count := h.count
            gen := h.gen
            arrived := congrArg (· + 1) h.arrived
            waits := by simp [h.gen, h.waits, Finset.range_add_one] }

/-- The main thread creates the last worker and waits. -/
theorem exists_waiting_one (h : 1 < threads) :
    ∃ s, Reachable threads systemProc s ∧
      Waiting threads (participants threads systemProc) 1 1 s := by
  have hpos : 0 < participants threads systemProc := by simp [participants]
  obtain ⟨s, hr, hs⟩ := exists_creating (by omega : threads ≠ 0) hpos le_rfl
  have hlast : ¬ participants threads systemProc < maxActiveThreads threads systemProc := by
    rw [participants]
    omega
  have hr' : Reachable threads systemProc (s.setPc 0 (.arrive false)) :=
    hr.tail (a := (0, .go)) trivial (by simp [step, hs.main, threadStep, hlast])
  have hs' : Waiting threads (participants threads systemProc) 1 0 (s.setPc 0 (.arrive false)) :=
    { workers := fun i hm hn => by
        simpa [State.setPc, show i ≠ 0 by omega] using hs.workers i hm hn
      count := hs.count
      gen := hs.gen
      arrived := hs.arrived
      waits := hs.waits }
  exact hs'.arrive (by simp [State.setPc]) h hr'

/-- The next worker sets its deque up and waits. -/
theorem Waiting.next {n k : ℕ} (h : Waiting threads n k k s) (h0 : 0 < k) (hk : k < n)
    (hlt : k + 1 < threads) (hr : Reachable threads systemProc s) :
    ∃ t, Reachable threads systemProc t ∧ Waiting threads n (k + 1) (k + 1) t := by
  have hpc := h.workers k le_rfl hk
  have h1 : Reachable threads systemProc ((s.setQueue k .allocated).setPc k .initQueue) :=
    hr.tail (a := (k, .go)) trivial (by simp [step, hpc, threadStep])
  have h2 := h1.tail (a := (k, .go)) trivial (by simp [step, State.setPc, threadStep]; rfl)
  refine Waiting.arrive ?_ ?_ hlt h2
  · exact { workers := fun i hm hn => by
              simpa [State.setQueue, show i ≠ k by omega] using h.workers i (by omega) hn
            count := h.count
            gen := h.gen
            arrived := h.arrived
            waits := h.waits }
  · simp [h0.ne']

theorem exists_waiting {k : ℕ} (hk : 0 < k) (hle : k ≤ participants threads systemProc)
    (hlt : k < threads) :
    ∃ s, Reachable threads systemProc s ∧
      Waiting threads (participants threads systemProc) k k s := by
  induction k, hk using Nat.le_induction with
  | base => exact exists_waiting_one hlt
  | succ k hk ih =>
    obtain ⟨s, hr, hs⟩ := ih (by omega) (by omega)
    exact hs.next hk (by omega) hlt hr

/-- Too many threads make the runtime fail, with any number of processors. -/
theorem exists_not_good (h : maxThreads < threads) :
    ∃ s, Reachable threads systemProc s ∧ ¬ Good threads systemProc s := by
  have hact : maxActiveThreads threads systemProc = systemProc := maxActiveThreads_of_gt h
  obtain hP | hP := Nat.lt_or_ge maxThreads systemProc
  · -- `pthread_create(&thread[MAX_THREADS], …)`
    have hle : maxThreads ≤ participants threads systemProc := by
      rw [participants]
      omega
    obtain ⟨s, hr, hs⟩ := exists_creating (by omega : threads ≠ 0) (by decide : 0 < maxThreads) hle
    refine ⟨s, hr, fun hgood => ?_⟩
    have hlt := hgood.bounds 0 maxThreads (by simp [hs.main, uses, hact, hP])
    exact Nat.lt_irrefl _ hlt
  · -- all threads wait, and they are too few
    have hn : participants threads systemProc ≤ maxThreads := by
      rw [participants, hact]
      exact max_le (by decide) hP
    have hpos : 0 < participants threads systemProc := by simp [participants]
    obtain ⟨s, hr, hs⟩ := exists_waiting hpos le_rfl (hn.trans_lt h)
    refine ⟨s, hr, fun hgood => ?_⟩
    have hcard := (hgood.barrier 0 (.inr fun i hi => by simpa [hs.waits] using hi)).1
    rw [hs.waits, hs.count, Finset.card_range] at hcard
    omega

/-! ## The result -/

/-- **The deques live as long as they are used, the indices are in bounds and every
use of the barrier is by as many threads as it waits for, exactly when no more than
`MAX_THREADS` threads are asked for.** -/
theorem deque_lifetime (threads systemProc : ℕ) :
    (∀ s, Reachable threads systemProc s → Good threads systemProc s) ↔ threads ≤ maxThreads := by
  constructor
  · intro hgood
    by_contra hgt
    have hbad : ∃ s, Reachable threads systemProc s ∧ ¬ Good threads systemProc s :=
      exists_not_good (Nat.lt_of_not_le hgt)
    obtain ⟨s, hr, hs⟩ := hbad
    exact hs (hgood s hr)
  · intro hmax s hr
    obtain rfl | h0 := Nat.eq_zero_or_pos threads
    · exact (hr.invariant refused_init fun _ _ _ h _ => refused_step h).good
    · exact (hr.invariant (inv_init h0) fun _ _ _ h _ => inv_step h0 hmax h).good h0 hmax

/-- Four processors and 65 threads: the four threads that exist wait on the barrier,
which waits for 65. -/
theorem barrier_waits_for_absent_threads :
    ∃ s, Reachable 65 4 s ∧ participants 65 4 = 4 ∧ s.waits 0 = Finset.range 4 ∧ s.count = 65 ∧
      ¬ Good 65 4 s := by
  have hwaiting : ∃ s, Reachable 65 4 s ∧ Waiting 65 (participants 65 4) 4 4 s :=
    exists_waiting (by decide) (by decide) (by decide)
  obtain ⟨s, hr, hs⟩ := hwaiting
  refine ⟨s, hr, rfl, hs.waits, hs.count, fun hgood => ?_⟩
  have hclosed : s.Closed (participants 65 4) 0 := by
    right
    intro i hi
    rw [hs.waits]
    exact Finset.mem_range.mpr hi
  have hcard := (hgood.barrier 0 hclosed).1
  rw [hs.waits, hs.count] at hcard
  exact absurd hcard (by decide)

end Startup
end Partee
