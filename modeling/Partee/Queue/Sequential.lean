import Partee.Queue.Abstract
import Partee.Queue.Invariant

/-!
# The deque without interference

The functions of `queue.c` as they run when nobody else touches the queue, and
their refinement of the bounded list: whatever the calls and however often `top`
and `bottom` have gone around, the answers are those of a list of at most 128
tasks.

The representation relation keeps the unbounded position `T` of the oldest
element: `top` is `T` and `bottom` is `T` plus the length, both modulo 256, and
the slots hold the list.  `dequeue_front` may move `T` as well, when it takes the
only element.

The last section connects the functions with the system of `Queue.Model`: a call
all of whose accesses are made without a step of another thread in between has
exactly this effect.
-/

namespace Partee
namespace Queue

open Transition

variable {α : Type*}

/-- `__sync_bool_compare_and_swap(&Queue->top, t, t + 1)`. -/
def Deque.casTop (q : Deque α) (t : BitVec 8) : Bool × Deque α :=
  if q.top = t then (true, { q with top := t + 1 }) else (false, q)

/-- `enqueue`. -/
def enqueue (data : α) (q : Deque α) : Bool × Deque α :=
  let b := q.bottom
  let t := q.top
  if isFullQueue q b t then
    (false, q)
  else
    let i := q.slot b
    (true, { q with entries := Function.update q.entries i (some data), bottom := b + 1 })

/-- `dequeue_front`. -/
def dequeueFront (q : Deque α) : Option α × Deque α :=
  let b := q.bottom - 1
  let q := { q with bottom := b }
  let t := q.top
  if b + 1 = t then
    (none, { q with bottom := t })
  else
    let ret := q.entries (q.slot b)
    if b ≠ t then
      (ret, q)
    else
      let (won, q) := q.casTop t
      (if won then ret else none, { q with bottom := t + 1 })

/-- `dequeue_back`. -/
def dequeueBack (q : Deque α) : Answer α × Deque α :=
  let t := q.top
  let b := q.bottom
  if isEmptyQueue b t then
    (.backEmpty, q)
  else
    let ret := q.entries (q.slot t)
    let (won, q) := q.casTop t
    (if won then .backTaken ret else .backContended, q)

/-- The three functions as one sequential object. -/
def queueCall (q : Deque α) : Call α → Answer α × Deque α
  | .enqueue data => ((enqueue data q).1 |> .enqueued, (enqueue data q).2)
  | .dequeueFront => ((dequeueFront q).1 |> .front, (dequeueFront q).2)
  | .dequeueBack => dequeueBack q

/-! ## The representation -/

/-- The buffer represents the list, with its oldest element at position `T`. -/
structure RepresentsAt (q : Deque α) (T : ℕ) (d : BoundedDeque maxQueueEntries α) : Prop where
  size : q.size = maxQueueEntries
  top : q.top = idx T
  bottom : q.bottom = idx (T + d.items.length)
  holds : Holds q T d.items

/-- The buffer represents the list. -/
def Represents (q : Deque α) (d : BoundedDeque maxQueueEntries α) : Prop :=
  ∃ T, RepresentsAt q T d

theorem represents_initQueue : Represents (initQueue : Deque α) .empty :=
  ⟨0, rfl, rfl, rfl, fun _ h => absurd h (Nat.not_lt_zero _)⟩

namespace RepresentsAt

variable {q : Deque α} {T : ℕ} {d : BoundedDeque maxQueueEntries α}

theorem isFull (h : RepresentsAt q T d) :
    isFullQueue q q.bottom q.top = true ↔ d.items.length = 128 := by
  rw [h.bottom, h.top]
  exact isFullQueue_idx h.size d.bound

theorem isEmpty (h : RepresentsAt q T d) :
    isEmptyQueue q.bottom q.top = true ↔ d.items = [] := by
  have hle : d.items.length ≤ 128 := d.bound
  rw [isEmptyQueue, Bool.or_eq_true, beq_iff_eq, beq_iff_eq, h.bottom, h.top, idx_add_one,
    idx_eq_idx, idx_eq_idx, ← List.length_eq_zero_iff]
  omega

/-- What is stored between `top` and `bottom` is the list. -/
theorem stored (h : RepresentsAt q T d) : q.stored = d.items.map some := by
  have hle : d.items.length ≤ 128 := d.bound
  have hlen : (q.bottom - q.top).toNat = d.items.length := by
    rw [h.bottom, h.top, ← idx_add_idx, BitVec.add_comm, BitVec.add_sub_cancel, idx,
      BitVec.toNat_ofNat]
    omega
  refine List.ext_getElem (by simp [Deque.stored, hlen]) fun k hk _ => ?_
  have hk' : k < d.items.length := by simpa [Deque.stored, hlen] using hk
  simp only [Deque.stored, List.getElem_map, List.getElem_range]
  rw [h.top, show idx T + BitVec.ofNat 8 k = idx (T + k) from idx_add_idx _ _, slot_idx h.size]
  exact h.holds k hk'

/-! ## Each call keeps it -/

/-- A full queue refuses, and nothing changes. -/
theorem enqueue_full (h : RepresentsAt q T d) (hfull : d.items.length = 128) (data : α) :
    enqueue data q = (false, q) := by
  rw [enqueue]
  exact if_pos (h.isFull.mpr hfull)

theorem enqueue_of_lt (h : RepresentsAt q T d) (hlt : d.items.length < 128) (data : α)
    (d' : BoundedDeque maxQueueEntries α) (hd' : d'.items = d.items ++ [data]) :
    (enqueue data q).1 = true ∧ RepresentsAt (enqueue data q).2 T d' := by
  have hfull : ¬ isFullQueue q q.bottom q.top = true := fun hf => by
    have := h.isFull.mp hf
    omega
  have hslot : q.slot q.bottom = (T + d.items.length) % 128 := by rw [h.bottom, slot_idx h.size]
  rw [enqueue, if_neg hfull]
  refine ⟨rfl, h.size, h.top, ?_, ?_⟩
  · show q.bottom + 1 = _
    rw [h.bottom, idx_add_one, hd', List.length_append, List.length_singleton, Nat.add_assoc]
  · rw [hd', Holds.concat]
    show Holds { q with entries := Function.update q.entries (q.slot q.bottom) _ } _ _ ∧
      Function.update q.entries (q.slot q.bottom) _ _ = _
    rw [hslot, Function.update_self]
    exact ⟨h.holds.write hlt _, rfl⟩

theorem dequeueFront_nil (h : RepresentsAt q T d) (hd : d.items = []) :
    (dequeueFront q).1 = none ∧ RepresentsAt (dequeueFront q).2 T d := by
  have hempty : q.bottom - 1 + 1 = q.top := by
    rw [sub_one_add_one, h.bottom, h.top, hd]
    rfl
  rw [dequeueFront, if_pos hempty]
  refine ⟨rfl, h.size, h.top, ?_, h.holds⟩
  show q.top = _
  rw [h.top, hd]
  rfl

/-- The only element is taken from the other end: both indices move. -/
theorem dequeueFront_singleton (h : RepresentsAt q T d) {x : α} (hd : d.items = [x]) :
    (dequeueFront q).1 = some x ∧ RepresentsAt (dequeueFront q).2 (T + 1) .empty := by
  have hb : q.bottom - 1 = q.top := by
    rw [← BitVec.add_left_inj 1, sub_one_add_one, h.bottom, h.top, hd, idx_add_one]
    rfl
  have hne : ¬ q.top + 1 = q.top := by
    rw [h.top, idx_add_one, idx_eq_idx]
    omega
  have hret : q.entries (q.slot q.top) = some x := by
    have hholds := h.holds
    rw [hd] at hholds
    rw [h.top, slot_idx h.size]
    exact hholds.head
  have hcall : dequeueFront q = (some x, { q with top := q.top + 1, bottom := q.top + 1 }) := by
    simp only [dequeueFront, hb, hne, if_false, ne_eq, not_true_eq_false, Deque.casTop, if_true]
    exact Prod.ext hret rfl
  have htop : q.top + 1 = idx (T + 1) := by rw [h.top, idx_add_one]
  rw [hcall]
  exact ⟨rfl, h.size, htop, htop, fun _ hk => absurd hk (Nat.not_lt_zero _)⟩

theorem dequeueFront_concat (h : RepresentsAt q T d) {x : α}
    {d' : BoundedDeque maxQueueEntries α} (hd : d.items = d'.items ++ [x]) (hd' : d'.items ≠ []) :
    (dequeueFront q).1 = some x ∧ RepresentsAt (dequeueFront q).2 T d' := by
  have hpos : 0 < d'.items.length := List.length_pos_of_ne_nil hd'
  have hle : d.items.length ≤ 128 := d.bound
  have hlen : d.items.length = d'.items.length + 1 := by
    rw [hd, List.length_append, List.length_singleton]
  have hb : q.bottom - 1 = idx (T + d'.items.length) := by
    rw [← BitVec.add_left_inj 1, sub_one_add_one, h.bottom, hlen, idx_add_one]
    rfl
  have hnonempty : ¬ q.bottom - 1 + 1 = q.top := by
    rw [sub_one_add_one, h.bottom, h.top, idx_eq_idx]
    omega
  have hne : q.bottom - 1 ≠ q.top := by
    rw [hb, h.top, Ne, idx_eq_idx]
    omega
  have hholds := h.holds
  rw [hd, Holds.concat] at hholds
  have hret : q.entries (q.slot (q.bottom - 1)) = some x := by
    rw [hb, slot_idx h.size]
    exact hholds.2
  rw [dequeueFront, if_neg hnonempty, if_pos hne]
  exact ⟨hret, h.size, h.top, hb, hholds.1⟩

theorem dequeueBack_nil (h : RepresentsAt q T d) (hd : d.items = []) :
    dequeueBack q = (.backEmpty, q) := by
  rw [dequeueBack]
  exact if_pos (h.isEmpty.mpr hd)

theorem dequeueBack_cons (h : RepresentsAt q T d) {x : α}
    {d' : BoundedDeque maxQueueEntries α} (hd : d.items = x :: d'.items) :
    (dequeueBack q).1 = .backTaken (some x) ∧ RepresentsAt (dequeueBack q).2 (T + 1) d' := by
  have hholds := h.holds
  rw [hd] at hholds
  have hnonempty : ¬ isEmptyQueue q.bottom q.top = true := fun hempty => by
    rw [h.isEmpty, hd] at hempty
    exact List.cons_ne_nil _ _ hempty
  have hret : q.entries (q.slot q.top) = some x := by
    rw [h.top, slot_idx h.size]
    exact hholds.head
  have hcall : dequeueBack q = (.backTaken (some x), { q with top := q.top + 1 }) := by
    simp only [dequeueBack, hnonempty, Deque.casTop, if_true]
    exact Prod.ext (congrArg Answer.backTaken hret) rfl
  have hlen : T + d.items.length = T + 1 + d'.items.length := by
    rw [hd, List.length_cons]
    omega
  rw [hcall]
  exact ⟨rfl, h.size, by rw [h.top, idx_add_one], by rw [← hlen]; exact h.bottom, hholds.tail⟩

end RepresentsAt

/-- One call on the buffer gives the answer of the list, and the result still
represents it. -/
theorem Represents.queueCall {q : Deque α} {d : BoundedDeque maxQueueEntries α}
    (h : Represents q d) (c : Call α) :
    (queueCall q c).1 = (d.call c).1 ∧ Represents (queueCall q c).2 (d.call c).2 := by
  obtain ⟨T, h⟩ := h
  cases c with
  | enqueue data =>
    rcases Nat.lt_or_eq_of_le d.bound with hlt | hfull
    · let d' : BoundedDeque maxQueueEntries α :=
        ⟨d.items ++ [data], by rw [List.length_append]; exact hlt⟩
      obtain ⟨hans, hrep⟩ := h.enqueue_of_lt hlt data d' rfl
      rw [BoundedDeque.call_enqueue_of_lt hlt (rfl : d'.items = d.items ++ [data])]
      exact ⟨congrArg Answer.enqueued hans, T, hrep⟩
    · rw [BoundedDeque.call_enqueue_of_full hfull, Queue.queueCall, h.enqueue_full hfull]
      exact ⟨rfl, T, h⟩
  | dequeueFront =>
    rcases List.eq_nil_or_concat' d.items with hnil | ⟨M, x, hd⟩
    · obtain ⟨hans, hrep⟩ := h.dequeueFront_nil hnil
      rw [BoundedDeque.call_dequeueFront_nil hnil]
      exact ⟨congrArg Answer.front hans, T, hrep⟩
    · have hM : M.length ≤ maxQueueEntries := by
        have := d.bound
        rw [hd, List.length_append] at this
        omega
      let d' : BoundedDeque maxQueueEntries α := ⟨M, hM⟩
      have hd' : d.items = d'.items ++ [x] := hd
      rw [BoundedDeque.call_dequeueFront_concat hd']
      by_cases hnil : M = []
      · subst hnil
        obtain ⟨hans, hrep⟩ := h.dequeueFront_singleton hd
        exact ⟨congrArg Answer.front hans, T + 1, hrep⟩
      · obtain ⟨hans, hrep⟩ := h.dequeueFront_concat hd' hnil
        exact ⟨congrArg Answer.front hans, T, hrep⟩
  | dequeueBack =>
    cases hd : d.items with
    | nil =>
      rw [BoundedDeque.call_dequeueBack_nil hd, Queue.queueCall, h.dequeueBack_nil hd]
      exact ⟨rfl, T, h⟩
    | cons x M =>
      have hM : M.length ≤ maxQueueEntries := by
        have := d.bound
        rw [hd, List.length_cons] at this
        omega
      let d' : BoundedDeque maxQueueEntries α := ⟨M, hM⟩
      have hd' : d.items = x :: d'.items := hd
      rw [BoundedDeque.call_dequeueBack_cons hd']
      obtain ⟨hans, hrep⟩ := h.dequeueBack_cons hd'
      exact ⟨hans, T + 1, hrep⟩

/-- The buffer refines the list. -/
theorem simulation_queueCall :
    Simulation (queueCall (α := α)) (BoundedDeque.call (n := maxQueueEntries)) Represents where
  answer c h := (h.queueCall c).1
  next c h := (h.queueCall c).2

/-- **The circular buffer is a list of at most 128 tasks.**  After any sequence of
calls on a queue set up by `init_queue` all answers have been those of the list,
`isEmpty_Queue` and `isFull_Queue` agree with it, and `enqueue` refuses when it has
128 elements, and then leaves the queue as it is. -/
theorem queue_refines_list (cs : List (Call α)) :
    ∃ (answers : List (Answer α)) (q : Deque α) (d : BoundedDeque maxQueueEntries α),
      perform queueCall cs initQueue = (answers, q) ∧
      perform BoundedDeque.call cs .empty = (answers, d) ∧
      q.stored = d.items.map some ∧
      (isEmptyQueue q.bottom q.top = true ↔ d.items = []) ∧
      (isFullQueue q q.bottom q.top = true ↔ d.items.length = 128) ∧
      ∀ data, ((enqueue data q).1 = false ↔ d.items.length = 128) ∧
        ((enqueue data q).1 = false → (enqueue data q).2 = q) := by
  obtain ⟨hans, T, h⟩ := simulation_queueCall.perform cs (represents_initQueue (α := α))
  refine ⟨_, _, _, rfl, Prod.ext hans.symm rfl, h.stored, h.isEmpty, h.isFull, fun data => ?_⟩
  rcases Nat.lt_or_eq_of_le (BoundedDeque.bound _) with hlt | heq
  · have hok := (h.enqueue_of_lt hlt data
      ⟨_ ++ [data], by rw [List.length_append]; exact hlt⟩ rfl).1
    rw [hok]
    exact ⟨⟨Bool.noConfusion, fun heq => absurd heq (Nat.ne_of_lt hlt)⟩, Bool.noConfusion⟩
  · rw [h.enqueue_full heq data]
    exact ⟨⟨fun _ => heq, fun _ => rfl⟩, fun _ => rfl⟩

/-! ## A call without interference -/

section Solo

variable {Thief : Type*} [DecidableEq Thief] {s : State α Thief}

/-- The accesses of `enqueue`, made in a row. -/
theorem enqueue_solo (h : s.owner = .idle) (data : α) :
    ∃ s', Reach step s s' ∧ s'.queue = (enqueue data s.queue).2 ∧ s'.owner = .idle ∧
      s'.thief = s.thief ∧
      s'.hist.accepted = (if (enqueue data s.queue).1 then [data] else []) ++ s.hist.accepted := by
  by_cases hfull : isFullQueue s.queue s.queue.bottom s.queue.top = true
  · refine Run.exists_of_exec (l := [.enqueue data, .owner]) ?_
    simp only [exec, step, ownerStep, always, h, hfull, enqueue, if_true, Option.bind_some]
    exact ⟨_, rfl, rfl, rfl, rfl, rfl⟩
  · refine Run.exists_of_exec (l := [.enqueue data, .owner, .owner, .owner]) ?_
    simp only [exec, step, ownerStep, always, h, hfull, enqueue, if_true, if_false,
      Option.bind_some, Bool.false_eq_true]
    exact ⟨_, rfl, rfl, rfl, rfl, rfl⟩

/-- The accesses of `dequeue_front`, made in a row. -/
theorem dequeueFront_solo (h : s.owner = .idle) :
    ∃ s', Reach step s s' ∧ s'.queue = (dequeueFront s.queue).2 ∧ s'.owner = .idle ∧
      s'.thief = s.thief ∧
      s'.hist.returned = ((dequeueFront s.queue).1.map some).toList ++ s.hist.returned := by
  by_cases hempty : s.queue.bottom - 1 + 1 = s.queue.top
  · refine Run.exists_of_exec (l := [.dequeueFront, .owner, .owner, .owner]) ?_
    simp only [exec, step, ownerStep, always, h, hempty, dequeueFront, if_true, Option.bind_some]
    exact ⟨_, rfl, rfl, rfl, rfl, rfl⟩
  · by_cases hne : s.queue.bottom - 1 = s.queue.top
    · -- one element: it takes the compare-and-swap as well
      rw [hne] at hempty
      refine Run.exists_of_exec (l := [.dequeueFront, .owner, .owner, .owner, .owner, .owner]) ?_
      simp only [exec, step, ownerStep, always, h, hne, hempty, dequeueFront, Deque.casTop, ne_eq,
        not_true_eq_false, if_true, if_false, Option.bind_some]
      exact ⟨_, rfl, rfl, rfl, rfl, rfl⟩
    · refine Run.exists_of_exec (l := [.dequeueFront, .owner, .owner, .owner]) ?_
      simp only [exec, step, ownerStep, always, h, hempty, hne, dequeueFront, ne_eq,
        not_false_eq_true, if_true, if_false, Option.bind_some]
      exact ⟨_, rfl, rfl, rfl, rfl, rfl⟩

/-- The accesses of `dequeue_back`, made in a row. -/
theorem dequeueBack_solo {i : Thief} (h : s.thief i = .idle) :
    ∃ s', Reach step s s' ∧ s'.queue = (dequeueBack s.queue).2 ∧ s'.owner = s.owner ∧
      s'.thief = s.thief ∧
      s'.hist.returned = (dequeueBack s.queue).1.taken ++ s.hist.returned := by
  have hthief : Function.update s.thief i .idle = s.thief := by rw [← h, Function.update_eq_self]
  by_cases hempty : isEmptyQueue s.queue.bottom s.queue.top = true
  · refine Run.exists_of_exec (l := [.thief i, .thief i]) ?_
    simp only [exec, step, thiefStep, always, h, hempty, dequeueBack, State.setThief,
      Function.update_self, Function.update_idem, hthief, if_true, Option.bind_some]
    exact ⟨_, rfl, rfl, rfl, rfl, rfl⟩
  · refine Run.exists_of_exec (l := [.thief i, .thief i, .thief i, .thief i]) ?_
    simp only [exec, step, thiefStep, always, h, hempty, dequeueBack, Deque.casTop,
      State.setThief, Function.update_self, Function.update_idem, hthief, if_true, if_false,
      Option.bind_some, Bool.false_eq_true]
    exact ⟨_, rfl, rfl, rfl, rfl, rfl⟩

end Solo

end Queue
end Partee
