import Partee.Queue.Invariant
import Mathlib.Data.List.Perm.Subperm
import Mathlib.Data.List.Count

/-!
# Each task once, unless a thief oversleeps

With the invariant at hand the accounting of the deque is immediate: along every
run whose thieves are timely, the returned values are a sub-multiset of the
accepted tasks, and at rest what is missing is stored between `top` and
`bottom`.

The condition cannot be dropped.  `top` has eight bits, so a thief that loads it,
then sleeps while it is advanced 256 times, finds its compare-and-swap succeed
and returns the entry it had read before.  `stale_thief_returns_again` performs
that run: task 1 is popped by the owner, the owner then passes 255 other tasks
through the deque, and the thief returns task 1 once more.
-/

namespace Partee
namespace Queue

open Transition

variable {α Thief : Type*} [DecidableEq Thief]

/-- **The deque hands out every accepted task at most once and loses none**, in
every run in which no compare-and-swap of a thief succeeds after `top` has been
advanced since the thief read it. -/
theorem handed_out_once {s : State α Thief} (r : Run step Timely (init α Thief) s) :
    s.hist.returned.Subperm (s.hist.accepted.map some) ∧
      (s.Quiet → (s.hist.accepted.map some).Perm (s.hist.returned ++ s.queue.stored)) := by
  obtain ⟨L, H, h⟩ := Inv.of_run r
  constructor
  · exact (List.sublist_append_left _ _).subperm.trans h.balance.symm.subperm
  · rintro ⟨hidle, -⟩
    obtain ⟨hstored, rfl⟩ := h.stored hidle
    have hbal := h.balance
    rwa [List.append_nil, hstored] at hbal

/-- Two tasks are enqueued, a thief takes the first and the second is stored. -/
theorem handed_out_once_example :
    ∃ s : State ℕ Unit, Run step Timely (init ℕ Unit) s ∧ s.hist.returned = [some 1] ∧
      s.hist.returned.Subperm (s.hist.accepted.map some) ∧
      (s.hist.accepted.map some).Perm (s.hist.returned ++ s.queue.stored) := by
  obtain ⟨s, r, hret, howner, hthief⟩ : ∃ s : State ℕ Unit, Run step Timely (init ℕ Unit) s ∧
      s.hist.returned = [some 1] ∧ s.owner = .idle ∧ s.thief () = .idle :=
    Run.exists_of_exec (l := [.enqueue 1, .owner, .owner, .owner, .enqueue 2, .owner, .owner,
      .owner, .thief (), .thief (), .thief (), .thief ()]) ⟨_, rfl, rfl, rfl, rfl⟩
  have h := handed_out_once r
  exact ⟨s, r, hret, h.1, h.2 ⟨howner, fun i => hthief⟩⟩

/-! ## The stale thief -/

/-- The thief has read `top = 0` and the entry of task 1; since then `top` has
been advanced `n + 1` times, the last `n` times past a copy of task 2. -/
def overslept (n : ℕ) (entries : ℕ → Option ℕ) : State ℕ Unit where
  queue := ⟨idx (n + 1), idx (n + 1), maxQueueEntries, entries⟩
  owner := .idle
  thief := fun _ => .backCas 0 (some 1)
  hist := ⟨List.replicate n 2 ++ [1], List.replicate n (some 2) ++ [some 1], n + 1, fun _ => 0⟩

theorem reach_overslept_zero : ∃ e, Reach step (init ℕ Unit) (overslept 0 e) :=
  ⟨_, Run.of_exec (l := [.enqueue 1, .owner, .owner, .owner, .thief (), .thief (), .thief (),
    .dequeueFront, .owner, .owner, .owner, .owner, .owner]) rfl⟩

/-- The owner enqueues task 2 and pops it again. -/
theorem reach_overslept_succ (n : ℕ) (e : ℕ → Option ℕ) :
    ∃ e', Reach step (overslept n e) (overslept (n + 1) e') := by
  have hfull : isFullQueue (overslept n e).queue (idx (n + 1)) (idx (n + 1)) = false := by
    rw [isFullQueue, BitVec.xor_self]
    rfl
  have hback : idx (n + 1) + 1#8 - 1#8 = idx (n + 1) := BitVec.add_sub_cancel _ 1
  have hne : idx (n + 1) + 1#8 ≠ idx (n + 1) := by
    show idx (n + 1) + 1 ≠ idx (n + 1)
    rw [idx_add_one, Ne, idx_eq_idx]
    omega
  refine ⟨Function.update e ((overslept n e).queue.slot (idx (n + 1))) (some 2),
    Run.of_exec (l := [.enqueue 2, .owner, .owner, .owner, .dequeueFront, .owner, .owner,
      .owner, .owner, .owner]) ?_⟩
  simp only [overslept] at hfull ⊢
  simp [exec, step, ownerStep, always, hfull, hback, hne, Deque.slot, List.replicate_succ]
  exact idx_add_one _

/-- Any number of tasks can pass by the sleeping thief. -/
theorem reach_overslept (n : ℕ) : ∃ e, Reach step (init ℕ Unit) (overslept n e) := by
  induction n with
  | zero => exact reach_overslept_zero
  | succ n ih =>
    obtain ⟨e, r⟩ := ih
    obtain ⟨e', r'⟩ := reach_overslept_succ n e
    exact ⟨e', r.trans r'⟩

/-- So far task 1 has been accepted once and returned once. -/
theorem count_overslept (n : ℕ) (e : ℕ → Option ℕ) :
    (overslept n e).hist.accepted.count 1 = 1 ∧
      (overslept n e).hist.returned.count (some 1) = 1 := by
  simp [overslept, List.count_append, List.count_replicate]

/-- **A stale thief returns a task again.**  Task 1 is accepted once and returned
twice: `top` has been advanced 256 times since the thief read it, and its eight
bits are 0 again. -/
theorem stale_thief_returns_again :
    ∃ s : State ℕ Unit, Reach step (init ℕ Unit) s ∧
      s.hist.accepted.count 1 = 1 ∧ s.hist.returned.count (some 1) = 2 ∧
      ¬ s.hist.returned.Subperm (s.hist.accepted.map some) := by
  obtain ⟨e, r⟩ := reach_overslept 255
  obtain ⟨hacc, hret⟩ := count_overslept 255 e
  have hstep : step (overslept 255 e) (.thief ()) = some
      { (overslept 255 e).setThief () .idle with
        queue.top := 1
        hist.advances := 257
        hist.returned := some 1 :: (overslept 255 e).hist.returned } := rfl
  have hret' : (some 1 :: (overslept 255 e).hist.returned).count (some 1) = 2 := by
    rw [List.count_cons_self, hret]
  refine ⟨_, r.tail trivial hstep, hacc, hret', fun hsub => ?_⟩
  have hle : (some 1 :: (overslept 255 e).hist.returned).count (some 1) ≤
      ((overslept 255 e).hist.accepted.map some).count (some 1) := hsub.count_le (some 1)
  rw [hret', List.count_map_of_injective _ _ (Option.some_injective ℕ), hacc] at hle
  exact absurd hle (by decide)

end Queue
end Partee
