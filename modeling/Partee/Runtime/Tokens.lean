import Partee.Runtime.Move
import Partee.Transition.Tally

/-!
# Who holds what

Every phase of the life of a task is the responsibility of some activation
record or of a deque: one record creates it, one is committed to scheduling it, a
deque or a record carries it once it is scheduled, one record releases it.  The
records are counted by weights, and `Tokens` says that the tally of each weight
over all stacks is what the status of the task announces.  A thread that stores
to `status` holds the token of the present status, and nobody else does; this is
the whole reason why plain stores are enough.

* `Frame.creates`, `Frame.pending`, …: the weights.
* `Tokens`: the tallies.
* `Owned`: what they say about the innermost record of a worker.
-/

namespace Partee

open Transition

variable {ω : Type*}

/-! ## The weights -/

/-- The tasks of the detached stack still to be notified. -/
def ReleasePc.rest : ReleasePc → List TaskId
  | .fire rest | .await _ _ rest | .testStatus _ _ rest | .testWaitfor _ _ rest => rest
  | _ => []

namespace Frame

/-- Inside `tpc_call(c)`, up to the store of `CREATED_TASK`. -/
def creates (c : TaskId) : Frame → ℕ
  | .execute _ _ (.call c' _) => if c' = c then 1 else 0
  | _ => 0

/-- Inside `tpc_call(c)`, before the increment of the parent's counter. -/
def uncounted (c : TaskId) : Frame → ℕ
  | .execute _ _ (.call c' .incr) => if c' = c then 1 else 0
  | _ => 0

/-- The successful pushes `tpc_call(c)` has counted. -/
def pushedBy (c : TaskId) : Frame → ℕ
  | .execute _ _ (.call c' pc) => if c' = c then pc.pushed else 0
  | _ => 0

/-- The value `tpc_call(c)` has stored to `waitfor`. -/
def waitforBy (c : TaskId) : Frame → ℕ
  | .execute _ _ (.call c' (.storeCreated n)) => if c' = c then n else 0
  | _ => 0

/-- Inside `schedule_task(t)`, before the compare-and-swap. -/
def readies (t : TaskId) : Frame → ℕ
  | .schedule t' false => if t' = t then 1 else 0
  | _ => 0

/-- Has raised `fired` of `t` to `n` and has not yet compared it with `waitfor`. -/
def awaits (t : TaskId) (n : ℕ) : Frame → ℕ
  | .release _ (.await t' n' _) | .release _ (.testStatus t' n' _)
  | .release _ (.testWaitfor t' n' _) => if t' = t ∧ n' = n then 1 else 0
  | _ => 0

/-- Has `t` scheduled, and not yet in a deque or started. -/
def pending (t : TaskId) : Frame → ℕ
  | .schedule t' true | .enter t' => if t' = t then 1 else 0
  | _ => 0

/-- Runs the body of `t`, up to the store of `EXECUTED_TASK`. -/
def runs (t : TaskId) : Frame → ℕ
  | .execute t' _ .body | .execute t' _ (.call _ _) | .execute t' _ (.sync _ _)
  | .execute t' _ .storeExecuted => if t' = t then 1 else 0
  | _ => 0

/-- Releases `t`, before the store of `COMPLETE_TASK`. -/
def releases (t : TaskId) : Frame → ℕ
  | .release t' .lock | .release t' (.fire _) | .release t' (.await _ _ _)
  | .release t' (.testStatus _ _ _) | .release t' (.testWaitfor _ _ _)
  | .release t' .storeComplete => if t' = t then 1 else 0
  | _ => 0

/-- Releases `t`, before `stack_lock`. -/
def locks (t : TaskId) : Frame → ℕ
  | .release t' .lock => if t' = t then 1 else 0
  | _ => 0

/-- Releases `t`, between the store of `COMPLETE_TASK` and the decrement of the
parent's counter. -/
def leaves (t : TaskId) : Frame → ℕ
  | .release t' .deleteRegion | .release t' .decr => if t' = t then 1 else 0
  | _ => 0

/-- How often `t` is still to be notified from a detached stack. -/
def detached (t : TaskId) : Frame → ℕ
  | .release _ pc => pc.rest.count t
  | _ => 0

end Frame

/-- An entry of a deque. -/
def isTask (t x : TaskId) : ℕ := if x = t then 1 else 0

/-- The number of successful pushes of `t`. -/
def pushesOf (r : Runtime ω) (t : TaskId) : ℕ := (r.hist.pushes.map Prod.fst).count t

/-- The occurrences of `t` in unlocked `to_notify` stacks. -/
def waiting (r : Runtime ω) (t : TaskId) : ℕ :=
  ∑ s ∈ Finset.range r.next, ((r.task s).toNotify.getD []).count t

/-- 1 if `p` holds, 0 otherwise. -/
abbrev one (p : Prop) [Decidable p] : ℕ := if p then 1 else 0

theorem one_le (p : Prop) [Decidable p] : one p ≤ 1 := by
  unfold one
  split <;> omega

/-! ## The tallies -/

/-- No descriptor has been allocated at `t` yet. -/
structure Fresh (r : Runtime ω) (t : TaskId) : Prop where
  task : r.task t = .new [] none
  counted : r.hist.counted t = false
  left : r.hist.left t = false
  start : r.hist.start t = 0
  pushes : pushesOf r t = 0

/-- The tallies of all weights. -/
structure Tokens [Fintype ω] (r : Runtime ω) : Prop where
  fresh : ∀ t, r.next ≤ t → Fresh r t
  creating : ∀ t, tally (Frame.creates t) r.stack =
    one (t < r.next ∧ (r.task t).status = .creating)
  uncounted : ∀ t, tally (Frame.uncounted t) r.stack =
    one (t < r.next ∧ r.hist.counted t = false)
  pending : ∀ t, tally (Frame.pending t) r.stack + tally (isTask t) r.queue =
    one ((r.task t).status = .scheduled ∧ r.hist.start t = 0)
  running : ∀ t, tally (Frame.runs t) r.stack =
    one ((r.task t).status = .scheduled ∧ 0 < r.hist.start t)
  releasing : ∀ t, tally (Frame.releases t) r.stack = one ((r.task t).status = .releasing)
  locking : ∀ t, tally (Frame.locks t) r.stack + one ((r.task t).toNotify = none) =
    one ((r.task t).status = .releasing ∨ (r.task t).status = .complete)
  leaving : ∀ t, tally (Frame.leaves t) r.stack =
    one ((r.task t).status = .complete ∧ r.hist.left t = false)
  /-- Before `CREATED_TASK`, the threads that wait for it hold one value each. -/
  awaiting : ∀ t, (r.task t).status = .creating → tally (Frame.readies t) r.stack = 0 ∧
    ∀ n, tally (Frame.awaits t n) r.stack = one (1 ≤ n ∧ n ≤ (r.task t).fired)
  /-- Afterwards, one thread is committed to scheduling a task with `fired = waitfor`. -/
  committed : ∀ t, (r.task t).status ≠ .creating →
    tally (Frame.readies t) r.stack + tally (Frame.awaits t (r.task t).waitfor) r.stack =
      one ((r.task t).status = .created ∧ (r.task t).fired = (r.task t).waitfor)
  notified : ∀ t, pushesOf r t =
    (r.task t).fired + tally (Frame.detached t) r.stack + waiting r t
  pushing : ∀ t, (r.task t).status = .creating →
    tally (Frame.pushedBy t) r.stack = pushesOf r t ∧
      tally (Frame.waitforBy t) r.stack = (r.task t).waitfor
  waitfor : ∀ t, (r.task t).status ≠ .creating → (r.task t).waitfor = pushesOf r t
  fired : ∀ t, Status.scheduled.code ≤ (r.task t).status.code →
    (r.task t).fired = (r.task t).waitfor
  unstarted : ∀ t, (r.task t).status.code < Status.scheduled.code → r.hist.start t = 0
  started : ∀ t, Status.executed.code ≤ (r.task t).status.code → 0 < r.hist.start t
  counted : ∀ t, t < r.next → (r.task t).status ≠ .creating → r.hist.counted t = true
  left : ∀ t, r.hist.left t = true → (r.task t).status = .complete

end Partee
