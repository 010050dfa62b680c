import Partee.Queue.Linearizable
import Partee.Runtime.Step

/-!
# The runtime on its deques

In `Runtime.Step` the deques appear by their contract only.  Here they are the deques of
`queue.c`, one for each worker, and a worker that needs one calls its functions: between
two of their accesses of `bottom`, `top` and `entries` the other workers may move.

A worker needs a deque at three places.  The loops of `worker_thread` and `tpc_sync` call
`pop_task`, that is `dequeue_front` on the deque of the worker, and, if it returns `NULL`,
check the assertion of `pop_task` and call `steal_task`, that is `dequeue_back` on the
deque of some worker; `schedule_task` calls `enqueue`.  At all other records a step is a
step of `Runtime.Step`.

Which deque `steal_task` picks is left open: `steal_index` starts at 0 and is drawn again
at random after an attempt that found the deque empty.
-/

namespace Partee

open Transition

variable {ω : Type*}

/-- The deque function that a record calls next. -/
def Frame.dequeCall : Frame → Option (Queue.Call TaskId)
  | .worker => some .dequeueFront
  | .execute _ _ (.sync _ true) => some .dequeueFront
  | .schedule t true => some (.enqueue t)
  | _ => none

/-- The record of a loop, after its attempts to get a task. -/
def Frame.resumed : Frame → Frame
  | .execute t tmp (.sync q _) => .execute t tmp (.sync q false)
  | f => f

/-- What becomes of a record that gets an answer.  `dequeue_back` returns 1 and `NULL` if it
finds `NULL` in the buffer, which the loops treat like no task. -/
def Frame.answered (f : Frame) : Queue.Answer TaskId → List Frame
  | .enqueued true => []
  | .enqueued false =>
      match f with
      | .schedule t _ => [.enter t]
      | _ => [f]
  | .front (some t) => [.enter t, f.resumed]
  | .front none => [f]
  | .backTaken (some t) => [.enter t, f.resumed]
  | .backTaken none | .backEmpty | .backContended => [f.resumed]

/-- Where a worker stands with its deque functions. -/
inductive DequePc (ω : Type*) where
  /-- it has called none -/
  | outside
  /-- inside `enqueue` -/
  | enqueueing
  /-- inside `dequeue_front`, called by `pop_task` -/
  | popping
  /-- `dequeue_front` has returned `NULL`; the load of `bottom` by the `isEmpty_Queue` in the
  assertion of `pop_task` is next -/
  | assertBottom
  /-- `isEmpty_Queue` has loaded `bottom`, and `top` is next -/
  | assertTop (b : BitVec 8)
  /-- the assertion has failed -/
  | aborted
  /-- the call of `dequeue_back` by `steal_task` is next -/
  | steal
  /-- inside `dequeue_back` on the deque of `v` -/
  | stealing (v : ω)

/-- Where it stands after an answer. -/
def DequePc.after : Queue.Answer TaskId → DequePc ω
  | .front none => .assertBottom
  | _ => .outside

/-- The runtime, the deques, and where the workers stand.  The field `queue` of the runtime
plays no role. -/
structure Machine (ω : Type*) where
  state : State ω
  deque : ω → Queue.State TaskId ω
  pc : ω → DequePc ω

/-- What a worker does next. -/
inductive Turn (ω : Type*) where
  -- a step outside of the deque functions
  | run (ch : Choice ω)
  -- the next access of a deque function, or the call of `enqueue` or `dequeue_front`
  | deque
  -- `steal_task` calls `dequeue_back` on the deque of `v`
  | steal (v : ω)

namespace Machine

variable [DecidableEq ω]

/-- Worker `w` goes to a program point. -/
def setPc (x : Machine ω) (w : ω) (pc : DequePc ω) : Machine ω :=
  { x with pc := Function.update x.pc w pc }

/-- A deque function returns to worker `w`. -/
def answer (x : Machine ω) (w : ω) (r : Queue.Answer TaskId) : Machine ω :=
  match x.state.rt.stack w with
  | [] => x
  | f :: fs =>
      { x.setPc w (.after r) with
        state.rt := x.state.rt.setStack w (f.answered r ++ fs) }

/-- One access of the deque of `v`, on behalf of worker `w`, which stands at `pc` unless the
function returns. -/
def access (x : Machine ω) (w v : ω) (pc : DequePc ω) (a : Queue.Label TaskId ω) :
    Option (Machine ω) :=
  (Queue.step (x.deque v) a).map fun q =>
    let x' := { x.setPc w pc with deque := Function.update x.deque v q }
    match Queue.events (x.deque v) a with
    | [.ret _ r] => x'.answer w r
    | _ => x'

/-- One step inside a deque function, or between two of them. -/
def dequeStep (x : Machine ω) (w : ω) : DequePc ω → Option (Machine ω)
  | .enqueueing => x.access w w .enqueueing .owner
  | .popping => x.access w w .popping .owner
  | .assertBottom => some (x.setPc w (.assertTop (x.deque w).queue.bottom))
  | .assertTop b =>
      if Queue.isEmptyQueue b (x.deque w).queue.top then some (x.setPc w .steal)
      else some (x.setPc w .aborted)
  | .stealing v => x.access w v (.stealing v) (.thief w)
  | _ => none

/-- The call of a deque function by a record. -/
def dequeCall (x : Machine ω) (w : ω) : Option (Queue.Call TaskId) → Option (Machine ω)
  | some (.enqueue t) => x.access w w .enqueueing (.enqueue t)
  | some .dequeueFront => x.access w w .popping .dequeueFront
  | _ => none

/-- One step: worker `a.1` moves. -/
def step (gridT : BitVec 64) (x : Machine ω) (a : ω × Turn ω) : Option (Machine ω) :=
  match x.state.rt.stack a.1 with
  | [] => none
  | f :: _ =>
      match x.pc a.1, a.2 with
      | .outside, .run ch =>
          if f.dequeCall = none then
            (Partee.step gridT x.state (a.1, ch)).map fun s => { x with state := s }
          else none
      | .outside, .deque => x.dequeCall a.1 f.dequeCall
      | .steal, .steal v => x.access a.1 v (.stealing v) (.thief a.1)
      | pc, .deque => x.dequeStep a.1 pc
      | _, _ => none

/-- After `tpc_init`: no task has been spawned and the deques are empty. -/
def init (main : ω) : Machine ω where
  state := Partee.init main
  deque := fun _ => Queue.init TaskId ω
  pc := fun _ => .outside

/-- The step is not the success of a `dequeue_back` that has read an outdated `top`. -/
def Timely (x : Machine ω) (a : ω × Turn ω) : Prop :=
  ∀ v, x.pc a.1 = .stealing v ∨ a.2 = .steal v → Queue.Timely (x.deque v) (.thief a.1)

/-- The deque that a worker may access as a thief. -/
def victim (x : Machine ω) (a : ω × Turn ω) : List ω :=
  (match x.pc a.1 with
    | .stealing v => [v]
    | _ => []) ++
  match a.2 with
    | .steal v => [v]
    | _ => []

omit [DecidableEq ω] in
theorem mem_victim {x : Machine ω} {a : ω × Turn ω} {v : ω} :
    v ∈ x.victim a ↔ x.pc a.1 = .stealing v ∨ a.2 = .steal v := by
  rw [victim, List.mem_append]
  refine or_congr ?_ ?_
  · cases x.pc a.1 with
    | stealing u => simp [eq_comm]
    | _ => simp
  · cases a.2 with
    | steal u => simp [eq_comm]
    | _ => simp

instance (x : Machine ω) (a : ω × Turn ω) : Decidable (x.Timely a) :=
  decidable_of_iff (∀ v ∈ x.victim a, Queue.Timely (x.deque v) (.thief a.1))
    (forall_congr' fun _ => imp_congr_left mem_victim)

end Machine
end Partee
