import Partee.Runtime.Dependencies
import Partee.Transition.Run

/-!
# The steps of the runtime

One step lets one worker perform one shared access of the function on top of its
stack.  `act` describes what the innermost record does: which records replace it
and what becomes of the rest of the state.  What the runtime does not determine
is the worker's choice: what a body calls next, which task a deque delivers, and
whether a deque accepts a task.

The deques appear by their contract only.  `enqueue` accepts a task or refuses
it, and a `dequeue_front` or `dequeue_back` delivers some accepted task and
removes it, or delivers nothing.  This allows every order of delivery, and a
task that is lost is a task that is never delivered.
-/

namespace Partee

open Transition

/-- What a worker may do next where the runtime leaves a choice. -/
inductive Choice (ω : Type*) where
  -- go on with the function on top of the stack
  | go
  -- a body allocates a task with these arguments and calls `tpc_call`
  | spawn (args : List Argument)
  -- a body calls `tpc_sync`
  | sync
  -- a body returns
  | ret
  -- `pop_task` or `steal_task` delivers the `k`-th task of the deque of `v`
  | take (v : ω) (k : ℕ)
  -- `pop_task` and `steal_task` deliver nothing
  | nothing
  -- `enqueue` refuses the task
  | refuse

variable {ω : Type*} [DecidableEq ω]

/-- The records that replace the innermost one, and the new state. -/
abbrev Outcome (ω : Type*) := List Frame × State ω

/-- `pop_task` or `steal_task` delivers the `k`-th task of the deque of `v`, and
it is executed on top of `f`. -/
def takeTask (s : State ω) (f : Frame) (v : ω) (k : ℕ) : Option (Outcome ω) :=
  (s.rt.queue v)[k]?.map fun t => ([.enter t, f], { s with rt := s.rt.dequeue v k })

/-- The loop of `worker_thread`. -/
def workerThread (s : State ω) : Choice ω → Option (Outcome ω)
  | .take v k => takeTask s .worker v k
  | .nothing => some ([.worker], s)
  | _ => none

/-- `execute_task(t)` and the body it calls.  The body of `main_task_desc` is the
main program, which `execute_task` has not called and which does not return to
it. -/
def executeTask (gridT : BitVec 64) (s : State ω) (w : ω) (t : TaskId) (tmp : Option TaskId) :
    ExecPc → Choice ω → Option (Outcome ω)
  | .body, .spawn args =>
      (s.rt.parent w).map fun p =>
        ([.execute t tmp (.call s.rt.next .incr)], { s with rt := s.rt.alloc args p })
  | .body, .sync => (s.rt.currTask w).map fun q => ([.execute t tmp (.sync q false)], s)
  | .body, .ret => if t = mainTask then none else some ([.execute t tmp .storeExecuted], s)
  | .call c (.storeCreated n), .go =>
      let s' := { s with rt := s.rt.setStatus c .created }
      if n = 0 then some ([.schedule c false, .execute t tmp .body], s')
      else some ([.execute t tmp .body], s')
  | .call c pc, .go =>
      (tpcCall gridT s c pc).map fun (pc', s') => ([.execute t tmp (.call c pc')], s')
  | .sync q false, .go =>
      if (s.rt.task q).numberOfChildren = 0 then
        some ([.execute t tmp .body], { s with rt := s.rt.setContext w (some q) })
      else some ([.execute t tmp (.sync q true)], s)
  | .sync q true, .take v k => takeTask s (.execute t tmp (.sync q false)) v k
  | .sync q true, .nothing => some ([.execute t tmp (.sync q false)], s)
  | .storeExecuted, .go =>
      some ([.execute t tmp .loadChildren], { s with rt := s.rt.setStatus t .executed })
  | .loadChildren, .go =>
      if 0 < (s.rt.task t).numberOfChildren then some ([.execute t tmp .restore], s)
      else some ([.release t .cas, .execute t tmp .restore], s)
  | .restore, .go => some ([], { s with rt := s.rt.setContext w tmp })
  | _, _ => none

/-- `schedule_task(t)`: the compare-and-swap, then the `enqueue`. -/
def scheduleTask (s : State ω) (w : ω) (t : TaskId) : Bool → Choice ω → Option (Outcome ω)
  | false, .go =>
      if (s.rt.task t).status = .created then
        some ([.schedule t true], { s with rt := s.rt.schedule t })
      else some ([], s)
  | true, .go => some ([], { s with rt := s.rt.enqueue w t })
  | true, .refuse => some ([.enter t], s)
  | _, _ => none

/-- `fire_dependencies(t)` and what `release_task(t)` does around it. -/
def releaseTask (s : State ω) (t : TaskId) : ReleasePc → Option (Outcome ω)
  | .cas =>
      if (s.rt.task t).status = .executed then
        some ([.release t .lock], { s with rt := s.rt.release t })
      else some ([], s)
  | .lock =>
      (s.rt.task t).toNotify.map fun l => ([.release t (.fire l)], { s with rt := s.rt.locked t })
  | .fire [] => some ([.release t .storeComplete], s)
  | .fire (x :: rest) =>
      some ([.release t (.await x ((s.rt.task x).fired + 1) rest)],
        { s with rt := s.rt.incrFired x })
  | .await x n rest =>
      if (s.rt.task x).status.code < Status.created.code then
        some ([.release t (.await x n rest)], s)
      else some ([.release t (.testStatus x n rest)], s)
  | .testStatus x n rest =>
      if (s.rt.task x).status = .created then some ([.release t (.testWaitfor x n rest)], s)
      else some ([.release t (.fire rest)], s)
  | .testWaitfor x n rest =>
      if (s.rt.task x).waitfor = n then
        some ([.schedule x false, .release t (.fire rest)], s)
      else some ([.release t (.fire rest)], s)
  | .storeComplete =>
      some ([.release t .deleteRegion], { s with rt := s.rt.setStatus t .complete })
  | .deleteRegion =>
      some ([.release t .decr],
        { s with rt := s.rt.modify t fun d => { d with regionDeleted := true } })
  | .decr =>
      match (s.rt.task t).parent with
      | none => some ([], s)
      | some p =>
          some ([.release t (.testParent p ((s.rt.task p).numberOfChildren - 1))],
            { s with rt := s.rt.decrChildren t p })
  | .testParent p children =>
      if children = 0 ∧ (s.rt.task p).status = .executed then
        some ([.release t (.callParent p)], s)
      else some ([], s)
  | .callParent p => some ([.release p .cas], s)

/-- What the innermost record of worker `w` does. -/
def act (gridT : BitVec 64) (s : State ω) (w : ω) : Frame → Choice ω → Option (Outcome ω)
  | .worker, a => workerThread s a
  | .enter t, .go =>
      some ([.execute t (s.rt.currTask w) .body],
        { rt := s.rt.begin w t, dep := s.dep.newTrie t })
  | .execute t tmp pc, a => executeTask gridT s w t tmp pc a
  | .schedule t enqueue, a => scheduleTask s w t enqueue a
  | .release t pc, .go => releaseTask s t pc
  | _, _ => none

/-- One step of the system: worker `a.1` moves. -/
def step (gridT : BitVec 64) (s : State ω) (a : ω × Choice ω) : Option (State ω) :=
  match s.rt.stack a.1 with
  | [] => none
  | f :: fs =>
      (act gridT s a.1 f a.2).map fun (gs, s') =>
        { s' with rt := s'.rt.setStack a.1 (gs ++ fs) }

/-- After `tpc_init`: the main program runs on worker `main`, every other worker
is in its loop, and no task has been spawned. -/
def init (main : ω) : State ω where
  rt :=
    { next := 1
      task := fun t =>
        if t = mainTask then { Descriptor.new [] none with status := .scheduled }
        else .new [] none
      stack := fun w => if w = main then [.execute mainTask none .body] else [.worker]
      queue := fun _ => []
      parent := fun _ => some mainTask
      currTask := fun w => if w = main then some mainTask else none
      hist :=
        { counted := fun t => t = mainTask
          left := fun _ => false
          clock := 1
          start := fun t => if t = mainTask then 1 else 0
          runs := fun t => if t = mainTask then 1 else 0
          scheduled := fun t => if t = mainTask then 1 else 0
          released := fun _ => 0
          pushes := [] } }
  dep := ⟨fun _ => ⟨0, [], 0, none⟩, 0, fun _ _ => none, fun _ => none, []⟩

/-- Worker `w` goes on for `n` accesses. -/
def goOn (w : ω) (n : ℕ) : List (ω × Choice ω) := .replicate n (w, .go)

/-- The states reachable from the start. -/
abbrev Reachable (gridT : BitVec 64) (main : ω) (s : State ω) : Prop :=
  Reach (step gridT) (init main) s

end Partee
