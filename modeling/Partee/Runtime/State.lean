import Partee.Runtime.Descriptor
import Mathlib.Logic.Function.Basic
import Mathlib.Tactic.Simps.Basic

/-!
# The state of the runtime

Every worker runs on a stack of activation records, the innermost first.  A
record says which function is active, on which descriptor, and at which of its
shared accesses it stands; its local variables are the arguments of the program
point.  Two records stand for user code as well: the body of a task, called by
`execute_task`, and the main program, which is the body of `main_task_desc`.
A body performs any sequence of `tpc_call` and `tpc_sync`, so while it is inside
one of the two its record is at the program points of that function.

A call in tail position replaces the record of the caller: `create_dependencies`
ends `tpc_call`, `schedule_task` ends `create_dependencies`, the inline
`execute_task` ends `schedule_task`, and `release_task(task->parent)` ends
`release_task`.

`History` collects what has happened so far, for the statements only: no step
reads it.
-/

namespace Partee

/-! ## Program points -/

/-- The local variables of `create_dependencies`, `handle_argument` and
`create_dependency` while they walk the arguments of a task. -/
structure Walk where
  /-- the arguments still to be handled -/
  args : List Argument
  /-- `new_metadata` of the current argument -/
  elem : ElemId
  /-- the current argument is OUT or INOUT -/
  out : Bool
  /-- the block ranges of the calls of `create_dependency` still to come -/
  pieces : List (List ℕ)
  /-- the blocks still to be visited by the current call -/
  blocks : List ℕ
  /-- the notifications the task has to wait for so far, in the source modulo `2 ^ 32` -/
  waitfor : ℕ

/-- The program points of `tpc_call` and of the functions it calls. -/
inductive CallPc where
  /-- `v_atomic_incr_long(&tpc_task->parent->number_of_children)` is next -/
  | incr
  /-- `tpc_task->status = CREATING_TASK` is next -/
  | creating
  /-- inside the loops of the dependence analysis -/
  | walk (k : Walk)
  /-- write-after-write, or read-after-write when `raw`: the push on the
  `to_notify` stack of the owner of `e` is next -/
  | push (k : Walk) (e : ElemId) (raw : Bool)
  /-- write-after-read: the readers still to be pushed on -/
  | readers (k : Walk) (rest : List TaskId)
  /-- read-after-read at block `j`: the load of the status of the owner of `e` is
  next -/
  | ownerStatus (k : Walk) (e : ElemId) (j : ℕ)
  /-- read-after-read: the push on the stack of the owner of `d`, the
  `dependent_metadata` of the element found, is next -/
  | pushDependent (k : Walk) (d : ElemId)
  /-- `task->waitfor = waitfor` is next -/
  | storeWaitfor (n : ℕ)
  /-- `task->status = CREATED_TASK` is next; `schedule_task` follows if `n = 0` -/
  | storeCreated (n : ℕ)

/-- The program points of `execute_task` and of the body it calls. -/
inductive ExecPc where
  /-- user code -/
  | body
  /-- inside `tpc_call(c)` -/
  | call (c : TaskId) (pc : CallPc)
  /-- inside `tpc_sync`, with `tmp = q`: at the loop test, or looking for work -/
  | sync (q : TaskId) (working : Bool)
  /-- `task->status = EXECUTED_TASK` is next -/
  | storeExecuted
  /-- `task->number_of_children > 0` is next -/
  | loadChildren
  /-- restoring `curr_task` and `parent` is next -/
  | restore

/-- The program points of `release_task` and `fire_dependencies`. -/
inductive ReleasePc where
  /-- the compare-and-swap of `release_task` is next -/
  | cas
  /-- `stack_lock(&task->to_notify)` is next -/
  | lock
  /-- the tasks of the detached stack still to be notified -/
  | fire (rest : List TaskId)
  /-- `fired` of `t` has been raised to `n`; waiting for `t` to be created -/
  | await (t : TaskId) (n : ℕ) (rest : List TaskId)
  /-- `tpc_task->status == CREATED_TASK` is next -/
  | testStatus (t : TaskId) (n : ℕ) (rest : List TaskId)
  /-- `tpc_task->waitfor == fired` is next -/
  | testWaitfor (t : TaskId) (n : ℕ) (rest : List TaskId)
  /-- `task->status = COMPLETE_TASK` is next -/
  | storeComplete
  /-- `deleteregion(task->task_region)` is next -/
  | deleteRegion
  /-- `__sync_sub_and_fetch(&task->parent->number_of_children, 1)` is next -/
  | decr
  /-- `children == 0 && task->parent->status == EXECUTED_TASK` is next, where
  `p = task->parent` -/
  | testParent (p : TaskId) (children : ℕ)
  /-- `release_task(task->parent)` is next, where `p = task->parent` -/
  | callParent (p : TaskId)

/-- An activation record. -/
inductive Frame where
  /-- the loop of `worker_thread` -/
  | worker
  /-- `execute_task(t)` has been called -/
  | enter (t : TaskId)
  /-- `execute_task(t)`, with the saved `curr_task` -/
  | execute (t : TaskId) (tmp : Option TaskId) (pc : ExecPc)
  /-- `schedule_task(t)`: at the compare-and-swap, or at the enqueue -/
  | schedule (t : TaskId) (enqueue : Bool)
  /-- `release_task(t)` -/
  | release (t : TaskId) (pc : ReleasePc)

/-! ## The state -/

/-- What has happened so far. -/
structure History where
  /-- the task went through the increment of `tpc_call` -/
  counted : TaskId → Bool
  /-- the task has performed its decrement of the parent's counter -/
  left : TaskId → Bool
  /-- the number of bodies started so far -/
  clock : ℕ
  /-- when the body of the task was started, 0 before -/
  start : TaskId → ℕ
  /-- how often the body of the task was started -/
  runs : TaskId → ℕ
  /-- how often the task was moved to `SCHEDULED_TASK` -/
  scheduled : TaskId → ℕ
  /-- how often the task was moved to `RELEASING_TASK` -/
  released : TaskId → ℕ
  /-- `(t, s)` for each successful push of `t` on the stack of `s` -/
  pushes : List (TaskId × TaskId)

/-- What the workers share, their stacks and their thread-local variables. -/
structure Runtime (ω : Type*) where
  /-- the number of descriptors allocated so far -/
  next : ℕ
  task : TaskId → Descriptor
  stack : ω → List Frame
  queue : ω → List TaskId
  /-- the thread-local `parent` -/
  parent : ω → Option TaskId
  /-- the thread-local `curr_task` -/
  currTask : ω → Option TaskId
  hist : History

/-- The data of the dependence analysis. -/
structure Analysis where
  elem : ElemId → MetadataElement
  nextElem : ℕ
  /-- the lookup table `metadata` of each task, by block index -/
  metadata : TaskId → ℕ → Option ElemId
  /-- the field `deps_last` of each task -/
  depsLast : TaskId → Option TaskId
  /-- `(t, out, j)` for each block `j` visited so far by an argument of `t` -/
  visits : List (TaskId × Bool × ℕ)

/-- The state of the whole system. -/
structure State (ω : Type*) where
  rt : Runtime ω
  dep : Analysis

variable {ω : Type*}

/-! ## Updates -/

namespace Runtime

/-- Change one descriptor. -/
@[simps] def modify (r : Runtime ω) (t : TaskId) (f : Descriptor → Descriptor) : Runtime ω :=
  { r with task := Function.update r.task t (f (r.task t)) }

/-- Store to `status`. -/
@[simps!] def setStatus (r : Runtime ω) (t : TaskId) (st : Status) : Runtime ω :=
  r.modify t fun d => { d with status := st }

/-- `tpc_task_descriptor_alloc`, with the arguments and the parent filled in. -/
@[simps] def alloc (r : Runtime ω) (args : List Argument) (p : TaskId) : Runtime ω :=
  { r with
    next := r.next + 1
    task := Function.update r.task r.next (Descriptor.new args (some p)) }

/-- The atomic increment of the children counter of `p`, on behalf of `c`. -/
@[simps!] def incrChildren (r : Runtime ω) (c p : TaskId) : Runtime ω :=
  { r.modify p fun d => { d with numberOfChildren := d.numberOfChildren + 1 } with
    hist.counted := Function.update r.hist.counted c true }

/-- The atomic decrement of the children counter of `p`, on behalf of `c`. -/
@[simps!] def decrChildren (r : Runtime ω) (c p : TaskId) : Runtime ω :=
  { r.modify p fun d => { d with numberOfChildren := d.numberOfChildren - 1 } with
    hist.left := Function.update r.hist.left c true }

/-- `stack_push(t, &s->to_notify)`, when the stack is `l` and not locked. -/
@[simps!] def pushed (r : Runtime ω) (t s : TaskId) (l : List TaskId) : Runtime ω :=
  { r.modify s fun d => { d with toNotify := some (t :: l) } with
    hist.pushes := (t, s) :: r.hist.pushes }

/-- `stack_lock(&s->to_notify)`. -/
@[simps!] def locked (r : Runtime ω) (s : TaskId) : Runtime ω :=
  r.modify s fun d => { d with toNotify := none }

/-- `__sync_add_and_fetch(&t->fired, 1)`. -/
@[simps!] def incrFired (r : Runtime ω) (t : TaskId) : Runtime ω :=
  r.modify t fun d => { d with fired := d.fired + 1 }

/-- The successful compare-and-swap of `schedule_task`. -/
@[simps!] def schedule (r : Runtime ω) (t : TaskId) : Runtime ω :=
  { r.setStatus t .scheduled with
    hist.scheduled := Function.update r.hist.scheduled t (r.hist.scheduled t + 1) }

/-- The successful compare-and-swap of `release_task`. -/
@[simps!] def release (r : Runtime ω) (t : TaskId) : Runtime ω :=
  { r.setStatus t .releasing with
    hist.released := Function.update r.hist.released t (r.hist.released t + 1) }

variable [DecidableEq ω]

/-- Set both thread-local variables of worker `w`. -/
@[simps] def setContext (r : Runtime ω) (w : ω) (t : Option TaskId) : Runtime ω :=
  { r with
    parent := Function.update r.parent w t
    currTask := Function.update r.currTask w t }

/-- The beginning of `execute_task(t)` on worker `w`. -/
@[simps!] def begin (r : Runtime ω) (w : ω) (t : TaskId) : Runtime ω :=
  { r.setContext w (some t) with
    hist.clock := r.hist.clock + 1
    hist.start := Function.update r.hist.start t (r.hist.clock + 1)
    hist.runs := Function.update r.hist.runs t (r.hist.runs t + 1) }

/-- An accepted `enqueue` on the deque of `w`. -/
@[simps] def enqueue (r : Runtime ω) (w : ω) (t : TaskId) : Runtime ω :=
  { r with queue := Function.update r.queue w (r.queue w ++ [t]) }

/-- The deque of `v` has delivered its `k`-th task. -/
@[simps] def dequeue (r : Runtime ω) (v : ω) (k : ℕ) : Runtime ω :=
  { r with queue := Function.update r.queue v ((r.queue v).eraseIdx k) }

/-- Replace the stack of worker `w`. -/
@[simps] def setStack (r : Runtime ω) (w : ω) (l : List Frame) : Runtime ω :=
  { r with stack := Function.update r.stack w l }

end Runtime

namespace Analysis

/-- `set_node`. -/
@[simps] def setNode (d : Analysis) (p : TaskId) (j : ℕ) (e : ElemId) : Analysis :=
  { d with metadata := Function.update d.metadata p (Function.update (d.metadata p) j (some e)) }

/-- `insert_front` on the readers of `e`. -/
@[simps nextElem metadata depsLast visits] def insertFront (d : Analysis) (t : TaskId) (e : ElemId) : Analysis :=
  { d with elem := Function.update d.elem e { d.elem e with readers := t :: (d.elem e).readers } }

/-- A new metadata element, as `handle_argument` initialises it. -/
@[simps] def newElement (d : Analysis) (type : BitVec 32) (owner : TaskId) : Analysis :=
  { d with
    elem := Function.update d.elem d.nextElem ⟨type, [], owner, none⟩
    nextElem := d.nextElem + 1 }

/-- Store to `dependent_metadata` of `e`. -/
@[simps nextElem metadata depsLast visits] def setDependent (d : Analysis) (e dependent : ElemId) : Analysis :=
  { d with
    elem := Function.update d.elem e { d.elem e with dependentMetadata := some dependent } }

/-- Store to `deps_last` of `t`. -/
@[simps] def setDepsLast (d : Analysis) (t s : TaskId) : Analysis :=
  { d with depsLast := Function.update d.depsLast t (some s) }

/-- `new_trie` for the lookup table of `t`. -/
@[simps] def newTrie (d : Analysis) (t : TaskId) : Analysis :=
  { d with metadata := Function.update d.metadata t fun _ => none }

/-- Record that an argument of `t` has visited block `j`. -/
@[simps] def visit (d : Analysis) (t : TaskId) (out : Bool) (j : ℕ) : Analysis :=
  { d with visits := (t, out, j) :: d.visits }

variable (d : Analysis) (t s : TaskId) (e i : ElemId) (type : BitVec 32)

@[simp] theorem insertFront_type : ((d.insertFront t e).elem i).type = (d.elem i).type := by
  rcases eq_or_ne i e with rfl | h <;> simp [insertFront, *]

@[simp] theorem insertFront_owner : ((d.insertFront t e).elem i).owner = (d.elem i).owner := by
  rcases eq_or_ne i e with rfl | h <;> simp [insertFront, *]

@[simp] theorem insertFront_dependent :
    ((d.insertFront t e).elem i).dependentMetadata = (d.elem i).dependentMetadata := by
  rcases eq_or_ne i e with rfl | h <;> simp [insertFront, *]

theorem insertFront_readers : ((d.insertFront t e).elem i).readers =
    if i = e then t :: (d.elem i).readers else (d.elem i).readers := by
  rcases eq_or_ne i e with rfl | h <;> simp [insertFront, *]

@[simp] theorem setDependent_type : ((d.setDependent e s).elem i).type = (d.elem i).type := by
  rcases eq_or_ne i e with rfl | h <;> simp [setDependent, *]

@[simp] theorem setDependent_owner : ((d.setDependent e s).elem i).owner = (d.elem i).owner := by
  rcases eq_or_ne i e with rfl | h <;> simp [setDependent, *]

@[simp] theorem setDependent_readers :
    ((d.setDependent e s).elem i).readers = (d.elem i).readers := by
  rcases eq_or_ne i e with rfl | h <;> simp [setDependent, *]

theorem setDependent_dependent : ((d.setDependent e s).elem i).dependentMetadata =
    if i = e then some s else (d.elem i).dependentMetadata := by
  rcases eq_or_ne i e with rfl | h <;> simp [setDependent, *]

/-- The elements that exist already are not touched. -/
theorem newElement_of_lt (h : i < d.nextElem) : (d.newElement type t).elem i = d.elem i :=
  Function.update_of_ne (Nat.ne_of_lt h) _ _

end Analysis

end Partee
