import Partee.Transition.Run
import Mathlib.Data.Finset.Card
import Mathlib.Data.Finset.Range
import Mathlib.Logic.Function.Basic

/-!
# Start-up and shutdown of the runtime

The threads between `tpc_init` and `tpc_shutdown`, as far as the array of deques,
the array of threads and the barrier are concerned.  Thread 0 is the main thread;
thread `i` is the worker that is created with the argument `i`, which is also its
`queue_index`.  While it runs user code and the loops of the runtime a thread
starts operations on its own deque and on the deque at its `steal_index`, in any
order, and is inside each of them for any time.

The barrier is the one of POSIX: `pthread_barrier_init` refuses the count 0, and a
barrier with the count `c` releases each group of `c` waiters.  Its generation is
the number of groups released so far.

`waits` records who has waited in which generation; no step reads it.
-/

namespace Partee
namespace Startup

open Transition

/-- `MAX_THREADS` of `config.h`. -/
def maxThreads : ℕ := 64

/-- The value `tpc_init` gives to `MaxActiveThreads`. -/
def maxActiveThreads (threads systemProc : ℕ) : ℕ :=
  if threads = 0 ∨ threads > maxThreads then systemProc else threads

/-- An entry of `task_Queues`. -/
inductive QueueState where
  | none
  /-- `new_Queue` has returned -/
  | allocated
  /-- `init_queue` has returned -/
  | ready
  /-- `release_queue` has been called -/
  | released
  deriving DecidableEq

/-- The program points of a thread. -/
inductive Pc where
  /-- the thread has not been created -/
  | absent
  /-- `tpc_init`: `pthread_barrier_init(&barrier, NULL, threads)` is next -/
  | barrierInit
  /-- `exit(1)` -/
  | exited
  /-- `new_Queue(&task_Queues[queue_index])` is next -/
  | newQueue
  /-- `init_queue(task_Queues[queue_index])` is next -/
  | initQueue
  /-- `tpc_init`: the test `i < MaxActiveThreads` and `pthread_create(&thread[i], …)`
  are next -/
  | create (i : ℕ)
  /-- the first or the last `pthread_barrier_wait(&barrier)` is next -/
  | arrive (last : Bool)
  /-- inside it, in the generation `g` of the barrier -/
  | blocked (last : Bool) (g : ℕ)
  /-- `worker_thread`: the load of `active_threads` is next -/
  | test
  /-- user code, `execute_task`, `pop_task`, `steal_task` and `schedule_task` -/
  | work
  /-- inside an operation on `task_Queues[j]`, a `dequeue_back` when `steal` -/
  | inOp (j : ℕ) (steal : Bool)
  /-- `tpc_shutdown`: `active_threads = 0` is next -/
  | storeActive
  /-- `tpc_shutdown`: the test `i < MaxActiveThreads` and `pthread_join(thread[i], …)`
  are next -/
  | join (i : ℕ)
  /-- `release_queue(task_Queues[queue_index])` is next -/
  | release
  | done
  deriving DecidableEq

/-- The threads and what they share. -/
structure State where
  /-- the count of the barrier -/
  count : ℕ
  /-- the groups that the barrier has released -/
  gen : ℕ
  /-- the threads that wait for the current group to be complete -/
  arrived : ℕ
  /-- `active_threads` is not 0 -/
  active : Bool
  queue : ℕ → QueueState
  pc : ℕ → Pc
  /-- the thread-local `steal_index` -/
  stealIndex : ℕ → ℕ
  /-- who has waited in each generation -/
  waits : ℕ → Finset ℕ

/-- The call of `tpc_init`. -/
def init : State where
  count := 0
  gen := 0
  arrived := 0
  active := true
  queue := fun _ => .none
  pc := fun i => if i = 0 then .barrierInit else .absent
  stealIndex := fun _ => 0
  waits := fun _ => ∅

/-- What a thread may do next where the runtime leaves a choice. -/
inductive Choice where
  | go
  /-- it starts an operation on its own deque -/
  | own
  /-- it calls `dequeue_back` -/
  | steal
  /-- `dequeue_back` returns 0, and `rand_r` returns `k` -/
  | retarget (k : ℕ)
  /-- it gets to the end of the loop body, or of the work of `tpc_shutdown` -/
  | leave

/-- Thread `i` moves to a program point. -/
def State.setPc (s : State) (i : ℕ) (pc : Pc) : State :=
  { s with pc := Function.update s.pc i pc }

/-- The entry `i` of `task_Queues` changes. -/
def State.setQueue (s : State) (i : ℕ) (q : QueueState) : State :=
  { s with queue := Function.update s.queue i q }

/-- Where thread `i` goes on after the barrier. -/
def afterBarrier (i : ℕ) (last : Bool) : Pc :=
  match last with
  | false => if i = 0 then .work else .test
  | true => if i = 0 then .join 1 else .release

/-- `pthread_barrier_wait`. -/
def barrierWait (s : State) (i : ℕ) (last : Bool) : State :=
  let waits := Function.update s.waits s.gen (insert i (s.waits s.gen))
  if s.arrived + 1 = s.count then
    { s.setPc i (afterBarrier i last) with gen := s.gen + 1, arrived := 0, waits := waits }
  else
    { s.setPc i (.blocked last s.gen) with arrived := s.arrived + 1, waits := waits }

/-- One step of thread `i`. -/
def threadStep (threads systemProc : ℕ) (s : State) (i : ℕ) : Pc → Choice → Option State
  | .barrierInit, .go =>
      if threads = 0 then some (s.setPc i .exited)
      else some { s.setPc i .newQueue with count := threads }
  | .newQueue, .go => some ((s.setQueue i .allocated).setPc i .initQueue)
  | .initQueue, .go =>
      some ((s.setQueue i .ready).setPc i (if i = 0 then .create 1 else .arrive false))
  | .create j, .go =>
      if j < maxActiveThreads threads systemProc then
        some ((s.setPc j .newQueue).setPc i (.create (j + 1)))
      else
        some (s.setPc i (.arrive false))
  | .arrive last, .go => some (barrierWait s i last)
  | .blocked last g, .go => if s.gen = g then none else some (s.setPc i (afterBarrier i last))
  | .test, .go => some (s.setPc i (if s.active then .work else .arrive true))
  | .work, .own => some (s.setPc i (.inOp i false))
  | .work, .steal => some (s.setPc i (.inOp (s.stealIndex i) true))
  | .work, .leave => some (s.setPc i (if i = 0 then .storeActive else .test))
  | .inOp _ _, .go => some (s.setPc i .work)
  | .inOp _ true, .retarget k =>
      some { s.setPc i .work with
        stealIndex := Function.update s.stealIndex i (k % maxActiveThreads threads systemProc) }
  | .storeActive, .go => some { s.setPc i (.arrive true) with active := false }
  | .join j, .go =>
      if j < maxActiveThreads threads systemProc then
        if s.pc j = .done then some (s.setPc i (.join (j + 1))) else none
      else
        some (s.setPc i .release)
  | .release, .go => some ((s.setQueue i .released).setPc i .done)
  | _, _ => none

/-- One step of the system: thread `a.1` moves. -/
def step (threads systemProc : ℕ) (s : State) (a : ℕ × Choice) : Option State :=
  threadStep threads systemProc s a.1 (s.pc a.1) a.2

/-- The states reachable from the call of `tpc_init(threads)`. -/
abbrev Reachable (threads systemProc : ℕ) (s : State) : Prop :=
  Reach (step threads systemProc) init s

/-! ## What is to hold -/

/-- The indices of `thread` and `task_Queues` that the next step of thread `i`
uses. -/
def uses (threads systemProc i : ℕ) : Pc → List ℕ
  | .newQueue | .initQueue | .release => [i]
  | .create j | .join j => if j < maxActiveThreads threads systemProc then [j] else []
  | .inOp j _ => [j]
  | _ => []

/-- The threads that take part: the main thread and the workers. -/
def participants (threads systemProc : ℕ) : ℕ := max 1 (maxActiveThreads threads systemProc)

/-- Nobody is going to join the group `g` of the barrier any more: it has been
released, or all threads wait in it. -/
def State.Closed (s : State) (n g : ℕ) : Prop := g < s.gen ∨ ∀ i < n, i ∈ s.waits g

/-- Indices are in bounds, a deque is used between `init_queue` and `release_queue`
only, and the threads that wait on each use of the barrier are all threads, as many
as the count it was initialised with. -/
structure Good (threads systemProc : ℕ) (s : State) : Prop where
  bounds : ∀ i, ∀ j ∈ uses threads systemProc i (s.pc i), j < maxThreads
  operations : ∀ i j steal, s.pc i = .inOp j steal → s.queue j = .ready
  barrier : ∀ g, s.Closed (participants threads systemProc) g →
    (s.waits g).card = s.count ∧ ∀ i < participants threads systemProc, i ∈ s.waits g

end Startup
end Partee
