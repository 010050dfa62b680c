import Partee.Transition.Run
import Mathlib.Logic.Function.Basic
import Mathlib.Data.List.Basic
import Mathlib.Data.Nat.Notation

/-!
# The `to_notify` stack of `stack.c`

A linked list whose head is the synchronisation point.  Any number of threads
push on it; one thread locks it, once, and takes the list apart with `stack_pop`.
Every load and store of `stack->top` and of the fields of a node, every
compare-and-swap, `malloc` and `free` is one step.  `malloc` may return any
address that is not allocated, one that has just been freed included.

The only thing recorded about the past is which calls of `stack_push` have
returned, and what.
-/

namespace Partee
namespace Stack

open Transition

/-- A value of type `stack_node_t*`. -/
inductive Ptr (Addr : Type*) where
  | null
  /-- `STACK_LOCKED` -/
  | locked
  | node (a : Addr)
  deriving DecidableEq

/-- `struct _stack_node_t`. -/
structure Node (Addr α : Type*) where
  task : Option α
  next : Ptr Addr

/-- The program points of `stack_push`. -/
inductive PushPc (Addr α : Type*) where
  /-- no call in progress -/
  | idle
  /-- `malloc(sizeof(stack_node_t))` is next -/
  | malloc (task : α) (top : Ptr Addr)
  /-- `bzero(tmp, sizeof(stack_node_t))` is next -/
  | bzero (task : α) (top : Ptr Addr) (tmp : Addr)
  /-- `tmp->task = task` is next -/
  | storeTask (task : α) (top : Ptr Addr) (tmp : Addr)
  /-- `tmp->next = top` is next, then the test of the loop -/
  | storeNext (task : α) (top : Ptr Addr) (tmp : Addr)
  /-- the compare-and-swap is next -/
  | cas (task : α) (top : Ptr Addr) (tmp : Addr)
  /-- the stack is locked, `free(tmp)` is next -/
  | free (task : α) (tmp : Addr)

/-- The program points of `stack_lock` and of the calls of `stack_pop` that follow
it; `popped` is what they have returned so far. -/
inductive LockPc (Addr α : Type*) where
  /-- `top = stack->top` is next -/
  | load
  /-- the compare-and-swap is next -/
  | cas (top : Ptr Addr)
  /-- `stack_pop`: `(*stack)->task` is next, unless `*stack` is `NULL` -/
  | popTask (head : Ptr Addr) (popped : List (Option α))
  /-- `stack_pop`: `(*stack)->next` is next -/
  | popNext (tmp : Addr) (task : Option α) (popped : List (Option α))
  /-- `stack_pop`: `free(tmp)` is next -/
  | popFree (tmp : Addr) (task : Option α) (next : Ptr Addr) (popped : List (Option α))
  /-- `stack_pop` has returned `NULL` -/
  | done (popped : List (Option α))

/-- A call of `stack_push` that has returned. -/
structure Return (P α : Type*) where
  pusher : P
  task : α
  code : Bool

/-- The stack, its nodes, the threads that push and the one that locks. -/
structure State (P Addr α : Type*) where
  /-- `stack->top` -/
  top : Ptr Addr
  nodes : Addr → Node Addr α
  allocated : Addr → Bool
  pusher : P → PushPc Addr α
  locker : LockPc Addr α
  /-- the calls of `stack_push` that have returned, the latest first -/
  returns : List (Return P α)

variable {P Addr α : Type*}

/-- An empty stack; no call of `stack_push` in progress. -/
def init (nodes : Addr → Node Addr α) : State P Addr α where
  top := .null
  nodes := nodes
  allocated := fun _ => false
  pusher := fun _ => .idle
  locker := .load
  returns := []

/-- Who moves.  An idle pusher is told the task to push, `malloc` the address to
return. -/
inductive Label (P Addr α : Type*) where
  | push (p : P) (task : α)
  | malloc (p : P) (tmp : Addr)
  | pusher (p : P)
  | locker

variable [DecidableEq P] [DecidableEq Addr]

/-- Pusher `p` moves to a program point. -/
def State.setPusher (s : State P Addr α) (p : P) (pc : PushPc Addr α) : State P Addr α :=
  { s with pusher := Function.update s.pusher p pc }

/-- The call of pusher `p` returns. -/
def State.return (s : State P Addr α) (p : P) (task : α) (code : Bool) : State P Addr α :=
  { s.setPusher p .idle with returns := ⟨p, task, code⟩ :: s.returns }

/-- Store in a node. -/
def State.store (s : State P Addr α) (a : Addr) (n : Node Addr α) : State P Addr α :=
  { s with nodes := Function.update s.nodes a n }

/-- `malloc` or `free`. -/
def State.setAllocated (s : State P Addr α) (a : Addr) (b : Bool) : State P Addr α :=
  { s with allocated := Function.update s.allocated a b }

/-- One access of pusher `p` inside `stack_push`. -/
def pushStep (s : State P Addr α) (p : P) : PushPc Addr α → Option (State P Addr α)
  | .idle | .malloc _ _ => none
  | .bzero task top tmp =>
      some ((s.store tmp ⟨none, .null⟩).setPusher p (.storeTask task top tmp))
  | .storeTask task top tmp =>
      some ((s.store tmp { s.nodes tmp with task := some task }).setPusher p
        (.storeNext task top tmp))
  | .storeNext task top tmp =>
      some ((s.store tmp { s.nodes tmp with next := top }).setPusher p
        (if top = .locked then .free task tmp else .cas task top tmp))
  | .cas task top tmp =>
      if s.top = top then
        some ({ s with top := .node tmp }.return p task true)
      else
        some (s.setPusher p (.storeNext task s.top tmp))
  | .free task tmp => some ((s.setAllocated tmp false).return p task false)

/-- One access of the thread that locks the stack; where an assertion fails there is
no step. -/
def lockStep (s : State P Addr α) : LockPc Addr α → Option (State P Addr α)
  | .load => if s.top = .locked then none else some { s with locker := .cas s.top }
  | .cas top =>
      if s.top = top then
        some { s with top := .locked, locker := .popTask top [] }
      else if s.top = .locked then
        none
      else
        some { s with locker := .cas s.top }
  | .popTask .null popped => some { s with locker := .done popped }
  | .popTask (.node a) popped => some { s with locker := .popNext a (s.nodes a).task popped }
  | .popTask .locked _ => none
  | .popNext tmp task popped =>
      some { s with locker := .popFree tmp task (s.nodes tmp).next popped }
  | .popFree tmp task next popped =>
      some { s.setAllocated tmp false with locker := .popTask next (popped ++ [task]) }
  | .done _ => none

/-- One step of the system. -/
def step (s : State P Addr α) : Label P Addr α → Option (State P Addr α)
  | .push p task =>
      match s.pusher p with
      | .idle =>
          if s.top = .locked then
            some (s.return p task false)
          else
            some (s.setPusher p (.malloc task s.top))
      | _ => none
  | .malloc p tmp =>
      match s.pusher p with
      | .malloc task top =>
          if s.allocated tmp then
            none
          else
            some ((s.setAllocated tmp true).setPusher p (.bzero task top tmp))
      | _ => none
  | .pusher p => pushStep s p (s.pusher p)
  | .locker => lockStep s s.locker

/-- The tasks of the calls of `stack_push` that have returned 1, the latest first.
Such a call returns with its successful compare-and-swap. -/
def State.won (s : State P Addr α) : List α :=
  (s.returns.filter (·.code)).map (·.task)

end Stack
end Partee
