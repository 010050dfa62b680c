import Partee.Transition.Run
import Mathlib.Logic.Function.Basic
import Mathlib.Data.Nat.Notation

/-!
# The work-stealing deque of `queue.c`

The deque is a circular buffer of `MAX_QUEUE_ENTRIES` slots with two 8-bit
indices.  `bottom` is written by the owner only; `top` is advanced by
compare-and-swap, by a thief or by the owner when one element is left.  The
functions are cut at their accesses of `bottom`, `top` and `entries`: every
load, every store and every compare-and-swap is one step, and between two of
them a function is at one of its program points, which holds the values of its
local variables.  `size` is written once, by `init_queue`, and reading it is not
a step.

What the program itself does not store is kept apart in `History`: which tasks
`enqueue` has accepted, which values the two dequeue functions have returned,
how often `top` has been advanced, and for each thief how often it had been
advanced when the thief read it.  No step of the program looks at it.
-/

namespace Partee
namespace Queue

open Transition

/-- `MAX_QUEUE_ENTRIES` of `config.h`. -/
def maxQueueEntries : ℕ := 128

/-- `struct _queue_t`; a `NULL` entry is `none`. -/
structure Deque (α : Type*) where
  bottom : BitVec 8
  top : BitVec 8
  size : ℕ
  entries : ℕ → Option α

variable {α : Type*}

/-- `init_queue`: zero the structure and set the size. -/
def initQueue : Deque α where
  bottom := 0
  top := 0
  size := maxQueueEntries
  entries := fun _ => none

/-- The slot of an index, `b & (Queue->size - 1)`. -/
def Deque.slot (q : Deque α) (b : BitVec 8) : ℕ := b.toNat &&& (q.size - 1)

/-- `isEmpty_Queue`, on the two values it loads. -/
def isEmptyQueue (b t : BitVec 8) : Bool := b == t || b + 1 == t

/-- `isFull_Queue`, on the two values it loads: `(b ^ t) == Queue->size`. -/
def isFullQueue (q : Deque α) (b t : BitVec 8) : Bool := (b ^^^ t).toNat == q.size

/-- The program points of the owner. -/
inductive OwnerPc (α : Type*) where
  /-- no call in progress -/
  | idle
  /-- `enqueue`: `bottom` is loaded, `t = Queue->top` is next -/
  | enqueueTop (data : α) (b : BitVec 8)
  /-- `enqueue`: there is room, `Queue->entries[i] = data` is next -/
  | enqueueEntry (data : α) (b : BitVec 8)
  /-- `enqueue`: `Queue->bottom = b + 1` is next -/
  | enqueueBottom (data : α) (b : BitVec 8)
  /-- `dequeue_front`: the load of `--Queue->bottom` is done, its store is next -/
  | frontBottom (b : BitVec 8)
  /-- `dequeue_front`: `t = Queue->top` is next -/
  | frontTop (b : BitVec 8)
  /-- `dequeue_front`: it is empty, `Queue->bottom = t` is next -/
  | frontEmpty (t : BitVec 8)
  /-- `dequeue_front`: `ret_val = Queue->entries[i]` is next -/
  | frontEntry (b t : BitVec 8)
  /-- `dequeue_front`: one element is left, the compare-and-swap is next -/
  | frontCas (t : BitVec 8) (ret : Option α)
  /-- `dequeue_front`: `Queue->bottom = t + 1` is next -/
  | frontRestore (t : BitVec 8) (ret : Option α)

/-- The program points of a thief. -/
inductive ThiefPc (α : Type*) where
  /-- no call in progress -/
  | idle
  /-- `dequeue_back`: `b = Queue->bottom` is next -/
  | backBottom (t : BitVec 8)
  /-- `dequeue_back`: `*ret_val = Queue->entries[i]` is next -/
  | backEntry (t : BitVec 8)
  /-- `dequeue_back`: the compare-and-swap is next -/
  | backCas (t : BitVec 8) (ret : Option α)

/-- What has happened so far; no step of the program reads it. -/
structure History (α Thief : Type*) where
  /-- the arguments of the calls of `enqueue` that returned 1 -/
  accepted : List α
  /-- the values returned by `dequeue_front` (other than `NULL`) and those
  delivered by the calls of `dequeue_back` that returned 1 -/
  returned : List (Option α)
  /-- how often `top` has been advanced -/
  advances : ℕ
  /-- how often `top` had been advanced when the thief last read it -/
  seen : Thief → ℕ

/-- The deque, its owner and its thieves. -/
structure State (α Thief : Type*) where
  queue : Deque α
  owner : OwnerPc α
  thief : Thief → ThiefPc α
  hist : History α Thief

/-- After `init_queue`, with no call in progress. -/
def init (α Thief : Type*) : State α Thief where
  queue := initQueue
  owner := .idle
  thief := fun _ => .idle
  hist := ⟨[], [], 0, fun _ => 0⟩

/-- Who moves; an idle owner is also told which function it calls. -/
inductive Label (α Thief : Type*) where
  | enqueue (data : α)
  | dequeueFront
  | owner
  | thief (i : Thief)

variable {Thief : Type*}

/-! ## The owner -/

/-- One access of the owner inside `enqueue` or `dequeue_front`. -/
def ownerStep (s : State α Thief) : OwnerPc α → Option (State α Thief)
  | .idle => none
  | .enqueueTop data b =>
      if isFullQueue s.queue b s.queue.top then
        some { s with owner := .idle }
      else
        some { s with owner := .enqueueEntry data b }
  | .enqueueEntry data b =>
      some { s with
        queue.entries := Function.update s.queue.entries (s.queue.slot b) (some data)
        owner := .enqueueBottom data b }
  | .enqueueBottom data b =>
      some { s with
        queue.bottom := b + 1
        owner := .idle
        hist.accepted := data :: s.hist.accepted }
  | .frontBottom b => some { s with queue.bottom := b, owner := .frontTop b }
  | .frontTop b =>
      if b + 1 = s.queue.top then
        some { s with owner := .frontEmpty s.queue.top }
      else
        some { s with owner := .frontEntry b s.queue.top }
  | .frontEmpty t => some { s with queue.bottom := t, owner := .idle }
  | .frontEntry b t =>
      let ret := s.queue.entries (s.queue.slot b)
      if b ≠ t then
        some { s with
          owner := .idle
          hist.returned := (ret.map some).toList ++ s.hist.returned }
      else
        some { s with owner := .frontCas t ret }
  | .frontCas t ret =>
      if s.queue.top = t then
        some { s with
          queue.top := t + 1
          owner := .frontRestore t ret
          hist.advances := s.hist.advances + 1 }
      else
        some { s with owner := .frontRestore t none }
  | .frontRestore t ret =>
      some { s with
        queue.bottom := t + 1
        owner := .idle
        hist.returned := (ret.map some).toList ++ s.hist.returned }

/-! ## The thieves -/

variable [DecidableEq Thief]

/-- Thief `i` moves to a program point. -/
def State.setThief (s : State α Thief) (i : Thief) (pc : ThiefPc α) : State α Thief :=
  { s with thief := Function.update s.thief i pc }

/-- One access of thief `i` inside `dequeue_back`; from `idle` it calls the
function and loads `top`. -/
def thiefStep (s : State α Thief) (i : Thief) : ThiefPc α → State α Thief
  | .idle =>
      { s.setThief i (.backBottom s.queue.top) with
        hist.seen := Function.update s.hist.seen i s.hist.advances }
  | .backBottom t =>
      if isEmptyQueue s.queue.bottom t then s.setThief i .idle else s.setThief i (.backEntry t)
  | .backEntry t => s.setThief i (.backCas t (s.queue.entries (s.queue.slot t)))
  | .backCas t ret =>
      if s.queue.top = t then
        { s.setThief i .idle with
          queue.top := t + 1
          hist.advances := s.hist.advances + 1
          hist.returned := ret :: s.hist.returned }
      else
        s.setThief i .idle

/-- One step of the system. -/
def step (s : State α Thief) : Label α Thief → Option (State α Thief)
  | .enqueue data =>
      match s.owner with
      | .idle => some { s with owner := .enqueueTop data s.queue.bottom }
      | _ => none
  | .dequeueFront =>
      match s.owner with
      | .idle => some { s with owner := .frontBottom (s.queue.bottom - 1) }
      | _ => none
  | .owner => ownerStep s s.owner
  | .thief i => some (thiefStep s i (s.thief i))

/-! ## What is stored -/

/-- The entries from index `top` up to but excluding index `bottom`, modulo
256. -/
def Deque.stored (q : Deque α) : List (Option α) :=
  (List.range (q.bottom - q.top).toNat).map fun k => q.entries (q.slot (q.top + BitVec.ofNat 8 k))

/-- No call is in progress. -/
def State.Quiet (s : State α Thief) : Prop :=
  s.owner = .idle ∧ ∀ i, s.thief i = .idle

/-- A step is timely unless it is a compare-and-swap of a thief that succeeds
although `top` has been advanced since the thief read it. -/
def Timely (s : State α Thief) : Label α Thief → Prop
  | .thief i =>
      match s.thief i with
      | .backCas t _ => s.queue.top = t → s.hist.advances = s.hist.seen i
      | _ => True
  | _ => True

instance (s : State α Thief) (a : Label α Thief) : Decidable (Timely s a) :=
  match a with
  | .enqueue _ | .dequeueFront | .owner => .isTrue trivial
  | .thief i =>
      match h : s.thief i with
      | .backCas t _ =>
          decidable_of_iff (s.queue.top = t → s.hist.advances = s.hist.seen i) (by rw [Timely, h])
      | .idle | .backBottom _ | .backEntry _ => .isTrue (by rw [Timely, h]; trivial)

end Queue
end Partee
