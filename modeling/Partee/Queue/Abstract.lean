import Partee.Transition.Object
import Mathlib.Data.List.Basic
import Mathlib.Data.Nat.Notation

/-!
# What the deque is for

The purpose of the deque, without its buffer and its indices: a list of at most
`n` elements.  `enqueue` appends an element or refuses when there are `n`,
`dequeueFront` removes the newest, `dequeueBack` the oldest.  The bound is a
field of the structure, so that an overfull list cannot be built.
-/

namespace Partee
namespace Queue

open Transition

variable {α : Type*} {n : ℕ}

/-- The three functions that change a deque. -/
inductive Call (α : Type*) where
  | enqueue (data : α)
  | dequeueFront
  | dequeueBack
  deriving DecidableEq

/-- What they return. -/
inductive Answer (α : Type*) where
  /-- `enqueue` returns 1 or 0 -/
  | enqueued (ok : Bool)
  /-- `dequeue_front` returns a task or `NULL` -/
  | front (ret : Option α)
  /-- `dequeue_back` returns 0 -/
  | backEmpty
  /-- `dequeue_back` returns 1 and stores through `ret_val` -/
  | backTaken (ret : Option α)
  /-- `dequeue_back` returns -1 -/
  | backContended
  deriving DecidableEq

/-- The answers of a call that has moved an element. -/
def Answer.Succeeds : Answer α → Prop
  | .enqueued ok => ok = true
  | .front ret => ret ≠ none
  | .backTaken _ => True
  | .backEmpty | .backContended => False

/-- What a call of `dequeue_back` has delivered. -/
def Answer.taken : Answer α → List (Option α)
  | .backTaken ret => [ret]
  | _ => []

/-- A list of at most `n` elements, the oldest first. -/
@[ext]
structure BoundedDeque (n : ℕ) (α : Type*) where
  items : List α
  bound : items.length ≤ n

namespace BoundedDeque

/-- The empty deque. -/
def empty : BoundedDeque n α := ⟨[], Nat.zero_le n⟩

/-- The elements without the newest. -/
def dropNewest (d : BoundedDeque n α) : BoundedDeque n α :=
  ⟨d.items.dropLast, by have := d.bound; rw [List.length_dropLast]; omega⟩

/-- The elements without the oldest. -/
def dropOldest (d : BoundedDeque n α) : BoundedDeque n α :=
  ⟨d.items.tail, by have := d.bound; rw [List.length_tail]; omega⟩

/-- The deque as a sequential object. -/
def call (d : BoundedDeque n α) : Call α → Answer α × BoundedDeque n α
  | .enqueue data =>
      if h : d.items.length < n then
        (.enqueued true, ⟨d.items ++ [data], by rw [List.length_append]; exact h⟩)
      else
        (.enqueued false, d)
  | .dequeueFront => (.front d.items.getLast?, d.dropNewest)
  | .dequeueBack =>
      match d.items.head? with
      | none => (.backEmpty, d)
      | some x => (.backTaken (some x), d.dropOldest)

theorem call_enqueue_of_lt {d d' : BoundedDeque n α} {data : α} (h : d.items.length < n)
    (hd' : d'.items = d.items ++ [data]) : d.call (.enqueue data) = (.enqueued true, d') := by
  rw [call, dif_pos h]
  exact congrArg _ (BoundedDeque.ext hd'.symm)

theorem call_enqueue_of_full {d : BoundedDeque n α} {data : α} (h : d.items.length = n) :
    d.call (.enqueue data) = (.enqueued false, d) := by
  rw [call, dif_neg (by omega)]

theorem call_dequeueFront_nil {d : BoundedDeque n α} (h : d.items = []) :
    d.call .dequeueFront = (.front none, d) := by
  refine Prod.ext (congrArg Answer.front ?_) (BoundedDeque.ext ?_)
  · rw [h, List.getLast?_nil]
  · show d.items.dropLast = d.items
    rw [h, List.dropLast_nil]

theorem call_dequeueFront_concat {d d' : BoundedDeque n α} {x : α}
    (h : d.items = d'.items ++ [x]) : d.call .dequeueFront = (.front (some x), d') := by
  refine Prod.ext (congrArg Answer.front ?_) (BoundedDeque.ext ?_)
  · rw [h, List.getLast?_concat]
  · show d.items.dropLast = d'.items
    rw [h, List.dropLast_concat]

theorem call_dequeueBack_nil {d : BoundedDeque n α} (h : d.items = []) :
    d.call .dequeueBack = (.backEmpty, d) := by
  rw [call, h]
  rfl

theorem call_dequeueBack_cons {d d' : BoundedDeque n α} {x : α} (h : d.items = x :: d'.items) :
    d.call .dequeueBack = (.backTaken (some x), d') := by
  rw [call, h]
  refine Prod.ext rfl (BoundedDeque.ext ?_)
  show d.items.tail = d'.items
  rw [h, List.tail_cons]

end BoundedDeque
end Queue
end Partee
