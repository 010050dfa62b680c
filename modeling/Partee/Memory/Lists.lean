import Mathlib.Data.List.Basic
import Mathlib.Data.List.Nodup
import Mathlib.Logic.Function.Basic
import Mathlib.Tactic.Common

/-!
# Linked lists that share their nodes

Singly linked lists through one `next` pointer per node, several of them in the same
memory.  A node is on at most one list, and at most once: the operations at the head of
a list rest on that, because they write to the one pointer of the node.

* `Chain`: the nodes from a pointer on, up to `NULL`.
* `Lists`: a family of lists without common nodes; `Lists.push` and `Lists.pop` are the
  operations at a head, `Lists.congr` the frame rule.
-/

namespace Partee
namespace Memory

variable {ι α : Type*}

/-- From the pointer `p` the nodes `xs` are linked, up to `NULL`. -/
def Chain (next : α → Option α) (p : Option α) : List α → Prop
  | [] => p = none
  | a :: xs => p = some a ∧ Chain next (next a) xs

namespace Chain

variable {next next' : α → Option α} {p : Option α} {xs ys : List α}

/-- Only the pointers of the nodes matter. -/
theorem congr (h : Chain next p xs) (heq : ∀ a ∈ xs, next' a = next a) : Chain next' p xs := by
  induction xs generalizing p with
  | nil => exact h
  | cons a xs ih =>
    obtain ⟨hp, hnext⟩ := h
    rw [List.forall_mem_cons] at heq
    rw [← heq.1] at hnext
    exact ⟨hp, ih hnext heq.2⟩

/-- A pointer is the start of one list at most. -/
theorem unique (h : Chain next p xs) (h' : Chain next p ys) : xs = ys := by
  induction xs generalizing p ys with
  | nil =>
    cases ys with
    | nil => rfl
    | cons b ys => exact absurd (h.symm.trans h'.1) (Option.some_ne_none b).symm
  | cons a xs ih =>
    cases ys with
    | nil => exact absurd (h.1.symm.trans h') (Option.some_ne_none a)
    | cons b ys =>
      obtain ⟨hp, hnext⟩ := h
      obtain ⟨hp', hnext'⟩ := h'
      obtain rfl := Option.some.inj (hp.symm.trans hp')
      rw [ih hnext hnext']

theorem eq_nil_iff (h : Chain next p xs) : xs = [] ↔ p = none := by
  cases xs with
  | nil => exact ⟨fun _ => h, fun _ => rfl⟩
  | cons a xs =>
    exact ⟨fun hnil => absurd hnil (List.cons_ne_nil a xs),
      fun hp => absurd (h.1.symm.trans hp) (Option.some_ne_none a)⟩

/-- What a pointer that is not `NULL` points to is the first node. -/
theorem eq_cons {a : α} (h : Chain next (some a) xs) :
    ∃ ys, xs = a :: ys ∧ Chain next (next a) ys := by
  cases xs with
  | nil => exact absurd h (Option.some_ne_none a)
  | cons b ys =>
    obtain ⟨hp, hnext⟩ := h
    obtain rfl := Option.some.inj hp
    exact ⟨ys, rfl, hnext⟩

end Chain

/-- The lists `free` start at the pointers `head`, and have no node in common. -/
structure Lists (next : α → Option α) (head : ι → Option α) (free : ι → List α) : Prop where
  chain : ∀ i, Chain next (head i) (free i)
  nodup : ∀ i, (free i).Nodup
  apart : ∀ i j, i ≠ j → ∀ a ∈ free i, a ∉ free j

namespace Lists

variable {next next' : α → Option α} {head : ι → Option α} {free : ι → List α}

/-- All heads `NULL`. -/
theorem empty (next : α → Option α) : Lists next (fun _ : ι => none) fun _ => [] where
  chain _ := rfl
  nodup _ := .nil
  apart _ _ _ _ h := absurd h List.not_mem_nil

/-- Only the pointers of the nodes on the lists matter. -/
theorem congr (h : Lists next head free) (heq : ∀ i, ∀ a ∈ free i, next' a = next a) :
    Lists next' head free where
  chain i := (h.chain i).congr (heq i)
  nodup := h.nodup
  apart := h.apart

variable [DecidableEq ι] [DecidableEq α]

/-- A node that is on no list, in front of a list. -/
theorem push (h : Lists next head free) (i : ι) {a : α} (ha : ∀ j, a ∉ free j) :
    Lists (Function.update next a (head i)) (Function.update head i (some a))
      (Function.update free i (a :: free i)) := by
  have hother : ∀ j, ∀ b ∈ free j, Function.update next a (head i) b = next b := fun j b hb =>
    Function.update_of_ne (fun hba : b = a => ha j (hba ▸ hb)) _ _
  refine ⟨fun j => ?_, fun j => ?_, fun j k hjk b hb => ?_⟩
  · rcases eq_or_ne j i with rfl | hj
    · rw [Function.update_self, Function.update_self]
      refine ⟨rfl, ?_⟩
      rw [Function.update_self]
      exact (h.chain j).congr (hother j)
    · rw [Function.update_of_ne hj, Function.update_of_ne hj]
      exact (h.chain j).congr (hother j)
  · rcases eq_or_ne j i with rfl | hj
    · rw [Function.update_self]
      exact List.nodup_cons.mpr ⟨ha j, h.nodup j⟩
    · rw [Function.update_of_ne hj]
      exact h.nodup j
  · rcases eq_or_ne j i with rfl | hj
    · rw [Function.update_self] at hb
      rw [Function.update_of_ne hjk.symm]
      rcases List.mem_cons.mp hb with rfl | hb
      · exact ha k
      · exact h.apart j k hjk b hb
    · rw [Function.update_of_ne hj] at hb
      rcases eq_or_ne k i with rfl | hk
      · rw [Function.update_self]
        intro hmem
        rcases List.mem_cons.mp hmem with rfl | hmem
        · exact ha j hb
        · exact h.apart j k hjk b hb hmem
      · rw [Function.update_of_ne hk]
        exact h.apart j k hjk b hb

/-- The first node of a list, taken off it; what is done with its pointer is no matter. -/
theorem pop (h : Lists next head free) {i : ι} {a : α} {xs : List α} (hfree : free i = a :: xs)
    (p : Option α) :
    Lists (Function.update next a p) (Function.update head i (next a))
      (Function.update free i xs) ∧ ∀ j, a ∉ Function.update free i xs j := by
  have hchain := h.chain i
  have hnodup := h.nodup i
  rw [hfree] at hchain hnodup
  have hsub : ∀ j, ∀ b ∈ Function.update free i xs j, b ∈ free j := by
    intro j b hb
    rcases eq_or_ne j i with rfl | hj
    · rw [Function.update_self] at hb
      rw [hfree]
      exact List.mem_cons_of_mem a hb
    · rw [Function.update_of_ne hj] at hb
      exact hb
  have hoff : ∀ j, a ∉ Function.update free i xs j := by
    intro j hmem
    rcases eq_or_ne j i with rfl | hj
    · rw [Function.update_self] at hmem
      exact (List.nodup_cons.mp hnodup).1 hmem
    · have ha : a ∈ free i := by
        rw [hfree]
        exact List.mem_cons_self
      exact h.apart i j hj.symm a ha (hsub j a hmem)
  have hother : ∀ j, ∀ b ∈ Function.update free i xs j, Function.update next a p b = next b :=
    fun j b hb => Function.update_of_ne (fun hba : b = a => hoff j (hba ▸ hb)) _ _
  refine ⟨⟨fun j => ?_, fun j => ?_, fun j k hjk b hb hmem =>
    h.apart j k hjk b (hsub j b hb) (hsub k b hmem)⟩, hoff⟩
  · refine Chain.congr ?_ (hother j)
    rcases eq_or_ne j i with rfl | hj
    · rw [Function.update_self, Function.update_self]
      exact hchain.2
    · rw [Function.update_of_ne hj, Function.update_of_ne hj]
      exact h.chain j
  · rcases eq_or_ne j i with rfl | hj
    · rw [Function.update_self]
      exact (List.nodup_cons.mp hnodup).2
    · rw [Function.update_of_ne hj]
      exact h.nodup j

end Lists

end Memory
end Partee
