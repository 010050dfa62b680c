import Mathlib.Data.Finset.Dedup
import Mathlib.Data.Finset.Insert
import Mathlib.Data.List.Sort
import Mathlib.Logic.Function.Basic
import Mathlib.Logic.Function.Conjugate
import Mathlib.Tactic.Simps.Basic

/-!
# Actions out of order

Several parties act on one store, in some order.  When every two actions that are
out of order commute, performing all of them in order leaves the same store: the
sort moves each action over actions it commutes with.

* `applyAll`: the actions of a list, one after the other.
* `applyAll_insertionSort`: sorting the list does not change the outcome.
* `Effect`: an action that comes with the locations it reads and writes.
* `Effect.assign`: a single store.
* `Effect.Independent.commute`: two effects commute when neither writes what the
  other one accesses.
-/

namespace Partee
namespace Transition

/-! ## Sorting a list of actions -/

section Sorting

variable {α σ : Type*}

/-- Perform the actions of `l`, the first one first. -/
def applyAll (act : α → σ → σ) (l : List α) (m : σ) : σ :=
  l.foldl (fun m a => act a m) m

variable {act : α → σ → σ} {r : α → α → Prop} [DecidableRel r] {a : α} {l : List α}

@[simp] theorem applyAll_nil (m : σ) : applyAll act [] m = m := rfl

@[simp] theorem applyAll_cons (m : σ) : applyAll act (a :: l) m = applyAll act l (act a m) := rfl

theorem applyAll_append (l' : List α) (m : σ) :
    applyAll act (l ++ l') m = applyAll act l' (applyAll act l m) :=
  List.foldl_append ..

/-- An action moves over those it is put behind. -/
theorem applyAll_orderedInsert (h : ∀ b ∈ l, r a b ∨ Function.Commute (act a) (act b)) (m : σ) :
    applyAll act (l.orderedInsert r a) m = applyAll act (a :: l) m := by
  induction l generalizing m with
  | nil => rfl
  | cons b l ih =>
    rw [List.forall_mem_cons] at h
    by_cases hab : r a b
    · rw [List.orderedInsert_cons_of_le r l hab]
    · rw [List.orderedInsert_of_not_le r l hab, applyAll_cons, ih h.2, applyAll_cons, applyAll_cons,
        applyAll_cons, (h.1.resolve_left hab).eq m]

/-- **Sorting.**  The outcome does not change when all pairs that are out of order
commute. -/
theorem applyAll_insertionSort
    (h : l.Pairwise fun a b => r a b ∨ Function.Commute (act a) (act b)) (m : σ) :
    applyAll act (l.insertionSort r) m = applyAll act l m := by
  induction l generalizing m with
  | nil => rfl
  | cons a l ih =>
    rw [List.pairwise_cons] at h
    have hfront : ∀ b ∈ l.insertionSort r, r a b ∨ Function.Commute (act a) (act b) := by
      intro b hb
      exact h.1 b ((List.mem_insertionSort r).1 hb)
    rw [List.insertionSort_cons, applyAll_orderedInsert hfront, applyAll_cons, ih h.2, applyAll_cons]

end Sorting

/-! ## Effects -/

/-- A computation on a store, with the locations it reads and those it writes. -/
structure Effect (L V : Type*) where
  reads : Finset L
  writes : Finset L
  apply : (L → V) → L → V
  /-- nothing else is written -/
  unchanged : ∀ m, ∀ l ∉ writes, apply m l = m l
  /-- what is written depends on what is read -/
  determined : ∀ m m', (∀ l ∈ reads, m l = m' l) → ∀ l ∈ writes, apply m l = apply m' l

namespace Effect

variable {L V : Type*}

/-- Store to `l` what `f` makes of the values at `src`. -/
@[simps] def assign [DecidableEq L] (l : L) (src : List L) (f : List V → V) : Effect L V where
  reads := src.toFinset
  writes := {l}
  apply m := Function.update m l (f (src.map m))
  unchanged m k hk := Function.update_of_ne (Finset.notMem_singleton.1 hk) _ _
  determined m m' h k hk := by
    have hsrc : src.map m = src.map m' :=
      List.map_congr_left fun i hi => h i (List.mem_toFinset.2 hi)
    rw [Finset.mem_singleton.1 hk, Function.update_self, Function.update_self, hsrc]

variable {a b : Effect L V}

/-- Neither writes what the other one reads or writes. -/
structure Independent (a b : Effect L V) : Prop where
  left : ∀ l ∈ a.writes, l ∉ b.reads ∧ l ∉ b.writes
  right : ∀ l ∈ b.writes, l ∉ a.reads ∧ l ∉ a.writes

namespace Independent

theorem symm (h : a.Independent b) : b.Independent a := ⟨h.right, h.left⟩

/-- Where `a` writes, `b` before or after it makes no difference. -/
theorem apply_of_mem (h : a.Independent b) (m : L → V) {l : L} (hl : l ∈ a.writes) :
    a.apply (b.apply m) l = b.apply (a.apply m) l := by
  have hreads : ∀ k ∈ a.reads, b.apply m k = m k := by
    intro k hk
    exact b.unchanged m k fun hw => (h.right k hw).1 hk
  calc a.apply (b.apply m) l
      = a.apply m l := a.determined _ _ hreads l hl
    _ = b.apply (a.apply m) l := (b.unchanged _ l (h.left l hl).2).symm

/-- **Independent effects commute.** -/
theorem commute (h : a.Independent b) : Function.Commute a.apply b.apply := by
  intro m
  funext l
  by_cases ha : l ∈ a.writes
  · exact h.apply_of_mem m ha
  · by_cases hb : l ∈ b.writes
    · exact (h.symm.apply_of_mem m hb).symm
    · rw [a.unchanged _ l ha, b.unchanged _ l hb, b.unchanged _ l hb, a.unchanged _ l ha]

end Independent
end Effect

end Transition
end Partee
