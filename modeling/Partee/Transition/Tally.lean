import Mathlib.Algebra.BigOperators.Group.Finset.Basic
import Mathlib.Algebra.BigOperators.Group.Finset.Piecewise
import Mathlib.Algebra.Order.BigOperators.Group.Finset
import Mathlib.Algebra.Order.BigOperators.Group.List
import Mathlib.Algebra.BigOperators.Fin
import Mathlib.Data.Fintype.BigOperators

/-!
# Tallies over the stacks of several threads

A family of threads, each with a list of items.  A weight on items is summed
over all lists; the sum is the tally.  Ownership arguments about interleaved
threads are tallies that stay at 0 or 1: "exactly one thread holds this token"
is the statement that the weight marking the holders has tally 1.  A step of one
thread replaces its own list, and `tally_update` says how every tally moves.

The last section has the same bookkeeping for sums over an initial segment of
the naturals in which one term changes.
-/

namespace Partee
namespace Transition

variable {ω φ : Type*} [Fintype ω]

/-- The sum of a weight over the lists of all threads. -/
def tally (wt : φ → ℕ) (stack : ω → List φ) : ℕ :=
  ∑ w, ((stack w).map wt).sum

variable {wt wt' : φ → ℕ} {stack : ω → List φ} {w v : ω} {f g : φ}

theorem le_tally (hf : f ∈ stack w) : wt f ≤ tally wt stack := by
  have h1 : wt f ≤ ((stack w).map wt).sum := List.le_sum_of_mem (List.mem_map_of_mem hf)
  have h2 : ((stack w).map wt).sum ≤ tally wt stack :=
    Finset.single_le_sum (f := fun w => ((stack w).map wt).sum) (fun _ _ => Nat.zero_le _)
      (Finset.mem_univ w)
  exact h1.trans h2

theorem tally_add : tally (fun f => wt f + wt' f) stack = tally wt stack + tally wt' stack := by
  simp only [tally, List.sum_map_add, Finset.sum_add_distrib]

theorem tally_eq_zero : tally wt stack = 0 ↔ ∀ w, ∀ f ∈ stack w, wt f = 0 := by
  simp only [tally, Finset.sum_eq_zero_iff, Finset.mem_univ, true_implies, List.sum_eq_zero_iff,
    List.mem_map, forall_exists_index, and_imp, forall_apply_eq_imp_iff₂]

theorem tally_le_tally (h : ∀ f, wt f ≤ wt' f) : tally wt stack ≤ tally wt' stack :=
  Finset.sum_le_sum fun _ _ => List.sum_le_sum fun f _ => h f

/-- A positive tally has a holder. -/
theorem exists_of_tally_pos (h : 0 < tally wt stack) : ∃ w, ∃ f ∈ stack w, 0 < wt f := by
  by_contra hcon
  push Not at hcon
  have : tally wt stack = 0 := tally_eq_zero.2 fun w f hf => Nat.le_zero.mp (hcon w f hf)
  omega

/-- The holder of a token that exists only under a condition. -/
theorem holds_of_tally {P : Prop} [Decidable P] (h : tally wt stack ≤ if P then 1 else 0)
    (hf : f ∈ stack w) (h1 : 1 ≤ wt f) : P := by
  have hle : wt f ≤ tally wt stack := le_tally hf
  by_contra hP
  rw [if_neg hP] at h
  omega

/-- A single token has exactly one holder. -/
theorem existsUnique_of_tally_eq_one (h : tally wt stack = 1) :
    ∃! w, ∃ f ∈ stack w, 0 < wt f := by
  obtain ⟨w, f, hf, h0⟩ := exists_of_tally_pos (h ▸ Nat.one_pos)
  refine ⟨w, ⟨f, hf, h0⟩, fun v ⟨g, hg, hg0⟩ => ?_⟩
  classical
  by_contra hvw
  have hpair : ((stack v).map wt).sum + ((stack w).map wt).sum ≤ tally wt stack := by
    rw [← Finset.sum_pair (f := fun w => ((stack w).map wt).sum) hvw]
    exact Finset.sum_le_sum_of_subset (Finset.subset_univ _)
  have hv : wt g ≤ ((stack v).map wt).sum := List.le_sum_of_mem (List.mem_map_of_mem hg)
  have hw : wt f ≤ ((stack w).map wt).sum := List.le_sum_of_mem (List.mem_map_of_mem hf)
  omega

variable [DecidableEq ω]

/-- **How a tally moves.**  One thread replaces its list. -/
theorem tally_update (wt : φ → ℕ) (stack : ω → List φ) (w : ω) (l : List φ) :
    tally wt (Function.update stack w l) + ((stack w).map wt).sum =
      tally wt stack + (l.map wt).sum := by
  have hsplit : ∀ st : ω → List φ, tally wt st =
      ((st w).map wt).sum + ∑ v ∈ Finset.univ.erase w, ((st v).map wt).sum := fun st =>
    (Finset.add_sum_erase _ (fun v => ((st v).map wt).sum) (Finset.mem_univ w)).symm
  have hrest : ∑ v ∈ Finset.univ.erase w, ((Function.update stack w l v).map wt).sum =
      ∑ v ∈ Finset.univ.erase w, ((stack v).map wt).sum :=
    Finset.sum_congr rfl fun v hv => by rw [Function.update_of_ne (Finset.ne_of_mem_erase hv)]
  rw [hsplit, hsplit stack, hrest, Function.update_self]
  omega

/-- The case of a thread that replaces the top of its list. -/
theorem tally_replace {gs fs : List φ} (wt : φ → ℕ) (h : stack w = f :: fs) :
    tally wt (Function.update stack w (gs ++ fs)) + wt f =
      tally wt stack + (gs.map wt).sum := by
  have hup := tally_update wt stack w (gs ++ fs)
  rw [h, List.map_cons, List.sum_cons, List.map_append, List.sum_append] at hup
  omega

/-- **At most one holder.**  If the top of one list holds a token whose tally is
at most 1, no other item holds it. -/
theorem eq_zero_of_tally_le_one {fs : List φ} (h1 : tally wt stack ≤ 1) (h : stack w = f :: fs)
    (hf : 1 ≤ wt f) : (∀ g ∈ fs, wt g = 0) ∧ ∀ v, v ≠ w → ∀ g ∈ stack v, wt g = 0 := by
  have hup : tally wt (Function.update stack w ([] ++ fs)) + wt f = tally wt stack + 0 :=
    tally_replace wt h
  rw [List.nil_append] at hup
  have hzero : tally wt (Function.update stack w fs) = 0 := by omega
  rw [tally_eq_zero] at hzero
  refine ⟨fun g hg => hzero w g (by rwa [Function.update_self]), fun v hv g hg => ?_⟩
  exact hzero v g (by rwa [Function.update_of_ne hv])

/-- A weight that vanishes wherever a token with a single holder is missing is
carried by that holder alone. -/
theorem tally_eq_of_solo {fs : List φ} (h1 : tally wt stack ≤ 1) (h : stack w = f :: fs)
    (hf : 1 ≤ wt f) (hwt : ∀ g, wt g = 0 → wt' g = 0) : tally wt' stack = wt' f := by
  obtain ⟨hfs, hv⟩ := eq_zero_of_tally_le_one h1 h hf
  have hrest : tally wt' (Function.update stack w fs) = 0 := by
    rw [tally_eq_zero]
    intro v g hg
    rcases eq_or_ne v w with rfl | hvw
    · rw [Function.update_self] at hg
      exact hwt g (hfs g hg)
    · rw [Function.update_of_ne hvw] at hg
      exact hwt g (hv v hvw g hg)
  have hup : tally wt' (Function.update stack w ([] ++ fs)) + wt' f = tally wt' stack + 0 :=
    tally_replace wt' h
  rw [List.nil_append] at hup
  omega

omit [Fintype ω] in
/-- Removing the `k`-th item of a list. -/
theorem sum_eraseIdx {l : List φ} {k : ℕ} (wt : φ → ℕ) (h : l[k]? = some f) :
    ((l.eraseIdx k).map wt).sum + wt f = (l.map wt).sum := by
  obtain ⟨hk, rfl⟩ := List.getElem?_eq_some_iff.mp h
  have hperm := (List.getElem_cons_eraseIdx_perm hk).map wt
  rw [← hperm.sum_eq, List.map_cons, List.sum_cons, Nat.add_comm]

/-- The case of a thread that loses the `k`-th item of its list. -/
theorem tally_eraseIdx {k : ℕ} (wt : φ → ℕ) (h : (stack w)[k]? = some f) :
    tally wt (Function.update stack w ((stack w).eraseIdx k)) + wt f = tally wt stack := by
  have hup := tally_update wt stack w ((stack w).eraseIdx k)
  have hsum := sum_eraseIdx wt h
  omega

omit [Fintype ω] [DecidableEq ω]

/-! ## Sums over an initial segment -/

/-- One term changes. -/
theorem sum_range_replace {a b : ℕ → ℕ} {n i : ℕ} (hi : i < n) (h : ∀ j, j ≠ i → b j = a j) :
    ∑ j ∈ Finset.range n, b j + a i = ∑ j ∈ Finset.range n, a j + b i := by
  have hmem : i ∈ Finset.range n := Finset.mem_range.2 hi
  have hrest : ∑ j ∈ (Finset.range n).erase i, b j = ∑ j ∈ (Finset.range n).erase i, a j :=
    Finset.sum_congr rfl fun j hj => h j (Finset.ne_of_mem_erase hj)
  rw [← Finset.add_sum_erase _ _ hmem, ← Finset.add_sum_erase _ a hmem, hrest]
  omega

theorem le_sum_range {a : ℕ → ℕ} {n i : ℕ} (hi : i < n) :
    a i ≤ ∑ j ∈ Finset.range n, a j :=
  Finset.single_le_sum (f := a) (fun _ _ => Nat.zero_le _) (Finset.mem_range.2 hi)

theorem exists_of_sum_range_pos {a : ℕ → ℕ} {n : ℕ} (h : 0 < ∑ j ∈ Finset.range n, a j) :
    ∃ j < n, 0 < a j := by
  obtain ⟨j, hj, hne⟩ := Finset.exists_ne_zero_of_sum_ne_zero h.ne'
  exact ⟨j, Finset.mem_range.1 hj, Nat.pos_of_ne_zero hne⟩

end Transition
end Partee
