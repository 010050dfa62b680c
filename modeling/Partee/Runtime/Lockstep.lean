import Partee.Runtime.View
import Mathlib.Data.Option.Defs
import Mathlib.Logic.Relation

/-!
# Two analyses side by side

The metadata elements are known by their addresses, and two runs may hand out
different ones.  Two sets of data are alike if some relation between the addresses
matches the elements found at every block: those of OUT arguments by their owner, and
those of IN arguments also by their readers and by their last writer, one to one.  On
data that are alike a task is pushed on the same stacks in the same order, and the data
stay alike.

* `Alike`: two lookup tables with alike elements.
* `Lockstep`: two analyses that have come equally far on alike data.
* `Lockstep.visit`, `Lockstep.handle`, `Lockstep.handleAll`: they stay so.
-/

namespace Partee

namespace View

variable {gridT : BitVec 64} {c x : TaskId} {v v' v'' : View} {e e' f f' g g' : ElemId} {j : ℕ}
  {out : Bool} {R S : ElemId → ElemId → Prop} {a : Argument} {args : List Argument}

/-- The blocks of both lookup tables hold elements that `R` matches. -/
structure Alike (R : ElemId → ElemId → Prop) (v v' : View) : Prop where
  node : ∀ j, Option.Rel R (v.node j) (v'.node j)
  isOut : ∀ f f', R f f' → v.IsOut f = v'.IsOut f'
  owner : ∀ f f', R f f' → (v.elem f).owner = (v'.elem f').owner
  readers : ∀ f f', R f f' → v.IsOut f = false → (v.elem f).readers = (v'.elem f').readers
  dependent : ∀ f f', R f f' → v.IsOut f = false →
    Option.Rel R (v.elem f).dependentMetadata (v'.elem f').dependentMetadata
  unique : ∀ f f' g g', R f f' → R g g' → v.IsOut f = false → v.IsOut g = false → (f = g ↔ f' = g')

/-- Two analyses that have come equally far. -/
structure Lockstep (R : ElemId → ElemId → Prop) (v v' : View) : Prop extends Alike R v v' where
  last : v.last = v'.last
  pushed : v.pushed = v'.pushed

/-- The relation `R`, and the elements `e` and `e'`. -/
def With (R : ElemId → ElemId → Prop) (e e' f f' : ElemId) : Prop := R f f' ∨ f = e ∧ f' = e'

theorem Alike.trans (h : Alike R v v') (h' : Alike S v' v'') : Alike (Relation.Comp R S) v v'' where
  node j := by
    have hj := h.node j
    have hj' := h'.node j
    revert hj hj'
    generalize v.node j = o, v'.node j = o', v''.node j = o''
    rintro (h₁ | _) (h₂ | _)
    · exact .some ⟨_, h₁, h₂⟩
    · exact .none
  isOut f f' := fun ⟨g, hg, hg'⟩ => (h.isOut f g hg).trans (h'.isOut g f' hg')
  owner f f' := fun ⟨g, hg, hg'⟩ => (h.owner f g hg).trans (h'.owner g f' hg')
  readers f f' := fun ⟨g, hg, hg'⟩ hf =>
    (h.readers f g hg hf).trans (h'.readers g f' hg' ((h.isOut f g hg).symm.trans hf))
  dependent f f' := fun ⟨g, hg, hg'⟩ hf => by
    have hd := h.dependent f g hg hf
    have hd' := h'.dependent g f' hg' ((h.isOut f g hg).symm.trans hf)
    revert hd hd'
    generalize (v.elem f).dependentMetadata = o, (v'.elem g).dependentMetadata = o',
      (v''.elem f').dependentMetadata = o''
    rintro (h₁ | _) (h₂ | _)
    · exact .some ⟨_, h₁, h₂⟩
    · exact .none
  unique f f' g g' := fun ⟨i, hi, hi'⟩ ⟨k, hk, hk'⟩ hf hg =>
    (h.unique f i g k hi hk hf hg).trans (h'.unique i f' k g' hi' hk'
      ((h.isOut f i hi).symm.trans hf) ((h.isOut g k hk).symm.trans hg))

namespace Lockstep

/-! ## The updates -/

theorem push (h : Lockstep R v v') (x : TaskId) : Lockstep R (v.push x) (v'.push x) where
  node := h.node
  isOut := h.isOut
  owner := h.owner
  readers := h.readers
  dependent := h.dependent
  unique := h.unique
  last := rfl
  pushed := by rw [push_pushed, push_pushed, h.pushed]

theorem notify (h : Lockstep R v v') (x : TaskId) : Lockstep R (v.notify c x) (v'.notify c x) := by
  unfold View.notify
  rw [h.last]
  split
  · exact h
  · exact h.push x

theorem notifyAll (h : Lockstep R v v') (xs : List TaskId) :
    Lockstep R (v.notifyAll c xs) (v'.notifyAll c xs) := by
  induction xs generalizing v v' with
  | nil => exact h
  | cons x xs ih => exact ih (h.notify x)

theorem setNode (h : Lockstep R v v') (he : R e e') :
    Lockstep R (v.setNode e j) (v'.setNode e' j) where
  node i := by
    rcases eq_or_ne i j with rfl | hij
    · simpa using Option.Rel.some he
    · simpa [hij] using h.node i
  isOut := h.isOut
  owner := h.owner
  readers := h.readers
  dependent := h.dependent
  unique := h.unique
  last := h.last
  pushed := h.pushed

theorem insertFront (h : Lockstep R v v') (hf : R f f') (htype : v.IsOut f = false) :
    Lockstep R (v.insertFront c f) (v'.insertFront c f') where
  node := h.node
  isOut g g' hg := by
    rw [insertFront_isOut, insertFront_isOut, h.isOut g g' hg]
  owner g g' hg := by
    rw [insertFront_owner, insertFront_owner, h.owner g g' hg]
  readers g g' hg hin := by
    rw [insertFront_isOut] at hin
    rw [insertFront_readers, insertFront_readers, h.readers g g' hg hin]
    exact if_congr (h.unique g g' f f' hg hf hin htype) rfl rfl
  dependent g g' hg hin := by
    rw [insertFront_isOut] at hin
    rw [insertFront_dependent, insertFront_dependent]
    exact h.dependent g g' hg hin
  unique g g' i i' hg hi hgin hiin := by
    rw [insertFront_isOut] at hgin hiin
    exact h.unique g g' i i' hg hi hgin hiin
  last := h.last
  pushed := h.pushed

theorem setDependent (h : Lockstep R v v') (he : R e e') (hin : v.IsOut e = false)
    (hf : R f f') : Lockstep R (v.setDependent e f) (v'.setDependent e' f') where
  node := h.node
  isOut g g' hg := by
    rw [setDependent_isOut, setDependent_isOut, h.isOut g g' hg]
  owner g g' hg := by
    rw [setDependent_owner, setDependent_owner, h.owner g g' hg]
  readers g g' hg hgin := by
    rw [setDependent_isOut] at hgin
    rw [setDependent_readers, setDependent_readers, h.readers g g' hg hgin]
  dependent g g' hg hgin := by
    rw [setDependent_isOut] at hgin
    have hiff := h.unique g g' e e' hg he hgin hin
    rw [setDependent_dependent, setDependent_dependent]
    by_cases hge : g = e
    · rw [if_pos hge, if_pos (hiff.1 hge)]
      exact .some hf
    · rw [if_neg hge, if_neg (fun hge' => hge (hiff.2 hge'))]
      exact h.dependent g g' hg hgin
  unique g g' i i' hg hi hgin hiin := by
    rw [setDependent_isOut] at hgin hiin
    exact h.unique g g' i i' hg hi hgin hiin
  last := h.last
  pushed := h.pushed

/-- New elements, which `R` has not matched so far. -/
theorem newElement {type : BitVec 32} (h : Lockstep R v v')
    (hfresh : ∀ f f', R f f' → f ≠ e ∧ f' ≠ e') :
    Lockstep (With R e e') (v.newElement c e type) (v'.newElement c e' type) := by
  have hmono : ∀ o o', Option.Rel R o o' → Option.Rel (With R e e') o o' := by
    rintro _ _ (hr | _)
    · exact .some (.inl hr)
    · exact .none
  have hold : ∀ g g', R g g' → (v.newElement c e type).elem g = v.elem g ∧
      (v'.newElement c e' type).elem g' = v'.elem g' := fun g g' hg =>
    ⟨newElement_of_ne (hfresh g g' hg).1, newElement_of_ne (hfresh g g' hg).2⟩
  refine ⟨⟨fun j => hmono _ _ (h.node j), ?_, ?_, ?_, ?_, ?_⟩, h.last, h.pushed⟩
  · rintro g g' (hg | ⟨rfl, rfl⟩)
    · simp only [View.IsOut, (hold g g' hg).1, (hold g g' hg).2]
      exact h.isOut g g' hg
    · simp only [View.IsOut, newElement_self]
  · rintro g g' (hg | ⟨rfl, rfl⟩)
    · rw [(hold g g' hg).1, (hold g g' hg).2, h.owner g g' hg]
    · rw [newElement_self, newElement_self]
  · rintro g g' (hg | ⟨rfl, rfl⟩) hin
    · simp only [View.IsOut, (hold g g' hg).1] at hin
      rw [(hold g g' hg).1, (hold g g' hg).2, h.readers g g' hg hin]
    · rw [newElement_self, newElement_self]
  · rintro g g' (hg | ⟨rfl, rfl⟩) hin
    · simp only [View.IsOut, (hold g g' hg).1] at hin
      rw [(hold g g' hg).1, (hold g g' hg).2]
      exact hmono _ _ (h.dependent g g' hg hin)
    · rw [newElement_self, newElement_self]
      exact .none
  · rintro g g' i i' (hg | ⟨rfl, rfl⟩) (hi | ⟨rfl, rfl⟩) hgin hiin
    · simp only [View.IsOut, (hold g g' hg).1] at hgin
      simp only [View.IsOut, (hold i i' hi).1] at hiin
      exact h.unique g g' i i' hg hi hgin hiin
    · exact iff_of_false (hfresh g g' hg).1 (hfresh g g' hg).2
    · exact iff_of_false (hfresh i i' hi).1.symm (hfresh i i' hi).2.symm
    · exact iff_of_true rfl rfl

/-! ## The loops -/

theorem readAfterWrite (h : Lockstep R v v') (he : R e e') (hin : v.IsOut e = false)
    (hf : R f f') : Lockstep R (v.readAfterWrite c e f) (v'.readAfterWrite c e' f') := by
  unfold View.readAfterWrite
  rw [h.last, h.owner f f' hf]
  split
  · exact h
  · exact (h.push _).setDependent he hin hf

theorem readAfterRead (h : Lockstep R v v') (hf : R f f') (hin : v.IsOut f = false) :
    Lockstep R (v.readAfterRead c f) (v'.readAfterRead c f') := by
  have hd := h.dependent f f' hf hin
  have hjoin : Lockstep R (v.insertFront c f) (v'.insertFront c f') := h.insertFront hf hin
  rcases hd' : (v.elem f).dependentMetadata with _ | d <;>
    rcases hd'' : (v'.elem f').dependentMetadata with _ | d' <;> rw [hd', hd''] at hd
  · rw [readAfterRead_none hd', readAfterRead_none hd'']
    exact hjoin
  · cases hd
  · cases hd
  · cases hd with
    | some hd =>
      by_cases hskip : c ≠ (v.elem f).owner ∧ v.last ≠ some (v.elem f).owner
      · rw [readAfterRead_push hd' hskip, readAfterRead_push hd'' ?_, h.owner d d' hd]
        · exact hjoin.push _
        · rwa [h.owner f f' hf, h.last] at hskip
      · rw [readAfterRead_skip hd' hskip, readAfterRead_skip hd'' ?_]
        · exact hjoin
        · rwa [h.owner f f' hf, h.last] at hskip

/-- **The same visit of both.** -/
theorem visit (h : Lockstep R v v') (he : R e e') (hin : out = false → v.IsOut e = false) :
    Lockstep R (v.visit c e j out) (v'.visit c e' j out) := by
  have hj := h.node j
  unfold View.visit
  rcases hf : v.node j with _ | f <;> rcases hf' : v'.node j with _ | f' <;> rw [hf, hf'] at hj
  · exact h.setNode he
  · cases hj
  · cases hj
  · cases hj with
    | some hR =>
      dsimp only
      rw [← h.isOut f f' hR]
      split
      · split
        · rw [h.owner f f' hR]
          exact (h.setNode he).notify _
        · rename_i htype
          rw [h.readers f f' hR (by simpa using htype)]
          exact (h.setNode he).notifyAll _
      · rename_i hout
        split
        · exact (h.setNode he).readAfterWrite he (hin (by simpa using hout)) hR
        · rename_i htype
          exact h.readAfterRead hR (by simpa using htype)

/-- **The same argument of both.** -/
theorem handle (h : Lockstep R v v') (hs : a.isSafe = false)
    (hfresh : ∀ f f', R f f' → f ≠ e ∧ f' ≠ e') :
    Lockstep (With R e e') (v.handle gridT c e a) (v'.handle gridT c e' a) := by
  have he : With R e e' e e' := .inr ⟨rfl, rfl⟩
  refine (handle_induct₂ gridT v v' e e' (P := fun _ w w' => Lockstep (With R e e') w w' ∧
    w.IsOut e = a.isOut) hs ⟨h.newElement hfresh, ?_⟩ ?_ ?_).1
  · simp only [View.IsOut, newElement_self, Argument.isOut]
  · rintro hout l w w' ⟨hw, htype⟩
    exact ⟨hw.insertFront he (htype.trans hout), insertFront_isOut.trans htype⟩
  · rintro l j w w' - ⟨hw, htype⟩
    exact ⟨hw.visit he fun hout => htype.trans hout, visit_isOut.trans htype⟩

/-- **The same arguments of both**, when the elements in use lie below the next ones. -/
theorem handleAll (gridT : BitVec 64) (c : TaskId) {n n' : ElemId} (h : Lockstep R v v')
    (hlt : ∀ f f', R f f' → f < n ∧ f' < n') (args : List Argument) :
    ∃ S, Lockstep S (View.handleAll gridT c (v, n) args).1 (View.handleAll gridT c (v', n') args).1 ∧
      ∀ f f', S f f' → f < (View.handleAll gridT c (v, n) args).2 ∧
        f' < (View.handleAll gridT c (v', n') args).2 := by
  induction args generalizing v v' n n' R with
  | nil => exact ⟨R, h, hlt⟩
  | cons a args ih =>
    simp only [View.handleAll]
    split
    · exact ih h hlt
    · rename_i hs
      refine ih (h.handle (by simpa using hs) fun f f' hf => ?_) ?_
      · exact ⟨Nat.ne_of_lt (hlt f f' hf).1, Nat.ne_of_lt (hlt f f' hf).2⟩
      · rintro f f' (hf | ⟨rfl, rfl⟩)
        · exact ⟨Nat.lt_succ_of_lt (hlt f f' hf).1, Nat.lt_succ_of_lt (hlt f f' hf).2⟩
        · exact ⟨Nat.lt_succ_self _, Nat.lt_succ_self _⟩

/-- The same arguments of both, with other elements. -/
theorem process (gridT : BitVec 64) (c : TaskId) {l l' : List (ElemId × Argument)}
    (h : Lockstep R v v')
    (hargs : List.Forall₂ (fun p q => p.2 = q.2) l l')
    (hs : ∀ p ∈ l, p.2.isSafe = false) (hn : (l.map Prod.fst).Nodup) (hn' : (l'.map Prod.fst).Nodup)
    (hfresh : ∀ f f', R f f' → f ∉ l.map Prod.fst ∧ f' ∉ l'.map Prod.fst) :
    ∃ S, Lockstep S (v.process gridT c l) (v'.process gridT c l') ∧
      ∀ f f', S f f' → R f f' ∨ f ∈ l.map Prod.fst ∧ f' ∈ l'.map Prod.fst := by
  induction hargs generalizing v v' R with
  | nil => exact ⟨R, h, fun f f' hf => .inl hf⟩
  | @cons p q l l' hpq hargs ih =>
    rw [List.map_cons, List.nodup_cons] at hn hn'
    simp only [List.map_cons, List.mem_cons, not_or] at hfresh
    have hstep : Lockstep (With R p.1 q.1) (v.handle gridT c p.1 p.2) (v'.handle gridT c q.1 p.2) :=
      h.handle (hs p List.mem_cons_self) fun f f' hf =>
        ⟨(hfresh f f' hf).1.1, (hfresh f f' hf).2.1⟩
    obtain ⟨S, hS, hnew⟩ := ih hstep (fun r hr => hs r (List.mem_cons_of_mem _ hr)) hn.2 hn'.2
      fun f f' hf => by
        rcases hf with hf | ⟨rfl, rfl⟩
        · exact ⟨(hfresh f f' hf).1.2, (hfresh f f' hf).2.2⟩
        · exact ⟨hn.1, hn'.1⟩
    refine ⟨S, by rw [View.process, View.process, List.foldl_cons, List.foldl_cons, ← hpq]; exact hS,
      fun f f' hf => ?_⟩
    rcases hnew f f' hf with (hf | ⟨rfl, rfl⟩) | hf
    · exact .inl hf
    · exact .inr ⟨List.mem_cons_self, List.mem_cons_self⟩
    · exact .inr ⟨List.mem_cons_of_mem _ hf.1, List.mem_cons_of_mem _ hf.2⟩

end Lockstep

end View

end Partee
