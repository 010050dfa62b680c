import Partee.Runtime.View
import Mathlib.Logic.Relation

/-!
# What a task waits for

The tasks that a spawn pushes the new task on depend on the order of its arguments:
an argument may find the element of an earlier argument of the same task in the place
of an older one, and a push is skipped when the task has just been pushed on the same
stack, or on that of a task that waits for it already.  The tasks it comes to wait for
do not depend on the order.  They are those that the elements found before the spawn
name (`View.Sources`), and what these wait for.

`edge` is the relation between a task and those on whose stacks it has been pushed.
-/

namespace Partee

namespace View

variable {gridT : BitVec 64} {c x y : TaskId} {v v₀ w : View} {e f : ElemId} {j : ℕ} {out : Bool}
  {edge : TaskId → TaskId → Prop} {args : List Argument} {a : Argument}

/-- The tasks that a visit of block `j` makes a task wait for. -/
def Source (v : View) (out : Bool) (j : ℕ) (x : TaskId) : Prop :=
  ∃ f, v.node j = some f ∧
    if v.IsOut f then x = (v.elem f).owner
    else if out then x ∈ (v.elem f).readers else v.writer f = some x

/-- The tasks that the visits of the arguments make a task wait for. -/
def Sources (gridT : BitVec 64) (v : View) (args : List Argument) (x : TaskId) : Prop :=
  ∃ a ∈ args, ∃ j ∈ a.blocks gridT, v.Source a.isOut j x

/-- `x` is, or comes before, a task that has been pushed on. -/
def Reached (edge : TaskId → TaskId → Prop) (v : View) (x : TaskId) : Prop :=
  ∃ y ∈ v.pushed, Relation.ReflTransGen edge y x

/-- The data before the analysis of `c`: nothing names `c`, a list of readers starts
with the owner, and the owner has been pushed on the last writer. -/
structure Clean (edge : TaskId → TaskId → Prop) (c : TaskId) (v : View) : Prop where
  owner : ∀ j f, v.node j = some f → (v.elem f).owner ≠ c
  readers : ∀ j f, v.node j = some f → c ∉ (v.elem f).readers
  reader : ∀ j f, v.node j = some f → v.IsOut f = false → (v.elem f).owner ∈ (v.elem f).readers
  writer : ∀ j f x, v.node j = some f → v.writer f = some x → edge (v.elem f).owner x
  last : v.last = none
  pushed : v.pushed = []

/-- The element is not in use. -/
def Fresh (v : View) (e : ElemId) : Prop :=
  ∀ j f, v.node j = some f → f ≠ e ∧ (v.elem f).dependentMetadata ≠ some e

/-- The element belongs to an argument of `c`. -/
structure Own (c : TaskId) (v : View) (e : ElemId) : Prop where
  owner : (v.elem e).owner = c
  readers : ∀ x ∈ (v.elem e).readers, x = c

/-- The element is as it was, but for `c` among its readers. -/
structure Kept (c : TaskId) (v w : View) (f : ElemId) : Prop where
  type : (w.elem f).type = (v.elem f).type
  owner : (w.elem f).owner = (v.elem f).owner
  dependent : (w.elem f).dependentMetadata = (v.elem f).dependentMetadata
  readers : ∀ x, x ≠ c → (x ∈ (w.elem f).readers ↔ x ∈ (v.elem f).readers)

/-- The analysis of `c`, begun at `v₀`, is at `w`. -/
structure Underway (gridT : BitVec 64) (edge : TaskId → TaskId → Prop) (c : TaskId) (v₀ w : View)
    (args : List Argument) : Prop where
  /-- An element that has been replaced has been waited for. -/
  node : ∀ j, w.node j = v₀.node j ∨ ∃ e, w.node j = some e ∧ Own c w e ∧
    ∀ f, v₀.node j = some f → if v₀.IsOut f then Reached edge w (v₀.elem f).owner
      else ∀ x ∈ (v₀.elem f).readers, Reached edge w x
  kept : ∀ j f, v₀.node j = some f → Kept c v₀ w f
  dependent : ∀ j f d, v₀.node j = some f → (v₀.elem f).dependentMetadata = some d →
    (w.elem d).owner = (v₀.elem d).owner
  pushed : ∀ x ∈ w.pushed, v₀.Sources gridT args x
  last : w.LastOk

theorem Reached.mono (hsub : v.pushed ⊆ w.pushed) (h : Reached edge v x) : Reached edge w x := by
  obtain ⟨y, hy, hyx⟩ := h
  exact ⟨y, hsub hy, hyx⟩

theorem Reached.of_mem (h : x ∈ v.pushed) : Reached edge v x := ⟨x, h, .refl⟩

theorem Underway.start (h : Clean edge c v) : Underway gridT edge c v v args where
  node j := .inl rfl
  kept j f _ := ⟨rfl, rfl, rfl, fun _ _ => Iff.rfl⟩
  dependent j f d _ _ := rfl
  pushed x hx := by
    rw [h.pushed] at hx
    cases hx
  last x hx := by
    rw [h.last] at hx
    cases hx

/-- A change of the elements and of the pushes, with the lookup table as it is or with
an element of `c` at one block more. -/
theorem Underway.step {w' : View} (h : Underway gridT edge c v₀ w args)
    (hnode : ∀ i, w'.node i = w.node i ∨ ∃ e, w'.node i = some e ∧ Own c w' e ∧
      ∀ f, v₀.node i = some f → if v₀.IsOut f then Reached edge w' (v₀.elem f).owner
        else ∀ x ∈ (v₀.elem f).readers, Reached edge w' x)
    (howner : ∀ f, (w'.elem f).owner = (w.elem f).owner)
    (htype : ∀ f, (w'.elem f).type = (w.elem f).type)
    (hreaders : ∀ f x, x ≠ c → (x ∈ (w'.elem f).readers ↔ x ∈ (w.elem f).readers))
    (hdependent : ∀ j f, v₀.node j = some f →
      (w'.elem f).dependentMetadata = (w.elem f).dependentMetadata)
    (hsub : w.pushed ⊆ w'.pushed) (hnew : ∀ x ∈ w'.pushed, x ∈ w.pushed ∨ v₀.Sources gridT args x)
    (hlast : w'.LastOk) : Underway gridT edge c v₀ w' args where
  node i := by
    rcases hnode i with heq | hown
    · rw [heq]
      refine (h.node i).imp_right fun ⟨e, he, hown, hold⟩ => ⟨e, he, ⟨?_, fun x hx => ?_⟩, ?_⟩
      · rw [howner, hown.owner]
      · by_contra hne
        exact hne (hown.readers x ((hreaders e x hne).1 hx))
      · intro f hf
        have hf' := hold f hf
        split
        · rename_i hout
          rw [if_pos hout] at hf'
          exact hf'.mono hsub
        · rename_i hout
          rw [if_neg hout] at hf'
          exact fun x hx => (hf' x hx).mono hsub
    · exact .inr hown
  kept j f hf := by
    have hk := h.kept j f hf
    exact ⟨(htype f).trans hk.type, (howner f).trans hk.owner, (hdependent j f hf).trans hk.dependent,
      fun x hx => (hreaders f x hx).trans (hk.readers x hx)⟩
  dependent j f d hf hd := (howner d).trans (h.dependent j f d hf hd)
  pushed x hx := (hnew x hx).elim (h.pushed x) id
  last := hlast

/-! ## One visit -/

theorem Own.visit {i : ElemId} (h : Own c w i) : Own c (w.visit c e j out) i where
  owner := by rw [visit_owner, h.owner]
  readers x hx := by
    by_contra hne
    exact hne (h.readers x ((mem_visit_readers hne).1 hx))

/-- The visit of a block, from what it does there. -/
theorem Underway.ofVisit (h : Underway gridT edge c v₀ w args) (hfresh : Fresh v₀ e)
    (hnode : (w.visit c e j out).node j = w.node j ∨
      ∃ i, (w.visit c e j out).node j = some i ∧ Own c w i ∧ ∀ f, v₀.node j = some f →
        if v₀.IsOut f then Reached edge (w.visit c e j out) (v₀.elem f).owner
        else ∀ x ∈ (v₀.elem f).readers, Reached edge (w.visit c e j out) x)
    (hnew : ∀ x ∈ (w.visit c e j out).pushed, x ∈ w.pushed ∨ v₀.Sources gridT args x) :
    Underway gridT edge c v₀ (w.visit c e j out) args := by
  refine h.step (fun i => ?_) (fun f => visit_owner) (fun f => visit_type)
    (fun f x hx => mem_visit_readers hx) (fun i f hf => visit_dependent (hfresh i f hf).1)
    subset_pushed_visit hnew h.last.visit
  rcases eq_or_ne i j with rfl | hij
  · exact hnode.imp_right fun ⟨i, hi, hown, hold⟩ => ⟨i, hi, hown.visit, hold⟩
  · exact .inl (visit_node_of_ne hij)

/-- What a visit of block `j` achieves. -/
structure Visits (gridT : BitVec 64) (edge : TaskId → TaskId → Prop) (c : TaskId) (v₀ w : View)
    (args : List Argument) (out : Bool) (j : ℕ) : Prop extends Underway gridT edge c v₀ w args where
  covers : ∀ x, v₀.Source out j x → Reached edge w x

/-- Nothing is found at the block. -/
theorem Underway.visit_none (h : Underway gridT edge c v₀ w args) (he : Own c w e)
    (hfresh : Fresh v₀ e) (hj : w.node j = none) :
    Visits gridT edge c v₀ (w.visit c e j out) args out j := by
  have hold : v₀.node j = none := by
    rcases h.node j with heq | ⟨i, hi, -⟩
    · rw [← heq, hj]
    · rw [hj] at hi
      cases hi
  have hvisit : w.visit c e j out = w.setNode e j := by rw [View.visit, hj]
  refine ⟨h.ofVisit hfresh (.inr ⟨e, ?_, he, ?_⟩) ?_, ?_⟩
  · rw [hvisit, setNode_node, Function.update_self]
  · intro f hf
    rw [hold] at hf
    cases hf
  · intro x hx
    rw [hvisit] at hx
    exact .inl hx
  · rintro x ⟨f, hf, -⟩
    rw [hold] at hf
    cases hf

/-- A visit pushes `c` on nobody else's stack when the element found is one of its
own. -/
theorem pushed_visit_own (hl : w.LastOk) (hj : w.node j = some f) (hf : Own c w f)
    (hx : x ∈ (w.visit c e j out).pushed) : x ∈ w.pushed := by
  have hl' : (w.setNode e j).LastOk := hl
  unfold View.visit at hx
  rw [hj] at hx
  dsimp only at hx
  split at hx
  · split at hx
    · exact ((mem_pushed_notify hl').1 hx).resolve_right fun hne => hne.2 hf.owner.symm
    · exact ((mem_pushed_notifyAll hl').1 hx).resolve_right fun hne =>
        hne.2 (hf.readers x hne.1).symm
  · split at hx
    · exact ((mem_pushed_readAfterWrite hl').1 hx).resolve_right fun hne => hne.2 hf.owner.symm
    · unfold readAfterRead at hx
      split at hx
      · exact hx
      · rw [if_neg (fun hne => hne.1 hf.owner.symm)] at hx
        exact hx

theorem node_visit_self (hj : w.node j = some f) :
    (w.visit c e j out).node j = w.node j ∨ (w.visit c e j out).node j = some e := by
  unfold View.visit
  rw [hj]
  dsimp only
  repeat' split
  all_goals simp [hj]

/-- An element of `c` is found at the block. -/
theorem Underway.visit_own (hC : Clean edge c v₀) (h : Underway gridT edge c v₀ w args)
    (he : Own c w e) (hfresh : Fresh v₀ e) (hj : w.node j = some f) (hf : Own c w f)
    (hold : ∀ f, v₀.node j = some f → if v₀.IsOut f then Reached edge w (v₀.elem f).owner
      else ∀ x ∈ (v₀.elem f).readers, Reached edge w x) :
    Visits gridT edge c v₀ (w.visit c e j out) args out j := by
  refine ⟨h.ofVisit hfresh ?_ (fun x hx => .inl (pushed_visit_own h.last hj hf hx)), ?_⟩
  · refine (node_visit_self hj).imp_right fun hnode => ⟨e, hnode, he, fun i hi => ?_⟩
    have hi' := hold i hi
    split
    · rename_i hout
      rw [if_pos hout] at hi'
      exact hi'.mono subset_pushed_visit
    · rename_i hout
      rw [if_neg hout] at hi'
      exact fun x hx => (hi' x hx).mono subset_pushed_visit
  · rintro x ⟨i, hi, hx⟩
    refine Reached.mono subset_pushed_visit ?_
    have hi' := hold i hi
    split at hx
    · rename_i hout
      rw [if_pos hout] at hi'
      exact hx ▸ hi'
    · rename_i hout
      rw [if_neg hout] at hi'
      split at hx
      · exact hi' x hx
      · -- the owner of the readers has been waited for, and waits for the writer
        obtain ⟨y, hy, hyo⟩ := hi' _ (hC.reader j i hi (by simpa using hout))
        exact ⟨y, hy, hyo.tail (hC.writer j i x hi hx)⟩

theorem Kept.isOut (h : Kept c v w f) : w.IsOut f = v.IsOut f := by
  rw [View.IsOut, View.IsOut, h.type]

theorem source_iff (hf : v.node j = some f) : v.Source out j x ↔
    if v.IsOut f then x = (v.elem f).owner
    else if out then x ∈ (v.elem f).readers else v.writer f = some x := by
  constructor
  · rintro ⟨i, hi, hx⟩
    obtain rfl : f = i := Option.some.inj (hf.symm.trans hi)
    exact hx
  · exact fun hx => ⟨f, hf, hx⟩

/-- An element of an older task is found: it is replaced unless the new task joins its
readers. -/
theorem Underway.visit_found (h : Underway gridT edge c v₀ w args) (he : Own c w e)
    (hfresh : Fresh v₀ e) (ha : a ∈ args) (hja : j ∈ a.blocks gridT) (hj : w.node j = some f)
    (hf : v₀.node j = some f)
    (hpushed : ∀ x ∈ (w.visit c e j a.isOut).pushed, x ∈ w.pushed ∨ v₀.Source a.isOut j x)
    (hcov : ∀ x, v₀.Source a.isOut j x → Reached edge (w.visit c e j a.isOut) x)
    (hkeep : v₀.IsOut f = false → a.isOut = false → (w.visit c e j a.isOut).node j = w.node j) :
    Visits gridT edge c v₀ (w.visit c e j a.isOut) args a.isOut j := by
  refine ⟨h.ofVisit hfresh ?_ fun x hx => (hpushed x hx).imp_right fun hs => ⟨a, ha, j, hja, hs⟩,
    hcov⟩
  by_cases hjoin : v₀.IsOut f = false ∧ a.isOut = false
  · exact .inl (hkeep hjoin.1 hjoin.2)
  · refine (node_visit_self hj).imp_right fun hnode => ⟨e, hnode, he, fun i hi => ?_⟩
    obtain rfl : f = i := Option.some.inj (hf.symm.trans hi)
    split
    · rename_i htype
      exact hcov _ ((source_iff hf).2 (by rw [if_pos htype]))
    · rename_i htype
      intro x hx
      have hout : a.isOut = true := by
        by_contra hout
        exact hjoin ⟨by simpa using htype, by simpa using hout⟩
      exact hcov x ((source_iff hf).2 (by rwa [if_neg htype, if_pos hout]))

/-- The element found is that of an OUT argument. -/
theorem Underway.visit_written (hC : Clean edge c v₀) (h : Underway gridT edge c v₀ w args)
    (he : Own c w e) (hfresh : Fresh v₀ e) (ha : a ∈ args) (hja : j ∈ a.blocks gridT)
    (hj : w.node j = some f) (hf : v₀.node j = some f) (htype : v₀.IsOut f = true) :
    Visits gridT edge c v₀ (w.visit c e j a.isOut) args a.isOut j := by
  have hk := h.kept j f hf
  have hne : c ≠ (w.elem f).owner := by
    rw [hk.owner]
    exact (hC.owner j f hf).symm
  have hl : (w.setNode e j).LastOk := h.last
  have hpushed : ∀ x, x ∈ (w.visit c e j a.isOut).pushed ↔ x ∈ w.pushed ∨ x = (v₀.elem f).owner := by
    intro x
    unfold View.visit
    rw [hj]
    dsimp only
    rw [hk.isOut, htype, ← hk.owner]
    cases a.isOut with
    | true => simp [mem_pushed_notify hl, hne]
    | false => simp [mem_pushed_readAfterWrite hl, hne]
  have hsource : ∀ x, v₀.Source a.isOut j x ↔ x = (v₀.elem f).owner := fun x => by
    rw [source_iff hf, if_pos htype]
  exact h.visit_found he hfresh ha hja hj hf
    (fun x hx => ((hpushed x).1 hx).imp_right (hsource x).2)
    (fun x hx => .of_mem ((hpushed x).2 (.inr ((hsource x).1 hx))))
    fun hin => absurd htype (by simp [hin])

/-- The readers are found by an OUT argument. -/
theorem Underway.visit_readers (hC : Clean edge c v₀) (h : Underway gridT edge c v₀ w args)
    (he : Own c w e) (hfresh : Fresh v₀ e) (ha : a ∈ args) (hja : j ∈ a.blocks gridT)
    (hj : w.node j = some f) (hf : v₀.node j = some f) (htype : v₀.IsOut f = false)
    (hout : a.isOut = true) :
    Visits gridT edge c v₀ (w.visit c e j a.isOut) args a.isOut j := by
  have hk := h.kept j f hf
  have hl : (w.setNode e j).LastOk := h.last
  have hreaders : ∀ x, x ∈ (w.elem f).readers ∧ c ≠ x ↔ x ∈ (v₀.elem f).readers := by
    intro x
    constructor
    · rintro ⟨hx, hne⟩
      exact (hk.readers x hne.symm).1 hx
    · intro hx
      have hne : x ≠ c := fun hxc => hC.readers j f hf (hxc ▸ hx)
      exact ⟨(hk.readers x hne).2 hx, hne.symm⟩
  have hpushed : ∀ x, x ∈ (w.visit c e j a.isOut).pushed ↔
      x ∈ w.pushed ∨ x ∈ (v₀.elem f).readers := by
    intro x
    unfold View.visit
    rw [hj]
    dsimp only
    rw [hk.isOut, htype, hout]
    simp only [if_true, Bool.false_eq_true, if_false]
    rw [mem_pushed_notifyAll hl, hreaders]
    rfl
  have hsource : ∀ x, v₀.Source a.isOut j x ↔ x ∈ (v₀.elem f).readers := fun x => by
    rw [source_iff hf, if_neg (by simp [htype]), if_pos hout]
  exact h.visit_found he hfresh ha hja hj hf
    (fun x hx => ((hpushed x).1 hx).imp_right (hsource x).2)
    (fun x hx => .of_mem ((hpushed x).2 (.inr ((hsource x).1 hx))))
    fun _ hin => absurd hout (by simp [hin])

/-- The readers are found by an IN argument, which joins them. -/
theorem Underway.visit_join (hC : Clean edge c v₀) (h : Underway gridT edge c v₀ w args)
    (he : Own c w e) (hfresh : Fresh v₀ e) (ha : a ∈ args) (hja : j ∈ a.blocks gridT)
    (hj : w.node j = some f) (hf : v₀.node j = some f) (htype : v₀.IsOut f = false)
    (hout : a.isOut = false) :
    Visits gridT edge c v₀ (w.visit c e j a.isOut) args a.isOut j := by
  have hk := h.kept j f hf
  have hvisit : w.visit c e j a.isOut = w.readAfterRead c f := by
    unfold View.visit
    rw [hj]
    dsimp only
    rw [hk.isOut, htype, hout]
    rfl
  have hwriter : ∀ d, (w.elem f).dependentMetadata = some d →
      v₀.writer f = some (w.elem d).owner := by
    intro d hd
    rw [hk.dependent] at hd
    rw [View.writer, hd, h.dependent j f d hf hd]
    rfl
  have hsource : ∀ x, v₀.Source a.isOut j x ↔ v₀.writer f = some x := fun x => by
    rw [source_iff hf, if_neg (by simp [htype]), if_neg (by simp [hout])]
  refine h.visit_found he hfresh ha hja hj hf (fun x hx => ?_) (fun x hx => ?_) fun _ _ => by
    rw [hvisit, readAfterRead_node]
  · rw [hvisit] at hx
    unfold readAfterRead at hx
    split at hx
    · exact .inl hx
    · rename_i d hd
      split at hx
      · rcases List.mem_cons.1 hx with rfl | hx
        · exact .inr ((hsource _).2 (hwriter d hd))
        · exact .inl hx
      · exact .inl hx
  · rw [hsource] at hx
    rw [hvisit]
    cases hd : (w.elem f).dependentMetadata with
    | none =>
      rw [View.writer, ← hk.dependent, hd] at hx
      cases hx
    | some d =>
      obtain rfl := Option.some.inj ((hwriter d hd).symm.trans hx)
      by_cases hskip : c ≠ (w.elem f).owner ∧ w.last ≠ some (w.elem f).owner
      · rw [readAfterRead_push hd hskip]
        exact .of_mem List.mem_cons_self
      · -- the last push was on the owner of the readers, which waits for the writer
        rw [readAfterRead_skip hd hskip]
        have hlast : w.last = some (v₀.elem f).owner := by
          rw [hk.owner] at hskip
          by_contra hne
          exact hskip ⟨(hC.owner j f hf).symm, hne⟩
        exact ⟨_, h.last _ hlast, .single (hC.writer j f _ hf hx)⟩

/-- **One iteration of the loop of `create_dependency`.** -/
theorem Underway.visit (hC : Clean edge c v₀) (h : Underway gridT edge c v₀ w args)
    (he : Own c w e) (hfresh : Fresh v₀ e) (ha : a ∈ args) (hja : j ∈ a.blocks gridT) :
    Visits gridT edge c v₀ (w.visit c e j a.isOut) args a.isOut j := by
  rcases hj : w.node j with _ | f
  · exact h.visit_none he hfresh hj
  · rcases h.node j with hold | ⟨i, hi, hown, hold⟩
    · have hf : v₀.node j = some f := hold.symm.trans hj
      cases htype : v₀.IsOut f with
      | true => exact h.visit_written hC he hfresh ha hja hj hf htype
      | false =>
        cases hout : a.isOut with
        | true =>
          rw [← hout]
          exact h.visit_readers hC he hfresh ha hja hj hf htype hout
        | false =>
          rw [← hout]
          exact h.visit_join hC he hfresh ha hja hj hf htype hout
    · obtain rfl : f = i := Option.some.inj (hj.symm.trans hi)
      exact h.visit_own hC he hfresh hj hown hold

/-! ## The arguments -/

/-- The element of the next argument. -/
theorem Underway.newElement {type : BitVec 32} (h : Underway gridT edge c v₀ w args)
    (hfresh : Fresh v₀ e) : Underway gridT edge c v₀ (w.newElement c e type) args where
  node i := by
    refine (h.node i).imp_right fun ⟨d, hd, hown, hold⟩ => ⟨d, hd, ?_, hold⟩
    rcases eq_or_ne d e with rfl | hne
    · constructor <;> simp [newElement_self]
    · constructor
      · rw [newElement_of_ne hne, hown.owner]
      · rw [newElement_of_ne hne]
        exact hown.readers
  kept j f hf := by
    have hk := h.kept j f hf
    have hne : (w.newElement c e type).elem f = w.elem f := newElement_of_ne (hfresh j f hf).1
    exact ⟨hne ▸ hk.type, hne ▸ hk.owner, hne ▸ hk.dependent, hne ▸ hk.readers⟩
  dependent j f d hf hd := by
    have hne : d ≠ e := fun hde => (hfresh j f hf).2 (hde ▸ hd)
    rw [newElement_of_ne hne, h.dependent j f d hf hd]
  pushed := h.pushed
  last := h.last

/-- The new task joins the readers of its own element. -/
theorem Underway.insertFront (h : Underway gridT edge c v₀ w args) :
    Underway gridT edge c v₀ (w.insertFront c e) args := by
  refine h.step (fun i => .inl rfl) (fun f => insertFront_owner) (fun f => insertFront_type)
    (fun f x hx => ?_) (fun j f _ => insertFront_dependent) (List.Subset.refl _)
    (fun x hx => .inl hx) h.last
  rw [insertFront_readers]
  split
  · rw [List.mem_cons, or_iff_right hx]
  · rfl

theorem Own.insertFront (h : Own c w e) : Own c (w.insertFront c e) e where
  owner := by rw [insertFront_owner, h.owner]
  readers x hx := by
    rw [insertFront_readers, if_pos rfl, List.mem_cons] at hx
    exact hx.elim id (h.readers x)

/-- **`handle_argument`.** -/
theorem Underway.handle (hC : Clean edge c v₀) (h : Underway gridT edge c v₀ w args)
    (hfresh : Fresh v₀ e) (ha : a ∈ args) (hs : a.isSafe = false) :
    Underway gridT edge c v₀ (w.handle gridT c e a) args ∧
      w.pushed ⊆ (w.handle gridT c e a).pushed ∧
      ∀ j ∈ a.blocks gridT, ∀ x, v₀.Source a.isOut j x → Reached edge (w.handle gridT c e a) x := by
  have hall := handle_induct gridT (v := w) (c := c) (e := e) hs
    (P := fun l w' => Underway gridT edge c v₀ w' args ∧ Own c w' e ∧ w.pushed ⊆ w'.pushed ∧
      ∀ j ∈ l, ∀ x, v₀.Source a.isOut j x → Reached edge w' x)
    ⟨h.newElement hfresh, by constructor <;> simp [newElement_self], List.Subset.refl _, by simp⟩
    (fun _ l w' hw => ⟨hw.1.insertFront, hw.2.1.insertFront, hw.2.2⟩)
    fun l j w' hj ⟨hw, hown, hsub, hl⟩ => ?_
  · simp only [List.mem_reverse] at hall
    exact ⟨hall.1, hall.2.2⟩
  · have hv := hw.visit hC hown hfresh ha hj
    refine ⟨hv.toUnderway, hown.visit, List.Subset.trans hsub subset_pushed_visit, ?_⟩
    intro i hi x hx
    rcases List.mem_cons.1 hi with rfl | hi
    · exact hv.covers x hx
    · exact (hl i hi x hx).mono subset_pushed_visit

/-- The loop of `create_dependencies`. -/
theorem Underway.process {l : List (ElemId × Argument)} (hC : Clean edge c v₀)
    (h : Underway gridT edge c v₀ w args) (hl : ∀ p ∈ l, Fresh v₀ p.1 ∧ p.2.isSafe = false)
    (hsub : l.map Prod.snd ⊆ args) :
    Underway gridT edge c v₀ (w.process gridT c l) args ∧
      w.pushed ⊆ (w.process gridT c l).pushed ∧
      ∀ y, v₀.Sources gridT (l.map Prod.snd) y → Reached edge (w.process gridT c l) y := by
  induction l generalizing w with
  | nil => exact ⟨h, List.Subset.refl _, fun y hy => by simp [Sources] at hy⟩
  | cons p l ih =>
    obtain ⟨hfresh, hs⟩ := hl p List.mem_cons_self
    rw [List.map_cons, List.cons_subset] at hsub
    obtain ⟨hu, hpushed, hcov⟩ := h.handle hC hfresh hsub.1 hs
    obtain ⟨hu', hpushed', hcov'⟩ := ih hu (fun q hq => hl q (List.mem_cons_of_mem _ hq)) hsub.2
    refine ⟨hu', List.Subset.trans hpushed hpushed', ?_⟩
    rintro y ⟨a, ha, j, hj, hsrc⟩
    rcases List.mem_cons.1 ha with rfl | ha
    · exact (hcov j hj y hsrc).mono hpushed'
    · exact hcov' y ⟨a, ha, j, hj, hsrc⟩

/-- **What a task waits for.**  It comes to wait for the tasks that the elements found
before its spawn name, and for what these wait for. -/
theorem reached_process {l : List (ElemId × Argument)} (hC : Clean edge c v)
    (hl : ∀ p ∈ l, Fresh v p.1 ∧ p.2.isSafe = false) :
    Reached edge (v.process gridT c l) x ↔
      ∃ y, v.Sources gridT (l.map Prod.snd) y ∧ Relation.ReflTransGen edge y x := by
  obtain ⟨hu, -, hcov⟩ := Underway.process hC (.start hC) hl (List.Subset.refl _)
  constructor
  · rintro ⟨y, hy, hyx⟩
    exact ⟨y, hu.pushed y hy, hyx⟩
  · rintro ⟨y, hy, hyx⟩
    obtain ⟨z, hz, hzy⟩ := hcov y hy
    exact ⟨z, hz, hzy.trans hyx⟩

end View

end Partee
