import Partee.Runtime.Lockstep
import Partee.Runtime.OwnWaits
import Mathlib.Algebra.BigOperators.Group.List.Basic
import Mathlib.Algebra.GroupWithZero.Nat
import Mathlib.Data.List.Induction

/-!
# Arguments that do not meet

Two arguments of one task are apart if both are OUT arguments, or if they share no
block, and neither is an IN argument that finds the element of a task on which the
other pushes the new task.  Then neither finds an element of the other, and neither
hits the `deps_last` that the other leaves behind.  If all arguments are pairwise
apart, each does to the elements what it does alone, whatever the order.

* `Apart`: the condition.
* `Merged`: the analyses of the single arguments, put together.
* `merged_process`: this is what the loop of `create_dependencies` computes.
* `alike_of_perm`: so the order does not matter.
-/

namespace Partee

/-- The element `E` after `c` has joined its readers `m` times. -/
@[simps] def MetadataElement.joined (c : TaskId) (m : ℕ) (E : MetadataElement) :
    MetadataElement :=
  { E with readers := List.replicate m c ++ E.readers }

@[simp] theorem MetadataElement.joined_joined {c : TaskId} {m k : ℕ} {E : MetadataElement} :
    (E.joined c m).joined c k = E.joined c (m + k) := by
  simp only [joined, ← List.append_assoc, List.replicate_append_replicate, Nat.add_comm k]

namespace View

variable {gridT : BitVec 64} {c o : TaskId} {v v₀ w x y : View} {e f : ElemId} {i j m : ℕ}
  {a b : Argument} {edge : TaskId → TaskId → Prop} {args : List Argument}
  {l l' : List (ElemId × Argument)} {p : ElemId × Argument}

/-- The argument finds an element of `o`. -/
def Finds (gridT : BitVec 64) (v : View) (a : Argument) (o : TaskId) : Prop :=
  ∃ j ∈ a.blocks gridT, ∃ f, v.node j = some f ∧ (v.elem f).owner = o

/-- The two arguments do not meet. -/
def Apart (gridT : BitVec 64) (v : View) (a b : Argument) : Prop :=
  (a.isOut = true ∧ b.isOut = true) ∨
    (a.blocks gridT).Disjoint (b.blocks gridT) ∧
      (a.isOut = false → ∀ o, v.Finds gridT a o → ¬ v.Sources gridT [b] o) ∧
      (b.isOut = false → ∀ o, v.Finds gridT b o → ¬ v.Sources gridT [a] o)

theorem Apart.symm (h : Apart gridT v a b) : Apart gridT v b a :=
  h.imp (fun h => ⟨h.2, h.1⟩) fun ⟨hdisj, hab, hba⟩ => ⟨List.disjoint_comm.1 hdisj, hba, hab⟩

theorem Apart.disjoint (h : Apart gridT v a b) (hout : a.isOut = false) :
    (a.blocks gridT).Disjoint (b.blocks gridT) := by
  rcases h with ⟨ha, -⟩ | h
  · rw [hout] at ha
    cases ha
  · exact h.1

theorem Apart.not_source (h : Apart gridT v a b) (hout : a.isOut = false)
    (ho : v.Finds gridT a o) : ¬ v.Sources gridT [b] o := by
  rcases h with ⟨ha, -⟩ | h
  · rw [hout] at ha
    cases ha
  · exact h.2.1 hout o ho

/-! ## An OUT argument -/

theorem visit_out_elem : (v.visit c e j true).elem = v.elem := by
  unfold visit
  split
  · rfl
  · simp only [if_true]
    split
    · exact notify_elem
    · exact notifyAll_elem

theorem visit_out_node : (v.visit c e j true).node = Function.update v.node j (some e) := by
  unfold visit
  split
  · rfl
  · simp only [if_true]
    split
    · exact notify_node
    · exact notifyAll_node

theorem handle_out (hs : a.isSafe = false) (hout : a.isOut = true) :
    (w.handle gridT c e a).elem = Function.update w.elem e ⟨a.type, [], c, none⟩ ∧
      ∀ j, (w.handle gridT c e a).node j = if j ∈ a.blocks gridT then some e else w.node j := by
  have hall := handle_induct gridT (v := w) (c := c) (e := e) hs
    (P := fun l w' => w'.elem = Function.update w.elem e ⟨a.type, [], c, none⟩ ∧
      ∀ j, w'.node j = if j ∈ l then some e else w.node j)
    ⟨rfl, fun j => by simp⟩ (fun hin => by simp [hout] at hin) fun l j w' _ ⟨helem, hnode⟩ => ?_
  · simpa only [List.mem_reverse] using hall
  · rw [hout, visit_out_elem, visit_out_node]
    refine ⟨helem, fun i => ?_⟩
    rcases eq_or_ne i j with rfl | hij
    · simp
    · simp [hij, hnode i]

/-! ## An IN argument -/

/-- The visits by an IN argument, from `w` on, where the analysis is underway, and from
`v` on, where it begins, have come to `x` and `y`. -/
structure Same (gridT : BitVec 64) (c : TaskId) (v w : View) (e : ElemId) (a : Argument)
    (x y : View) : Prop where
  node : ∀ j ∈ a.blocks gridT, x.node j = y.node j
  found : ∀ j ∈ a.blocks gridT, ∀ f, y.node j = some f → f = e ∨ v.node j = some f
  frame : ∀ j, j ∉ a.blocks gridT → x.node j = w.node j
  own : x.elem e = y.elem e
  owner : (y.elem e).owner = c
  other : ∀ f ≠ e, ∃ m, x.elem f = (w.elem f).joined c m ∧ y.elem f = (v.elem f).joined c m ∧
    (m ≠ 0 → ∃ j ∈ a.blocks gridT, v.node j = some f)
  last : x.last = y.last ∨ ∀ o, v.Finds gridT a o → x.last ≠ some o ∧ y.last ≠ some o

namespace Same

theorem setNode (h : Same gridT c v w e a x y) (hj : j ∈ a.blocks gridT) :
    Same gridT c v w e a (x.setNode e j) (y.setNode e j) where
  node i hi := by
    rcases eq_or_ne i j with rfl | hij
    · simp
    · simpa [hij] using h.node i hi
  found i hi f hf := by
    rcases eq_or_ne i j with rfl | hij
    · simp only [setNode_node, Function.update_self, Option.some.injEq] at hf
      exact .inl hf.symm
    · rw [setNode_node, Function.update_of_ne hij] at hf
      exact h.found i hi f hf
  frame i hi := by
    have hij : i ≠ j := fun hij => hi (hij ▸ hj)
    rw [setNode_node, Function.update_of_ne hij, h.frame i hi]
  own := h.own
  owner := h.owner
  other := h.other
  last := h.last

theorem push (h : Same gridT c v w e a x y) (o : TaskId) :
    Same gridT c v w e a (x.push o) (y.push o) :=
  { h with last := .inl rfl }

theorem setDependent (h : Same gridT c v w e a x y) (f : ElemId) :
    Same gridT c v w e a (x.setDependent e f) (y.setDependent e f) where
  node := h.node
  found := h.found
  frame := h.frame
  own := by simp [View.setDependent, h.own]
  owner := by rw [setDependent_owner, h.owner]
  other i hi := by
    simp only [View.setDependent, Function.update_of_ne hi]
    exact h.other i hi
  last := h.last

theorem insertFront (h : Same gridT c v w e a x y)
    (hf : f = e ∨ ∃ j ∈ a.blocks gridT, v.node j = some f) :
    Same gridT c v w e a (x.insertFront c f) (y.insertFront c f) where
  node := h.node
  found := h.found
  frame := h.frame
  own := by
    rcases eq_or_ne e f with rfl | hne
    · simp [View.insertFront, h.own]
    · simp [View.insertFront, hne, h.own]
  owner := by rw [insertFront_owner, h.owner]
  other i hi := by
    obtain ⟨m, hx, hy, hm⟩ := h.other i hi
    rcases eq_or_ne i f with rfl | hne
    · refine ⟨m + 1, ?_, ?_, fun _ => hf.resolve_left hi⟩
      · simp [View.insertFront, hx, MetadataElement.joined, List.replicate_succ]
      · simp [View.insertFront, hy, MetadataElement.joined, List.replicate_succ]
    · refine ⟨m, ?_, ?_, hm⟩
      · simp [View.insertFront, hne, hx]
      · simp [View.insertFront, hne, hy]
  last := h.last

/-- The element found has the same type, owner and `dependent_metadata` in both. -/
theorem agrees (hw : Underway gridT edge c v w args) (h : Same gridT c v w e a x y)
    (hf : f = e ∨ v.node j = some f) :
    (x.elem f).type = (y.elem f).type ∧ (x.elem f).owner = (y.elem f).owner ∧
      (x.elem f).dependentMetadata = (y.elem f).dependentMetadata := by
  by_cases hfe : f = e
  · rw [hfe, h.own]
    exact ⟨rfl, rfl, rfl⟩
  · have hk := hw.kept j f (hf.resolve_left hfe)
    obtain ⟨m, hx, hy, -⟩ := h.other f hfe
    rw [hx, hy]
    exact ⟨hk.type, hk.owner, hk.dependent⟩

/-- A push is skipped in both, or in neither. -/
theorem skips (h : Same gridT c v w e a x y) (hj : j ∈ a.blocks gridT)
    (hf : f = e ∨ v.node j = some f) :
    (c = (y.elem f).owner ∨ x.last = some (y.elem f).owner) ↔
      (c = (y.elem f).owner ∨ y.last = some (y.elem f).owner) := by
  by_cases hfe : f = e
  · rw [hfe, h.owner]
    simp
  · rcases h.last with heq | hno
    · rw [heq]
    · obtain ⟨m, -, hy, -⟩ := h.other f hfe
      have hfinds : v.Finds gridT a (y.elem f).owner := by
        rw [hy]
        exact ⟨j, hj, f, hf.resolve_left hfe, rfl⟩
      rw [or_iff_left (hno _ hfinds).1, or_iff_left (hno _ hfinds).2]

/-- **The same visit.** -/
theorem visit (hw : Underway gridT edge c v w args) (h : Same gridT c v w e a x y)
    (hj : j ∈ a.blocks gridT) :
    Same gridT c v w e a (x.visit c e j false) (y.visit c e j false) := by
  have hxy := h.node j hj
  unfold View.visit
  rw [hxy]
  rcases hy : y.node j with _ | f
  · exact h.setNode hj
  · have hf := h.found j hj f hy
    obtain ⟨htype, howner, hdependent⟩ := h.agrees hw hf
    have hskip := h.skips hj hf
    cases hout : isOutType (y.elem f).type with
    | true =>
      simp only [View.IsOut, htype, hout, Bool.false_eq_true, if_false, if_true]
      unfold readAfterWrite
      simp only [setNode_elem, setNode_last, howner, hskip]
      split
      · exact h.setNode hj
      · exact ((h.setNode hj).push _).setDependent f
    | false =>
      simp only [View.IsOut, htype, hout, Bool.false_eq_true, if_false]
      have hjoin : Same gridT c v w e a (x.insertFront c f) (y.insertFront c f) :=
        h.insertFront (hf.imp_right fun hf => ⟨j, hj, hf⟩)
      cases hd : (y.elem f).dependentMetadata with
      | none =>
        rw [readAfterRead_none hd, readAfterRead_none (hdependent.trans hd)]
        exact hjoin
      | some d =>
        by_cases hself : c ≠ (y.elem f).owner ∧ y.last ≠ some (y.elem f).owner
        · have hfe : f ≠ e := fun hfe => hself.1 (by rw [hfe, h.owner])
          obtain ⟨m, -, hyf, -⟩ := h.other f hfe
          have hvd : (v.elem f).dependentMetadata = some d := by rw [← hd, hyf]; rfl
          have hself' : c ≠ (x.elem f).owner ∧ x.last ≠ some (x.elem f).owner := by
            rw [howner, ← not_or, hskip, not_or]
            exact hself
          have hod : (x.elem d).owner = (y.elem d).owner := by
            by_cases hde : d = e
            · rw [hde, h.own]
            · obtain ⟨k, hxd, hyd, -⟩ := h.other d hde
              rw [hxd, hyd]
              exact hw.dependent j f d (hf.resolve_left hfe) hvd
          rw [readAfterRead_push hd hself, readAfterRead_push (hdependent.trans hd) hself', hod]
          exact hjoin.push _
        · have hself' : ¬ (c ≠ (x.elem f).owner ∧ x.last ≠ some (x.elem f).owner) := by
            rw [howner, ← not_or, hskip, not_or]
            exact hself
          rw [readAfterRead_skip hd hself, readAfterRead_skip (hdependent.trans hd) hself']
          exact hjoin

end Same

/-! ## One argument -/

/-- How often `c` joins the readers of `f`, by the argument alone. -/
def joins (gridT : BitVec 64) (c : TaskId) (v : View) (f : ElemId) (p : ElemId × Argument) : ℕ :=
  ((v.handle gridT c p.1 p.2).elem f).readers.length - (v.elem f).readers.length

/-- The argument does to `w` what it does alone, to `v`. -/
structure Alone (gridT : BitVec 64) (c : TaskId) (v w : View) (e : ElemId) (a : Argument) :
    Prop where
  node : ∀ j ∈ a.blocks gridT, (w.handle gridT c e a).node j = (v.handle gridT c e a).node j
  frame : ∀ j, j ∉ a.blocks gridT → (w.handle gridT c e a).node j = w.node j
  own : (w.handle gridT c e a).elem e = (v.handle gridT c e a).elem e
  other : ∀ f ≠ e, (w.handle gridT c e a).elem f = (w.elem f).joined c (v.joins gridT c f (e, a))
  fresh : ∀ f ≠ e, (∀ j, v.node j ≠ some f) → v.joins gridT c f (e, a) = 0

theorem joins_eq (h : (v.handle gridT c e a).elem f = (v.elem f).joined c m) :
    v.joins gridT c f (e, a) = m := by
  rw [joins, h]
  simp

theorem alone_out (hs : a.isSafe = false) (hout : a.isOut = true) :
    Alone gridT c v w e a := by
  have helem : ∀ w : View, (w.handle gridT c e a).elem =
      Function.update w.elem e ⟨a.type, [], c, none⟩ := fun w => (handle_out hs hout).1
  have hnode : ∀ (w : View) j, (w.handle gridT c e a).node j =
      if j ∈ a.blocks gridT then some e else w.node j := fun w => (handle_out hs hout).2
  have hjoins : ∀ f ≠ e, v.joins gridT c f (e, a) = 0 := fun f hf =>
    joins_eq (by rw [helem, Function.update_of_ne hf]; rfl)
  refine ⟨fun j hj => ?_, fun j hj => ?_, ?_, fun f hf => ?_, fun f hf _ => hjoins f hf⟩
  · rw [hnode, hnode, if_pos hj, if_pos hj]
  · rw [hnode, if_neg hj]
  · rw [helem, helem, Function.update_self, Function.update_self]
  · rw [helem, Function.update_of_ne hf, hjoins f hf]
    rfl

/-- The visits by an IN argument whose blocks are as they were at `v`. -/
theorem alone_in (hw : Underway gridT edge c v w args) (hs : a.isSafe = false)
    (hout : a.isOut = false) (hnode : ∀ j ∈ a.blocks gridT, w.node j = v.node j)
    (hlast : ∀ o, v.Finds gridT a o → w.last ≠ some o ∧ v.last ≠ some o) :
    Alone gridT c v w e a := by
  have h : Same gridT c v w e a (w.handle gridT c e a) (v.handle gridT c e a) := by
    refine handle_induct₂ gridT w v e e (P := fun _ x y => Same gridT c v w e a x y) hs ?_
      (fun _ _ x y h => h.insertFront (.inl rfl)) fun _ j x y hj h => ?_
    · exact {
        node := hnode
        found := fun j _ f hf => .inr hf
        frame := fun j _ => rfl
        own := by rw [newElement_self, newElement_self]
        owner := by rw [newElement_self]
        other := fun f hf => ⟨0, newElement_of_ne hf, newElement_of_ne hf, fun h => absurd rfl h⟩
        last := .inr hlast }
    · rw [hout]
      exact h.visit hw hj
  refine ⟨h.node, h.frame, h.own, fun f hf => ?_, fun f hf hfresh => ?_⟩
  · obtain ⟨m, hx, hy, -⟩ := h.other f hf
    rw [joins_eq hy, hx]
  · obtain ⟨m, -, hy, hm⟩ := h.other f hf
    rw [joins_eq hy]
    by_contra hne
    obtain ⟨j, -, hj⟩ := hm hne
    exact hfresh j hj

/-! ## All arguments -/

/-- What the arguments `l` do alone to `v`, put together in `w`. -/
structure Merged (gridT : BitVec 64) (c : TaskId) (v w : View) (l : List (ElemId × Argument)) :
    Prop where
  inNode : ∀ p ∈ l, p.2.isOut = false → ∀ j ∈ p.2.blocks gridT,
    w.node j = (v.handle gridT c p.1 p.2).node j
  outNode : ∀ p ∈ l, p.2.isOut = true → ∀ j ∈ p.2.blocks gridT,
    ∃ q ∈ l, q.2.isOut = true ∧ w.node j = some q.1
  frame : ∀ j, (∀ p ∈ l, j ∉ p.2.blocks gridT) → w.node j = v.node j
  own : ∀ p ∈ l, w.elem p.1 = (v.handle gridT c p.1 p.2).elem p.1
  other : ∀ f, f ∉ l.map Prod.fst → w.elem f = (v.elem f).joined c (l.map (v.joins gridT c f)).sum

/-- **One argument more**, apart from those before. -/
theorem Merged.handle (h : Merged gridT c v w l) (hw : Underway gridT edge c v w (l.map Prod.snd))
    (hlast : v.last = none) (hap : ∀ q ∈ l, Apart gridT v p.2 q.2) (hs : p.2.isSafe = false)
    (hfresh : ∀ q ∈ l, Fresh v q.1) (hn : p.1 ∉ l.map Prod.fst) :
    Merged gridT c v (w.handle gridT c p.1 p.2) (l ++ [p]) := by
  have halone : Alone gridT c v w p.1 p.2 := by
    by_cases hout : p.2.isOut = true
    · exact alone_out hs hout
    · have hin : p.2.isOut = false := by simpa using hout
      refine alone_in hw hs hin (fun j hj => ?_) fun o ho => ⟨fun hl => ?_, by simp [hlast]⟩
      · exact h.frame j fun q hq hjq => (hap q hq).disjoint hin hj hjq
      · obtain ⟨b, hb, hsrc⟩ := hw.pushed o (hw.last o hl)
        obtain ⟨q, hq, rfl⟩ := List.mem_map.1 hb
        exact (hap q hq).not_source hin ho ⟨q.2, List.mem_singleton_self _, hsrc⟩
  have hother : ∀ q ∈ l, q.2.isOut = false ∨ p.2.isOut = false →
      ∀ j ∈ q.2.blocks gridT, j ∉ p.2.blocks gridT := by
    intro q hq hin j hj hjp
    rcases hin with hin | hin
    · exact (hap q hq).symm.disjoint hin hj hjp
    · exact (hap q hq).disjoint hin hjp hj
  refine ⟨fun q hq hin j hj => ?_, fun q hq hout j hj => ?_, fun j hj => ?_, fun q hq => ?_,
    fun f hf => ?_⟩
  · rcases List.mem_append.1 hq with hq | hq
    · rw [halone.frame j (hother q hq (.inl hin) j hj), h.inNode q hq hin j hj]
    · obtain rfl := List.mem_singleton.1 hq
      exact halone.node j hj
  · have hself : p.2.isOut = true → j ∈ p.2.blocks gridT →
        ∃ q ∈ l ++ [p], q.2.isOut = true ∧ (w.handle gridT c p.1 p.2).node j = some q.1 :=
      fun hout hj => ⟨p, List.mem_append_right _ (List.mem_singleton_self p), hout, by
        rw [(handle_out hs hout).2, if_pos hj]⟩
    rcases List.mem_append.1 hq with hq | hq
    · by_cases hjp : j ∈ p.2.blocks gridT
      · refine hself ?_ hjp
        by_contra hin
        exact hother q hq (.inr (by simpa using hin)) j hj hjp
      · obtain ⟨r, hr, hrout, hnode⟩ := h.outNode q hq hout j hj
        exact ⟨r, List.mem_append_left _ hr, hrout, by rw [halone.frame j hjp, hnode]⟩
    · obtain rfl := List.mem_singleton.1 hq
      exact hself hout hj
  · rw [halone.frame j (hj p (List.mem_append_right _ (List.mem_singleton_self p)))]
    exact h.frame j fun q hq => hj q (List.mem_append_left _ hq)
  · rcases List.mem_append.1 hq with hq | hq
    · have hne : q.1 ≠ p.1 := fun hqp => hn (hqp ▸ List.mem_map_of_mem hq)
      rw [halone.other _ hne, halone.fresh _ hne fun j hj => (hfresh q hq j _ hj).1 rfl, h.own q hq]
      rfl
    · obtain rfl := List.mem_singleton.1 hq
      exact halone.own
  · rw [List.map_append, List.mem_append, not_or] at hf
    have hne : f ≠ p.1 := fun hfp => hf.2 (by simp [hfp])
    rw [halone.other f hne, h.other f hf.1, List.map_append, List.sum_append]
    simp

/-- **The loop of `create_dependencies`**, when the arguments are pairwise apart. -/
theorem merged_process (hC : Clean edge c v) (hl : ∀ p ∈ l, Fresh v p.1 ∧ p.2.isSafe = false)
    (hn : (l.map Prod.fst).Nodup) (hap : l.Pairwise fun p q => Apart gridT v p.2 q.2) :
    Merged gridT c v (v.process gridT c l) l := by
  induction l using List.reverseRecOn with
  | nil =>
    exact ⟨by simp, by simp, fun j _ => rfl, by simp, fun f _ => by
      simp [process, MetadataElement.joined]⟩
  | append_singleton l p ih =>
    rw [List.map_append, List.nodup_append] at hn
    rw [List.pairwise_append] at hap
    have hl' : ∀ q ∈ l, Fresh v q.1 ∧ q.2.isSafe = false := fun q hq =>
      hl q (List.mem_append_left _ hq)
    have hp := hl p (List.mem_append_right _ (List.mem_singleton_self p))
    rw [process, List.foldl_append]
    exact (ih hl' hn.1 hap.1).handle (Underway.process hC (.start hC) hl' (List.Subset.refl _)).1
      hC.last (fun q hq => (hap.2.2 q hq p (List.mem_singleton_self p)).symm) hp.2
      (fun q hq => (hl' q hq).1) fun hmem => hn.2.2 _ hmem p.1 (by simp) rfl

/-! ## Another order -/

/-- The elements, in another order of the arguments. -/
theorem Merged.elem_eq (h : Merged gridT c v x l) (h' : Merged gridT c v y l')
    (hperm : l.Perm l') : x.elem = y.elem := by
  funext f
  by_cases hf : f ∈ l.map Prod.fst
  · obtain ⟨p, hp, rfl⟩ := List.mem_map.1 hf
    rw [h.own p hp, h'.own p (hperm.mem_iff.1 hp)]
  · rw [h.other f hf, h'.other f fun hf' => hf ((hperm.map Prod.fst).mem_iff.2 hf'),
      (hperm.map (v.joins gridT c f)).sum_eq]

/-- The lookup table, in another order of the arguments. -/
theorem Merged.node_eq (h : Merged gridT c v x l) (h' : Merged gridT c v y l')
    (hperm : l.Perm l') (j : ℕ) : x.node j = y.node j ∨ ∃ q ∈ l, ∃ q' ∈ l', q.2.isOut = true ∧
      q'.2.isOut = true ∧ x.node j = some q.1 ∧ y.node j = some q'.1 := by
  by_cases hj : ∃ p ∈ l, j ∈ p.2.blocks gridT
  · obtain ⟨p, hp, hjp⟩ := hj
    have hp' := hperm.mem_iff.1 hp
    cases hout : p.2.isOut with
    | true =>
      obtain ⟨q, hq, hqout, hnode⟩ := h.outNode p hp hout j hjp
      obtain ⟨q', hq', hqout', hnode'⟩ := h'.outNode p hp' hout j hjp
      exact .inr ⟨q, hq, q', hq', hqout, hqout', hnode, hnode'⟩
    | false => exact .inl ((h.inNode p hp hout j hjp).trans (h'.inNode p hp' hout j hjp).symm)
  · have hno : ∀ p ∈ l, j ∉ p.2.blocks gridT := fun p hp hjp => hj ⟨p, hp, hjp⟩
    rw [h.frame j hno, h'.frame j fun p hp => hno p (hperm.mem_iff.2 hp)]
    exact .inl rfl

/-- The elements below `n` that are the same, or belong to OUT arguments in `l`. -/
def Reordered (n : ElemId) (l : List (ElemId × Argument)) (f f' : ElemId) : Prop :=
  f < n ∧ f' < n ∧
    (f = f' ∨ (∃ q ∈ l, q.2.isOut = true ∧ f = q.1) ∧ ∃ q ∈ l, q.2.isOut = true ∧ f' = q.1)

/-- **Another order of the same elements.** -/
theorem alike_of_perm {n : ElemId} (h : Merged gridT c v x l) (h' : Merged gridT c v y l')
    (hperm : l.Perm l') (hs : ∀ p ∈ l, p.2.isSafe = false) (hl : ∀ p ∈ l, p.1 < n)
    (hnode : ∀ j f, x.node j = some f → f < n)
    (hdep : ∀ f d, f < n → (x.elem f).dependentMetadata = some d → d < n) :
    Alike (Reordered n l) x y := by
  have helem := h.elem_eq h' hperm
  have hq : ∀ q ∈ l, q.2.isOut = true → x.elem q.1 = ⟨q.2.type, [], c, none⟩ := fun q hq hout => by
    rw [h.own q hq, (handle_out (hs q hq) hout).1, Function.update_self]
  have hin : ∀ f f', Reordered n l f f' → x.IsOut f = false → f = f' := by
    rintro f f' ⟨-, -, rfl | ⟨⟨q, hql, hout, rfl⟩, -⟩⟩ htype
    · rfl
    · rw [View.IsOut, hq q hql hout] at htype
      exact absurd hout (by simp [Argument.isOut, htype])
  have hrefl : ∀ o : Option ElemId, (∀ f, o = some f → f < n) → Option.Rel (Reordered n l) o o := by
    rintro (_ | f) ho
    · exact .none
    · exact .some ⟨ho f rfl, ho f rfl, .inl rfl⟩
  refine ⟨fun j => ?_, ?_, ?_, fun f f' hR hf => ?_, fun f f' hR hf => ?_,
    fun f f' g g' hR hR' hf hg => ?_⟩
  · rcases h.node_eq h' hperm j with heq | ⟨q, hql, q', hq', hout, hout', hx, hy⟩
    · rw [← heq]
      exact hrefl _ (hnode j)
    · rw [hx, hy]
      have hql' := hperm.mem_iff.2 hq'
      exact .some ⟨hl q hql, hl q' hql', .inr ⟨⟨q, hql, hout, rfl⟩, q', hql', hout', rfl⟩⟩
  · rintro f f' ⟨-, -, rfl | ⟨⟨q, hql, hout, rfl⟩, q', hql', hout', rfl⟩⟩
    · rw [View.IsOut, View.IsOut, helem]
    · rw [View.IsOut, View.IsOut, ← helem, hq q hql hout, hq q' hql' hout']
      exact hout.trans hout'.symm
  · rintro f f' ⟨-, -, rfl | ⟨⟨q, hql, hout, rfl⟩, q', hql', hout', rfl⟩⟩
    · rw [helem]
    · rw [← helem, hq q hql hout, hq q' hql' hout']
  · rw [hin f f' hR hf, helem]
  · rw [← hin f f' hR hf, ← helem]
    exact hrefl _ fun d hd => hdep f d hR.1 hd
  · rw [hin f f' hR hf, hin g g' hR' hg]

/-! ## The elements of the arguments -/

theorem mem_named {n : ElemId} (hp : p ∈ named n args) :
    n ≤ p.1 ∧ p.1 < n + (named n args).length ∧ p.2 ∈ args ∧ p.2.isSafe = false := by
  induction args generalizing n with
  | nil => cases hp
  | cons a args ih =>
    rw [named] at hp ⊢
    split at hp
    · obtain ⟨hle, hlt, hmem, hs⟩ := ih hp
      rename_i hsafe
      rw [if_pos hsafe]
      exact ⟨hle, hlt, List.mem_cons_of_mem _ hmem, hs⟩
    · rename_i hsafe
      rw [if_neg hsafe, List.length_cons]
      rcases List.mem_cons.1 hp with rfl | hp
      · exact ⟨Nat.le_refl _, Nat.lt_add_of_pos_right (Nat.succ_pos _), List.mem_cons_self,
          by simpa using hsafe⟩
      · obtain ⟨hle, hlt, hmem, hs⟩ := ih hp
        rw [Nat.add_right_comm] at hlt
        exact ⟨Nat.le_of_succ_le hle, hlt, List.mem_cons_of_mem _ hmem, hs⟩

theorem named_nodup (n : ElemId) (args : List Argument) : ((named n args).map Prod.fst).Nodup := by
  induction args generalizing n with
  | nil => exact List.nodup_nil
  | cons a args ih =>
    rw [named]
    split
    · exact ih n
    · rw [List.map_cons, List.nodup_cons]
      refine ⟨fun hmem => ?_, ih (n + 1)⟩
      obtain ⟨p, hp, rfl⟩ := List.mem_map.1 hmem
      exact absurd (mem_named hp).1 (Nat.not_succ_le_self _)

theorem named_map_snd (n : ElemId) (args : List Argument) :
    (named n args).map Prod.snd = args.filter fun a => !a.isSafe := by
  induction args generalizing n with
  | nil => rfl
  | cons a args ih =>
    rw [named]
    split
    · rename_i hs
      rw [ih, List.filter_cons_of_neg (by simp [hs])]
    · rename_i hs
      rw [List.map_cons, ih, List.filter_cons_of_pos (by simpa using hs)]

theorem named_pairwise {n : ElemId} (h : args.Pairwise (Apart gridT v)) :
    (named n args).Pairwise fun p q => Apart gridT v p.2 q.2 := by
  rw [← List.pairwise_map, named_map_snd]
  exact h.filter _

variable {n : ElemId} {args' : List Argument}

/-- The data below `n` name elements below `n` only. -/
structure Bounded (v : View) (n : ElemId) : Prop where
  node : ∀ j f, v.node j = some f → f < n
  dependent : ∀ f d, f < n → (v.elem f).dependentMetadata = some d → d < n

theorem Bounded.fresh (h : Bounded v n) (he : n ≤ e) : Fresh v e := fun j f hf =>
  have hlt := h.node j f hf
  ⟨Nat.ne_of_lt (Nat.lt_of_lt_of_le hlt he), fun hd =>
    absurd (h.dependent f e hlt hd) (Nat.not_lt.2 he)⟩

/-- Data as they are, with the elements below `n`. -/
theorem Bounded.lockstep (h : Bounded v n) : Lockstep (fun f f' => f = f' ∧ f < n) v v := by
  have hrefl : ∀ o : Option ElemId, (∀ f, o = some f → f < n) →
      Option.Rel (fun f f' => f = f' ∧ f < n) o o := by
    rintro (_ | f) ho
    · exact .none
    · exact .some ⟨rfl, ho f rfl⟩
  refine ⟨⟨fun j => hrefl _ (h.node j), ?_, ?_, ?_, ?_, ?_⟩, rfl, rfl⟩
  · rintro f _ ⟨rfl, -⟩
    rfl
  · rintro f _ ⟨rfl, -⟩
    rfl
  · rintro f _ ⟨rfl, -⟩ -
    rfl
  · rintro f _ ⟨rfl, hf⟩ -
    exact hrefl _ fun d hd => h.dependent f d hf hd
  · rintro f _ g _ ⟨rfl, -⟩ ⟨rfl, -⟩ - -
    rfl

/-- **The order of the arguments does not matter**, if they are pairwise apart: the
elements come out alike. -/
theorem alike_handleAll (hC : Clean edge c v) (hb : Bounded v n) (hperm : args.Perm args')
    (hap : args.Pairwise (Apart gridT v))
    (hb' : Bounded (handleAll gridT c (v, n) args).1 (handleAll gridT c (v, n) args).2) :
    ∃ S, Alike S (handleAll gridT c (v, n) args).1 (handleAll gridT c (v, n) args').1 ∧
      ∀ f f', S f f' → f < (handleAll gridT c (v, n) args).2 ∧
        f' < (handleAll gridT c (v, n) args').2 := by
  rw [handleAll_eq] at hb'
  rw [handleAll_eq, handleAll_eq]
  have hsnd : ((named n args').map Prod.snd).Perm ((named n args).map Prod.snd) := by
    rw [named_map_snd, named_map_snd]
    exact (hperm.filter _).symm
  -- the arguments in the second order, with the elements of the first run
  obtain ⟨l, hargs, hl⟩ := List.perm_comp_forall₂ hsnd
    (List.forall₂_map_left_iff.2 (List.forall₂_same.2 fun (p : ElemId × Argument) _ => rfl) :
      List.Forall₂ (fun a (p : ElemId × Argument) => a = p.2) _ (named n args))
  have hargs' : List.Forall₂ (fun (p q : ElemId × Argument) => p.2 = q.2) l (named n args') :=
    ((List.forall₂_map_left_iff.1 hargs).imp fun _ _ h => h.symm).flip
  have hnamed : ∀ p ∈ named n args, Fresh v p.1 ∧ p.2.isSafe = false := fun p hp =>
    ⟨hb.fresh (mem_named hp).1, (mem_named hp).2.2.2⟩
  have hfst : (l.map Prod.fst).Nodup := (hl.map Prod.fst).nodup_iff.2 (named_nodup n args)
  have hm := merged_process hC hnamed (named_nodup n args) (named_pairwise hap)
  have hm' : Merged gridT c v (v.process gridT c l) l :=
    merged_process hC (fun p hp => hnamed p (hl.mem_iff.1 hp)) hfst
      ((hl.pairwise_iff fun h => Apart.symm h).2 (named_pairwise hap))
  have hreorder := alike_of_perm hm hm' hl.symm (fun p hp => (hnamed p hp).2)
    (fun p hp => (mem_named hp).2.1) hb'.node hb'.dependent
  obtain ⟨S, hS, hlt⟩ := hb.lockstep.process gridT c hargs'
    (fun p hp => (hnamed p (hl.mem_iff.1 hp)).2) hfst (named_nodup n args') (by
      rintro f _ ⟨rfl, hf⟩
      have hnot : ∀ args, f ∉ (named n args).map Prod.fst := fun args hmem => by
        obtain ⟨p, hp, rfl⟩ := List.mem_map.1 hmem
        exact absurd (mem_named hp).1 (Nat.not_le.2 hf)
      exact ⟨fun hmem => hnot args ((hl.map Prod.fst).mem_iff.1 hmem), hnot args'⟩)
  refine ⟨_, hreorder.trans hS.toAlike, ?_⟩
  rintro f f' ⟨g, hg, hg'⟩
  refine ⟨hg.1, ?_⟩
  rcases hlt g f' hg' with ⟨rfl, hlt⟩ | ⟨-, hmem⟩
  · exact Nat.lt_of_lt_of_le hlt (Nat.le_add_right _ _)
  · obtain ⟨p, hp, rfl⟩ := List.mem_map.1 hmem
    exact (mem_named hp).2.1

end View

end Partee
