import Partee.Runtime.Coverage
import Partee.Runtime.Separate
import Partee.Runtime.Spawn

/-!
# The data that a new task finds

What the analysis of a task may rely on when it begins: the elements name older tasks
only, a list of readers starts with its owner, and the owner has been pushed on the
stack of the task that its `dependent_metadata` names.

* `DependentsPushed`: the invariant about `dependent_metadata`.
* `clean_view`, `bounded_view`: the data before the analysis of the next task.
-/

namespace Partee

open Transition

variable {ω : Type*} {gridT : BitVec 64} {s s' : State ω} {t c p x : TaskId} {e d : ElemId}
  {k : Walk} {pc pc' : CallPc}

/-- The owner of an element has been pushed on the owner of its
`dependent_metadata`. -/
def DependentsPushed (s : State ω) : Prop :=
  ∀ e d, (s.dep.elem e).dependentMetadata = some d → e < s.dep.nextElem ∧ d < s.dep.nextElem ∧
    ((s.dep.elem e).owner, (s.dep.elem d).owner) ∈ s.rt.hist.pushes

/-- The stores to `dependent_metadata` by `tpc_call(c)`. -/
def StoresDependent (s s' : State ω) (c : TaskId) : Prop :=
  ∀ e d, (s'.dep.elem e).dependentMetadata = some d →
    (s.dep.elem e).dependentMetadata = some d ∨ e < s.dep.nextElem ∧ d < s.dep.nextElem ∧
      (s.dep.elem e).owner = c ∧ (c, (s.dep.elem d).owner) ∈ s'.rt.hist.pushes

theorem StoresDependent.of_elem
    (h : ∀ e, (s'.dep.elem e).dependentMetadata = (s.dep.elem e).dependentMetadata) :
    StoresDependent s s' c := fun e _ hd => .inl ((h e).symm.trans hd)

theorem DependentsPushed.step (h : DependentsPushed s) (hx : Extends s s')
    (hs : StoresDependent s s' c) : DependentsPushed s' := by
  intro e d hd
  rcases hs e d hd with hold | ⟨he, hdlt, howner, hpush⟩
  · obtain ⟨he, hdlt, hpush⟩ := h e d hold
    rw [hx.owner e he, hx.owner d hdlt]
    exact ⟨he.trans_le hx.nextElem, hdlt.trans_le hx.nextElem, hx.grows.pushes hpush⟩
  · rw [hx.owner e he, hx.owner d hdlt, howner]
    exact ⟨he.trans_le hx.nextElem, hdlt.trans_le hx.nextElem, hpush⟩

theorem storesDependent_createDependency {j : ℕ} :
    StoresDependent s { s with dep := (createDependency s.dep c t k j).2 } c := by
  refine .of_elem fun e => ?_
  unfold createDependency
  split
  · split
    · rfl
    · split <;> rfl
  · split
    · rfl
    · split <;> rfl

theorem storesDependent_createDependencies :
    StoresDependent s { s with dep := (createDependencies gridT s.dep c t k).2 } c := by
  unfold createDependencies
  split
  · exact storesDependent_createDependency
  · refine .of_elem fun e => ?_
    split
    · rfl
    · exact Analysis.insertFront_dependent ..
  · split
    · exact .of_elem fun e => rfl
    · rename_i a args _ _ _ _
      intro e d hd
      rcases eq_or_ne e s.dep.nextElem with rfl | hne
      · simp at hd
      · simp only [Analysis.newElement_elem, Function.update_of_ne hne] at hd
        exact .inl hd
  · split <;> exact .of_elem fun e => rfl

theorem storesDependent_notifyOwner {raw : Bool} (hok : CallOk s t c (.push k e raw)) :
    StoresDependent s (notifyOwner s c k e raw).2 c := by
  obtain ⟨hv, he⟩ := hok
  unfold notifyOwner
  dsimp only
  split
  · exact .of_elem fun e => rfl
  · split
    · exact .of_elem fun e => rfl
    · rename_i r hr
      obtain ⟨l, -, rfl⟩ := stackPush_eq_some.1 hr
      intro i d hd
      cases raw with
      | false => exact .inl hd
      | true =>
        simp only [if_true, Analysis.setDependent_dependent] at hd
        split at hd
        · rename_i hi
          cases hd
          subst hi
          exact .inr ⟨hv.elemOf.allocated, he.allocated, hv.owner, List.mem_cons_self⟩
        · exact .inl hd

theorem storesDependent_tpcCall (hp : (s.rt.task c).parent = some t) (hok : CallOk s t c pc)
    (h : tpcCall gridT s c pc = some (pc', s')) : StoresDependent s s' c := by
  cases pc with
  | incr =>
    rw [tpcCall, hp] at h
    cases h
    exact .of_elem fun e => rfl
  | creating =>
    cases h
    exact .of_elem fun e => rfl
  | walk k =>
    rw [tpcCall, hp] at h
    cases h
    exact storesDependent_createDependencies
  | push k e raw =>
    have hs := storesDependent_notifyOwner hok
    rw [Option.some.inj h] at hs
    exact hs
  | readers k rest =>
    have hs : StoresDependent s (notifyReaders s c k rest).2 c := by
      refine .of_elem fun e => ?_
      unfold notifyReaders
      split
      · rfl
      · split
        · split <;> rfl
        · rfl
    rw [Option.some.inj h] at hs
    exact hs
  | ownerStatus k e j =>
    rw [tpcCall, hp, Option.map_some, Option.some.injEq] at h
    have hs : StoresDependent s (readAfterRead s c t k e j).2 c := by
      refine .of_elem fun i => ?_
      unfold readAfterRead
      dsimp only
      split
      · split
        · exact Analysis.insertFront_dependent ..
        · split <;> exact Analysis.insertFront_dependent ..
      · rfl
    rw [h] at hs
    exact hs
  | pushDependent k d =>
    have hs : StoresDependent s (notifyDependent s c k d).2 c := by
      refine .of_elem fun i => ?_
      unfold notifyDependent
      dsimp only
      split <;> rfl
    rw [Option.some.inj h] at hs
    exact hs
  | storeWaitfor n =>
    cases h
    exact .of_elem fun e => rfl
  | storeCreated n => cases h

/-! ## Every reachable state -/

variable [Fintype ω] [DecidableEq ω] {w main : ω} {f : Frame} {gs fs : List Frame} {ch : Choice ω}

theorem DependentsPushed.act (hS : Sound s) (h : DependentsPushed s)
    (hst : s.rt.stack w = f :: fs) (hact : Partee.act gridT s w f ch = some (gs, s')) :
    DependentsPushed { s' with rt := s'.rt.setStack w (gs ++ fs) } := by
  have hx : Extends s s' := hS.extends hst hact
  have hs' : DependentsPushed s' := by
    rcases dep_of_act hact with ⟨hdep, -⟩ | ⟨t, tmp, -, -, hdep⟩ |
      ⟨t, tmp, c, pc, pc', rfl, -, hcall⟩
    · exact h.step (c := mainTask) hx (.of_elem fun e => by rw [hdep])
    · exact h.step (c := mainTask) hx (.of_elem fun e => by rw [hdep]; rfl)
    · have hmem : Frame.execute t tmp (.call c pc) ∈ s.rt.stack w := hst ▸ List.mem_cons_self
      exact h.step hx (storesDependent_tpcCall (hS.family.frames w _ hmem).2
        (hS.elements.calls w t tmp c pc hmem) hcall)
  exact hs'

theorem dependentsPushed_of_reachable (h : Reachable gridT main s) : DependentsPushed s := by
  refine h.invariant_of (I := DependentsPushed) (fun s hr => Sound.of_reachable hr)
    (fun e d hd => by cases hd) ?_
  rintro s m s' hS hI - hs
  obtain ⟨f, fs, gs, s₁, hst, hact, rfl⟩ := act_of_step hs
  exact hI.act hS hst hact

theorem visited_of_reachable (h : Reachable gridT main s) : Visited s := by
  refine Covered.visited (a := true) (b := true) (h.invariant_of
    (I := fun s => Covered s true true) (fun s hr => Sound.of_reachable hr) (.init main) ?_)
  rintro s m s' hS hI - hs
  obtain ⟨f, fs, gs, s₁, hst, hact, rfl⟩ := act_of_step hs
  exact hI.act hS (.inl rfl) hst hact (fun h => nomatch h) fun h => nomatch h

omit [DecidableEq ω] in
theorem Sound.kin_ne_next (hS : Sound s) (h : Kin s.rt p x) : x ≠ s.rt.next :=
  Nat.ne_of_lt (hS.family.parent_of_eq hS.tokens h.parent).2.1

/-- **The data before the analysis of the next task.** -/
theorem clean_view (h : Reachable gridT main s) :
    View.Clean (fun a b => (a, b) ∈ s.rt.hist.pushes) s.rt.next (s.dep.view p s.rt.next []) := by
  have hS := Sound.of_reachable h
  have hV := visited_of_reachable h
  have hD := dependentsPushed_of_reachable h
  refine ⟨fun j f hf => ?_, fun j f hf hmem => ?_, fun j f hf htype => ?_, fun j f x hf hx => ?_,
    hS.depsLast_next, rfl⟩
  · exact hS.kin_ne_next (hS.elements.table p j f hf).owner
  · exact hS.kin_ne_next ((hS.elements.table p j f hf).readers _ hmem) rfl
  · exact hV.reader p j f hf htype
  · obtain ⟨d, hd, rfl⟩ := Option.map_eq_some_iff.1 hx
    exact (hD f d hd).2.2

theorem bounded_view (h : Reachable gridT main s) :
    View.Bounded (s.dep.view p c []) s.dep.nextElem where
  node j f hf := ((Sound.of_reachable h).elements.table p j f hf).allocated
  dependent f d _ hd := (dependentsPushed_of_reachable h f d hd).2.1

end Partee
