import Partee.Runtime.Balance

/-!
# Whose element is whose

The dependence analysis of one parent works on metadata elements that name
children of this parent only, and the thread that runs the parent is the only one
that touches them.  `Elements` states this for the lookup tables, for `deps_last`,
and for the local variables of every call of `tpc_call` in progress.  It is what
makes every push go to an earlier sibling.

* `Kin`: a child that has been through the increment of `tpc_call`.
* `ElemOf`: a metadata element that belongs to the children of `p`.
* `Extends`: how the data of the analysis may change.
* `Elements`: the invariant.
-/

namespace Partee

open Transition

variable {ω : Type*}

/-- `x` is a child of `p` and has been through the increment of `tpc_call`. -/
structure Kin (r : Runtime ω) (p x : TaskId) : Prop where
  parent : (r.task x).parent = some p
  counted : r.hist.counted x = true

theorem Kin.mono {r r' : Runtime ω} {p x : TaskId} (hg : Grows r r') (h : Kin r p x) :
    Kin r' p x :=
  ⟨hg.parent x p h.parent, hg.counted x h.counted⟩

theorem Kin.unique {r : Runtime ω} {p q x : TaskId} (h : Kin r p x) (h' : Kin r q x) : p = q :=
  Option.some.inj (h.parent.symm.trans h'.parent)

/-- The element `e` belongs to the children of `p`. -/
structure ElemOf (s : State ω) (p : TaskId) (e : ElemId) : Prop where
  allocated : e < s.dep.nextElem
  owner : Kin s.rt p (s.dep.elem e).owner
  readers : ∀ x ∈ (s.dep.elem e).readers, Kin s.rt p x
  dependent : ∀ d, (s.dep.elem e).dependentMetadata = some d →
    d < s.dep.nextElem ∧ (s.dep.elem d).owner < (s.dep.elem e).owner ∧
      Kin s.rt p (s.dep.elem d).owner

/-- How the data of the analysis may change: an element that exists keeps its type
and its owner, and gains only relatives of its owner. -/
structure Extends (s s' : State ω) : Prop where
  grows : Grows s.rt s'.rt
  nextElem : s.dep.nextElem ≤ s'.dep.nextElem
  type : ∀ e < s.dep.nextElem, (s'.dep.elem e).type = (s.dep.elem e).type
  owner : ∀ e < s.dep.nextElem, (s'.dep.elem e).owner = (s.dep.elem e).owner
  readers : ∀ e < s.dep.nextElem, (s.dep.elem e).readers ⊆ (s'.dep.elem e).readers
  newReader : ∀ e < s.dep.nextElem, ∀ x ∈ (s'.dep.elem e).readers, x ∈ (s.dep.elem e).readers ∨
    ∃ p, Kin s'.rt p (s'.dep.elem e).owner ∧ Kin s'.rt p x
  newDependent : ∀ e < s.dep.nextElem, ∀ d, (s'.dep.elem e).dependentMetadata = some d →
    (s.dep.elem e).dependentMetadata = some d ∨
      (d < s'.dep.nextElem ∧ (s'.dep.elem d).owner < (s'.dep.elem e).owner ∧
        ∃ p, Kin s'.rt p (s'.dep.elem e).owner ∧ Kin s'.rt p (s'.dep.elem d).owner)
  visits : s.dep.visits ⊆ s'.dep.visits

variable {s s' s'' : State ω} {p t c : TaskId} {e d : ElemId} {k : Walk}

/-- A step that leaves the elements alone. -/
theorem Extends.of_elem (hg : Grows s.rt s'.rt) (hnext : s'.dep.nextElem = s.dep.nextElem)
    (helem : s'.dep.elem = s.dep.elem) (hvisits : s.dep.visits ⊆ s'.dep.visits) :
    Extends s s' where
  grows := hg
  nextElem := hnext.ge
  type e _ := by rw [helem]
  owner e _ := by rw [helem]
  readers e _ := by rw [helem]; exact List.Subset.refl _
  newReader e _ x hx := .inl (by rwa [helem] at hx)
  newDependent e _ d hd := .inl (by rwa [helem] at hd)
  visits := hvisits

theorem Extends.of_dep (hg : Grows s.rt s'.rt) (hdep : s'.dep = s.dep) : Extends s s' :=
  .of_elem hg (by rw [hdep]) (by rw [hdep]) (by rw [hdep]; exact List.Subset.refl _)

theorem Extends.trans (h : Extends s s') (h' : Extends s' s'') : Extends s s'' where
  grows := h.grows.trans h'.grows
  nextElem := h.nextElem.trans h'.nextElem
  type e he := (h'.type e (he.trans_le h.nextElem)).trans (h.type e he)
  owner e he := (h'.owner e (he.trans_le h.nextElem)).trans (h.owner e he)
  readers e he := List.Subset.trans (h.readers e he) (h'.readers e (he.trans_le h.nextElem))
  newReader e he x hx := by
    have he' := he.trans_le h.nextElem
    rcases h'.newReader e he' x hx with hold | hnew
    · refine (h.newReader e he x hold).imp_right fun ⟨p, hp, hkin⟩ => ⟨p, ?_, hkin.mono h'.grows⟩
      rw [h'.owner e he']
      exact hp.mono h'.grows
    · exact .inr hnew
  newDependent e he d hd := by
    have he' := he.trans_le h.nextElem
    rcases h'.newDependent e he' d hd with hold | hnew
    · refine (h.newDependent e he d hold).imp_right fun ⟨hlt, hown, p, hp, hkin⟩ => ?_
      rw [h'.owner e he', h'.owner d hlt]
      exact ⟨hlt.trans_le h'.nextElem, hown, p, hp.mono h'.grows, hkin.mono h'.grows⟩
    · exact .inr hnew
  visits := List.Subset.trans h.visits h'.visits

theorem ElemOf.mono (hx : Extends s s') (h : ElemOf s p e) : ElemOf s' p e := by
  have howner : Kin s'.rt p (s'.dep.elem e).owner := by
    rw [hx.owner e h.allocated]
    exact h.owner.mono hx.grows
  refine ⟨h.allocated.trans_le hx.nextElem, howner, fun x hmem => ?_, fun d hd => ?_⟩
  · rcases hx.newReader e h.allocated x hmem with hold | ⟨q, hq, hnew⟩
    · exact (h.readers x hold).mono hx.grows
    · rwa [howner.unique hq]
  · rcases hx.newDependent e h.allocated d hd with hold | ⟨hlt, hown, q, hq, hnew⟩
    · obtain ⟨hlt, hown, hkin⟩ := h.dependent d hold
      rw [hx.owner e h.allocated, hx.owner d hlt]
      exact ⟨hlt.trans_le hx.nextElem, hown, hkin.mono hx.grows⟩
    · exact ⟨hlt, hown, by rwa [howner.unique hq]⟩

/-! ## The calls in progress -/

/-- The element of the current argument of `tpc_call(c)`. -/
structure Current (s : State ω) (t c : TaskId) (k : Walk) : Prop where
  elemOf : ElemOf s t k.elem
  owner : (s.dep.elem k.elem).owner = c
  type : isOutType (s.dep.elem k.elem).type = k.out

/-- The current argument is being matched with the blocks of its range. -/
structure Visiting (s : State ω) (t c : TaskId) (k : Walk) : Prop extends Current s t c k where
  reader : k.out = false → c ∈ (s.dep.elem k.elem).readers

/-- The local variables of `tpc_call(c)`, called by `t`. -/
def CallOk (s : State ω) (t c : TaskId) : CallPc → Prop
  | .walk k => (k.pieces ≠ [] → Current s t c k) ∧ (k.blocks ≠ [] → Visiting s t c k)
  | .push k e _ => Visiting s t c k ∧ ElemOf s t e
  | .readers k rest => Visiting s t c k ∧ ∀ x ∈ rest, Kin s.rt t x
  | .ownerStatus k e j => Visiting s t c k ∧ ElemOf s t e ∧ k.out = false ∧
      isOutType (s.dep.elem e).type = false ∧ s.dep.metadata t j = some e
  | .pushDependent k d => Visiting s t c k ∧ d < s.dep.nextElem ∧
      (s.dep.elem d).owner < c ∧ Kin s.rt t (s.dep.elem d).owner
  | _ => True

/-- **The data of the analysis stay within the family.** -/
structure Elements (s : State ω) : Prop where
  table : ∀ p j e, s.dep.metadata p j = some e → ElemOf s p e
  depsLast : ∀ c o, s.dep.depsLast c = some o → (c, o) ∈ s.rt.hist.pushes
  calls : ∀ w t tmp c pc, Frame.execute t tmp (.call c pc) ∈ s.rt.stack w → CallOk s t c pc

theorem Current.mono (hx : Extends s s') (h : Current s t c k) : Current s' t c k where
  elemOf := h.elemOf.mono hx
  owner := (hx.owner _ h.elemOf.allocated).trans h.owner
  type := by rw [hx.type _ h.elemOf.allocated, h.type]

theorem Current.walk {k' : Walk} (h : Current s t c k) (helem : k'.elem = k.elem)
    (hout : k'.out = k.out) : Current s t c k' :=
  ⟨helem ▸ h.elemOf, helem ▸ h.owner, by rw [helem, hout, h.type]⟩

theorem Visiting.mono (hx : Extends s s') (h : Visiting s t c k) : Visiting s' t c k where
  toCurrent := h.toCurrent.mono hx
  reader hout := hx.readers _ h.elemOf.allocated (h.reader hout)

theorem CallOk.mono {pc : CallPc} (hx : Extends s s')
    (hm : ∀ k e j, pc = .ownerStatus k e j → s'.dep.metadata t = s.dep.metadata t)
    (h : CallOk s t c pc) : CallOk s' t c pc := by
  cases pc with
  | walk k => exact ⟨fun hp => (h.1 hp).mono hx, fun hb => (h.2 hb).mono hx⟩
  | push k e raw => exact ⟨h.1.mono hx, h.2.mono hx⟩
  | readers k rest => exact ⟨h.1.mono hx, fun x hmem => (h.2 x hmem).mono hx.grows⟩
  | ownerStatus k e j =>
    obtain ⟨hv, he, hout, htype, hnode⟩ := h
    exact ⟨hv.mono hx, he.mono hx, hout, by rw [hx.type e he.allocated, htype],
      by rw [hm k e j rfl, hnode]⟩
  | pushDependent k d =>
    obtain ⟨hv, hd, hlt, hkin⟩ := h
    exact ⟨hv.mono hx, hd.trans_le hx.nextElem, by rwa [hx.owner d hd],
      by rw [hx.owner d hd]; exact hkin.mono hx.grows⟩
  | _ => trivial

/-- A walk with another position, in the same argument. -/
theorem Visiting.walk {k' : Walk} (h : Visiting s t c k) (helem : k'.elem = k.elem)
    (hout : k'.out = k.out) : CallOk s t c (.walk k') := by
  have h' : Visiting s t c k' :=
    ⟨h.toCurrent.walk helem hout, fun hf => by rw [helem]; exact h.reader (hout ▸ hf)⟩
  exact ⟨fun _ => h'.toCurrent, fun _ => h'⟩

/-! ## The steps of `tpc_call` -/

theorem Grows.pushed {r : Runtime ω} {t s : TaskId} {l : List TaskId} :
    Grows r (r.pushed t s l) := by
  constructor <;> simp [Function.update_apply] <;> grind

/-- What the thread that is inside `tpc_call(c)` knows about `c`. -/
structure Caller (r : Runtime ω) (t c : TaskId) : Prop where
  kin : Kin r t c
  latest : ∀ x, (r.task x).parent = some t → x ≤ c

theorem Caller.sibling {r : Runtime ω} {x : TaskId} (h : Caller r t c) (hx : Kin r t x) :
    x = c ∨ Sibling r c x := by
  rcases (h.latest x hx.parent).eq_or_lt with rfl | hlt
  · exact .inl rfl
  · exact .inr ⟨hlt, hx.parent.trans h.kin.parent.symm, hx.counted⟩

theorem CallOk.pushesBack {tmp : Option TaskId} {pc : CallPc} (hp : (s.rt.task c).parent = some t)
    (hcall : pc.walking → Caller s.rt t c) (h : CallOk s t c pc) :
    PushesBack s (.execute t tmp (.call c pc)) := by
  refine ⟨⟨t, hp⟩, fun x hx => ?_⟩
  cases pc with
  | push k e raw =>
    cases hx
    exact ((hcall rfl).sibling h.2.owner).imp (fun hc => ⟨hc, by simp⟩) id
  | readers k rest =>
    cases rest with
    | nil => cases hx
    | cons y rest =>
      cases hx
      exact ((hcall rfl).sibling (h.2 x List.mem_cons_self)).imp (fun hc => ⟨hc, by simp⟩) id
  | pushDependent k d =>
    cases hx
    obtain ⟨-, -, hlt, hkin⟩ := h
    exact .inr (((hcall rfl).sibling hkin).resolve_left hlt.ne)
  | _ => cases hx

/-- What one step of the analysis of `tpc_call(c)`, called by `t`, keeps. -/
structure CallStep (s s' : State ω) (t c : TaskId) (pc' : CallPc) : Prop where
  ext : Extends s s'
  call : CallOk s' t c pc'
  table : ∀ j e, s'.dep.metadata t j = some e → s.dep.metadata t j = some e ∨ ElemOf s t e
  other : ∀ p ≠ t, s'.dep.metadata p = s.dep.metadata p
  depsLast : ∀ x o, s'.dep.depsLast x = some o →
    s.dep.depsLast x = some o ∨ (x, o) ∈ s'.rt.hist.pushes

/-- A step that leaves the data of the analysis alone. -/
theorem CallStep.of_dep {pc' : CallPc} (hg : Grows s.rt s'.rt) (hdep : s'.dep = s.dep)
    (hcall : CallOk s t c pc') : CallStep s s' t c pc' where
  ext := .of_dep hg hdep
  call := hcall.mono (.of_dep hg hdep) fun _ _ _ _ => by rw [hdep]
  table j e he := .inl (by rwa [hdep] at he)
  other p _ := by rw [hdep]
  depsLast x o ho := .inl (by rwa [hdep] at ho)

/-- `set_node` to the element of the current argument. -/
theorem callStep_setNode {j : ℕ} {out : Bool} {pc' : CallPc} (hv : Visiting s t c k)
    (hcall : CallOk s t c pc') (hpc' : ∀ k e j, pc' ≠ .ownerStatus k e j) :
    CallStep s { s with dep := (s.dep.setNode t j k.elem).visit c out j } t c pc' := by
  have hext : Extends s { s with dep := (s.dep.setNode t j k.elem).visit c out j } :=
    .of_elem (.refl _) rfl rfl (List.subset_cons_self _ _)
  refine ⟨hext, hcall.mono hext fun k e j hpc => absurd hpc (hpc' k e j), fun i e he => ?_,
    fun p hp => ?_, fun x o ho => .inl ho⟩
  · simp only [Analysis.visit_metadata, Analysis.setNode_metadata, Function.update_self] at he
    rcases eq_or_ne i j with rfl | hij
    · rw [Function.update_self] at he
      cases he
      exact .inr hv.elemOf
    · rw [Function.update_of_ne hij] at he
      exact .inl he
  · exact Function.update_of_ne hp _ _

/-- `insert_front` of `c` into the readers of an element of its family. -/
theorem Extends.insertFront (hc : Kin s.rt t c) (he : ElemOf s t e) :
    Extends s { s with dep := s.dep.insertFront c e } where
  grows := .refl _
  nextElem := le_rfl
  type i _ := by simp
  owner i _ := by simp
  readers i _ := by
    simp only [Analysis.insertFront_readers]
    split
    · exact List.subset_cons_self _ _
    · exact List.Subset.refl _
  newReader i _ x hx := by
    simp only [Analysis.insertFront_readers] at hx
    split at hx
    · rename_i hie
      rcases List.mem_cons.1 hx with rfl | hold
      · exact .inr ⟨t, by simpa [hie] using he.owner, hc⟩
      · exact .inl hold
    · exact .inl hx
  newDependent i _ d hd := .inl (by simpa using hd)
  visits := List.Subset.refl _

/-- The store to `dependent_metadata` of the element of the current argument. -/
theorem Extends.setDependent (hcur : Current s t c k) (he : ElemOf s t e)
    (hlt : (s.dep.elem e).owner < c) :
    Extends s { s with dep := s.dep.setDependent k.elem e } where
  grows := .refl _
  nextElem := le_rfl
  type i _ := by simp
  owner i _ := by simp
  readers i _ := by simp
  newReader i _ x hx := .inl (by simpa using hx)
  newDependent i _ d hd := by
    simp only [Analysis.setDependent_dependent] at hd
    split at hd
    · rename_i hie
      cases hd
      simp only [Analysis.setDependent_owner, hie, hcur.owner]
      exact .inr ⟨he.allocated, hlt, t, hcur.owner ▸ hcur.elemOf.owner, he.owner⟩
    · exact .inl hd
  visits := List.Subset.refl _

/-- The element of the next argument. -/
theorem Extends.newElement (type : BitVec 32) :
    Extends s { s with dep := s.dep.newElement type c } where
  grows := .refl _
  nextElem := Nat.le_succ _
  type i hi := by simp only [s.dep.newElement_of_lt c i type hi]
  owner i hi := by simp only [s.dep.newElement_of_lt c i type hi]
  readers i hi := by simp only [s.dep.newElement_of_lt c i type hi, List.Subset.refl]
  newReader i hi x hx := .inl (by simpa only [s.dep.newElement_of_lt c i type hi] using hx)
  newDependent i hi d hd := .inl (by simpa only [s.dep.newElement_of_lt c i type hi] using hd)
  visits := List.Subset.refl _

/-- The element of an argument, just made. -/
theorem current_newElement (hc : Kin s.rt t c) {k : Walk} {type : BitVec 32}
    (helem : k.elem = s.dep.nextElem) (hout : isOutType type = k.out) :
    Current { s with dep := s.dep.newElement type c } t c k where
  elemOf := by
    rw [helem]
    exact ⟨Nat.lt_succ_self _, by simpa using hc, by simp, by simp⟩
  owner := by simp [helem]
  type := by simpa [helem] using hout

theorem callStep_createDependency {j : ℕ} (hE : Elements s) (hv : Visiting s t c k) :
    CallStep s { s with dep := (createDependency s.dep c t k j).2 } t c
      (createDependency s.dep c t k j).1 := by
  have hwalk : CallOk s t c (.walk k) := hv.walk rfl rfl
  unfold createDependency
  split
  · rename_i hout
    split
    · exact callStep_setNode hv hwalk (by simp)
    · rename_i e he
      split
      · exact callStep_setNode hv ⟨hv, hE.table t j e he⟩ (by simp)
      · exact callStep_setNode hv ⟨hv, (hE.table t j e he).readers⟩ (by simp)
  · rename_i hout
    split
    · exact callStep_setNode hv hwalk (by simp)
    · rename_i e he
      split
      · exact callStep_setNode hv ⟨hv, hE.table t j e he⟩ (by simp)
      · rename_i htype
        exact .of_dep (.refl _) rfl
          ⟨hv, hE.table t j e he, by simpa using hout, by simpa using htype, he⟩

/-- A step that changes the elements only. -/
theorem CallStep.of_ext {d : Analysis} {pc' : CallPc} (hext : Extends s { s with dep := d })
    (hcall : CallOk { s with dep := d } t c pc') (hm : d.metadata = s.dep.metadata)
    (hd : d.depsLast = s.dep.depsLast) : CallStep s { s with dep := d } t c pc' where
  ext := hext
  call := hcall
  table j e he := .inl (by rwa [← hm])
  other p _ := by rw [← hm]
  depsLast x o ho := .inl (by rwa [← hd])

theorem callStep_createDependencies {gridT : BitVec 64} (hE : Elements s) (hc : Kin s.rt t c)
    (h : CallOk s t c (.walk k)) :
    CallStep s { s with dep := (createDependencies gridT s.dep c t k).2 } t c
      (createDependencies gridT s.dep c t k).1 := by
  obtain ⟨hpieces, hblocks⟩ := h
  unfold createDependencies
  split
  · rename_i j blocks hb
    have hv := hblocks (by simp [hb])
    exact callStep_createDependency hE ⟨⟨hv.elemOf, hv.owner, hv.type⟩, hv.reader⟩
  · rename_i piece pieces hb hp
    have hcur := hpieces (by simp [hp])
    by_cases hout : k.out
    · rw [if_pos hout]
      exact .of_dep (.refl _) rfl ⟨fun _ => hcur.walk rfl rfl,
        fun _ => ⟨hcur.walk rfl rfl, fun hf => absurd hf (by simp [hout])⟩⟩
    · have hext := Extends.insertFront hc hcur.elemOf
      have hcur' := hcur.mono hext
      rw [if_neg hout]
      refine .of_ext hext ⟨fun _ => hcur'.walk rfl rfl, fun _ => ⟨hcur'.walk rfl rfl, ?_⟩⟩ rfl rfl
      simp [Analysis.insertFront_readers]
  · rename_i a args hb hp ha
    split
    · exact .of_dep (.refl _) rfl ⟨fun hne => absurd hp hne, fun hne => absurd hb hne⟩
    · exact .of_ext (.newElement a.type) ⟨fun _ => current_newElement hc rfl rfl,
        fun hne => absurd hb hne⟩ rfl rfl
  · split <;> exact .of_dep (.refl _) rfl trivial

/-- A push, and what the analysis stores next to it. -/
theorem callStep_pushed {o : TaskId} {l : List TaskId} {d : Analysis} {pc' : CallPc}
    (hext : Extends s { s with dep := d }) (hcall : CallOk s t c pc')
    (hm : d.metadata = s.dep.metadata) (hd : d.depsLast = s.dep.depsLast) :
    CallStep s ⟨s.rt.pushed c o l, d.setDepsLast c o⟩ t c pc' := by
  have hext' : Extends s ⟨s.rt.pushed c o l, d.setDepsLast c o⟩ :=
    hext.trans (.of_elem .pushed rfl rfl (List.Subset.refl _))
  refine ⟨hext', hcall.mono hext' fun _ _ _ _ => congrFun hm t,
    fun j e he => .inl (by rwa [← hm]),
    fun p _ => by rw [← hm]; rfl, fun x y hy => ?_⟩
  rw [Analysis.setDepsLast_depsLast] at hy
  rcases eq_or_ne x c with rfl | hne
  · rw [Function.update_self] at hy
    cases hy
    exact .inr (by simp)
  · rw [Function.update_of_ne hne, hd] at hy
    exact .inl hy

theorem callStep_notifyOwner {raw : Bool} (hcaller : Caller s.rt t c)
    (h : CallOk s t c (.push k e raw)) :
    CallStep s (notifyOwner s c k e raw).2 t c (notifyOwner s c k e raw).1 := by
  obtain ⟨hv, he⟩ := h
  unfold notifyOwner
  dsimp only
  split
  · exact .of_dep (.refl _) rfl (hv.walk rfl rfl)
  · rename_i hne
    split
    · exact .of_dep (.refl _) rfl (hv.walk rfl rfl)
    · rename_i r hr
      obtain ⟨l, hl, rfl⟩ := stackPush_eq_some.1 hr
      cases raw with
      | false => exact callStep_pushed (.of_dep (.refl _) rfl) (hv.walk rfl rfl) rfl rfl
      | true =>
        have hlt : (s.dep.elem e).owner < c := by
          rcases hcaller.sibling he.owner with hself | hsib
          · exact absurd (.inl hself.symm) hne
          · exact hsib.1
        exact callStep_pushed (.setDependent hv.toCurrent he hlt) (hv.walk rfl rfl) rfl rfl

theorem callStep_notifyReaders {rest : List TaskId} (h : CallOk s t c (.readers k rest)) :
    CallStep s (notifyReaders s c k rest).2 t c (notifyReaders s c k rest).1 := by
  obtain ⟨hv, hrest⟩ := h
  cases rest with
  | nil => exact .of_dep (.refl _) rfl (hv.walk rfl rfl)
  | cons reader rest =>
    have hrest' : ∀ x ∈ rest, Kin s.rt t x := fun x hx => hrest x (List.mem_cons_of_mem _ hx)
    simp only [notifyReaders]
    split
    · split
      · exact .of_dep (.refl _) rfl ⟨hv, hrest'⟩
      · rename_i r hr
        obtain ⟨l, hl, rfl⟩ := stackPush_eq_some.1 hr
        exact callStep_pushed (.of_dep (.refl _) rfl)
          ⟨⟨hv.toCurrent.walk rfl rfl, hv.reader⟩, hrest'⟩ rfl rfl
    · exact .of_dep (.refl _) rfl ⟨hv, hrest'⟩

theorem callStep_readAfterRead {j : ℕ} (hcaller : Caller s.rt t c)
    (h : CallOk s t c (.ownerStatus k e j)) :
    CallStep s (readAfterRead s c t k e j).2 t c (readAfterRead s c t k e j).1 := by
  obtain ⟨hv, he, hout, htype, hnode⟩ := h
  unfold readAfterRead
  dsimp only
  split
  · have hext : Extends s { s with dep := (s.dep.insertFront c e).visit c false j } :=
      (Extends.insertFront hcaller.kin he).trans
        (.of_elem (.refl _) rfl rfl (List.subset_cons_self _ _))
    have hv' := hv.mono hext
    split
    · exact .of_ext hext (hv'.walk rfl rfl) rfl rfl
    · rename_i d hd
      split
      · rename_i hne
        obtain ⟨hlt, hown, hkin⟩ := he.dependent d hd
        refine .of_ext hext ⟨hv', hlt, ?_, ?_⟩ rfl rfl
        · simpa using hown.trans_le (hcaller.latest _ he.owner.parent)
        · simpa using hkin
      · exact .of_ext hext (hv'.walk rfl rfl) rfl rfl
  · exact callStep_setNode hv (hv.walk rfl rfl) (by simp)

theorem callStep_notifyDependent (h : CallOk s t c (.pushDependent k d)) :
    CallStep s (notifyDependent s c k d).2 t c (notifyDependent s c k d).1 := by
  obtain ⟨hv, hrest⟩ := h
  unfold notifyDependent
  dsimp only
  split
  · exact .of_dep (.refl _) rfl (hv.walk rfl rfl)
  · rename_i r hr
    obtain ⟨l, hl, rfl⟩ := stackPush_eq_some.1 hr
    exact callStep_pushed (.of_dep (.refl _) rfl) (hv.walk rfl rfl) rfl rfl

/-- **One step of `tpc_call`.** -/
theorem callStep_tpcCall {gridT : BitVec 64} {pc pc' : CallPc} (hE : Elements s)
    (hp : (s.rt.task c).parent = some t) (hcaller : pc.walking → Caller s.rt t c)
    (hg : Grows s.rt s'.rt) (hcall : CallOk s t c pc) (h : tpcCall gridT s c pc = some (pc', s')) :
    CallStep s s' t c pc' := by
  cases pc with
  | incr =>
    rw [tpcCall, hp] at h
    cases h
    exact .of_dep hg rfl trivial
  | creating =>
    cases h
    exact .of_dep hg rfl ⟨fun hne => absurd rfl hne, fun hne => absurd rfl hne⟩
  | walk k =>
    rw [tpcCall, hp] at h
    cases h
    exact callStep_createDependencies hE (hcaller rfl).kin hcall
  | push k e raw =>
    rw [tpcCall, Option.some.injEq] at h
    have hs := callStep_notifyOwner (hcaller rfl) hcall
    rwa [h] at hs
  | readers k rest =>
    rw [tpcCall, Option.some.injEq] at h
    have hs := callStep_notifyReaders hcall
    rwa [h] at hs
  | ownerStatus k e j =>
    rw [tpcCall, hp, Option.map_some, Option.some.injEq] at h
    have hs := callStep_readAfterRead (hcaller rfl) hcall
    rwa [h] at hs
  | pushDependent k d =>
    rw [tpcCall, Option.some.injEq] at h
    have hs := callStep_notifyDependent hcall
    rwa [h] at hs
  | storeWaitfor n =>
    cases h
    exact .of_dep hg rfl trivial
  | storeCreated n => cases h

/-! ## The steps of the system -/

variable [DecidableEq ω] {w : ω} {f : Frame} {gs fs : List Frame}

theorem dep_of_takeTask {g : Frame} {v : ω} {n : ℕ} (h : takeTask s g v n = some (gs, s'))
    (hg : ∀ t tmp c pc, g ≠ .execute t tmp (.call c pc)) :
    s'.dep = s.dep ∧ ∀ t tmp c pc, Frame.execute t tmp (.call c pc) ∈ gs → pc = .incr := by
  rw [takeTask, Option.map_eq_some_iff] at h
  obtain ⟨x, -, heq⟩ := h
  cases heq
  refine ⟨rfl, fun t tmp c pc hmem => ?_⟩
  simp at hmem
  exact absurd hmem.symm (hg t tmp c pc)

theorem dep_of_executeTask {gridT : BitVec 64} {tmp : Option TaskId} {pc : ExecPc} {a : Choice ω}
    (h : executeTask gridT s w t tmp pc a = some (gs, s')) :
    (s'.dep = s.dep ∧ ∀ t tmp c pc, Frame.execute t tmp (.call c pc) ∈ gs → pc = .incr) ∨
      ∃ c pc₀ pc', pc = .call c pc₀ ∧
      gs = [.execute t tmp (.call c pc')] ∧ tpcCall gridT s c pc₀ = some (pc', s') := by
  unfold executeTask at h
  split at h
  case h_5 c pc₀ _ =>
    obtain ⟨⟨pc', s''⟩, hpc, heq⟩ := Option.map_eq_some_iff.1 h
    cases heq
    exact .inr ⟨c, pc₀, pc', rfl, rfl, hpc⟩
  case h_7 => exact .inl (dep_of_takeTask h (by simp))
  all_goals
    left
    grind [Option.map_eq_some_iff]

omit [DecidableEq ω] in
theorem dep_of_releaseTask {pc : ReleasePc} (h : releaseTask s t pc = some (gs, s')) :
    s'.dep = s.dep ∧ ∀ t tmp c pc, Frame.execute t tmp (.call c pc) ∈ gs → pc = .incr := by
  unfold releaseTask at h
  split at h <;> grind [Option.map_eq_some_iff]

/-- Only `tpc_call` and the start of a task touch the data of the analysis. -/
theorem dep_of_act {gridT : BitVec 64} {a : Choice ω} (h : act gridT s w f a = some (gs, s')) :
    (s'.dep = s.dep ∧ ∀ t tmp c pc, Frame.execute t tmp (.call c pc) ∈ gs → pc = .incr) ∨
      (∃ t tmp, f = .enter t ∧ gs = [.execute t tmp .body] ∧ s'.dep = s.dep.newTrie t) ∨
      ∃ t tmp c pc pc', f = .execute t tmp (.call c pc) ∧
        gs = [.execute t tmp (.call c pc')] ∧ tpcCall gridT s c pc = some (pc', s') := by
  unfold act at h
  split at h
  · unfold workerThread at h
    split at h
    · exact .inl (dep_of_takeTask h (by simp))
    · cases h
      exact .inl ⟨rfl, by simp⟩
    · cases h
  · cases h
    exact .inr (.inl ⟨_, _, rfl, rfl, rfl⟩)
  · rcases dep_of_executeTask h with hd | ⟨c, pc₀, pc', rfl, hgs, hcall⟩
    · exact .inl hd
    · exact .inr (.inr ⟨_, _, c, pc₀, pc', rfl, hgs, hcall⟩)
  · unfold scheduleTask at h
    left
    grind
  · exact .inl (dep_of_releaseTask h)
  · cases h

/-! ## The invariant of the runtime -/

variable [Fintype ω]

/-- **The invariant.**  The tallies, the names, and the data of the analysis. -/
structure Sound (s : State ω) : Prop where
  tokens : Tokens s.rt
  family : Family s.rt
  elements : Elements s

namespace Sound

theorem owned (hS : Sound s) (hst : s.rt.stack w = f :: fs) : Owned s.rt f :=
  owned_of_stack hS.tokens hS.family hst

theorem caller (hS : Sound s) {tmp : Option TaskId} {pc : CallPc}
    (hst : s.rt.stack w = .execute t tmp (.call c pc) :: fs) (hpc : pc.walking) :
    Caller s.rt t c := by
  obtain ⟨-, -, -, hp, -, hu, -⟩ := hS.owned hst
  refine ⟨⟨hp, ?_⟩, fun x hx => hS.family.latest w t tmp c pc (hst ▸ List.mem_cons_self) x hx⟩
  rw [← Bool.not_eq_false, hu]
  rintro rfl
  cases hpc

/-- **Every push goes back.** -/
theorem pushesBack (hS : Sound s) (hst : s.rt.stack w = f :: fs) : PushesBack s f := by
  cases f with
  | execute t tmp pc =>
    cases pc with
    | call c pc =>
      have ho := hS.owned hst
      exact (hS.elements.calls w t tmp c pc (hst ▸ List.mem_cons_self)).pushesBack ho.2.2.2.1
        (hS.caller hst)
    | _ => trivial
  | _ => trivial

theorem move (hS : Sound s) {gridT : BitVec 64} {a : Choice ω} (hst : s.rt.stack w = f :: fs)
    (h : act gridT s w f a = some (gs, s')) : Move s.rt w f gs s'.rt :=
  move_of_act (hS.pushesBack hst) h

end Sound

theorem Sound.grows (hS : Sound s) {gridT : BitVec 64} {a : Choice ω}
    (hst : s.rt.stack w = f :: fs) (h : act gridT s w f a = some (gs, s')) : Grows s.rt s'.rt :=
  (hS.move hst h).grows (hS.owned hst)

theorem Sound.callStep (hS : Sound s) {gridT : BitVec 64} {tmp : Option TaskId} {pc pc' : CallPc}
    (hg : Grows s.rt s'.rt) (hst : s.rt.stack w = .execute t tmp (.call c pc) :: fs)
    (h : tpcCall gridT s c pc = some (pc', s')) : CallStep s s' t c pc' :=
  callStep_tpcCall hS.elements (hS.owned hst).2.2.2.1 (hS.caller hst) hg
    (hS.elements.calls w t tmp c pc (hst ▸ List.mem_cons_self)) h

/-- The data of the analysis after a step. -/
theorem Sound.extends (hS : Sound s) {gridT : BitVec 64} {a : Choice ω}
    (hst : s.rt.stack w = f :: fs) (h : act gridT s w f a = some (gs, s')) : Extends s s' := by
  have hg : Grows s.rt s'.rt := hS.grows hst h
  rcases dep_of_act h with ⟨hdep, -⟩ | ⟨t, tmp, -, -, hdep⟩ | ⟨t, tmp, c, pc, pc', rfl, -, hcall⟩
  · exact .of_dep hg hdep
  · exact .of_elem hg (by rw [hdep]; rfl) (by rw [hdep]; rfl) (by rw [hdep]; exact fun _ => id)
  · exact (hS.callStep hg hst hcall).ext

/-- The lookup table of a task that runs elsewhere stays as it is. -/
theorem Sound.metadata_eq (hS : Sound s) {gridT : BitVec 64} {a : Choice ω}
    (hst : s.rt.stack w = f :: fs) (h : act gridT s w f a = some (gs, s')) {v : ω} {g : Frame}
    (hg : g ∈ s.rt.stack v) (hfs : v = w → g ∈ fs) (hruns : g.runs t = 1) :
    s'.dep.metadata t = s.dep.metadata t := by
  rcases dep_of_act h with ⟨hdep, -⟩ | ⟨x, tmp, rfl, -, hdep⟩ | ⟨x, tmp, c, pc, pc', rfl, -, hcall⟩
  · rw [hdep]
  · have hne : t ≠ x := fun htx => by
      have h1 := (hS.tokens.runs_of_mem hg hruns.ge).2
      rw [htx, (hS.owned hst).2] at h1
      omega
    rw [hdep]
    exact Function.update_of_ne hne _ _
  · have hne : t ≠ x := fun htx => by
      subst htx
      have := hS.tokens.runs_eq_zero (t := t) hst (by simp [Frame.runs]) hg hfs
      omega
    exact (hS.callStep (hS.grows hst h) hst hcall).other t hne

/-- The lookup tables and `deps_last` after a step. -/
theorem Sound.tables (hS : Sound s) {gridT : BitVec 64} {a : Choice ω}
    (hst : s.rt.stack w = f :: fs) (h : act gridT s w f a = some (gs, s')) :
    (∀ p j e, s'.dep.metadata p j = some e → ElemOf s p e) ∧
      ∀ c o, s'.dep.depsLast c = some o → (c, o) ∈ s'.rt.hist.pushes := by
  have hg : Grows s.rt s'.rt := hS.grows hst h
  have hold : ∀ c o, s.dep.depsLast c = some o → (c, o) ∈ s'.rt.hist.pushes := fun c o ho =>
    hg.pushes (hS.elements.depsLast c o ho)
  rcases dep_of_act h with ⟨hdep, -⟩ | ⟨t, tmp, -, -, hdep⟩ | ⟨t, tmp, c, pc, pc', rfl, -, hcall⟩
  · rw [hdep]
    exact ⟨hS.elements.table, hold⟩
  · rw [hdep]
    refine ⟨fun p j e he => ?_, hold⟩
    rw [Analysis.newTrie_metadata] at he
    rcases eq_or_ne p t with rfl | hne
    · simp at he
    · rw [Function.update_of_ne hne] at he
      exact hS.elements.table p j e he
  · have hcs : CallStep s s' t c pc' := hS.callStep hg hst hcall
    refine ⟨fun p j e he => ?_, fun x o ho => (hcs.depsLast x o ho).elim (hold x o) id⟩
    rcases eq_or_ne p t with rfl | hne
    · exact (hcs.table j e he).elim (hS.elements.table p j e) id
    · rw [hcs.other p hne] at he
      exact hS.elements.table p j e he

/-- The calls in progress on the records that a step puts on the stack. -/
theorem Sound.newCalls (hS : Sound s) {gridT : BitVec 64} {a : Choice ω}
    (hst : s.rt.stack w = f :: fs) (h : act gridT s w f a = some (gs, s')) :
    ∀ t tmp c pc, Frame.execute t tmp (.call c pc) ∈ gs → CallOk s' t c pc := by
  intro t tmp c pc hmem
  rcases dep_of_act h with ⟨-, hincr⟩ | ⟨x, tmp, -, rfl, -⟩ | ⟨x, tmp, c, pc, pc', rfl, rfl, hcall⟩
  · rw [hincr t tmp c pc hmem]
    trivial
  · simp at hmem
  · simp at hmem
    obtain ⟨rfl, -, rfl, rfl⟩ := hmem
    exact (hS.callStep (hS.grows hst h) hst hcall).call

/-- **The invariant is kept by every action.** -/
theorem Sound.act (hS : Sound s) {gridT : BitVec 64} {a : Choice ω}
    (hst : s.rt.stack w = f :: fs) (h : act gridT s w f a = some (gs, s')) :
    Sound { s' with rt := s'.rt.setStack w (gs ++ fs) } := by
  have hm : Move s.rt w f gs s'.rt := hS.move hst h
  have hext : Extends s s' := hS.extends hst h
  have hset : Extends s' { s' with rt := s'.rt.setStack w (gs ++ fs) } := .of_dep .setStack rfl
  refine ⟨hS.tokens.move hS.family hst hm, hS.family.move hS.tokens hst hm, ?_⟩
  refine ⟨fun p j e he => ?_, (hS.tables hst h).2, fun v t tmp c pc hv => ?_⟩
  · exact ((hS.tables hst h).1 p j e he).mono (hext.trans hset)
  · rcases mem_setStack hm.stack_eq hst hv with ⟨-, hgs⟩ | ⟨hold, hfs⟩
    · exact (hS.newCalls hst h t tmp c pc hgs).mono hset fun _ _ _ _ => rfl
    · have hmeta : s'.dep.metadata t = s.dep.metadata t :=
        hS.metadata_eq hst h hold hfs (by simp [Frame.runs])
      exact (hS.elements.calls v t tmp c pc hold).mono (hext.trans hset) fun _ _ _ _ => hmeta

/-- Every step is an action of an innermost record. -/
theorem Sound.step (hS : Sound s) {gridT : BitVec 64} {a : ω × Choice ω}
    (h : Partee.step gridT s a = some s') : Sound s' := by
  obtain ⟨f, fs, gs, s₁, hst, hact, rfl⟩ := act_of_step h
  exact hS.act hst hact

theorem Sound.init (main : ω) : Sound (init main) where
  tokens := .init main
  family := .init main
  elements :=
    { table := fun _ _ _ he => by cases he
      depsLast := fun _ _ ho => by cases ho
      calls := fun w t tmp c pc hmem => by
        simp only [Partee.init] at hmem
        split at hmem <;> simp at hmem }

/-- Every reachable state satisfies the invariant. -/
theorem Sound.of_reachable {gridT : BitVec 64} {main : ω} (h : Reachable gridT main s) : Sound s :=
  h.invariant (.init main) fun _ _ _ hS _ hs => hS.step hs

end Partee
