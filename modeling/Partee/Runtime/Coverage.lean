import Partee.Runtime.Visits

/-!
# The order of the visits along a run

The two statements of `Runtime.Visits` are carried through every step.  A step
visits a block, or it is quiet: it may start a task, whose lookup table is then
empty and which has no children yet.

* `Visited.visit`, `NodesCover.visit`, `VisitsOrdered.visit`: what a visit keeps, and next to
  them what a quiet step keeps.
* `Covered`, `Covered.act`: the invariant, and what one step keeps of it.
-/

namespace Partee

open Transition

variable {ω : Type*} [Fintype ω] [DecidableEq ω] {s s' : State ω} {t c p x : TaskId} {e : ElemId}
  {a b : Bool} {pc pc' : CallPc} {w : ω} {tmp : Option TaskId} {f : Frame} {gs fs : List Frame}
  {gridT : BitVec 64} {ch : Choice ω}

/-! ## Quiet steps and visits -/

/-- **A step is quiet, or an access of `tpc_call` that visits a block.** -/
theorem Sound.quiet_or_visit (hS : Sound s) (hst : s.rt.stack w = f :: fs)
    (h : Partee.act gridT s w f ch = some (gs, s')) :
    Quiet s s' ∨ ∃ t tmp c pc pc', f = .execute t tmp (.call c pc) ∧
      gs = [.execute t tmp (.call c pc')] ∧ pc.walking ∧ Visit s s' t c pc pc' := by
  rcases dep_of_act h with ⟨hdep, -⟩ | ⟨t, tmp, rfl, -, hdep⟩ |
    ⟨t, tmp, c, pc, pc', rfl, rfl, hcall⟩
  · exact .inl (.of_eq (by rw [hdep]) (by rw [hdep]))
  · refine .inl ⟨by rw [hdep]; rfl, fun p j => ?_⟩
    rw [hdep, Analysis.newTrie_metadata]
    rcases eq_or_ne p t with rfl | hne
    · -- the task is only being started now, so it has no children
      refine .inr ⟨by simp, fun x hx => ?_⟩
      have h0 := (hS.family.parent_of_eq hS.tokens hx).2.2
      rw [(hS.owned hst).2] at h0
      exact h0.ne rfl
    · exact .inl (by rw [Function.update_of_ne hne])
  · have hok := hS.elements.calls w t tmp c pc (hst ▸ List.mem_cons_self)
    exact (visit_of_tpcCall (hS.owned hst).2.2.2.1 hok hcall).imp_right fun hv =>
      ⟨t, tmp, c, pc, pc', rfl, rfl, hv.walking, hv⟩

/-- No order is given up by a step. -/
theorem Sound.later (hS : Sound s) (hst : s.rt.stack w = f :: fs)
    (h : Partee.act gridT s w f ch = some (gs, s')) :
    Later s { s' with rt := s'.rt.setStack w (gs ++ fs) } where
  toExtends := (hS.extends hst h).trans (.of_dep .setStack rfl)
  follow _ _ := WillFollow.act hS hst h

omit [Fintype ω] [DecidableEq ω] in
/-- A task is committed to the pushes its record names. -/
theorem willFollow_of_pending (hg : Grows s.rt s'.rt)
    (howner : ∀ e, (s'.dep.elem e).owner = (s.dep.elem e).owner)
    (hmem : Frame.execute t tmp (.call c pc') ∈ s'.rt.stack w) :
    ∀ y ∈ pc'.pending s.dep, ∀ x, Follows s.rt y x → WillFollow s' c x := by
  intro y hy x hx
  refine .inr ⟨w, t, tmp, pc', hmem, y, ?_, hx.mono hg⟩
  cases pc' with
  | push k e raw => rwa [CallPc.pending, howner]
  | pushDependent k e => rwa [CallPc.pending, howner]
  | _ => exact hy

/-! ## The step lemmas -/

section StepLemmas

variable {s₂ : State ω}

omit [Fintype ω] [DecidableEq ω] in
/-- A visit names a task of the family, before as after. -/
theorem Visited.parent (hV : Visited s) (hg : Grows s.rt s₂.rt) {out : Bool} {j : ℕ}
    (hx : (x, out, j) ∈ s.dep.visits) (hp : (s₂.rt.task x).parent = some p) :
    (s.rt.task x).parent = some p := by
  obtain ⟨q, hq⟩ := hV.kin x out j hx
  obtain rfl : q = p := Option.some.inj ((hg.parent x q hq.parent).symm.trans hp)
  exact hq.parent

omit [DecidableEq ω] in
/-- The owner of an element that was found before is still one of its readers. -/
theorem Visited.reader_of_eq (hS : Sound s) (hV : Visited s) (hl : Later s s₂) {j : ℕ}
    (he : s.dep.metadata p j = some e) (htype : isOutType (s₂.dep.elem e).type = false) :
    (s₂.dep.elem e).owner ∈ (s₂.dep.elem e).readers := by
  have halloc := (hS.elements.table p j e he).allocated
  rw [hl.type e halloc] at htype
  rw [hl.owner e halloc]
  exact hl.readers e halloc (hV.reader p j e he htype)

omit [DecidableEq ω] in
theorem Visited.quiet (hS : Sound s) (hV : Visited s) (hl : Later s s₂) (hq : Quiet s s₂) :
    Visited s₂ where
  kin x out j hx := (hV.kin x out j (hq.visits ▸ hx)).imp fun _ hp => hp.mono hl.grows
  node x out j p hx hp := by
    rw [hq.visits] at hx
    have hp' := hV.parent hl.grows hx hp
    rcases hq.metadata p j with heq | ⟨-, hno⟩
    · rw [heq]
      exact hV.node x out j p hx hp'
    · exact absurd hp' (hno x)
  reader p j e he htype := by
    rcases hq.metadata p j with heq | ⟨hnone, -⟩
    · exact hV.reader_of_eq hS hl (heq.symm.trans he) htype
    · cases hnone.symm.trans he

omit [DecidableEq ω] in
/-- What a visit leaves at its block. -/
theorem Visit.table (hS : Sound s) (hV : Visited s) (hl : Later s s₂)
    (hv : Visit s s₂ t c pc pc') : ∃ out j e, s₂.dep.visits = (c, out, j) :: s.dep.visits ∧
      (∀ p i, s₂.dep.metadata p i = if p = t ∧ i = j then some e else s.dep.metadata p i) ∧
      (isOutType (s₂.dep.elem e).type = false →
        (s₂.dep.elem e).owner ∈ (s₂.dep.elem e).readers) := by
  cases hv with
  | @replaces out j k hv hk hpending hpc hdep hfound =>
    have hv' : Visiting s₂ t c k := hv.mono hl.toExtends
    refine ⟨out, j, k.elem, by rw [hdep]; rfl, fun p i => ?_, fun htype => ?_⟩
    · simp only [hdep, Analysis.visit_metadata, Analysis.setNode_metadata, Function.update_apply]
      grind
    · rw [hv'.owner]
      exact hv'.reader (hv'.type.symm.trans htype)
  | @joins j k e hpc hnode htype halive hdep hdependent =>
    refine ⟨false, j, e, by rw [hdep]; rfl, fun p i => ?_, hV.reader_of_eq hS hl hnode⟩
    have hsame : s₂.dep.metadata = s.dep.metadata := by rw [hdep]; rfl
    rw [hsame]
    split
    · rename_i heq
      rw [heq.1, heq.2, hnode]
    · rfl

omit [DecidableEq ω] in
theorem Visited.visit (hS : Sound s) (hV : Visited s) (hl : Later s s₂) (hc : Kin s.rt t c)
    (hv : Visit s s₂ t c pc pc') : Visited s₂ := by
  obtain ⟨out, j, e, hvisits, hmeta, hreader⟩ := hv.table hS hV hl
  have hc₂ : Kin s₂.rt t c := hc.mono hl.grows
  refine ⟨fun x b i hx => ?_, fun x b i p hx hp => ?_, fun p i e' he htype => ?_⟩
  · rw [hvisits, List.mem_cons] at hx
    rcases hx with heq | hold
    · cases heq
      exact ⟨t, hc₂⟩
    · exact (hV.kin x b i hold).imp fun p hp => hp.mono hl.grows
  · rw [hmeta]
    split
    · exact ⟨e, rfl⟩
    · rename_i hne
      rw [hvisits, List.mem_cons] at hx
      rcases hx with heq | hold
      · cases heq
        exact absurd ⟨Option.some.inj (hp.symm.trans hc₂.parent), rfl⟩ hne
      · exact hV.node x b i p hold (hV.parent hl.grows hold hp)
  · rw [hmeta] at he
    split at he
    · cases he
      exact hreader htype
    · exact hV.reader_of_eq hS hl he htype

omit [Fintype ω] [DecidableEq ω] in
/-- A visit leaves the owners of the elements alone. -/
theorem Visit.owner (hv : Visit s s₂ t c pc pc') (e : ElemId) :
    (s₂.dep.elem e).owner = (s.dep.elem e).owner := by
  cases hv with
  | replaces hv hk hpending hpc hdep hfound => rw [hdep]; rfl
  | joins hpc hnode htype halive hdep hdependent => rw [hdep]; simp

/-- **The order at the blocks is kept.**  The element found at a block covers the
visits by `b`; those of the readers only if no element is replaced too early. -/
theorem NodesCover.visit (hS : Sound s) (hV : Visited s) (hN : NodesCover s b) (hl : Later s s₂)
    (hst : s.rt.stack w = .execute t tmp (.call c pc) :: fs) (hv : Visit s s₂ t c pc pc')
    (hmem : Frame.execute t tmp (.call c pc') ∈ s₂.rt.stack w) (hc : Kin s.rt t c)
    (hcond : b = false → ReplacesBehindReaders s (.execute t tmp (.call c pc))) :
    NodesCover s₂ b := by
  have hnew := willFollow_of_pending hl.grows hv.owner hmem
  intro p i e' x he' hx hp
  have hold : ∀ {e}, s.dep.metadata p i = some e → (x, b, i) ∈ s.dep.visits →
      Covers s e b x := fun he hx => hN p i _ x he hx (hV.parent hl.grows hx hp)
  cases hv with
  | @replaces out j k hv hk hpending hpc hdep hfound =>
    have hv' : Visiting s₂ t c k := hv.mono hl.toExtends
    simp only [hdep, Analysis.visit_metadata, Analysis.setNode_metadata, Analysis.visit_visits,
      Analysis.setNode_visits, Function.update_apply, List.mem_cons] at he' hx
    by_cases hat : p = t ∧ i = j
    · obtain ⟨rfl, rfl⟩ := hat
      rw [if_pos rfl, Function.update_self] at he'
      cases he'
      refine .inl ?_
      rw [hv'.owner]
      rcases hx with heq | hx
      · cases heq
        exact .refl
      · obtain ⟨e, he⟩ := hV.node x b i p hx (hV.parent hl.grows hx hp)
        exact willFollow_of_passedOn hS hV hl hst hpending hnew he (hfound e he)
          (fun hb _ => hcond hb) hx (hold he hx)
    · have he : s.dep.metadata p i = some e' := by
        rw [← he']
        grind
      rcases hx with heq | hx
      · cases heq
        have hpt : some p = some t := hp.symm.trans (hc.mono hl.grows).parent
        exact absurd ⟨Option.some.inj hpt, rfl⟩ hat
      · exact (hold he hx).mono hl (hS.elements.table p i e' he).allocated
  | @joins j k e hpc hnode htype halive hdep hdependent =>
    have he : s.dep.metadata p i = some e' := by rwa [hdep] at he'
    have halloc := (hS.elements.table p i e' he).allocated
    simp only [hdep, Analysis.visit_visits, Analysis.insertFront_visits, List.mem_cons] at hx
    rcases hx with heq | hx
    · cases heq
      obtain rfl : p = t := Option.some.inj (hp.symm.trans (hc.mono hl.grows).parent)
      cases hnode.symm.trans he
      refine .inr ⟨rfl, ?_, ?_⟩
      · rw [hl.type _ halloc, htype]
      · simp [hdep, Analysis.insertFront_readers]
    · exact (hold he hx).mono hl halloc

/-- **The order between the visits is kept.**  Joining the readers of an element
says nothing about other readers, so one of the two visits is that of a writer. -/
theorem VisitsOrdered.visit (hS : Sound s) (hV : Visited s) (hN : NodesCover s b)
    (hO : VisitsOrdered s a b) (hl : Later s s₂)
    (hst : s.rt.stack w = .execute t tmp (.call c pc) :: fs) (hv : Visit s s₂ t c pc pc')
    (hmem : Frame.execute t tmp (.call c pc') ∈ s₂.rt.stack w) (hc : Caller s.rt t c)
    (hab : a = true ∨ b = true)
    (hcond : b = false → ReplacesBehindReaders s (.execute t tmp (.call c pc)))
    (hcond' : a = false → JoinsBehindWriters s (.execute t tmp (.call c pc))) :
    VisitsOrdered s₂ a b := by
  have hnew := willFollow_of_pending hl.grows hv.owner hmem
  have hc₂ : Kin s₂.rt t c := hc.kin.mono hl.grows
  intro p i x y hxy hx hy hxi hyi
  -- what the visit at block `i` is about to add
  suffices hvisit : (x, b, i) ∈ s.dep.visits → (y, a, i) ∉ s.dep.visits → p = t ∧ y = c →
      WillFollow s₂ c x by
    obtain ⟨out, j, e, hvisits, -, -⟩ := hv.table hS hV hl
    rw [hvisits, List.mem_cons] at hxi hyi
    by_cases hyo : (y, a, i) ∈ s.dep.visits
    · rcases hxi with heq | hxo
      · cases heq
        obtain rfl : p = t := Option.some.inj (hx.symm.trans hc₂.parent)
        exact absurd (hc.latest y (hV.parent hl.grows hyo hy)) (Nat.not_le.2 hxy)
      · exact hl.follow _ _ (hO p i x y hxy (hV.parent hl.grows hxo hx)
          (hV.parent hl.grows hyo hy) hxo hyo)
    · have heq := hyi.resolve_right hyo
      obtain rfl : y = c := congrArg Prod.fst heq
      have hpt : p = t := Option.some.inj (hy.symm.trans hc₂.parent)
      have hxo := hxi.resolve_left fun h => hxy.ne (congrArg Prod.fst h)
      exact hvisit hxo hyo ⟨hpt, rfl⟩
  rintro hxo hyo ⟨rfl, rfl⟩
  have hx' := hV.parent hl.grows hxo hx
  obtain ⟨e, he⟩ := hV.node x b i p hxo hx'
  have hcov : Covers s e b x := hN p i e x he hxo hx'
  cases hv with
  | @replaces out j k hv hk hpending hpc hdep hfound =>
    simp only [hdep, Analysis.visit_visits, Analysis.setNode_visits, List.mem_cons, hyo, or_false,
      Prod.mk.injEq, true_and] at hyi
    obtain ⟨rfl, rfl⟩ := hyi
    exact willFollow_of_passedOn hS hV hl hst hpending hnew he (hfound e he)
      (fun hb _ => hcond hb) hxo hcov
  | @joins j k e' hpc hnode htype halive hdep hdependent =>
    simp only [hdep, Analysis.visit_visits, Analysis.insertFront_visits, List.mem_cons, hyo,
      or_false, Prod.mk.injEq, true_and] at hyi
    obtain ⟨rfl, rfl⟩ := hyi
    cases hnode.symm.trans he
    obtain rfl : b = true := by simpa using hab
    subst hpc
    exact willFollow_of_join hS hl hst hnew hnode halive hdependent (hcond' rfl) hxo hx' hcov

omit [Fintype ω] [DecidableEq ω] in
theorem NodesCover.quiet (hE : Elements s) (hV : Visited s) (hN : NodesCover s b)
    (hl : Later s s₂) (hq : Quiet s s₂) : NodesCover s₂ b := by
  intro p j e x he hx hp
  rw [hq.visits] at hx
  rcases hq.metadata p j with heq | ⟨hnone, -⟩
  · rw [heq] at he
    exact (hN p j e x he hx (hV.parent hl.grows hx hp)).mono hl (hE.table p j e he).allocated
  · cases hnone.symm.trans he

omit [Fintype ω] [DecidableEq ω] in
theorem VisitsOrdered.quiet (hV : Visited s) (hO : VisitsOrdered s a b) (hl : Later s s₂)
    (hq : Quiet s s₂) : VisitsOrdered s₂ a b := by
  intro p j x y hxy hx hy hxj hyj
  rw [hq.visits] at hxj hyj
  exact hl.follow _ _
    (hO p j x y hxy (hV.parent hl.grows hxj hx) (hV.parent hl.grows hyj hy) hxj hyj)

end StepLemmas

/-! ## The invariant -/

/-- The order of the visits by `a` after the visits by `b`, with what carries it. -/
structure Covered (s : State ω) (a b : Bool) : Prop where
  visited : Visited s
  nodes : NodesCover s b
  ordered : VisitsOrdered s a b

/-- **One step keeps the order.** -/
theorem Covered.act (hS : Sound s) (hC : Covered s a b) (hab : a = true ∨ b = true)
    (hst : s.rt.stack w = f :: fs) (h : Partee.act gridT s w f ch = some (gs, s'))
    (hcond : b = false → ReplacesBehindReaders s f)
    (hcond' : a = false → JoinsBehindWriters s f) :
    Covered { s' with rt := s'.rt.setStack w (gs ++ fs) } a b := by
  have hl : Later s { s' with rt := s'.rt.setStack w (gs ++ fs) } := hS.later hst h
  rcases hS.quiet_or_visit hst h with hq | ⟨t, tmp, c, pc, pc', rfl, rfl, hpc, hv⟩
  · have hq' : Quiet s { s' with rt := s'.rt.setStack w (gs ++ fs) } := ⟨hq.visits, hq.metadata⟩
    exact ⟨hC.visited.quiet hS hl hq', hC.nodes.quiet hS.elements hC.visited hl hq',
      hC.ordered.quiet hC.visited hl hq'⟩
  · have hc : Caller s.rt t c := hS.caller hst hpc
    have hmem : Frame.execute t tmp (.call c pc') ∈
        (s'.rt.setStack w ([.execute t tmp (.call c pc')] ++ fs)).stack w := by simp
    exact ⟨hC.visited.visit hS hl hc.kin (hv.of_dep rfl),
      hC.nodes.visit hS hC.visited hl hst (hv.of_dep rfl) hmem hc.kin hcond,
      hC.ordered.visit hS hC.visited hC.nodes hl hst (hv.of_dep rfl) hmem hc hab hcond hcond'⟩

omit [Fintype ω] in
theorem Covered.init (main : ω) : Covered (init main) a b where
  visited :=
    { kin := fun _ _ _ hx => by cases hx
      node := fun _ _ _ _ hx => by cases hx
      reader := fun _ _ _ he => by cases he }
  nodes _ _ _ _ he := by cases he
  ordered _ _ _ _ _ _ _ hx := by cases hx

end Partee
