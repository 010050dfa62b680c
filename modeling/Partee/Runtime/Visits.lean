import Partee.Runtime.Follows

/-!
# What a visit does to the order

At every block it visits, the analysis finds at most one element, and hands the
order over to its own: either the new element takes the place of the old one, and
the task is pushed behind those whom the old one stands for, or the task joins the
readers of the old element.  Two statements describe how far this goes, with `b`
for the kind of visit (`true` for OUT and INOUT, `false` for IN).

* `NodesCover s b`: whoever follows the element now found at a block comes after
  every task that visited the block by `b`.
* `VisitsOrdered s a b`: a task that visited a block by `a` comes after every
  earlier sibling that visited it by `b`.

One visit keeps both for `b = true` when its element takes the place of the old
one.  The remaining cases depend on what is found: `JoinsBehindWriters` and
`ReplacesBehindReaders` say when nothing is lost there.
-/

namespace Partee

open Transition

variable {ω : Type*} {s s' : State ω} {t c p x o : TaskId} {e : ElemId} {b : Bool}
  {pc pc' : CallPc}

/-! ## The visits of a call -/

/-- The visit of block `j` passes what the element `e` found there stands for on to
the call: the pushes it is now committed to, or the owner's release. -/
def PassedOn (s : State ω) (out : Bool) (j : ℕ) (e : ElemId) (pc pc' : CallPc) : Prop :=
  if isOutType (s.dep.elem e).type then (s.dep.elem e).owner ∈ pc'.pending s.dep
  else if out then (s.dep.elem e).readers ⊆ pc'.pending s.dep
  else Released s.rt (s.dep.elem e).owner ∧ ∃ k, pc = .ownerStatus k e j

/-- Nothing is visited, and the lookup tables stay as they are, but for one that
is still without use. -/
structure Quiet (s s' : State ω) : Prop where
  visits : s'.dep.visits = s.dep.visits
  metadata : ∀ p j, s'.dep.metadata p j = s.dep.metadata p j ∨
    (s'.dep.metadata p j = none ∧ ∀ x, (s.rt.task x).parent ≠ some p)

theorem Quiet.of_eq (hvisits : s'.dep.visits = s.dep.visits)
    (hmeta : s'.dep.metadata = s.dep.metadata) : Quiet s s' :=
  ⟨hvisits, fun p j => .inl (by rw [hmeta])⟩

/-- What a visit of `tpc_call(c)`, called by `t`, does to the lookup table and to the
record of visits. -/
inductive Visit (s s' : State ω) (t c : TaskId) (pc pc' : CallPc) : Prop where
  | replaces {out : Bool} {j : ℕ} {k : Walk} (hv : Visiting s t c k) (hk : k.out = out)
      (hpending : pc.pending s.dep = []) (hpc : pc.walking)
      (hdep : s'.dep = (s.dep.setNode t j k.elem).visit c out j)
      (hfound : ∀ e, s.dep.metadata t j = some e → PassedOn s out j e pc pc')
  | joins {j : ℕ} {k : Walk} {e : ElemId} (hpc : pc = .ownerStatus k e j)
      (hnode : s.dep.metadata t j = some e) (htype : isOutType (s.dep.elem e).type = false)
      (halive : ¬ Released s.rt (s.dep.elem e).owner)
      (hdep : s'.dep = (s.dep.insertFront c e).visit c false j)
      (hdependent : ∀ d, (s.dep.elem e).dependentMetadata = some d →
        c ≠ (s.dep.elem e).owner → s.dep.depsLast c ≠ some (s.dep.elem e).owner →
        (s.dep.elem d).owner ∈ pc'.pending s.dep)

theorem Visit.walking (hv : Visit s s' t c pc pc') : pc.walking := by
  cases hv with
  | replaces hv hk hpending hpc => exact hpc
  | joins hpc => rw [hpc]; rfl

theorem Visit.of_dep {s₂ : State ω} (hv : Visit s s' t c pc pc') (h : s₂.dep = s'.dep) :
    Visit s s₂ t c pc pc' := by
  cases hv with
  | replaces hv hk hpending hpc hdep hfound =>
    exact .replaces hv hk hpending hpc (h.trans hdep) hfound
  | joins hpc hnode htype halive hdep hdependent =>
    exact .joins hpc hnode htype halive (h.trans hdep) hdependent

theorem visit_of_createDependencies {gridT : BitVec 64} {k : Walk}
    (hok : CallOk s t c (.walk k)) :
    Quiet s { s with dep := (createDependencies gridT s.dep c t k).2 } ∨
      Visit s { s with dep := (createDependencies gridT s.dep c t k).2 } t c (.walk k)
        (createDependencies gridT s.dep c t k).1 := by
  unfold createDependencies
  split
  · rename_i j blocks hb
    have hv : Visiting s t c { k with blocks := blocks } := by
      have h := hok.2 (by simp [hb])
      exact ⟨⟨h.elemOf, h.owner, h.type⟩, h.reader⟩
    unfold createDependency
    split
    · rename_i hout
      split
      · rename_i hnone
        exact .inr (.replaces hv hout rfl rfl rfl fun e he => by simp [hnone] at he)
      · rename_i e he
        split
        · rename_i htype
          refine .inr (.replaces hv hout rfl rfl rfl fun e' he' => ?_)
          cases he.symm.trans he'
          simp [PassedOn, htype, CallPc.pending]
        · rename_i htype
          refine .inr (.replaces hv hout rfl rfl rfl fun e' he' => ?_)
          cases he.symm.trans he'
          simp [PassedOn, htype, CallPc.pending]
    · rename_i hout
      replace hout : k.out = false := by simpa using hout
      split
      · rename_i hnone
        exact .inr (.replaces hv hout rfl rfl rfl fun e he => by simp [hnone] at he)
      · rename_i e he
        split
        · rename_i htype
          refine .inr (.replaces hv hout rfl rfl rfl fun e' he' => ?_)
          cases he.symm.trans he'
          simp [PassedOn, htype, CallPc.pending]
        · exact .inl (.of_eq rfl rfl)
  · split <;> exact .inl (.of_eq rfl rfl)
  · split <;> exact .inl (.of_eq rfl rfl)
  · split <;> exact .inl (.of_eq rfl rfl)

theorem visit_of_readAfterRead {k : Walk} {j : ℕ} (hok : CallOk s t c (.ownerStatus k e j)) :
    Quiet s (readAfterRead s c t k e j).2 ∨
      Visit s (readAfterRead s c t k e j).2 t c (.ownerStatus k e j)
        (readAfterRead s c t k e j).1 := by
  obtain ⟨hv, he, hout, htype, hnode⟩ := hok
  unfold readAfterRead
  dsimp only
  split
  · rename_i halive
    have hnot : ¬ Released s.rt (s.dep.elem e).owner := by
      simp only [Released, Status.code] at halive ⊢
      omega
    split
    · rename_i hnone
      exact .inr (.joins rfl hnode htype hnot rfl fun d hd => by simp [hnone] at hd)
    · rename_i d hd
      split
      · refine .inr (.joins rfl hnode htype hnot rfl fun d' hd' _ _ => ?_)
        cases hd.symm.trans hd'
        simp [CallPc.pending]
      · rename_i hskip
        exact .inr (.joins rfl hnode htype hnot rfl fun d' _ h1 h2 => absurd ⟨h1, h2⟩ hskip)
  · rename_i hdead
    refine .inr (.replaces hv hout rfl rfl rfl fun e' he' => ?_)
    cases hnode.symm.trans he'
    have hrel : Released s.rt (s.dep.elem e).owner := by
      simp only [Released, Status.code] at hdead ⊢
      omega
    simp [PassedOn, htype, hrel]

/-- **An access of `tpc_call` visits one block at most.** -/
theorem visit_of_tpcCall {gridT : BitVec 64} (hp : (s.rt.task c).parent = some t)
    (hok : CallOk s t c pc) (h : tpcCall gridT s c pc = some (pc', s')) :
    Quiet s s' ∨ Visit s s' t c pc pc' := by
  cases pc with
  | incr =>
    rw [tpcCall, hp] at h
    cases h
    exact .inl (.of_eq rfl rfl)
  | walk k =>
    rw [tpcCall, hp] at h
    cases h
    exact visit_of_createDependencies hok
  | push k e raw =>
    have hs : notifyOwner s c k e raw = (pc', s') := Option.some.inj h
    simp only [notifyOwner] at hs
    split at hs
    · cases hs
      exact .inl (.of_eq rfl rfl)
    · split at hs <;> cases hs
      · exact .inl (.of_eq rfl rfl)
      · cases raw <;> exact .inl (.of_eq rfl rfl)
  | readers k rest =>
    have hs : notifyReaders s c k rest = (pc', s') := Option.some.inj h
    cases rest with
    | nil =>
      cases hs
      exact .inl (.of_eq rfl rfl)
    | cons y rest =>
      simp only [notifyReaders] at hs
      split at hs
      · split at hs <;> cases hs <;> exact .inl (.of_eq rfl rfl)
      · cases hs
        exact .inl (.of_eq rfl rfl)
  | ownerStatus k e j =>
    rw [tpcCall, hp, Option.map_some, Option.some.injEq] at h
    have hv := visit_of_readAfterRead hok
    rwa [h] at hv
  | pushDependent k d =>
    have hs : notifyDependent s c k d = (pc', s') := Option.some.inj h
    simp only [notifyDependent] at hs
    split at hs <;> cases hs <;> exact .inl (.of_eq rfl rfl)
  | storeCreated n => cases h
  | _ =>
    cases h
    exact .inl (.of_eq rfl rfl)

/-! ## The invariants -/

/-- The record of visits and the lookup tables belong together. -/
structure Visited (s : State ω) : Prop where
  kin : ∀ x out j, (x, out, j) ∈ s.dep.visits → ∃ p, Kin s.rt p x
  node : ∀ x out j p, (x, out, j) ∈ s.dep.visits → (s.rt.task x).parent = some p →
    ∃ e, s.dep.metadata p j = some e
  reader : ∀ p j e, s.dep.metadata p j = some e → isOutType (s.dep.elem e).type = false →
    (s.dep.elem e).owner ∈ (s.dep.elem e).readers

/-- Whoever follows the element `e` comes after `x`, a task that visited its block
by `b`. -/
def Covers (s : State ω) (e : ElemId) (b : Bool) (x : TaskId) : Prop :=
  WillFollow s (s.dep.elem e).owner x ∨
    (b = false ∧ isOutType (s.dep.elem e).type = false ∧ x ∈ (s.dep.elem e).readers)

/-- The element found at a block covers every visit of it by `b`. -/
def NodesCover (s : State ω) (b : Bool) : Prop :=
  ∀ p j e x, s.dep.metadata p j = some e → (x, b, j) ∈ s.dep.visits →
    (s.rt.task x).parent = some p → Covers s e b x

/-- A visit by `a` comes after the visits by `b` of the earlier siblings. -/
def VisitsOrdered (s : State ω) (a b : Bool) : Prop :=
  ∀ p j x t, x < t → (s.rt.task x).parent = some p → (s.rt.task t).parent = some p →
    (x, b, j) ∈ s.dep.visits → (t, a, j) ∈ s.dep.visits → WillFollow s t x

/-- Joining the readers of the element found, the task comes after every writer of
the block: it waits for it already, or for the owner of the `dependent_metadata`
of the element. -/
def JoinsBehindWriters (s : State ω) : Frame → Prop
  | .execute t _ (.call c (.ownerStatus _ e j)) =>
      ¬ Released s.rt (s.dep.elem e).owner →
      c ≠ (s.dep.elem e).owner → s.dep.depsLast c ≠ some (s.dep.elem e).owner →
      ∀ x, (x, true, j) ∈ s.dep.visits → (s.rt.task x).parent = some t →
        Follows s.rt c x ∨
          ∃ d, (s.dep.elem e).dependentMetadata = some d ∧ Follows s.rt (s.dep.elem d).owner x
  | _ => True

/-- Replacing the element found, because its owner is released, the task comes
after every reader it holds. -/
def ReplacesBehindReaders (s : State ω) : Frame → Prop
  | .execute _ _ (.call c (.ownerStatus _ e j)) =>
      Released s.rt (s.dep.elem e).owner →
      ∀ x ∈ (s.dep.elem e).readers, (x, false, j) ∈ s.dep.visits → Follows s.rt c x
  | _ => True

/-- How an order is kept from one state to the next. -/
structure Later (s s' : State ω) : Prop extends Extends s s' where
  follow : ∀ a x, WillFollow s a x → WillFollow s' a x

theorem Covers.mono (hl : Later s s') (he : e < s.dep.nextElem) (h : Covers s e b x) :
    Covers s' e b x := by
  refine h.imp (fun hf => ?_) fun ⟨hb, htype, hx⟩ => ⟨hb, ?_, hl.readers e he hx⟩
  · rw [hl.owner e he]
    exact hl.follow _ _ hf
  · rw [hl.type e he, htype]

/-! ## One visit -/

section Visit

variable [Fintype ω] [DecidableEq ω] {w : ω} {tmp : Option TaskId} {fs : List Frame}

/-- Among its siblings, only the task that is being created has pushes to come. -/
theorem follows_of_willFollow (hS : Sound s)
    (hst : s.rt.stack w = .execute t tmp (.call c pc) :: fs) (ho : (s.rt.task o).parent = some t)
    (hpending : o = c → pc.pending s.dep = []) (h : WillFollow s o x) : Follows s.rt o x := by
  rcases h with h | ⟨v, t', tmp', pc', hmem, y, hy, -⟩
  · exact h
  · obtain rfl : t' = t :=
      Option.some.inj ((hS.family.frames v _ hmem).2.symm.trans ho)
    have hsolo : (v = w → Frame.execute t' tmp' (.call o pc') ∈ fs) → False := fun hfs => by
      have := hS.tokens.runs_eq_zero (t := t') hst (by simp [Frame.runs]) hmem hfs
      simp [Frame.runs] at this
    by_cases hv : v = w
    · subst hv
      rw [hst] at hmem
      rcases List.mem_cons.1 hmem with heq | hfs
      · cases heq
        rw [hpending rfl] at hy
        cases hy
      · exact (hsolo fun _ => hfs).elim
    · exact (hsolo fun h => absurd h hv).elim

/-- **What a visit takes over.**  If the element found covers `x`, the task that
replaces it comes after `x`. -/
theorem willFollow_of_passedOn {s₂ : State ω} {out : Bool} {j : ℕ} (hS : Sound s)
    (hV : Visited s) (hl : Later s s₂)
    (hst : s.rt.stack w = .execute t tmp (.call c pc) :: fs) (hpc : pc.pending s.dep = [])
    (hnew : ∀ y ∈ pc'.pending s.dep, ∀ x, Follows s.rt y x → WillFollow s₂ c x)
    (hnode : s.dep.metadata t j = some e) (hpassed : PassedOn s out j e pc pc')
    (hcond : b = false → out = false →
      ReplacesBehindReaders s (.execute t tmp (.call c pc)))
    (hx : (x, b, j) ∈ s.dep.visits) (hcov : Covers s e b x) : WillFollow s₂ c x := by
  have hkin : Kin s.rt t (s.dep.elem e).owner := (hS.elements.table t j e hnode).owner
  rcases hcov with hfol | ⟨rfl, htype, hreader⟩
  · by_cases hself : (s.dep.elem e).owner = c
    · rw [← hself]
      exact hl.follow _ _ hfol
    · have hfol' := follows_of_willFollow hS hst hkin.parent (fun h => absurd h hself) hfol
      unfold PassedOn at hpassed
      split at hpassed
      · exact hnew _ hpassed _ hfol'
      · rename_i htype
        split at hpassed
        · exact hnew _ (hpassed (hV.reader t j e hnode (by simpa using htype))) _ hfol'
        · have hrel := hfol'.released hS.tokens hS.family hpassed.1
          exact hl.follow _ _ (.inl (.of_released hrel))
  · rw [PassedOn, htype] at hpassed
    cases out with
    | true => exact hnew x (hpassed hreader) x .refl
    | false =>
      obtain ⟨hrel, k, rfl⟩ := hpassed
      exact hl.follow _ _ (.inl (hcond rfl rfl hrel x hreader hx))

/-- Joining the readers of the element found, the task comes after the writers. -/
theorem willFollow_of_join {s₂ : State ω} {k : Walk} {j : ℕ} (hS : Sound s) (hl : Later s s₂)
    (hst : s.rt.stack w = .execute t tmp (.call c (.ownerStatus k e j)) :: fs)
    (hnew : ∀ y ∈ pc'.pending s.dep, ∀ x, Follows s.rt y x → WillFollow s₂ c x)
    (hnode : s.dep.metadata t j = some e) (halive : ¬ Released s.rt (s.dep.elem e).owner)
    (hdependent : ∀ d, (s.dep.elem e).dependentMetadata = some d →
      c ≠ (s.dep.elem e).owner → s.dep.depsLast c ≠ some (s.dep.elem e).owner →
      (s.dep.elem d).owner ∈ pc'.pending s.dep)
    (hcond : JoinsBehindWriters s (.execute t tmp (.call c (.ownerStatus k e j))))
    (hx : (x, true, j) ∈ s.dep.visits) (hp : (s.rt.task x).parent = some t)
    (hcov : Covers s e true x) : WillFollow s₂ c x := by
  have hkin : Kin s.rt t (s.dep.elem e).owner := (hS.elements.table t j e hnode).owner
  have hfol : WillFollow s (s.dep.elem e).owner x := hcov.resolve_right (by simp)
  by_cases hself : c = (s.dep.elem e).owner
  · rw [← hself] at hfol
    exact hl.follow _ _ hfol
  · by_cases hlast : s.dep.depsLast c = some (s.dep.elem e).owner
    · have hfol' := follows_of_willFollow hS hst hkin.parent (fun h => absurd h.symm hself) hfol
      exact hl.follow _ _ (.inl ((follows_of_depsLast hS.elements hlast).trans hS.tokens
        hS.family hfol'))
    · rcases hcond halive hself hlast x hx hp with hf | ⟨d, hd, hf⟩
      · exact hl.follow _ _ (.inl hf)
      · exact hnew _ (hdependent d hd hself hlast) x hf

end Visit

end Partee
