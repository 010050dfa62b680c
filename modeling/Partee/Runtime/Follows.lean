import Partee.Runtime.Elements
import Partee.Transition.Waiting

/-!
# The order that the notifications carry

A push of `a` on the stack of `b` makes `a` wait for the release of `b`.  The
order between two siblings is a chain of such pushes, cut short wherever the later
task found the earlier one released already.  While `tpc_call(a)` is in progress
some pushes are still to come: the record of the call names the tasks it will try
next, and each attempt ends with a push, or finds out that none is needed.

* `Follows r a x`: `a` waits for `x` by what has happened so far.
* `WillFollow s a x`: the same, counting the pushes that the call in progress is
  committed to.
* `WillFollow.act`: no step gives up an order that has been established.
* `released_of_follows`: a scheduled task has only released tasks before it.
-/

namespace Partee

open Transition

variable {ω : Type*}

/-- The task has been moved to `RELEASING_TASK`. -/
def Released (r : Runtime ω) (t : TaskId) : Prop :=
  Status.releasing.code ≤ (r.task t).status.code

/-- The task has been moved to `SCHEDULED_TASK`. -/
def Scheduled (r : Runtime ω) (t : TaskId) : Prop :=
  Status.scheduled.code ≤ (r.task t).status.code

/-- `a` is `x`, or waits for it through a chain of notifications, or `x` is
released. -/
def Follows (r : Runtime ω) : TaskId → TaskId → Prop :=
  Behind (fun a b => (a, b) ∈ r.hist.pushes) (Released r)

/-- The tasks whose stacks the record of `tpc_call` is committed to push on. -/
def CallPc.pending (d : Analysis) : CallPc → List TaskId
  | .push _ e _ => [(d.elem e).owner]
  | .readers _ rest => rest
  | .pushDependent _ e => [(d.elem e).owner]
  | _ => []

/-- `a` follows `x`, or it will once the call that creates it has performed the
pushes it is committed to. -/
def WillFollow (s : State ω) (a x : TaskId) : Prop :=
  Follows s.rt a x ∨ ∃ w t tmp pc, Frame.execute t tmp (.call a pc) ∈ s.rt.stack w ∧
    ∃ y ∈ pc.pending s.dep, Follows s.rt y x

variable {r r' : Runtime ω} {s s' : State ω} {a b c t x : TaskId} {tmp : Option TaskId}
  {pc pc' : CallPc}

theorem Released.mono (hg : Grows r r') (h : Released r t) : Released r' t :=
  le_trans h (hg.status t)

namespace Follows

theorem refl : Follows r a a := Behind.refl a

theorem of_push (h : (a, b) ∈ r.hist.pushes) : Follows r a b := .of_edge h

theorem of_released (h : Released r x) : Follows r a x := .of_done h

theorem mono (hg : Grows r r') (h : Follows r a x) : Follows r' a x :=
  Behind.mono (fun _ _ hab => hg.pushes hab) (fun _ => .mono hg) h

end Follows

theorem WillFollow.refl : WillFollow s a a := .inl .refl

/-! ## Chains of notifications -/

section Honest

variable [Fintype ω]

/-- A locked stack belongs to a released task. -/
theorem released_of_locked (hT : Tokens r) (h : (r.task t).toNotify = none) : Released r t := by
  have hlock := hT.locking t
  rw [h, one, if_pos rfl] at hlock
  by_cases hrel : (r.task t).status = .releasing ∨ (r.task t).status = .complete
  · rcases hrel with h | h <;> simp [Released, h, Status.code]
  · rw [one, if_neg hrel] at hlock
    omega

/-- A task is counted at every push before it is scheduled. -/
theorem released_of_push (hT : Tokens r) (hF : Family r) (hab : (a, b) ∈ r.hist.pushes)
    (ha : Scheduled r a) : Released r b := by
  have hcr : (r.task a).status ≠ .creating := fun h => by simp [Scheduled, h, Status.code] at ha
  have hnone : waiting r a = 0 := by
    have h1 := hT.notified a
    have h2 := hT.waitfor a hcr
    have h3 := hT.fired a ha
    omega
  have hlocked : (r.task b).toNotify = none := by
    by_contra hl
    obtain ⟨l, hl⟩ := Option.ne_none_iff_exists'.1 hl
    have hw : Waiter r b a := hF.pushes a b hab
    have hpos : 0 < l.count a := List.count_pos_iff.2 (hF.pushed a b hab l hl)
    have hle : l.count a ≤ waiting r a := by
      refine le_trans (le_of_eq ?_) (le_sum_range (hw.lt.trans hw.allocated))
      rw [hl, Option.getD_some]
    omega
  exact released_of_locked hT hlocked

theorem honest (hT : Tokens r) (hF : Family r) :
    Honest (fun a b => (a, b) ∈ r.hist.pushes) (Scheduled r) (Released r) where
  edge _ _ := released_of_push hT hF
  begun _ h := le_trans (by decide) h

/-- **A scheduled task follows released tasks only.** -/
theorem released_of_follows (hT : Tokens r) (hF : Family r) (h : Follows r a x)
    (ha : Scheduled r a) (hne : a ≠ x) : Released r x :=
  Behind.done_of_begun (honest hT hF) h ha hne

theorem Follows.trans (hT : Tokens r) (hF : Family r) (h : Follows r a b) (h' : Follows r b x) :
    Follows r a x :=
  Behind.trans (honest hT hF) h h'

theorem Follows.released (hT : Tokens r) (hF : Family r) (h : Follows r a x)
    (ha : Released r a) : Released r x :=
  Behind.done_of_done (honest hT hF) h ha

end Honest

/-! ## The pushes of a call -/

theorem follows_of_depsLast (hE : Elements s) {o : TaskId} (h : s.dep.depsLast c = some o) :
    Follows s.rt c o :=
  .of_push (hE.depsLast c o h)

theorem follows_of_notifyOwner [Fintype ω] (hS : Sound s) {k : Walk} {e : ElemId} {raw : Bool}
    (h : notifyOwner s c k e raw = (pc', s')) (hg : Grows s.rt s'.rt) :
    Follows s'.rt c (s.dep.elem e).owner := by
  simp only [notifyOwner] at h
  split at h
  · rename_i hskip
    rcases hskip with hself | hlast
    · rw [← hself]
      exact .refl
    · exact (follows_of_depsLast hS.elements hlast).mono hg
  · cases hpush : stackPush s.rt c (s.dep.elem e).owner with
    | none =>
      have hlocked := Option.map_eq_none_iff.1 hpush
      exact .of_released ((released_of_locked hS.tokens hlocked).mono hg)
    | some r =>
      rw [hpush] at h
      cases h
      obtain ⟨l, -, rfl⟩ := stackPush_eq_some.1 hpush
      exact .of_push (by simp)

theorem follows_of_notifyDependent [Fintype ω] (hS : Sound s) {k : Walk} {e : ElemId}
    (h : notifyDependent s c k e = (pc', s')) (hg : Grows s.rt s'.rt) :
    Follows s'.rt c (s.dep.elem e).owner := by
  simp only [notifyDependent] at h
  cases hpush : stackPush s.rt c (s.dep.elem e).owner with
  | none =>
    have hlocked := Option.map_eq_none_iff.1 hpush
    exact .of_released ((released_of_locked hS.tokens hlocked).mono hg)
  | some r =>
    rw [hpush] at h
    cases h
    obtain ⟨l, -, rfl⟩ := stackPush_eq_some.1 hpush
    exact .of_push (by simp)

/-- Of the readers, the first one is dealt with and the others remain. -/
theorem follows_of_notifyReaders [Fintype ω] (hS : Sound s) {k : Walk} {y : TaskId}
    {rest : List TaskId} (h : notifyReaders s c k (y :: rest) = (pc', s'))
    (hg : Grows s.rt s'.rt) : Follows s'.rt c y ∧ pc'.pending s'.dep = rest := by
  simp only [notifyReaders] at h
  split at h
  · cases hpush : stackPush s.rt c y with
    | none =>
      rw [hpush] at h
      cases h
      have hlocked := Option.map_eq_none_iff.1 hpush
      exact ⟨.of_released ((released_of_locked hS.tokens hlocked).mono hg), rfl⟩
    | some r =>
      rw [hpush] at h
      cases h
      obtain ⟨l, -, rfl⟩ := stackPush_eq_some.1 hpush
      exact ⟨.of_push (by simp), rfl⟩
  · rename_i hskip
    cases h
    refine ⟨?_, rfl⟩
    by_cases hself : c = y
    · rw [hself]
      exact .refl
    · have hlast : s.dep.depsLast c = some y := by
        by_contra hne
        exact hskip ⟨hself, hne⟩
      exact follows_of_depsLast hS.elements hlast

/-- **An access of `tpc_call` keeps its commitments.** -/
theorem follows_of_pending [Fintype ω] {gridT : BitVec 64} (hS : Sound s) {y : TaskId}
    (h : tpcCall gridT s c pc = some (pc', s')) (hg : Grows s.rt s'.rt)
    (hy : y ∈ pc.pending s.dep) : Follows s'.rt c y ∨ y ∈ pc'.pending s'.dep := by
  cases pc with
  | push k e raw =>
    rw [CallPc.pending, List.mem_singleton] at hy
    rw [hy]
    exact .inl (follows_of_notifyOwner hS (Option.some.inj h) hg)
  | readers k rest =>
    cases rest with
    | nil => cases hy
    | cons z rest =>
      obtain ⟨hz, hrest⟩ := follows_of_notifyReaders hS (Option.some.inj h) hg
      rcases List.mem_cons.1 hy with rfl | hmem
      · exact .inl hz
      · exact .inr (hrest ▸ hmem)
  | pushDependent k e =>
    rw [CallPc.pending, List.mem_singleton] at hy
    rw [hy]
    exact .inl (follows_of_notifyDependent hS (Option.some.inj h) hg)
  | _ => cases hy

/-! ## The steps of the system -/

variable [Fintype ω] [DecidableEq ω] {gridT : BitVec 64} {w : ω} {f : Frame} {gs fs : List Frame}

omit [Fintype ω] in
/-- Every program point of `tpc_call` but the last is an access of `tpcCall`. -/
theorem tpcCall_of_act {ch : Choice ω} (hpc : ∀ n, pc ≠ .storeCreated n)
    (h : act gridT s w (.execute t tmp (.call c pc)) ch = some (gs, s')) :
    ∃ pc', gs = [.execute t tmp (.call c pc')] ∧ tpcCall gridT s c pc = some (pc', s') := by
  cases ch with
  | go =>
    cases pc with
    | storeCreated n => exact absurd rfl (hpc n)
    | _ =>
      simp only [act, executeTask] at h
      obtain ⟨⟨pc', s₁⟩, hcall, heq⟩ := Option.map_eq_some_iff.1 h
      cases heq
      exact ⟨pc', rfl, hcall⟩
  | _ => cases pc <;> cases h

omit [Fintype ω] [DecidableEq ω] in
/-- The tasks a call is committed to are named by elements that stay. -/
theorem pending_eq (hx : Extends s s') (hok : CallOk s t c pc) :
    pc.pending s'.dep = pc.pending s.dep := by
  cases pc with
  | push k e raw => simp only [CallPc.pending, hx.owner e hok.2.allocated]
  | pushDependent k e => simp only [CallPc.pending, hx.owner e hok.2.1]
  | _ => rfl

/-- **No order is given up.** -/
theorem WillFollow.act (hS : Sound s) {ch : Choice ω} (hst : s.rt.stack w = f :: fs)
    (h : act gridT s w f ch = some (gs, s')) (hax : WillFollow s a x) :
    WillFollow { s' with rt := s'.rt.setStack w (gs ++ fs) } a x := by
  have hg : Grows s.rt s'.rt := hS.grows hst h
  have hset : Grows s'.rt (s'.rt.setStack w (gs ++ fs)) := .setStack
  rcases hax with hax | ⟨v, t, tmp, pc, hmem, y, hy, hyx⟩
  · exact .inl ((hax.mono hg).mono hset)
  · have hyx' := (hyx.mono hg).mono hset
    have hstack : s'.rt.stack = s.rt.stack := (hS.move hst h).stack_eq
    have hkept : Frame.execute t tmp (.call a pc) ∈ (s'.rt.setStack w (gs ++ fs)).stack v →
        WillFollow { s' with rt := s'.rt.setStack w (gs ++ fs) } a x := fun hmem' =>
      .inr ⟨v, t, tmp, pc, hmem', y,
        by rwa [pending_eq (hS.extends hst h) (hS.elements.calls v t tmp a pc hmem)], hyx'⟩
    rcases eq_or_ne v w with rfl | hvw
    · rw [hst] at hmem
      rcases List.mem_cons.1 hmem with rfl | hfs
      · -- the record that moves
        have hlast : ∀ n, pc ≠ .storeCreated n := by
          rintro n rfl
          cases hy
        obtain ⟨pc', rfl, hcall⟩ := tpcCall_of_act hlast h
        rcases follows_of_pending hS hcall hg hy with hfol | hpend
        · have hS' : Sound { s' with rt := s'.rt.setStack v _ } := hS.act hst h
          exact .inl ((hfol.mono hset).trans hS'.tokens hS'.family hyx')
        · exact .inr ⟨v, t, tmp, pc', by simp, y, hpend, hyx'⟩
      · exact hkept (by simp [hfs])
    · exact hkept (by simpa [hvw, hstack] using hmem)

end Partee
