import Partee.Runtime.Subtree

/-!
# Descriptors and the regions that hold them

A descriptor lives in the `task_region` of its parent, which is deleted when the
parent is released.  By then the children have performed their decrements, but
some thread may still be about to look at one of them: the thread that has stored
`EXECUTED_TASK` for a child and loads its counter, or attempts its release, while
a grandchild has released it; or the thread that remembers a zero, tests the
status of the parent and reads the parent again to call `release_task`, while that
parent has released itself.

* `Frame.touches`: the descriptors that the next access reads or writes.
* `Frame.lingers`: the records that have yet to look at a child of a task.
* `Retired`: the invariant that holds as long as no region is deleted with such
  records about.
* `no_use_after_delete`: what follows for every access.
* `load_after_delete`: a run that uses a deleted descriptor.
-/

namespace Partee

open Transition

variable {ω : Type*}

/-! ## Accesses to descriptors -/

/-- The descriptors that the next access of `tpc_call(c)` reads or writes. -/
def CallPc.touches (s : State ω) (c : TaskId) : CallPc → List TaskId
  | .incr | .walk _ => c :: (s.rt.task c).parent.toList
  | .creating | .storeWaitfor _ | .storeCreated _ => [c]
  | .push _ e _ =>
      if c = (s.dep.elem e).owner ∨ s.dep.depsLast c = some (s.dep.elem e).owner then [c]
      else [c, (s.dep.elem e).owner]
  | .readers _ [] => []
  | .readers _ (x :: _) => if c ≠ x ∧ s.dep.depsLast c ≠ some x then [c, x] else [c]
  | .ownerStatus _ e _ => (s.dep.elem e).owner :: c :: (s.rt.task c).parent.toList
  | .pushDependent _ d => [c, (s.dep.elem d).owner]

/-- The descriptors that the next access of `release_task(t)` reads or writes. -/
def ReleasePc.touches (r : Runtime ω) (t : TaskId) : ReleasePc → List TaskId
  | .cas | .lock | .storeComplete | .deleteRegion => [t]
  | .fire (x :: _) | .await x _ _ | .testStatus x _ _ | .testWaitfor x _ _ => [x]
  | .decr => t :: (r.task t).parent.toList
  | .testParent p 0 => [t, p]
  | .callParent _ => [t]
  | _ => []

/-- The descriptors that the next access of a record of worker `w` reads or
writes.  A body that spawns reads `task_region` of `parent`. -/
def Frame.touches (s : State ω) (w : ω) : Frame → Choice ω → List TaskId
  | .enter t, _ => [t]
  | .execute _ _ .body, .spawn _ => (s.rt.parent w).toList
  | .execute _ _ (.call c pc), _ => pc.touches s c
  | .execute _ _ (.sync q false), _ => [q]
  | .execute t _ .storeExecuted, _ | .execute t _ .loadChildren, _ => [t]
  | .schedule t false, _ => [t]
  | .release t pc, _ => pc.touches s.rt t
  | _, _ => []

/-- The region that holds the descriptor has been deleted. -/
def Dead (r : Runtime ω) (x : TaskId) : Prop :=
  ∃ p, (r.task x).parent = some p ∧ (r.task p).regionDeleted = true

/-- The next step does not touch a dead descriptor. -/
def NoUseAfterDelete [DecidableEq ω] (gridT : BitVec 64) (s : State ω) : Prop :=
  ∀ a s' f fs, s.rt.stack a.1 = f :: fs → step gridT s a = some s' →
    ∀ x ∈ f.touches s a.1 a.2, ¬ Dead s.rt x

/-- A record that has yet to look at the descriptor of a child of `p`, although
the child may have left: between the store of `EXECUTED_TASK` and the end of the
attempt to release it, or with a remembered zero, up to the recursive call. -/
def Frame.lingers (r : Runtime ω) (p : TaskId) : Frame → Bool
  | .execute t _ .loadChildren | .release t .cas => (r.task t).parent = some p
  | .release _ (.testParent q 0) | .release _ (.callParent q) =>
      q = p || (r.task q).parent = some p
  | _ => false

/-- A region is deleted only when the counter of its task is zero and no record
lingers at a child. -/
def Frame.deletesSafely [Fintype ω] (r : Runtime ω) : Frame → Bool
  | .release p .deleteRegion =>
      (r.task p).numberOfChildren = 0 && ∀ w, ∀ f ∈ r.stack w, f.lingers r p = false
  | _ => true

/-- The worker that moves does not delete a region too early. -/
def DeletesSafely [Fintype ω] (s : State ω) (a : ω × Choice ω) : Prop :=
  ∀ f ∈ (s.rt.stack a.1).head?, f.deletesSafely s.rt = true

instance [Fintype ω] (s : State ω) (a : ω × Choice ω) : Decidable (DeletesSafely s a) :=
  inferInstanceAs (Decidable (∀ f ∈ (s.rt.stack a.1).head?, f.deletesSafely s.rt = true))

/-- What is known about the children of a task whose region is deleted. -/
structure Retired (r : Runtime ω) : Prop where
  deleted : ∀ p, (r.task p).regionDeleted = true →
    (r.task p).status = .complete ∧ (r.task p).numberOfChildren = 0
  lingers : ∀ p, (r.task p).regionDeleted = true → ∀ w, ∀ f ∈ r.stack w, f.lingers r p = false
  leaving : ∀ w t, Frame.release t .decr ∈ r.stack w → (r.task t).regionDeleted = true
  left : ∀ t, r.hist.left t = true → (r.task t).regionDeleted = true

variable [Fintype ω] [DecidableEq ω] {r r' : Runtime ω} {w : ω} {f g : Frame} {gs fs : List Frame}
  {gridT : BitVec 64} {main : ω} {s s' : State ω} {p q c d t x : TaskId}

/-! ## The children of a deleted region -/

/-- A descriptor that no live task needs any more. -/
structure Gone (r : Runtime ω) (x : TaskId) : Prop where
  complete : (r.task x).status = .complete
  left : r.hist.left x = true
  children : (r.task x).numberOfChildren = 0

omit [DecidableEq ω] in
theorem Retired.gone (hR : Retired r) (hT : Tokens r) (hF : Family r) (hC : Children r)
    (hp : (r.task p).regionDeleted = true) (hx : (r.task x).parent = some p) : Gone r x := by
  obtain ⟨hst, h0⟩ := hR.deleted p hp
  have hcounted := counted_of_executed hT hF (p := p) (by rw [hst]; decide) hx
  have hleft := left_of_counted hT hF hC h0 hx hcounted
  exact ⟨hT.left x hleft, hleft, (hR.deleted x (hR.left x hleft)).2⟩

/-! ## The steps -/

omit [Fintype ω] in
theorem Move.parent_eq (h : Move r w f gs r') (hx : x < r.next) :
    (r'.task x).parent = (r.task x).parent := by
  cases h with
  | spawn hp => simp [hx.ne]
  | _ => simp -failIfUnchanged [Function.update_apply] <;> grind

omit [Fintype ω] in
/-- Regions are deleted by `fire_dependencies` only, and for good. -/
theorem Move.regionDeleted (h : Move r w f gs r') (ho : Owned r f) :
    (r'.task p).regionDeleted = true ↔
      (r.task p).regionDeleted = true ∨ f = .release p .deleteRegion := by
  cases h with
  | spawn hp =>
    obtain ⟨-, -, hfresh⟩ := ho
    simp [Function.update_apply]
    grind [Fresh, Descriptor.new]
  | _ =>
    simp -failIfUnchanged [Function.update_apply] <;> grind

omit [Fintype ω] in
/-- Only the decrement makes a task leave. -/
theorem Move.left_of (h : Move r w f gs r') (hl : r'.hist.left t = true) :
    r.hist.left t = true ∨ f = .release t .decr := by
  cases h with
  | @decr y q hq =>
    by_cases hty : t = y
    · exact .inr (by rw [hty])
    · exact .inl (by simpa [hty] using hl)
  | _ => exact .inl hl

omit [Fintype ω] in
/-- Only the deletion of the region is followed by the decrement. -/
theorem Move.decr_of (h : Move r w f gs r') (hg : Frame.release t .decr ∈ gs) :
    f = .release t .deleteRegion := by
  cases h with
  | @deleteRegion y =>
    simp at hg
    rw [hg]
  | _ => simp at hg

/-- The records on the stacks linger at the same children as before. -/
theorem lingers_eq (hT : Tokens r) (hF : Family r)
    (h : Move r w f gs r') {v : ω} (hg : g ∈ r.stack v) : g.lingers r' p = g.lingers r p := by
  have hok := hF.frames v g hg
  have hlt : ∀ {t}, Status.executed.code ≤ (r.task t).status.code → t < r.next := fun hex =>
    hT.lt_next fun hcr => by
      rw [hcr] at hex
      exact absurd hex (by decide)
  unfold Frame.lingers
  split
  · rw [h.parent_eq (hlt hok)]
  · rw [h.parent_eq (hlt hok.1)]
  · have hq := hF.parent_of_eq hT hok.2.2.1
    rw [h.parent_eq (hq.1.trans hq.2.1)]
  · rw [h.parent_eq (hlt hok.2.2.2.2)]
  · rfl

/-- **No record comes to linger at the children of a deleted region.** -/
theorem Retired.newLingers (hR : Retired r) (hT : Tokens r) (hF : Family r) (hC : Children r)
    (hst : r.stack w = f :: fs) (h : Move r w f gs r') (hp : (r.task p).regionDeleted = true)
    (hg : g ∈ gs) : g.lingers r' p = false := by
  have ho : Owned r f := owned_of_stack hT hF hst
  have hold : f.lingers r p = false := hR.lingers p hp w f (hst ▸ List.mem_cons_self)
  -- a child that is counted out of a task that has left would be one too many
  have hlive : ∀ {t q}, (r.task t).status = .complete → r.hist.left t = false →
      (r.task t).parent = some q → (r.task q).numberOfChildren ≠ 0 := fun {t q} hs hl hq h0 => by
    have hlt : t < r.next := hT.lt_next (by simp [hs])
    have hleft := left_of_counted hT hF hC h0 hq (hT.counted t hlt (by simp [hs]))
    rw [hl] at hleft
    cases hleft
  cases h with
  | @storeExecuted t tmp =>
    simp only [List.mem_singleton] at hg
    subst hg
    have hs : (r.task t).status = .scheduled := ho.2.1
    have hne : (r.task t).parent ≠ some p := fun hpt => by
      rw [(hR.gone hT hF hC hp hpt).complete] at hs
      cases hs
    simpa [Frame.lingers, Function.update_apply, apply_ite] using hne
  | @loadFree t tmp h0 =>
    simp only [List.mem_cons, List.not_mem_nil, or_false] at hg
    rcases hg with rfl | rfl
    · exact hold
    · rfl
  | testPass hq =>
    simp only [List.mem_singleton] at hg
    subst hg
    exact hold
  | callParent =>
    simp only [List.mem_singleton] at hg
    subst hg
    simp only [Frame.lingers, Bool.or_eq_false_iff] at hold ⊢
    exact hold.2
  | @decr t q hq =>
    simp only [List.mem_singleton] at hg
    subst hg
    obtain ⟨hs, hl, -⟩ := ho
    have hpos := hlive hs hl hq
    have hqp : q ≠ p := fun hqp => hpos (by rw [hqp]; exact (hR.deleted p hp).2)
    have hne : (r.task q).parent ≠ some p := fun hpq => hpos (hR.gone hT hF hC hp hpq).children
    unfold Frame.lingers
    split <;> simp_all
  | restore | scheduleLost | accept | releaseLost | decrRoot | testFail => cases hg
  | _ =>
    simp at hg
    rcases hg with rfl | rfl <;> rfl

/-- **Regions are deleted only when nobody needs them**, and it stays so. -/
theorem Retired.move (hR : Retired r) (hT : Tokens r) (hF : Family r) (hC : Children r)
    (hst : r.stack w = f :: fs) (h : Move r w f gs r') (hsafe : f.deletesSafely r = true) :
    Retired (r'.setStack w (gs ++ fs)) := by
  have ho : Owned r f := owned_of_stack hT hF hst
  have hg : Grows r r' := h.grows ho
  have hzero : ∀ p, (r.task p).status = .complete → (r.task p).numberOfChildren = 0 →
      (r'.task p).status = .complete ∧ (r'.task p).numberOfChildren = 0 := fun p hs h0 => by
    have hle := h.numberOfChildren_le (p := p) ho (by rw [hs]; decide)
    have hst' := hg.status p
    rw [hs] at hst'
    refine ⟨?_, by omega⟩
    cases hst'' : (r'.task p).status <;> simp_all [Status.code]
  have hdeleted : ∀ p, (r'.task p).regionDeleted = true →
      (r.task p).regionDeleted = true ∨ f = .release p .deleteRegion := fun p =>
    (h.regionDeleted ho).1
  have hkept : ∀ p, (r.task p).regionDeleted = true → (r'.task p).regionDeleted = true :=
    fun p hp => (h.regionDeleted ho).2 (.inl hp)
  have hdeletes : ∀ p, f = .release p .deleteRegion →
      (r.task p).numberOfChildren = 0 ∧ ∀ v, ∀ g ∈ r.stack v, g.lingers r p = false := by
    rintro p rfl
    simpa [Frame.deletesSafely] using hsafe
  refine ⟨fun p hp => ?_, fun p hp v g hv => ?_, fun v t hv => ?_, fun t hl => ?_⟩
  · rcases hdeleted p hp with hold | rfl
    · exact hzero p (hR.deleted p hold).1 (hR.deleted p hold).2
    · exact hzero p ho.1 (hdeletes p rfl).1
  · show g.lingers r' p = false
    rcases mem_setStack h.stack_eq hst hv with ⟨-, hgs⟩ | ⟨hold, -⟩
    · rcases hdeleted p hp with hp | rfl
      · exact hR.newLingers hT hF hC hst h hp hgs
      · cases h
        simp only [List.mem_singleton] at hgs
        rw [hgs]
        rfl
    · rw [lingers_eq hT hF h hold]
      rcases hdeleted p hp with hp | rfl
      · exact hR.lingers p hp v g hold
      · exact (hdeletes p rfl).2 v g hold
  · rcases mem_setStack h.stack_eq hst hv with ⟨-, hgs⟩ | ⟨hold, -⟩
    · obtain rfl := h.decr_of hgs
      exact (h.regionDeleted ho).2 (.inr rfl)
    · exact hkept t (hR.leaving v t hold)
  · rcases h.left_of hl with hold | rfl
    · exact hkept t (hR.left t hold)
    · exact hkept t (hR.leaving w t (hst ▸ List.mem_cons_self))

omit [Fintype ω] in
theorem Retired.init (main : ω) : Retired (init main).rt := by
  have hnone : ∀ p, ((Partee.init main).rt.task p).regionDeleted = false := fun p => by
    simp only [Partee.init]
    split <;> rfl
  refine ⟨fun p hp => ?_, fun p hp => ?_, fun w t hw => ?_, fun t hl => ?_⟩
  · simp [hnone] at hp
  · simp [hnone] at hp
  · simp only [Partee.init] at hw
    split at hw <;> simp at hw
  · simp [Partee.init] at hl

/-- **The invariant of the runs that delete safely.** -/
theorem Retired.of_run (h : Run (step gridT) DeletesSafely (Partee.init main) s) :
    Retired s.rt := by
  refine h.invariant_of (I := fun s => Retired s.rt)
    (J := fun s => Sound s ∧ Children s.rt)
    (fun s hs => ⟨Sound.of_reachable hs.reach, Children.of_reachable hs.reach⟩)
    (Retired.init main) ?_
  rintro s a s' ⟨hS, hC⟩ hR hsafe hs
  obtain ⟨f, fs, gs, s₁, hst, hact, rfl⟩ := act_of_step hs
  exact hR.move hS.tokens hS.family hC hst (hS.move hst hact) (hsafe f (by simp [hst]))

/-! ## No use after deletion -/

/-- A call touches its task, the parent, and siblings of its task. -/
theorem kin_of_touches {tmp : Option TaskId} {pc : CallPc} (hS : Sound s)
    (hst : s.rt.stack w = .execute t tmp (.call c pc) :: fs) (hx : x ∈ pc.touches s c) :
    x = t ∨ (s.rt.task x).parent = some t := by
  have hp : (s.rt.task c).parent = some t := (hS.owned hst).2.2.2.1
  have hok : CallOk s t c pc := hS.elements.calls w t tmp c pc (hst ▸ List.mem_cons_self)
  cases pc with
  | push k e raw =>
    have howner := hok.2.owner.parent
    simp only [CallPc.touches] at hx
    split at hx <;> simp at hx <;> grind
  | readers k rest =>
    cases rest with
    | nil => simp [CallPc.touches] at hx
    | cons y rest =>
      have hy := (hok.2 y List.mem_cons_self).parent
      simp only [CallPc.touches] at hx
      split at hx <;> simp at hx <;> grind
  | ownerStatus k e j =>
    have howner := hok.2.1.owner.parent
    simp [CallPc.touches, hp] at hx
    grind
  | pushDependent k d =>
    have howner := hok.2.2.2.parent
    simp [CallPc.touches] at hx
    grind
  | _ =>
    simp [CallPc.touches, hp] at hx
    grind

omit [DecidableEq ω] in
/-- A task whose release is under way is not gone, nor are its siblings. -/
theorem Retired.alive_of_releases (hS : Sound s) (hC : Children s.rt) (hR : Retired s.rt)
    (hs : (s.rt.task t).status = .releasing) (hx : x = t ∨ Waiter s.rt t x) : ¬ Dead s.rt x := by
  rintro ⟨p, hp, hdel⟩
  have hpt : (s.rt.task t).parent = some p := by
    rcases hx with rfl | hw
    · exact hp
    · obtain ⟨q, hq, hxq⟩ := hw.parent
      exact hq.trans (hxq.symm.trans hp)
  rw [(hR.gone hS.tokens hS.family hC hdel hpt).complete] at hs
  cases hs

/-- The accesses of `release_task`. -/
theorem Retired.alive_release {pc : ReleasePc} (hS : Sound s) (hC : Children s.rt)
    (hR : Retired s.rt) (hst : s.rt.stack w = .release t pc :: fs)
    (hx : x ∈ pc.touches s.rt t) : ¬ Dead s.rt x := by
  have ho := hS.owned hst
  obtain ⟨-, htargets, hok⟩ := hS.family.frames w _ (hst ▸ List.mem_cons_self)
  have hlingers := fun p hp => hR.lingers p hp w _ (hst ▸ List.mem_cons_self)
  -- `decr` has not taken place
  have hnotLeft : s.rt.hist.left t = false → x = t → ¬ Dead s.rt x := by
    rintro hl rfl ⟨p, hp, hdel⟩
    have hleft := (hR.gone hS.tokens hS.family hC hdel hp).left
    rw [hl] at hleft
    cases hleft
  cases pc with
  | cas =>
    rintro ⟨p, hp, hdel⟩
    simp only [ReleasePc.touches, List.mem_singleton] at hx
    have hno := hlingers p hdel
    simp [Frame.lingers, ← hx, hp] at hno
  | lock =>
    simp only [ReleasePc.touches, List.mem_singleton] at hx
    exact hR.alive_of_releases hS hC ho.2.1 (.inl hx)
  | storeComplete =>
    simp only [ReleasePc.touches, List.mem_singleton] at hx
    exact hR.alive_of_releases hS hC ho.1 (.inl hx)
  | deleteRegion =>
    simp only [ReleasePc.touches, List.mem_singleton] at hx
    exact hnotLeft ho.2 hx
  | decr =>
    obtain ⟨hs, hl, -⟩ := ho
    simp only [ReleasePc.touches, List.mem_cons, Option.mem_toList] at hx
    rcases hx with rfl | hq
    · exact hnotLeft hl rfl
    · -- the parent still counts the task
      rintro ⟨p, hp, hdel⟩
      have hgone := hR.gone hS.tokens hS.family hC hdel hp
      have hlt : t < s.rt.next := hS.tokens.lt_next (by simp [hs])
      have hleft := left_of_counted hS.tokens hS.family hC hgone.children hq
        (hS.tokens.counted t hlt (by simp [hs]))
      rw [hl] at hleft
      cases hleft
  | fire rest =>
    cases rest with
    | nil => simp [ReleasePc.touches] at hx
    | cons y rest =>
      simp only [ReleasePc.touches, List.mem_singleton] at hx
      exact hR.alive_of_releases hS hC ho.1 (.inr (hx ▸ ho.2.1))
  | await y n rest | testStatus y n rest | testWaitfor y n rest =>
    simp only [ReleasePc.touches, List.mem_singleton] at hx
    have hw := htargets y (by simp [ReleasePc.targets])
    exact hR.alive_of_releases hS hC ho.1 (.inr (hx ▸ hw))
  | testParent q n =>
    cases n with
    | zero =>
      rintro ⟨p, hp, hdel⟩
      have hno := hlingers p hdel
      simp only [ReleasePc.touches, List.mem_cons, List.not_mem_nil, or_false] at hx
      rcases hx with rfl | rfl
      · cases hp.symm.trans hok.1
        simp [Frame.lingers] at hno
      · simp [Frame.lingers, hp] at hno
    | succ n => simp [ReleasePc.touches] at hx
  | callParent q =>
    rintro ⟨p, hp, hdel⟩
    have hno := hlingers p hdel
    simp only [ReleasePc.touches, List.mem_singleton] at hx
    cases (hx ▸ hp).symm.trans hok.1
    simp [Frame.lingers] at hno

/-- **What the next access touches is alive.** -/
theorem Retired.alive (hS : Sound s) (hC : Children s.rt) (hR : Retired s.rt)
    (hst : s.rt.stack w = f :: fs) {ch : Choice ω} (hx : x ∈ f.touches s w ch) :
    ¬ Dead s.rt x := by
  have ho := hS.owned hst
  have hmem : f ∈ s.rt.stack w := hst ▸ List.mem_cons_self
  -- a task that has not been executed is alive, and so are its children
  have hearly : ∀ {t}, (s.rt.task t).status.code < Status.executed.code →
      x = t ∨ (s.rt.task x).parent = some t → ¬ Dead s.rt x := by
    rintro t hs hxt ⟨p, hp, hdel⟩
    have hcomplete : (s.rt.task t).status = .complete := by
      rcases hxt with rfl | hpt
      · exact (hR.gone hS.tokens hS.family hC hdel hp).complete
      · cases hp.symm.trans hpt
        exact (hR.deleted _ hdel).1
    rw [hcomplete] at hs
    exact absurd hs (by decide)
  cases f with
  | worker => simp [Frame.touches] at hx
  | enter t =>
    simp only [Frame.touches, List.mem_singleton] at hx
    exact hearly (by rw [ho.1]; decide) (.inl hx)
  | execute t tmp pc =>
    cases pc with
    | body =>
      have hparent := hS.family.workerParent w t (by rw [hst, context])
      cases ch with
      | spawn args =>
        simp only [Frame.touches, hparent, Option.toList_some, List.mem_singleton] at hx
        exact hearly (by rw [ho.1]; decide) (.inl hx)
      | _ => simp [Frame.touches] at hx
    | call c pc => exact hearly (by rw [ho.1]; decide) (kin_of_touches hS hst hx)
    | sync q working =>
      cases working with
      | false =>
        simp only [Frame.touches, List.mem_singleton] at hx
        obtain ⟨rfl, hs, -⟩ := ho
        exact hearly (by rw [hs]; decide) (.inl hx)
      | true => simp [Frame.touches] at hx
    | storeExecuted =>
      simp only [Frame.touches, List.mem_singleton] at hx
      exact hearly (by rw [ho.2.1]; decide) (.inl hx)
    | loadChildren =>
      rintro ⟨p, hp, hdel⟩
      simp only [Frame.touches, List.mem_singleton] at hx
      have hno := hR.lingers p hdel w _ hmem
      simp [Frame.lingers, ← hx, hp] at hno
    | restore => simp [Frame.touches] at hx
  | schedule t enqueue =>
    cases enqueue with
    | false =>
      simp only [Frame.touches, List.mem_singleton] at hx
      exact hearly (by rw [ho.1]; decide) (.inl hx)
    | true => simp [Frame.touches] at hx
  | release t pc => exact hR.alive_release hS hC hst hx

/-- **No descriptor is used after the region that holds it is deleted**, as long as
every region is deleted safely. -/
theorem no_use_after_delete (h : Run (step gridT) DeletesSafely (init main) s) :
    NoUseAfterDelete gridT s := fun _ _ _ _ hst _ _ hx =>
  (Retired.of_run h).alive (.of_reachable h.reach) (.of_reachable h.reach) hst hx

/-! ## Runs -/

/-- Task 2 has released its parent, task 1, whose region is deleted; the decrement
of the main program's counter is next. -/
def lastReleaseRun (v w : ω) : List (ω × Choice ω) :=
  lastChildRun v w ++ goOn w 5

theorem no_use_after_delete_example :
    ∃ s : State (Fin 2), Run (step 0) DeletesSafely (init 0) s ∧
      s.rt.stack 1 = [.release 1 .decr, .execute 2 none .restore, .worker] ∧
      Dead s.rt 2 ∧ ¬ Dead s.rt 1 := by
  have hrun : ∃ s ∈ exec (step 0) DeletesSafely (lastReleaseRun 0 1) (init (0 : Fin 2)),
      s.rt.stack 1 = [.release 1 .decr, .execute 2 none .restore, .worker] ∧
        (s.rt.task 2).parent = some 1 ∧ (s.rt.task 1).regionDeleted = true ∧
        ∃ s', step 0 s (1, .go) = some s' :=
    ⟨_, rfl, rfl, rfl, rfl, _, rfl⟩
  obtain ⟨s, hr, hst, hp, hdel, s', hs⟩ := Run.exists_of_exec hrun
  refine ⟨s, hr, hst, ⟨1, hp, hdel⟩, ?_⟩
  exact no_use_after_delete hr (1, .go) s' _ _ hst hs 1 (by simp [Frame.touches, ReleasePc.touches])

/-- Task 1 has spawned task 2, which has spawned task 3.  Task 1 is executed; task 2
has stored `EXECUTED_TASK` and is about to load its counter.  Worker `v` executes
task 3, whose release goes up the tree, releases tasks 2 and 1, and deletes the
region of task 1. -/
def lateLoadRun (v w : ω) : List (ω × Choice ω) :=
  (v, .spawn []) :: goOn v 6 ++ (v, .sync) :: (v, .go) ::
    (w, .take v 0) :: (w, .go) :: (w, .spawn []) :: goOn w 6 ++
    (w, .ret) :: goOn w 3 ++
    (w, .take w 0) :: (w, .go) :: (w, .spawn []) :: goOn w 6 ++
    (w, .ret) :: (w, .go) ::
    (v, .take w 0) :: (v, .go) :: (v, .ret) :: goOn v 23

theorem load_after_delete :
    ∃ s : State (Fin 2), Reachable 0 0 s ∧ ¬ NoUseAfterDelete 0 s := by
  have hrun : ∃ s ∈ exec (step 0) always (lateLoadRun 0 1) (init (0 : Fin 2)),
      s.rt.stack 1 = [.execute 2 none .loadChildren, .worker] ∧
        (s.rt.task 2).parent = some 1 ∧ (s.rt.task 1).regionDeleted = true ∧
        ∃ s', step 0 s (1, .go) = some s' :=
    ⟨_, rfl, rfl, rfl, rfl, _, rfl⟩
  obtain ⟨s, hr, hst, hp, hdel, s', hs⟩ := Run.exists_of_exec hrun
  refine ⟨s, hr, fun h => ?_⟩
  exact h (1, .go) s' _ _ hst hs 2 (by simp [Frame.touches]) ⟨1, hp, hdel⟩

end Partee
