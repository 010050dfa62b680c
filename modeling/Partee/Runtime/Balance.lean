import Partee.Runtime.Family

/-!
# The tallies move with the statuses

Every step replaces the record on top of one stack and changes one descriptor.
For each weight there is one lemma, which compares the weight of the old record
with that of the new ones, and the old value announced by the status with the new
one; the two differences agree.  What makes them agree is what the record owns:
the thread that stores to `status` holds the only token of the value it replaces.

* `Move.creating_balance`, `Move.running_balance`, …: one lemma for each tally.
* `Tokens.move`, `Tokens.init`: the tallies are an invariant.
-/

namespace Partee

open Transition

variable {ω : Type*} [DecidableEq ω] {r r' : Runtime ω} {w : ω} {f g : Frame} {gs fs : List Frame}

/-! ## The entries of the `to_notify` stacks -/

omit [DecidableEq ω] in
theorem waiting_congr (hnext : r'.next = r.next)
    (h : ∀ s, (r'.task s).toNotify = (r.task s).toNotify) (t : TaskId) :
    waiting r' t = waiting r t := by
  simp only [waiting, hnext, h]

omit [DecidableEq ω] in
theorem waiting_alloc (args : List Argument) (p t : TaskId) :
    waiting (r.alloc args p) t = waiting r t := by
  have hlt : ∀ s ∈ Finset.range r.next, s ≠ r.next := fun s hs => (Finset.mem_range.1 hs).ne
  simp only [waiting, Runtime.alloc_next, Finset.sum_range_succ, Runtime.alloc_task,
    Function.update_self, Descriptor.new_toNotify, Option.getD_some, List.count_nil, add_zero]
  exact Finset.sum_congr rfl fun s hs => by rw [Function.update_of_ne (hlt s hs)]

omit [DecidableEq ω] in
/-- One stack changes. -/
theorem waiting_replace (r r' : Runtime ω) {s : TaskId} {l l' : List TaskId} (hs : s < r.next)
    (hnext : r'.next = r.next) (hl : (r.task s).toNotify.getD [] = l)
    (hl' : (r'.task s).toNotify.getD [] = l')
    (h : ∀ x, x ≠ s → (r'.task x).toNotify = (r.task x).toNotify) (t : TaskId) :
    waiting r' t + l.count t = waiting r t + l'.count t := by
  subst hl hl'
  rw [waiting, waiting, hnext]
  exact sum_range_replace (a := fun x => ((r.task x).toNotify.getD []).count t)
    (b := fun x => ((r'.task x).toNotify.getD []).count t) hs fun x hx => by rw [h x hx]

theorem Frame.uncounted_of_walking {pc : CallPc} (hpc : pc.walking) (c t c' : TaskId)
    (tmp : Option TaskId) : Frame.uncounted c (.execute t tmp (.call c' pc)) = 0 := by
  cases pc <;> first | rfl | cases hpc

theorem Frame.waitforBy_of_walking {pc : CallPc} (hpc : pc.walking) (c t c' : TaskId)
    (tmp : Option TaskId) : Frame.waitforBy c (.execute t tmp (.call c' pc)) = 0 := by
  cases pc <;> first | rfl | cases hpc

/-! ## One lemma for each tally -/

namespace Move

theorem creating_balance (h : Move r w f gs r') (ho : Owned r f) (t : TaskId) :
    (gs.map (Frame.creates t)).sum + one (t < r.next ∧ (r.task t).status = .creating) =
      f.creates t + one (t < r'.next ∧ (r'.task t).status = .creating) := by
  cases h with
  | spawn hp =>
    obtain ⟨-, -, hfresh⟩ := ho
    simp [Frame.creates, Function.update_apply, Descriptor.new]
    grind
  | _ =>
    simp only [Owned] at ho
    simp [Frame.creates, Function.update_apply] <;> grind

theorem uncounted_balance (h : Move r w f gs r') (ho : Owned r f) (t : TaskId) :
    (gs.map (Frame.uncounted t)).sum + one (t < r.next ∧ r.hist.counted t = false) =
      f.uncounted t + one (t < r'.next ∧ r'.hist.counted t = false) := by
  cases h with
  | spawn hp =>
    obtain ⟨-, -, hfresh⟩ := ho
    simp [Frame.uncounted]
    grind [Fresh]
  | walk hpc heq hpc' =>
    rcases hpc' with hpc' | rfl | rfl
    · simp [Frame.uncounted_of_walking hpc, Frame.uncounted_of_walking hpc']
    · rw [Frame.uncounted_of_walking hpc]
      simp [Frame.uncounted]
    · rw [Frame.uncounted_of_walking hpc]
      simp [Frame.uncounted]
  | push hpc hpc' =>
    simp [Frame.uncounted_of_walking hpc, Frame.uncounted_of_walking hpc']
  | _ =>
    simp only [Owned] at ho
    simp [Frame.uncounted, Function.update_apply] <;> grind

theorem running_balance (h : Move r w f gs r') (ho : Owned r f) (t : TaskId) :
    (gs.map (Frame.runs t)).sum + one ((r.task t).status = .scheduled ∧ 0 < r.hist.start t) =
      f.runs t + one ((r'.task t).status = .scheduled ∧ 0 < r'.hist.start t) := by
  cases h with
  | spawn hp =>
    obtain ⟨-, -, hfresh⟩ := ho
    simp [Frame.runs, Function.update_apply, Descriptor.new]
    grind [Fresh, Descriptor.new]
  | _ =>
    simp only [Owned] at ho
    simp [Frame.runs, Function.update_apply] <;> grind

theorem releasing_balance (h : Move r w f gs r') (ho : Owned r f) (t : TaskId) :
    (gs.map (Frame.releases t)).sum + one ((r.task t).status = .releasing) =
      f.releases t + one ((r'.task t).status = .releasing) := by
  cases h with
  | spawn hp =>
    obtain ⟨-, -, hfresh⟩ := ho
    simp [Frame.releases, Function.update_apply, Descriptor.new]
    grind [Fresh, Descriptor.new]
  | fireDone => simp [Frame.releases]
  | fire =>
    simp [Frame.releases, Function.update_apply]
    grind
  | _ =>
    simp only [Owned] at ho
    simp [Frame.releases, Function.update_apply] <;> grind

theorem locking_balance (h : Move r w f gs r') (ho : Owned r f) (t : TaskId) :
    (gs.map (Frame.locks t)).sum + one ((r'.task t).toNotify = none) +
        one ((r.task t).status = .releasing ∨ (r.task t).status = .complete) =
      f.locks t + one ((r.task t).toNotify = none) +
        one ((r'.task t).status = .releasing ∨ (r'.task t).status = .complete) := by
  cases h with
  | spawn hp =>
    obtain ⟨-, -, hfresh⟩ := ho
    simp [Frame.locks, Function.update_apply, Descriptor.new]
    grind [Fresh, Descriptor.new]
  | fireDone => simp [Frame.locks]
  | _ =>
    simp only [Owned] at ho
    simp [Frame.locks, Function.update_apply] <;> grind

theorem leaving_balance (h : Move r w f gs r') (ho : Owned r f) (t : TaskId) :
    (gs.map (Frame.leaves t)).sum + one ((r.task t).status = .complete ∧ r.hist.left t = false) =
      f.leaves t + one ((r'.task t).status = .complete ∧ r'.hist.left t = false) := by
  cases h with
  | spawn hp =>
    obtain ⟨-, -, hfresh⟩ := ho
    simp [Frame.leaves, Function.update_apply, Descriptor.new]
    grind [Fresh, Descriptor.new]
  | fireDone => simp [Frame.leaves]
  | _ =>
    simp only [Owned] at ho
    simp [Frame.leaves, Function.update_apply] <;> grind

/-- The deques and the records that carry a scheduled task. -/
theorem pending_balance [Fintype ω] (h : Move r w f gs r') (ho : Owned r f) (t : TaskId) :
    (gs.map (Frame.pending t)).sum + tally (isTask t) r'.queue +
        one ((r.task t).status = .scheduled ∧ r.hist.start t = 0) =
      f.pending t + tally (isTask t) r.queue +
        one ((r'.task t).status = .scheduled ∧ r'.hist.start t = 0) := by
  cases h with
  | @spawn _ p _ args hp =>
    obtain ⟨-, -, hfresh⟩ := ho
    have hq : (r.alloc args p).queue = r.queue := rfl
    simp [Frame.pending, Function.update_apply, Descriptor.new, hq]
    grind [Fresh, Descriptor.new]
  | @take v k x hk =>
    have hq : tally (isTask t) (r.dequeue v k).queue + isTask t x = tally (isTask t) r.queue :=
      tally_eraseIdx (isTask t) hk
    simp only [isTask] at hq
    simp [Frame.pending, ← hq]
    omega
  | @syncTake _ _ x _ v k hk =>
    have hq : tally (isTask t) (r.dequeue v k).queue + isTask t x = tally (isTask t) r.queue :=
      tally_eraseIdx (isTask t) hk
    simp only [isTask] at hq
    simp [Frame.pending, ← hq]
    omega
  | @accept x =>
    have hq : tally (isTask t) (r.enqueue w x).queue + _ = _ :=
      tally_update (isTask t) r.queue w (r.queue w ++ [x])
    simp [isTask] at hq
    simp [Frame.pending]
    omega
  | _ =>
    simp only [Owned] at ho
    simp [Frame.pending, Function.update_apply, tally] <;> grind

/-- While `t` is being created, nobody has decided to schedule it, and each value
`fired` has had is held by one thread. -/
theorem awaiting_balance (h : Move r w f gs r') (ho : Owned r f) (t : TaskId)
    (ht : (r'.task t).status = .creating) :
    (r.task t).status = .creating ∧ (gs.map (Frame.readies t)).sum = f.readies t ∧
      ∀ n, (gs.map (Frame.awaits t n)).sum + one (1 ≤ n ∧ n ≤ (r.task t).fired) =
        f.awaits t n + one (1 ≤ n ∧ n ≤ (r'.task t).fired) := by
  cases h with
  | spawn hp =>
    obtain ⟨-, -, hfresh⟩ := ho
    simp [Frame.awaits, Frame.readies, Function.update_apply, Descriptor.new] at ht ⊢
    grind [Fresh, Descriptor.new]
  | fireDone => 
    simp [Frame.awaits, Frame.readies] at ht ⊢
    exact ht
  | _ =>
    simp only [Owned] at ho
    simp [Frame.awaits, Frame.readies, Function.update_apply] at ht ⊢
    grind [Status.code]

/-- Afterwards, what is left of them moves towards the commitment to schedule it. -/
theorem committed_balance (h : Move r w f gs r') (ho : Owned r f) (t : TaskId)
    (ht : (r.task t).status ≠ .creating) (hwaitfor : (r.task t).waitfor = pushesOf r t)
    (hfired : Status.scheduled.code ≤ (r.task t).status.code → (r.task t).fired = (r.task t).waitfor) :
    (r'.task t).status ≠ .creating ∧ (r'.task t).waitfor = (r.task t).waitfor ∧
    (gs.map (Frame.readies t)).sum + (gs.map (Frame.awaits t (r.task t).waitfor)).sum +
        one ((r.task t).status = .created ∧ (r.task t).fired = (r.task t).waitfor) =
      f.readies t + f.awaits t (r.task t).waitfor +
        one ((r'.task t).status = .created ∧ (r'.task t).fired = (r.task t).waitfor) := by
  cases h with
  | spawn hp =>
    obtain ⟨-, -, hfresh⟩ := ho
    simp [Frame.awaits, Frame.readies, Function.update_apply, Descriptor.new] at ht ⊢
    grind [Fresh, Descriptor.new]
  | fireDone => 
    simp [Frame.awaits, Frame.readies] at ht ⊢
    exact ht
  | fire =>
    simp only [Owned] at ho
    have hs : (r.task t).status ≠ .created → Status.scheduled.code ≤ (r.task t).status.code := by
      cases hst : (r.task t).status <;> simp_all [Status.code] 
    simp [Frame.awaits, Frame.readies, Function.update_apply] at ht ⊢
    grind
  | _ =>
    simp only [Owned] at ho
    simp [Frame.awaits, Frame.readies, Function.update_apply] at ht ⊢
    grind [Status.code]

/-- Every push is in an unlocked stack, then in a detached one, then counted. -/
theorem notified_balance (h : Move r w f gs r') (ho : Owned r f) (t : TaskId) :
    (gs.map (Frame.detached t)).sum + (r'.task t).fired + waiting r' t + pushesOf r t =
      f.detached t + (r.task t).fired + waiting r t + pushesOf r' t := by
  have hsame : r'.next = r.next → (∀ s, (r'.task s).toNotify = (r.task s).toNotify) →
    waiting r' t = waiting r t := fun hnext hs => waiting_congr hnext hs t
  cases h with
  | spawn hp =>
    obtain ⟨-, -, hfresh⟩ := ho
    rw [waiting_alloc]
    simp [Frame.detached, Function.update_apply, Descriptor.new, pushesOf]
    grind [Fresh, Descriptor.new]
  | @push _ c s _ _ _ l hpc hpc' heq hs hl =>
    have hw : waiting (r.pushed c s l) t + l.count t = waiting r t + (c :: l).count t :=
      waiting_replace r (r.pushed c s l) (hs.1.trans ho.2.2.1) rfl (by rw [hl]; rfl) (by simp)
        (fun x hx => by simp [hx]) t
    simp [Frame.detached, Function.update_apply, pushesOf, List.count_cons] at hw ⊢
    grind
  | @lock s l hl =>
    have hw : waiting (r.locked s) t + l.count t = waiting r t + ([] : List TaskId).count t :=
      waiting_replace r (r.locked s) ho.1 rfl (by rw [hl]; rfl) (by simp) (fun x hx => by simp [hx]) t
    simp [Frame.detached, Function.update_apply, pushesOf, ReleasePc.rest] at hw ⊢
    grind
  | fire =>
    rw [hsame rfl fun s => by simp [Function.update_apply]; grind]
    simp [Frame.detached, Function.update_apply, pushesOf, ReleasePc.rest, List.count_cons]
    grind
  | _ =>
    rw [hsame rfl fun s => by simp -failIfUnchanged [Function.update_apply] <;> grind]
    simp [Frame.detached, Function.update_apply, pushesOf, ReleasePc.rest] <;> grind

/-- The thread that creates `t` counts its pushes and publishes the count. -/
theorem pushing_balance (h : Move r w f gs r') (ho : Owned r f) (t : TaskId)
    (ht : (r'.task t).status = .creating) :
    (gs.map (Frame.pushedBy t)).sum + pushesOf r t = f.pushedBy t + pushesOf r' t ∧
      (gs.map (Frame.waitforBy t)).sum + (r.task t).waitfor =
        f.waitforBy t + (r'.task t).waitfor := by
  cases h with
  | spawn hp =>
    obtain ⟨-, -, hfresh⟩ := ho
    simp [Frame.pushedBy, Frame.waitforBy, CallPc.pushed, Function.update_apply, pushesOf]
    grind [Fresh, Descriptor.new]
  | walk hpc heq hpc' =>
    rw [Frame.waitforBy_of_walking hpc]
    rcases hpc' with hpc' | rfl | rfl
    · simp [Frame.waitforBy_of_walking hpc', Frame.pushedBy, heq]
    · simp [Frame.waitforBy, Frame.pushedBy, heq]
    · simp [Frame.waitforBy, Frame.pushedBy, heq]
  | push hpc hpc' heq =>
    rw [Frame.waitforBy_of_walking hpc]
    simp [Frame.waitforBy_of_walking hpc', Frame.pushedBy, heq, pushesOf, Function.update_apply,
      List.count_cons]
    grind
  | _ =>
    simp only [Owned] at ho
    simp [Frame.pushedBy, Frame.waitforBy, CallPc.pushed, Walk.start, Function.update_apply,
      pushesOf] at ht ⊢ <;> grind

/-- The equations that hold once a task is created. -/
theorem created_facts (h : Move r w f gs r') (ho : Owned r f)
    (hwaitfor : ∀ t, (r.task t).status ≠ .creating → (r.task t).waitfor = pushesOf r t)
    (hfired : ∀ t, Status.scheduled.code ≤ (r.task t).status.code →
      (r.task t).fired = (r.task t).waitfor) (t : TaskId) :
    ((r'.task t).status ≠ .creating → (r'.task t).waitfor = pushesOf r' t) ∧
      (Status.scheduled.code ≤ (r'.task t).status.code →
        (r'.task t).fired = (r'.task t).waitfor) := by
  have hwaitfor := hwaitfor t
  have hfired := hfired t
  cases h with
  | spawn hp =>
    obtain ⟨-, -, hfresh⟩ := ho
    simp [Function.update_apply, pushesOf] at hwaitfor ⊢
    grind [Fresh, Descriptor.new, Status.code]
  | @fire _ x rest =>
    simp only [Owned] at ho
    have hne : Status.scheduled.code ≤ (r.task x).status.code →
        (r.task x).status ≠ .creating := fun hle hc => by simp [hc, Status.code] at hle
    simp [Function.update_apply, pushesOf] at hwaitfor ho ⊢
    grind
  | fireDone => exact ⟨hwaitfor, hfired⟩
  | _ =>
    simp only [Owned] at ho
    simp [Function.update_apply, pushesOf, CallPc.pushed] at hwaitfor ho ⊢
    grind [Status.code]

/-- The history of `t` agrees with its status. -/
theorem history_facts (h : Move r w f gs r') (ho : Owned r f) (t : TaskId)
    (hunstarted : (r.task t).status.code < Status.scheduled.code → r.hist.start t = 0)
    (hstarted : Status.executed.code ≤ (r.task t).status.code → 0 < r.hist.start t)
    (hcounted : t < r.next → (r.task t).status ≠ .creating → r.hist.counted t = true)
    (hleft : r.hist.left t = true → (r.task t).status = .complete) :
    ((r'.task t).status.code < Status.scheduled.code → r'.hist.start t = 0) ∧
      (Status.executed.code ≤ (r'.task t).status.code → 0 < r'.hist.start t) ∧
      (t < r'.next → (r'.task t).status ≠ .creating → r'.hist.counted t = true) ∧
      (r'.hist.left t = true → (r'.task t).status = .complete) := by
  cases h with
  | spawn hp =>
    obtain ⟨-, -, hfresh⟩ := ho
    simp [Function.update_apply]
    grind [Fresh, Descriptor.new, Status.code]
  | fireDone => exact ⟨hunstarted, hstarted, hcounted, hleft⟩
  | _ =>
    simp only [Owned] at ho
    simp -failIfUnchanged [Function.update_apply] at ho ⊢
    grind [Status.code]

/-- Descriptors that have not been allocated are not touched. -/
theorem fresh (h : Move r w f gs r') (ho : Owned r f)
    (hparent : ∀ t p, (r.task t).parent = some p → p < r.next)
    (hfresh : ∀ t, r.next ≤ t → Fresh r t) (t : TaskId) (ht : r'.next ≤ t) : Fresh r' t := by
  have hle : r.next ≤ t := (h.grows ho).next.trans ht
  obtain ⟨h1, h2, h3, h4, h5⟩ := hfresh t hle
  simp only [pushesOf] at h5
  cases h with
  | spawn hp =>
    have hne : t ≠ r.next := (Nat.lt_of_succ_le ht).ne'
    exact ⟨by simp [hne, h1], h2, h3, h4, h5⟩
  | @push _ c s _ _ _ l hpc hpc' heq hs hl =>
    have hts : t ≠ s := ((hs.1.trans ho.2.2.1).trans_le hle).ne'
    have htc : c ≠ t := (ho.2.2.1.trans_le hle).ne
    exact ⟨by simp [hts, h1], h2, h3, h4, by simpa [pushesOf, htc] using h5⟩
  | decr hp =>
    have hp := hparent _ _ hp
    simp only [Owned] at ho
    constructor <;> simp [Function.update_apply, pushesOf] <;> grind [Descriptor.new]
  | incr hp =>
    have hp := hparent _ _ hp
    simp only [Owned] at ho
    constructor <;> simp [Function.update_apply, pushesOf] <;> grind [Descriptor.new]
  | fire =>
    have hx := ho.2.1.allocated
    constructor <;> simp [Function.update_apply, pushesOf] <;> grind [Descriptor.new]
  | fireDone => exact hfresh t ht
  | _ =>
    simp only [Owned] at ho
    constructor <;> simp -failIfUnchanged [Function.update_apply, pushesOf] <;>
      grind [Descriptor.new]

end Move

/-- At the store of `CREATED_TASK`, the commitment is with the creator if nothing
was pushed, and otherwise with the thread that has counted the last push. -/
theorem Move.created_balance (h : Move r w f gs r') (ho : Owned r f) (t : TaskId)
    (ht : (r.task t).status = .creating) (ht' : (r'.task t).status ≠ .creating)
    (hle : (r.task t).fired ≤ pushesOf r t) :
    (gs.map (Frame.readies t)).sum + (gs.map (Frame.awaits t (r'.task t).waitfor)).sum +
        one (1 ≤ (r'.task t).waitfor ∧ (r'.task t).waitfor ≤ (r.task t).fired) =
      f.readies t + f.awaits t (r'.task t).waitfor +
        one ((r'.task t).status = .created ∧ (r'.task t).fired = (r'.task t).waitfor) := by
  cases h with
  | createdReady =>
    simp only [Owned] at ho
    simp [Frame.awaits, Frame.readies, CallPc.pushed, Function.update_apply] at ho ht' ⊢
    grind
  | createdWaiting =>
    simp only [Owned] at ho
    simp [Frame.awaits, Frame.readies, CallPc.pushed, Function.update_apply] at ho ht' ⊢
    grind
  | fireDone => exact absurd ht ht'
  | _ =>
    -- no other store takes a task out of `CREATING_TASK`
    simp only [Owned] at ho
    simp -failIfUnchanged [Function.update_apply] at ht' ho
    grind [Descriptor.new]

/-! ## The step -/

variable [Fintype ω]

/-- **Every tally follows its status.** -/
theorem Tokens.move (hT : Tokens r) (hF : Family r) (hst : r.stack w = f :: fs)
    (h : Move r w f gs r') : Tokens (r'.setStack w (gs ++ fs)) := by
  have ho : Owned r f := owned_of_stack hT hF hst
  have hstack : (r'.setStack w (gs ++ fs)).stack = Function.update r.stack w (gs ++ fs) := by
    funext v
    rw [Runtime.setStack_stack, h.stack_eq]
  have hkeep : ∀ wt : Frame → ℕ, tally wt (r'.setStack w (gs ++ fs)).stack + wt f =
      tally wt r.stack + (gs.map wt).sum := fun wt => by rw [hstack, tally_replace wt hst]
  have hcreated := h.created_facts ho hT.waitfor hT.fired
  have hhist := fun t =>
    h.history_facts ho t (hT.unstarted t) (hT.started t) (hT.counted t) (hT.left t)
  have hparent : ∀ t p, (r.task t).parent = some p → p < r.next := fun t p hp =>
    let hpt := hF.parent_of_eq hT hp
    hpt.1.trans hpt.2.1
  exact
    { fresh := fun t ht =>
        let hf := h.fresh ho hparent hT.fresh t ht
        ⟨hf.task, hf.counted, hf.left, hf.start, hf.pushes⟩
      creating := fun t => by
        have := hkeep (Frame.creates t)
        have := h.creating_balance ho t
        have := hT.creating t
        simp only [Runtime.setStack_task, Runtime.setStack_next]
        omega
      uncounted := fun t => by
        have := hkeep (Frame.uncounted t)
        have := h.uncounted_balance ho t
        have := hT.uncounted t
        simp only [Runtime.setStack_hist, Runtime.setStack_next]
        omega
      pending := fun t => by
        have := hkeep (Frame.pending t)
        have := h.pending_balance ho t
        have := hT.pending t
        have hq : (r'.setStack w (gs ++ fs)).queue = r'.queue := rfl
        simp only [Runtime.setStack_task, Runtime.setStack_hist, hq]
        omega
      running := fun t => by
        have := hkeep (Frame.runs t)
        have := h.running_balance ho t
        have := hT.running t
        simp only [Runtime.setStack_task, Runtime.setStack_hist]
        omega
      releasing := fun t => by
        have := hkeep (Frame.releases t)
        have := h.releasing_balance ho t
        have := hT.releasing t
        simp only [Runtime.setStack_task]
        omega
      locking := fun t => by
        have := hkeep (Frame.locks t)
        have := h.locking_balance ho t
        have := hT.locking t
        simp only [Runtime.setStack_task]
        omega
      leaving := fun t => by
        have := hkeep (Frame.leaves t)
        have := h.leaving_balance ho t
        have := hT.leaving t
        simp only [Runtime.setStack_task, Runtime.setStack_hist]
        omega
      awaiting := fun t ht => by
        obtain ⟨hcr, hreadies, hawaits⟩ := h.awaiting_balance ho t ht
        obtain ⟨h0, hn⟩ := hT.awaiting t hcr
        refine ⟨?_, fun n => ?_⟩
        · have := hkeep (Frame.readies t)
          omega
        · have := hkeep (Frame.awaits t n)
          have := hawaits n
          have := hn n
          simp only [Runtime.setStack_task]
          omega
      committed := fun t ht => by
        by_cases hcr : (r.task t).status = .creating
        · have hle : (r.task t).fired ≤ pushesOf r t := by
            have := hT.notified t
            omega
          have hb := h.created_balance ho t hcr ht hle
          have := hkeep (Frame.readies t)
          have := hkeep (Frame.awaits t (r'.task t).waitfor)
          have := (hT.awaiting t hcr).1
          have := (hT.awaiting t hcr).2 (r'.task t).waitfor
          simp only [Runtime.setStack_task]
          omega
        · obtain ⟨-, hw, hb⟩ := h.committed_balance ho t hcr (hT.waitfor t hcr) (hT.fired t)
          have := hkeep (Frame.readies t)
          have := hkeep (Frame.awaits t (r.task t).waitfor)
          have := hT.committed t hcr
          simp only [Runtime.setStack_task, hw]
          omega
      notified := fun t => by
        have := hkeep (Frame.detached t)
        have := h.notified_balance ho t
        have := hT.notified t
        have hp : pushesOf (r'.setStack w (gs ++ fs)) t = pushesOf r' t := rfl
        have hw : waiting (r'.setStack w (gs ++ fs)) t = waiting r' t := rfl
        simp only [Runtime.setStack_task, hp, hw]
        omega
      pushing := fun t ht => by
        obtain ⟨hcr, -, -⟩ := h.awaiting_balance ho t ht
        obtain ⟨hp, hw⟩ := h.pushing_balance ho t ht
        obtain ⟨h1, h2⟩ := hT.pushing t hcr
        have := hkeep (Frame.pushedBy t)
        have := hkeep (Frame.waitforBy t)
        have hp : pushesOf (r'.setStack w (gs ++ fs)) t = pushesOf r' t := rfl
        simp only [Runtime.setStack_task, hp]
        omega
      waitfor := fun t => (hcreated t).1
      fired := fun t => (hcreated t).2
      unstarted := fun t => (hhist t).1
      started := fun t => (hhist t).2.1
      counted := fun t => (hhist t).2.2.1
      left := fun t => (hhist t).2.2.2 }

theorem tally_init (main : ω) {wt : Frame → ℕ} (hwt : wt .worker = 0) :
    tally wt (init main).rt.stack = wt (.execute mainTask none .body) := by
  rw [tally, Finset.sum_eq_single main]
  · simp [init]
  · intro v _ hv
    simp [init, hv, hwt]
  · exact fun h => absurd (Finset.mem_univ main) h

theorem tally_queue_init (main : ω) (t : TaskId) : tally (isTask t) (init main).rt.queue = 0 := by
  rw [tally_eq_zero]
  intro w x hx
  cases hx

omit [Fintype ω] in
/-- The descriptors at the start. -/
theorem task_init (main : ω) (t : TaskId) :
    ((init main).rt.task t).status = (if t = mainTask then .scheduled else .creating) ∧
      ((init main).rt.task t).waitfor = 0 ∧ ((init main).rt.task t).fired = 0 ∧
      ((init main).rt.task t).toNotify = some [] := by
  simp only [init]
  split <;> exact ⟨rfl, rfl, rfl, rfl⟩

/-- **The tallies at the start.** -/
theorem Tokens.init (main : ω) : Tokens (init main).rt := by
  have hstatus := fun t => (task_init main t).1
  have hwaitfor := fun t => (task_init main t).2.1
  have hfired := fun t => (task_init main t).2.2.1
  have hnotify := fun t => (task_init main t).2.2.2
  have hwaiting : ∀ t, waiting (Partee.init main).rt t = 0 := fun t => by simp [waiting, hnotify]
  have hpushes : ∀ t, pushesOf (Partee.init main).rt t = 0 := fun t => rfl
  have hcounted : ∀ t, (Partee.init main).rt.hist.counted t = decide (t = mainTask) := fun t => rfl
  have hstart : ∀ t, (Partee.init main).rt.hist.start t = if t = mainTask then 1 else 0 :=
    fun t => rfl
  have hnext : (Partee.init main).rt.next = 1 := rfl
  constructor <;> intro t
  case fresh =>
    intro ht
    have hne : t ≠ mainTask := (Nat.lt_of_succ_le ht).ne'
    exact ⟨if_neg hne, by simp [hcounted, hne], rfl, by simp [hstart, hne], rfl⟩
  case pending =>
    rw [tally_init main rfl, tally_queue_init, hstatus, hstart]
    simp [Frame.pending]
  case awaiting =>
    refine fun _ => ⟨by rw [tally_init main rfl]; rfl, fun n => ?_⟩
    rw [tally_init main rfl, hfired]
    simp [Frame.awaits]
    omega
  case committed =>
    rw [tally_init main rfl, tally_init main rfl, hstatus]
    simp [Frame.readies, Frame.awaits]
    grind
  case locking => 
    rw [tally_init main rfl, hnotify, hstatus]
    simp [Frame.locks]
    grind
  case notified => rw [tally_init main rfl, hwaiting, hfired]; rfl
  case pushing =>
    rw [tally_init main rfl, tally_init main rfl, hwaitfor]
    exact fun _ => ⟨rfl, rfl⟩
  case left => exact fun h => by cases h
  case waitfor => exact fun _ => hwaitfor t
  case fired => exact fun _ => (hfired t).trans (hwaitfor t).symm
  case unstarted =>
    rw [hstatus, hstart]
    split <;> simp [Status.code]
  case started =>
    rw [hstatus, hstart]
    split <;> simp [Status.code]
  case counted =>
    rw [hstatus, hcounted]
    simp
  all_goals
    rw [tally_init main rfl]
    simp [Frame.creates, Frame.uncounted, Frame.runs, Frame.releases, Frame.leaves, hstatus,
      hcounted, hstart, hnext]
    grind [mainTask]

end Partee
