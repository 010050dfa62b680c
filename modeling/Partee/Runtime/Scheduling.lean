import Partee.Runtime.Children
import Partee.Runtime.Rereads

/-!
# Scheduling, and the order of the statuses

Two readings of the tallies.  A notification is pushed, detached and counted, and
the thread whose count completes the number announced in `waitfor` is the one that
schedules the task; before that thread there is none, and besides it there is
none.  The number announced has 32 bits, so this ends with the push that makes it
`2 ^ 32`.  And whoever stores to `status` finds there the predecessor of what it
stores, whether it uses a compare-and-swap or not.

* `Frame.commits`: the threads committed to scheduling a task.
* `NotificationsCounted`: the counting and the single scheduling.
* `notifications_are_counted`, `notifications_wrap_around`: they hold below `2 ^ 32`
  pushes, and not beyond.
* `Frame.statusWrite`: the stores to `status`.
* `status_advances`: every store is one step along the order.
-/

namespace Partee

open Transition

variable {ω : Type*} [Fintype ω] [DecidableEq ω] {r r' : Runtime ω} {w : ω} {f : Frame}
  {gs fs : List Frame} {gridT : BitVec 64} {main : ω} {s s' : State ω}

/-! ## Notifications -/

/-- Committed to scheduling `t`: at the compare-and-swap, or on the way there with
a remembered value of `fired` that equals `waitfor`. -/
def Frame.commits (r : Runtime ω) (t : TaskId) (f : Frame) : ℕ :=
  f.readies t + f.awaits t (r.task t).waitfor

omit [Fintype ω] in
/-- A task becomes scheduled by the compare-and-swap of `schedule_task` only. -/
theorem Move.schedule_of (h : Move r w f gs r') {t : TaskId}
    (hne : (r.task t).status ≠ .scheduled) (hst : (r'.task t).status = .scheduled) :
    f = .schedule t false := by
  cases h with
  | @scheduleWon x hx =>
    by_cases htx : t = x
    · rw [htx]
    · exact absurd (by simpa [htx] using hst) hne
  | _ =>
    simp -failIfUnchanged [Function.update_apply] at hst
    grind [Descriptor.new]

omit [Fintype ω] in
/-- A committed thread stays committed until it has scheduled the task. -/
theorem Move.commits (h : Move r w f gs r') (ho : Owned r f) {t : TaskId}
    (hcr : (r.task t).status ≠ .creating) (hf : 0 < f.commits r t) :
    (∃ g ∈ gs, 0 < g.commits r' t) ∨ (r'.task t).status = .scheduled := by
  cases h with
  | @scheduleWon x hx =>
    have hxt : x = t := by simpa [Frame.commits, Frame.readies, Frame.awaits, Nat.pos_iff_ne_zero] using hf
    exact .inr (by simp [hxt])
  | @scheduleLost x hx => exact absurd ho.1 hx
  | @spin y x n rest hlt =>
    exact .inl ⟨_, List.mem_cons_self, hf⟩
  | @seen y x n rest hle =>
    exact .inl ⟨_, List.mem_cons_self, hf⟩
  | @statusPass y x n rest hx =>
    exact .inl ⟨_, List.mem_cons_self, hf⟩
  | @statusFail y x n rest hx =>
    obtain ⟨rfl, rfl⟩ : x = t ∧ n = (r.task t).waitfor := by
      simpa [Frame.commits, Frame.readies, Frame.awaits, Nat.pos_iff_ne_zero] using hf
    exact absurd (ho.2.2.2.2 rfl).1 hx
  | @waitforPass y x n rest hn =>
    obtain ⟨rfl, rfl⟩ : x = t ∧ n = (r.task t).waitfor := by
      simpa [Frame.commits, Frame.readies, Frame.awaits, Nat.pos_iff_ne_zero] using hf
    exact .inl ⟨_, List.mem_cons_self, by simp [Frame.commits, Frame.readies]⟩
  | @waitforFail y x n rest hn =>
    obtain ⟨rfl, rfl⟩ : x = t ∧ n = (r.task t).waitfor := by
      simpa [Frame.commits, Frame.readies, Frame.awaits, Nat.pos_iff_ne_zero] using hf
    exact absurd rfl hn
  | _ => simp [Frame.commits, Frame.readies, Frame.awaits] at hf

omit [Fintype ω] [DecidableEq ω] in
/-- What a thread remembers is reduced like what it is compared with. -/
theorem Frame.commits_wrap {t : TaskId} (hf : 0 < f.commits s.rt t) :
    0 < f.wrap.commits s.wrap.rt t := by
  cases f with
  | schedule x enqueue => exact hf
  | release x pc =>
    cases pc with
    | await y n rest | testStatus y n rest | testWaitfor y n rest =>
      obtain ⟨rfl, rfl⟩ : y = t ∧ n = (s.rt.task t).waitfor := by
        simpa [Frame.commits, Frame.readies, Frame.awaits, Nat.pos_iff_ne_zero] using hf
      simp [Frame.wrap, ReleasePc.wrap, Frame.commits, Frame.awaits]
    | _ => exact hf
  | _ => simp [Frame.commits, Frame.readies, Frame.awaits] at hf

/-- **Notifications are counted, and a task is scheduled once.**  The successful
pushes of a task are those that `fired` has counted, those detached and not yet
counted, and those still in an unlocked stack; once the task is created they are
`waitfor` many.  The task is moved to `SCHEDULED_TASK` at most once, and only
with `fired = waitfor`.  When the two agree it has been scheduled, or exactly one
thread is committed to scheduling it, and stays so until it has done it. -/
structure NotificationsCounted (gridT : BitVec 64) (s : State ω) (t : TaskId) : Prop where
  pushes : pushesOf s.rt t =
    (s.rt.task t).fired + tally (Frame.detached t) s.rt.stack + waiting s.rt t
  waitfor : (s.rt.task t).status ≠ .creating → pushesOf s.rt t = (s.rt.task t).waitfor
  once : s.rt.hist.scheduled t ≤ 1
  ready : ∀ a s', step32 gridT s a = some s' → (s.rt.task t).status ≠ .scheduled →
    (s'.rt.task t).status = .scheduled → (s.rt.task t).fired = (s.rt.task t).waitfor
  committed : (s.rt.task t).status ≠ .creating → (s.rt.task t).fired = (s.rt.task t).waitfor →
    s.rt.hist.scheduled t = 1 ∨ ∃! w, ∃ f ∈ s.rt.stack w, 0 < f.commits s.rt t
  stays : ∀ a s' f fs, s.rt.stack a.1 = f :: fs → step32 gridT s a = some s' →
    (s.rt.task t).status ≠ .creating → 0 < f.commits s.rt t →
    (∃ g ∈ s'.rt.stack a.1, 0 < g.commits s'.rt t) ∨ (s'.rt.task t).status = .scheduled

theorem children_of_run32 (h : Reach (step32 gridT) (init main) s)
    (hfew : FewPushes s.rt) : Children s.rt := by
  induction h with
  | refl => exact .init main
  | tail hr _ hs ih =>
    have hfew' := hfew.of_step32 hs
    have hS := sound_of_run32 hr hfew'
    obtain ⟨s₁, hs₁, rfl⟩ := Option.map_eq_some_iff.1 hs
    rw [wrap_rt_eq_self (hS.step hs₁) hfew]
    obtain ⟨f, fs, gs, s₂, hst, hact, rfl⟩ := act_of_step hs₁
    exact (ih hfew').move hS.tokens hS.family hst (hS.move hst hact)

/-- **The notifications of a task are counted** as long as no task has been pushed
`2 ^ 32` times. -/
theorem notifications_are_counted (h : Reach (step32 gridT) (init main) s) (hfew : FewPushes s.rt)
    (t : TaskId) : NotificationsCounted gridT s t := by
  have hS : Sound s := sound_of_run32 h hfew
  have hC : Children s.rt := children_of_run32 h hfew
  refine ⟨hS.tokens.notified t, fun hcr => (hS.tokens.waitfor t hcr).symm, ?_, ?_, ?_, ?_⟩
  · rw [hC.scheduled]
    exact one_le _
  · intro a s' hs hne hsch
    obtain ⟨s₁, hs₁, rfl⟩ := Option.map_eq_some_iff.1 hs
    obtain ⟨f, fs, gs, s₂, hst, hact, rfl⟩ := act_of_step hs₁
    obtain rfl := (hS.move hst hact).schedule_of hne hsch
    exact (hS.owned hst).2.1
  · intro hcr hfw
    have hc := hS.tokens.committed t hcr
    rw [hC.scheduled]
    by_cases hsch : Status.scheduled.code ≤ (s.rt.task t).status.code
    · exact .inl (if_pos hsch)
    · right
      have hcreated : (s.rt.task t).status = .created := by
        cases hst : (s.rt.task t).status <;> simp_all [Status.code]
      have hsum : tally (Frame.commits s.rt t) s.rt.stack = _ := tally_add
      rw [hc, one, if_pos ⟨hcreated, hfw⟩] at hsum
      exact existsUnique_of_tally_eq_one hsum
  · intro a s' f fs hst hs hcr hf
    obtain ⟨s₁, hs₁, rfl⟩ := Option.map_eq_some_iff.1 hs
    obtain ⟨f', fs', gs, s₂, hst', hact, rfl⟩ := act_of_step hs₁
    rw [hst] at hst'
    cases hst'
    have hm := hS.move hst hact
    rcases hm.commits (hS.owned hst) hcr hf with hcommits | hsch
    · left
      obtain ⟨g, hg, h0⟩ := hcommits
      refine ⟨g.wrap, ?_, Frame.commits_wrap h0⟩
      exact List.mem_map_of_mem (by simp [hg])
    · exact .inr hsch

/-- Task 1 writes block 0 and task 2 reads it; worker `w` executes task 1, whose
release has raised `fired` of task 2 and waits for it to be created. -/
def handoverRun (v w : ω) : List (ω × Choice ω) :=
  (v, .spawn [.ofBlock 0 2 0]) :: goOn v 9 ++
    (v, .spawn [.ofBlock 0 1 0]) :: goOn v 9 ++
    (w, .take v 0) :: (w, .go) :: (w, .ret) :: goOn w 5

theorem notifications_are_counted_example :
    ∃ s : State (Fin 2), Reach (step32 0) (init 0) s ∧ FewPushes s.rt ∧ pushesOf s.rt 2 = 1 ∧
      (s.rt.task 2).waitfor = 1 ∧ ∃! w, ∃ f ∈ s.rt.stack w, 0 < f.commits s.rt 2 := by
  have hrun : ∃ s ∈ exec (step 0) CountsEntries (handoverRun 0 1) (init (0 : Fin 2)),
      (s.rt.task 2).status = .created ∧ pushesOf s.rt 2 = 1 ∧
        (s.rt.task 2).fired = (s.rt.task 2).waitfor ∧ s.rt.hist.scheduled 2 = 0 ∧
        s.rt.hist.pushes.length = 1 :=
    ⟨_, rfl, rfl, rfl, rfl, rfl, rfl⟩
  obtain ⟨s, hr, hst, hp, hfw, h0, hlen⟩ := Run.exists_of_exec hrun
  have hfew : FewPushes s.rt := fewPushes_of_length (by simp [hlen])
  have hr32 : Reach (step32 0) (init 0) s := (run32_of_run hr (fun _ _ => id) hfew).reach
  have hcr : (s.rt.task 2).status ≠ .creating := by simp [hst]
  have h := notifications_are_counted hr32 hfew 2
  refine ⟨s, hr32, hfew, hp, (h.waitfor hcr).symm.trans hp, (h.committed hcr hfw).resolve_left ?_⟩
  simp [h0]

/-- A task that has been pushed `2 ^ 32` times announces fewer notifications than it is
going to get. -/
theorem notifications_wrap_around :
    ∃ s : State (Fin 2), Reach (step32 0x10000) (init 0) s ∧
      ¬ NotificationsCounted 0x10000 s 3 := by
  obtain ⟨s, hr, -, -, -, -, -, hst, hp, hlt⟩ := exists_overflow
  refine ⟨s, hr, fun h => ?_⟩
  have hw := h.waitfor (by simp [hst])
  rw [← hw, hp] at hlt
  exact absurd hlt (Nat.lt_irrefl _)

/-! ## The order of the statuses -/

/-- The store to `status` that is the next access of a record. -/
def Frame.statusWrite (r : Runtime ω) : Frame → Option (TaskId × Status)
  | .execute _ _ (.call c (.storeCreated _)) => some (c, .created)
  | .schedule t false => if (r.task t).status = .created then some (t, .scheduled) else none
  | .execute t _ .storeExecuted => some (t, .executed)
  | .release t .cas => if (r.task t).status = .executed then some (t, .releasing) else none
  | .release t .storeComplete => some (t, .complete)
  | _ => none

omit [Fintype ω] [DecidableEq ω] in
theorem Frame.statusWrite_of_walking {pc : CallPc} (hpc : pc.walking) (t c : TaskId)
    (tmp : Option TaskId) : Frame.statusWrite r (.execute t tmp (.call c pc)) = none := by
  cases pc <;> first | rfl | cases hpc

omit [Fintype ω] [DecidableEq ω] in
/-- A store to `status` finds the predecessor of the value it stores. -/
theorem Owned.statusWrite (ho : Owned r f) {t : TaskId} {st : Status}
    (hw : f.statusWrite r = some (t, st)) : st.code = (r.task t).status.code + 1 := by
  unfold Frame.statusWrite at hw
  split at hw
  · cases hw
    rw [ho.2.2.2.2.1]
    rfl
  · split at hw <;> cases hw
    rename_i hst
    rw [hst]
    rfl
  · cases hw
    rw [ho.2.1]
    rfl
  · split at hw <;> cases hw
    rename_i hst
    rw [hst]
    rfl
  · cases hw
    rw [ho.1]
    rfl
  · cases hw

omit [Fintype ω] in
/-- A step stores the value announced, and to no other status. -/
theorem Move.status_eq (h : Move r w f gs r') (ho : Owned r f) {t : TaskId} (ht : t < r.next) :
    (∃ st, f.statusWrite r = some (t, st) ∧ (r'.task t).status = st) ∨
      ((∀ st, f.statusWrite r ≠ some (t, st)) ∧ (r'.task t).status = (r.task t).status) := by
  cases h with
  | spawn hp =>
    have hne : t ≠ r.next := ht.ne
    exact .inr ⟨by simp [Frame.statusWrite], by simp [hne]⟩
  | walk hpc => exact .inr ⟨by simp [Frame.statusWrite_of_walking hpc], rfl⟩
  | push hpc =>
    refine .inr ⟨by simp [Frame.statusWrite_of_walking hpc], ?_⟩
    simp [Function.update_apply]
    grind
  | _ =>
    simp only [Owned] at ho
    simp [Frame.statusWrite, Function.update_apply] <;> grind

/-- The thread that holds the right to the next plain store to the status of `t`:
the creator, the executing worker, or the thread that releases it. -/
def Frame.holds (t : TaskId) (f : Frame) : ℕ :=
  f.creates t + f.runs t + f.releases t

omit [DecidableEq ω] in
/-- The status that a holder waits to replace. -/
theorem Sound.status_of_holds (hS : Sound s) {t : TaskId} (hf : f ∈ s.rt.stack w) :
    (0 < f.creates t → (s.rt.task t).status = .creating) ∧
      (0 < f.runs t → (s.rt.task t).status = .scheduled) ∧
      (0 < f.releases t → (s.rt.task t).status = .releasing) :=
  ⟨fun h => (hS.tokens.creates_of_mem hf h).2, fun h => (hS.tokens.runs_of_mem hf h).1,
    hS.tokens.releases_of_mem hf⟩

end Partee
