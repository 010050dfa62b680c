import Partee.Runtime.Tokens

/-!
# Who belongs to whom

The records name descriptors, and the descriptors name each other: a task its
parent, a `to_notify` stack the siblings that wait for its owner.  `Family`
collects what relates these names and holds at every step whatever the
dependences are.  Two facts carry most of the later arguments.  A task is
allocated after its parent was started, so going up the tree both the address and
the starting time decrease.  And a push goes from a task to an earlier sibling, so
going along the notifications the address decreases inside one family.

* `Grows`: what never decreases.
* `FrameOk`: what a record says about the descriptors it names.
* `Bracketed`: the values of `curr_task` saved on a stack.
* `Family`: the invariant.
-/

namespace Partee

open Transition

variable {ω : Type*}

/-! ## What never decreases -/

/-- `r'` is not earlier than `r`. -/
structure Grows (r r' : Runtime ω) : Prop where
  next : r.next ≤ r'.next
  args : ∀ t < r.next, (r'.task t).args = (r.task t).args
  parent : ∀ t p, (r.task t).parent = some p → (r'.task t).parent = some p
  status : ∀ t, (r.task t).status.code ≤ (r'.task t).status.code
  fired : ∀ t, (r.task t).fired ≤ (r'.task t).fired
  counted : ∀ t, r.hist.counted t = true → r'.hist.counted t = true
  left : ∀ t, r.hist.left t = true → r'.hist.left t = true
  start : ∀ t, 0 < r.hist.start t → r'.hist.start t = r.hist.start t
  pushes : r.hist.pushes ⊆ r'.hist.pushes

theorem Grows.refl (r : Runtime ω) : Grows r r :=
  ⟨le_rfl, fun _ _ => rfl, fun _ _ => id, fun _ => le_rfl, fun _ => le_rfl, fun _ => id, fun _ => id,
    fun _ _ => rfl, List.Subset.refl _⟩

theorem Grows.trans {r r' r'' : Runtime ω} (h : Grows r r') (h' : Grows r' r'') : Grows r r'' where
  next := h.next.trans h'.next
  args t ht := (h'.args t (ht.trans_le h.next)).trans (h.args t ht)
  parent t p hp := h'.parent t p (h.parent t p hp)
  status t := (h.status t).trans (h'.status t)
  fired t := (h.fired t).trans (h'.fired t)
  counted t ht := h'.counted t (h.counted t ht)
  left t ht := h'.left t (h.left t ht)
  start t h0 := (h'.start t (by rwa [h.start t h0])).trans (h.start t h0)
  pushes := List.Subset.trans h.pushes h'.pushes

theorem Grows.setStack [DecidableEq ω] {r : Runtime ω} {w : ω} {l : List Frame} :
    Grows r (r.setStack w l) :=
  ⟨le_rfl, fun _ _ => rfl, fun _ _ => id, fun _ => le_rfl, fun _ => le_rfl, fun _ => id, fun _ => id,
    fun _ _ => rfl, List.Subset.refl _⟩

/-- `x` waits for the release of its earlier sibling `s`, or has waited. -/
structure Waiter (r : Runtime ω) (s x : TaskId) : Prop where
  lt : s < x
  allocated : x < r.next
  parent : ∃ p, (r.task s).parent = some p ∧ (r.task x).parent = some p
  sibling_counted : r.hist.counted s = true
  counted : r.hist.counted x = true

theorem Waiter.mono {r r' : Runtime ω} {s x : TaskId} (hg : Grows r r') (h : Waiter r s x) :
    Waiter r' s x where
  lt := h.lt
  allocated := h.allocated.trans_le hg.next
  parent := h.parent.imp fun p hp => ⟨hg.parent s p hp.1, hg.parent x p hp.2⟩
  sibling_counted := hg.counted s h.sibling_counted
  counted := hg.counted x h.counted

/-! ## The records -/

/-- The tasks a release still has to do with, but for its own. -/
def ReleasePc.targets : ReleasePc → List TaskId
  | .fire rest => rest
  | .await x _ rest | .testStatus x _ rest | .testWaitfor x _ rest => x :: rest
  | _ => []

/-- What a release at `pc` says about the descriptors it names. -/
def ReleaseOk (r : Runtime ω) (t : TaskId) : ReleasePc → Prop
  | .await x n _ => 1 ≤ n ∧ n ≤ (r.task x).fired
  | .testStatus x n _ | .testWaitfor x n _ =>
      1 ≤ n ∧ n ≤ (r.task x).fired ∧ Status.created.code ≤ (r.task x).status.code
  | .testParent p _ => (r.task t).parent = some p ∧ r.hist.left t = true
  | .callParent p => (r.task t).parent = some p ∧ r.hist.left t = true ∧
      Status.executed.code ≤ (r.task p).status.code
  | _ => True

/-- What a record says about the descriptors it names. -/
def FrameOk (r : Runtime ω) : Frame → Prop
  | .execute t _ (.call c _) => c < r.next ∧ (r.task c).parent = some t
  | .execute t _ (.sync q _) => q = t
  | .execute t _ .storeExecuted => t ≠ mainTask
  | .execute t _ .loadChildren | .execute t _ .restore =>
      Status.executed.code ≤ (r.task t).status.code
  | .release t pc =>
      Status.executed.code ≤ (r.task t).status.code ∧ (∀ x ∈ pc.targets, Waiter r t x) ∧
        ReleaseOk r t pc
  | _ => True

/-- The task that is running on a stack. -/
def context : List Frame → Option TaskId
  | .execute t _ _ :: _ => some t
  | _ :: fs => context fs
  | [] => none

/-- Every saved `curr_task` is the task that is running below. -/
def Bracketed : List Frame → Prop
  | .execute _ tmp _ :: fs => tmp = context fs ∧ Bracketed fs
  | _ :: fs => Bracketed fs
  | [] => True

/-- Names and their owners. -/
structure Family (r : Runtime ω) : Prop where
  main : (r.task mainTask).status = .scheduled
  root : (r.task mainTask).parent = none
  parent : ∀ t < r.next, t ≠ mainTask →
    ∃ p < t, (r.task t).parent = some p ∧ 0 < r.hist.start p
  older : ∀ t p, (r.task t).parent = some p → 0 < r.hist.start t →
    r.hist.start p < r.hist.start t
  clock : ∀ t, r.hist.start t ≤ r.hist.clock
  stacked : ∀ s l, (r.task s).toNotify = some l → ∀ x ∈ l, Waiter r s x
  pushes : ∀ x s, (x, s) ∈ r.hist.pushes → Waiter r s x
  /-- An unlocked stack has lost nothing. -/
  pushed : ∀ x s, (x, s) ∈ r.hist.pushes → ∀ l, (r.task s).toNotify = some l → x ∈ l
  frames : ∀ w, ∀ f ∈ r.stack w, FrameOk r f
  /-- No task is allocated by a parent inside `tpc_call`. -/
  latest : ∀ w t tmp c pc, Frame.execute t tmp (.call c pc) ∈ r.stack w →
    ∀ x, (r.task x).parent = some t → x ≤ c
  bracketed : ∀ w, Bracketed (r.stack w)
  currTask : ∀ w, r.currTask w = context (r.stack w)
  workerParent : ∀ w t, context (r.stack w) = some t → r.parent w = some t

/-! ## The innermost record -/

/-- What the tallies and the names say about the innermost record of a worker. -/
def Owned (r : Runtime ω) : Frame → Prop
  | .worker => True
  | .enter t => (r.task t).status = .scheduled ∧ r.hist.start t = 0
  | .execute t _ (.call c pc) =>
      (r.task t).status = .scheduled ∧ 0 < r.hist.start t ∧ c < r.next ∧
        (r.task c).parent = some t ∧
        (r.task c).status = .creating ∧ (r.hist.counted c = false ↔ pc = .incr) ∧
        pushesOf r c = pc.pushed ∧
        (r.task c).waitfor = match pc with | .storeCreated n => n | _ => 0
  | .execute t _ .body =>
      (r.task t).status = .scheduled ∧ 0 < r.hist.start t ∧ Fresh r r.next
  | .execute t _ (.sync q _) =>
      q = t ∧ (r.task t).status = .scheduled ∧ 0 < r.hist.start t
  | .execute t _ .storeExecuted =>
      t ≠ mainTask ∧ (r.task t).status = .scheduled ∧ 0 < r.hist.start t
  | .execute t _ .loadChildren | .execute t _ .restore =>
      Status.executed.code ≤ (r.task t).status.code
  | .schedule t false =>
      (r.task t).status = .created ∧ (r.task t).fired = (r.task t).waitfor ∧
        r.hist.start t = 0
  | .schedule t true => (r.task t).status = .scheduled ∧ r.hist.start t = 0
  | .release t pc =>
      match pc with
      | .cas => Status.executed.code ≤ (r.task t).status.code
      | .testParent p _ => (r.task t).parent = some p ∧ r.hist.left t = true
      | .callParent p => (r.task t).parent = some p ∧ r.hist.left t = true ∧
          Status.executed.code ≤ (r.task p).status.code
      | .lock => t < r.next ∧ (r.task t).status = .releasing ∧ (r.task t).toNotify ≠ none
      | .fire [] | .storeComplete => (r.task t).status = .releasing ∧ r.hist.left t = false
      | .deleteRegion => (r.task t).status = .complete ∧ r.hist.left t = false
      | .decr => (r.task t).status = .complete ∧ r.hist.left t = false ∧
          (r.task t).parent ≠ none
      | .fire (x :: _) => (r.task t).status = .releasing ∧ Waiter r t x ∧
          (r.task x).fired < pushesOf r x
      | .await x n _ => (r.task t).status = .releasing ∧ 1 ≤ n ∧ n ≤ (r.task x).fired
      | .testStatus x n _ | .testWaitfor x n _ =>
          (r.task t).status = .releasing ∧ 1 ≤ n ∧ n ≤ (r.task x).fired ∧
            (r.task x).status ≠ .creating ∧ ((r.task x).waitfor = n → 
              (r.task x).status = .created ∧ (r.task x).fired = n)

variable [Fintype ω] [DecidableEq ω] {r r' : Runtime ω} {w : ω} {f : Frame} {gs fs : List Frame}

namespace Tokens

omit [DecidableEq ω]

theorem runs_of_mem (hT : Tokens r) {t : TaskId} (hf : f ∈ r.stack w) (h1 : 1 ≤ f.runs t) :
    (r.task t).status = .scheduled ∧ 0 < r.hist.start t :=
  holds_of_tally (hT.running t).le hf h1

theorem pending_of_mem (hT : Tokens r) {t : TaskId} (hf : f ∈ r.stack w) (h1 : 1 ≤ f.pending t) :
    (r.task t).status = .scheduled ∧ r.hist.start t = 0 :=
  holds_of_tally ((Nat.le_add_right _ _).trans (hT.pending t).le) hf h1

theorem creates_of_mem (hT : Tokens r) {c : TaskId} (hf : f ∈ r.stack w) (h1 : 1 ≤ f.creates c) :
    c < r.next ∧ (r.task c).status = .creating :=
  holds_of_tally (hT.creating c).le hf h1

theorem releases_of_mem (hT : Tokens r) {t : TaskId} (hf : f ∈ r.stack w)
    (h1 : 1 ≤ f.releases t) : (r.task t).status = .releasing :=
  holds_of_tally (hT.releasing t).le hf h1

theorem leaves_of_mem (hT : Tokens r) {t : TaskId} (hf : f ∈ r.stack w) (h1 : 1 ≤ f.leaves t) :
    (r.task t).status = .complete ∧ r.hist.left t = false :=
  holds_of_tally (hT.leaving t).le hf h1

theorem readies_of_mem (hT : Tokens r) {t : TaskId} (hf : f ∈ r.stack w) (h1 : 1 ≤ f.readies t) :
    (r.task t).status = .created ∧ (r.task t).fired = (r.task t).waitfor := by
  have hle : f.readies t ≤ tally (Frame.readies t) r.stack := le_tally hf
  have hne : (r.task t).status ≠ .creating := fun h => by
    have := (hT.awaiting t h).1
    omega
  exact holds_of_tally ((Nat.le_add_right _ _).trans (hT.committed t hne).le) hf h1

theorem awaits_of_mem (hT : Tokens r) {t : TaskId} (hf : f ∈ r.stack w)
    (h1 : 1 ≤ f.awaits t (r.task t).waitfor) (hne : (r.task t).status ≠ .creating) :
    (r.task t).status = .created ∧ (r.task t).fired = (r.task t).waitfor :=
  holds_of_tally ((Nat.le_add_left _ _).trans (hT.committed t hne).le) hf h1

theorem fired_lt_of_mem (hT : Tokens r) {t : TaskId} (hf : f ∈ r.stack w)
    (h1 : 1 ≤ f.detached t) : (r.task t).fired < pushesOf r t := by
  have hle : f.detached t ≤ tally (Frame.detached t) r.stack := le_tally hf
  have := hT.notified t
  omega

theorem left_eq_false (hT : Tokens r) {t : TaskId} (h : (r.task t).status ≠ .complete) :
    r.hist.left t = false := by
  rw [← Bool.not_eq_true]
  exact fun hl => h (hT.left t hl)

theorem lt_next (hT : Tokens r) {t : TaskId} (h : (r.task t).status ≠ .creating) : t < r.next := by
  by_contra hlt
  exact h (by rw [(hT.fresh t (Nat.le_of_not_lt hlt)).task, Descriptor.new_status])

variable [DecidableEq ω]

/-- What the record that creates `c` knows, since there is only one. -/
theorem creator (hT : Tokens r) {t c : TaskId} {tmp : Option TaskId} {pc : CallPc}
    (hst : r.stack w = .execute t tmp (.call c pc) :: fs) :
    (r.hist.counted c = false ↔ pc = .incr) ∧ pushesOf r c = pc.pushed ∧
      (r.task c).waitfor = Frame.waitforBy c (.execute t tmp (.call c pc)) := by
  have hf : Frame.execute t tmp (.call c pc) ∈ r.stack w := hst ▸ List.mem_cons_self
  have h1 : 1 ≤ Frame.creates c (.execute t tmp (.call c pc)) := by simp [Frame.creates]
  obtain ⟨hlt, hcr⟩ := hT.creates_of_mem hf h1
  have hsolo : tally (Frame.creates c) r.stack ≤ 1 := (hT.creating c).trans_le (one_le _)
  have huncounted : tally (Frame.uncounted c) r.stack = _ :=
    tally_eq_of_solo hsolo hst h1 fun g hg => by
      unfold Frame.creates at hg
      unfold Frame.uncounted
      grind
  have hpushed : tally (Frame.pushedBy c) r.stack = _ :=
    tally_eq_of_solo hsolo hst h1 fun g hg => by
      unfold Frame.creates at hg
      unfold Frame.pushedBy
      grind
  have hwaitfor : tally (Frame.waitforBy c) r.stack = _ :=
    tally_eq_of_solo hsolo hst h1 fun g hg => by
      unfold Frame.creates at hg
      unfold Frame.waitforBy
      grind
  rw [hT.uncounted] at huncounted
  rw [(hT.pushing c hcr).1] at hpushed
  rw [(hT.pushing c hcr).2] at hwaitfor
  refine ⟨?_, by simpa [Frame.pushedBy] using hpushed, hwaitfor⟩
  cases pc <;> simp [Frame.uncounted, hlt] at huncounted ⊢ <;> exact huncounted

end Tokens

theorem owned_of_stack (hT : Tokens r) (hF : Family r) (hst : r.stack w = f :: fs) :
    Owned r f := by
  have hf : f ∈ r.stack w := hst ▸ List.mem_cons_self
  have hok : FrameOk r f := hF.frames w f hf
  cases f with
  | worker => trivial
  | enter t => exact hT.pending_of_mem hf (by simp [Frame.pending])
  | execute t tmp pc =>
    cases pc with
    | call c pc =>
      obtain ⟨hs, h0⟩ := hT.runs_of_mem (t := t) hf (by simp [Frame.runs])
      obtain ⟨hlt, hcr⟩ := hT.creates_of_mem (c := c) hf (by simp [Frame.creates])
      obtain ⟨hu, hp, hw⟩ := hT.creator hst
      refine ⟨hs, h0, hlt, hok.2, hcr, hu, hp, hw.trans ?_⟩
      cases pc <;> simp [Frame.waitforBy]
    | body =>
      obtain ⟨hs, h0⟩ := hT.runs_of_mem (t := t) hf (by simp [Frame.runs])
      exact ⟨hs, h0, hT.fresh _ le_rfl⟩
    | sync q working => exact ⟨hok, hT.runs_of_mem hf (by simp [Frame.runs])⟩
    | storeExecuted => exact ⟨hok, hT.runs_of_mem hf (by simp [Frame.runs])⟩
    | loadChildren => exact hok
    | restore => exact hok
  | schedule t enqueue =>
    cases enqueue with
    | false =>
      obtain ⟨hs, hfired⟩ := hT.readies_of_mem (t := t) hf (by simp [Frame.readies])
      exact ⟨hs, hfired, hT.unstarted t (by rw [hs]; decide)⟩
    | true => exact hT.pending_of_mem hf (by simp [Frame.pending])
  | release t pc =>
    obtain ⟨hex, htargets, hpc⟩ := hok
    cases pc with
    | cas => exact hex
    | testParent p n | callParent p => exact hpc
    | lock =>
      have hs := hT.releases_of_mem (t := t) hf (by simp [Frame.releases])
      refine ⟨hT.lt_next (by simp [hs]), hs, fun hl => ?_⟩
      have h1 : 1 ≤ tally (Frame.locks t) r.stack := 
        le_trans (by simp [Frame.locks]) (le_tally hf)
      have h2 := hT.locking t
      have h3 := one_le ((r.task t).status = .releasing ∨ (r.task t).status = .complete)
      rw [one, if_pos hl] at h2
      omega
    | fire rest =>
      have hs := hT.releases_of_mem (t := t) hf (by simp [Frame.releases])
      cases rest with
      | nil => exact ⟨hs, hT.left_eq_false (by simp [hs])⟩
      | cons x rest =>
        exact ⟨hs, htargets x (by simp [ReleasePc.targets]),
          hT.fired_lt_of_mem hf (by simp [Frame.detached, ReleasePc.rest])⟩
    | await x n rest => exact ⟨hT.releases_of_mem hf (by simp [Frame.releases]), hpc⟩
    | testStatus x n rest =>
      obtain ⟨hn, hle, hcr⟩ := hpc
      have hne : (r.task x).status ≠ .creating := fun h => by simp [h, Status.code] at hcr
      refine ⟨hT.releases_of_mem hf (by simp [Frame.releases]), hn, hle, hne, fun hw => ?_⟩
      rw [← hw]
      exact hT.awaits_of_mem hf (by simp [Frame.awaits, hw]) hne
    | testWaitfor x n rest =>
      obtain ⟨hn, hle, hcr⟩ := hpc
      have hne : (r.task x).status ≠ .creating := fun h => by simp [h, Status.code] at hcr
      refine ⟨hT.releases_of_mem hf (by simp [Frame.releases]), hn, hle, hne, fun hw => ?_⟩
      rw [← hw]
      exact hT.awaits_of_mem hf (by simp [Frame.awaits, hw]) hne
    | storeComplete =>
      have hs := hT.releases_of_mem (t := t) hf (by simp [Frame.releases])
      exact ⟨hs, hT.left_eq_false (by simp [hs])⟩
    | deleteRegion => exact hT.leaves_of_mem hf (by simp [Frame.leaves])
    | decr =>
      obtain ⟨hs, hl⟩ := hT.leaves_of_mem (t := t) hf (by simp [Frame.leaves])
      refine ⟨hs, hl, ?_⟩
      obtain ⟨p, -, hp, -⟩ := hF.parent t (hT.lt_next (by simp [hs])) fun h => by
        rw [h, hF.main] at hs
        cases hs
      simp [hp]

/-! ## What a step does to the names -/

omit [Fintype ω] in
/-- A step never takes anything back. -/
theorem Move.grows (h : Move r w f gs r') (ho : Owned r f) : Grows r r' := by
  cases h with
  | spawn hp =>
    obtain ⟨-, -, hfresh⟩ := ho
    constructor <;> simp [Function.update_apply] <;> grind [Fresh, Descriptor.new]
  | _ =>
    -- the stores to `status` are the only ones that could decrease anything
    simp only [Owned] at ho
    constructor <;> simp [Function.update_apply] <;> grind [Status.code]

omit [Fintype ω] [DecidableEq ω] in
theorem FrameOk.mono (hg : Grows r r') (h : FrameOk r f) : FrameOk r' f := by
  cases f with
  | execute t tmp pc =>
    cases pc with
    | call c pc => exact ⟨h.1.trans_le hg.next, hg.parent c t h.2⟩
    | loadChildren => exact le_trans h (hg.status t)
    | restore => exact le_trans h (hg.status t)
    | _ => exact h
  | release t pc =>
    obtain ⟨hex, htargets, hpc⟩ := h
    refine ⟨hex.trans (hg.status t), fun x hx => (htargets x hx).mono hg, ?_⟩
    cases pc with
    | await x n rest => exact ⟨hpc.1, hpc.2.trans (hg.fired x)⟩
    | testStatus x n rest => exact ⟨hpc.1, hpc.2.1.trans (hg.fired x), hpc.2.2.trans (hg.status x)⟩
    | testWaitfor x n rest => exact ⟨hpc.1, hpc.2.1.trans (hg.fired x), hpc.2.2.trans (hg.status x)⟩
    | testParent p n => exact ⟨hg.parent t p hpc.1, hg.left t hpc.2⟩
    | callParent p => exact ⟨hg.parent t p hpc.1, hg.left t hpc.2.1, hpc.2.2.trans (hg.status p)⟩
    | _ => trivial
  | _ => trivial

omit [Fintype ω] in
theorem Move.frameOk (h : Move r w f gs r') (hF : Family r) (hst : r.stack w = f :: fs)
    (ho : Owned r f) : ∀ g ∈ gs, FrameOk r' g := by
  have hg : Grows r r' := h.grows ho
  have hok : FrameOk r' f := (hF.frames w f (hst ▸ List.mem_cons_self)).mono hg
  have hctx := hF.workerParent w
  have hcur := hF.currTask w
  rw [hst] at hctx hcur
  cases h with
  | releaseWon hst => 
    rintro g (_ | ⟨_, ⟨⟩⟩)
    exact ⟨hok.1, by simp [ReleasePc.targets], trivial⟩
  | lock hl =>
    rintro g (_ | ⟨_, ⟨⟩⟩)
    exact ⟨hok.1, fun x hx => (hF.stacked _ _ hl x hx).mono hg, trivial⟩
  | fire =>
    rintro g (_ | ⟨_, ⟨⟩⟩)
    exact ⟨hok.1, hok.2.1, by simp, by simp⟩
  | fireDone =>
    rintro g (_ | ⟨_, ⟨⟩⟩)
    exact ⟨hok.1, by simp [ReleasePc.targets], trivial⟩
  | spin =>
    rintro g (_ | ⟨_, ⟨⟩⟩)
    exact hok
  | seen hs =>
    rintro g (_ | ⟨_, ⟨⟩⟩)
    exact ⟨hok.1, hok.2.1, hok.2.2.1, hok.2.2.2, hs⟩
  | statusPass hs =>
    rintro g (_ | ⟨_, ⟨⟩⟩)
    exact hok
  | statusFail hs =>
    rintro g (_ | ⟨_, ⟨⟩⟩)
    exact ⟨hok.1, fun y hy => hok.2.1 y (List.mem_cons_of_mem _ hy), trivial⟩
  | waitforPass hn =>
    rintro g (_ | ⟨_, _ | ⟨_, ⟨⟩⟩⟩)
    · trivial
    · exact ⟨hok.1, fun y hy => hok.2.1 y (List.mem_cons_of_mem _ hy), trivial⟩
  | waitforFail hn =>
    rintro g (_ | ⟨_, ⟨⟩⟩)
    exact ⟨hok.1, fun y hy => hok.2.1 y (List.mem_cons_of_mem _ hy), trivial⟩
  | storeComplete =>
    rintro g (_ | ⟨_, ⟨⟩⟩)
    exact ⟨hok.1, by simp [ReleasePc.targets], trivial⟩
  | deleteRegion =>
    rintro g (_ | ⟨_, ⟨⟩⟩)
    exact ⟨hok.1, by simp [ReleasePc.targets], trivial⟩
  | decr hp =>
    rintro g (_ | ⟨_, ⟨⟩⟩)
    exact ⟨hok.1, by simp [ReleasePc.targets], hg.parent _ _ hp, by simp⟩
  | testPass hs =>
    rintro g (_ | ⟨_, ⟨⟩⟩)
    exact ⟨hok.1, by simp [ReleasePc.targets], hok.2.2.1, hok.2.2.2, hs ▸ le_rfl⟩
  | callParent =>
    rintro g (_ | ⟨_, ⟨⟩⟩)
    exact ⟨hok.2.2.2.2, by simp [ReleasePc.targets], trivial⟩
  | spawn hp =>
    rintro g (_ | ⟨_, ⟨⟩⟩)
    rw [hctx _ rfl] at hp
    cases hp
    exact ⟨Nat.lt_succ_self _, by simp⟩
  | syncCall hq =>
    rintro g (_ | ⟨_, ⟨⟩⟩)
    rw [hcur] at hq
    exact (Option.some.inj hq).symm
  | _ =>
    simp [FrameOk, ReleasePc.targets, ReleaseOk, Function.update_apply] at hok ⊢ 
    try grind [Status.code]

omit [Fintype ω] in
theorem Move.stack_eq (h : Move r w f gs r') : r'.stack = r.stack := by
  cases h <;> rfl

omit [Fintype ω] in
/-- The records of the new stacks are new, or records of the old stacks. -/
theorem mem_setStack (hr : r'.stack = r.stack) (hst : r.stack w = f :: fs) {v : ω} {g : Frame}
    (hg : g ∈ (r'.setStack w (gs ++ fs)).stack v) :
    (v = w ∧ g ∈ gs) ∨ (g ∈ r.stack v ∧ (v = w → g ∈ fs)) := by
  rw [Runtime.setStack_stack, hr] at hg
  rcases eq_or_ne v w with rfl | hv
  · rw [Function.update_self, List.mem_append] at hg
    rw [hst]
    exact hg.imp (fun h => ⟨rfl, h⟩) fun h => ⟨List.mem_cons_of_mem _ h, fun _ => h⟩
  · rw [Function.update_of_ne hv] at hg
    exact .inr ⟨hg, fun h => absurd h hv⟩

omit [Fintype ω] [DecidableEq ω] in
theorem Owned.waiter {t c s : TaskId} {tmp : Option TaskId} {pc : CallPc}
    (ho : Owned r (.execute t tmp (.call c pc))) (hpc : pc.walking) (hs : Sibling r c s) :
    Waiter r s c := by
  obtain ⟨-, -, hlt, hp, -, hu, -⟩ := ho
  refine ⟨hs.1, hlt, ⟨t, hs.2.1.trans hp, hp⟩, hs.2.2, ?_⟩
  rw [← Bool.not_eq_false, hu]
  rintro rfl
  cases hpc

omit [Fintype ω] in
theorem Move.main (h : Move r w f gs r') (hF : Family r) (ho : Owned r f) :
    (r'.task mainTask).status = .scheduled ∧ (r'.task mainTask).parent = none := by
  have hmain := hF.main
  have hroot := hF.root
  cases h with
  | spawn hp =>
    have hne : mainTask ≠ r.next := fun h => by simp [h, ho.2.2.task] at hmain
    simp [hne, hmain, hroot]
  | _ =>
    simp only [Owned] at ho
    simp -failIfUnchanged [Function.update_apply]
    grind

theorem Move.parent (h : Move r w f gs r') (hF : Family r) (hT : Tokens r)
    (hst : r.stack w = f :: fs) (ho : Owned r f) : ∀ t < r'.next, t ≠ mainTask →
      ∃ p < t, (r'.task t).parent = some p ∧ 0 < r'.hist.start p := by
  have hg : Grows r r' := h.grows ho
  intro t ht hne
  rcases lt_or_ge t r.next with hlt | hge
  · obtain ⟨p, hpt, hp, h0⟩ := hF.parent t hlt hne
    exact ⟨p, hpt, hg.parent t p hp, by rwa [hg.start p h0]⟩
  · cases h with
    | spawn hp =>
      obtain ⟨hs, h0, -⟩ := ho
      obtain rfl : t = r.next := by simp at ht; omega
      rw [hF.workerParent w _ (by rw [hst, context])] at hp
      cases hp
      exact ⟨_, hT.lt_next (by simp [hs]), by simp, h0⟩
    | _ => exact absurd ht (Nat.not_lt.2 hge)

omit [DecidableEq ω] in
theorem Family.parent_of_eq (hF : Family r) (hT : Tokens r) {t p : TaskId}
    (hp : (r.task t).parent = some p) : p < t ∧ t < r.next ∧ 0 < r.hist.start p := by
  have hlt : t < r.next := by
    by_contra hge
    simp [(hT.fresh t (Nat.le_of_not_lt hge)).task] at hp
  have hne : t ≠ mainTask := fun h => by simp [h, hF.root] at hp
  obtain ⟨q, hqt, hq, h0⟩ := hF.parent t hlt hne
  rw [hp] at hq
  cases hq
  exact ⟨hqt, hlt, h0⟩

theorem Move.older (h : Move r w f gs r') (hF : Family r) (hT : Tokens r) (ho : Owned r f) :
    (∀ t p, (r'.task t).parent = some p → 0 < r'.hist.start t →
      r'.hist.start p < r'.hist.start t) ∧ ∀ t, r'.hist.start t ≤ r'.hist.clock := by
  have hold := hF.older
  have hclock := hF.clock
  cases h with
  | spawn hp =>
    obtain ⟨-, -, hfresh⟩ := ho
    refine ⟨fun t p hp h0 => ?_, hclock⟩
    rcases eq_or_ne t r.next with rfl | hne
    · exact absurd h0 (by simp [hfresh.start])
    · exact hold t p (by simpa [hne] using hp) h0
  | enter =>
    rename_i x
    refine ⟨fun t p hp h0 => ?_, fun t => ?_⟩
    · have hne : p ≠ x := fun hpx => by
        have := (hF.parent_of_eq hT hp).2.2
        rw [hpx, ho.2] at this
        omega
      have := hclock p
      have := hold t p hp
      simp only [Runtime.begin_hist_start, Function.update_apply, if_neg hne] at h0 ⊢
      split <;> grind
    · have := hclock t
      simp only [Runtime.begin_hist_start, Runtime.begin_hist_clock, Function.update_apply]
      split <;> omega
  | _ =>
    refine ⟨?_, hclock⟩
    simp -failIfUnchanged [Function.update_apply]
    grind

omit [Fintype ω] in
theorem Move.waiters (h : Move r w f gs r') (hF : Family r) (ho : Owned r f) :
    (∀ s l, (r'.task s).toNotify = some l → ∀ x ∈ l, Waiter r' s x) ∧
      ∀ x s, (x, s) ∈ r'.hist.pushes → Waiter r' s x := by
  have hg : Grows r r' := h.grows ho
  have hstacked := fun s l hl x hx => (hF.stacked s l hl x hx).mono hg
  have hpushes := fun x s hx => (hF.pushes x s hx).mono hg
  cases h with
  | push hpc hpc' heq hs hl =>
    have hnew := (ho.waiter hpc hs).mono hg
    simp [Function.update_apply]
    grind
  | _ =>
    refine ⟨?_, hpushes⟩
    simp -failIfUnchanged [Function.update_apply]
    grind [Descriptor.new]

omit [Fintype ω] in
theorem Move.pushed (h : Move r w f gs r') (hF : Family r) :
    ∀ x s, (x, s) ∈ r'.hist.pushes → ∀ l, (r'.task s).toNotify = some l → x ∈ l := by
  have hpushed := hF.pushed
  intro x s hx l hl
  cases h with
  | spawn hp =>
    have hw := hF.pushes x s hx
    have hne : s ≠ r.next := (hw.lt.trans hw.allocated).ne
    exact hpushed x s hx l (by simpa [hne] using hl)
  | push hpc hpc' heq hs hl =>
    simp [Function.update_apply] at hx hl
    grind
  | _ =>
    simp -failIfUnchanged [Function.update_apply] at hx hl
    grind

omit [Fintype ω] in
theorem Move.bracketed (h : Move r w f gs r') (hF : Family r) (hst : r.stack w = f :: fs)
    (ho : Owned r f) : Bracketed (gs ++ fs) ∧ r'.currTask w = context (gs ++ fs) ∧
      ∀ t, context (gs ++ fs) = some t → r'.parent w = some t := by
  have hbr := hF.bracketed w
  have hcur := hF.currTask w
  have hpar := hF.workerParent w
  rw [hst] at hbr hcur hpar
  cases h with
  | restore =>
    obtain ⟨htmp, hbr⟩ := hbr
    exact ⟨hbr, by simp [htmp], fun t ht => by simpa [htmp] using ht⟩
  | syncDone =>
    obtain rfl := ho.1
    exact ⟨hbr, by simp [context], by simp [context]⟩
  | _ => simp_all [Bracketed, context]

omit [Fintype ω] in
theorem Move.context_of_ne (h : Move r w f gs r') {v : ω} (hv : v ≠ w) :
    r'.currTask v = r.currTask v ∧ r'.parent v = r.parent v := by
  cases h <;> simp [hv]

/-- The thread that runs `t` is the only one. -/
theorem Tokens.runs_eq_zero (hT : Tokens r) (hst : r.stack w = f :: fs) {t : TaskId}
    (h1 : 1 ≤ f.runs t) {v : ω} (hg : g ∈ r.stack v) (hfs : v = w → g ∈ fs) : g.runs t = 0 := by
  have hsolo : tally (Frame.runs t) r.stack ≤ 1 := (hT.running t).trans_le (one_le _)
  obtain ⟨h, hv⟩ := eq_zero_of_tally_le_one hsolo hst h1
  by_cases hvw : v = w
  · exact h g (hfs hvw)
  · exact hv v hvw g hg

theorem Move.latest (h : Move r w f gs r') (hF : Family r) (hT : Tokens r)
    (hst : r.stack w = f :: fs) :
    ∀ v t tmp c pc, Frame.execute t tmp (.call c pc) ∈ (r'.setStack w (gs ++ fs)).stack v →
      ∀ x, (r'.task x).parent = some t → x ≤ c := by
  intro v t tmp c pc hv x hx
  have hmem := mem_setStack h.stack_eq hst hv
  clear hv
  cases h with
  | spawn hp =>
    have hlt : x ≠ r.next → x < r.next := fun hne =>
      (hF.parent_of_eq hT (by simpa [hne] using hx)).2.1
    rcases hmem with ⟨-, hgs⟩ | ⟨hold, hfs⟩
    · simp at hgs
      rw [hgs.2.2.1]
      by_cases hne : x = r.next
      · exact hne.le
      · exact (hlt hne).le
    · rw [hF.workerParent w _ (by rw [hst, context])] at hp
      cases hp
      by_cases hne : x = r.next
      · -- another record of the same task would be a second one that runs it
        simp [hne] at hx
        have := hT.runs_eq_zero (t := t) hst (by simp [Frame.runs, hx]) hold hfs
        simp [Frame.runs] at this
      · exact hF.latest v t tmp c pc hold x (by simpa [hne] using hx)
  | _ =>
    have hlatest := hF.latest v t tmp c pc
    have hw := hF.latest w
    rw [hst] at hw
    simp -failIfUnchanged [Function.update_apply, apply_ite] at hmem hx
    grind

/-- **Names stay with their owners.** -/
theorem Family.move (hF : Family r) (hT : Tokens r) (hst : r.stack w = f :: fs)
    (h : Move r w f gs r') : Family (r'.setStack w (gs ++ fs)) := by
  have ho : Owned r f := owned_of_stack hT hF hst
  have hg : Grows r r' := h.grows ho
  have hset : Grows r' (r'.setStack w (gs ++ fs)) := .setStack
  refine
    { main := (h.main hF ho).1
      root := (h.main hF ho).2
      parent := h.parent hF hT hst ho
      older := (h.older hF hT ho).1
      clock := (h.older hF hT ho).2
      stacked := fun s l hl x hx => ((h.waiters hF ho).1 s l hl x hx).mono hset
      pushes := fun x s hx => ((h.waiters hF ho).2 x s hx).mono hset
      pushed := h.pushed hF
      frames := fun v g hv => ?_
      latest := h.latest hF hT hst
      bracketed := fun v => ?_
      currTask := fun v => ?_
      workerParent := fun v t ht => ?_ }
  · rcases mem_setStack h.stack_eq hst hv with ⟨-, hgs⟩ | ⟨hold, -⟩
    · exact (h.frameOk hF hst ho g hgs).mono hset
    · exact ((hF.frames v g hold).mono hg).mono hset
  · rw [Runtime.setStack_stack, h.stack_eq]
    rcases eq_or_ne v w with rfl | hv
    · rw [Function.update_self]
      exact (h.bracketed hF hst ho).1
    · rw [Function.update_of_ne hv]
      exact hF.bracketed v
  · rw [Runtime.setStack_stack, Runtime.setStack_currTask, h.stack_eq]
    rcases eq_or_ne v w with rfl | hv
    · rw [Function.update_self]
      exact (h.bracketed hF hst ho).2.1
    · rw [Function.update_of_ne hv, (h.context_of_ne hv).1, hF.currTask]
  · rw [Runtime.setStack_stack, h.stack_eq] at ht
    rw [Runtime.setStack_parent]
    rcases eq_or_ne v w with rfl | hv
    · rw [Function.update_self] at ht
      exact (h.bracketed hF hst ho).2.2 t ht
    · rw [Function.update_of_ne hv] at ht
      rw [(h.context_of_ne hv).2]
      exact hF.workerParent v t ht

omit [Fintype ω] in
/-- **The names at the start.** -/
theorem Family.init (main : ω) : Family (init main).rt where
  main := rfl
  root := rfl
  parent t ht hne := absurd (Nat.lt_one_iff.1 ht) hne
  older t p hp := by simp [Partee.init, apply_ite] at hp
  clock t := by
    simp only [Partee.init]
    split <;> omega
  stacked s l hl x hx := by
    have hnil : ((Partee.init main).rt.task s).toNotify = some [] := by
      simp only [Partee.init]
      split <;> rfl
    rw [hnil, Option.some.injEq] at hl
    simp [← hl] at hx
  pushes x s hx := by simp [Partee.init] at hx
  pushed x s hx := by simp [Partee.init] at hx
  frames v g hg := by
    simp [Partee.init] at hg
    split at hg <;> simp at hg <;> simp [hg, FrameOk]
  latest v t tmp c pc hg := by
    simp [Partee.init] at hg
    split at hg <;> simp at hg
  bracketed v := by
    simp [Partee.init]
    split <;> simp [Bracketed, context]
  currTask v := by
    simp [Partee.init]
    split <;> simp [context]
  workerParent v t ht := by
    simp [Partee.init] at ht ⊢
    split at ht <;> simp [context] at ht
    exact ht

end Partee
