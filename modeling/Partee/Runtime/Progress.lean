import Partee.Runtime.Children

/-!
# No deadlock

`tpc_sync` executes other tasks on top of the one that waits, and a full deque
makes `schedule_task` do the same on top of a half-finished release.  So a thread
may be unable to go on with a task although nothing is missing for it, and a
cyclic wait could run through stacks, children counters and notifications.

What rules it out is the order in which bodies are started.  On every stack the
tasks further up were started later (`Above`), and a child is started after its
parent.  If all threads wait, take the waiting task that was started last.  It
has a child that is not done, and everything that child can be waiting for
belongs to a task that was started even later, to an earlier sibling, or to a
child of its own; the first is impossible, and the other two come to an end.

* `Above`, `Layered`: the order on the stacks.
* `Deadlocked`: the state the claim is about.
* `no_deadlock`.
-/

namespace Partee

open Transition

variable {ω : Type*}

/-! ## The order on the stacks -/

namespace Frame

/-- The points at which a record may have another one on top of it. -/
def suspended : Frame → Bool
  | .worker | .execute _ _ .body | .execute _ _ (.sync _ _) | .execute _ _ .restore
  | .release _ (.fire _) => true
  | _ => false

/-- The task whose body was started to get here. -/
def subject : Frame → Option TaskId
  | .execute t _ _ | .release t _ => some t
  | _ => none

/-- The task that the record runs. -/
def body : Frame → Option TaskId
  | .execute t _ _ => some t
  | _ => none

end Frame

/-- `g` may stand above `f`. -/
structure Above (r : Runtime ω) (g f : Frame) : Prop where
  notWorker : g ≠ .worker
  suspended : f.suspended = true
  later : ∀ t u, g.body = some t → f.subject = some u → r.hist.start u < r.hist.start t

/-- Every stack is ordered. -/
def Layered (r : Runtime ω) : Prop := ∀ w, (r.stack w).Pairwise (Above r)

/-- All threads wait, at least one of them in `tpc_sync`, and nothing is left in
the deques. -/
structure Deadlocked (r : Runtime ω) : Prop where
  empty : ∀ w, r.queue w = []
  idle : ∀ w, ∃ f fs, r.stack w = f :: fs ∧
    (f = .worker ∨ ∃ t tmp q working, f = .execute t tmp (.sync q working))
  syncing : ∃ w t tmp q working fs, r.stack w = .execute t tmp (.sync q working) :: fs
  blocked : ∀ w t tmp q working fs, r.stack w = .execute t tmp (.sync q working) :: fs →
    0 < (r.task q).numberOfChildren

variable [Fintype ω] [DecidableEq ω] {r r' : Runtime ω} {w : ω} {f : Frame} {gs fs : List Frame}

omit [DecidableEq ω] in
/-- The tasks that records are about have been started. -/
theorem started_of_subject (hT : Tokens r) (hF : Family r) (hf : f ∈ r.stack w) {u : TaskId}
    (hu : f.subject = some u) : 0 < r.hist.start u := by
  have hok := hF.frames w f hf
  cases f with
  | execute t tmp pc =>
    cases hu
    cases pc with
    | loadChildren => exact hT.started u hok
    | restore => exact hT.started u hok
    | _ => exact (hT.runs_of_mem (t := u) hf (by simp [Frame.runs])).2
  | release t pc =>
    cases hu
    exact hT.started u hok.1
  | _ => cases hu

omit [Fintype ω] [DecidableEq ω] in
/-- The order between two records that stay. -/
theorem Above.mono {g : Frame} (hg : Grows r r') (h : Above r g f)
    (hgs : ∀ t, g.body = some t → 0 < r.hist.start t)
    (hfs : ∀ u, f.subject = some u → 0 < r.hist.start u) : Above r' g f where
  notWorker := h.notWorker
  suspended := h.suspended
  later t u ht hu := by
    rw [hg.start t (hgs t ht), hg.start u (hfs u hu)]
    exact h.later t u ht hu

omit [Fintype ω] in
/-- A record that a step puts on the stack runs the same task as the old one, or
has just started it; and only a worker's loop is replaced by a worker's loop. -/
theorem Move.body (h : Move r w f gs r') {g : Frame} (hg : g ∈ gs) :
    (g = .worker → f = .worker) ∧ ∀ t, g.body = some t → f.body = some t ∨
      (f = .enter t ∧ r'.hist.start t = r.hist.clock + 1) := by
  cases h with
  | enter =>
    simp at hg
    subst hg
    simp [Frame.body]
  | take | createdReady | syncTake | loadFree | waitforPass =>
    simp at hg
    rcases hg with rfl | rfl <;> simp [Frame.body]
  | restore | scheduleLost | accept | releaseLost | decrRoot | testFail => cases hg
  | _ =>
    simp at hg
    subst hg
    simp [Frame.body]

omit [Fintype ω] in
/-- Where a step puts two records on the stack, the lower one is suspended and the
upper one has not started a body. -/
theorem Move.pairwise (h : Move r w f gs r') : gs.Pairwise (Above r') := by
  cases h with
  | take | createdReady | syncTake | loadFree | waitforPass =>
    simp only [List.pairwise_cons, List.mem_singleton, forall_eq, List.Pairwise.nil,
      List.not_mem_nil, false_imp_iff, implies_true, and_true]
    exact ⟨by simp, rfl, by simp [Frame.body]⟩
  | restore | scheduleLost | accept | releaseLost | decrRoot | testFail => exact .nil
  | _ => exact List.pairwise_singleton _ _

/-- **The stacks stay ordered.** -/
theorem Layered.move (hL : Layered r) (hT : Tokens r) (hF : Family r) (hst : r.stack w = f :: fs)
    (h : Move r w f gs r') : Layered (r'.setStack w (gs ++ fs)) := by
  have ho : Owned r f := owned_of_stack hT hF hst
  have hg : Grows r (r'.setStack w (gs ++ fs)) := (h.grows ho).trans .setStack
  have hstarted : ∀ v, ∀ b ∈ r.stack v, ∀ u, b.subject = some u → 0 < r.hist.start u :=
    fun v b hb u hu => started_of_subject hT hF hb hu
  have hbody : ∀ b : Frame, ∀ t, b.body = some t → b.subject = some t := fun b t hb => by
    cases b <;> first | exact hb | cases hb
  have hmono : ∀ v, (r.stack v).Pairwise (Above (r'.setStack w (gs ++ fs))) := fun v =>
    (hL v).imp_of_mem fun hg' hb hab => hab.mono hg
      (fun t ht => hstarted v _ hg' t (hbody _ t ht)) fun u hu => hstarted v _ hb u hu
  intro v
  rcases eq_or_ne v w with rfl | hv
  · have hold := hL v
    rw [hst, List.pairwise_cons] at hold
    have hfs := hmono v
    rw [hst, List.pairwise_cons] at hfs
    rw [Runtime.setStack_stack, Function.update_self, List.pairwise_append]
    refine ⟨h.pairwise.imp fun hab => ⟨hab.notWorker, hab.suspended, hab.later⟩, hfs.2,
      fun g hgs b hb => ?_⟩
    obtain ⟨hwork, hrun⟩ := h.body hgs
    refine ⟨fun hgw => (hold.1 b hb).notWorker (hwork hgw), (hold.1 b hb).suspended,
      fun t u ht hu => ?_⟩
    rcases hrun t ht with hft | ⟨-, hstart⟩
    · exact (hfs.1 b hb).later t u hft hu
    · -- the body of `t` is started now, and that of `u` was started before
      have h0 : 0 < r.hist.start u := hstarted v b (hst ▸ List.mem_cons_of_mem _ hb) u hu
      have hclock := hF.clock u
      rw [hg.start u h0, Runtime.setStack_hist, hstart]
      omega
  · rw [Runtime.setStack_stack, Function.update_of_ne hv, h.stack_eq]
    exact hmono v

omit [Fintype ω] in
theorem Layered.init (main : ω) : Layered (init main).rt := by
  intro w
  simp only [Partee.init]
  split <;> exact List.pairwise_singleton _ _

variable {gridT : BitVec 64} {main : ω} {s : State ω}

theorem Layered.of_reachable (h : Reachable gridT main s) : Layered s.rt := by
  refine h.invariant_of (I := fun s => Layered s.rt) (fun s hs => Sound.of_reachable hs)
    (Layered.init main) ?_
  intro s a s' hS hL _ hs
  obtain ⟨f, fs, gs, s₁, hst, hact, rfl⟩ := act_of_step hs
  exact hL.move hS.tokens hS.family hst (hS.move hst hact)

/-! ## All threads wait -/

/-- What is left on the stacks when all threads wait, where `m` is the time at
which the last of the waiting tasks was started. -/
structure Stalled (r : Runtime ω) (m : ℕ) : Prop where
  empty : ∀ w, r.queue w = []
  quiet : ∀ w, ∀ f ∈ r.stack w, f.suspended = true
  early : ∀ w, ∀ f ∈ r.stack w, ∀ u, f.subject = some u → r.hist.start u ≤ m

omit [DecidableEq ω] in
/-- **The waiting task that was started last.**  Every other record is suspended
and belongs to a task that was not started later. -/
theorem Deadlocked.stalled (hD : Deadlocked r) (hF : Family r) (hL : Layered r) :
    ∃ t, 0 < (r.task t).numberOfChildren ∧ Stalled r (r.hist.start t) := by
  classical
  let waits : ω → Prop := fun w => ∃ t tmp working fs,
    r.stack w = .execute t tmp (.sync t working) :: fs
  let time : ω → ℕ := fun w => (((r.stack w).head?.bind Frame.body).map r.hist.start).getD 0
  have hwaits : ∀ w t tmp q working fs, r.stack w = .execute t tmp (.sync q working) :: fs →
      q = t := fun w t tmp q working fs hst =>
      hF.frames w (.execute t tmp (.sync q working)) (hst ▸ List.mem_cons_self)
  obtain ⟨v, t, tmp, q, working, fs, hv⟩ := hD.syncing
  obtain rfl := hwaits v t tmp q working fs hv
  obtain ⟨w, hw, hmax⟩ := Finset.exists_max_image (Finset.univ.filter waits) time
    ⟨v, Finset.mem_filter.2 ⟨Finset.mem_univ v, q, tmp, working, fs, hv⟩⟩
  obtain ⟨t, tmp, working, fs, hst⟩ := (Finset.mem_filter.1 hw).2
  have htime : time w = r.hist.start t := by simp [time, hst, Frame.body]
  -- the innermost record of a thread is a worker's loop or a waiting task
  have htop : ∀ v f fs, r.stack v = f :: fs → f = .worker ∨ ∃ x tmp working,
      f = .execute x tmp (.sync x working) ∧ r.hist.start x ≤ r.hist.start t := by
    intro v f fs hv
    obtain ⟨f', fs', hv', hidle⟩ := hD.idle v
    rw [hv] at hv'
    cases hv'
    refine hidle.imp_right fun ⟨x, tmp, q, working, hf⟩ => ?_
    subst hf
    obtain rfl := hwaits v x tmp q working fs hv
    refine ⟨q, tmp, working, rfl, ?_⟩
    have hle := hmax v (Finset.mem_filter.2 ⟨Finset.mem_univ v, q, tmp, working, fs, hv⟩)
    rw [htime] at hle
    simpa [time, hv, Frame.body] using hle
  have hcases : ∀ v, ∀ f ∈ r.stack v, f.suspended = true ∧
      ∀ u, f.subject = some u → r.hist.start u ≤ r.hist.start t := by
    intro v f hf
    obtain ⟨g, gs, hv, -⟩ := hD.idle v
    have hpair := hL v
    rw [hv] at hf hpair
    rcases List.mem_cons.1 hf with rfl | hf
    · rcases htop v f gs hv with rfl | ⟨x, tmp, working, rfl, hle⟩
      · exact ⟨rfl, fun u hu => by cases hu⟩
      · exact ⟨rfl, fun u hu => by cases hu; exact hle⟩
    · have hab : Above r g f := (List.pairwise_cons.1 hpair).1 f hf
      refine ⟨hab.suspended, fun u hu => ?_⟩
      rcases htop v g gs hv with rfl | ⟨x, tmp, working, rfl, hle⟩
      · exact absurd rfl hab.notWorker
      · exact (hab.later x u rfl hu).le.trans hle
  exact ⟨t, hD.blocked w t tmp t working fs hst, hD.empty, fun v f hf => (hcases v f hf).1,
    fun v f hf => (hcases v f hf).2⟩

namespace Stalled

variable {m : ℕ}

omit [DecidableEq ω] in
/-- Nobody holds a token that only a record that can go on holds. -/
theorem tally_eq_zero (hS : Stalled r m) {wt : Frame → ℕ}
    (hwt : ∀ f : Frame, f.suspended = true → wt f = 0) : tally wt r.stack = 0 :=
  Transition.tally_eq_zero.2 fun w f hf => hwt f (hS.quiet w f hf)

omit [Fintype ω] [DecidableEq ω] in
/-- A task that was started after time `m` has no record left. -/
theorem not_subject (hS : Stalled r m) {x : TaskId} (hx : m < r.hist.start x) {w : ω} {f : Frame}
    (hf : f ∈ r.stack w) : f.subject ≠ some x := fun h =>
  absurd (hS.early w f hf x h) (Nat.not_le.2 hx)

omit [DecidableEq ω] in
/-- A child that has been created and not scheduled waits for an earlier sibling. -/
theorem waits_of_created (hS : Stalled r m) (hT : Tokens r) (hF : Family r) {x p : TaskId}
    (hp : (r.task x).parent = some p) (hst : (r.task x).status = .created)
    (hm : m ≤ r.hist.start p) : ∃ y < x, y ∈ liveChildren r p := by
  have hne : (r.task x).status ≠ .creating := by simp [hst]
  have hreadies : tally (Frame.readies x) r.stack = 0 := hS.tally_eq_zero fun f hf => by
    unfold Frame.suspended at hf
    split at hf <;> simp_all [Frame.readies]
  have hawaits : tally (Frame.awaits x (r.task x).waitfor) r.stack = 0 :=
    hS.tally_eq_zero fun f hf => by
      unfold Frame.suspended at hf
      split at hf <;> simp_all [Frame.awaits]
  have hcommitted := hT.committed x hne
  have hwaitfor := hT.waitfor x hne
  have hnotified := hT.notified x
  have hfw : (r.task x).fired ≠ (r.task x).waitfor := fun hfw => by
    rw [hreadies, hawaits, one, if_pos ⟨hst, hfw⟩] at hcommitted
    cases hcommitted
  have hlost : 0 < tally (Frame.detached x) r.stack ∨ 0 < waiting r x := by omega
  rcases hlost with hdet | hwait
  · -- the sibling that has detached `x` was started later, and its release is not over
    exfalso
    obtain ⟨w, f, hf, h0⟩ := exists_of_tally_pos hdet
    cases f with
    | release y pc =>
      have hok := hF.frames w _ hf
      have hmem : x ∈ pc.targets := by
        have hrest : x ∈ pc.rest := List.count_pos_iff.1 h0
        cases pc <;> simp_all [ReleasePc.rest, ReleasePc.targets]
      obtain ⟨q, hq, hq'⟩ := (hok.2.1 x hmem).parent
      rw [hp] at hq'
      cases hq'
      have hy := hF.older y p hq (hT.started y hok.1)
      exact hS.not_subject (hm.trans_lt hy) hf rfl
    | _ => cases h0
  · obtain ⟨y, hy, h0⟩ := exists_of_sum_range_pos hwait
    have hx := List.count_pos_iff.1 h0
    cases hl : (r.task y).toNotify with
    | none => simp [hl] at hx
    | some l =>
      rw [hl] at hx
      have hw : Waiter r y x := hF.stacked y l hl x hx
      obtain ⟨q, hq, hq'⟩ := hw.parent
      rw [hp] at hq'
      cases hq'
      refine ⟨y, hw.lt, mem_liveChildren.2 ⟨hy, hq, hw.sibling_counted, ?_⟩⟩
      rw [← Bool.not_eq_true]
      intro hleft
      have hlocking := hT.locking y
      have hlocks : tally (Frame.locks y) r.stack = 0 := hS.tally_eq_zero fun f hf => by
        unfold Frame.suspended at hf
        split at hf <;> simp_all [Frame.locks]
      rw [hlocks, hl] at hlocking
      simp [hT.left y hleft] at hlocking

omit [DecidableEq ω] in
/-- A child of a task started at time `m` or later, if it is not done, waits for an
earlier sibling or has a child of its own that is not done. -/
theorem waits (hS : Stalled r m) (hT : Tokens r) (hF : Family r) (hC : Children r) {x p : TaskId}
    (hx : x ∈ liveChildren r p) (hm : m ≤ r.hist.start p) :
    (∃ y < x, y ∈ liveChildren r p) ∨ (m ≤ r.hist.start x ∧ ∃ y, y ∈ liveChildren r x) := by
  obtain ⟨hlt, hp, hc, hl⟩ := mem_liveChildren.1 hx
  have hlater : 0 < r.hist.start x → m < r.hist.start x := fun h0 => hm.trans_lt (hF.older x p hp h0)
  cases hst : (r.task x).status with
  | creating =>
    have h1 := hT.creating x
    have h0 : tally (Frame.creates x) r.stack = 0 := hS.tally_eq_zero fun f hf => by
      unfold Frame.suspended at hf
      split at hf <;> simp_all [Frame.creates]
    rw [h0, one, if_pos ⟨hlt, hst⟩] at h1
    cases h1
  | created => exact .inl (hS.waits_of_created hT hF hp hst hm)
  | scheduled =>
    rcases Nat.eq_zero_or_pos (r.hist.start x) with h0 | h0
    · have h1 := hT.pending x
      have hq : tally (isTask x) r.queue = 0 := Transition.tally_eq_zero.2 fun w y hy => by
        rw [hS.empty w] at hy
        cases hy
      have hz : tally (Frame.pending x) r.stack = 0 := hS.tally_eq_zero fun f hf => by
        unfold Frame.suspended at hf
        split at hf <;> simp_all [Frame.pending]
      rw [hz, hq, one, if_pos ⟨hst, h0⟩] at h1
      cases h1
    · have h1 := hT.running x
      rw [one, if_pos ⟨hst, h0⟩] at h1
      obtain ⟨w, f, hf, hruns⟩ := exists_of_tally_pos (h1 ▸ Nat.one_pos)
      refine absurd ?_ (hS.not_subject (hlater h0) hf)
      unfold Frame.runs at hruns
      split at hruns <;> grind [Frame.subject]
  | executed =>
    right
    have h0 : 0 < r.hist.start x := hT.started x (by rw [hst])
    refine ⟨(hlater h0).le, ?_⟩
    rw [← Finset.Nonempty, ← Finset.card_pos, ← hC.count, Nat.pos_iff_ne_zero]
    intro hzero
    obtain ⟨w, f, hf, hcon⟩ := hC.contended x hst hzero
    have hq := hS.quiet w f hf
    unfold Frame.suspended at hq
    split at hq <;> simp_all [Frame.contends]
  | releasing =>
    have h1 := hT.releasing x
    rw [one, if_pos hst] at h1
    obtain ⟨w, f, hf, hrel⟩ := exists_of_tally_pos (h1 ▸ Nat.one_pos)
    refine absurd ?_ (hS.not_subject (hlater (hT.started x (by simp [hst, Status.code]))) hf)
    unfold Frame.releases at hrel
    split at hrel <;> grind [Frame.subject]
  | complete =>
    have h1 := hT.leaving x
    have h0 : tally (Frame.leaves x) r.stack = 0 := hS.tally_eq_zero fun f hf => by
      unfold Frame.suspended at hf
      split at hf <;> simp_all [Frame.leaves]
    rw [h0, one, if_pos ⟨hst, hl⟩] at h1
    cases h1

omit [DecidableEq ω] in
/-- The last of the waiting tasks has no children left.  The induction goes to
earlier siblings inside one family, and to a family deeper in the tree. -/
theorem not_live (hS : Stalled r m) (hT : Tokens r) (hF : Family r) (hC : Children r)
    (n : ℕ) : ∀ p, r.next - p = n → m ≤ r.hist.start p → ∀ x, x ∉ liveChildren r p := by
  induction n using Nat.strong_induction_on with
  | _ n ihn =>
    intro p hn hm x
    induction x using Nat.strong_induction_on with
    | _ x ihx =>
      intro hx
      obtain ⟨hnext, hp, -, -⟩ := mem_liveChildren.1 hx
      have hlt : x < r.next := hnext
      have hpx : p < x := (hF.parent_of_eq hT hp).1
      rcases hS.waits hT hF hC hx hm with ⟨y, hyx, hy⟩ | ⟨hmx, y, hy⟩
      · exact ihx y hyx hy
      · exact ihn (r.next - x) (by omega) x rfl hmx y hy

end Stalled

end Partee
