import Partee.Runtime.Children
import Mathlib.Logic.Relation

/-!
# A task and what was spawned below it

When a task is released, its counter should be zero and everything below it done.
Whoever starts the release has seen the counter at zero, but not at the same time
as the status `EXECUTED_TASK`: a child remembers the result of its decrement, and
tests the status of the parent in a later step.  In between, the parent may spawn
more children and finish.

* `Below r d p`: `d` was spawned below `p`.
* `Frame.testsFresh`: the remembered zero is still the value of the counter.
* `Drained`: the invariant that holds as long as all tests are fresh.
* `subtree_done`: what follows for releases and for `tpc_sync`.
* `released_with_children`: a run with a test that is not fresh.
-/

namespace Partee

open Transition

variable {ω : Type*}

/-- `d` was spawned below `p`, as a child or further down. -/
def Below (r : Runtime ω) : TaskId → TaskId → Prop :=
  Relation.TransGen fun c p => (r.task c).parent = some p

/-- A child that has counted the last child of `p` out and finds `p` executed also
finds the counter still at zero. -/
def Frame.testsFresh (r : Runtime ω) : Frame → Bool
  | .release _ (.testParent p 0) =>
      (r.task p).status ≠ .executed || (r.task p).numberOfChildren = 0
  | _ => true

/-- The worker that moves does not act on an outdated zero. -/
def TestsFresh (s : State ω) (a : ω × Choice ω) : Prop :=
  ∀ f ∈ (s.rt.stack a.1).head?, f.testsFresh s.rt = true

instance (s : State ω) (a : ω × Choice ω) : Decidable (TestsFresh s a) :=
  inferInstanceAs (Decidable (∀ f ∈ (s.rt.stack a.1).head?, f.testsFresh s.rt = true))

/-- What the claim says about the next step: a release finds the counter at zero
and everything below the task complete, and `tpc_sync` returns only if everything
below its caller is complete. -/
structure SubtreeDone [DecidableEq ω] (gridT : BitVec 64) (s : State ω) : Prop where
  release : ∀ a s' p, step gridT s a = some s' → (s.rt.task p).status = .executed →
    (s'.rt.task p).status = .releasing →
    (s.rt.task p).numberOfChildren = 0 ∧ ∀ d, Below s.rt d p → (s.rt.task d).status = .complete
  sync : ∀ a s' t tmp q fs, s.rt.stack a.1 = .execute t tmp (.sync q false) :: fs →
    step gridT s a = some s' → s'.rt.stack a.1 = .execute t tmp .body :: fs →
    ∀ d, Below s.rt d q → (s.rt.task d).status = .complete

/-- No children are left of a task that is released, or about to be. -/
structure Drained (r : Runtime ω) : Prop where
  released : ∀ p, Status.releasing.code ≤ (r.task p).status.code →
    (r.task p).numberOfChildren = 0
  calling : ∀ w t p, Frame.release t (.callParent p) ∈ r.stack w →
    (r.task p).numberOfChildren = 0
  releasing : ∀ w p, Frame.release p .cas ∈ r.stack w → (r.task p).numberOfChildren = 0

variable [Fintype ω] [DecidableEq ω] {r r' : Runtime ω} {w : ω} {f : Frame} {gs fs : List Frame}
  {gridT : BitVec 64} {main : ω} {s s' : State ω} {p q c d t : TaskId}

/-! ## The counter of an executed task -/

omit [Fintype ω] in
/-- Only a task that runs can spawn, so the counter of an executed task does not
grow any more. -/
theorem Move.numberOfChildren_le (h : Move r w f gs r') (ho : Owned r f)
    (hex : Status.executed.code ≤ (r.task p).status.code) :
    (r'.task p).numberOfChildren ≤ (r.task p).numberOfChildren := by
  cases h with
  | @incr t c q tmp hq =>
    have hne : p ≠ q := fun hpq => by
      obtain ⟨hst, -, -, hp, -⟩ := ho
      cases hq.symm.trans hp
      rw [hpq, hst] at hex
      exact absurd hex (by decide)
    simp [hne]
  | spawn hp =>
    obtain ⟨-, -, hfresh⟩ := ho
    have hne : p ≠ r.next := fun hpn => by
      rw [hpn, hfresh.task] at hex
      exact absurd hex (by decide)
    simp [hne]
  | _ => simp -failIfUnchanged [Function.update_apply] <;> grind

omit [Fintype ω] in
/-- A task becomes released by the compare-and-swap of `release_task` only. -/
theorem Move.release_of (h : Move r w f gs r') (ho : Owned r f)
    (hst : (r.task p).status.code < Status.releasing.code)
    (hst' : Status.releasing.code ≤ (r'.task p).status.code) : f = .release p .cas := by
  cases h with
  | @releaseWon x hx =>
    by_cases hpx : p = x
    · rw [hpx]
    · simp [hpx] at hst'
      omega
  | _ =>
    simp only [Owned] at ho
    simp -failIfUnchanged [Function.update_apply] at hst'
    grind [Descriptor.new, Status.code]

/-- **Without outdated tests, nothing is released too early.** -/
theorem Drained.move (hD : Drained r) (hT : Tokens r) (hF : Family r)
    (hst : r.stack w = f :: fs) (h : Move r w f gs r') (hfresh : f.testsFresh r = true) :
    Drained (r'.setStack w (gs ++ fs)) := by
  have ho : Owned r f := owned_of_stack hT hF hst
  have hzero : ∀ p, Status.executed.code ≤ (r.task p).status.code →
      (r.task p).numberOfChildren = 0 → (r'.task p).numberOfChildren = 0 := fun p hex h0 => by
    have hle := h.numberOfChildren_le ho hex
    omega
  refine ⟨fun p hp => ?_, fun v t p hv => ?_, fun v p hv => ?_⟩
  · by_cases hrel : Status.releasing.code ≤ (r.task p).status.code
    · exact hzero p (le_trans (by decide) hrel) (hD.released p hrel)
    · obtain rfl := h.release_of ho (Nat.lt_of_not_le hrel) hp
      exact hzero p ho (hD.releasing w p (hst ▸ List.mem_cons_self))
  · rcases mem_setStack h.stack_eq hst hv with ⟨-, hgs⟩ | ⟨hold, -⟩
    · cases h with
      | @testPass t q hq =>
        simp only [List.mem_singleton, Frame.release.injEq, ReleasePc.callParent.injEq] at hgs
        rw [hgs.2]
        simpa [Frame.testsFresh, hq] using hfresh
      | _ => simp at hgs
    · exact hzero p (hF.frames v _ hold).2.2.2.2 (hD.calling v t p hold)
  · rcases mem_setStack h.stack_eq hst hv with ⟨-, hgs⟩ | ⟨hold, -⟩
    · cases h with
      | loadFree h0 =>
        simp at hgs
        rw [hgs]
        exact h0
      | @callParent t q =>
        simp at hgs
        rw [hgs]
        exact hD.calling w t q (hst ▸ List.mem_cons_self)
      | _ => simp at hgs
    · exact hzero p (hF.frames v _ hold).1 (hD.releasing v p hold)

omit [Fintype ω] in
theorem Drained.init (main : ω) : Drained (init main).rt where
  released p hp := by
    rw [(task_init main p).1] at hp
    split at hp <;> exact absurd hp (by decide)
  calling w t p hw := by
    simp only [Partee.init] at hw
    split at hw <;> simp at hw
  releasing w p hw := by
    simp only [Partee.init] at hw
    split at hw <;> simp at hw

/-- **The invariant of the runs without outdated tests.** -/
theorem Drained.of_run (h : Run (step gridT) TestsFresh (Partee.init main) s) : Drained s.rt := by
  refine h.invariant_of (I := fun s => Drained s.rt) (fun s hs => Sound.of_reachable hs.reach)
    (Drained.init main) ?_
  intro s a s' hS hD hfresh hs
  obtain ⟨f, fs, gs, s₁, hst, hact, rfl⟩ := act_of_step hs
  exact hD.move hS.tokens hS.family hst (hS.move hst hact) (hfresh f (by simp [hst]))

/-! ## Down the tree -/

omit [DecidableEq ω] in
/-- Without children left, every child that was counted has left. -/
theorem left_of_counted (hT : Tokens r) (hF : Family r) (hC : Children r)
    (h0 : (r.task p).numberOfChildren = 0) (hp : (r.task c).parent = some p)
    (hc : r.hist.counted c = true) : r.hist.left c = true := by
  by_contra hl
  have hmem : c ∈ liveChildren r p :=
    mem_liveChildren.2 ⟨(hF.parent_of_eq hT hp).2.1, hp, hc, by simpa using hl⟩
  rw [hC.count, Finset.card_eq_zero] at h0
  rw [h0] at hmem
  simp at hmem

omit [DecidableEq ω] in
/-- A child that is not counted is being spawned by its parent. -/
theorem exists_incr_of_uncounted (hT : Tokens r) (hF : Family r)
    (hp : (r.task c).parent = some p) (hc : r.hist.counted c = false) :
    ∃ w tmp, Frame.execute p tmp (.call c .incr) ∈ r.stack w := by
  have huncounted := hT.uncounted c
  rw [one, if_pos ⟨(hF.parent_of_eq hT hp).2.1, hc⟩] at huncounted
  obtain ⟨w, f, hf, h0⟩ := exists_of_tally_pos (huncounted ▸ Nat.one_pos)
  unfold Frame.uncounted at h0
  split at h0
  · rename_i q tmp c'
    obtain rfl : c' = c := by
      by_contra hne
      simp [hne] at h0
    obtain rfl : q = p := Option.some.inj ((hF.frames w _ hf).2.symm.trans hp)
    exact ⟨w, tmp, hf⟩
  · cases h0

omit [DecidableEq ω] in
/-- A task that does not run any more has spawned all its children. -/
theorem counted_of_executed (hT : Tokens r) (hF : Family r)
    (hex : Status.executed.code ≤ (r.task p).status.code) (hp : (r.task c).parent = some p) :
    r.hist.counted c = true := by
  by_contra hc
  obtain ⟨w, tmp, hf⟩ := exists_incr_of_uncounted hT hF hp (by simpa using hc)
  rw [(hT.runs_of_mem (t := p) hf (by simp [Frame.runs])).1] at hex
  exact absurd hex (by decide)

/-- A task inside `tpc_sync` is not inside `tpc_call`. -/
theorem counted_of_sync (hT : Tokens r) (hF : Family r) {tmp : Option TaskId} {working : Bool}
    (hst : r.stack w = .execute p tmp (.sync p working) :: fs) (hp : (r.task c).parent = some p) :
    r.hist.counted c = true := by
  by_contra hc
  obtain ⟨v, tmp', hf⟩ := exists_incr_of_uncounted hT hF hp (by simpa using hc)
  have hnot : v = w → Frame.execute p tmp' (.call c .incr) ∈ fs := fun hv => by
    subst hv
    rw [hst] at hf
    exact (List.mem_cons.1 hf).resolve_left (by simp)
  have hruns := hT.runs_eq_zero (t := p) hst (by simp [Frame.runs]) hf hnot
  simp [Frame.runs] at hruns

omit [DecidableEq ω] in
/-- **Everything below is complete** when the children are. -/
theorem complete_of_below (hT : Tokens r) (hF : Family r) (hC : Children r) (hD : Drained r)
    (hchildren : ∀ c, (r.task c).parent = some p → (r.task c).status = .complete)
    (h : Below r d p) : (r.task d).status = .complete := by
  induction h using Relation.TransGen.head_induction_on with
  | single hd => exact hchildren _ hd
  | @head d b hd _ ih =>
    have hrel : Status.releasing.code ≤ (r.task b).status.code := by
      rw [ih]
      decide
    have hex : Status.executed.code ≤ (r.task b).status.code := le_trans (by decide) hrel
    exact hT.left d
      (left_of_counted hT hF hC (hD.released b hrel) hd (counted_of_executed hT hF hex hd))

/-- Task 1 spawns task 2 and returns; worker `w` executes task 2, whose release finds
task 1 executed and is about to release it. -/
def lastChildRun (v w : ω) : List (ω × Choice ω) :=
  nestedRun v w ++ (w, .take w 0) :: (w, .go) :: (w, .ret) :: goOn w 10

/-- Worker `w` executes task 1, which spawns task 2.  Worker `v` executes task 2, whose
decrement leaves the counter of task 1 at zero.  Task 1 spawns task 3, stores
`EXECUTED_TASK` and finds that it has a child.  Then worker `v` tests the status of
task 1. -/
def outdatedZeroRun (v w : ω) : List (ω × Choice ω) :=
  (v, .spawn []) :: goOn v 6 ++ (v, .sync) :: (v, .go) ::
    (w, .take v 0) :: (w, .go) :: (w, .spawn []) :: goOn w 6 ++
    (v, .take w 0) :: (v, .go) :: (v, .ret) :: goOn v 8 ++
    (w, .spawn []) :: goOn w 6 ++ (w, .ret) :: goOn w 2 ++ goOn v 2

end Partee
