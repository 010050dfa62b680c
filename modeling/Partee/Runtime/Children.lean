import Partee.Runtime.Elements

/-!
# The children counter

`number_of_children` counts the children that went through the increment of
`tpc_call` and have not performed their decrement.  The two threads that may
release a task race on it: the thread that ran the body stores `EXECUTED_TASK`
and then loads the counter, a child decrements the counter and then loads the
status.  Whatever the order, one of them sees both, so an executed task with no
children left always has a contender: a thread that is still going to notice.

* `liveChildren`: the children that are counted.
* `Frame.contends`: the contenders.
* `Children`: the invariant.
* `executed_task_has_children`: no task is forgotten, and none is released twice.
-/

namespace Partee

open Transition

variable {ω : Type*}

/-- The children of `p` that went through the increment and have not yet
performed their decrement. -/
def liveChildren (r : Runtime ω) (p : TaskId) : Finset TaskId :=
  (Finset.range r.next).filter fun c =>
    (r.task c).parent = some p ∧ r.hist.counted c = true ∧ r.hist.left c = false

theorem mem_liveChildren {r : Runtime ω} {p c : TaskId} :
    c ∈ liveChildren r p ↔ c < r.next ∧ (r.task c).parent = some p ∧
      r.hist.counted c = true ∧ r.hist.left c = false := by
  rw [liveChildren, Finset.mem_filter, Finset.mem_range]

/-- A record that is still going to notice that `p` is executed and has no
children left. -/
def Frame.contends (p : TaskId) : Frame → Bool
  | .execute t _ .loadChildren => t = p
  | .release t .cas => t = p
  | .release _ (.testParent q 0) | .release _ (.callParent q) => q = p
  | _ => false

/-- The counters, and what the history has counted. -/
structure Children (r : Runtime ω) : Prop where
  count : ∀ p, (r.task p).numberOfChildren = (liveChildren r p).card
  contended : ∀ p, (r.task p).status = .executed → (r.task p).numberOfChildren = 0 →
    ∃ w, ∃ f ∈ r.stack w, f.contends p = true
  runs : ∀ t, r.hist.runs t = one (0 < r.hist.start t)
  scheduled : ∀ t, r.hist.scheduled t = one (Status.scheduled.code ≤ (r.task t).status.code)
  released : ∀ t, r.hist.released t = one (Status.releasing.code ≤ (r.task t).status.code)

/-! ## What a step does to the counters -/

section

variable {r r' : Runtime ω} {p q c : TaskId}

theorem liveChildren_congr (hnext : r'.next = r.next)
    (h : ∀ x, (r'.task x).parent = (r.task x).parent) (hhist : r'.hist.counted = r.hist.counted)
    (hleft : r'.hist.left = r.hist.left) : liveChildren r' p = liveChildren r p := by
  simp only [liveChildren, hnext, h, hhist, hleft]

/-- A new child is counted only later. -/
theorem liveChildren_alloc (args : List Argument) (hf : Fresh r r.next) :
    liveChildren (r.alloc args q) p = liveChildren r p := by
  ext x
  simp only [mem_liveChildren, Runtime.alloc_next, Runtime.alloc_task, Runtime.alloc_hist]
  by_cases hx : x = r.next
  · simp [hx, hf.counted]
  · rw [Function.update_of_ne hx]
    refine and_congr_left fun _ => ⟨fun h => lt_of_le_of_ne (Nat.le_of_lt_succ h) hx, fun h => ?_⟩
    exact h.trans (Nat.lt_succ_self _)

/-- The increment. -/
theorem liveChildren_incr (hc : c < r.next) (hp : (r.task c).parent = some p)
    (hl : r.hist.left c = false) :
    liveChildren (r.incrChildren c p) q =
      if q = p then insert c (liveChildren r p) else liveChildren r q := by
  ext x
  by_cases hx : x = c
  · subst hx
    simp [mem_liveChildren, Function.update_apply]
    grind [mem_liveChildren]
  · simp [mem_liveChildren, Function.update_apply, hx]
    grind [mem_liveChildren]

/-- The decrement. -/
theorem liveChildren_decr (hp : (r.task c).parent = some p) :
    liveChildren (r.decrChildren c p) q =
      if q = p then (liveChildren r p).erase c else liveChildren r q := by
  ext x
  by_cases hx : x = c
  · subst hx
    simp [mem_liveChildren, Function.update_apply]
    grind [mem_liveChildren]
  · simp [mem_liveChildren, Function.update_apply, hx]
    grind [mem_liveChildren]

end

section

variable [Fintype ω] [DecidableEq ω] {r r' : Runtime ω} {w : ω} {f : Frame} {gs fs : List Frame}

theorem Move.childrenCount (h : Move r w f gs r') (hT : Tokens r) (ho : Owned r f)
    (hcount : ∀ p, (r.task p).numberOfChildren = (liveChildren r p).card) (p : TaskId) :
    (r'.task p).numberOfChildren = (liveChildren r' p).card := by
  -- most steps leave the counters and the children alone
  have hsame : r'.next = r.next → (∀ x, (r'.task x).parent = (r.task x).parent ∧
      (r'.task x).numberOfChildren = (r.task x).numberOfChildren) →
      r'.hist.counted = r.hist.counted → r'.hist.left = r.hist.left →
      (r'.task p).numberOfChildren = (liveChildren r' p).card := fun hnext htask hc hl => by
    rw [liveChildren_congr hnext (fun x => (htask x).1) hc hl, ← hcount, (htask p).2]
  cases h with
  | @spawn _ q _ args hp =>
    have hf : Fresh r r.next := ho.2.2
    rw [liveChildren_alloc args hf, ← hcount]
    by_cases hpn : p = r.next
    · simp [hpn, hf.task]
    · simp [hpn]
  | @incr _ c q _ hq =>
    obtain ⟨-, -, hlt, -, hst, hu, -⟩ := ho
    have hl : r.hist.left c = false := hT.left_eq_false (by simp [hst])
    rw [liveChildren_incr hlt hq hl]
    have hnot : c ∉ liveChildren r q := by simp [mem_liveChildren, hu.2 rfl]
    by_cases hpq : p = q
    · subst hpq
      simp [Finset.card_insert_of_notMem hnot, hcount]
    · simp [hpq, hcount]
  | @decr c q hq =>
    obtain ⟨hst, hl, -⟩ := ho
    rw [liveChildren_decr hq]
    have hmem : c ∈ liveChildren r q := by
      have hlt : c < r.next := hT.lt_next (by simp [hst])
      exact mem_liveChildren.2 ⟨hlt, hq, hT.counted c hlt (by simp [hst]), hl⟩
    by_cases hpq : p = q
    · subst hpq
      simp [Finset.card_erase_of_mem hmem, hcount]
    · simp [hpq, hcount]
  | _ => exact hsame rfl (fun x => by simp -failIfUnchanged [Function.update_apply] <;> grind) rfl rfl

omit [Fintype ω] in
/-- **One side notices.**  A task that is executed and has no children left has a
contender after the step, or it was so before and the step is not the
contender's. -/
theorem Move.contends (h : Move r w f gs r') (ho : Owned r f) {p : TaskId}
    (hst : (r'.task p).status = .executed) (h0 : (r'.task p).numberOfChildren = 0) :
    (∃ g ∈ gs, g.contends p = true) ∨ (f.contends p = false ∧
      (r.task p).status = .executed ∧ (r.task p).numberOfChildren = 0) := by
  cases h with
  | spawn hp =>
    have hne : p ≠ r.next := fun hpn => by simp [hpn] at hst
    exact .inr ⟨rfl, by simpa [hne] using hst, by simpa [hne] using h0⟩
  | @storeExecuted t tmp =>
    by_cases hpt : p = t
    · exact .inl ⟨_, List.mem_cons_self, by simp [Frame.contends, hpt]⟩
    · exact .inr ⟨rfl, by simpa [hpt] using hst, by simpa [hpt] using h0⟩
  | @loadFree t tmp hn =>
    by_cases hpt : p = t
    · exact .inl ⟨_, List.mem_cons_self, by simp [Frame.contends, hpt]⟩
    · exact .inr ⟨by simpa [Frame.contends] using Ne.symm hpt, hst, h0⟩
  | @decr t q hq =>
    by_cases hpq : p = q
    · subst hpq
      simp at h0
      exact .inl ⟨_, List.mem_cons_self, by simp [Frame.contends, h0]⟩
    · exact .inr ⟨rfl, by simpa [hpq] using hst, by simpa [hpq] using h0⟩
  | @testPass t q _ | @callParent t q =>
    by_cases hpq : p = q
    · exact .inl ⟨_, List.mem_cons_self, by simp [Frame.contends, hpq]⟩
    · exact .inr ⟨by simpa [Frame.contends] using Ne.symm hpq, hst, h0⟩
  | _ =>
    right
    simp only [Owned] at ho
    simp [Frame.contends, Function.update_apply] at hst h0 ⊢
    grind

omit [Fintype ω] in
/-- The history counts the starts and the transitions. -/
theorem Move.counts (h : Move r w f gs r') (ho : Owned r f) (t : TaskId)
    (hruns : r.hist.runs t = one (0 < r.hist.start t))
    (hscheduled : r.hist.scheduled t = one (Status.scheduled.code ≤ (r.task t).status.code))
    (hreleased : r.hist.released t = one (Status.releasing.code ≤ (r.task t).status.code)) :
    r'.hist.runs t = one (0 < r'.hist.start t) ∧
      r'.hist.scheduled t = one (Status.scheduled.code ≤ (r'.task t).status.code) ∧
      r'.hist.released t = one (Status.releasing.code ≤ (r'.task t).status.code) := by
  cases h with
  | spawn hp =>
    obtain ⟨-, -, hfresh⟩ := ho
    simp [Function.update_apply]
    grind [Fresh, Descriptor.new, Status.code]
  | _ =>
    simp only [Owned] at ho
    simp -failIfUnchanged [Function.update_apply]
    grind [Status.code]

/-- **The counters are kept.** -/
theorem Children.move (hC : Children r) (hT : Tokens r) (hF : Family r) (hst : r.stack w = f :: fs)
    (h : Move r w f gs r') : Children (r'.setStack w (gs ++ fs)) := by
  have ho : Owned r f := owned_of_stack hT hF hst
  have hcounts := fun t => h.counts ho t (hC.runs t) (hC.scheduled t) (hC.released t)
  refine ⟨h.childrenCount hT ho hC.count, fun p hp h0 => ?_, fun t => (hcounts t).1,
    fun t => (hcounts t).2.1, fun t => (hcounts t).2.2⟩
  have hself : (r'.setStack w (gs ++ fs)).stack w = gs ++ fs := by simp
  have hne : ∀ v, v ≠ w → (r'.setStack w (gs ++ fs)).stack v = r.stack v := fun v hv => by
    simp [hv, h.stack_eq]
  rcases h.contends ho hp h0 with ⟨g, hg, hcon⟩ | ⟨hf, hp, h0⟩
  · exact ⟨w, g, by rw [hself]; exact List.mem_append_left _ hg, hcon⟩
  · obtain ⟨v, g, hg, hcon⟩ := hC.contended p hp h0
    refine ⟨v, g, ?_, hcon⟩
    by_cases hv : v = w
    · subst hv
      rw [hst] at hg
      rcases List.mem_cons.1 hg with rfl | hg
      · rw [hf] at hcon
        cases hcon
      · rw [hself]
        exact List.mem_append_right _ hg
    · rwa [hne v hv]

omit [Fintype ω] in
theorem Children.init (main : ω) : Children (init main).rt where
  count p := by
    have hnone : ∀ x, ((Partee.init main).rt.task x).parent = none := fun x => by
      simp only [Partee.init]
      split <;> rfl
    have hzero : ((Partee.init main).rt.task p).numberOfChildren = 0 := by
      simp only [Partee.init]
      split <;> rfl
    simp [liveChildren, hnone, hzero]
  contended p hp := by
    rw [(task_init main p).1] at hp
    split at hp <;> cases hp
  runs t := by simp [Partee.init]; grind
  scheduled t := by
    rw [(task_init main t).1]
    simp [Partee.init]
    grind [Status.code]
  released t := by
    rw [(task_init main t).1]
    simp [Partee.init]
    grind [Status.code]

variable {gridT : BitVec 64} {main : ω} {s : State ω}

theorem Children.of_reachable (h : Reachable gridT main s) : Children s.rt := by
  refine h.invariant_of (I := fun s => Children s.rt) (fun s hs => Sound.of_reachable hs)
    (Children.init main) ?_
  intro s a s' hS hC _ hs
  obtain ⟨f, fs, gs, s₁, hst, hact, rfl⟩ := act_of_step hs
  exact hC.move hS.tokens hS.family hst (hS.move hst hact)

/-! ## No task is forgotten -/

/-- `execute_task` has stored `EXECUTED_TASK` and not yet acted on the counter, or
the record is one of `release_task`. -/
def Frame.completing : Frame → Bool
  | .execute _ _ .loadChildren | .release _ _ => true
  | _ => false

omit [Fintype ω] [DecidableEq ω] in
theorem Frame.completing_of_contends {p : TaskId} (h : f.contends p = true) :
    f.completing = true := by
  unfold Frame.contends at h
  split at h <;> first | rfl | cases h

/-- The main program, on worker `v`, spawns task 1 without arguments; worker `w`
executes it, task 1 spawns task 2, returns, and finds that it has a child. -/
def nestedRun (v w : ω) : List (ω × Choice ω) :=
  (v, .spawn []) :: goOn v 6 ++
    (w, .take v 0) :: (w, .go) :: (w, .spawn []) :: goOn w 6 ++
    (w, .ret) :: goOn w 3

end

end Partee
