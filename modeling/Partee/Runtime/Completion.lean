import Partee.Queue.Model
import Partee.Runtime.Livelock
import Partee.Runtime.Progress
import Partee.Runtime.Subtree

/-!
# The program can always come to its end

At the end of the main program, `tpc_shutdown` calls `tpc_sync` and waits until no
child of the main program is left.  From every state the workers can get there:
either some record can go on, or every thread looks for work, and then a deque holds
a task or a thread that waits in `tpc_sync` may return.  All of these leave less work
to do, if the body of the main program, which has still to call `tpc_sync`, counts for
more than the call.

What the workers need for it is deques that lose nothing.  The deques may be bounded, and
need not deliver anything but the tasks at their two ends.

* `AtEnd`: the main program is in its body and its children are complete.
* `AnswersAtEnds`: the deques lose nothing in a step, and deliver at their ends.
* `can_end`: the end can be reached without spawning another task.
-/

namespace Partee

open Transition

variable {ω : Type*}

/-- The main program is in its body, and has no children left. -/
def AtEnd (s : State ω) : Prop :=
  (∃ w tmp fs, s.rt.stack w = .execute mainTask tmp .body :: fs) ∧
    (s.rt.task mainTask).numberOfChildren = 0

/-- The deques lose nothing and deliver at their ends.  `pop_task` gets the newest task of
the worker's own deque; `steal_task`, which is only called when that one is empty, gets the
oldest task of another one; both get nothing only when all deques are empty; `enqueue`
refuses a task if and only if there are 128 already. -/
def AnswersAtEnds (s : State ω) (a : ω × Choice ω) : Prop :=
  match a.2 with
  | .take v k =>
      (v = a.1 ∧ k + 1 = (s.rt.queue v).length) ∨ (s.rt.queue a.1 = [] ∧ k = 0)
  | .nothing => ∀ v, s.rt.queue v = []
  | .refuse => Queue.maxQueueEntries ≤ (s.rt.queue a.1).length
  | .go => ∀ t fs, s.rt.stack a.1 = .schedule t true :: fs →
      (s.rt.queue a.1).length < Queue.maxQueueEntries
  | _ => True

/-- A step on the way to the end: no task is spawned, and the deques keep to their ends. -/
structure Ending (s : State ω) (a : ω × Choice ω) : Prop where
  noSpawn : ∀ args, a.2 ≠ .spawn args
  atEnds : AnswersAtEnds s a

/-- Where the next step of a record depends on something else: on the program, on the
deques, on the children of a task, or on the thread that creates a task. -/
inductive Stops (r : Runtime ω) : Frame → Prop where
  | worker : Stops r .worker
  | body {t : TaskId} {tmp : Option TaskId} : Stops r (.execute t tmp .body)
  | sync {t : TaskId} {tmp : Option TaskId} {working : Bool} :
      Stops r (.execute t tmp (.sync t working))
  | await {t x : TaskId} {n : ℕ} {rest : List TaskId} (hst : (r.task x).status = .creating) :
      Stops r (.release t (.await x n rest))

variable [DecidableEq ω] {gridT : BitVec 64} {main : ω} {s s' : State ω} {w v : ω} {f : Frame}
  {fs : List Frame} {t x : TaskId} {tmp : Option TaskId}

/-! ## Single steps -/

/-- The state in which worker `w` has replaced its stack. -/
abbrev withStack (s : State ω) (w : ω) (l : List Frame) : State ω :=
  { s with rt := s.rt.setStack w l }

theorem withStack_stack {l : List Frame} : (withStack s w l).rt.stack w = l :=
  Function.update_self _ _ _

omit [DecidableEq ω] in
/-- `tpc_call` is never stuck. -/
theorem isSome_tpcCall {c p : TaskId} {pc : CallPc} (hp : (s.rt.task c).parent = some p)
    (hpc : ∀ n, pc ≠ .storeCreated n) : (tpcCall gridT s c pc).isSome := by
  cases pc with
  | incr => rw [tpcCall, hp]; rfl
  | walk k => rw [tpcCall, hp]; rfl
  | ownerStatus k e j => rw [tpcCall, hp]; rfl
  | storeCreated n => exact absurd rfl (hpc n)
  | _ => rfl

/-- **A record that does not stop can go on.** -/
theorem exists_act [Fintype ω] (gridT : BitVec 64) (hS : Sound s) (hst : s.rt.stack w = f :: fs)
    (hf : ¬ Stops s.rt f) : (act gridT s w f .go).isSome ∧ ¬ Waits s (w, .go) := by
  have ho : Owned s.rt f := hS.owned hst
  unfold Waits
  dsimp only
  rw [hst]
  cases f with
  | worker => exact absurd .worker hf
  | enter t => exact ⟨rfl, id⟩
  | execute t tmp pc =>
    cases pc with
    | body => exact absurd .body hf
    | sync q working =>
      obtain rfl : q = t := ho.1
      exact absurd .sync hf
    | call c pc =>
      refine ⟨?_, id⟩
      cases pc with
      | storeCreated n =>
        simp only [act, executeTask]
        split <;> rfl
      | _ =>
        simp only [act, executeTask, Option.isSome_map]
        exact isSome_tpcCall ho.2.2.2.1 (fun n => by simp)
    | loadChildren =>
      refine ⟨?_, id⟩
      simp only [act, executeTask]
      split <;> rfl
    | storeExecuted => exact ⟨rfl, id⟩
    | restore => exact ⟨rfl, id⟩
  | schedule t enqueue =>
    refine ⟨?_, id⟩
    cases enqueue with
    | true => rfl
    | false =>
      simp only [act, scheduleTask]
      split <;> rfl
  | release t pc =>
    cases pc with
    | await x n rest =>
      have hcr : ¬ (s.rt.task x).status.code < Status.created.code := by
        intro hlt
        refine hf (.await ?_)
        cases hst : (s.rt.task x).status <;> first | rfl | (rw [hst] at hlt; exact absurd hlt (by decide))
      refine ⟨?_, hcr⟩
      simp only [act, releaseTask, if_neg hcr, Option.isSome_some]
    | lock =>
      refine ⟨?_, id⟩
      obtain ⟨l, hl⟩ := Option.ne_none_iff_exists'.1 ho.2.2
      simp only [act, releaseTask, hl, Option.map_some, Option.isSome_some]
    | fire rest => cases rest <;> exact ⟨rfl, id⟩
    | decr =>
      refine ⟨?_, id⟩
      simp only [act, releaseTask]
      split <;> rfl
    | storeComplete | deleteRegion | callParent => exact ⟨rfl, id⟩
    | cas | testStatus | testWaitfor | testParent =>
      refine ⟨?_, id⟩
      simp only [act, releaseTask]
      split <;> rfl

/-! ## The bottom of a stack -/

/-- A record that is never left: the loop of a worker, or the main program. -/
def Frame.isRoot : Frame → Bool
  | .worker => true
  | .execute t _ .body | .execute t _ (.call _ _) | .execute t _ (.sync _ _) => t = mainTask
  | _ => false

/-- Every stack ends in a record that is never left. -/
def Rooted (r : Runtime ω) : Prop := ∀ w, ∃ l f, r.stack w = l ++ [f] ∧ f.isRoot = true

theorem Rooted.move {r r' : Runtime ω} {gs : List Frame} (hR : Rooted r)
    (hst : r.stack w = f :: fs) (hm : Move r w f gs r') :
    Rooted (r'.setStack w (gs ++ fs)) := by
  intro v
  rcases eq_or_ne v w with rfl | hv
  · obtain ⟨l, g, hl, hg⟩ := hR v
    show ∃ l g, Function.update r'.stack v (gs ++ fs) v = l ++ [g] ∧ g.isRoot = true
    rw [Function.update_self]
    rw [hst] at hl
    cases l with
    | nil =>
      -- the record itself is at the bottom
      obtain ⟨rfl, rfl⟩ : f = g ∧ fs = [] := by simpa using hl
      cases hm with
      | take hk => exact ⟨[_], _, rfl, hg⟩
      | syncTake hk => exact ⟨[_], _, rfl, hg⟩
      | createdReady => exact ⟨[_], _, rfl, hg⟩
      | idle | spawn | syncCall | incr | creating | walk | push | storeWaitfor | createdWaiting
        | syncDone | syncBusy | syncNothing => exact ⟨[], _, rfl, hg⟩
      | ret ht => exact absurd (of_decide_eq_true hg) ht
      | _ => cases hg
    | cons g' l =>
      obtain ⟨-, rfl⟩ := List.cons_eq_cons.1 hl
      exact ⟨gs ++ l, g, (List.append_assoc gs l [g]).symm, hg⟩
  · obtain ⟨l, g, hl, hg⟩ := hR v
    refine ⟨l, g, ?_, hg⟩
    show Function.update r'.stack w (gs ++ fs) v = _
    rw [Function.update_of_ne hv, hm.stack_eq, hl]

theorem Rooted.of_reachable [Fintype ω] (h : Reachable gridT main s) : Rooted s.rt := by
  refine h.invariant_of (I := fun s => Rooted s.rt) (fun s hs => Sound.of_reachable hs) ?_ ?_
  · intro w
    by_cases hw : w = main
    · exact ⟨[], _, if_pos hw, rfl⟩
    · exact ⟨[], _, if_neg hw, rfl⟩
  · intro s a s' hS hR _ hs
    obtain ⟨f, fs, gs, s₁, hst, hact, rfl⟩ := act_of_step hs
    exact hR.move hst (hS.move hst hact)

/-! ## Nearer to the end -/

variable [Fintype ω]

/-- There is a way to the end, or to a state with less work left. -/
def Nearer (gridT : BitVec 64) (s : State ω) : Prop :=
  ∃ s', Run (step gridT) Ending s s' ∧ (AtEnd s' ∨ rank gridT 7 s' < rank gridT 7 s)

theorem Nearer.of_step {a : ω × Choice ω} (h : Reachable gridT main s)
    (hs : step gridT s a = some s') (hends : AnswersAtEnds s a) (hc : ¬ Calls a)
    (hw : ¬ Waits s a)
    (hne : ∀ tmp fs, s.rt.stack a.1 ≠ .execute mainTask tmp (.sync mainTask false) :: fs) :
    Nearer gridT s := by
  have hspawn : ∀ args, a.2 ≠ .spawn args := by
    intro args ha
    unfold Calls at hc
    rw [ha] at hc
    exact hc trivial
  refine ⟨s', Run.refl.tail ⟨hspawn, hends⟩ hs, .inr ?_⟩
  exact ((rank_step h hs (.inr hne)).resolve_left hc).resolve_left fun hwait => hw hwait.1

/-- After a step of busy waiting. -/
theorem Nearer.of_wait {a : Choice ω} {gs : List Frame} (h : Reachable gridT main s)
    (hst : s.rt.stack w = f :: fs) (hact : act gridT s w f a = some (gs, s))
    (hidle : Idles s.rt f gs) (hending : Ending s (w, a))
    (hnext : Nearer gridT (withStack s w (gs ++ fs))) : Nearer gridT s := by
  obtain ⟨s', hrun, hend⟩ := hnext
  have hS : Sound s := .of_reachable h
  have hrank : rank gridT 7 (withStack s w (gs ++ fs)) = rank gridT 7 s :=
    rank_of_idles (hS.move hst hact) hst hidle rfl
  rw [hrank] at hend
  exact ⟨s', (Run.refl.tail hending (step_of_act hst hact)).trans hrun, hend⟩

omit [Fintype ω] [DecidableEq ω] in
/-- A step away from the deques. -/
theorem answersAtEnds_go (hst : s.rt.stack w = f :: fs) (hf : ∀ t, f ≠ .schedule t true) :
    AnswersAtEnds s (w, .go) := by
  intro t fs' hst'
  obtain ⟨hft, -⟩ := List.cons.inj (hst.symm.trans hst')
  exact absurd hft (hf t)

/-- The test of `tpc_sync` finds that no children are left. -/
theorem Nearer.of_test (h : Reachable gridT main s)
    (hst : s.rt.stack w = .execute t tmp (.sync t false) :: fs)
    (h0 : (s.rt.task t).numberOfChildren = 0) : Nearer gridT s := by
  have hact : act gridT s w (.execute t tmp (.sync t false)) .go =
      some ([.execute t tmp .body], { s with rt := s.rt.setContext w (some t) }) := by
    simp only [act, executeTask, if_pos h0]
  have hs := step_of_act hst hact
  have hends : AnswersAtEnds s (w, .go) := answersAtEnds_go hst fun _ => by simp
  by_cases ht : t = mainTask
  · subst ht
    exact ⟨_, Run.refl.tail ⟨fun args => by simp, hends⟩ hs,
      .inl ⟨⟨w, tmp, fs, withStack_stack⟩, h0⟩⟩
  · refine .of_step h hs hends id ?_ ?_
    · unfold Waits
      dsimp only
      rw [hst]
      exact fun hne => hne h0
    · intro tmp' fs' hmain
      rw [hst] at hmain
      simp only [List.cons.injEq, Frame.execute.injEq] at hmain
      exact ht hmain.1.1

/-- A thread that waits in `tpc_sync` gets a task. -/
theorem Nearer.of_take {k : ℕ} (h : Reachable gridT main s)
    (hst : s.rt.stack w = .execute t tmp (.sync t true) :: fs)
    (hends : AnswersAtEnds s (w, .take v k)) (hk : k < (s.rt.queue v).length) :
    Nearer gridT s := by
  have hact : act gridT s w (.execute t tmp (.sync t true)) (.take v k) =
      some ([.enter (s.rt.queue v)[k], .execute t tmp (.sync t false)],
        { s with rt := s.rt.dequeue v k }) := by
    simp only [act, executeTask, takeTask, List.getElem?_eq_getElem hk, Option.map_some]
  refine .of_step h (step_of_act hst hact) hends id ?_ ?_
  · unfold Waits
    dsimp only
    rw [hst]
    exact id
  · intro tmp' fs' hmain
    rw [hst] at hmain
    simp at hmain

/-- A thread that waits in `tpc_sync` looks for a task: in its own deque, then in the others,
and finds one unless all of them are empty. -/
theorem Nearer.of_looking (h : Reachable gridT main s)
    (hst : s.rt.stack w = .execute t tmp (.sync t true) :: fs)
    (hnone : (∀ v, s.rt.queue v = []) → Nearer gridT s) : Nearer gridT s := by
  by_cases hown : s.rt.queue w = []
  · by_cases hall : ∀ v, s.rt.queue v = []
    · exact hnone hall
    · push Not at hall
      obtain ⟨v, hv⟩ := hall
      exact .of_take h hst (.inr ⟨hown, rfl⟩) (List.length_pos_of_ne_nil hv)
  · have hpos : 0 < (s.rt.queue w).length := List.length_pos_of_ne_nil hown
    have hlast : (s.rt.queue w).length - 1 + 1 = (s.rt.queue w).length := Nat.sub_add_cancel hpos
    exact .of_take h hst (.inl ⟨rfl, hlast⟩) (Nat.sub_lt hpos Nat.one_pos)

/-- `tpc_sync` returns when no children are left. -/
theorem Nearer.of_return {working : Bool} (h : Reachable gridT main s)
    (hst : s.rt.stack w = .execute t tmp (.sync t working) :: fs)
    (h0 : (s.rt.task t).numberOfChildren = 0) : Nearer gridT s := by
  cases working with
  | true =>
    refine .of_looking h hst fun hnone => ?_
    have hact : act gridT s w (.execute t tmp (.sync t true)) .nothing =
        some ([.execute t tmp (.sync t false)], s) := rfl
    refine .of_wait h hst hact .nothing ⟨fun _ => by simp, hnone⟩ ?_
    exact .of_test (h.tail trivial (step_of_act hst hact)) withStack_stack h0
  | false => exact .of_test h hst h0

/-- A thread that waits in `tpc_sync` finds a task if there is one. -/
theorem Nearer.of_waiting {working : Bool} (h : Reachable gridT main s)
    (hst : s.rt.stack w = .execute t tmp (.sync t working) :: fs)
    (hpos : (s.rt.task t).numberOfChildren ≠ 0) (hq : s.rt.queue v ≠ []) :
    Nearer gridT s := by
  cases working with
  | true => exact .of_looking h hst fun hnone => absurd (hnone v) hq
  | false =>
    have hact : act gridT s w (.execute t tmp (.sync t false)) .go =
        some ([.execute t tmp (.sync t true)], s) := by
      simp only [act, executeTask, if_neg hpos]
    have hends : AnswersAtEnds s (w, .go) := answersAtEnds_go hst fun _ => by simp
    refine .of_wait h hst hact (.busy hpos) ⟨fun _ => by simp, hends⟩ ?_
    exact .of_looking (h.tail trivial (step_of_act hst hact)) withStack_stack
      fun hnone => absurd (hnone v) hq

/-- A body returns; that of the main program calls `tpc_sync`. -/
theorem Nearer.of_body (h : Reachable gridT main s)
    (hst : s.rt.stack w = .execute t tmp .body :: fs) : Nearer gridT s := by
  have hS : Sound s := .of_reachable h
  by_cases ht : t = mainTask
  · subst ht
    have hcur : s.rt.currTask w = some mainTask := by
      rw [hS.family.currTask, hst]
      rfl
    have hact : act gridT s w (.execute mainTask tmp .body) .sync =
        some ([.execute mainTask tmp (.sync mainTask false)], s) := by
      simp only [act, executeTask, hcur, Option.map_some]
    have hends : AnswersAtEnds s (w, .sync) := trivial
    refine ⟨_, Run.refl.tail ⟨fun args => by simp, hends⟩ (step_of_act hst hact), .inr ?_⟩
    refine rank_of_cost (hS.move hst hact) hst rfl (fun _ _ _ => by simp) ?_
    simp [Frame.cost]
  · have hact : act gridT s w (.execute t tmp .body) .ret =
        some ([.execute t tmp .storeExecuted], s) := by
      simp only [act, executeTask, if_neg ht]
    refine .of_step h (step_of_act hst hact) trivial id ?_ ?_
    · unfold Waits
      dsimp only
      rw [hst]
      exact id
    · intro tmp' fs' hmain
      rw [hst] at hmain
      simp at hmain

/-- `enqueue` refuses the task, and its creator executes it. -/
theorem Nearer.of_refuse (h : Reachable gridT main s)
    (hst : s.rt.stack w = .schedule t true :: fs)
    (hfull : Queue.maxQueueEntries ≤ (s.rt.queue w).length) : Nearer gridT s := by
  have hact : act gridT s w (.schedule t true) .refuse = some ([.enter t], s) := rfl
  refine .of_step h (step_of_act hst hact) hfull id ?_ ?_
  · unfold Waits
    dsimp only
    rw [hst]
    exact id
  · intro tmp' fs' hmain
    rw [hst] at hmain
    simp at hmain

/-- A record that does not stop goes on. -/
theorem Nearer.of_go (h : Reachable gridT main s) (hst : s.rt.stack w = f :: fs)
    (hf : ¬ Stops s.rt f) : Nearer gridT s := by
  by_cases hfull : (∃ t, f = .schedule t true) ∧ Queue.maxQueueEntries ≤ (s.rt.queue w).length
  · obtain ⟨⟨t, rfl⟩, hfull⟩ := hfull
    exact .of_refuse h hst hfull
  have hends : AnswersAtEnds s (w, .go) := by
    intro t fs' hst'
    obtain ⟨rfl, -⟩ := List.cons.inj (hst.symm.trans hst')
    exact Nat.lt_of_not_le fun hle => hfull ⟨⟨t, rfl⟩, hle⟩
  obtain ⟨hsome, hwait⟩ := exists_act gridT (.of_reachable h) hst hf
  obtain ⟨⟨gs, s₁⟩, hact⟩ := Option.isSome_iff_exists.1 hsome
  refine .of_step h (step_of_act hst hact) hends id hwait ?_
  intro tmp' fs' hmain
  rw [hst] at hmain
  obtain ⟨rfl, -⟩ := List.cons.inj hmain
  exact hf .sync

/-! ## When every record stops -/

omit [DecidableEq ω] in
/-- A task that is being created has its creator on top of a stack. -/
theorem exists_creator (hT : Tokens s.rt) (hL : Layered s.rt) (hx : x < s.rt.next)
    (hcr : (s.rt.task x).status = .creating) :
    ∃ v t tmp pc fs, s.rt.stack v = .execute t tmp (.call x pc) :: fs := by
  have hcreating := hT.creating x
  rw [one, if_pos ⟨hx, hcr⟩] at hcreating
  obtain ⟨v, g, hg, hpos⟩ := exists_of_tally_pos (hcreating ▸ Nat.one_pos)
  unfold Frame.creates at hpos
  split at hpos
  · rename_i t tmp c pc
    obtain rfl : c = x := by
      by_contra hne
      simp [hne] at hpos
    cases hv : s.rt.stack v with
    | nil => rw [hv] at hg; cases hg
    | cons f fs =>
      rw [hv] at hg
      rcases List.mem_cons.1 hg with rfl | hmem
      · exact ⟨v, t, tmp, pc, fs, hv⟩
      · -- a record below another one is suspended
        have hpair := hL v
        rw [hv, List.pairwise_cons] at hpair
        exact absurd (hpair.1 _ hmem).suspended (by simp [Frame.suspended])
  · cases hpos

omit [DecidableEq ω] in
/-- The stack that runs the main program has no worker's loop on top. -/
theorem exists_main (hT : Tokens s.rt) (hF : Family s.rt) (hL : Layered s.rt)
    (hmain : 0 < s.rt.hist.start mainTask) :
    ∃ w f fs, s.rt.stack w = f :: fs ∧ f ≠ .worker := by
  have hrunning := hT.running mainTask
  rw [one, if_pos ⟨hF.main, hmain⟩] at hrunning
  obtain ⟨w, g, hg, hpos⟩ := exists_of_tally_pos (hrunning ▸ Nat.one_pos)
  have hgw : g ≠ .worker := by
    rintro rfl
    cases hpos
  cases hw : s.rt.stack w with
  | nil => rw [hw] at hg; cases hg
  | cons f fs =>
    rw [hw] at hg
    refine ⟨w, f, fs, hw, ?_⟩
    rcases List.mem_cons.1 hg with rfl | hmem
    · exact hgw
    · have hpair := hL w
      rw [hw, List.pairwise_cons] at hpair
      exact (hpair.1 g hmem).notWorker

/-- **From every state there is a way on.** -/
theorem nearer_of_reachable (h : Reachable gridT main s) : Nearer gridT s := by
  obtain ⟨hT, hF, -⟩ := Sound.of_reachable h
  have hC : Children s.rt := .of_reachable h
  have hL : Layered s.rt := .of_reachable h
  by_cases hgo : ∃ w f fs, s.rt.stack w = f :: fs ∧ ¬ Stops s.rt f
  · obtain ⟨w, f, fs, hst, hf⟩ := hgo
    exact .of_go h hst hf
  push Not at hgo
  by_cases hbody : ∃ w t tmp fs, s.rt.stack w = .execute t tmp .body :: fs
  · obtain ⟨w, t, tmp, fs, hst⟩ := hbody
    exact .of_body h hst
  push Not at hbody
  -- nobody waits for a task to be created, since its creator could go on
  have htop : ∀ w f fs, s.rt.stack w = f :: fs →
      f = .worker ∨ ∃ t tmp working, f = .execute t tmp (.sync t working) := by
    intro w f fs hst
    cases hgo w f fs hst with
    | worker => exact .inl rfl
    | @body t tmp => exact absurd hst (hbody w t tmp fs)
    | sync => exact .inr ⟨_, _, _, rfl⟩
    | @await t x n rest hcr =>
      have hok : FrameOk s.rt (.release t (.await x n rest)) :=
        hF.frames w _ (hst ▸ List.mem_cons_self)
      have hw : Waiter s.rt t x := hok.2.1 x List.mem_cons_self
      obtain ⟨v, t', tmp, pc, fs', hv⟩ := exists_creator hT hL hw.allocated hcr
      cases hgo v _ fs' hv
  by_cases hret : ∃ w t tmp working fs, s.rt.stack w = .execute t tmp (.sync t working) :: fs ∧
      (s.rt.task t).numberOfChildren = 0
  · obtain ⟨w, t, tmp, working, fs, hst, h0⟩ := hret
    exact .of_return h hst h0
  push Not at hret
  obtain ⟨w, f, fs, hst, hf⟩ := exists_main hT hF hL (start_main_pos h)
  obtain ⟨t, tmp, working, rfl⟩ := (htop w f fs hst).resolve_left hf
  by_cases hq : ∃ v, s.rt.queue v ≠ []
  · obtain ⟨v, hv⟩ := hq
    exact .of_waiting h hst (hret w t tmp working fs hst) hv
  push Not at hq
  -- otherwise all threads wait for each other, which cannot be
  have hsync : ∀ w t tmp q working fs, s.rt.stack w = .execute t tmp (.sync q working) :: fs →
      q = t := fun w t tmp q working fs hst =>
    hF.frames w (.execute t tmp (.sync q working)) (hst ▸ List.mem_cons_self)
  have hD : Deadlocked s.rt := by
    refine ⟨hq, fun v => ?_, ⟨w, t, tmp, t, working, fs, hst⟩, ?_⟩
    · obtain ⟨l, g, hl, -⟩ := Rooted.of_reachable h v
      obtain ⟨f, fs, hv⟩ := List.exists_cons_of_ne_nil (l := s.rt.stack v) (by simp [hl])
      rcases htop v f fs hv with rfl | ⟨t, tmp, working, rfl⟩
      · exact ⟨_, fs, hv, .inl rfl⟩
      · exact ⟨_, fs, hv, .inr ⟨t, tmp, t, working, rfl⟩⟩
    · intro w t tmp q working fs hst
      obtain rfl := hsync w t tmp q working fs hst
      exact Nat.pos_of_ne_zero (hret w q tmp working fs hst)
  obtain ⟨q, hpos, hstalled⟩ := hD.stalled hF hL
  rw [hC.count, Finset.card_pos] at hpos
  obtain ⟨x, hx⟩ := hpos
  exact absurd hx (hstalled.not_live hT hF hC _ q rfl le_rfl x)

omit [DecidableEq ω] in
/-- At the end, the children of the main program are complete. -/
theorem AtEnd.complete (h : AtEnd s) (hT : Tokens s.rt) (hF : Family s.rt) (hC : Children s.rt)
    {c : TaskId} (hc : (s.rt.task c).parent = some mainTask) : (s.rt.task c).status = .complete := by
  classical
  obtain ⟨⟨w, tmp, fs, hst⟩, h0⟩ := h
  refine hT.left c (left_of_counted hT hF hC h0 hc ?_)
  by_contra huncounted
  obtain ⟨v, tmp', hf⟩ := exists_incr_of_uncounted hT hF hc (by simpa using huncounted)
  have hnot : v = w → Frame.execute mainTask tmp' (.call c .incr) ∈ fs := by
    rintro rfl
    rw [hst] at hf
    exact (List.mem_cons.1 hf).resolve_left (by simp)
  have hruns := hT.runs_eq_zero (t := mainTask) hst (by simp [Frame.runs]) hf hnot
  simp [Frame.runs] at hruns

end Partee
