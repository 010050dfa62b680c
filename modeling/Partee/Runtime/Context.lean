import Partee.Runtime.Elements

/-!
# The current task of a thread

`execute_task` saves `curr_task` and restores both `curr_task` and `parent` from
it.  It is reached from the worker loop, from `tpc_sync`, from `schedule_task` when
the deque is full, and from there inside `fire_dependencies`, so the activations of
a thread nest to any depth.  By `Family.bracketed` each of them has saved the task
that is running below it, and by `Family.currTask` the thread-local variable is the
task that is running on the stack; hence the two variables are right whenever user
code runs, and a descriptor gets the task that spawns it as its parent.
-/

namespace Partee

open Transition

variable {ω : Type*} [Fintype ω] [DecidableEq ω] {gridT : BitVec 64} {main w : ω}
  {s s' : State ω} {t c : TaskId} {tmp : Option TaskId} {fs : List Frame}

omit [Fintype ω] [DecidableEq ω] in
/-- While user code of `t` runs, both variables are `t`. -/
theorem Family.context_of_body (hF : Family s.rt)
    (hst : s.rt.stack w = .execute t tmp .body :: fs) :
    s.rt.parent w = some t ∧ s.rt.currTask w = some t := by
  have hctx : context (s.rt.stack w) = some t := by rw [hst, context]
  exact ⟨hF.workerParent w t hctx, (hF.currTask w).trans hctx⟩

omit [Fintype ω] [DecidableEq ω] in
/-- `curr_task` depends on the activations below a call of `execute_task` only. -/
theorem Family.currTask_of_enter (hF : Family s.rt) (hst : s.rt.stack w = .enter t :: fs) :
    s.rt.currTask w = context fs := by
  rw [hF.currTask w, hst, context]
  exact fun _ _ _ h => Frame.noConfusion h

omit [Fintype ω] in
/-- A descriptor allocated by the body of `t` has `t` as its parent. -/
theorem Family.parent_of_spawn (hF : Family s.rt)
    (hst : s.rt.stack w = .execute t tmp .body :: fs) {args : List Argument}
    (hstep : step gridT s (w, .spawn args) = some s') :
    s'.rt.next = s.rt.next + 1 ∧ (s'.rt.task s.rt.next).parent = some t := by
  have hparent := (hF.context_of_body hst).1
  simp only [step, hst, act, executeTask, hparent, Option.map_some] at hstep
  cases hstep
  exact ⟨rfl, by simp [Runtime.alloc]⟩

omit [Fintype ω] in
/-- The increment of `tpc_call` is made at the task whose body made the call. -/
theorem Family.counted_at_caller (hF : Family s.rt)
    (hst : s.rt.stack w = .execute t tmp (.call c .incr) :: fs)
    (hstep : step gridT s (w, .go) = some s') :
    (s.rt.task c).parent = some t ∧ ∀ p, (s'.rt.task p).numberOfChildren =
      (s.rt.task p).numberOfChildren + if p = t then 1 else 0 := by
  have hok : FrameOk s.rt (.execute t tmp (.call c .incr)) :=
    hF.frames w _ (hst ▸ List.mem_cons_self)
  refine ⟨hok.2, fun p => ?_⟩
  simp only [step, hst, act, executeTask, tpcCall, hok.2, Option.map_some] at hstep
  cases hstep
  rcases eq_or_ne p t with rfl | hp
  · simp [Runtime.incrChildren, Runtime.modify]
  · simp [Runtime.incrChildren, Runtime.modify, hp]

/-- **The current task is well bracketed.**  In every reachable state, for every
thread: while the body of a task runs, and so also on its entry and after each
`tpc_call` and `tpc_sync` made by it, `parent` and `curr_task` are that task; when
an activation of `execute_task` has returned, `curr_task` has the value it had at
the call; and what the body spawns is allocated in, and counted at, that task. -/
theorem context_bracketed (h : Reachable gridT main s) (w : ω) :
    (∀ t tmp fs, s.rt.stack w = .execute t tmp .body :: fs →
      s.rt.parent w = some t ∧ s.rt.currTask w = some t) ∧
    (∀ t fs s', s.rt.stack w = .enter t :: fs → Reach (step gridT) s s' →
      s'.rt.stack w = fs → s'.rt.currTask w = s.rt.currTask w) ∧
    (∀ t tmp fs args s', s.rt.stack w = .execute t tmp .body :: fs →
      step gridT s (w, .spawn args) = some s' →
      s'.rt.next = s.rt.next + 1 ∧ (s'.rt.task s.rt.next).parent = some t) ∧
    ∀ t tmp c fs s', s.rt.stack w = .execute t tmp (.call c .incr) :: fs →
      step gridT s (w, .go) = some s' →
      (s.rt.task c).parent = some t ∧ ∀ p, (s'.rt.task p).numberOfChildren =
        (s.rt.task p).numberOfChildren + if p = t then 1 else 0 := by
  have hF : Family s.rt := (Sound.of_reachable h).family
  refine ⟨fun t tmp fs hst => hF.context_of_body hst, fun t fs s' hst hr hst' => ?_,
    fun t tmp fs args s' hst => hF.parent_of_spawn hst,
    fun t tmp c fs s' hst => hF.counted_at_caller hst⟩
  have hF' : Family s'.rt := (Sound.of_reachable (h.trans hr)).family
  rw [hF'.currTask w, hst', hF.currTask_of_enter hst]

/-- The deque of the main program refuses task 1, which is executed inline, inside
`tpc_call`; afterwards the main program is the current task again. -/
theorem context_bracketed_example :
    ∃ s s' : State (Fin 2), Reachable 0 0 s ∧ Reach (step 0) s s' ∧
      s.rt.stack 0 = [.enter 1, .execute 0 none .body] ∧
      s'.rt.stack 0 = [.execute 0 none .body] ∧ s'.rt.hist.runs 1 = 1 ∧
      s'.rt.currTask 0 = s.rt.currTask 0 ∧ s'.rt.parent 0 = some 0 := by
  have hrun : ∃ s ∈ exec (step 0) always ((0, .spawn []) :: goOn 0 5 ++ [(0, .refuse)])
      (init (0 : Fin 2)), s.rt.stack 0 = [.enter 1, .execute 0 none .body] ∧
      ∃ s' ∈ exec (step 0) always ((0, .go) :: (0, .ret) :: goOn 0 10) s,
        s'.rt.stack 0 = [.execute 0 none .body] ∧ s'.rt.hist.runs 1 = 1 :=
    ⟨_, rfl, rfl, _, rfl, rfl, rfl⟩
  obtain ⟨s, hr, hst, s', hs', hst', hruns⟩ := Run.exists_of_exec hrun
  have hr' : Reach (step 0) s s' := .of_exec hs'
  exact ⟨s, s', hr, hr', hst, hst', hruns,
    (context_bracketed hr 0).2.1 1 _ s' hst hr' hst',
    ((context_bracketed (hr.trans hr') 0).1 0 none [] hst').1⟩

end Partee
