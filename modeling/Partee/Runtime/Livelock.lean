import Partee.Runtime.Elements
import Partee.Transition.Ranking
import Mathlib.Data.List.GetD
import Mathlib.Data.Prod.Lex

/-!
# No livelock

Busy waiting apart, the runtime does a bounded amount of work for each task.  The
work that is left is measured lexicographically:

* the calls of `tpc_call` that have not reached the analysis yet;
* the steps left in the loops of the analysis, where a whole list of readers counts
  as one step;
* the readers left in the lists being walked;
* everything that follows: notifications, the moves of the statuses, the deques.

A call of the analysis adds notifications while it goes on, which is why it stands
above them, and the length of a list of readers is known only when the walk reaches
it.

* `rank`: the work that is left.
* `Waits`, `Calls`: the steps of busy waiting, and the calls by which a body gives
  the runtime something to do.
* `no_livelock`: in an infinite run with finitely many calls, almost all steps wait.
-/

namespace Partee

open Transition

variable {ω : Type*}

/-! ## The work that is left -/

/-- One range of blocks, with up to three steps for a block. -/
def pieceSize (piece : List ℕ) : ℕ := 1 + 3 * piece.length

/-- One argument. -/
def argSize (gridT : BitVec 64) (a : Argument) : ℕ :=
  1 + ((handleArgument gridT a).1.map pieceSize).sum

/-- The loops of the analysis. -/
def Walk.size (gridT : BitVec 64) (k : Walk) : ℕ :=
  (k.args.map (argSize gridT)).sum + (k.pieces.map pieceSize).sum + 3 * k.blocks.length

namespace CallPc

/-- The steps left before the analysis. -/
def entering : CallPc → ℕ
  | .incr => 2
  | .creating => 1
  | _ => 0

/-- The steps left from the analysis on. -/
def size (gridT : BitVec 64) : CallPc → ℕ
  | .incr | .creating => 0
  | .walk k => k.size gridT + 3
  | .push k _ _ | .readers k _ | .pushDependent k _ => k.size gridT + 4
  | .ownerStatus k _ _ => k.size gridT + 5
  | .storeWaitfor _ => 2
  | .storeCreated _ => 1

/-- The readers left in the list that is being walked. -/
def readersLeft : CallPc → ℕ
  | .readers _ rest => rest.length
  | _ => 0

end CallPc

/-- The steps left of a release; five for each task to be notified. -/
def ReleasePc.cost : ReleasePc → ℕ
  | .cas => 1
  | .lock => 8
  | .fire rest => 5 * rest.length + 7
  | .await _ _ rest => 5 * rest.length + 11
  | .testStatus _ _ rest => 5 * rest.length + 10
  | .testWaitfor _ _ rest => 5 * rest.length + 9
  | .storeComplete => 6
  | .deleteRegion => 5
  | .decr => 4
  | .testParent _ _ => 3
  | .callParent _ => 2

namespace Frame

/-- Inside `tpc_call`. -/
def isCall : Frame → Bool
  | .execute _ _ (.call _ _) => true
  | _ => false

/-- A weight of the program points of `tpc_call`. -/
def callWeight (wt : CallPc → ℕ) : Frame → ℕ
  | .execute _ _ (.call _ pc) => wt pc
  | _ => 0

/-- The steps left outside `tpc_call`, where the body of the main program counts as
`b` steps. -/
def cost (b : ℕ) : Frame → ℕ
  | .worker => 0
  | .enter _ => 6
  | .execute t _ .body => if t = mainTask then b else 5
  | .execute _ _ (.call _ _) => 0
  | .execute _ _ (.sync _ _) => 6
  | .execute _ _ .storeExecuted => 4
  | .execute _ _ .loadChildren => 3
  | .execute _ _ .restore => 1
  | .schedule _ false => 1
  | .schedule _ true => 8
  | .release _ pc => pc.cost

end Frame

/-- What is still to come for a task, and for those on its `to_notify` stack. -/
def Descriptor.cost (d : Descriptor) : ℕ :=
  (if d.status.code < Status.scheduled.code then 8 else 0) +
    (if d.status.code < Status.releasing.code then 8 else 0) + 5 * (d.toNotify.getD []).length

/-- What is still to come for all tasks. -/
def tasksCost (r : Runtime ω) : ℕ := ∑ t ∈ Finset.range r.next, (r.task t).cost

section

variable [Fintype ω]

/-- The work left outside `tpc_call`. -/
def cost (b : ℕ) (r : Runtime ω) : ℕ :=
  tally (Frame.cost b) r.stack + tally (fun _ => 7) r.queue + tasksCost r

/-- The work that is left. -/
def rank (gridT : BitVec 64) (b : ℕ) (s : State ω) : ℕ ×ₗ ℕ ×ₗ ℕ ×ₗ ℕ :=
  toLex (tally (Frame.callWeight CallPc.entering) s.rt.stack,
    toLex (tally (Frame.callWeight (CallPc.size gridT)) s.rt.stack,
      toLex (tally (Frame.callWeight CallPc.readersLeft) s.rt.stack, cost b s.rt)))

end

/-! ## Busy waiting and calls -/

/-- The step looks whether there is something to do, and finds nothing. -/
def Waits (s : State ω) (a : ω × Choice ω) : Prop :=
  match s.rt.stack a.1, a.2 with
  | .worker :: _, .nothing => True
  | .execute _ _ (.sync q false) :: _, .go => (s.rt.task q).numberOfChildren ≠ 0
  | .execute _ _ (.sync _ true) :: _, .nothing => True
  | .release _ (.await x _ _) :: _, .go =>
      (s.rt.task x).status.code < Status.created.code
  | _, _ => False

/-- A body calls `tpc_call` or `tpc_sync`. -/
def Calls (a : ω × Choice ω) : Prop :=
  match a.2 with
  | .spawn _ | .sync => True
  | _ => False

/-! ## Inside `tpc_call` -/

section

variable {gridT : BitVec 64} {s s' : State ω} {c p : TaskId} {k : Walk} {pc pc' : CallPc}
  {j : ℕ}

/-- The work left to a call is less: before the analysis, inside it, or in the list of
readers being walked. -/
def CallPc.Less (gridT : BitVec 64) (pc' pc : CallPc) : Prop :=
  pc'.entering < pc.entering ∨ pc'.entering = pc.entering ∧
    (pc'.size gridT < pc.size gridT ∨ pc'.size gridT = pc.size gridT ∧
      pc'.readersLeft < pc.readersLeft)

theorem size_createDependency (gridT : BitVec 64) (d : Analysis) (c p : TaskId) (k : Walk) (j : ℕ) :
    (createDependency d c p k j).1.entering = 0 ∧
      (createDependency d c p k j).1.size gridT ≤ k.size gridT + 5 := by
  unfold createDependency
  split
  · split
    · exact ⟨rfl, by simp [CallPc.size]⟩
    · split <;> exact ⟨rfl, by simp [CallPc.size]⟩
  · split
    · exact ⟨rfl, by simp [CallPc.size]⟩
    · split <;> exact ⟨rfl, by simp [CallPc.size]⟩

theorem size_createDependencies (gridT : BitVec 64) (d : Analysis) (c p : TaskId) (k : Walk) :
    (createDependencies gridT d c p k).1.entering = 0 ∧
      (createDependencies gridT d c p k).1.size gridT < k.size gridT + 3 := by
  unfold createDependencies
  split
  · rename_i i blocks hb
    obtain ⟨h0, hle⟩ := size_createDependency gridT d c p { k with blocks := blocks } i
    refine ⟨h0, hle.trans_lt ?_⟩
    simp only [Walk.size, hb, List.length_cons]
    omega
  · rename_i piece pieces hb hp
    refine ⟨rfl, ?_⟩
    simp only [CallPc.size, Walk.size, hb, hp, List.map_cons, List.sum_cons, List.length_nil,
      pieceSize]
    omega
  · rename_i a args hb hp ha
    split
    · refine ⟨rfl, ?_⟩
      simp only [CallPc.size, Walk.size, ha, hb, hp, List.map_cons, List.sum_cons, List.map_nil,
        List.sum_nil, List.length_nil, argSize]
      omega
    · refine ⟨rfl, ?_⟩
      simp only [CallPc.size, Walk.size, ha, hb, hp, List.map_cons, List.sum_cons, List.map_nil,
        List.sum_nil, List.length_nil, argSize]
      omega
  · split
    · exact ⟨rfl, by simp only [CallPc.size]; omega⟩
    · exact ⟨rfl, by simp only [CallPc.size]; omega⟩

theorem less_notifyOwner {e : ElemId} {raw : Bool} :
    (notifyOwner s c k e raw).1.Less gridT (.push k e raw) := by
  refine .inr ?_
  unfold notifyOwner
  dsimp only
  split
  · exact ⟨rfl, .inl (by simp [CallPc.size])⟩
  · split
    · exact ⟨rfl, .inl (by simp [CallPc.size])⟩
    · exact ⟨rfl, .inl (by simp [CallPc.size, Walk.size])⟩

theorem less_notifyReaders {rest : List TaskId} :
    (notifyReaders s c k rest).1.Less gridT (.readers k rest) := by
  refine .inr ?_
  cases rest with
  | nil => exact ⟨rfl, .inl (by simp [notifyReaders, CallPc.size])⟩
  | cons x rest =>
    unfold notifyReaders
    dsimp only
    split
    · split
      · exact ⟨rfl, .inr ⟨rfl, by simp [CallPc.readersLeft]⟩⟩
      · exact ⟨rfl, .inr ⟨rfl, by simp [CallPc.readersLeft]⟩⟩
    · exact ⟨rfl, .inr ⟨rfl, by simp [CallPc.readersLeft]⟩⟩

theorem less_readAfterRead {e : ElemId} :
    (readAfterRead s c p k e j).1.Less gridT (.ownerStatus k e j) := by
  refine .inr ?_
  unfold readAfterRead
  dsimp only
  split
  · split
    · exact ⟨rfl, .inl (by simp [CallPc.size])⟩
    · split <;> exact ⟨rfl, .inl (by simp [CallPc.size])⟩
  · exact ⟨rfl, .inl (by simp [CallPc.size])⟩

theorem less_notifyDependent {e : ElemId} :
    (notifyDependent s c k e).1.Less gridT (.pushDependent k e) := by
  refine .inr ?_
  unfold notifyDependent
  dsimp only
  split
  · exact ⟨rfl, .inl (by simp [CallPc.size])⟩
  · exact ⟨rfl, .inl (by simp [CallPc.size, Walk.size])⟩

/-- **A call goes on.** -/
theorem less_tpcCall (h : tpcCall gridT s c pc = some (pc', s')) : pc'.Less gridT pc := by
  cases pc with
  | incr =>
    rw [tpcCall] at h
    split at h <;> cases h <;> exact .inl (by decide)
  | creating =>
    cases h
    exact .inl (by simp [CallPc.entering])
  | walk k =>
    rw [tpcCall, Option.map_eq_some_iff] at h
    obtain ⟨p, -, heq⟩ := h
    cases heq
    obtain ⟨h0, hlt⟩ := size_createDependencies gridT s.dep c p k
    exact .inr ⟨h0, .inl hlt⟩
  | push k e raw =>
    obtain rfl := congrArg Prod.fst (Option.some.inj h)
    exact less_notifyOwner
  | readers k rest =>
    obtain rfl := congrArg Prod.fst (Option.some.inj h)
    exact less_notifyReaders
  | ownerStatus k e i =>
    rw [tpcCall, Option.map_eq_some_iff] at h
    obtain ⟨p, -, heq⟩ := h
    obtain rfl := congrArg Prod.fst heq
    exact less_readAfterRead
  | pushDependent k e =>
    obtain rfl := congrArg Prod.fst (Option.some.inj h)
    exact less_notifyDependent
  | storeWaitfor n =>
    cases h
    exact .inr ⟨rfl, .inl (by simp [CallPc.size])⟩
  | storeCreated n => cases h

end

/-! ## Outside `tpc_call` -/

section

variable {r r' : Runtime ω} {t : TaskId}

/-- One task changes. -/
theorem tasksCost_update (ht : t < r.next) (hnext : r'.next = r.next)
    (h : ∀ u, u ≠ t → r'.task u = r.task u) :
    tasksCost r' + (r.task t).cost = tasksCost r + (r'.task t).cost := by
  have hcost : ∀ u, u ≠ t → (r'.task u).cost = (r.task u).cost := fun u hu => by rw [h u hu]
  unfold tasksCost
  rw [hnext]
  exact sum_range_replace ht hcost

/-- What does not change the cost of any task. -/
theorem tasksCost_eq (hnext : r'.next = r.next) (h : ∀ u, (r'.task u).cost = (r.task u).cost) :
    tasksCost r' = tasksCost r := by
  unfold tasksCost
  rw [hnext]
  exact Finset.sum_congr rfl fun u _ => h u

/-- A change of one descriptor that keeps its cost. -/
theorem tasksCost_modify {f : Descriptor → Descriptor} (h : (f (r.task t)).cost = (r.task t).cost) :
    tasksCost (r.modify t f) = tasksCost r := by
  refine tasksCost_eq rfl fun u => ?_
  rcases eq_or_ne u t with rfl | hu
  · simp [h]
  · simp [hu]

end

/-- The records of busy waiting. -/
inductive Idles (r : Runtime ω) : Frame → List Frame → Prop where
  | worker : Idles r .worker [.worker]
  | busy {t q : TaskId} {tmp : Option TaskId} (h0 : (r.task q).numberOfChildren ≠ 0) :
      Idles r (.execute t tmp (.sync q false)) [.execute t tmp (.sync q true)]
  | nothing {t q : TaskId} {tmp : Option TaskId} :
      Idles r (.execute t tmp (.sync q true)) [.execute t tmp (.sync q false)]
  | spin {t x : TaskId} {n : ℕ} {rest : List TaskId}
      (hst : (r.task x).status.code < Status.created.code) :
      Idles r (.release t (.await x n rest)) [.release t (.await x n rest)]

section

variable [Fintype ω] [DecidableEq ω] {r r' : Runtime ω} {w : ω} {f : Frame} {gs : List Frame}
  {b : ℕ}

/-- **Every move outside `tpc_call` is progress, busy waiting, or a call.**  The body of
the main program may count for more than `tpc_sync`, as long as it does not return
from there. -/
theorem Move.cost_lt (h : Move r w f gs r') (ho : Owned r f) (hT : Tokens r)
    (hmain : 0 < r.hist.start mainTask) (hcall : f.isCall = false)
    (hb : b ≤ 5 ∨ ∀ tmp, f ≠ .execute mainTask tmp (.sync mainTask false)) :
    (gs.map (Frame.cost b)).sum + tally (fun _ => 7) r'.queue + tasksCost r' <
        f.cost b + tally (fun _ => 7) r.queue + tasksCost r ∨
      (Idles r f gs ∧ r' = r) ∨ ∃ t tmp, f = .execute t tmp .body ∧
        ((∃ c, gs = [.execute t tmp (.call c .incr)]) ∨
          ∃ q, gs = [.execute t tmp (.sync q false)]) := by
  have hkeep : (gs.map (Frame.cost b)).sum < f.cost b → r'.queue = r.queue →
      tasksCost r' = tasksCost r →
      (gs.map (Frame.cost b)).sum + tally (fun _ => 7) r'.queue + tasksCost r' <
        f.cost b + tally (fun _ => 7) r.queue + tasksCost r := by
    intro hlt hqueue htasks
    rw [hqueue, htasks]
    omega
  -- a task is taken from a deque
  have htake : ∀ {v k t g}, (r.queue v)[k]? = some t → g.cost b = f.cost b →
      (([Frame.enter t, g] : List Frame).map (Frame.cost b)).sum +
          tally (fun _ => 7) (r.dequeue v k).queue + tasksCost (r.dequeue v k) <
        f.cost b + tally (fun _ => 7) r.queue + tasksCost r := by
    intro v k t g hk hg
    have hqueue : tally (fun _ => 7) (r.dequeue v k).queue + 7 = tally (fun _ => 7) r.queue :=
      tally_eraseIdx (fun _ => 7) hk
    have htasks : tasksCost (r.dequeue v k) = tasksCost r := tasksCost_eq rfl fun _ => rfl
    have henter : (Frame.enter t).cost b = 6 := rfl
    rw [List.map_cons, List.map_singleton, List.sum_cons, List.sum_singleton, henter, hg, htasks]
    omega
  cases h with
  | spawn hp => exact .inr (.inr ⟨_, _, rfl, .inl ⟨_, rfl⟩⟩)
  | syncCall hq => exact .inr (.inr ⟨_, _, rfl, .inr ⟨_, rfl⟩⟩)
  | idle => exact .inr (.inl ⟨.worker, rfl⟩)
  | syncBusy h0 => exact .inr (.inl ⟨.busy h0, rfl⟩)
  | syncNothing => exact .inr (.inl ⟨.nothing, rfl⟩)
  | spin hst => exact .inr (.inl ⟨.spin hst, rfl⟩)
  | incr | creating | walk | push | storeWaitfor | createdReady | createdWaiting => cases hcall
  | take hk => exact .inl (htake hk rfl)
  | syncTake hk => exact .inl (htake hk rfl)
  | @accept t =>
    left
    have hq : tally (fun _ => 7) (r.enqueue w t).queue + ((r.queue w).map fun _ => 7).sum =
        tally (fun _ => 7) r.queue + ((r.queue w ++ [t]).map fun _ => 7).sum :=
      tally_update (fun _ => 7) r.queue w (r.queue w ++ [t])
    have htasks : tasksCost (r.enqueue w t) = tasksCost r := tasksCost_eq rfl fun _ => rfl
    rw [List.map_append, List.sum_append, List.map_singleton, List.sum_singleton] at hq
    simp only [List.map_nil, List.sum_nil, Frame.cost]
    omega
  | @enter t =>
    have ht : t ≠ mainTask := by
      rintro rfl
      exact hmain.ne' ho.2
    exact .inl (hkeep (by simp [Frame.cost, ht]) rfl (tasksCost_eq rfl fun _ => rfl))
  | @syncDone t q tmp h0 =>
    have hlt : (if t = mainTask then b else 5) < 6 := by
      split
      · rename_i ht
        obtain ⟨rfl, -⟩ := ho
        exact Nat.lt_succ_of_le (hb.resolve_right fun hne => hne tmp (by rw [ht]))
      · exact Nat.lt_succ_self 5
    exact .inl (hkeep (by simpa [Frame.cost] using hlt) rfl (tasksCost_eq rfl fun _ => rfl))
  | restore => exact .inl (hkeep (by simp [Frame.cost]) rfl (tasksCost_eq rfl fun _ => rfl))
  | ret ht => exact .inl (hkeep (by simp [Frame.cost, ht]) rfl rfl)
  | @storeExecuted t tmp =>
    have hst : (r.task t).status = .scheduled := ho.2.1
    refine .inl (hkeep (by simp [Frame.cost]) rfl (tasksCost_modify ?_))
    simp [Descriptor.cost, hst, Status.code]
  | fire => exact .inl (hkeep (by simp [Frame.cost, ReleasePc.cost]; omega) rfl (tasksCost_modify rfl))
  | @storeComplete t =>
    have hst : (r.task t).status = .releasing := ho.1
    refine .inl (hkeep (by simp [Frame.cost, ReleasePc.cost]) rfl (tasksCost_modify ?_))
    simp [Descriptor.cost, hst, Status.code]
  | deleteRegion =>
    exact .inl (hkeep (by simp [Frame.cost, ReleasePc.cost]) rfl (tasksCost_modify rfl))
  | @decr t p hp =>
    refine .inl (hkeep (by simp [Frame.cost, ReleasePc.cost]) rfl ?_)
    exact tasksCost_modify (f := fun d => { d with numberOfChildren := d.numberOfChildren - 1 }) rfl
  | @scheduleWon t hst =>
    left
    have htasks : tasksCost (r.schedule t) + (r.task t).cost =
        tasksCost r + ((r.schedule t).task t).cost :=
      tasksCost_update (hT.lt_next (by simp [hst])) rfl fun u hu => by simp [hu]
    have hqueue : tally (fun _ => 7) (r.schedule t).queue = tally (fun _ => 7) r.queue := rfl
    simp only [Runtime.schedule_task, Function.update_self, Descriptor.cost, hst, Status.code,
      Nat.reduceLT, if_true, if_false] at htasks
    simp only [List.map_cons, List.map_nil, List.sum_cons, List.sum_nil, Frame.cost]
    omega
  | @releaseWon t hst =>
    left
    have htasks : tasksCost (r.release t) + (r.task t).cost =
        tasksCost r + ((r.release t).task t).cost :=
      tasksCost_update (hT.lt_next (by simp [hst])) rfl fun u hu => by simp [hu]
    have hqueue : tally (fun _ => 7) (r.release t).queue = tally (fun _ => 7) r.queue := rfl
    simp only [Runtime.release_task, Function.update_self, Descriptor.cost, hst, Status.code,
      Nat.reduceLT, if_true, if_false] at htasks
    simp only [List.map_cons, List.map_nil, List.sum_cons, List.sum_nil, Frame.cost, ReleasePc.cost]
    omega
  | @lock t l hl =>
    left
    have htasks : tasksCost (r.locked t) + (r.task t).cost =
        tasksCost r + ((r.locked t).task t).cost :=
      tasksCost_update ho.1 rfl fun u hu => by simp [hu]
    have hqueue : tally (fun _ => 7) (r.locked t).queue = tally (fun _ => 7) r.queue := rfl
    simp only [Runtime.locked_task, Function.update_self, Descriptor.cost, hl, Option.getD_some,
      Option.getD_none, List.length_nil] at htasks
    simp only [List.map_cons, List.map_nil, List.sum_cons, List.sum_nil, Frame.cost, ReleasePc.cost]
    omega
  | _ =>
    left
    refine hkeep ?_ rfl rfl
    simp only [List.map_cons, List.map_nil, List.sum_cons, List.sum_nil, Frame.cost, ReleasePc.cost]
    omega

end

/-! ## One step -/

section

variable [Fintype ω] [DecidableEq ω] {gridT : BitVec 64} {main : ω} {s s' s₁ : State ω} {w : ω}
  {f : Frame} {gs fs : List Frame} {a : ω × Choice ω} {b : ℕ}

theorem start_main_pos (h : Reachable gridT main s) : 0 < s.rt.hist.start mainTask := by
  refine h.invariant_of (I := fun s => 0 < s.rt.hist.start mainTask)
    (fun s hs => Sound.of_reachable hs) Nat.one_pos ?_
  intro s a s' hS h0 _ hs
  obtain ⟨f, fs, gs, s₁, hst, hact, rfl⟩ := act_of_step hs
  show 0 < s₁.rt.hist.start mainTask
  rw [(hS.grows hst hact).start mainTask h0]
  exact h0

omit [Fintype ω] in
/-- Outside `tpc_call`, and but for the call of it, no record is inside it. -/
theorem Move.callWeight_eq {r r' : Runtime ω} (h : Move r w f gs r') (hcall : f.isCall = false)
    (wt : CallPc → ℕ) (hgs : ∀ t tmp c, gs ≠ [.execute t tmp (.call c .incr)]) :
    Frame.callWeight wt f = 0 ∧ (gs.map (Frame.callWeight wt)).sum = 0 := by
  cases h with
  | spawn hp => exact absurd rfl (hgs _ _ _)
  | incr | creating | walk | push | storeWaitfor | createdReady | createdWaiting => cases hcall
  | _ => exact ⟨rfl, rfl⟩

omit [Fintype ω] in
/-- Only a body calls `tpc_call`. -/
theorem Move.eq_body {r r' : Runtime ω} {t c : TaskId} {tmp : Option TaskId}
    (h : Move r w f [.execute t tmp (.call c .incr)] r') (hcall : f.isCall = false) :
    f = .execute t tmp .body := by
  cases h with
  | spawn _ => rfl
  | _ => cases hcall

omit [Fintype ω] in
/-- The records of a step inside `tpc_call`. -/
theorem less_of_act {t c : TaskId} {tmp : Option TaskId} {pc : CallPc} {x : Choice ω}
    (h : act gridT s w (.execute t tmp (.call c pc)) x = some (gs, s₁)) :
    (∃ pc', gs = [.execute t tmp (.call c pc')] ∧ pc'.Less gridT pc) ∨
      ∃ n, pc = .storeCreated n ∧ ∀ wt, (gs.map (Frame.callWeight wt)).sum = 0 := by
  cases x with
  | go =>
    cases pc with
    | storeCreated n =>
      simp only [act, executeTask] at h
      split at h <;> cases h <;> exact .inr ⟨n, rfl, fun _ => rfl⟩
    | _ =>
      simp only [act, executeTask, Option.map_eq_some_iff] at h
      obtain ⟨⟨pc', s'⟩, hcall, heq⟩ := h
      cases heq
      exact .inl ⟨pc', rfl, less_tpcCall hcall⟩
  | _ => cases pc <;> cases h

omit [DecidableEq ω] in
theorem rank_lt_rank (h : tally (Frame.callWeight CallPc.entering) s'.rt.stack <
      tally (Frame.callWeight CallPc.entering) s.rt.stack ∨
    tally (Frame.callWeight CallPc.entering) s'.rt.stack =
        tally (Frame.callWeight CallPc.entering) s.rt.stack ∧
      (tally (Frame.callWeight (CallPc.size gridT)) s'.rt.stack <
          tally (Frame.callWeight (CallPc.size gridT)) s.rt.stack ∨
        tally (Frame.callWeight (CallPc.size gridT)) s'.rt.stack =
            tally (Frame.callWeight (CallPc.size gridT)) s.rt.stack ∧
          (tally (Frame.callWeight CallPc.readersLeft) s'.rt.stack <
              tally (Frame.callWeight CallPc.readersLeft) s.rt.stack ∨
            tally (Frame.callWeight CallPc.readersLeft) s'.rt.stack =
                tally (Frame.callWeight CallPc.readersLeft) s.rt.stack ∧
              cost b s'.rt < cost b s.rt))) : rank gridT b s' < rank gridT b s := by
  simpa only [rank, Prod.Lex.toLex_lt_toLex] using h

/-- The tallies after a move. -/
theorem tally_of_move {r r' : Runtime ω} (hm : Move r w f gs r') (hst : r.stack w = f :: fs)
    (wt : Frame → ℕ) :
    tally wt (r'.setStack w (gs ++ fs)).stack + wt f = tally wt r.stack + (gs.map wt).sum := by
  have hstack : (r'.setStack w (gs ++ fs)).stack = Function.update r.stack w (gs ++ fs) := by
    show Function.update r'.stack w (gs ++ fs) = _
    rw [hm.stack_eq]
  rw [hstack, tally_replace wt hst]

/-- A step of `tpc_call`. -/
theorem rank_lt_of_call (hS : Sound s) (hst : s.rt.stack w = f :: fs) {x : Choice ω}
    (hact : act gridT s w f x = some (gs, s₁)) (hcall : f.isCall = true) :
    rank gridT b { s₁ with rt := s₁.rt.setStack w (gs ++ fs) } < rank gridT b s := by
  have hkeep := tally_of_move (hS.move hst hact) hst
  have h0 := hkeep (Frame.callWeight CallPc.entering)
  have h1 := hkeep (Frame.callWeight (CallPc.size gridT))
  have h2 := hkeep (Frame.callWeight CallPc.readersLeft)
  unfold Frame.isCall at hcall
  split at hcall
  · rename_i t tmp c pc
    apply rank_lt_rank
    dsimp only
    rcases less_of_act hact with ⟨pc', rfl, hless⟩ | ⟨n, rfl, hzero⟩
    · simp only [List.map_cons, List.map_nil, List.sum_cons, List.sum_nil, Frame.callWeight]
        at h0 h1 h2
      rcases hless with hlt | ⟨heq, hlt | ⟨heq', hlt⟩⟩
      · exact .inl (by omega)
      · exact .inr ⟨by omega, .inl (by omega)⟩
      · exact .inr ⟨by omega, .inr ⟨by omega, .inl (by omega)⟩⟩
    · -- the call is left
      rw [hzero] at h0 h1 h2
      simp only [Frame.callWeight, CallPc.entering, CallPc.size] at h0 h1
      exact .inr ⟨by omega, .inl (by omega)⟩
  · cases hcall

/-- A step outside `tpc_call`. -/
theorem rank_of_cost (hm : Move s.rt w f gs s₁.rt) (hst : s.rt.stack w = f :: fs)
    (hcall : f.isCall = false) (hgs : ∀ t tmp c, gs ≠ [.execute t tmp (.call c .incr)]) :
    (gs.map (Frame.cost b)).sum + tally (fun _ => 7) s₁.rt.queue + tasksCost s₁.rt <
        f.cost b + tally (fun _ => 7) s.rt.queue + tasksCost s.rt →
      rank gridT b { s₁ with rt := s₁.rt.setStack w (gs ++ fs) } < rank gridT b s := by
  intro hlt
  have hkeep := tally_of_move hm hst
  have hcalls : ∀ wt, tally (Frame.callWeight wt) (s₁.rt.setStack w (gs ++ fs)).stack =
      tally (Frame.callWeight wt) s.rt.stack := by
    intro wt
    obtain ⟨hf, hsum⟩ := hm.callWeight_eq hcall wt hgs
    have h := hkeep (Frame.callWeight wt)
    omega
  have hcost := hkeep (Frame.cost b)
  have htasks : tasksCost (s₁.rt.setStack w (gs ++ fs)) = tasksCost s₁.rt :=
    tasksCost_eq rfl fun _ => rfl
  apply rank_lt_rank
  refine .inr ⟨hcalls _, .inr ⟨hcalls _, .inr ⟨hcalls _, ?_⟩⟩⟩
  have hqueue : tally (fun _ => 7) (s₁.rt.setStack w (gs ++ fs)).queue =
      tally (fun _ => 7) s₁.rt.queue := rfl
  show cost b (s₁.rt.setStack w (gs ++ fs)) < cost b s.rt
  unfold cost
  omega

/-- Busy waiting leaves the work as it is. -/
theorem rank_of_idles (hm : Move s.rt w f gs s₁.rt) (hst : s.rt.stack w = f :: fs)
    (h : Idles s.rt f gs) (hrt : s₁.rt = s.rt) :
    rank gridT b { s₁ with rt := s₁.rt.setStack w (gs ++ fs) } = rank gridT b s := by
  have hkeep := tally_of_move hm hst
  have hcalls : ∀ wt, tally (Frame.callWeight wt) (s₁.rt.setStack w (gs ++ fs)).stack =
      tally (Frame.callWeight wt) s.rt.stack := by
    intro wt
    have hsum : (gs.map (Frame.callWeight wt)).sum = Frame.callWeight wt f := by cases h <;> rfl
    have h := hkeep (Frame.callWeight wt)
    omega
  have hcost : cost b (s₁.rt.setStack w (gs ++ fs)) = cost b s.rt := by
    have hsum : (gs.map (Frame.cost b)).sum = f.cost b := by cases h <;> rfl
    have hqueue : tally (fun _ => 7) (s₁.rt.setStack w (gs ++ fs)).queue =
        tally (fun _ => 7) s.rt.queue := by rw [hrt]; rfl
    have htasks : tasksCost (s₁.rt.setStack w (gs ++ fs)) = tasksCost s.rt := by rw [hrt]; rfl
    have h := hkeep (Frame.cost b)
    unfold cost
    omega
  unfold rank
  dsimp only
  rw [hcalls, hcalls, hcalls, hcost]

omit [Fintype ω] in
/-- The choice behind busy waiting. -/
theorem waits_of_idles (hst : s.rt.stack a.1 = f :: fs) (h : Idles s.rt f gs)
    (hact : act gridT s a.1 f a.2 = some (gs, s₁)) : Waits s a := by
  obtain ⟨w, x⟩ := a
  unfold Waits
  rw [hst]
  cases h with
  | worker =>
    cases x with
    | nothing => trivial
    | take v k =>
      simp [act, workerThread, takeTask] at hact
    | _ => cases hact
  | busy h0 =>
    cases x with
    | go => exact h0
    | _ => cases hact
  | nothing =>
    cases x with
    | nothing => trivial
    | take v k => simp [act, executeTask, takeTask] at hact
    | _ => cases hact
  | spin hlt =>
    cases x with
    | go => exact hlt
    | _ => cases hact

omit [Fintype ω] in
/-- The choice behind a call. -/
theorem calls_of_gs {t : TaskId} {tmp : Option TaskId} {x : Choice ω}
    (h : (∃ c, gs = [.execute t tmp (.call c .incr)]) ∨ ∃ q, gs = [.execute t tmp (.sync q false)])
    (hact : act gridT s w (.execute t tmp .body) x = some (gs, s₁)) : Calls (w, x) := by
  cases x with
  | spawn args => trivial
  | sync => trivial
  | ret =>
    simp only [act, executeTask] at hact
    split at hact
    · cases hact
    · cases hact
      rcases h with ⟨c, hc⟩ | ⟨q, hq⟩ <;> simp at *
  | _ => cases hact

/-- **Every step is progress, busy waiting, or a call.** -/
theorem rank_step (h : Reachable gridT main s) (hs : step gridT s a = some s')
    (hb : b ≤ 5 ∨ ∀ tmp fs, s.rt.stack a.1 ≠ .execute mainTask tmp (.sync mainTask false) :: fs) :
    Calls a ∨ (Waits s a ∧ rank gridT b s' = rank gridT b s) ∨
      rank gridT b s' < rank gridT b s := by
  have hS : Sound s := .of_reachable h
  obtain ⟨f, fs, gs, s₁, hst, hact, rfl⟩ := act_of_step hs
  have hm : Move s.rt a.1 f gs s₁.rt := hS.move hst hact
  cases hcall : f.isCall with
  | true => exact .inr (.inr (rank_lt_of_call hS hst hact hcall))
  | false =>
    have hb' : b ≤ 5 ∨ ∀ tmp, f ≠ .execute mainTask tmp (.sync mainTask false) :=
      hb.imp_right fun hne tmp heq => hne tmp fs (heq ▸ hst)
    rcases hm.cost_lt (hS.owned hst) hS.tokens (start_main_pos h) hcall hb' with
      hlt | ⟨hidle, hrt⟩ | ⟨t, tmp, rfl, hgs⟩
    · by_cases hgs : ∃ t tmp c, gs = [.execute t tmp (.call c .incr)]
      · obtain ⟨t, tmp, c, rfl⟩ := hgs
        obtain rfl := hm.eq_body hcall
        exact .inl (calls_of_gs (.inl ⟨c, rfl⟩) hact)
      · push Not at hgs
        exact .inr (.inr (rank_of_cost hm hst hcall hgs hlt))
    · exact .inr (.inl ⟨waits_of_idles hst hidle hact, rank_of_idles hm hst hidle hrt⟩)
    · exact .inl (calls_of_gs hgs hact)

end

/-! ## Runs without an end -/

/-- **No livelock.**  In a run in which the bodies make finitely many calls, all but
finitely many steps are busy waiting. -/
theorem no_livelock [Fintype ω] [DecidableEq ω] {gridT : BitVec 64} {main : ω}
    (ρ : InfiniteRun (step gridT) (init main))
    (hfin : ∃ n, ∀ k, n ≤ k → ¬ Calls (ρ.label k)) :
    ∃ m, ∀ k, m ≤ k → Waits (ρ.state k) (ρ.label k) :=
  ρ.eventually (rank gridT 5) (fun _ _ _ h hs => rank_step h hs (.inl le_rfl)) hfin

/-- A worker without work stays where it is. -/
theorem step_nothing {ω : Type*} [DecidableEq ω] {gridT : BitVec 64} {s : State ω} {w : ω}
    {fs : List Frame} (hst : s.rt.stack w = .worker :: fs) :
    step gridT s (w, .nothing) = some s := by
  have hsame : s.rt.setStack w (.worker :: fs) = s.rt := by
    rw [Runtime.setStack, ← hst, Function.update_eq_self]
  unfold step
  dsimp only
  rw [hst]
  show some { s with rt := s.rt.setStack w (.worker :: fs) } = some s
  rw [hsame]

/-- Task 1 writes block 0 and is executed by worker `w`, which then finds nothing to
do. -/
theorem no_livelock_example :
    ∃ ρ : InfiniteRun (step 0) (init (0 : Fin 2)), Calls (ρ.label 0) ∧
      ¬ Waits (ρ.state 0) (ρ.label 0) ∧ ∃ m, ∀ k, m ≤ k → Waits (ρ.state k) (ρ.label k) := by
  have hrun : ∃ s ∈ exec (step 0) always ((0, .spawn [.ofBlock 0 2 0]) :: goOn 0 9 ++
      (1, .take 0 0) :: (1, .go) :: (1, .ret) :: goOn 1 10) (init (0 : Fin 2)),
      s.rt.stack 1 = [.worker] := ⟨_, rfl, rfl⟩
  obtain ⟨s, hs, hst⟩ := hrun
  obtain ⟨ρ, hρ⟩ := InfiniteRun.exists_of_exec hs (step_nothing hst)
  have h0 : ρ.label 0 = (0, .spawn [.ofBlock 0 2 0]) := hρ 0
  refine ⟨ρ, ?_, ?_, no_livelock ρ ⟨23, fun k hk => ?_⟩⟩
  · rw [h0]
    trivial
  · rw [h0, ρ.start]
    exact id
  · rw [hρ k, List.getD_eq_default _ _ (by simpa [goOn] using hk)]
    exact id

end Partee
