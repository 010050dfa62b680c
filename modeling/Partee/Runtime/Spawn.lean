import Partee.Runtime.Follows
import Partee.Runtime.View

/-!
# A spawn as one step

The worker that runs a body spawns a task, and nothing else happens until the body
goes on.  If no child of this body has been released, the call of `tpc_call` computes
`View.handleAll`: no push is refused, and every owner counts as alive.

* `CallPc.finish`: what is left of the analysis at a program point.
* `keepsOutcome_tpcCall`: an access of `tpc_call` leaves the outcome as it is.
* `Spawned`: the spawn, as a run of the worker.
* `SpawnedAs`, `spawnedAs_of_spawned`: what the spawn does.
-/

namespace Partee

open Transition

variable {ω : Type*}

/-! ## What is left of the analysis -/

/-- The data that the analysis of `c`, a child of `p`, works on, when it has been
pushed on `l` so far. -/
def Analysis.view (d : Analysis) (p c : TaskId) (l : List TaskId) : View where
  elem := d.elem
  node := d.metadata p
  last := d.depsLast c
  pushed := l

/-- The outcome of the loops from a position of the walk on. -/
def Walk.finish (gridT : BitVec 64) (c : TaskId) (k : Walk) (v : View) (n : ElemId) :
    View × ElemId :=
  View.handleAll gridT c
    (k.pieces.foldl (View.createDependency c k.elem k.out) (v.visitAll c k.elem k.out k.blocks), n)
    k.args

/-- The outcome of `create_dependencies` from a program point on. -/
def CallPc.finish (gridT : BitVec 64) (c : TaskId) (args : List Argument) (v : View) (n : ElemId) :
    CallPc → View × ElemId
  | .incr | .creating => View.handleAll gridT c (v, n) args
  | .walk k => k.finish gridT c v n
  | .push k e raw =>
      k.finish gridT c (if raw then v.readAfterWrite c k.elem e else v.notify c (v.elem e).owner) n
  | .readers k rest => k.finish gridT c (v.notifyAll c rest) n
  | .ownerStatus k e _ => k.finish gridT c (v.readAfterRead c e) n
  | .pushDependent k d => k.finish gridT c (v.push (v.elem d).owner) n
  | .storeWaitfor _ | .storeCreated _ => (v, n)

variable {gridT : BitVec 64} {s s' : State ω} {d : Analysis} {t c p x : TaskId} {e f : ElemId}
  {j n : ℕ} {k : Walk} {pc pc' : CallPc} {l : List TaskId} {args : List Argument} {b : Bool}

@[simp] theorem view_elem : (d.view p c l).elem = d.elem := rfl

@[simp] theorem view_node : (d.view p c l).node = d.metadata p := rfl

@[simp] theorem view_last : (d.view p c l).last = d.depsLast c := rfl

@[simp] theorem view_isOut : (d.view p c l).IsOut e = isOutType (d.elem e).type := rfl

@[simp] theorem view_setNode : (d.setNode p j e).view p c l = (d.view p c l).setNode e j := by
  have hnode : (d.setNode p j e).metadata p = Function.update (d.metadata p) j (some e) :=
    Function.update_self ..
  simp only [Analysis.view, hnode]
  rfl

@[simp] theorem view_insertFront :
    (d.insertFront c f).view p c l = (d.view p c l).insertFront c f := rfl

@[simp] theorem view_visit : (d.visit t b j).view p c l = d.view p c l := rfl

theorem view_push : (d.setDepsLast c x).view p c (x :: l) = (d.view p c l).push x := by
  have hlast : (d.setDepsLast c x).depsLast c = some x := Function.update_self ..
  simp only [Analysis.view, hlast]
  rfl

theorem view_setDependent :
    (d.setDependent e f).view p c l = (d.view p c l).setDependent e f := rfl

theorem finish_createDependency :
    (createDependency d c p k j).1.finish gridT c args
        ((createDependency d c p k j).2.view p c l) n =
      k.finish gridT c ((d.view p c l).visit c k.elem j k.out) n := by
  unfold createDependency View.visit
  split
  · rename_i hout
    split
    · rename_i hnone
      simp [hnone, CallPc.finish]
    · rename_i e he
      split
      · rename_i htype
        simp [he, htype, CallPc.finish]
      · rename_i htype
        simp [he, htype, CallPc.finish]
  · rename_i hout
    split
    · rename_i hnone
      simp [hnone, CallPc.finish]
    · rename_i e he
      split
      · rename_i htype
        simp [he, htype, CallPc.finish]
      · rename_i htype
        simp [he, htype, CallPc.finish]

theorem nextElem_createDependency : (createDependency d c p k j).2.nextElem = d.nextElem := by
  unfold createDependency
  split <;> split <;> first | rfl | (split <;> rfl)

theorem finish_createDependencies :
    (createDependencies gridT d c p k).1.finish gridT c args
        ((createDependencies gridT d c p k).2.view p c l)
        (createDependencies gridT d c p k).2.nextElem =
      k.finish gridT c (d.view p c l) d.nextElem := by
  unfold createDependencies
  split
  · rename_i j blocks hb
    rw [nextElem_createDependency, finish_createDependency]
    simp [Walk.finish, hb, View.visitAll]
  · rename_i piece pieces hb hp
    split
    · rename_i hout
      simp [CallPc.finish, Walk.finish, hb, hp, View.visitAll, View.createDependency, hout]
    · rename_i hout
      simp [CallPc.finish, Walk.finish, hb, hp, View.visitAll, View.createDependency, hout]
  · rename_i a args' hb hp ha
    split
    · rename_i hsafe
      simp [CallPc.finish, Walk.finish, hb, hp, ha, View.visitAll, View.handleAll, hsafe]
    · rename_i hsafe
      simp [CallPc.finish, Walk.finish, hb, hp, ha, View.visitAll, View.handleAll, hsafe]
      rfl
  · rename_i hb hp ha
    split <;> simp [CallPc.finish, Walk.finish, hb, hp, ha, View.visitAll, View.handleAll]

/-! ## The accesses of a call -/

/-- No child of `p` has been released. -/
def NoneReleased (r : Runtime ω) (p : TaskId) : Prop :=
  ∀ x, (r.task x).parent = some p → ¬ Released r x

variable [Fintype ω]

/-- The task allocated next has been pushed on nobody's stack. -/
theorem Sound.depsLast_next (hS : Sound s) : s.dep.depsLast s.rt.next = none := by
  by_contra hne
  obtain ⟨o, ho⟩ := Option.ne_none_iff_exists'.1 hne
  have hwait := hS.family.pushes _ _ (hS.elements.depsLast _ o ho)
  exact absurd hwait.allocated (Nat.lt_irrefl _)

/-- A push on the stack of a task that is not released is not refused. -/
theorem stackPush_of_not_released (hS : Sound s) (hx : ¬ Released s.rt x) :
    ∃ m, stackPush s.rt c x = some (s.rt.pushed c x m) := by
  obtain ⟨m, hm⟩ := Option.ne_none_iff_exists'.1 fun h =>
    hx (released_of_locked hS.tokens h)
  exact ⟨m, stackPush_eq_some.2 ⟨m, hm, rfl⟩⟩

/-- What an access of `tpc_call(c)` adds to the pushes, and how it leaves the outcome
of the analysis as it is. -/
def KeepsOutcome (gridT : BitVec 64) (s s' : State ω) (t c : TaskId) (args : List Argument)
    (pc pc' : CallPc) : Prop :=
  ∃ m : List TaskId, s'.rt.hist.pushes = m.map (c, ·) ++ s.rt.hist.pushes ∧
    ∀ l, pc'.finish gridT c args (s'.dep.view t c (m ++ l)) s'.dep.nextElem =
      pc.finish gridT c args (s.dep.view t c l) s.dep.nextElem

theorem keepsOutcome_notifyOwner {raw : Bool} (hS : Sound s) (hu : NoneReleased s.rt t)
    (hok : CallOk s t c (.push k e raw)) :
    KeepsOutcome gridT s (notifyOwner s c k e raw).2 t c args (.push k e raw)
      (notifyOwner s c k e raw).1 := by
  obtain ⟨m, hm⟩ := stackPush_of_not_released (c := c) hS (hu _ hok.2.owner.parent)
  unfold notifyOwner
  dsimp only
  split
  · rename_i hskip
    refine ⟨[], rfl, fun l => ?_⟩
    have hskip' : c = ((s.dep.view t c l).elem e).owner ∨
        (s.dep.view t c l).last = some ((s.dep.view t c l).elem e).owner := hskip
    cases raw with
    | true =>
      simp only [CallPc.finish, View.readAfterWrite, if_pos hskip', if_true]
      rfl
    | false =>
      simp only [CallPc.finish, View.notify, if_pos hskip', Bool.false_eq_true, if_false]
      rfl
  · rename_i hskip
    rw [hm]
    refine ⟨[(s.dep.elem e).owner], rfl, fun l => ?_⟩
    have hskip' : ¬ (c = ((s.dep.view t c l).elem e).owner ∨
        (s.dep.view t c l).last = some ((s.dep.view t c l).elem e).owner) := hskip
    cases raw with
    | true =>
      simp only [CallPc.finish, View.readAfterWrite, if_neg hskip', if_true]
      rw [List.singleton_append, view_setDependent, view_push]
      rfl
    | false =>
      simp only [CallPc.finish, View.notify, if_neg hskip', Bool.false_eq_true, if_false]
      rw [List.singleton_append, view_push]
      rfl

theorem keepsOutcome_notifyReaders {rest : List TaskId} (hS : Sound s)
    (hu : NoneReleased s.rt t) (hok : CallOk s t c (.readers k rest)) :
    KeepsOutcome gridT s (notifyReaders s c k rest).2 t c args (.readers k rest)
      (notifyReaders s c k rest).1 := by
  cases rest with
  | nil => exact ⟨[], rfl, fun l => rfl⟩
  | cons x rest =>
    obtain ⟨m, hm⟩ := stackPush_of_not_released (c := c) hS
      (hu _ (hok.2 x List.mem_cons_self).parent)
    simp only [notifyReaders]
    split
    · rename_i hne
      rw [hm]
      refine ⟨[x], rfl, fun l => ?_⟩
      have hne' : ¬ (c = x ∨ (s.dep.view t c l).last = some x) := by
        rintro (hself | hlast)
        · exact hne.1 hself
        · exact hne.2 hlast
      simp only [CallPc.finish, View.notifyAll, View.notify, if_neg hne']
      rw [List.singleton_append, view_push]
      rfl
    · rename_i hskip
      refine ⟨[], rfl, fun l => ?_⟩
      have hskip' : c = x ∨ (s.dep.view t c l).last = some x := by
        rw [view_last]
        by_contra hnot
        exact hskip ⟨fun h => hnot (.inl h), fun h => hnot (.inr h)⟩
      simp only [CallPc.finish, View.notifyAll, View.notify, if_pos hskip', List.nil_append]

omit [Fintype ω] in
theorem keepsOutcome_readAfterRead (hu : NoneReleased s.rt t)
    (hok : CallOk s t c (.ownerStatus k e j)) :
    KeepsOutcome gridT s (readAfterRead s c t k e j).2 t c args (.ownerStatus k e j)
      (readAfterRead s c t k e j).1 := by
  have halive : (s.rt.task (s.dep.elem e).owner).status.code ≤ Status.executed.code := by
    have hnot := hu _ hok.2.1.owner.parent
    simp only [Released, Status.code] at hnot ⊢
    omega
  unfold readAfterRead
  dsimp only
  rw [if_pos halive]
  cases hd : (s.dep.elem e).dependentMetadata with
  | none =>
    refine ⟨[], rfl, fun l => ?_⟩
    rw [CallPc.finish, CallPc.finish, View.readAfterRead_none (v := s.dep.view t c l) hd]
    rfl
  | some d =>
    dsimp only
    split
    · rename_i hne
      refine ⟨[], rfl, fun l => ?_⟩
      rw [CallPc.finish, CallPc.finish, View.readAfterRead_push (v := s.dep.view t c l) hd hne]
      simp
    · rename_i hskip
      refine ⟨[], rfl, fun l => ?_⟩
      rw [CallPc.finish, CallPc.finish, View.readAfterRead_skip (v := s.dep.view t c l) hd hskip]
      rfl

theorem keepsOutcome_notifyDependent (hS : Sound s) (hu : NoneReleased s.rt t)
    (hok : CallOk s t c (.pushDependent k e)) :
    KeepsOutcome gridT s (notifyDependent s c k e).2 t c args (.pushDependent k e)
      (notifyDependent s c k e).1 := by
  obtain ⟨m, hm⟩ := stackPush_of_not_released (c := c) hS (hu _ hok.2.2.2.parent)
  unfold notifyDependent
  dsimp only
  rw [hm]
  refine ⟨[(s.dep.elem e).owner], rfl, fun l => ?_⟩
  simp only [CallPc.finish]
  rw [List.singleton_append, view_push]
  rfl

/-- **An access of `tpc_call` leaves the outcome of the analysis as it is.** -/
theorem keepsOutcome_tpcCall (hS : Sound s) (hu : NoneReleased s.rt t)
    (hp : (s.rt.task c).parent = some t) (hargs : (s.rt.task c).args = args)
    (hok : CallOk s t c pc) (h : tpcCall gridT s c pc = some (pc', s')) :
    KeepsOutcome gridT s s' t c args pc pc' := by
  cases pc with
  | incr =>
    rw [tpcCall, hp] at h
    cases h
    exact ⟨[], rfl, fun l => rfl⟩
  | creating =>
    cases h
    exact ⟨[], rfl, fun l => by rw [hargs]; rfl⟩
  | walk k =>
    rw [tpcCall, hp] at h
    cases h
    exact ⟨[], rfl, fun l => finish_createDependencies⟩
  | push k e raw =>
    have hk : KeepsOutcome gridT s _ t c args _ _ := keepsOutcome_notifyOwner hS hu hok
    rwa [Option.some.inj h] at hk
  | readers k rest =>
    have hk : KeepsOutcome gridT s _ t c args _ _ := keepsOutcome_notifyReaders hS hu hok
    rwa [Option.some.inj h] at hk
  | ownerStatus k e j =>
    rw [tpcCall, hp, Option.map_some, Option.some.injEq] at h
    have hk : KeepsOutcome gridT s _ t c args _ _ := keepsOutcome_readAfterRead hu hok
    rwa [h] at hk
  | pushDependent k d =>
    have hk : KeepsOutcome gridT s _ t c args _ _ := keepsOutcome_notifyDependent hS hu hok
    rwa [Option.some.inj h] at hk
  | storeWaitfor n =>
    cases h
    exact ⟨[], rfl, fun l => rfl⟩
  | storeCreated n => cases h

/-! ## The run of a spawn -/

variable [DecidableEq ω] {r r' : Runtime ω} {w main : ω} {f : Frame} {gs fs : List Frame}
  {tmp : Option TaskId} {s₀ : State ω}

omit [Fintype ω] in
/-- What a record other than a body or a release leaves alone. -/
theorem Move.unspawned (h : Move r w f gs r') (hbody : ∀ t tmp, f ≠ .execute t tmp .body)
    (hrelease : ∀ t pc, f ≠ .release t pc) :
    r'.next = r.next ∧ ∀ x, (r'.task x).parent = (r.task x).parent ∧
      (r'.task x).args = (r.task x).args ∧ (Released r' x → Released r x) := by
  cases h with
  | spawn => exact absurd rfl (hbody _ _)
  | _ =>
    first
    | exact absurd rfl (hrelease _ _)
    | exact ⟨rfl, fun x => ⟨rfl, rfl, id⟩⟩
    | refine ⟨rfl, fun x => ?_⟩
      simp only [Released, Runtime.incrChildren_task, Runtime.setStatus_task, Runtime.pushed_task,
        Runtime.modify_task, Runtime.schedule_task, Function.update_apply]
      grind [Status.code]

/-- The worker `w`, which is running a body, spawns a task with these arguments and
goes on until the body does. -/
def Spawned (gridT : BitVec 64) (w : ω) (s : State ω) (args : List Argument) (s' : State ω) :
    Prop :=
  ∃ n, exec (step gridT) always ((w, .spawn args) :: goOn w n) s = some s' ∧
    s'.rt.stack w = s.rt.stack w

/-- The worker `w` spawns one task after the other. -/
def SpawnedAll (gridT : BitVec 64) (w : ω) : State ω → List (List Argument) → State ω → Prop
  | s, [], s' => s' = s
  | s, args :: rest, s' => ∃ s₁, Spawned gridT w s args s₁ ∧ SpawnedAll gridT w s₁ rest s'

deriving instance DecidableEq for Walk, CallPc, ExecPc, ReleasePc, Frame

/-- The same, computed from the number of accesses of each spawn. -/
def spawnAll (gridT : BitVec 64) (w : ω) : State ω → List (List Argument × ℕ) → Option (State ω)
  | s, [] => some s
  | s, (args, n) :: rest =>
      (exec (step gridT) always ((w, .spawn args) :: goOn w n) s).bind fun s₁ =>
        if s₁.rt.stack w = s.rt.stack w then spawnAll gridT w s₁ rest else none

omit [Fintype ω] in
theorem spawnedAll_of_spawnAll {rest : List (List Argument × ℕ)}
    (h : spawnAll gridT w s rest = some s') :
    SpawnedAll gridT w s (rest.map Prod.fst) s' := by
  induction rest generalizing s with
  | nil => exact (Option.some.inj h).symm
  | cons a rest ih =>
    obtain ⟨args, n⟩ := a
    obtain ⟨s₁, hexec, hrest⟩ := Option.bind_eq_some_iff.1 h
    split at hrest
    · rename_i hstack
      exact ⟨s₁, ⟨n, hexec, hstack⟩, ih hrest⟩
    · cases hrest

/-- The outcome of the analysis of the next task. -/
def outcome (gridT : BitVec 64) (s : State ω) (p : TaskId) (args : List Argument) :
    View × ElemId :=
  View.handleAll gridT s.rt.next (s.dep.view p s.rt.next [], s.dep.nextElem) args

/-- The state `s`, in which the analysis of the task spawned at `s₀` is at `pc`. -/
structure Spawning (gridT : BitVec 64) (main : ω) (s₀ s : State ω) (p : TaskId)
    (args : List Argument) (pc : CallPc) : Prop where
  reach : Reachable gridT main s
  next : s.rt.next = s₀.rt.next + 1
  parent : (s.rt.task s₀.rt.next).parent = some p
  arguments : (s.rt.task s₀.rt.next).args = args
  unreleased : NoneReleased s.rt p
  analysis : ∃ l, s.rt.hist.pushes = l.map (s₀.rt.next, ·) ++ s₀.rt.hist.pushes ∧
    pc.finish gridT s₀.rt.next args (s.dep.view p s₀.rt.next l) s.dep.nextElem =
      outcome gridT s₀ p args

/-- The records on the stack of the worker while the spawn goes on. -/
inductive SpawnStack (p c : TaskId) (tmp : Option TaskId) (fs : List Frame) :
    CallPc → List Frame → Prop where
  | call {pc : CallPc} : SpawnStack p c tmp fs pc (.execute p tmp (.call c pc) :: fs)
  | schedule {n : ℕ} {b : Bool} :
      SpawnStack p c tmp fs (.storeCreated n) (.schedule c b :: .execute p tmp .body :: fs)
  | body {n : ℕ} : SpawnStack p c tmp fs (.storeCreated n) (.execute p tmp .body :: fs)

/-- An action of the spawn. -/
theorem Spawning.act (h : Spawning gridT main s₀ s p args pc) (hst : s.rt.stack w = f :: fs)
    (hbody : ∀ t tmp, f ≠ .execute t tmp .body) (hrelease : ∀ t pc, f ≠ .release t pc)
    {ch : Choice ω} (hact : act gridT s w f ch = some (gs, s'))
    (hk : KeepsOutcome gridT s s' p s₀.rt.next args pc pc') :
    Spawning gridT main s₀ { s' with rt := s'.rt.setStack w (gs ++ fs) } p args pc' := by
  have hm := (Sound.of_reachable h.reach).move hst hact
  obtain ⟨hnext, htask⟩ := hm.unspawned hbody hrelease
  obtain ⟨l, hpushes, hfinish⟩ := h.analysis
  obtain ⟨m, hm, hkeep⟩ := hk
  exact {
    reach := h.reach.tail trivial (step_of_act hst hact)
    next := hnext.trans h.next
    parent := (htask _).1.trans h.parent
    arguments := (htask _).2.1.trans h.arguments
    unreleased := fun x hx hr =>
      h.unreleased x ((htask x).1.symm.trans hx) ((htask x).2.2 hr)
    analysis := by
      refine ⟨m ++ l, ?_, (hkeep l).trans hfinish⟩
      rw [List.map_append, List.append_assoc, ← hpushes]
      exact hm }

/-- **Each step of the worker goes on with the spawn.** -/
theorem Spawning.step (h : Spawning gridT main s₀ s p args pc)
    (hst : SpawnStack p s₀.rt.next tmp fs pc (s.rt.stack w))
    (hstep : Partee.step gridT s (w, .go) = some s') :
    ∃ pc', Spawning gridT main s₀ s' p args pc' ∧
      SpawnStack p s₀.rt.next tmp fs pc' (s'.rt.stack w) := by
  have hS := Sound.of_reachable h.reach
  obtain ⟨f, fs', gs, s₁, hstack, hact, rfl⟩ := act_of_step hstep
  simp only at hstack hact ⊢
  rw [Runtime.setStack_stack, Function.update_self]
  rw [hstack] at hst
  cases hst with
  | call =>
    have hbody : ∀ t tmp', Frame.execute p tmp (.call s₀.rt.next pc) ≠ .execute t tmp' .body :=
      by simp
    by_cases hlast : ∃ n, pc = .storeCreated n
    · obtain ⟨n, rfl⟩ := hlast
      have hcall := hact
      simp only [Partee.act, executeTask] at hcall
      split at hcall
      · cases hcall
        exact ⟨.storeCreated 0, h.act hstack hbody (by simp) hact ⟨[], rfl, fun l => rfl⟩, .schedule⟩
      · cases hcall
        exact ⟨.storeCreated 0, h.act hstack hbody (by simp) hact ⟨[], rfl, fun l => rfl⟩, .body⟩
    · obtain ⟨pc', rfl, hcall⟩ := tpcCall_of_act (fun n hn => hlast ⟨n, hn⟩) hact
      have hok := hS.elements.calls w p tmp _ pc (hstack ▸ List.mem_cons_self)
      have hk := keepsOutcome_tpcCall hS h.unreleased h.parent h.arguments hok hcall
      exact ⟨pc', h.act hstack hbody (by simp) hact hk, .call⟩
  | @schedule n b =>
    have hk : ∀ {r : Runtime ω}, r.hist.pushes = s.rt.hist.pushes →
        KeepsOutcome gridT s { s with rt := r } p s₀.rt.next args (.storeCreated n)
          (.storeCreated 0) := fun hr => ⟨[], hr, fun l => rfl⟩
    have hcall := hact
    simp only [Partee.act] at hcall
    cases b with
    | false =>
      simp only [scheduleTask] at hcall
      split at hcall
      · cases hcall
        exact ⟨.storeCreated 0, h.act hstack (by simp) (by simp) hact (hk rfl), .schedule⟩
      · cases hcall
        exact ⟨.storeCreated 0, h.act hstack (by simp) (by simp) hact (hk rfl), .body⟩
    | true =>
      cases hcall
      exact ⟨.storeCreated 0, h.act hstack (by simp) (by simp) hact (hk rfl), .body⟩
  | body => simp [Partee.act, executeTask] at hact

/-- What the spawn of a task does. -/
structure SpawnedAs (gridT : BitVec 64) (main : ω) (s s' : State ω) (p : TaskId)
    (args : List Argument) : Prop where
  reach : Reachable gridT main s'
  next : s'.rt.next = s.rt.next + 1
  parent : (s'.rt.task s.rt.next).parent = some p
  unreleased : NoneReleased s'.rt p
  pushes : s'.rt.hist.pushes =
    (outcome gridT s p args).1.pushed.map (s.rt.next, ·) ++ s.rt.hist.pushes
  elem : s'.dep.elem = (outcome gridT s p args).1.elem
  node : s'.dep.metadata p = (outcome gridT s p args).1.node
  nextElem : s'.dep.nextElem = (outcome gridT s p args).2

omit [Fintype ω] in
theorem Spawning.spawnedAs {n : ℕ} (h : Spawning gridT main s₀ s p args (.storeCreated n)) :
    SpawnedAs gridT main s₀ s p args := by
  obtain ⟨l, hpushes, hfinish⟩ := h.analysis
  exact {
    reach := h.reach
    next := h.next
    parent := h.parent
    unreleased := h.unreleased
    pushes := by
      rw [← hfinish]
      exact hpushes
    elem := by
      rw [← hfinish]
      rfl
    node := by
      rw [← hfinish]
      rfl
    nextElem := by
      rw [← hfinish]
      rfl }

theorem Spawning.goOn (h : Spawning gridT main s₀ s p args pc)
    (hst : SpawnStack p s₀.rt.next tmp fs pc (s.rt.stack w)) {n : ℕ}
    (hexec : exec (Partee.step gridT) always (goOn w n) s = some s')
    (hend : s'.rt.stack w = .execute p tmp .body :: fs) : SpawnedAs gridT main s₀ s' p args := by
  induction n generalizing s pc with
  | zero =>
    cases hexec
    rw [hend] at hst
    cases hst with
    | body => exact h.spawnedAs
  | succ n ih =>
    rw [Partee.goOn, List.replicate_succ, exec_cons, Option.bind_eq_some_iff] at hexec
    obtain ⟨s₁, hs, hexec⟩ := hexec
    obtain ⟨pc', h', hst'⟩ := h.step hst hs
    exact ih h' hst' hexec

/-- **A spawn performs the analysis.** -/
theorem spawnedAs_of_spawned (hr : Reachable gridT main s)
    (hst : s.rt.stack w = .execute p tmp .body :: fs) (hu : NoneReleased s.rt p)
    (h : Spawned gridT w s args s') : SpawnedAs gridT main s s' p args := by
  obtain ⟨n, hexec, hend⟩ := h
  rw [exec_cons, Option.bind_eq_some_iff] at hexec
  obtain ⟨s₁, hs, hexec⟩ := hexec
  have hS := Sound.of_reachable hr
  have hctx : s.rt.parent w = some p := hS.family.workerParent w p (by rw [hst, context])
  have hact : act gridT s w (.execute p tmp .body) (.spawn args) =
      some ([.execute p tmp (.call s.rt.next .incr)], { s with rt := s.rt.alloc args p }) := by
    simp [Partee.act, executeTask, hctx]
  have hs' := step_of_act hst hact
  rw [hs] at hs'
  cases hs'
  have h0 : Spawning gridT main s
      ⟨(s.rt.alloc args p).setStack w (.execute p tmp (.call s.rt.next .incr) :: fs), s.dep⟩ p args
      .incr := {
    reach := hr.tail trivial hs
    next := rfl
    parent := by simp
    arguments := by simp
    unreleased := fun x hx hrel => by
      rcases eq_or_ne x s.rt.next with rfl | hne
      · simp [Released, Status.code] at hrel
      · exact hu x (by simpa [hne] using hx) (by simpa [Released, hne] using hrel)
    analysis := ⟨[], rfl, rfl⟩ }
  refine h0.goOn ?_ hexec (hend.trans hst)
  simpa using SpawnStack.call

end Partee
