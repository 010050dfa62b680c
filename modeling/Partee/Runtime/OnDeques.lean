import Partee.Queue.Contract
import Partee.Runtime.Deques
import Partee.Runtime.SubtreeOrder

/-!
# The deques keep their contract

The runtime on its deques (`Runtime.Deques`) refines the runtime above their contract
(`Runtime.Step`): every run of the one is a run of the other, in which a call of a deque
function is one step, made when it returns.  So whatever holds in all runs of the runtime
holds on the deques of `queue.c`, as long as no compare-and-swap of a thief succeeds on an
outdated `top`.

* `step_withQueue`: away from the deques, a step does not depend on what is in them.
* `step_served`: a call that is `Served` is a step of the runtime.
* `Machine.Carries`: what the accesses keep.  A worker that stands at the assertion of
  `pop_task` has found its deque empty, and nobody else can put a task into it.
-/

namespace Partee

open Transition Queue

variable {ω : Type*} {gridT : BitVec 64}

/-! ## Away from the deques -/

/-- The runtime with other tasks in its deques. -/
abbrev State.withQueue (s : State ω) (q : ω → List TaskId) : State ω :=
  { s with rt := { s.rt with queue := q } }

section

variable (s : State ω) (q : ω → List TaskId) (c p : TaskId) (k : Walk)

theorem notifyOwner_withQueue (e : ElemId) (raw : Bool) :
    notifyOwner (s.withQueue q) c k e raw =
      (notifyOwner s c k e raw).map id fun s' => s'.withQueue q := by
  dsimp only [notifyOwner, stackPush]
  by_cases h : c = (s.dep.elem e).owner ∨ s.dep.depsLast c = some (s.dep.elem e).owner
  · rw [if_pos h, if_pos h]
    rfl
  · rw [if_neg h, if_neg h]
    cases (s.rt.task (s.dep.elem e).owner).toNotify <;> rfl

theorem notifyReaders_withQueue (l : List TaskId) :
    notifyReaders (s.withQueue q) c k l =
      (notifyReaders s c k l).map id fun s' => s'.withQueue q := by
  cases l with
  | nil => rfl
  | cons reader rest =>
    dsimp only [notifyReaders, stackPush]
    by_cases h : c ≠ reader ∧ s.dep.depsLast c ≠ some reader
    · rw [if_pos h, if_pos h]
      cases (s.rt.task reader).toNotify <;> rfl
    · rw [if_neg h, if_neg h]
      rfl

theorem readAfterRead_withQueue (e : ElemId) (j : ℕ) :
    readAfterRead (s.withQueue q) c p k e j =
      (readAfterRead s c p k e j).map id fun s' => s'.withQueue q := by
  dsimp only [readAfterRead]
  by_cases h : (s.rt.task (s.dep.elem e).owner).status.code ≤ Status.executed.code
  · rw [if_pos h, if_pos h]
    cases (s.dep.elem e).dependentMetadata with
    | none => rfl
    | some d => split_ifs <;> rfl
  · rw [if_neg h, if_neg h]
    rfl

theorem notifyDependent_withQueue (d : ElemId) :
    notifyDependent (s.withQueue q) c k d =
      (notifyDependent s c k d).map id fun s' => s'.withQueue q := by
  dsimp only [notifyDependent, stackPush]
  cases (s.rt.task (s.dep.elem d).owner).toNotify <;> rfl

theorem tpcCall_withQueue (pc : CallPc) :
    tpcCall gridT (s.withQueue q) c pc =
      (tpcCall gridT s c pc).map (Prod.map id fun s' => s'.withQueue q) := by
  cases pc with
  | incr =>
    dsimp only [tpcCall]
    cases (s.rt.task c).parent <;> rfl
  | walk k =>
    dsimp only [tpcCall]
    cases (s.rt.task c).parent <;> rfl
  | push k e raw => exact congrArg some (notifyOwner_withQueue s q c k e raw)
  | readers k rest => exact congrArg some (notifyReaders_withQueue s q c k rest)
  | ownerStatus k e j =>
    dsimp only [tpcCall]
    cases (s.rt.task c).parent with
    | none => rfl
    | some p => exact congrArg some (readAfterRead_withQueue s q c p k e j)
  | pushDependent k d => exact congrArg some (notifyDependent_withQueue s q c k d)
  | _ => rfl

theorem releaseTask_withQueue (t : TaskId) (pc : ReleasePc) :
    releaseTask (s.withQueue q) t pc =
      (releaseTask s t pc).map (Prod.map id fun s' => s'.withQueue q) := by
  cases pc with
  | fire l => cases l <;> rfl
  | lock =>
    dsimp only [releaseTask]
    cases (s.rt.task t).toNotify <;> rfl
  | decr =>
    dsimp only [releaseTask]
    cases (s.rt.task t).parent <;> rfl
  | storeComplete => rfl
  | deleteRegion => rfl
  | callParent p => rfl
  | _ =>
    dsimp only [releaseTask]
    split_ifs <;> rfl

variable [DecidableEq ω] {w : ω} {f : Frame} {ch : Choice ω}

theorem executeTask_withQueue {t : TaskId} {tmp : Option TaskId} {pc : ExecPc}
    (hpc : ∀ q, pc ≠ .sync q true) :
    executeTask gridT (s.withQueue q) w t tmp pc ch =
      (executeTask gridT s w t tmp pc ch).map (Prod.map id fun s' => s'.withQueue q) := by
  unfold executeTask
  split
  · dsimp only
    cases s.rt.parent w <;> rfl
  · dsimp only
    cases s.rt.currTask w <;> rfl
  · split_ifs <;> rfl
  · dsimp only
    split_ifs <;> rfl
  · rw [tpcCall_withQueue]
    cases tpcCall gridT s _ _ <;> rfl
  · dsimp only
    split_ifs <;> rfl
  · exact absurd rfl (hpc _)
  · exact absurd rfl (hpc _)
  · rfl
  · dsimp only
    split_ifs <;> rfl
  · rfl
  · rfl

theorem act_withQueue (hf : f.dequeCall = none) :
    act gridT (s.withQueue q) w f ch =
      (act gridT s w f ch).map (Prod.map id fun s' => s'.withQueue q) := by
  cases f with
  | worker => cases hf
  | enter t => cases ch <;> rfl
  | execute t tmp pc =>
    refine executeTask_withQueue s q ?_
    rintro x rfl
    cases hf
  | schedule t enqueue =>
    cases enqueue with
    | true => cases hf
    | false =>
      cases ch with
      | go =>
        dsimp only [act, scheduleTask]
        split_ifs <;> rfl
      | _ => rfl
  | release t pc =>
    cases ch with
    | go => exact releaseTask_withQueue s q t pc
    | _ => rfl

end

variable [DecidableEq ω] {s s' : State ω} {q : ω → List TaskId} {w v : ω} {f : Frame}
  {fs : List Frame} {ch : Choice ω}

/-- **Away from the deques**, a step does not depend on what is in them. -/
theorem step_withQueue (hst : s.rt.stack w = f :: fs) (hf : f.dequeCall = none)
    (h : step gridT s (w, ch) = some s') :
    step gridT (s.withQueue q) (w, ch) = some (s'.withQueue q) := by
  obtain ⟨g, gs, hs, s₁, hst', hact, rfl⟩ := act_of_step h
  rw [hst] at hst'
  cases hst'
  have hact' : act gridT (s.withQueue q) w f ch = some (hs, s₁.withQueue q) := by
    rw [act_withQueue s q hf, hact]
    rfl
  exact step_of_act (s := s.withQueue q) hst hact'

/-- A step leaves the records of the other workers alone. -/
theorem Sound.stack_of_ne [Fintype ω] (hS : Sound s) {u : ω}
    (h : Partee.step gridT s (w, ch) = some s') (hu : u ≠ w) : s'.rt.stack u = s.rt.stack u := by
  obtain ⟨g, gs, hs, s₁, hst, hact, rfl⟩ := act_of_step h
  show Function.update s₁.rt.stack w (hs ++ gs) u = _
  rw [Function.update_of_ne hu, (hS.move hst hact).stack_eq]

/-! ## At the deques -/

/-- The record calls `c`.  The loops call `dequeue_back` where they call `dequeue_front`. -/
def Frame.Calls (f : Frame) (c : Queue.Call TaskId) : Prop :=
  f.dequeCall = some c ∨ f.dequeCall = some .dequeueFront ∧ c = .dequeueBack

theorem Frame.dequeCall_enqueue {t : TaskId} (h : f.dequeCall = some (.enqueue t)) :
    f = .schedule t true := by
  unfold Frame.dequeCall at h
  split at h <;> cases h
  rfl

/-- The two loops. -/
theorem Frame.dequeCall_front (h : f.dequeCall = some .dequeueFront) :
    f = .worker ∨ ∃ t tmp x, f = .execute t tmp (.sync x true) := by
  unfold Frame.dequeCall at h
  split at h <;> cases h
  · exact .inl rfl
  · exact .inr ⟨_, _, _, rfl⟩

theorem Frame.dequeCall_ne_back : f.dequeCall ≠ some .dequeueBack := by
  intro h
  unfold Frame.dequeCall at h
  split at h <;> cases h

theorem act_take {t : TaskId} {k : ℕ} (hf : f.dequeCall = some .dequeueFront)
    (hk : (s.rt.queue v)[k]? = some t) :
    act gridT s w f (.take v k) =
      some ([.enter t, f.resumed], { s with rt := s.rt.dequeue v k }) := by
  rcases Frame.dequeCall_front hf with rfl | ⟨x, tmp, y, rfl⟩
  · show takeTask s .worker v k = _
    rw [takeTask, hk]
    rfl
  · show takeTask s _ v k = _
    rw [takeTask, hk]
    rfl

theorem act_nothing (hf : f.dequeCall = some .dequeueFront) :
    act gridT s w f .nothing = some ([f.resumed], s) := by
  rcases Frame.dequeCall_front hf with rfl | ⟨x, tmp, y, rfl⟩
  · rfl
  · rfl

/-- The state after a call has returned `r`, with `l` as the tasks of the deque of `v`. -/
abbrev State.served (s : State ω) (w v : ω) (l : List TaskId) (frames : List Frame) : State ω :=
  { s with rt := { s.rt with queue := Function.update s.rt.queue v l }.setStack w frames }

/-- **At the deques**, a call that is served is a step, unless it is `pop_task` that has
found nothing. -/
theorem step_served {c : Queue.Call TaskId} {r : Queue.Answer TaskId} {l : List TaskId}
    (hst : s.rt.stack w = f :: fs) (hf : f.Calls c) (hv : c ≠ .dequeueBack → v = w)
    (hs : Served c r (s.rt.queue v) l) (hr : r ≠ .front none) :
    ∃ ch, step gridT s (w, ch) = some (s.served w v l (f.answered r ++ fs)) := by
  have hsame : Function.update s.rt.queue v (s.rt.queue v) = s.rt.queue :=
    Function.update_eq_self v s.rt.queue
  have hloop : ∀ {c'}, c = c' → c' = .dequeueFront ∨ c' = .dequeueBack →
      f.dequeCall = some .dequeueFront := by
    rintro c' rfl (rfl | rfl)
    · exact hf.resolve_right fun h => by cases h.2
    · exact (hf.resolve_left Frame.dequeCall_ne_back).1
  have hscheduled : ∀ {t}, c = .enqueue t → f = .schedule t true ∧ v = w := by
    rintro t rfl
    have hcall := hf.resolve_right fun h => by cases h.2
    exact ⟨Frame.dequeCall_enqueue hcall, hv fun h => by cases h⟩
  generalize hq : s.rt.queue v = q at hs
  cases hs with
  | @accepted _ t =>
    obtain ⟨rfl, rfl⟩ := hscheduled rfl
    subst hq
    have hact : act gridT s v (.schedule t true) .go =
        some ([], { s with rt := s.rt.enqueue v t }) := rfl
    exact ⟨.go, step_of_act hst hact⟩
  | refused =>
    obtain ⟨rfl, rfl⟩ := hscheduled rfl
    refine ⟨.refuse, ?_⟩
    rw [State.served, ← hq, hsame]
    exact step_of_act hst rfl
  | @front _ k x hk =>
    subst hq
    exact ⟨.take v k, step_of_act hst (act_take (hloop rfl (.inl rfl)) hk)⟩
  | null => exact absurd rfl hr
  | @taken _ k x hk =>
    subst hq
    exact ⟨.take v k, step_of_act hst (act_take (hloop rfl (.inr rfl)) hk)⟩
  | empty =>
    refine ⟨.nothing, ?_⟩
    rw [State.served, ← hq, hsame]
    exact step_of_act hst (act_nothing (hloop rfl (.inr rfl)))
  | contended =>
    refine ⟨.nothing, ?_⟩
    rw [State.served, ← hq, hsame]
    exact step_of_act hst (act_nothing (hloop rfl (.inr rfl)))

/-! ## What the accesses keep -/

/-- A side condition on the steps of the runtime that says nothing about the deques. -/
structure IgnoresDeques (ok : State ω → ω × Choice ω → Prop) : Prop where
  congr : ∀ s q a, ok s a → ok (s.withQueue q) a
  free : ∀ s w ch f fs, s.rt.stack w = f :: fs → f.dequeCall ≠ none → ok s (w, ch)

namespace Machine

variable {x x' : Machine ω} {d : Queue.State TaskId ω} {l l' : List TaskId} {pc : DequePc ω}
  {ok : Partee.State ω → ω × Choice ω → Prop} {u : ω}

/-- The steps away from the deques meet `ok`, and those on the deques are timely. -/
def Ok (ok : Partee.State ω → ω × Choice ω → Prop) (x : Machine ω) (a : ω × Turn ω) : Prop :=
  x.Timely a ∧ ∀ ch, a.2 = .run ch → ok x.state (a.1, ch)

/-- Worker `w` is at a record that calls `c`. -/
def Calls (x : Machine ω) (w : ω) (c : Queue.Call TaskId) : Prop :=
  ∃ f fs, x.state.rt.stack w = f :: fs ∧ f.dequeCall = some c

/-- What a program point of worker `w` says, with `l` as the tasks of its deque. -/
def At (x : Machine ω) (w : ω) (l : List TaskId) : DequePc ω → Prop
  | .outside => True
  | .enqueueing => ∃ t, x.Calls w (.enqueue t) ∧ (x.deque w).owner.call = some (.enqueue t)
  | .popping => x.Calls w .dequeueFront ∧ (x.deque w).owner.call = some .dequeueFront
  | .assertBottom => x.Calls w .dequeueFront ∧ l = []
  | .assertTop b => x.Calls w .dequeueFront ∧ l = [] ∧ b = (x.deque w).queue.bottom
  | .aborted => False
  | .steal | .stealing _ => x.Calls w .dequeueFront

/-- The deques hold the tasks `q`, and the workers are where their calls are. -/
structure Carries (x : Machine ω) (q : ω → List TaskId) : Prop where
  contains : ∀ v, Contains (x.deque v) (q v)
  at_pc : ∀ w, x.At w (q w) (x.pc w)

/-- The deque of `v` after an access on behalf of worker `w`. -/
abbrev accessed (x : Machine ω) (w v : ω) (pc : DequePc ω) (d : Queue.State TaskId ω) :
    Machine ω :=
  { x.setPc w pc with deque := Function.update x.deque v d }

/-- A worker that is not the owner of the deque of `v` leaves its `bottom` alone, and puts no
task into it. -/
structure Spares (x : Machine ω) (w v : ω) (l l' : List TaskId) (d : Queue.State TaskId ω) :
    Prop where
  owner : v ≠ w → d.owner = (x.deque v).owner
  bottom : v ≠ w → d.queue.bottom = (x.deque v).queue.bottom
  tasks : v ≠ w → l = [] → l' = []

omit [DecidableEq ω] in
theorem Spares.own : x.Spares w w l l' d :=
  ⟨fun h => absurd rfl h, fun h => absurd rfl h, fun h => absurd rfl h⟩

omit [DecidableEq ω] in
theorem At.congr (h : x.At u l pc) (hst : x'.state.rt.stack u = x.state.rt.stack u)
    (ho : (x'.deque u).owner = (x.deque u).owner)
    (hb : (x'.deque u).queue.bottom = (x.deque u).queue.bottom) (hl : l = [] → l' = []) :
    x'.At u l' pc := by
  have hcalls : ∀ {c}, x.Calls u c → x'.Calls u c := by
    rintro c ⟨f, fs, hf, hc⟩
    exact ⟨f, fs, hst.trans hf, hc⟩
  cases pc with
  | outside => trivial
  | enqueueing =>
    obtain ⟨t, ht, hown⟩ := h
    exact ⟨t, hcalls ht, (congrArg _ ho).trans hown⟩
  | popping => exact ⟨hcalls h.1, (congrArg _ ho).trans h.2⟩
  | assertBottom => exact ⟨hcalls h.1, hl h.2⟩
  | assertTop b => exact ⟨hcalls h.1, hl h.2.1, h.2.2.trans hb.symm⟩
  | aborted => exact h.elim
  | steal => exact hcalls h
  | stealing v => exact hcalls h

/-- The other workers are where they were. -/
theorem Carries.others (h : x.Carries q) (hs : x.Spares w v (q v) l d) (hu : u ≠ w) :
    (x.accessed w v pc d).At u (Function.update q v l u) (x.pc u) := by
  refine (h.at_pc u).congr rfl ?_ ?_ ?_
  · show (Function.update x.deque v d u).owner = _
    by_cases huv : u = v
    · subst huv
      rw [Function.update_self]
      exact hs.owner hu
    · rw [Function.update_of_ne huv]
  · show (Function.update x.deque v d u).queue.bottom = _
    by_cases huv : u = v
    · subst huv
      rw [Function.update_self]
      exact hs.bottom hu
    · rw [Function.update_of_ne huv]
  · intro hnil
    by_cases huv : u = v
    · subst huv
      rw [Function.update_self]
      exact hs.tasks hu hnil
    · rw [Function.update_of_ne huv]
      exact hnil

theorem Carries.update (h : x.Carries q) (v : ω) (hd : Contains d l) (u : ω) :
    Contains (Function.update x.deque v d u) (Function.update q v l u) := by
  by_cases hu : u = v
  · subst hu
    rw [Function.update_self, Function.update_self]
    exact hd
  · rw [Function.update_of_ne hu, Function.update_of_ne hu]
    exact h.contains u

/-- An access with which no function returns. -/
theorem Carries.inside (h : x.Carries q) (hs : x.Spares w v (q v) (q v) d)
    (hd : Contains d (q v)) (hat : (x.accessed w v pc d).At w (q w) pc) :
    (x.accessed w v pc d).Carries q where
  contains u := by
    have hu := h.update v hd u
    rwa [Function.update_eq_self] at hu
  at_pc u := by
    show At _ u (q u) (Function.update x.pc w pc u)
    by_cases hu : u = w
    · subst hu
      rw [Function.update_self]
      exact hat
    · have hothers : (x.accessed w v pc d).At u _ (x.pc u) := h.others hs hu
      rw [Function.update_eq_self] at hothers
      rw [Function.update_of_ne hu]
      exact hothers

theorem answer_eq {r : Queue.Answer TaskId} (hst : x.state.rt.stack w = f :: fs) :
    (x.accessed w v pc d).answer w r =
      { x.accessed w v (.after r) d with
        state.rt := x.state.rt.setStack w (f.answered r ++ fs) } := by
  rw [answer]
  simp only [setPc, hst, Function.update_idem]

/-- **A function returns**, and that is a step of the runtime, or `pop_task` has found nothing
and its caller goes on. -/
theorem Carries.answered {c : Queue.Call TaskId} {r : Queue.Answer TaskId} (h : x.Carries q)
    (hok : IgnoresDeques ok) (hst : x.state.rt.stack w = f :: fs) (hf : f.Calls c)
    (hv : c ≠ .dequeueBack → v = w) (hs : x.Spares w v (q v) l d) (hd : Contains d l)
    (hserved : Served c r (q v) l) :
    ∃ q', Run (Partee.step gridT) ok (x.state.withQueue q)
        (((x.accessed w v pc d).answer w r).state.withQueue q') ∧
      ((x.accessed w v pc d).answer w r).Carries q' := by
  have hnull : r = .front none → v = w ∧ f.dequeCall = some .dequeueFront ∧ q v = [] ∧ l = [] := by
    rintro rfl
    generalize q v = l' at hserved
    cases hserved
    have hvw : v = w := hv fun hc => by cases hc
    have hcall := hf.resolve_right fun hc => by cases hc.2
    exact ⟨hvw, hcall, rfl, rfl⟩
  rw [answer_eq hst]
  refine ⟨Function.update q v l, ?_, fun u => h.update v hd u, fun u => ?_⟩
  · by_cases hr : r = .front none
    · obtain ⟨-, -, hq, hl⟩ := hnull hr
      have hsame : x.state.rt.setStack w (f.answered r ++ fs) = x.state.rt := by
        subst hr
        show { x.state.rt with stack := Function.update x.state.rt.stack w (f :: fs) } = _
        rw [← hst, Function.update_eq_self]
      rw [hl, ← hq, Function.update_eq_self, hsame]
      exact .refl
    · have hstate : (x.state.withQueue q).rt.stack w = f :: fs := hst
      obtain ⟨ch, hstep⟩ : ∃ ch, Partee.step gridT (x.state.withQueue q) (w, ch) = some _ :=
        step_served hstate hf hv hserved hr
      refine Run.refl.tail (hok.free _ _ _ f fs hst fun hnone => ?_) hstep
      rcases hf with hf | ⟨hf, -⟩
      · cases hnone.symm.trans hf
      · cases hnone.symm.trans hf
  · show At _ u (Function.update q v l u) (Function.update x.pc w (.after r) u)
    by_cases hu : u = w
    · subst hu
      rw [Function.update_self]
      by_cases hr : r = .front none
      · obtain ⟨rfl, hcall, -, rfl⟩ := hnull hr
        subst hr
        refine ⟨⟨f, fs, ?_, hcall⟩, Function.update_self ..⟩
        exact Function.update_self ..
      · have hafter : DequePc.after r = (.outside : DequePc ω) := by
          unfold DequePc.after
          split
          · exact absurd rfl hr
          · rfl
        rw [hafter]
        trivial
    · have hothers : (x.accessed w v (.after r) d).At u _ (x.pc u) := h.others hs hu
      rw [Function.update_of_ne hu]
      refine hothers.congr ?_ rfl rfl id
      exact Function.update_of_ne hu _ _

/-! ## Every step -/

/-- The runtime makes no step, or one that ends where the machine is. -/
abbrev Simulated (gridT : BitVec 64) (ok : Partee.State ω → ω × Choice ω → Prop) (x : Machine ω)
    (q : ω → List TaskId) (x' : Machine ω) : Prop :=
  ∃ q', Run (Partee.step gridT) ok (x.state.withQueue q) (x'.state.withQueue q') ∧ x'.Carries q'

theorem access_cases {a : Queue.Label TaskId ω} (h : x.access w v pc a = some x') :
    ∃ d, Queue.step (x.deque v) a = some d ∧
      ((∀ p r, events (x.deque v) a ≠ [.ret p r]) → x' = x.accessed w v pc d) ∧
      ∀ p r, events (x.deque v) a = [.ret p r] → x' = (x.accessed w v pc d).answer w r := by
  rw [access, Option.map_eq_some_iff] at h
  obtain ⟨d, hd, heq⟩ := h
  refine ⟨d, hd, fun hne => ?_, fun p r hret => ?_⟩
  · dsimp only at heq
    split at heq
    · rename_i p r hret
      exact absurd hret (hne p r)
    · exact heq.symm
  · rw [hret] at heq
    exact heq.symm

/-- `enqueue` is called. -/
theorem Carries.callEnqueue {t : TaskId} (h : x.Carries q) (hc : x.Calls w (.enqueue t))
    (hacc : x.access w w .enqueueing (.enqueue t) = some x') : Simulated gridT ok x q x' := by
  obtain ⟨d, hd, heq, -⟩ := access_cases hacc
  have hgoing := (h.contains w).enqueue hd
  rw [heq fun p r hret => by cases hret]
  exact ⟨q, .refl, h.inside .own hgoing.contains ⟨t, hc, by
    show OwnerPc.call (Function.update x.deque w d w).owner = _
    rw [Function.update_self]
    exact hgoing.call⟩⟩

/-- `dequeue_front` is called. -/
theorem Carries.callFront (h : x.Carries q) (hc : x.Calls w .dequeueFront)
    (hacc : x.access w w .popping .dequeueFront = some x') : Simulated gridT ok x q x' := by
  obtain ⟨d, hd, heq, -⟩ := access_cases hacc
  have hgoing := (h.contains w).dequeueFront hd
  rw [heq fun p r hret => by cases hret]
  exact ⟨q, .refl, h.inside .own hgoing.contains ⟨hc, by
    show OwnerPc.call (Function.update x.deque w d w).owner = _
    rw [Function.update_self]
    exact hgoing.call⟩⟩

/-- An access inside `enqueue` or `dequeue_front`. -/
theorem Carries.owner {c : Queue.Call TaskId} (h : x.Carries q) (hok : IgnoresDeques ok)
    (hc : x.Calls w c) (hown : (x.deque w).owner.call = some c)
    (hpc : ∀ x' : Machine ω, x'.Calls w c → (x'.deque w).owner.call = some c → x'.At w (q w) pc)
    (hacc : x.access w w pc .owner = some x') : Simulated gridT ok x q x' := by
  obtain ⟨d, hd, hinside, hret⟩ := access_cases hacc
  obtain ⟨f, fs, hst, hf⟩ := hc
  rcases (h.contains w).owner hown hd with ⟨hev, hgoing⟩ | ⟨r, l, hev, hcontains, hserved⟩
  · rw [hinside fun p r hret => by
      rw [hev] at hret
      cases hret]
    refine ⟨q, .refl, h.inside .own hgoing.contains (hpc _ ⟨f, fs, hst, hf⟩ ?_)⟩
    show OwnerPc.call (Function.update x.deque w d w).owner = _
    rw [Function.update_self]
    exact hgoing.call
  · rw [hret _ _ hev]
    exact h.answered hok hst (.inl hf) (fun _ => rfl) .own hcontains hserved

/-- An access inside `dequeue_back`. -/
theorem Carries.thief (h : x.Carries q) (hok : IgnoresDeques ok) (hc : x.Calls w .dequeueFront)
    (htimely : Queue.Timely (x.deque v) (.thief w))
    (hacc : x.access w v (.stealing v) (.thief w) = some x') : Simulated gridT ok x q x' := by
  obtain ⟨d, hd, hinside, hret⟩ := access_cases hacc
  obtain ⟨f, fs, hst, hf⟩ := hc
  obtain ⟨⟨howner, hbottom⟩, ⟨hev, hcontains⟩ | ⟨r, l, hev, hcontains, hserved⟩⟩ :=
    (h.contains v).thief htimely hd
  · rw [hinside hev]
    exact ⟨q, .refl, h.inside ⟨fun _ => howner, fun _ => hbottom, fun _ => id⟩ hcontains
      ⟨f, fs, hst, hf⟩⟩
  · rw [hret _ _ hev]
    refine h.answered hok hst (.inr ⟨hf, rfl⟩) (fun hne => absurd rfl hne)
      ⟨fun _ => howner, fun _ => hbottom, fun _ hnil => ?_⟩ hcontains hserved
    -- nothing can be taken from an empty deque
    rw [hnil] at hserved
    cases hserved with
    | taken hk => cases hk
    | empty => rfl
    | contended => rfl

/-- Worker `w` goes to another program point. -/
theorem Carries.setPc (h : x.Carries q) (hat : x.At w (q w) pc) : (x.setPc w pc).Carries q where
  contains := h.contains
  at_pc u := by
    show At _ u (q u) (Function.update x.pc w pc u)
    by_cases hu : u = w
    · subst hu
      rw [Function.update_self]
      exact hat.congr rfl rfl rfl id
    · rw [Function.update_of_ne hu]
      exact (h.at_pc u).congr rfl rfl rfl id

omit [DecidableEq ω] in
/-- The assertion of `pop_task` holds. -/
theorem Carries.assert {b : BitVec 8} (h : x.Carries q) (hpc : x.pc w = .assertTop b) :
    isEmptyQueue b (x.deque w).queue.top = true := by
  have hat := h.at_pc w
  rw [hpc] at hat
  obtain ⟨-, hnil, rfl⟩ := hat
  have hcontains := h.contains w
  rw [hnil] at hcontains
  exact hcontains.isEmpty

/-- A step away from the deques. -/
theorem Carries.run [Fintype ω] {s : Partee.State ω} (h : x.Carries q) (hpc : x.pc w = .outside)
    (hst : x.state.rt.stack w = f :: fs) (hf : f.dequeCall = none)
    (hok : IgnoresDeques ok) (hmeets : ok x.state (w, ch)) (hS : Sound (x.state.withQueue q))
    (hstep : Partee.step gridT x.state (w, ch) = some s) :
    Simulated gridT ok x q { x with state := s } := by
  have habove := step_withQueue (q := q) hst hf hstep
  refine ⟨q, Run.refl.tail (hok.congr _ q _ hmeets) habove, h.contains, fun u => ?_⟩
  by_cases hu : u = w
  · subst hu
    show At _ u (q u) (x.pc u)
    rw [hpc]
    trivial
  · refine (h.at_pc u).congr ?_ rfl rfl id
    have hstack := hS.stack_of_ne habove hu
    exact hstack

/-- **One step.** -/
theorem Carries.step [Fintype ω] {a : ω × Turn ω} (h : x.Carries q) (hok : IgnoresDeques ok)
    (hS : Sound (x.state.withQueue q)) (hmeets : x.Ok ok a) (hstep : x.step gridT a = some x') :
    Simulated gridT ok x q x' := by
  obtain ⟨w, turn⟩ := a
  obtain ⟨htimely, hmeets⟩ := hmeets
  have hat := h.at_pc w
  unfold Machine.step at hstep
  dsimp only at hstep
  cases hst : x.state.rt.stack w with
  | nil =>
    rw [hst] at hstep
    cases hstep
  | cons f fs =>
    rw [hst] at hstep
    dsimp only at hstep
    split at hstep
    · rename_i ch hpc
      split at hstep
      · rename_i hf
        rw [Option.map_eq_some_iff] at hstep
        obtain ⟨s, hs, rfl⟩ := hstep
        exact h.run hpc hst hf hok (hmeets ch rfl) hS hs
      · cases hstep
    · -- a call
      unfold Machine.dequeCall at hstep
      split at hstep
      · rename_i hf
        exact h.callEnqueue ⟨f, fs, hst, hf⟩ hstep
      · rename_i hf
        exact h.callFront ⟨f, fs, hst, hf⟩ hstep
      · cases hstep
    · rename_i v hpc
      rw [hpc] at hat
      exact h.thief hok hat (htimely v (.inr rfl)) hstep
    · -- an access
      cases hpc : x.pc w with
      | outside =>
        rw [hpc] at hstep
        cases hstep
      | enqueueing =>
        rw [hpc] at hstep hat
        obtain ⟨t, hc, hown⟩ := hat
        exact h.owner hok hc hown (by
          intro x' hc' hown'
          exact ⟨t, hc', hown'⟩) hstep
      | popping =>
        rw [hpc] at hstep hat
        exact h.owner hok hat.1 hat.2 (by
          intro x' hc' hown'
          exact ⟨hc', hown'⟩) hstep
      | assertBottom =>
        rw [hpc] at hstep hat
        cases hstep
        exact ⟨q, .refl, h.setPc ⟨hat.1, hat.2, rfl⟩⟩
      | assertTop b =>
        have hempty := h.assert hpc
        rw [hpc] at hstep hat
        rw [dequeStep, if_pos hempty] at hstep
        cases hstep
        exact ⟨q, .refl, h.setPc hat.1⟩
      | aborted =>
        rw [hpc] at hstep
        cases hstep
      | steal =>
        rw [hpc] at hstep
        cases hstep
      | stealing v =>
        rw [hpc] at hstep hat
        exact h.thief hok hat (htimely v (.inl hpc)) hstep
    · cases hstep

theorem carries_init (main : ω) : (Machine.init main).Carries fun _ => [] where
  contains _ := contains_init
  at_pc _ := trivial

instance [∀ s a, Decidable (ok s a)] (x : Machine ω) (a : ω × Turn ω) : Decidable (x.Ok ok a) :=
  match a with
  | (w, .run ch) =>
      decidable_of_iff (x.Timely (w, .run ch) ∧ ok x.state (w, ch))
        (and_congr_right fun _ => ⟨fun h ch' hch => by cases hch; exact h, fun h => h ch rfl⟩)
  | (w, .deque) =>
      decidable_of_iff (x.Timely (w, .deque))
        ⟨fun h => ⟨h, fun _ hch => by cases hch⟩, And.left⟩
  | (w, .steal v) =>
      decidable_of_iff (x.Timely (w, .steal v))
        ⟨fun h => ⟨h, fun _ hch => by cases hch⟩, And.left⟩

end Machine

/-! ## Every run -/

variable [Fintype ω] {main : ω} {ok : State ω → ω × Choice ω → Prop} {x : Machine ω}

/-- **The runtime on its deques** does what the runtime above their contract can do: the tasks
of each deque are those accepted and not yet returned, which at rest its buffer stores.  And
the assertion of `pop_task` never fails. -/
theorem runtime_on_deques (hok : IgnoresDeques ok)
    (run : Run (Machine.step gridT) (Machine.Ok ok) (Machine.init main) x) :
    ∃ q : ω → List TaskId, Run (step gridT) ok (init main) (x.state.withQueue q) ∧
      (∀ v, ((x.deque v).hist.accepted.map some).Perm
        ((x.deque v).hist.returned ++ (q v).map some)) ∧
      (∀ v, (x.deque v).owner = .idle → (x.deque v).queue.stored.Perm ((q v).map some)) ∧
      ∀ w, x.pc w ≠ .aborted := by
  have hsim : ∃ s, Run (step gridT) ok (init main) s ∧
      ∃ q, s = x.state.withQueue q ∧ Sound s ∧ x.Carries q := by
    refine run.simulate (R := fun x s => ∃ q, s = x.state.withQueue q ∧ Sound s ∧ x.Carries q)
      ⟨fun _ => [], rfl, .init main, Machine.carries_init main⟩ ?_
    rintro x s a x' ⟨q, rfl, hS, hcarries⟩ hmeets hstep
    obtain ⟨q', hrun, hcarries'⟩ := hcarries.step hok hS hmeets hstep
    refine ⟨x'.state.withQueue q', hrun, q', rfl, ?_, hcarries'⟩
    exact hrun.invariant hS fun _ _ _ hS _ hs => hS.step hs
  obtain ⟨s, hrun, q, rfl, -, hcarries⟩ := hsim
  refine ⟨q, hrun, fun v => (hcarries.contains v).balance,
    fun v => (hcarries.contains v).stored, fun w hw => ?_⟩
  have hat := hcarries.at_pc w
  rw [hw] at hat
  exact hat

omit [Fintype ω] [DecidableEq ω] in
/-- The conditions under which the runtime keeps the order say nothing about the deques. -/
theorem KeepsOrder.ignoresDeques : IgnoresDeques (@KeepsOrder ω) where
  congr s q a h := ⟨h.writers, h.readers, h.entries, h.fresh⟩
  free s w ch f fs hst hf := by
    have hholds : JoinsBehindWriters s f ∧ ReplacesBehindReaders s f ∧ f.inserts s = none ∧
        f.testsFresh s.rt = true := by
      cases hc : f.dequeCall with
      | none => exact absurd hc hf
      | some c =>
        cases c with
        | enqueue t =>
          cases Frame.dequeCall_enqueue hc
          exact ⟨trivial, trivial, rfl, rfl⟩
        | dequeueFront =>
          rcases Frame.dequeCall_front hc with rfl | ⟨t, tmp, y, rfl⟩
          · exact ⟨trivial, trivial, rfl, rfl⟩
          · exact ⟨trivial, trivial, rfl, rfl⟩
        | dequeueBack => exact absurd hc Frame.dequeCall_ne_back
    obtain ⟨hwriters, hreaders, hinserts, hfresh⟩ := hholds
    refine ⟨fun g gs hg => ?_, fun g gs hg => ?_, fun g hg e he => ?_, fun g hg => ?_⟩
    · cases hst.symm.trans hg
      exact hwriters
    · cases hst.symm.trans hg
      exact hreaders
    · rw [hst] at hg
      cases hg
      rw [hinserts] at he
      cases he
    · rw [hst] at hg
      cases hg
      exact hfresh

/-- Worker 0 spawns task 1 and accepts it; worker 1 finds its own deque empty, steals the task
and executes it. -/
def stealingRun : List (Fin 2 × Turn (Fin 2)) :=
  (0, .run (.spawn [.ofBlock 0 2 0])) :: .replicate 8 (0, .run .go) ++
    .replicate 4 (0, .deque) ++ .replicate 6 (1, .deque) ++ (1, .steal 0) ::
    .replicate 3 (1, .deque) ++ (1, .run .go) :: (1, .run .ret) :: .replicate 9 (1, .run .go)

theorem runtime_on_deques_example :
    ∃ x : Machine (Fin 2), (x.deque 0).hist.returned = [some 1] ∧
      (x.state.rt.task 1).status = .complete ∧
      ∃ q : Fin 2 → List TaskId, Run (step 0) KeepsOrder (init 0) (x.state.withQueue q) := by
  have hrun : ∃ x ∈ exec (Machine.step 0) (Machine.Ok fun s a => keepsOrder s a = true) stealingRun
      (Machine.init 0), (x.deque 0).hist.returned = [some 1] ∧
        (x.state.rt.task 1).status = .complete := by decide +kernel
  obtain ⟨x, run, hreturned, hstatus⟩ := Run.exists_of_exec hrun
  have run' : Run (Machine.step 0) (Machine.Ok KeepsOrder) (Machine.init 0) x :=
    run.mono fun x a h => ⟨h.1, fun ch hch => .of_test (h.2 ch hch)⟩
  obtain ⟨q, habove, -⟩ := runtime_on_deques KeepsOrder.ignoresDeques run'
  exact ⟨x, hreturned, hstatus, q, habove⟩

end Partee
