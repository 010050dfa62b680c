import Partee.Runtime.Position
import Partee.Transition.Reorder

/-!
# Any schedule gives the result of the serial execution

The runtime knows nothing of what the bodies do.  Here they work on a memory: while
a body is on top of its stack it may perform an action, which reads and writes
blocks and its own local variables.  The arguments of a task say which blocks it
accesses, and the runtime orders the tasks by nothing else, so an action has to keep
to the arguments of its task and of all the tasks above, and a task that has spawned
others has to leave alone what they access until they are complete.

Then no schedule can be told from the serial execution: in every state, the memory is
what the actions performed so far leave behind when they are performed in the
depth-first order of the tasks.

* `Computation`, `workStep`: the runtime, with either width of the counts, together with
  the memory.
* `Allowed`: the discipline of an action.
* `Serialized`: the invariant.
* `serial_elision`: the memory is that of the serial execution, within the bounds of the
  counts.
-/

namespace Partee

open Transition

/-! ## Bodies at work -/

/-- What an action of a body reads and writes. -/
inductive Cell where
  /-- the memory of block `j` -/
  | block (j : ℕ)
  /-- the local variables of the body of `t` -/
  | locals (t : TaskId)
  deriving DecidableEq

/-- An action that a body has performed. -/
structure Work (V : Type*) where
  task : TaskId
  /-- the number of descriptors allocated at the time -/
  next : ℕ
  effect : Effect Cell V

/-- The runtime and the memory that its tasks work on. -/
structure Computation (ω V : Type*) where
  state : State ω
  memory : Cell → V
  /-- what the bodies have done so far, the latest first -/
  log : List (Work V)

section

variable {ω V : Type*} [DecidableEq ω]

/-- A step of the runtime, or an action of the body on top of the stack of a worker. -/
def workStep (move : State ω → ω × Choice ω → Option (State ω)) (x : Computation ω V) :
    (ω × Choice ω) ⊕ (ω × Effect Cell V) → Option (Computation ω V)
  | .inl a => (move x.state a).map fun s => { x with state := s }
  | .inr (w, α) =>
      match x.state.rt.stack w with
      | .execute t _ .body :: _ =>
          some { x with
            memory := α.apply x.memory
            log := ⟨t, x.state.rt.next, α⟩ :: x.log }
      | _ => none

/-- The memory at the start is `m`. -/
def startWork (main : ω) (m : Cell → V) : Computation ω V := ⟨init main, m, []⟩

/-- Perform the actions of a log in order. -/
abbrev replay (l : List (Work V)) (m : Cell → V) : Cell → V :=
  applyAll (fun e => e.effect.apply) l m

end

/-! ## The discipline -/

variable {ω V : Type*}

/-- The action keeps away from what `u` accesses. -/
def Spares (gridT : BitVec 64) (r : Runtime ω) (u : TaskId) (α : Effect Cell V) : Prop :=
  ∀ b j, Accesses gridT r u b j → .block j ∉ α.writes ∧ (b = true → .block j ∉ α.reads)

/-- The action of `t` keeps to the local variables of `t` and to the arguments of `t`
and of the tasks above it, up to the main program. -/
structure Within (gridT : BitVec 64) (r : Runtime ω) (t : TaskId) (α : Effect Cell V) : Prop where
  locals : ∀ u, Cell.locals u ∈ α.reads ∨ Cell.locals u ∈ α.writes → u = t
  reads : ∀ j, Cell.block j ∈ α.reads → ∀ v, Under r t v → v ≠ mainTask →
    ∃ b, Accesses gridT r v b j
  writes : ∀ j, Cell.block j ∈ α.writes → ∀ v, Under r t v → v ≠ mainTask →
    Accesses gridT r v true j

/-- The action of `t` spares those of its first `n` descriptors that are children of
`t` and not complete. -/
def Clear (gridT : BitVec 64) (r : Runtime ω) (t : TaskId) (n : ℕ) (α : Effect Cell V) : Prop :=
  ∀ c < n, (r.task c).parent = some t → (r.task c).status ≠ .complete → Spares gridT r c α

/-- What a body may do. -/
structure Allowed (gridT : BitVec 64) (r : Runtime ω) (t : TaskId) (α : Effect Cell V) : Prop where
  within : Within gridT r t α
  clear : Clear gridT r t r.next α

/-- The runtime loses no order and the bodies keep to the discipline. -/
def Disciplined (gridT : BitVec 64) (x : Computation ω V) :
    (ω × Choice ω) ⊕ (ω × Effect Cell V) → Prop
  | .inl a => KeepsOrder x.state a
  | .inr (w, α) => ∀ t tmp fs, x.state.rt.stack w = .execute t tmp .body :: fs →
      Allowed gridT x.state.rt t α

variable {gridT : BitVec 64} {r r' : Runtime ω} {t t' u v : TaskId} {n : ℕ} {α β : Effect Cell V}

/-- An action that spares what `u` accesses is independent of the actions under `u`. -/
theorem Spares.independent (h : Spares gridT r u β) (hu : Under r t u) (hne : u ≠ mainTask)
    (hα : Within gridT r t α) (hβ : Within gridT r t' β) (htt' : t ≠ t') : α.Independent β where
  left
    | .block j, hj => by
        obtain ⟨hw, hr⟩ := h true j (hα.writes j hj u hu hne)
        exact ⟨hr rfl, hw⟩
    | .locals k, hk => by
        obtain rfl := hα.locals k (.inr hk)
        exact ⟨fun h' => htt' (hβ.locals k (.inl h')), fun h' => htt' (hβ.locals k (.inr h'))⟩
  right
    | .block j, hj => by
        refine ⟨fun hr => ?_, fun hw => ?_⟩
        · obtain ⟨b, hb⟩ := hα.reads j hr u hu hne
          exact (h b j hb).1 hj
        · exact (h true j (hα.writes j hw u hu hne)).1 hj
    | .locals k, hk => by
        obtain rfl := hβ.locals k (.inr hk)
        exact ⟨fun h' => htt' (hα.locals k (.inl h')).symm,
          fun h' => htt' (hα.locals k (.inr h')).symm⟩

/-- An action under `v` spares a task that does not conflict with `v`. -/
theorem Within.spares (hβ : Within gridT r t' β) (hv : Under r t' v) (hne : v ≠ mainTask)
    (h : ¬ Conflict gridT r v u) : Spares gridT r u β := by
  intro b j hub
  refine ⟨fun hw => h ⟨true, b, j, .inl rfl, hβ.writes j hw v hv hne, hub⟩, ?_⟩
  rintro rfl hr
  obtain ⟨a, ha⟩ := hβ.reads j hr v hv hne
  exact h ⟨a, true, j, .inr rfl, ha, hub⟩

/-! ## What the log says stays true -/

theorem Status.eq_complete {st : Status} (h : Status.complete.code ≤ st.code) : st = .complete := by
  cases st <;> first | rfl | exact absurd h (by decide)

/-- What is known about an action of the log. -/
structure Logged (gridT : BitVec 64) (r : Runtime ω) (e : Work V) : Prop where
  lt : e.task < r.next
  next_le : e.next ≤ r.next
  started : 0 < r.hist.start e.task
  within : Within gridT r e.task e.effect
  clear : Clear gridT r e.task e.next e.effect

section

variable [Fintype ω] [DecidableEq ω] {w : ω} {f : Frame} {gs : List Frame}

theorem Within.of_move (h : Within gridT r t α) (hT : Tokens r) (hF : Family r)
    (hm : Move r w f gs r') (ho : Owned r f) (ht : t < r.next) : Within gridT r' t α where
  locals := h.locals
  reads j hj v hv hne := by
    have hold : Under r t v := hv.of_move hT hF hm ho ht
    obtain ⟨b, hb⟩ := h.reads j hj v hold hne
    exact ⟨b, hb.mono (hm.grows ho) (hold.lt_next hT hF ht)⟩
  writes j hj v hv hne := by
    have hold : Under r t v := hv.of_move hT hF hm ho ht
    exact (h.writes j hj v hold hne).mono (hm.grows ho) (hold.lt_next hT hF ht)

omit [Fintype ω] in
theorem Clear.of_move (h : Clear gridT r t n α) (hF : Family r)
    (hm : Move r w f gs r') (ho : Owned r f) (hn : n ≤ r.next) : Clear gridT r' t n α := by
  have hg : Grows r r' := hm.grows ho
  intro c hc hp hst b j hacc
  have hlt : c < r.next := hc.trans_le hn
  have hpar : (r.task c).parent = some t := by
    rcases eq_or_ne c mainTask with rfl | hne
    · rw [(hm.main hF ho).2] at hp
      cases hp
    · obtain ⟨q, -, hq, -⟩ := hF.parent c hlt hne
      rw [hg.parent c q hq] at hp
      rw [hq, hp]
  have hst' : (r.task c).status ≠ .complete := by
    intro heq
    have hle := hg.status c
    rw [heq] at hle
    exact hst (Status.eq_complete hle)
  exact h c hc hpar hst' b j (hacc.of_grows hg hlt)

theorem Logged.of_move {e : Work V} (h : Logged gridT r e) (hT : Tokens r) (hF : Family r)
    (hm : Move r w f gs r') (ho : Owned r f) : Logged gridT r' e where
  lt := h.lt.trans_le (hm.grows ho).next
  next_le := h.next_le.trans (hm.grows ho).next
  started := by
    rw [(hm.grows ho).start e.task h.started]
    exact h.started
  within := h.within.of_move hT hF hm ho h.lt
  clear := h.clear.of_move hF hm ho h.next_le

end

/-! ## Two actions out of order -/

variable [Fintype ω] [DecidableEq ω] {gridT : BitVec 64} {main : ω} {s s' : State ω} {w : ω}
  {t : TaskId} {tmp : Option TaskId} {fs : List Frame} {α : Effect Cell V} {e : Work V}

/-- **An action that comes late is independent of those it should have preceded.** -/
theorem Ordered.independent (hO : Ordered gridT s)
    (hst : s.rt.stack w = .execute t tmp .body :: fs) (hα : Allowed gridT s.rt t α)
    (he : Logged gridT s.rt e)
    (hlt : position s.rt t s.rt.next < position s.rt e.task e.next) : α.Independent e.effect := by
  obtain ⟨hT, hF, -⟩ := hO.sound
  obtain ⟨hsched, hstart, -⟩ := hO.sound.owned hst
  have ht : t < s.rt.next := hT.lt_next (by simp [hsched])
  have hmain : ∀ {c p}, (s.rt.task c).parent = some p → c ≠ mainTask := by
    rintro c p hc rfl
    rw [hF.root] at hc
    cases hc
  -- a task that is running is under no finished one
  have hrunning : ∀ {u}, Under s.rt t u → ¬ Finished s.rt u := fun hu hfin =>
    hfin.not_running hu hsched
  by_cases hne : t = e.task
  · subst hne
    exact absurd hlt (not_lt.2 (position_le_position he.next_le))
  · cases precedes_of_position_le hT hF ht he.lt hlt.le with
    | own _ => exact absurd rfl hne
    | @beforeSpawn _ c _ hc hn _ =>
      exact absurd (hF.parent_of_eq hT hc).2.1 (Nat.not_lt.2 hn)
    | @afterSpawn _ c _ hc hn hu =>
      -- the task that spawned `c` has spared it, and `c` is not complete
      have hlive : (s.rt.task c).status ≠ .complete := by
        intro hcomplete
        refine hrunning hu (hO.finished ?_)
        rw [Released, hcomplete]
        decide
      exact (he.clear c hn hc hlive).independent hu (hmain hc) hα.within he.within hne
    | @siblings _ c c' p _ hcc' hc hc' hu hu' =>
      -- something under the later sibling has been started
      have hconf : ¬ Conflict gridT s.rt c' c := fun hconf =>
        hrunning hu (hO.finished_of_conflict hcc' hc hc' hconf hu' he.started)
      exact (he.within.spares hu' (hmain hc') hconf).independent hu (hmain hc) hα.within
        he.within hne

/-! ## The invariant -/

/-- An earlier and a later action of the log are in order, or independent. -/
def InOrder (r : Runtime ω) (e e' : Work V) : Prop :=
  position r e.task e.next ≤ position r e'.task e'.next ∨ e.effect.Independent e'.effect

/-- Of the actions performed so far, all pairs that are out of order are independent. -/
structure Serialized (gridT : BitVec 64) (m : Cell → V) (x : Computation ω V) : Prop where
  logged : ∀ e ∈ x.log, Logged gridT x.state.rt e
  recent : x.log.Pairwise fun e' e => e.next ≤ e'.next
  inOrder : x.log.Pairwise fun e' e => InOrder x.state.rt e e'
  memory : x.memory = replay x.log.reverse m

variable {m : Cell → V} {x y : Computation ω V}

/-- A step of the runtime. -/
theorem Serialized.move (h : Serialized gridT m x) (hS : Sound x.state) (hS' : Sound s')
    {f : Frame} {gs : List Frame} {r' : Runtime ω} (hm : Move x.state.rt w f gs r')
    (hst : x.state.rt.stack w = f :: fs) (hr : s'.rt = r'.setStack w (gs ++ fs)) :
    Serialized gridT m { x with state := s' } := by
  have ho : Owned x.state.rt f := hS.owned hst
  have hg : Grows x.state.rt s'.rt := hr ▸ (hm.grows ho).trans .setStack
  have hpos : ∀ e ∈ x.log, position s'.rt e.task e.next = position x.state.rt e.task e.next := by
    intro e he
    rw [position, position,
      path_of_grows hS.tokens hS.family hS'.tokens hS'.family hg (h.logged e he).lt]
  refine ⟨fun e he => ?_, h.recent, ?_, h.memory⟩
  · show Logged gridT s'.rt e
    rw [hr]
    obtain ⟨hlt, hnext, hstart, hwithin, hclear⟩ :=
      (h.logged e he).of_move hS.tokens hS.family hm ho
    exact ⟨hlt, hnext, hstart, ⟨hwithin.locals, hwithin.reads, hwithin.writes⟩, hclear⟩
  · refine h.inOrder.imp_of_mem fun {e' e} he' he hin => ?_
    show InOrder s'.rt e e'
    rwa [InOrder, hpos e he, hpos e' he']

/-- An action of a body. -/
theorem Serialized.work (h : Serialized gridT m x) (hO : Ordered gridT x.state)
    (hst : x.state.rt.stack w = .execute t tmp .body :: fs)
    (hα : Allowed gridT x.state.rt t α) :
    Serialized gridT m { x with
      memory := α.apply x.memory
      log := ⟨t, x.state.rt.next, α⟩ :: x.log } := by
  obtain ⟨hsched, hstart, -⟩ := hO.sound.owned hst
  refine ⟨?_, ?_, ?_, ?_⟩
  · intro e he
    rcases List.mem_cons.1 he with rfl | hold
    · exact ⟨hO.sound.tokens.lt_next (by simp [hsched]), le_rfl, hstart, hα.within, hα.clear⟩
    · exact h.logged e hold
  · exact List.pairwise_cons.2 ⟨fun e he => (h.logged e he).next_le, h.recent⟩
  · refine List.pairwise_cons.2 ⟨fun e he => ?_, h.inOrder⟩
    rcases le_or_gt (position x.state.rt e.task e.next) (position x.state.rt t x.state.rt.next)
      with hle | hlt
    · exact .inl hle
    · exact .inr (hO.independent hst hα (h.logged e he) hlt).symm
  · show α.apply x.memory = _
    rw [List.reverse_cons, replay, applyAll_append, h.memory]
    rfl

omit [Fintype ω] in
/-- The runtime does not see the memory. -/
theorem run_state {move : State ω → ω × Choice ω → Option (State ω)}
    (h : Run (workStep move) (Disciplined gridT) (startWork main m) x) :
    Run move KeepsOrder (init main) x.state := by
  refine h.map (f := Computation.state) ?_
  rintro x (a | ⟨w, α⟩) y hok hs
  · rw [workStep, Option.map_eq_some_iff] at hs
    obtain ⟨s, hs, rfl⟩ := hs
    exact .inr ⟨a, hok, hs⟩
  · left
    rw [workStep] at hs
    split at hs
    · cases hs
      rfl
    · cases hs

/-- Below the bounds the width of the counts makes no difference. -/
theorem work_of_work32
    (h : Run (workStep (step32 gridT)) (Disciplined gridT) (startWork main m) x)
    (hfew : FewPushes x.state.rt) :
    Run (workStep (step gridT)) (Disciplined gridT) (startWork main m) x := by
  induction h with
  | refl => exact .refl
  | @tail y z a hy hok hs ih =>
    rcases a with a | ⟨w, α⟩
    · obtain ⟨s, hs₁, rfl⟩ := Option.map_eq_some_iff.1 hs
      have hr := ih (hfew.of_step32 hs₁)
      have hS : Sound y.state := .of_reachable (run_state hr).reach
      have hshort : ShortLists y.state.dep := shortLists_of_run32 (run_state hy)
      refine hr.tail hok ?_
      rw [workStep, hS.step_of_step32 hshort (KeepsOrder.entries hok) hs₁ hfew]
      rfl
    · refine (ih ?_).tail hok hs
      rw [workStep] at hs
      split at hs
      · cases hs
        exact hfew
      · cases hs

theorem Serialized.of_run
    (h : Run (workStep (step gridT)) (Disciplined gridT) (startWork main m) x) :
    Serialized gridT m x := by
  have h0 : Serialized gridT m (startWork main m) :=
    ⟨fun _ he => (nomatch he), List.Pairwise.nil, List.Pairwise.nil, rfl⟩
  refine h.invariant_of (I := Serialized gridT m) (fun x hx => Ordered.of_run (run_state hx)) h0 ?_
  rintro x (a | ⟨w, α⟩) y hO hI hok hs
  · rw [workStep, Option.map_eq_some_iff] at hs
    obtain ⟨s, hs, rfl⟩ := hs
    have hS' : Sound s := hO.sound.step hs
    obtain ⟨f, fs, gs, s₁, hst, hact, rfl⟩ := act_of_step hs
    exact hI.move hO.sound hS' (hO.sound.move hst hact) hst rfl
  · rw [workStep] at hs
    split at hs
    · rename_i t tmp fs hst
      cases hs
      exact hI.work hO hst (hok t tmp fs hst)
    · cases hs

/-! ## The serial execution -/

/-- `l` holds the actions of the log in the depth-first order of the tasks, each task's
own in the order in which it performed them. -/
structure SerialOrder (r : Runtime ω) (log l : List (Work V)) : Prop where
  perm : l.Perm log
  order : l.Pairwise fun e e' => Precedes r e.task e.next e'.task e'.next
  own : ∀ t, l.filter (fun e => e.task = t) = log.reverse.filter fun e => e.task = t

/-- The actions of a log in the order of their places. -/
def serial (r : Runtime ω) (log : List (Work V)) : List (Work V) :=
  log.reverse.insertionSort fun e e' => position r e.task e.next ≤ position r e'.task e'.next

omit [DecidableEq ω] in
/-- Sorting by places gives the depth-first order. -/
theorem Serialized.serialOrder (h : Serialized gridT m x) (hS : Sound x.state) :
    SerialOrder x.state.rt x.log (serial x.state.rt x.log) := by
  have hperm : (serial x.state.rt x.log).Perm x.log :=
    (List.perm_insertionSort _ _).trans (List.reverse_perm _)
  refine ⟨hperm, ?_, fun t => ?_⟩
  · have hsorted := List.pairwise_insertionSort (fun e e' : Work V =>
      position x.state.rt e.task e.next ≤ position x.state.rt e'.task e'.next) x.log.reverse
    refine List.Pairwise.imp_of_mem (fun {e e'} he he' hle => ?_) hsorted
    exact precedes_of_position_le hS.tokens hS.family (h.logged e (hperm.mem_iff.1 he)).lt
      (h.logged e' (hperm.mem_iff.1 he')).lt hle
  · -- the actions of one task are in order already, so the sort keeps them
    let own : List (Work V) := x.log.reverse.filter fun e => e.task = t
    have hown : ∀ e ∈ own, e.task = t := fun e he => by simpa using (List.mem_filter.1 he).2
    have hsorted : own.Pairwise fun e e' =>
        position x.state.rt e.task e.next ≤ position x.state.rt e'.task e'.next := by
      refine List.Pairwise.imp_of_mem (fun {e e'} he he' hn => ?_)
        ((List.pairwise_reverse.2 h.recent).filter _)
      rw [hown e he, hown e' he']
      exact position_le_position hn
    have hsub : own.Sublist (serial x.state.rt x.log) :=
      List.sublist_insertionSort hsorted List.filter_sublist
    have hfilter : own.filter (fun e => e.task = t) = own :=
      List.filter_eq_self.2 fun e he => by simpa using hown e he
    have hle : own.Sublist ((serial x.state.rt x.log).filter fun e => e.task = t) :=
      hfilter ▸ hsub.filter _
    refine (hle.eq_of_length ?_).symm
    exact ((List.reverse_perm x.log).trans hperm.symm).filter _ |>.length_eq

/-- The cells that the main program or one of its children may read, or write if
`out`. -/
def leafCell (gridT : BitVec 64) (r : Runtime ω) (t : TaskId) (out : Bool) : Cell → Bool
  | .block j => t = mainTask ||
      (r.task t).args.any fun g => (!out || g.isOut) && decide (j ∈ g.blocks gridT)
  | .locals u => u = t

/-- The discipline for the main program and its children, before they spawn. -/
def leafAllowed (gridT : BitVec 64) (r : Runtime ω) (t : TaskId) (α : Effect Cell V) : Bool :=
  (r.task mainTask).parent.isNone && (t = mainTask || (r.task t).parent = some mainTask) &&
    (List.range r.next).all (fun c => (r.task c).parent ≠ some t) &&
    decide (∀ l ∈ α.reads, leafCell gridT r t false l) &&
    decide (∀ l ∈ α.writes, leafCell gridT r t true l)

omit [Fintype ω] [DecidableEq ω] in
theorem Allowed.of_leaf {r : Runtime ω} (h : leafAllowed gridT r t α) : Allowed gridT r t α := by
  simp only [leafAllowed, Bool.and_eq_true, Bool.or_eq_true, decide_eq_true_eq, List.all_eq_true,
    List.mem_range, Option.isNone_iff_eq_none] at h
  obtain ⟨⟨⟨⟨hroot, ht⟩, hleaf⟩, hreads⟩, hwrites⟩ := h
  -- no task but `t` itself lies between `t` and the main program
  have habove : ∀ v, Under r t v → v ≠ mainTask → v = t ∧ t ≠ mainTask := by
    intro v hv hne
    have hnone : ∀ {u}, Under r mainTask u → u = mainTask := by
      intro u hu
      rcases Relation.ReflTransGen.cases_head hu with heq | ⟨q, hq, -⟩
      · exact heq.symm
      · rw [hroot] at hq
        cases hq
    rcases ht with rfl | hp
    · exact absurd (hnone hv) hne
    · rcases Relation.ReflTransGen.cases_head hv with rfl | ⟨q, hq, hv'⟩
      · exact ⟨rfl, hne⟩
      · obtain rfl : mainTask = q := Option.some.inj (hp.symm.trans hq)
        exact absurd (hnone hv') hne
  have hcell : ∀ {out j}, leafCell gridT r t out (.block j) → t ≠ mainTask →
      ∃ g ∈ (r.task t).args, (out = true → g.isOut = true) ∧ j ∈ g.blocks gridT := by
    intro out j hl hne
    simp only [leafCell, hne, decide_false, Bool.false_or, List.any_eq_true, Bool.and_eq_true,
      Bool.or_eq_true, Bool.not_eq_true', decide_eq_true_eq] at hl
    obtain ⟨g, hg, hout, hj⟩ := hl
    exact ⟨g, hg, fun h => hout.resolve_left (by simp [h]), hj⟩
  refine ⟨⟨fun u hu => ?_, fun j hj v hv hne => ?_, fun j hj v hv hne => ?_⟩, fun c hc hp => ?_⟩
  · rcases hu with hu | hu
    · exact of_decide_eq_true (hreads _ hu)
    · exact of_decide_eq_true (hwrites _ hu)
  · obtain ⟨rfl, hmain⟩ := habove v hv hne
    obtain ⟨g, hg, -, hjg⟩ := hcell (hreads _ hj) hmain
    exact ⟨g.isOut, g, hg, rfl, hjg⟩
  · obtain ⟨rfl, hmain⟩ := habove v hv hne
    obtain ⟨g, hg, hout, hjg⟩ := hcell (hwrites _ hj) hmain
    exact ⟨g, hg, hout rfl, hjg⟩
  · exact absurd hp (hleaf c hc)

/-- The discipline, as it is tested on a run. -/
def disciplined (gridT : BitVec 64) (x : Computation ω V) :
    (ω × Choice ω) ⊕ (ω × Effect Cell V) → Bool
  | .inl a => keepsOrder x.state a
  | .inr (w, α) =>
      match x.state.rt.stack w with
      | .execute t _ .body :: _ => leafAllowed gridT x.state.rt t α
      | _ => true

omit [Fintype ω] [DecidableEq ω] in
theorem Disciplined.of_test {a : (ω × Choice ω) ⊕ (ω × Effect Cell V)}
    (h : disciplined gridT x a) : Disciplined gridT x a := by
  rcases a with a | ⟨w, α⟩
  · exact KeepsOrder.of_test h
  · intro t tmp fs hst
    rw [disciplined, hst] at h
    exact .of_leaf h

/-- The main program stores to block 0 and spawns three tasks: task 1 writes block 0,
task 2 reads it, and task 3 writes block 1.  Worker `w` executes task 3 first, then
task 1, and task 2 when the release of task 1 has scheduled it. -/
def serialRun (v w : ω) : List ((ω × Choice ω) ⊕ (ω × Effect Cell ℕ)) :=
  let spawn (type : BitVec 32) (j : ℕ) : List (ω × Choice ω) :=
    (v, .spawn [.ofBlock 0x10000 type j]) :: goOn v 9
  let moves (l : List (ω × Choice ω)) : List ((ω × Choice ω) ⊕ (ω × Effect Cell ℕ)) := l.map .inl
  .inr (v, .assign (.block 0) [] fun _ => 5) ::
    moves (spawn 2 0 ++ spawn 1 0 ++ spawn 2 1 ++ [(w, .take v 1), (w, .go)]) ++
    .inr (w, .assign (.block 1) [] fun _ => 7) ::
    moves ((w, .ret) :: goOn w 10 ++ [(w, .take v 0), (w, .go)]) ++
    .inr (w, .assign (.block 0) [.block 0] fun l => l.sum + 1) ::
    moves ((w, .ret) :: goOn w 16 ++ [(w, .take w 0), (w, .go)]) ++
    [.inr (w, .assign (.locals 2) [.block 0] List.sum)]

end Partee
