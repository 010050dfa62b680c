import Partee.Runtime.Hazards
import Partee.Runtime.Subtree
import Partee.Runtime.Conflicts

/-!
# Conflicting siblings and what is below them

Two siblings whose arguments conflict are executed in the order of their spawns.
When no order is lost, no release comes too early and no count wraps around, the same is
true of all that was spawned below the two: once anything below the later one has been
started, the earlier one is released and everything below it is complete.

* `Under r d p`: `d` is `p`, or was spawned below `p`.
* `KeepsOrder`: the conditions on a step under which nothing is lost.
* `Ordered`: what holds in every state of a run whose steps meet them.
* `conflicting_subtrees_ordered`: the order of the two subtrees.
-/

namespace Partee

open Transition

variable {ω : Type*}

/-- `d` is `p`, or was spawned below `p`. -/
def Under (r : Runtime ω) : TaskId → TaskId → Prop :=
  Relation.ReflTransGen fun c p => (r.task c).parent = some p

/-- The task is released and everything below it is complete. -/
structure Finished (r : Runtime ω) (p : TaskId) : Prop where
  released : Released r p
  below : ∀ d, Below r d p → (r.task d).status = .complete

/-- No order and no entry is lost in this step, and no outdated zero is acted on. -/
structure KeepsOrder (s : State ω) (a : ω × Choice ω) : Prop where
  writers : KeepsWriters s a
  readers : KeepsReaders s a
  entries : CountsEntries s a
  fresh : TestsFresh s a

/-- What holds in every state of a run that keeps the order. -/
structure Ordered [Fintype ω] (gridT : BitVec 64) (s : State ω) : Prop where
  sound : Sound s
  children : Children s.rt
  drained : Drained s.rt
  accesses : ∀ a b, a = true ∨ b = true → AccessesOrdered gridT s a b

namespace Under

variable {r r' : Runtime ω} {c d p : TaskId}

theorem refl : Under r p p := Relation.ReflTransGen.refl

theorem head (hc : (r.task d).parent = some c) (h : Under r c p) : Under r d p :=
  Relation.ReflTransGen.head hc h

theorem eq_or_below (h : Under r d p) : d = p ∨ Below r d p := by
  rcases Relation.reflTransGen_iff_eq_or_transGen.1 h with heq | hbelow
  · exact .inl heq.symm
  · exact .inr hbelow

variable [Fintype ω]

/-- Whoever is above a task that was started has been started before. -/
theorem started (hT : Tokens r) (hF : Family r) (h : Under r d p) (hd : 0 < r.hist.start d) :
    0 < r.hist.start p := by
  induction h with
  | refl => exact hd
  | tail _ hp _ => exact (hF.parent_of_eq hT hp).2.2

theorem lt_next (hT : Tokens r) (hF : Family r) (h : Under r d p) (hd : d < r.next) :
    p < r.next := by
  induction h with
  | refl => exact hd
  | tail _ hp ih => exact (hF.parent_of_eq hT hp).1.trans ih

/-- Nothing is under a new task but itself. -/
theorem of_move [DecidableEq ω] {w : ω} {f : Frame} {gs : List Frame} (hT : Tokens r)
    (hF : Family r) (hm : Move r w f gs r') (ho : Owned r f) (hd : d < r.next)
    (h : Under r' d p) : Under r d p := by
  have hg : Grows r r' := hm.grows ho
  induction h with
  | refl => exact refl
  | @tail b q hbq hq ih =>
    have hb : b < r.next := ih.lt_next hT hF hd
    rcases eq_or_ne b mainTask with rfl | hb0
    · rw [(hm.main hF ho).2] at hq
      cases hq
    · obtain ⟨q', -, hq', -⟩ := hF.parent b hb hb0
      rw [hg.parent b q' hq', Option.some.injEq] at hq
      exact ih.tail (hq ▸ hq')

end Under

variable [Fintype ω] [DecidableEq ω] {gridT : BitVec 64} {main : ω} {s : State ω}
  {d e p t x : TaskId}

/-! ## The invariant -/

theorem Ordered.of_run (h : Run (step gridT) KeepsOrder (init main) s) : Ordered gridT s where
  sound := .of_reachable h.reach
  children := .of_reachable h.reach
  drained := .of_run (h.mono fun _ _ => KeepsOrder.fresh)
  accesses _ _ hab :=
    accessesOrdered_of_run hab (fun _ _ _ => KeepsOrder.readers) (fun _ _ _ => KeepsOrder.writers) h

namespace Ordered

omit [DecidableEq ω]

/-- A released task has left nothing behind. -/
theorem finished (hO : Ordered gridT s) (h : Released s.rt x) : Finished s.rt x where
  released := h
  below d hd := by
    obtain ⟨hT, hF, -⟩ := hO.sound
    have hex : Status.executed.code ≤ (s.rt.task x).status.code := le_trans (by decide) h
    refine complete_of_below hT hF hO.children hO.drained (fun c hc => hT.left c ?_) hd
    exact left_of_counted hT hF hO.children (hO.drained.released x h) hc
      (counted_of_executed hT hF hex hc)

/-- Among conflicting siblings, the earlier one is finished when anything under the
later one has been started. -/
theorem finished_of_conflict (hO : Ordered gridT s) (hxt : x < t)
    (hx : (s.rt.task x).parent = some p) (ht : (s.rt.task t).parent = some p)
    (hconf : Conflict gridT s.rt t x) (hd : Under s.rt d t) (hstart : 0 < s.rt.hist.start d) :
    Finished s.rt x := by
  obtain ⟨a, b, j, hab, hta, hxb⟩ := hconf
  have h0 : 0 < s.rt.hist.start t := hd.started hO.sound.tokens hO.sound.family hstart
  exact hO.finished (hO.accesses a b hab p x t j hxt hx ht hxb hta (.inr h0))

end Ordered

omit [Fintype ω] [DecidableEq ω] in
/-- Nothing under a finished task is running. -/
theorem Finished.not_running {r : Runtime ω} (h : Finished r x) (he : Under r e x) :
    (r.task e).status ≠ .scheduled := by
  intro hst
  rcases he.eq_or_below with rfl | hbelow
  · have hrel := h.released
    rw [Released, hst] at hrel
    exact absurd hrel (by decide)
  · rw [h.below e hbelow] at hst
    cases hst

/-- The four conditions on a step, as they are tested on a run. -/
def keepsOrder (s : State ω) (a : ω × Choice ω) : Bool :=
  joinsLastWriter s a && replacesReleased s a && decide (CountsEntries s a) &&
    decide (TestsFresh s a)

omit [Fintype ω] [DecidableEq ω] in
theorem KeepsOrder.of_test {a : ω × Choice ω} (h : keepsOrder s a) : KeepsOrder s a := by
  simp only [keepsOrder, Bool.and_eq_true, decide_eq_true_eq] at h
  obtain ⟨⟨⟨hwriters, hreaders⟩, hentries⟩, hfresh⟩ := h
  exact ⟨keepsWriters_of_joinsLastWriter hwriters, keepsReaders_of_replacesReleased hreaders,
    hentries, hfresh⟩

/-! ## The order of the subtrees -/

/-- Task 1 writes block 0 and spawns task 2; task 3 writes block 0.  The release of task 2
releases task 1 as well, which schedules task 3, and worker `w` starts it. -/
def nestedWritersRun (v w : ω) : List (ω × Choice ω) :=
  (v, .spawn [.ofBlock 0 2 0]) :: goOn v 9 ++ (w, .take v 0) :: (w, .go) ::
    (w, .spawn []) :: goOn w 6 ++ (w, .ret) :: goOn w 3 ++
    (v, .spawn [.ofBlock 0 2 0]) :: goOn v 9 ++
    (w, .take w 0) :: (w, .go) :: (w, .ret) :: goOn w 24 ++ [(w, .take w 0), (w, .go)]

end Partee
