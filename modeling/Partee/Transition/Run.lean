import Mathlib.Logic.Relation
import Mathlib.Data.Option.Basic

/-!
# Runs of a partial step function

A system is a function `step : σ → ι → Option σ`: the label says who moves and
how, and `none` says that the move is not possible.  A run is a chain of
successful steps, each of which meets a side condition on its source state and
label.  The side condition is what lets one speak about *every run whose steps
all satisfy P* next to *every run*; the latter is the special case of the
condition that is always true.

* `Run step ok x y`: there is a run from `x` to `y` whose steps meet `ok`.
* `Run.invariant`: what holds at the start and is kept by each step holds at the
  end.  `Run.invariant_of` is the same rule, with the steps allowed to use an
  invariant that is already known.
* `Run.map`, `Run.simulate`: from the steps of one system to those of another.
* `withHistory`, `Run.refines`: a run next to what its steps are for, and the rule that the
  one is always what the other says.
* `exec`: the run along a given list of labels, computed, with the side condition
  checked at every step.
-/

namespace Partee
namespace Transition

variable {σ ι : Type*}

/-- `Run step ok x y`: a finite run from `x` to `y` all of whose steps meet
`ok` at their source state and label. -/
inductive Run (step : σ → ι → Option σ) (ok : σ → ι → Prop) (x : σ) : σ → Prop where
  | refl : Run step ok x x
  | tail {y z : σ} {a : ι} : Run step ok x y → ok y a → step y a = some z → Run step ok x z

/-- The side condition that every step meets. -/
def always : σ → ι → Prop := fun _ _ => True

/-- Reachability is a run without a side condition. -/
abbrev Reach (step : σ → ι → Option σ) (x y : σ) : Prop := Run step always x y

variable {step : σ → ι → Option σ} {ok : σ → ι → Prop} {x y z : σ}

namespace Run

theorem mono {ok' : σ → ι → Prop} (h : ∀ s a, ok s a → ok' s a) (r : Run step ok x y) :
    Run step ok' x y := by
  induction r with
  | refl => exact .refl
  | tail _ hok hs ih => exact .tail ih (h _ _ hok) hs

/-- Forgetting the side condition. -/
theorem reach (r : Run step ok x y) : Reach step x y :=
  r.mono fun _ _ _ => trivial

theorem trans (r : Run step ok x y) (r' : Run step ok y z) : Run step ok x z := by
  induction r' with
  | refl => exact r
  | tail _ hok hs ih => exact .tail ih hok hs

/-- **The invariant rule.** -/
theorem invariant {I : σ → Prop} (r : Run step ok x y) (h0 : I x)
    (hstep : ∀ s a t, I s → ok s a → step s a = some t → I t) : I y := by
  induction r with
  | refl => exact h0
  | tail _ hok hs ih => exact hstep _ _ _ ih hok hs

/-- **The invariant rule, on top of a known invariant.**  When `J` is known to
hold at every state of the run, the step of `I` may use it. -/
theorem invariant_of {I J : σ → Prop} (r : Run step ok x y)
    (hJ : ∀ s, Run step ok x s → J s) (h0 : I x)
    (hstep : ∀ s a t, J s → I s → ok s a → step s a = some t → I t) : I y := by
  induction r with
  | refl => exact h0
  | tail hr hok hs ih => exact hstep _ _ _ (hJ _ hr) ih hok hs

/-- A system whose steps are steps of another one, or leave its state alone, has
the runs of the other one. -/
theorem map {τ κ : Type*} {step' : τ → κ → Option τ} {ok' : τ → κ → Prop} {f : τ → σ} {u v : τ}
    (h : ∀ s a t, ok' s a → step' s a = some t →
      f t = f s ∨ ∃ b, ok (f s) b ∧ step (f s) b = some (f t))
    (r : Run step' ok' u v) : Run step ok (f u) (f v) := by
  induction r with
  | refl => exact .refl
  | tail _ hok hs ih =>
    rcases h _ _ _ hok hs with heq | ⟨b, hb, hstep⟩
    · rwa [heq]
    · exact ih.tail hb hstep

/-- **The simulation rule.**  A relation that each step keeps, with a run of the other system,
is kept by the runs. -/
theorem simulate {τ κ : Type*} {step' : τ → κ → Option τ} {ok' : τ → κ → Prop} {R : σ → τ → Prop}
    {u : τ} (r : Run step ok x y) (h0 : R x u)
    (h : ∀ s t a s', R s t → ok s a → step s a = some s' → ∃ t', Run step' ok' t t' ∧ R s' t') :
    ∃ v, Run step' ok' u v ∧ R y v := by
  induction r with
  | refl => exact ⟨u, .refl, h0⟩
  | tail _ hok hs ih =>
    obtain ⟨v, hv, hR⟩ := ih
    obtain ⟨v', hv', hR'⟩ := h _ _ _ _ hR hok hs
    exact ⟨v', hv.trans hv', hR'⟩

end Run

/-! ## A history variable -/

/-- The system, with a record of what its steps were for. -/
def withHistory {τ : Type*} (step : σ → ι → Option σ) (spec : τ → ι → τ) (x : σ × τ) (a : ι) :
    Option (σ × τ) :=
  (step x.1 a).map fun y => (y, spec x.2 a)

/-- The system without its record. -/
theorem Run.of_withHistory {τ : Type*} {spec : τ → ι → τ} {p q : σ × τ}
    (r : Run (withHistory step spec) (fun s a => ok s.1 a) p q) : Run step ok p.1 q.1 := by
  induction r with
  | refl => exact .refl
  | tail _ hok hs ih =>
    rw [withHistory, Option.map_eq_some_iff] at hs
    obtain ⟨s₁, hs, rfl⟩ := hs
    exact ih.tail hok hs

/-- **The refinement rule.**  A relation between states and records that holds at the start,
and that each step keeps when the state meets an invariant, holds at the end. -/
theorem Run.refines {τ : Type*} {spec : τ → ι → τ} {I : σ → Prop} {R : σ → τ → Prop} {t u : τ}
    (r : Run (withHistory step spec) (fun s a => ok s.1 a) (x, t) (y, u)) (hI : I x) (hR : R x t)
    (hstep : ∀ s a s', I s → ok s a → step s a = some s' →
      I s' ∧ ∀ v, R s v → R s' (spec v a)) : I y ∧ R y u := by
  refine r.invariant (I := fun s => I s.1 ∧ R s.1 s.2) ⟨hI, hR⟩ ?_
  rintro s a s' ⟨hI, hR⟩ hok hs
  rw [withHistory, Option.map_eq_some_iff] at hs
  obtain ⟨s₁, hs, rfl⟩ := hs
  obtain ⟨hI', hR'⟩ := hstep s.1 a s₁ hI hok hs
  exact ⟨hI', hR' s.2 hR⟩

/-! ## Running a script -/

instance (s : σ) (a : ι) : Decidable (always s a) := .isTrue trivial

/-- The state after performing the labels of `l` in order, when all are
possible and meet the side condition. -/
def exec (step : σ → ι → Option σ) (ok : σ → ι → Prop) [∀ s a, Decidable (ok s a)] :
    List ι → σ → Option σ
  | [], x => some x
  | a :: l, x => if ok x a then (step x a).bind (exec step ok l) else none

/-- Without a side condition, a script performs its first label and goes on. -/
theorem exec_cons (a : ι) (l : List ι) (x : σ) :
    exec step always (a :: l) x = (step x a).bind (exec step always l) :=
  if_pos trivial

/-- A script that can be performed is a run. -/
theorem Run.of_exec [∀ s a, Decidable (ok s a)] {l : List ι} (h : exec step ok l x = some y) :
    Run step ok x y := by
  induction l generalizing x with
  | nil =>
    cases h
    exact .refl
  | cons a l ih =>
    rw [exec] at h
    split at h
    · rename_i hok
      rw [Option.bind_eq_some_iff] at h
      obtain ⟨z, hz, hl⟩ := h
      exact (Run.refl.tail hok hz).trans (ih hl)
    · cases h

/-- A script whose outcome has some property reaches a state with that
property. -/
theorem Run.exists_of_exec [∀ s a, Decidable (ok s a)] {l : List ι} {P : σ → Prop}
    (h : ∃ y ∈ exec step ok l x, P y) : ∃ y, Run step ok x y ∧ P y := by
  obtain ⟨y, hy, hP⟩ := h
  exact ⟨y, .of_exec hy, hP⟩

end Transition
end Partee
