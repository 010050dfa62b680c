import Partee.Transition.Run
import Mathlib.Order.WellFounded

/-!
# Ranking the states of a system

A rank in a well-founded order that decreases at every step bounds the runs of a
system.  Concurrent systems also have steps that only wait, and steps by which their
environment gives them something new to do; the rank stays the same at the former
and may grow at the latter.

* `InfiniteRun`: a run without an end.
* `InfiniteRun.exists_of_exec`: a script followed by a step that is repeated for ever.
* `InfiniteRun.eventually`: after the last of the new things to do, only finitely many
  steps do not wait.
* `Run.exists_goal`: when from every state there is a run to a state of smaller rank,
  or to the goal, there is a run to the goal.
-/

namespace Partee
namespace Transition

variable {σ ι α : Type*} {step : σ → ι → Option σ} {ok : σ → ι → Prop} {x s : σ}

/-- A run from `x` that does not end. -/
structure InfiniteRun (step : σ → ι → Option σ) (x : σ) where
  state : ℕ → σ
  label : ℕ → ι
  start : state 0 = x
  valid : ∀ k, step (state k) (label k) = some (state (k + 1))

namespace InfiniteRun

theorem reach (ρ : InfiniteRun step x) (k : ℕ) : Reach step x (ρ.state k) := by
  induction k with
  | zero =>
    rw [ρ.start]
    exact .refl
  | succ k ih => exact ih.tail trivial (ρ.valid k)

/-- A script that ends at a step that changes nothing can go on for ever. -/
theorem exists_of_exec {l : List ι} {y : σ} {a : ι} (h : exec step always l x = some y)
    (ha : step y a = some y) : ∃ ρ : InfiniteRun step x, ∀ k, ρ.label k = l.getD k a := by
  induction l generalizing x with
  | nil =>
    obtain rfl : y = x := (Option.some.inj h).symm
    exact ⟨⟨fun _ => y, fun _ => a, rfl, fun _ => ha⟩, fun k => by simp⟩
  | cons b l ih =>
    rw [exec_cons, Option.bind_eq_some_iff] at h
    obtain ⟨z, hz, hl⟩ := h
    obtain ⟨ρ, hρ⟩ := ih hl
    refine ⟨⟨fun k => k.casesOn x ρ.state, fun k => k.casesOn b ρ.label, rfl, ?_⟩, ?_⟩
    · rintro (_ | k)
      · show step x b = some (ρ.state 0)
        rw [hz, ρ.start]
      · exact ρ.valid k
    · rintro (_ | k)
      · rfl
      · exact hρ k

variable [PartialOrder α] [WellFoundedLT α] (rank : σ → α) {waits choice : σ → ι → Prop}

/-- **Only finitely many steps do not wait**, when only finitely many give the system
something new to do. -/
theorem eventually (ρ : InfiniteRun step x)
    (hrank : ∀ s a t, Reach step x s → step s a = some t →
      choice s a ∨ (waits s a ∧ rank t = rank s) ∨ rank t < rank s)
    (hfin : ∃ n, ∀ k, n ≤ k → ¬ choice (ρ.state k) (ρ.label k)) :
    ∃ m, ∀ k, m ≤ k → waits (ρ.state k) (ρ.label k) := by
  obtain ⟨n, hn⟩ := hfin
  have hstep : ∀ k, n ≤ k → (waits (ρ.state k) (ρ.label k) ∧
      rank (ρ.state (k + 1)) = rank (ρ.state k)) ∨ rank (ρ.state (k + 1)) < rank (ρ.state k) :=
    fun k hk => (hrank _ _ _ (ρ.reach k) (ρ.valid k)).resolve_left (hn k hk)
  -- the rank is smallest at `m`, and from there on it stays the same
  obtain ⟨_, ⟨m, hm, rfl⟩, hmin⟩ :=
    wellFounded_lt.has_min {a | ∃ k, n ≤ k ∧ rank (ρ.state k) = a} ⟨_, n, le_rfl, rfl⟩
  have hconst : ∀ k, m ≤ k → rank (ρ.state k) = rank (ρ.state m) := by
    intro k hk
    induction k, hk using Nat.le_induction with
    | base => rfl
    | succ k hk ih =>
      rcases hstep k (le_trans hm hk) with ⟨-, heq⟩ | hlt
      · exact heq.trans ih
      · exact absurd (ih ▸ hlt) (hmin _ ⟨k + 1, le_trans (le_trans hm hk) (Nat.le_succ k), rfl⟩)
  refine ⟨m, fun k hk => ?_⟩
  rcases hstep k (le_trans hm hk) with ⟨hw, -⟩ | hlt
  · exact hw
  · rw [hconst k hk, hconst (k + 1) (le_trans hk (Nat.le_succ k))] at hlt
    exact absurd hlt (lt_irrefl _)

end InfiniteRun

/-- **A goal that can always be reached.** -/
theorem Run.exists_goal [Preorder α] [WellFoundedLT α] (rank : σ → α) {I goal : σ → Prop}
    (hI : ∀ s t, I s → Run step ok s t → I t)
    (h : ∀ s, I s → ¬ goal s → ∃ t, Run step ok s t ∧ (goal t ∨ rank t < rank s)) (hs : I s) :
    ∃ t, Run step ok s t ∧ goal t := by
  have hall : ∀ a s, rank s = a → I s → ∃ t, Run step ok s t ∧ goal t := by
    intro a
    induction a using WellFoundedLT.induction with
    | _ a ih =>
      rintro s rfl hs
      by_cases hg : goal s
      · exact ⟨s, .refl, hg⟩
      · obtain ⟨t, hst, hgoal | hlt⟩ := h s hs hg
        · exact ⟨t, hst, hgoal⟩
        · obtain ⟨u, htu, hu⟩ := ih _ hlt t rfl (hI s t hs hst)
          exact ⟨u, hst.trans htu, hu⟩
  exact hall _ s rfl hs

end Transition
end Partee
