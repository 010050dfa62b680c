import Mathlib.Logic.Relation

/-!
# Sequential objects

A sequential object answers one call at a time: in state `x` the call `c` gives
an answer and the next state.  `perform` makes a list of calls one after the
other and collects the answers.

An implementation *refines* a specification when a relation between their states
is kept by every call and related states give the same answers.
`Simulation.perform` carries this from one call to every sequence of calls.
-/

namespace Partee
namespace Transition

/-- In a state, a call gives an answer and the next state. -/
abbrev Object (σ ι ρ : Type*) := σ → ι → ρ × σ

variable {σ τ ι ρ : Type*}

/-- The answers to a list of calls, and the state after the last of them. -/
def perform (f : Object σ ι ρ) : List ι → σ → List ρ × σ
  | [], x => ([], x)
  | c :: cs, x =>
      let after := f x c
      let rest := perform f cs after.2
      (after.1 :: rest.1, rest.2)

@[simp] theorem perform_cons (f : Object σ ι ρ) (c : ι) (cs : List ι) (x : σ) :
    perform f (c :: cs) x =
      ((f x c).1 :: (perform f cs (f x c).2).1, (perform f cs (f x c).2).2) := rfl

/-- One more call at the end. -/
theorem perform_concat (f : Object σ ι ρ) (cs : List ι) (c : ι) (x : σ) :
    perform f (cs ++ [c]) x =
      ((perform f cs x).1 ++ [(f (perform f cs x).2 c).1], (f (perform f cs x).2 c).2) := by
  induction cs generalizing x with
  | nil => rfl
  | cons d cs ih => rw [List.cons_append, perform_cons, perform_cons, ih, List.cons_append]

/-- The relation `R` is kept by every call, and related states give the same
answers. -/
structure Simulation (f : Object σ ι ρ) (g : Object τ ι ρ) (R : σ → τ → Prop) : Prop where
  answer : ∀ {x y} (c : ι), R x y → (f x c).1 = (g y c).1
  next : ∀ {x y} (c : ι), R x y → R (f x c).2 (g y c).2

/-- **The refinement rule.**  From related states every sequence of calls gets
the same answers and ends in related states. -/
theorem Simulation.perform {f : Object σ ι ρ} {g : Object τ ι ρ} {R : σ → τ → Prop}
    (h : Simulation f g R) (cs : List ι) {x : σ} {y : τ} (hxy : R x y) :
    (perform f cs x).1 = (perform g cs y).1 ∧ R (perform f cs x).2 (perform g cs y).2 := by
  induction cs generalizing x y with
  | nil => exact ⟨rfl, hxy⟩
  | cons c cs ih =>
    obtain ⟨hans, hrel⟩ := ih (h.next c hxy)
    rw [perform_cons, perform_cons]
    exact ⟨by rw [h.answer c hxy, hans], hrel⟩

end Transition
end Partee
