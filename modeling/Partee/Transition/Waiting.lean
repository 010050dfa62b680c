import Mathlib.Logic.Relation

/-!
# Waiting relations

Nodes wait for nodes, and a node that waits does not begin before the ones it waits
for are done.  That `a` comes after `x` is usually not visible as an edge from `a`
to `x`: the order is carried by a chain of edges, or `x` was done before anybody
asked.  `Behind E done a x` is the disjunction of these cases.  It is a preorder
on the nodes as soon as a node that has begun has only done nodes below it, and it
grows with the edges and with the set of done nodes, which is what makes it fit
for invariants.
-/

namespace Partee
namespace Transition

variable {α : Type*} {E E' : α → α → Prop} {begun done done' : α → Prop} {a b x : α}

/-- `a` is `x`, or waits for it through a chain of edges, or `x` is done. -/
def Behind (E : α → α → Prop) (done : α → Prop) (a x : α) : Prop :=
  Relation.ReflTransGen E a x ∨ done x

/-- A node that has begun waits for done nodes only, and done nodes have begun. -/
structure Honest (E : α → α → Prop) (begun done : α → Prop) : Prop where
  edge : ∀ a b, E a b → begun a → done b
  begun : ∀ a, done a → begun a

namespace Behind

@[refl] theorem refl (a : α) : Behind E done a a := .inl .refl

theorem of_edge (h : E a b) : Behind E done a b := .inl (.single h)

theorem of_done (h : done x) : Behind E done a x := .inr h

theorem mono (hE : ∀ a b, E a b → E' a b) (hdone : ∀ a, done a → done' a)
    (h : Behind E done a x) : Behind E' done' a x :=
  h.imp (Relation.ReflTransGen.mono hE _ _) (hdone x)

/-- What a node that has begun waits for is done. -/
theorem done_of_begun (hh : Honest E begun done) (h : Behind E done a x) (ha : begun a)
    (hne : a ≠ x) : done x := by
  rcases h with h | h
  · induction h with
    | refl => exact absurd rfl hne
    | tail hab hbc ih =>
      rename_i b c
      by_cases hb : a = b
      · exact hh.edge b c hbc (hb ▸ ha)
      · exact hh.edge b c hbc (hh.begun b (ih hb))
  · exact h

/-- What a done node is behind is done. -/
theorem done_of_done (hh : Honest E begun done) (h : Behind E done a x) (ha : done a) :
    done x := by
  by_cases hne : a = x
  · exact hne ▸ ha
  · exact h.done_of_begun hh (hh.begun a ha) hne

theorem trans (hh : Honest E begun done) (h : Behind E done a b) (h' : Behind E done b x) :
    Behind E done a x := by
  rcases h with h | hb
  · exact h'.imp_left h.trans
  · exact .of_done (h'.done_of_done hh hb)

end Behind

end Transition
end Partee
