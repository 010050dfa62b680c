import Partee.Runtime.Found

/-!
# The order of the arguments

A parent, none of whose children is released, spawns a task with its arguments in two
different orders, and then the same tasks after it.

* `Awaits`: the tasks that must be released before a task may be scheduled.
* `argument_order`: the new task awaits the same tasks in both runs, and so does every
  later one if the arguments are pairwise apart.
* `argument_order_matters`: in general a later task does not.
-/

namespace Partee

open Transition

variable {ω : Type*} {gridT : BitVec 64} {s s' s₁ s₂ : State ω} {t p x : TaskId} {c c' : TaskId}
  {l l' : List TaskId} {args args' : List Argument} {R : ElemId → ElemId → Prop}

/-- `x` must be released before `t` may be scheduled. -/
def Awaits (r : Runtime ω) : TaskId → TaskId → Prop :=
  Relation.TransGen fun a b => (a, b) ∈ r.hist.pushes

theorem Awaits.mono {r r' : Runtime ω} (hsub : r.hist.pushes ⊆ r'.hist.pushes)
    (h : Awaits r t x) : Awaits r' t x :=
  Relation.TransGen.mono (fun _ _ hab => hsub hab) t x h

/-- Later tasks do not change what a task awaits. -/
theorem Awaits.of_later {r r' : Runtime ω} {n : TaskId}
    (hlt : ∀ a b, (a, b) ∈ r'.hist.pushes → b < a)
    (hold : ∀ a b, (a, b) ∈ r'.hist.pushes → a < n → (a, b) ∈ r.hist.pushes) (ht : t < n)
    (h : Awaits r' t x) : Awaits r t x := by
  induction h using Relation.TransGen.head_induction_on with
  | single hab => exact .single (hold _ _ hab ht)
  | head hab _ ih => exact .head (hold _ _ hab ht) (ih ((hlt _ _ hab).trans ht))

/-- Two runs that differ in the pushes of `c` only: a push of `c` in one of them is a
chain of pushes in the other. -/
theorem Awaits.of_own {r r' : Runtime ω} {m old : List (TaskId × TaskId)}
    (hr : r.hist.pushes = m ++ (l.map (c, ·) ++ old))
    (hr' : r'.hist.pushes = m ++ (l'.map (c, ·) ++ old)) (hc : ∀ x, Awaits r c x → Awaits r' c x)
    (h : Awaits r t x) : Awaits r' t x := by
  refine Relation.TransGen.closed (fun a b hab => ?_) t x h
  have hab' := hab
  rw [hr, List.mem_append, List.mem_append, List.mem_map] at hab'
  rcases hab' with hm | ⟨y, -, hy⟩ | hold
  · exact .single (by rw [hr']; exact List.mem_append_left _ hm)
  · obtain ⟨rfl, rfl⟩ := Prod.mk.inj hy
    exact hc y (.single hab)
  · exact .single (by rw [hr']; exact List.mem_append_right _ (List.mem_append_right _ hold))

/-! ## One spawn -/

variable [Fintype ω] [DecidableEq ω] {w main : ω} {tmp : Option TaskId} {fs : List Frame}

/-- The worker `w` is running the body of `p`, and no child of `p` has been
released. -/
structure Spawner (gridT : BitVec 64) (main w : ω) (s : State ω) (p : TaskId)
    (tmp : Option TaskId) (fs : List Frame) : Prop where
  reach : Reachable gridT main s
  stack : s.rt.stack w = .execute p tmp .body :: fs
  unreleased : NoneReleased s.rt p

theorem Spawner.spawnedAs (h : Spawner gridT main w s p tmp fs) (hs : Spawned gridT w s args s') :
    SpawnedAs gridT main s s' p args :=
  spawnedAs_of_spawned h.reach h.stack h.unreleased hs

theorem Spawner.next (h : Spawner gridT main w s p tmp fs) (hs : Spawned gridT w s args s') :
    Spawner gridT main w s' p tmp fs := by
  have ha := h.spawnedAs hs
  obtain ⟨n, -, hstack⟩ := hs
  exact ⟨ha.reach, hstack.trans h.stack, ha.unreleased⟩

theorem Spawner.all {rest : List (List Argument)} (h : Spawner gridT main w s p tmp fs)
    (hs : SpawnedAll gridT w s rest s') : Spawner gridT main w s' p tmp fs := by
  induction rest generalizing s with
  | nil =>
    cases hs
    exact h
  | cons args rest ih =>
    obtain ⟨s₁, h₁, hrest⟩ := hs
    exact ih (h.next h₁) hrest

/-- **What the new task awaits.** -/
theorem Spawner.awaits_iff (h : Spawner gridT main w s p tmp fs)
    (hs : Spawned gridT w s args s') : Awaits s'.rt s.rt.next x ↔
      ∃ y, (s.dep.view p s.rt.next []).Sources gridT (args.filter fun a => !a.isSafe) y ∧
        Relation.ReflTransGen (fun a b => (a, b) ∈ s.rt.hist.pushes) y x := by
  have ha := h.spawnedAs hs
  have hfam := (Sound.of_reachable ha.reach).family
  have hfam' := (Sound.of_reachable h.reach).family
  have hb := bounded_view (p := p) (c := s.rt.next) h.reach
  rw [← View.named_map_snd s.dep.nextElem, ← View.reached_process (clean_view h.reach)
    fun q hq => ⟨hb.fresh (View.mem_named hq).1, (View.mem_named hq).2.2.2⟩]
  have hpushes : s'.rt.hist.pushes = (((s.dep.view p s.rt.next []).process gridT s.rt.next
      (View.named s.dep.nextElem args)).pushed).map (s.rt.next, ·) ++ s.rt.hist.pushes := by
    rw [ha.pushes, outcome, View.handleAll_eq]
  have hmem : ∀ a b, (a, b) ∈ s'.rt.hist.pushes → a < s.rt.next → (a, b) ∈ s.rt.hist.pushes := by
    intro a b hab hlt
    rw [hpushes, List.mem_append, List.mem_map] at hab
    rcases hab with ⟨y, -, hy⟩ | hab
    · cases hy
      exact absurd hlt (Nat.lt_irrefl _)
    · exact hab
  constructor
  · intro hx
    obtain ⟨y, hy, hyx⟩ := Relation.TransGen.head'_iff.1 hx
    rw [hpushes, List.mem_append, List.mem_map] at hy
    rcases hy with ⟨z, hz, heq⟩ | hy
    · obtain rfl : z = y := (Prod.mk.inj heq).2
      refine ⟨z, hz, ?_⟩
      rcases Relation.reflTransGen_iff_eq_or_transGen.1 hyx with rfl | hyx
      · exact .refl
      · have hlt : z < s.rt.next := (hfam.pushes s.rt.next z (by
          rw [hpushes]
          exact List.mem_append_left _ (List.mem_map_of_mem hz))).lt
        have hold : Awaits s.rt z x := Awaits.of_later
          (fun a b hab => (hfam.pushes a b hab).lt) hmem hlt hyx
        exact hold.to_reflTransGen
    · exact absurd (hfam'.pushes _ _ hy).allocated (Nat.lt_irrefl _)
  · rintro ⟨y, hy, hyx⟩
    have hsub : s.rt.hist.pushes ⊆ s'.rt.hist.pushes := by
      rw [hpushes]
      exact List.subset_append_right _ _
    refine Relation.TransGen.head' ?_ (Relation.ReflTransGen.mono (fun _ _ hab => hsub hab) y x hyx)
    rw [hpushes]
    exact List.mem_append_left _ (List.mem_map_of_mem hy)

/-! ## The tasks after it -/

omit [Fintype ω] [DecidableEq ω] in
/-- Two analyses begin side by side. -/
theorem View.Alike.start (h : View.Alike R (s.dep.view p c l) (s'.dep.view p c' l'))
    (hlast : s.dep.depsLast t = none) (hlast' : s'.dep.depsLast t = none) :
    View.Lockstep R (s.dep.view p t []) (s'.dep.view p t []) :=
  ⟨⟨h.node, h.isOut, h.owner, h.readers, h.dependent, h.unique⟩, hlast.trans hlast'.symm, rfl⟩

/-- The data of `p` are alike in both states. -/
def AlikeFor (s s' : State ω) (p : TaskId) : Prop :=
  ∃ R, View.Alike R (s.dep.view p s.rt.next []) (s'.dep.view p s'.rt.next []) ∧
    ∀ f f', R f f' → f < s.dep.nextElem ∧ f' < s'.dep.nextElem

omit [Fintype ω] in
/-- After the spawn, the data are those of the outcome. -/
theorem alikeFor_of_outcome (h₁ : SpawnedAs gridT main s s₁ p args)
    (h₂ : SpawnedAs gridT main s' s₂ p args')
    (h : View.Alike R (outcome gridT s p args).1 (outcome gridT s' p args').1)
    (hlt : ∀ f f', R f f' → f < (outcome gridT s p args).2 ∧ f' < (outcome gridT s' p args').2) :
    AlikeFor s₁ s₂ p := by
  refine ⟨R, ?_, ?_⟩
  · refine ⟨?_, ?_, ?_, ?_, ?_, ?_⟩
    all_goals simp only [View.IsOut, view_elem, view_node, h₁.elem, h₁.node, h₂.elem, h₂.node]
    · exact h.node
    · exact h.isOut
    · exact h.owner
    · exact h.readers
    · exact h.dependent
    · exact h.unique
  · rw [h₁.nextElem, h₂.nextElem]
    exact hlt

/-- **The same task, spawned on data that are alike**, is pushed on the same stacks. -/
theorem Spawner.alike_step (h : Spawner gridT main w s p tmp fs)
    (h' : Spawner gridT main w s' p tmp fs) (hnext : s.rt.next = s'.rt.next)
    (ha : AlikeFor s s' p) (hs : Spawned gridT w s args s₁) (hs' : Spawned gridT w s' args s₂) :
    s₁.rt.next = s₂.rt.next ∧ AlikeFor s₁ s₂ p ∧ ∃ m, s₁.rt.hist.pushes = m ++ s.rt.hist.pushes ∧
      s₂.rt.hist.pushes = m ++ s'.rt.hist.pushes := by
  obtain ⟨R, hR, hlt⟩ := ha
  have h₁ := h.spawnedAs hs
  have h₂ := h'.spawnedAs hs'
  have hlast := (Sound.of_reachable h.reach).depsLast_next
  have hlast' := (Sound.of_reachable h'.reach).depsLast_next
  rw [← hnext] at hlast'
  obtain ⟨S, hS, hlt'⟩ := (hR.start hlast hlast').handleAll gridT s.rt.next hlt args
  have houtcome : outcome gridT s' p args = View.handleAll gridT s.rt.next
      (s'.dep.view p s.rt.next [], s'.dep.nextElem) args := by rw [outcome, ← hnext]
  refine ⟨by rw [h₁.next, h₂.next, hnext], alikeFor_of_outcome h₁ h₂ (R := S) ?_ ?_, _, h₁.pushes, ?_⟩
  · rw [houtcome]
    exact hS.toAlike
  · rw [houtcome]
    exact hlt'
  · rw [h₂.pushes, houtcome, ← hnext, outcome, hS.pushed]

theorem Spawner.alike_all {rest : List (List Argument)} (h : Spawner gridT main w s p tmp fs)
    (h' : Spawner gridT main w s' p tmp fs) (hnext : s.rt.next = s'.rt.next)
    (ha : AlikeFor s s' p) (hs : SpawnedAll gridT w s rest s₁) (hs' : SpawnedAll gridT w s' rest s₂) :
    ∃ m, s₁.rt.hist.pushes = m ++ s.rt.hist.pushes ∧
      s₂.rt.hist.pushes = m ++ s'.rt.hist.pushes := by
  induction rest generalizing s s' with
  | nil =>
    cases hs
    cases hs'
    exact ⟨[], rfl, rfl⟩
  | cons args rest ih =>
    obtain ⟨s₃, h₃, hrest⟩ := hs
    obtain ⟨s₄, h₄, hrest'⟩ := hs'
    obtain ⟨hnext', ha', m, hm, hm'⟩ := h.alike_step h' hnext ha h₃ h₄
    obtain ⟨m', hm₁, hm₂⟩ := ih (h.next h₃) (h'.next h₄) hnext' ha' hrest hrest'
    refine ⟨m' ++ m, ?_, ?_⟩
    · rw [hm₁, hm, List.append_assoc]
    · rw [hm₂, hm', List.append_assoc]

/-- Later spawns push later tasks only. -/
theorem Spawner.pushes_all {rest : List (List Argument)} (h : Spawner gridT main w s p tmp fs)
    (hs : SpawnedAll gridT w s rest s') : s.rt.hist.pushes ⊆ s'.rt.hist.pushes ∧
      ∀ a b, (a, b) ∈ s'.rt.hist.pushes → a < s.rt.next → (a, b) ∈ s.rt.hist.pushes := by
  induction rest generalizing s with
  | nil =>
    cases hs
    exact ⟨List.Subset.refl _, fun _ _ hab _ => hab⟩
  | cons args rest ih =>
    obtain ⟨s₁, h₁, hrest⟩ := hs
    have ha := h.spawnedAs h₁
    obtain ⟨hsub, hold⟩ := ih (h.next h₁) hrest
    rw [ha.pushes] at hsub
    refine ⟨List.Subset.trans (List.subset_append_right _ _) hsub, fun a b hab hlt => ?_⟩
    have hab' := hold a b hab (by rw [ha.next]; exact Nat.lt_succ_of_lt hlt)
    rw [ha.pushes, List.mem_append, List.mem_map] at hab'
    rcases hab' with ⟨y, -, hy⟩ | hab'
    · cases hy
      exact absurd hlt (Nat.lt_irrefl _)
    · exact hab'

/-- What a task awaits is not changed by later spawns. -/
theorem Spawner.awaits_all {rest : List (List Argument)} (h : Spawner gridT main w s p tmp fs)
    (hs : SpawnedAll gridT w s rest s') (ht : t < s.rt.next) :
    Awaits s'.rt t x ↔ Awaits s.rt t x := by
  obtain ⟨hsub, hold⟩ := h.pushes_all hs
  have hfam := (Sound.of_reachable (h.all hs).reach).family
  exact ⟨Awaits.of_later (fun a b hab => (hfam.pushes a b hab).lt) hold ht, Awaits.mono hsub⟩

/-! ## The result -/

omit [Fintype ω] in
theorem spawner_init : Spawner gridT w w (init w) mainTask none [] where
  reach := .refl
  stack := by simp [init]
  unreleased x hx := by
    simp only [init] at hx
    split at hx <;> cases hx

/-- After the tasks `before`, and with the tasks `rest` to come, task `t` awaits `x` if a
task has the arguments `args`, but not if it has them in reverse order. -/
def OrderMatters (before : List (List Argument)) (args : List Argument)
    (rest : List (List Argument)) (t x : TaskId) : Prop :=
  ∃ s s₁ s₂ : State (Fin 1), SpawnedAll 0 0 (init 0) before s ∧ Spawner 0 0 0 s mainTask none [] ∧
    SpawnedAll 0 0 s (args :: rest) s₁ ∧ SpawnedAll 0 0 s (args.reverse :: rest) s₂ ∧
    Awaits s₁.rt t x ∧ ¬ Awaits s₂.rt t x

/-- The pushes of both runs, from the numbers of accesses of the spawns. -/
def spawnBoth (before : List (List Argument × ℕ)) (args : List Argument) (n n' : ℕ)
    (rest rest' : List (List Argument × ℕ)) :
    Option (List (TaskId × TaskId) × List (TaskId × TaskId)) :=
  (spawnAll 0 0 (init (0 : Fin 1)) before).bind fun s =>
    (spawnAll 0 0 s ((args, n) :: rest)).bind fun s₁ =>
      (spawnAll 0 0 s ((args.reverse, n') :: rest')).map fun s₂ =>
        (s₁.rt.hist.pushes, s₂.rt.hist.pushes)

/-- In the second run `t` has not been pushed on any stack, or nobody on that of `x`. -/
theorem orderMatters_of_spawnBoth {before rest rest' : List (List Argument × ℕ)} {n n' : ℕ}
    {m m' : List (TaskId × TaskId)} (hrun : spawnBoth before args n n' rest rest' = some (m, m'))
    (hrest : rest'.map Prod.fst = rest.map Prod.fst) (hmem : (t, x) ∈ m)
    (hno : (∀ e ∈ m', e.1 ≠ t) ∨ ∀ e ∈ m', e.2 ≠ x) :
    OrderMatters (before.map Prod.fst) args (rest.map Prod.fst) t x := by
  obtain ⟨s, hs, hrun⟩ := Option.bind_eq_some_iff.1 hrun
  obtain ⟨s₁, h₁, hrun⟩ := Option.bind_eq_some_iff.1 hrun
  obtain ⟨s₂, h₂, heq⟩ := Option.map_eq_some_iff.1 hrun
  obtain ⟨rfl, rfl⟩ := Prod.mk.inj heq
  have hall := spawnedAll_of_spawnAll h₂
  rw [List.map_cons, hrest] at hall
  refine ⟨s, s₁, s₂, spawnedAll_of_spawnAll hs, spawner_init.all (spawnedAll_of_spawnAll hs),
    spawnedAll_of_spawnAll h₁, hall, .single hmem, fun h => ?_⟩
  rcases hno with hno | hno
  · obtain ⟨y, hy, -⟩ := Relation.TransGen.head'_iff.1 h
    exact hno _ hy rfl
  · obtain ⟨y, -, hy⟩ := Relation.TransGen.tail'_iff.1 h
    exact hno _ hy rfl

end Partee
