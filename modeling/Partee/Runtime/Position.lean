import Partee.Runtime.SubtreeOrder
import Mathlib.Data.List.Lex

/-!
# The serial execution of a program

Read without the runtime, a program that spawns tasks is a sequential program: a
`tpc_call` executes the task on the spot.  This is the depth-first order of the
tree of tasks.  The descriptors are numbered in the order of their allocation, so an
action of a task is placed by the path from the main program to the task, followed
by the number of descriptors allocated at the time of the action; the places are
compared lexicographically.

* `path`, `position`: the path of a task, and the place of an action.
* `Precedes`: the depth-first order in terms of spawns.
* `precedes_of_position_le`: the two agree.
-/

namespace Partee

open Transition

/-- A list that comes before another one ends inside it, or has a smaller entry where
the two part. -/
theorem exists_split_of_lt {α : Type*} [LinearOrder α] {l l' : List α} (h : l < l') :
    (∃ v m, l' = l ++ v :: m) ∨
      ∃ c u v m m', u < v ∧ l = c ++ u :: m ∧ l' = c ++ v :: m' := by
  induction l generalizing l' with
  | nil =>
    cases l' with
    | nil => exact absurd h (lt_irrefl _)
    | cons v m => exact .inl ⟨v, m, rfl⟩
  | cons a l ih =>
    cases l' with
    | nil => exact absurd h (List.not_lt_nil _)
    | cons b l' =>
      rcases List.cons_lt_cons_iff.1 h with hab | ⟨rfl, hl⟩
      · exact .inr ⟨[], a, b, l, l', hab, rfl, rfl⟩
      · rcases ih hl with ⟨v, m, rfl⟩ | ⟨c, u, v, m, m', huv, rfl, rfl⟩
        · exact .inl ⟨v, m, rfl⟩
        · exact .inr ⟨a :: c, u, v, m, m', huv, rfl, rfl⟩

variable {ω : Type*}

/-! ## Paths -/

/-- The tasks above `t` and `t` itself, the outermost first and without the main
program, when `t` is less than `n` levels deep. -/
def pathFrom (r : Runtime ω) : ℕ → TaskId → List TaskId
  | 0, _ => []
  | n + 1, t =>
      match (r.task t).parent with
      | none => []
      | some p => pathFrom r n p ++ [t]

/-- The path from the main program to the task. -/
def path (r : Runtime ω) (t : TaskId) : List TaskId := pathFrom r t t

/-- The place of an action of `t` when `n` descriptors had been allocated. -/
def position (r : Runtime ω) (t : TaskId) (n : ℕ) : List ℕ := path r t ++ [n]

/-- In the serial execution, an action of `t` when `n` descriptors had been allocated
comes before one of `t'` when it was `n'`. -/
inductive Precedes (r : Runtime ω) (t : TaskId) (n : ℕ) : TaskId → ℕ → Prop where
  /-- actions of one task -/
  | own {n' : ℕ} (hn : n ≤ n') : Precedes r t n t n'
  /-- the task has not yet spawned the child `c` -/
  | beforeSpawn {t' c : TaskId} {n' : ℕ} (hc : (r.task c).parent = some t) (hn : n ≤ c)
      (h : Under r t' c) : Precedes r t n t' n'
  /-- the other task has spawned the child `c` already -/
  | afterSpawn {t' c : TaskId} {n' : ℕ} (hc : (r.task c).parent = some t') (hn : c < n')
      (h : Under r t c) : Precedes r t n t' n'
  /-- the tasks are under different children of one task -/
  | siblings {t' c c' p : TaskId} {n' : ℕ} (hlt : c < c') (hc : (r.task c).parent = some p)
      (hc' : (r.task c').parent = some p) (h : Under r t c) (h' : Under r t' c') :
      Precedes r t n t' n'

variable [Fintype ω] {r r' : Runtime ω} {t t' c p : TaskId} {n n' m v : ℕ} {l l' : List ℕ}

theorem pathFrom_eq (hT : Tokens r) (hF : Family r) (hn : t ≤ n) (hm : t ≤ m) :
    pathFrom r n t = pathFrom r m t := by
  induction n generalizing t m with
  | zero =>
    obtain rfl : t = mainTask := Nat.le_zero.1 hn
    cases m with
    | zero => rfl
    | succ m => simp [pathFrom, hF.root]
  | succ n ih =>
    cases m with
    | zero =>
      obtain rfl : t = mainTask := Nat.le_zero.1 hm
      simp [pathFrom, hF.root]
    | succ m =>
      cases hp : (r.task t).parent with
      | none => simp [pathFrom, hp]
      | some p =>
        have hlt : p < t := (hF.parent_of_eq hT hp).1
        simp only [pathFrom, hp]
        rw [ih (Nat.le_of_lt_succ (hlt.trans_le hn)) (Nat.le_of_lt_succ (hlt.trans_le hm))]

omit [Fintype ω] in
theorem path_main (r : Runtime ω) : path r mainTask = [] := rfl

theorem path_of_parent (hT : Tokens r) (hF : Family r) (hp : (r.task t).parent = some p) :
    path r t = path r p ++ [t] := by
  have hlt : p < t := (hF.parent_of_eq hT hp).1
  calc path r t = pathFrom r (t + 1) t := pathFrom_eq hT hF le_rfl (Nat.le_succ t)
    _ = pathFrom r t p ++ [t] := by simp only [pathFrom, hp]
    _ = path r p ++ [t] := by rw [path, pathFrom_eq hT hF hlt.le le_rfl]

/-- Different tasks have different paths. -/
theorem path_injective (hT : Tokens r) (hF : Family r) (ht : t < r.next) (ht' : t' < r.next)
    (h : path r t = path r t') : t = t' := by
  rcases eq_or_ne t mainTask with rfl | hne
  · rcases eq_or_ne t' mainTask with rfl | hne'
    · rfl
    · obtain ⟨p, -, hp, -⟩ := hF.parent t' ht' hne'
      rw [path_main, path_of_parent hT hF hp] at h
      simp at h
  · obtain ⟨p, -, hp, -⟩ := hF.parent t ht hne
    rw [path_of_parent hT hF hp] at h
    rcases eq_or_ne t' mainTask with rfl | hne'
    · rw [path_main] at h
      simp at h
    · obtain ⟨p', -, hp', -⟩ := hF.parent t' ht' hne'
      rw [path_of_parent hT hF hp'] at h
      exact (List.append_inj' h rfl).2 |> List.singleton_injective

/-- Where a path is cut, there is a child of the task that the first part leads to. -/
theorem exists_of_path_eq (hT : Tokens r) (hF : Family r) (h : path r t = l ++ v :: l') :
    ∃ p, (r.task v).parent = some p ∧ path r p = l ∧ Under r t v := by
  induction t using Nat.strong_induction_on generalizing l' with
  | _ t ih =>
    cases hp : (r.task t).parent with
    | none =>
      have hnil : path r t = [] := by
        rw [path, pathFrom_eq hT hF le_rfl (Nat.le_succ t)]
        simp only [pathFrom, hp]
      rw [hnil] at h
      simp at h
    | some p =>
      rw [path_of_parent hT hF hp] at h
      rcases List.eq_nil_or_concat l' with rfl | ⟨l'', b, rfl⟩
      · obtain ⟨hl, hv⟩ := List.append_inj' h rfl
        obtain rfl : t = v := List.singleton_injective hv
        exact ⟨p, hp, hl, .refl⟩
      · have hsplit : path r p ++ [t] = (l ++ v :: l'') ++ [b] := by
          rw [h, List.concat_eq_append, List.append_assoc, List.cons_append]
        obtain ⟨q, hq, hql, hunder⟩ :=
          ih p (hF.parent_of_eq hT hp).1 (List.append_inj' hsplit rfl).1
        exact ⟨q, hq, hql, hunder.head hp⟩

/-- A place is cut at the number of descriptors, or inside the path. -/
theorem exists_of_position_eq (hT : Tokens r) (hF : Family r) (h : position r t n = l ++ v :: l') :
    (v = n ∧ path r t = l) ∨ ∃ p, (r.task v).parent = some p ∧ path r p = l ∧ Under r t v := by
  rw [position] at h
  rcases List.eq_nil_or_concat l' with rfl | ⟨l'', b, rfl⟩
  · obtain ⟨hl, hv⟩ := List.append_inj' h rfl
    exact .inl ⟨(List.singleton_injective hv).symm, hl⟩
  · have hsplit : path r t ++ [n] = (l ++ v :: l'') ++ [b] := by
      rw [h, List.concat_eq_append, List.append_assoc, List.cons_append]
    exact .inr (exists_of_path_eq hT hF (List.append_inj' hsplit rfl).1)

omit [Fintype ω] in
/-- The actions of one task are placed in the order of the spawns between them. -/
theorem position_le_position (h : n ≤ n') : position r t n ≤ position r t n' := by
  rcases h.lt_or_eq with hlt | rfl
  · exact (List.append_left_lt (List.cons_lt_cons_iff.2 (.inl hlt))).le
  · exact le_rfl

/-- The path of a task does not change. -/
theorem path_of_grows (hT : Tokens r) (hF : Family r) (hT' : Tokens r') (hF' : Family r')
    (hg : Grows r r') (ht : t < r.next) : path r' t = path r t := by
  induction t using Nat.strong_induction_on with
  | _ t ih =>
    rcases eq_or_ne t mainTask with rfl | hne
    · rfl
    · obtain ⟨p, hlt, hp, -⟩ := hF.parent t ht hne
      rw [path_of_parent hT hF hp, path_of_parent hT' hF' (hg.parent t p hp),
        ih p hlt (hlt.trans ht)]

/-! ## The order of the places -/

/-- **The lexicographic order of the places is the depth-first order.** -/
theorem precedes_of_position_le (hT : Tokens r) (hF : Family r) (ht : t < r.next)
    (ht' : t' < r.next) (h : position r t n ≤ position r t' n') : Precedes r t n t' n' := by
  have hpar : ∀ {c q : TaskId}, (r.task c).parent = some q → q < r.next := by
    intro c q hc
    obtain ⟨hlt, hc', -⟩ := hF.parent_of_eq hT hc
    exact hlt.trans hc'
  rcases h.lt_or_eq with hlt | heq
  · rcases exists_split_of_lt hlt with ⟨v, m, hcut⟩ | ⟨c, u, v, m, m', huv, hu, hv⟩
    · -- the first place ends inside the path of the second task
      rw [position.eq_def r t n, List.append_assoc, List.singleton_append] at hcut
      rcases exists_of_position_eq hT hF hcut with ⟨rfl, hpath⟩ | ⟨p, hp, hpath, hunder⟩
      · obtain rfl : t = t' := path_injective hT hF ht ht' hpath.symm
        exact .own le_rfl
      · obtain rfl : p = t := path_injective hT hF (hpar hp) ht hpath
        exact .beforeSpawn hp le_rfl hunder
    · -- the two part: at a spawn or at the number of descriptors, on either side
      rcases exists_of_position_eq hT hF hu with ⟨rfl, hpath⟩ | ⟨p, hp, hpath, hunder⟩
      · rcases exists_of_position_eq hT hF hv with ⟨rfl, hpath'⟩ | ⟨p', hp', hpath', hunder'⟩
        · obtain rfl : t = t' := path_injective hT hF ht ht' (hpath.trans hpath'.symm)
          exact .own huv.le
        · obtain rfl : p' = t := path_injective hT hF (hpar hp') ht (hpath'.trans hpath.symm)
          exact .beforeSpawn hp' huv.le hunder'
      · rcases exists_of_position_eq hT hF hv with ⟨rfl, hpath'⟩ | ⟨p', hp', hpath', hunder'⟩
        · obtain rfl : p = t' := path_injective hT hF (hpar hp) ht' (hpath.trans hpath'.symm)
          exact .afterSpawn hp huv hunder
        · obtain rfl : p = p' :=
            path_injective hT hF (hpar hp) (hpar hp') (hpath.trans hpath'.symm)
          exact .siblings huv hp hp' hunder hunder'
  · obtain ⟨hpath, hn⟩ := List.append_inj' heq rfl
    obtain rfl : t = t' := path_injective hT hF ht ht' hpath
    exact .own (List.singleton_injective hn).le

end Partee
