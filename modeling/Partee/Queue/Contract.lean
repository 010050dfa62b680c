import Partee.Queue.Linearizable

/-!
# What a deque promises its callers

The runtime above the deques needs less than their linearizability.  `Served c r q q'` is
what it relies on: when a call returns, a task that was accepted is among the tasks `q` of
the deque from then on, a task that is returned was among them and no longer is, and
`dequeue_front` returns `NULL` only when there are none.

`Contains s q` says which tasks those are, in any state of the accesses: the ones accepted
and not yet returned.  Each access keeps it, and the one with which a call returns is
`Served` (`Contains.owner`, `Contains.thief`), if no compare-and-swap of a thief succeeds on
an outdated `top`.
-/

namespace Partee
namespace Queue

open Transition

variable {α Thief : Type*} {s s' : State α Thief} {q : List α}

/-- A call on a deque with the tasks `q` returns `r` and leaves `q'`. -/
inductive Served : Call α → Answer α → List α → List α → Prop where
  | accepted {q : List α} {data : α} : Served (.enqueue data) (.enqueued true) q (q ++ [data])
  | refused {q : List α} {data : α} : Served (.enqueue data) (.enqueued false) q q
  | front {q : List α} {k : ℕ} {x : α} (hk : q[k]? = some x) :
      Served .dequeueFront (.front (some x)) q (q.eraseIdx k)
  | null : Served .dequeueFront (.front none) [] []
  | taken {q : List α} {k : ℕ} {x : α} (hk : q[k]? = some x) :
      Served .dequeueBack (.backTaken (some x)) q (q.eraseIdx k)
  | empty {q : List α} : Served .dequeueBack .backEmpty q q
  | contended {q : List α} : Served .dequeueBack .backContended q q

/-- The call that the owner is inside of. -/
def OwnerPc.call : OwnerPc α → Option (Call α)
  | .idle => none
  | .enqueueTop data _ | .enqueueEntry data _ | .enqueueBottom data _ => some (.enqueue data)
  | .frontBottom _ | .frontTop _ | .frontEmpty _ | .frontEntry _ _ | .frontCas _ _
  | .frontRestore _ _ => some .dequeueFront

/-- The tasks `q` have been accepted and not been returned yet. -/
structure Contains (s : State α Thief) (q : List α) : Prop where
  inv : Inv s
  balance : (s.hist.accepted.map some).Perm (s.hist.returned ++ q.map some)

theorem contains_init : Contains (init α Thief) [] :=
  ⟨inv_init, .refl _⟩

namespace Contains

/-- What the invariant offers and sets aside are the tasks of the deque. -/
theorem perm (h : Contains s q) {L H : List α} (hi : InvAt s L H) : q.Perm (L ++ H) := by
  have hmap : (q.map some).Perm ((L ++ H).map some) :=
    (List.perm_append_left_iff _).mp (h.balance.symm.trans hi.balance)
  exact (List.map_perm_map_iff (Option.some_injective α)).mp hmap

/-- At rest, the tasks of the deque are what its buffer stores. -/
theorem stored (h : Contains s q) (hidle : s.owner = .idle) :
    s.queue.stored.Perm (q.map some) := by
  obtain ⟨L, H, hi⟩ := h.inv
  obtain ⟨hstored, rfl⟩ := hi.stored hidle
  rw [← hstored]
  have hperm := (h.perm hi).map some
  rw [List.append_nil] at hperm
  exact hperm.symm

/-- Without tasks, `isEmpty_Queue` says so. -/
theorem isEmpty (h : Contains s []) : isEmptyQueue s.queue.bottom s.queue.top = true := by
  obtain ⟨L, H, hi⟩ := h.inv
  have hnil : L ++ H = [] := (h.perm hi).nil_eq.symm
  obtain ⟨rfl, rfl⟩ := List.append_eq_nil_iff.mp hnil
  rw [hi.top]
  exact hi.owner.isEmpty

/-- At rest, `isEmpty_Queue` is right about it. -/
theorem eq_nil (h : Contains s q) (hidle : s.owner = .idle)
    (hempty : isEmptyQueue s.queue.bottom s.queue.top = true) : q = [] := by
  obtain ⟨L, H, hi⟩ := h.inv
  have hown := hi.owner
  rw [hidle] at hown
  obtain ⟨hb, hle, rfl⟩ := hown
  rw [isEmptyQueue, Bool.or_eq_true, beq_iff_eq, beq_iff_eq, hb, hi.top, idx_add_one, idx_eq_idx,
    idx_eq_idx] at hempty
  have hL : L = [] := List.length_eq_zero_iff.mp (by omega)
  subst hL
  exact (h.perm hi).eq_nil

/-- The accounts do not change. -/
theorem congr (h : Contains s q) (hi : Inv s') (ha : s'.hist.accepted = s.hist.accepted)
    (hr : s'.hist.returned = s.hist.returned) : Contains s' q :=
  ⟨hi, by rw [ha, hr]; exact h.balance⟩

/-- A task is accepted. -/
theorem accept (h : Contains s q) (hi : Inv s') {data : α}
    (ha : s'.hist.accepted = data :: s.hist.accepted) (hr : s'.hist.returned = s.hist.returned) :
    Contains s' (q ++ [data]) := by
  refine ⟨hi, ?_⟩
  rw [ha, hr, List.map_cons, List.map_append, ← List.append_assoc]
  exact (h.balance.cons _).trans (List.perm_append_singleton _ _).symm

/-- What is returned was in the deque. -/
theorem deliver (h : Contains s q) (hi : Inv s') {ret : Option α}
    (ha : s'.hist.accepted = s.hist.accepted) (hr : s'.hist.returned = ret :: s.hist.returned) :
    ∃ x k, ret = some x ∧ q[k]? = some x ∧ Contains s' (q.eraseIdx k) := by
  obtain ⟨L, H, hi'⟩ := hi
  have hbalance := hi'.balance
  rw [ha, hr] at hbalance
  have hq : (q.map some).Perm (ret :: (L ++ H).map some) := by
    refine (List.perm_append_left_iff s.hist.returned).mp ?_
    exact h.balance.symm.trans (hbalance.trans List.perm_middle.symm)
  obtain ⟨x, hx, rfl⟩ := List.mem_map.mp (hq.mem_iff.mpr List.mem_cons_self)
  obtain ⟨k, hk, rfl⟩ := List.getElem_of_mem hx
  refine ⟨q[k], k, rfl, List.getElem?_eq_getElem hk, ⟨L, H, hi'⟩, ?_⟩
  rw [ha, hr]
  have herase : (q.map some).Perm (some q[k] :: (q.eraseIdx k).map some) :=
    ((List.getElem_cons_eraseIdx_perm hk).map some).symm
  exact h.balance.trans ((herase.append_left _).trans List.perm_middle)

end Contains

/-! ## The owner -/

/-- A call of the owner, up to its return. -/
structure Going (s' : State α Thief) (c : Call α) (q : List α) : Prop where
  contains : Contains s' q
  call : s'.owner.call = some c

/-- A call of `enqueue` or `dequeue_front` begins. -/
theorem Contains.enqueue [DecidableEq Thief] (h : Contains s q) {data : α}
    (hstep : step s (.enqueue data) = some s') : Going s' (.enqueue data) q := by
  have hinv := inv_step (a := .enqueue data) h.inv trivial hstep
  rw [step] at hstep
  split at hstep
  · cases hstep
    exact ⟨h.congr hinv rfl rfl, rfl⟩
  · cases hstep

theorem Contains.dequeueFront [DecidableEq Thief] (h : Contains s q)
    (hstep : step s .dequeueFront = some s') : Going s' .dequeueFront q := by
  have hinv := inv_step (a := .dequeueFront) h.inv trivial hstep
  rw [step] at hstep
  split at hstep
  · cases hstep
    exact ⟨h.congr hinv rfl rfl, rfl⟩
  · cases hstep

/-- `dequeue_front` returns. -/
theorem Contains.front (h : Contains s q) (hi : Inv s') {ret : Option α}
    (ha : s'.hist.accepted = s.hist.accepted)
    (hr : s'.hist.returned = (ret.map some).toList ++ s.hist.returned)
    (hnull : ret = none → s'.owner = .idle ∧
      isEmptyQueue s'.queue.bottom s'.queue.top = true) :
    ∃ q', Contains s' q' ∧ Served .dequeueFront (.front ret) q q' := by
  cases ret with
  | none =>
    have h' : Contains s' q := h.congr hi ha hr
    obtain ⟨hidle, hempty⟩ := hnull rfl
    obtain rfl : q = [] := h'.eq_nil hidle hempty
    exact ⟨[], h', .null⟩
  | some y =>
    obtain ⟨x, k, hx, hk, h'⟩ := h.deliver hi ha hr
    cases hx
    exact ⟨_, h', .front hk⟩

/-- **An access of the owner** is inside its call, or the call returns as promised. -/
theorem Contains.owner [DecidableEq Thief] (h : Contains s q) {c : Call α}
    (hc : s.owner.call = some c) (hstep : step s .owner = some s') :
    events s .owner = [] ∧ Going s' c q ∨
      ∃ r q', events s .owner = [.ret .owner r] ∧ Contains s' q' ∧ Served c r q q' := by
  have hinv := inv_step (a := .owner) h.inv trivial hstep
  obtain ⟨L, H, hi⟩ := h.inv
  have hnull : .ret .owner (.front none) ∈ ownerEvents s s.owner →
      isEmptyQueue s'.queue.bottom s'.queue.top = true := hi.isEmpty_of_null hstep
  have hstep' : ownerStep s s.owner = some s' := hstep
  rw [events]
  cases hpc : s.owner with
  | idle =>
    rw [hpc] at hc
    cases hc
  | enqueueTop data b =>
    rw [hpc] at hc hstep'
    cases hc
    rw [ownerStep] at hstep'
    rw [ownerEvents]
    split at hstep' <;> rename_i hfull <;> cases hstep'
    · rw [if_pos hfull]
      exact .inr ⟨_, q, rfl, h.congr hinv rfl rfl, .refused⟩
    · rw [if_neg hfull]
      exact .inl ⟨rfl, h.congr hinv rfl rfl, rfl⟩
  | enqueueEntry data b =>
    rw [hpc] at hc hstep'
    cases hc
    cases hstep'
    exact .inl ⟨rfl, h.congr hinv rfl rfl, rfl⟩
  | enqueueBottom data b =>
    rw [hpc] at hc hstep'
    cases hc
    cases hstep'
    exact .inr ⟨_, _, rfl, h.accept hinv rfl rfl, .accepted⟩
  | frontBottom b =>
    rw [hpc] at hc hstep'
    cases hc
    cases hstep'
    exact .inl ⟨rfl, h.congr hinv rfl rfl, rfl⟩
  | frontTop b =>
    rw [hpc] at hc hstep'
    cases hc
    rw [ownerStep] at hstep'
    split at hstep' <;> cases hstep'
    · exact .inl ⟨rfl, h.congr hinv rfl rfl, rfl⟩
    · exact .inl ⟨rfl, h.congr hinv rfl rfl, rfl⟩
  | frontEmpty t =>
    rw [hpc] at hc hstep' hnull
    cases hc
    cases hstep'
    have hidle := hnull (.head _)
    obtain ⟨q', h', hserved⟩ : ∃ q', Contains _ q' ∧ Served .dequeueFront (.front none) _ q' :=
      h.front hinv rfl rfl fun _ => ⟨rfl, hidle⟩
    exact .inr ⟨_, q', rfl, h', hserved⟩
  | frontEntry b t =>
    rw [hpc] at hc hstep' hnull
    cases hc
    rw [ownerStep] at hstep'
    rw [ownerEvents] at hnull ⊢
    dsimp only at hstep'
    split at hstep' <;> rename_i hne <;> cases hstep'
    · rw [if_pos hne] at hnull ⊢
      obtain ⟨q', h', hserved⟩ := h.front hinv rfl rfl fun hret => ⟨rfl, hnull (by
        rw [hret]
        exact .head _)⟩
      exact .inr ⟨_, q', rfl, h', hserved⟩
    · rw [if_neg hne]
      exact .inl ⟨rfl, h.congr hinv rfl rfl, rfl⟩
  | frontCas t ret =>
    rw [hpc] at hc hstep'
    cases hc
    rw [ownerStep] at hstep'
    split at hstep' <;> cases hstep'
    · exact .inl ⟨rfl, h.congr hinv rfl rfl, rfl⟩
    · exact .inl ⟨rfl, h.congr hinv rfl rfl, rfl⟩
  | frontRestore t ret =>
    rw [hpc] at hc hstep' hnull
    cases hc
    cases hstep'
    obtain ⟨q', h', hserved⟩ := h.front hinv rfl rfl fun hret => ⟨rfl, hnull (by
      rw [hret]
      exact .head _)⟩
    exact .inr ⟨_, q', rfl, h', hserved⟩

/-! ## The thieves -/

/-- **An access of a thief** is inside its call, or the call returns as promised. -/
theorem Contains.thief [DecidableEq Thief] (h : Contains s q) {i : Thief}
    (hok : Timely s (.thief i)) (hstep : step s (.thief i) = some s') :
    (s'.owner = s.owner ∧ s'.queue.bottom = s.queue.bottom) ∧
      ((∀ p r, events s (.thief i) ≠ [.ret p r]) ∧ Contains s' q ∨
        ∃ r q', events s (.thief i) = [.ret (.thief i) r] ∧ Contains s' q' ∧
          Served .dequeueBack r q q') := by
  have hinv := inv_step (a := .thief i) h.inv hok hstep
  have hstep' : some (thiefStep s i (s.thief i)) = some s' := hstep
  rw [events]
  cases hpc : s.thief i with
  | idle =>
    rw [hpc] at hstep'
    cases hstep'
    refine ⟨⟨rfl, rfl⟩, .inl ⟨fun p r heq => ?_, h.congr hinv rfl rfl⟩⟩
    cases heq
  | backBottom t =>
    rw [hpc, thiefStep] at hstep'
    rw [thiefEvents]
    split at hstep' <;> rename_i hempty <;> cases hstep'
    · rw [if_pos hempty]
      exact ⟨⟨rfl, rfl⟩, .inr ⟨_, q, rfl, h.congr hinv rfl rfl, .empty⟩⟩
    · rw [if_neg hempty]
      refine ⟨⟨rfl, rfl⟩, .inl ⟨fun p r heq => ?_, h.congr hinv rfl rfl⟩⟩
      cases heq
  | backEntry t =>
    rw [hpc] at hstep'
    cases hstep'
    refine ⟨⟨rfl, rfl⟩, .inl ⟨fun p r heq => ?_, h.congr hinv rfl rfl⟩⟩
    cases heq
  | backCas t ret =>
    rw [hpc, thiefStep] at hstep'
    rw [thiefEvents]
    split at hstep' <;> rename_i htop <;> cases hstep'
    · rw [if_pos htop]
      obtain ⟨x, k, rfl, hk, h'⟩ := h.deliver hinv rfl rfl
      exact ⟨⟨rfl, rfl⟩, .inr ⟨_, _, rfl, h', .taken hk⟩⟩
    · rw [if_neg htop]
      exact ⟨⟨rfl, rfl⟩, .inr ⟨_, q, rfl, h.congr hinv rfl rfl, .contended⟩⟩

end Queue
end Partee
