import Partee.Queue.Model
import Mathlib.Data.List.Basic
import Mathlib.Data.List.Perm.Basic
import Mathlib.Tactic.Common

/-!
# The invariant of the deque

Behind the 8-bit `top` stands the unbounded number of times it has been
advanced, and behind the buffer a list `L` of the tasks that may still be
taken from either side: position `T + k` holds `L[k]`, where a position is a
slot modulo 128 and an index modulo 256.  Inside `dequeue_front` the owner may
already have set one element aside; it is the list `H`.

* `OwnerOk`: what each program point of the owner knows about `bottom`, `L` and
  `H`.
* `ThiefOk`: a thief whose remembered `top` is still current has seen a
  nonempty deque, and from the load of the entry on it holds the oldest element.
* `Inv`: the two together, and the balance: the accepted tasks are the returned
  ones, those in `L` and those in `H`.

A compare-and-swap on the stale value of a thief is excluded here by `Timely`.
The eight bits alone do not exclude it, see `Queue.StaleThief`.
-/

namespace Partee
namespace Queue

open Transition

variable {α Thief : Type*}

/-! ## Indices and slots -/

/-- The 8-bit index of a position. -/
def idx (n : ℕ) : BitVec 8 := BitVec.ofNat 8 n

theorem idx_eq_idx {m n : ℕ} : idx m = idx n ↔ m % 256 = n % 256 := by
  rw [BitVec.toNat_eq]
  simp [idx]

theorem idx_add_one (n : ℕ) : idx n + 1 = idx (n + 1) :=
  (BitVec.ofNat_add n 1).symm

theorem idx_add_idx (m n : ℕ) : idx m + idx n = idx (m + n) :=
  (BitVec.ofNat_add m n).symm

theorem add_one_eq_idx {b : BitVec 8} {n : ℕ} : b + 1 = idx (n + 1) ↔ b = idx n := by
  rw [← idx_add_one]
  exact BitVec.add_left_inj _

theorem sub_one_add_one (b : BitVec 8) : b - 1 + 1 = b :=
  BitVec.sub_add_cancel b 1

/-- A slot is a position modulo 128. -/
theorem slot_idx {q : Deque α} (hq : q.size = maxQueueEntries) (n : ℕ) :
    q.slot (idx n) = n % 128 := by
  have hand : (n % 256) &&& (2 ^ 7 - 1) = (n % 256) % 2 ^ 7 := Nat.and_two_pow_sub_one_eq_mod _ 7
  rw [Deque.slot, hq]
  show (n % 256) &&& (2 ^ 7 - 1) = n % 128
  rw [hand]
  omega

/-- The exclusive-or test: the indices differ by exactly 128. -/
theorem xor_eq_iff (b t : BitVec 8) : (b ^^^ t).toNat = 128 ↔ b = t + 128#8 := by
  have hflip : ∀ t : BitVec 8, t ^^^ 128#8 = t + 128#8 := by decide
  rw [← hflip]
  constructor
  · intro h
    have h' : b ^^^ t = 128#8 := BitVec.eq_of_toNat_eq h
    rw [← h', BitVec.xor_comm, BitVec.xor_assoc, BitVec.xor_self, BitVec.xor_zero]
  · rintro rfl
    rw [BitVec.xor_comm, ← BitVec.xor_assoc, BitVec.xor_self, BitVec.zero_xor]
    rfl

theorem isFullQueue_idx {q : Deque α} (hq : q.size = maxQueueEntries) {T n : ℕ} (hn : n ≤ 128) :
    isFullQueue q (idx (T + n)) (idx T) = true ↔ n = 128 := by
  have h128 : idx T + 128#8 = idx (T + 128) := idx_add_idx T 128
  rw [isFullQueue, hq, maxQueueEntries, beq_iff_eq, xor_eq_iff, h128, idx_eq_idx]
  omega

/-- The entries at the positions `T`, `T + 1`, … hold the tasks of `L`. -/
def Holds (q : Deque α) (T : ℕ) (L : List α) : Prop :=
  ∀ k (h : k < L.length), q.entries ((T + k) % 128) = some L[k]

theorem Holds.head {q : Deque α} {T : ℕ} {x : α} {L : List α} (h : Holds q T (x :: L)) :
    q.entries (T % 128) = some x :=
  h 0 (Nat.succ_pos _)

theorem Holds.tail {q : Deque α} {T : ℕ} {x : α} {L : List α} (h : Holds q T (x :: L)) :
    Holds q (T + 1) L := by
  intro k hk
  have := h (k + 1) (Nat.succ_lt_succ hk)
  rwa [show T + (k + 1) = T + 1 + k by omega] at this

theorem Holds.concat {q : Deque α} {T : ℕ} {L : List α} {x : α} :
    Holds q T (L ++ [x]) ↔ Holds q T L ∧ q.entries ((T + L.length) % 128) = some x := by
  constructor
  · intro h
    refine ⟨fun k hk => ?_, ?_⟩
    · have := h k (by rw [List.length_append]; omega)
      rwa [List.getElem_append_left hk] at this
    · have := h L.length (by simp)
      rwa [List.getElem_concat_length rfl] at this
  · rintro ⟨h, hx⟩ k hk
    rw [List.length_append, List.length_singleton] at hk
    rcases Nat.lt_succ_iff_lt_or_eq.mp hk with hlt | rfl
    · rw [List.getElem_append_left hlt]
      exact h k hlt
    · rw [List.getElem_concat_length rfl]
      exact hx

/-- Writing the slot just past fewer than 128 elements leaves them alone. -/
theorem Holds.write {q : Deque α} {T : ℕ} {L : List α} (h : Holds q T L) (hL : L.length < 128)
    (v : Option α) :
    Holds { q with entries := Function.update q.entries ((T + L.length) % 128) v } T L := by
  intro k hk
  have hne : (T + k) % 128 ≠ (T + L.length) % 128 := by omega
  show Function.update q.entries _ v _ = _
  rw [Function.update_of_ne hne]
  exact h k hk

/-! ## What each program point knows -/

/-- `L` is what can still be taken, `H` what the owner has set aside. -/
def OwnerOk (q : Deque α) (T : ℕ) (L H : List α) : OwnerPc α → Prop
  | .idle => q.bottom = idx (T + L.length) ∧ L.length ≤ 128 ∧ H = []
  | .enqueueTop _ b => q.bottom = b ∧ b = idx (T + L.length) ∧ L.length ≤ 128 ∧ H = []
  | .enqueueEntry _ b => q.bottom = b ∧ b = idx (T + L.length) ∧ L.length < 128 ∧ H = []
  | .enqueueBottom data b =>
      q.bottom = b ∧ b = idx (T + L.length) ∧ L.length < 128 ∧ H = [] ∧
        q.entries ((T + L.length) % 128) = some data
  | .frontBottom b => q.bottom = b + 1 ∧ b + 1 = idx (T + L.length) ∧ L.length ≤ 128 ∧ H = []
  | .frontTop b => q.bottom = b ∧ b + 1 = idx (T + L.length) ∧ L.length ≤ 128 ∧ H = []
  | .frontEmpty t => q.bottom + 1 = t ∧ t = idx T ∧ L = [] ∧ H = []
  | .frontEntry b t => q.bottom = b ∧
      ((b ≠ t ∧ b = idx (T + L.length) ∧ L.length ≤ 128 ∧
          ∃ x, H = [x] ∧ q.entries ((T + L.length) % 128) = some x) ∨
        (b = t ∧ H = [] ∧ ∃ S, t = idx S ∧ S + 1 = T + L.length ∧ L.length ≤ 1))
  | .frontCas t ret => q.bottom = t ∧ H = [] ∧
      ∃ S, t = idx S ∧ S + 1 = T + L.length ∧ L.length ≤ 1 ∧ ∀ x ∈ L, ret = some x
  | .frontRestore t ret => q.bottom = t ∧ t + 1 = idx T ∧ L = [] ∧ ret.toList = H

/-- A thief that read `top` when it had been advanced `S` times. -/
def ThiefOk (T : ℕ) (L : List α) (S : ℕ) : ThiefPc α → Prop
  | .idle => True
  | .backBottom t => S ≤ T ∧ t = idx S
  | .backEntry t => S ≤ T ∧ t = idx S ∧ (S = T → L ≠ [])
  | .backCas t ret => S ≤ T ∧ t = idx S ∧ (S = T → ∃ x, L.head? = some x ∧ ret = some x)

/-- The invariant, with its two lists explicit. -/
structure InvAt (s : State α Thief) (L H : List α) : Prop where
  size : s.queue.size = maxQueueEntries
  top : s.queue.top = idx s.hist.advances
  holds : Holds s.queue s.hist.advances L
  owner : OwnerOk s.queue s.hist.advances L H s.owner
  thieves : ∀ i, ThiefOk s.hist.advances L (s.hist.seen i) (s.thief i)
  balance : (s.hist.accepted.map some).Perm (s.hist.returned ++ (L ++ H).map some)

/-- The invariant of the deque. -/
def Inv (s : State α Thief) : Prop := ∃ L H, InvAt s L H

theorem inv_init : Inv (init α Thief) :=
  ⟨[], [], rfl, rfl, fun _ h => absurd h (Nat.not_lt_zero _), ⟨rfl, Nat.zero_le _, rfl⟩,
    fun _ => trivial, .refl _⟩

/-- When nothing can be taken, the owner keeps `bottom` at `top` or one below
it, and a thief that looks finds the deque empty. -/
theorem OwnerOk.isEmpty {q : Deque α} {T : ℕ} {H : List α} {pc : OwnerPc α}
    (h : OwnerOk q T [] H pc) : isEmptyQueue q.bottom (idx T) = true := by
  rw [isEmptyQueue, Bool.or_eq_true, beq_iff_eq, beq_iff_eq]
  cases pc with
  | idle => exact .inl h.1
  | enqueueTop data b => exact .inl (h.1.trans h.2.1)
  | enqueueEntry data b => exact .inl (h.1.trans h.2.1)
  | enqueueBottom data b => exact .inl (h.1.trans h.2.1)
  | frontBottom b => exact .inl (h.1.trans h.2.1)
  | frontTop b => exact .inr (h.1 ▸ h.2.1)
  | frontEmpty t => exact .inr (h.1.trans h.2.1)
  | frontEntry b t =>
    obtain ⟨hb, ⟨-, hidx, -⟩ | ⟨rfl, -, S, rfl, hS, -⟩⟩ := h
    · exact .inl (hb.trans hidx)
    · rw [hb, idx_add_one, hS]
      exact .inr rfl
  | frontCas t ret =>
    obtain ⟨hb, -, S, rfl, hS, -⟩ := h
    rw [hb, idx_add_one, hS]
    exact .inr rfl
  | frontRestore t ret => exact .inr (h.1 ▸ h.2.1)

/-- Advancing `top` past the oldest element is compatible with every program
point of the owner. -/
theorem OwnerOk.steal {q : Deque α} {T : ℕ} {x : α} {L H : List α} {pc : OwnerPc α}
    (h : OwnerOk q T (x :: L) H pc) (t : BitVec 8) :
    OwnerOk { q with top := t } (T + 1) L H pc := by
  have hlen : T + (x :: L).length = T + 1 + L.length := by rw [List.length_cons]; omega
  cases pc with
  | frontEmpty t => exact absurd h.2.2.1 (List.cons_ne_nil _ _)
  | frontRestore t ret => exact absurd h.2.2.1 (List.cons_ne_nil _ _)
  | frontEntry b t =>
    obtain ⟨hb, ⟨hne, hidx, hle, y, hH, hy⟩ | ⟨heq, hH, S, ht, hS, hle⟩⟩ := h
    · rw [hlen] at hidx hy
      rw [List.length_cons] at hle
      exact ⟨hb, .inl ⟨hne, hidx, by omega, y, hH, hy⟩⟩
    · rw [List.length_cons] at hle hS
      exact ⟨hb, .inr ⟨heq, hH, S, ht, by omega, by omega⟩⟩
  | frontCas t ret =>
    obtain ⟨hb, hH, S, ht, hS, hle, hret⟩ := h
    rw [List.length_cons] at hle hS
    exact ⟨hb, hH, S, ht, by omega, by omega, fun y hy => hret y (List.mem_cons_of_mem _ hy)⟩
  | _ =>
    simp only [OwnerOk, hlen] at h ⊢
    simp only [List.length_cons] at h
    grind

/-- A remembered `top` is stale once `top` has been advanced. -/
theorem ThiefOk.advance {T S : ℕ} {L L' : List α} {pc : ThiefPc α} (h : ThiefOk T L S pc) :
    ThiefOk (T + 1) L' S pc := by
  cases pc with
  | idle => trivial
  | backBottom t => exact ⟨by have := h.1; omega, h.2⟩
  | backEntry t => exact ⟨by have := h.1; omega, h.2.1, fun hS => by have := h.1; omega⟩
  | backCas t ret => exact ⟨by have := h.1; omega, h.2.1, fun hS => by have := h.1; omega⟩

/-- The thieves do not notice a change at the other end. -/
theorem ThiefOk.congr {T S : ℕ} {L L' : List α} {pc : ThiefPc α} (h : ThiefOk T L S pc)
    (hL : ∀ x, L.head? = some x → L'.head? = some x) : ThiefOk T L' S pc := by
  have hne : L ≠ [] → L' ≠ [] := by
    rintro hne rfl
    obtain ⟨x, M, rfl⟩ := List.exists_cons_of_ne_nil hne
    exact absurd (hL x rfl) (by simp)
  cases pc with
  | idle => trivial
  | backBottom t => exact h
  | backEntry t => exact ⟨h.1, h.2.1, fun hS => hne (h.2.2 hS)⟩
  | backCas t ret =>
    refine ⟨h.1, h.2.1, fun hS => ?_⟩
    obtain ⟨x, hx, hret⟩ := h.2.2 hS
    exact ⟨x, hL x hx, hret⟩

/-- The deque never offers more than its buffer holds. -/
theorem OwnerOk.length_le {q : Deque α} {T : ℕ} {L H : List α} {pc : OwnerPc α}
    (h : OwnerOk q T L H pc) : L.length ≤ 128 := by
  cases pc with
  | frontEmpty t =>
    rw [h.2.2.1]
    exact Nat.zero_le _
  | frontRestore t ret =>
    rw [h.2.2.1]
    exact Nat.zero_le _
  | frontEntry b t =>
    obtain ⟨-, ⟨-, -, hle, -⟩ | ⟨-, -, S, -, -, hle⟩⟩ := h
    · exact hle
    · omega
  | frontCas t ret =>
    obtain ⟨-, -, S, -, -, hle, -⟩ := h
    omega
  | _ =>
    simp only [OwnerOk] at h
    omega

/-- What an access of the owner does to the two lists. -/
def OwnerMoves (L H L' H' : List α) : OwnerPc α → Prop
  | .enqueueBottom data _ => L' = L ++ [data] ∧ H' = H
  | .frontTop _ | .frontCas _ _ => L' = L ∧ H' = H ∨ ∃ x, L = L' ++ [x] ∧ H = [] ∧ H' = [x]
  | .frontEntry _ _ | .frontRestore _ _ => L' = L ∧ H' = []
  | _ => L' = L ∧ H' = H

/-! ## The owner keeps the invariant -/

/-- Calling `enqueue` or `dequeue_front`. -/
theorem InvAt.call {s : State α Thief} {L H : List α} (h : InvAt s L H) (hidle : s.owner = .idle)
    {pc : OwnerPc α} (hpc : OwnerOk s.queue s.hist.advances L [] pc) :
    InvAt { s with owner := pc } L H := by
  have hH : H = [] := by
    have := h.owner
    rw [hidle] at this
    exact this.2.2
  subst hH
  exact ⟨h.size, h.top, h.holds, hpc, h.thieves, h.balance⟩

theorem InvAt.ownerStep {s s' : State α Thief} {L H : List α} (h : InvAt s L H)
    (hstep : ownerStep s s.owner = some s') :
    ∃ L' H', InvAt s' L' H' ∧ OwnerMoves L H L' H' s.owner := by
  have hown := h.owner
  cases hpc : s.owner with
  | idle => simp [hpc, Queue.ownerStep] at hstep
  | enqueueTop data b =>
    rw [hpc] at hown hstep
    obtain ⟨hb, hidx, hle, rfl⟩ := hown
    rw [Queue.ownerStep] at hstep
    split at hstep <;> cases hstep
    · exact ⟨L, [], ⟨h.size, h.top, h.holds, ⟨hb.trans hidx, hle, rfl⟩, h.thieves, h.balance⟩,
        rfl, rfl⟩
    · rename_i hfull
      rw [h.top, hidx, isFullQueue_idx h.size hle] at hfull
      exact ⟨L, [], ⟨h.size, h.top, h.holds, ⟨hb, hidx, by omega, rfl⟩, h.thieves, h.balance⟩,
        rfl, rfl⟩
  | enqueueEntry data b =>
    rw [hpc] at hown hstep
    obtain ⟨hb, hidx, hlt, rfl⟩ := hown
    cases hstep
    have hslot : s.queue.slot b = (s.hist.advances + L.length) % 128 := by
      rw [hidx, slot_idx h.size]
    refine ⟨L, [], ⟨h.size, h.top, ?_, ⟨hb, hidx, hlt, rfl, ?_⟩, h.thieves, h.balance⟩, rfl, rfl⟩
    · show Holds { s.queue with entries := Function.update s.queue.entries (s.queue.slot b) _ } _ _
      rw [hslot]
      exact h.holds.write hlt _
    · show Function.update s.queue.entries (s.queue.slot b) _ _ = _
      rw [hslot, Function.update_self]
  | enqueueBottom data b =>
    rw [hpc] at hown hstep
    obtain ⟨hb, hidx, hlt, rfl, hdata⟩ := hown
    cases hstep
    refine ⟨L ++ [data], [], ⟨h.size, h.top, Holds.concat.2 ⟨h.holds, hdata⟩, ?_, ?_, ?_⟩,
      rfl, rfl⟩
    · refine ⟨?_, by rw [List.length_append, List.length_singleton]; omega, rfl⟩
      show b + 1 = _
      rw [hidx, idx_add_one, List.length_append, List.length_singleton, Nat.add_assoc]
    · intro i
      refine (h.thieves i).congr fun x hx => ?_
      rw [List.head?_append, hx]
      rfl
    · have := h.balance.cons (some data)
      refine this.trans ?_
      simp only [List.append_nil, List.map_append, List.map_cons, List.map_nil]
      rw [← List.append_assoc]
      exact (List.perm_append_singleton _ _).symm
  | frontBottom b =>
    rw [hpc] at hown hstep
    obtain ⟨-, hidx, hle, rfl⟩ := hown
    cases hstep
    exact ⟨L, [], ⟨h.size, h.top, h.holds, ⟨rfl, hidx, hle, rfl⟩, h.thieves, h.balance⟩, rfl, rfl⟩
  | frontTop b =>
    rw [hpc] at hown hstep
    obtain ⟨hb, hidx, hle, rfl⟩ := hown
    rw [Queue.ownerStep] at hstep
    split at hstep
    · -- empty: 0 is the only multiple of 256 that `L.length` can be
      rename_i hempty
      cases hstep
      rw [hidx, h.top, idx_eq_idx] at hempty
      have hL : L = [] := List.length_eq_zero_iff.mp (by omega)
      subst hL
      refine ⟨[], [], ⟨h.size, h.top, h.holds, ⟨?_, h.top, rfl, rfl⟩, h.thieves, h.balance⟩,
        .inl ⟨rfl, rfl⟩⟩
      show s.queue.bottom + 1 = _
      rw [hb, hidx, h.top]
      rfl
    · rename_i hne
      cases hstep
      rw [hidx, h.top, idx_eq_idx] at hne
      rcases List.eq_nil_or_concat' L with rfl | ⟨M, x, rfl⟩
      · exact absurd rfl hne
      · rw [List.length_append, List.length_singleton] at hidx hle
        have hbM : b = idx (s.hist.advances + M.length) := add_one_eq_idx.mp hidx
        by_cases hM : M = []
        · -- one element: it stays on offer until the compare-and-swap
          subst hM
          exact ⟨[x], [], ⟨h.size, h.top, h.holds,
            ⟨hb, .inr ⟨hbM.trans h.top.symm, rfl, s.hist.advances, h.top, rfl, Nat.le_refl _⟩⟩,
            h.thieves, h.balance⟩, .inl ⟨rfl, rfl⟩⟩
        · -- more than one: the newest is set aside for the owner
          have hpos : 0 < M.length := List.length_pos_of_ne_nil hM
          refine ⟨M, [x], ⟨h.size, h.top, (Holds.concat.1 h.holds).1,
            ⟨hb, .inl ⟨?_, hbM, by omega, x, rfl, (Holds.concat.1 h.holds).2⟩⟩, ?_, ?_⟩,
            .inr ⟨x, rfl, rfl, rfl⟩⟩
          · show b ≠ s.queue.top
            rw [hbM, h.top, Ne, idx_eq_idx]
            omega
          · intro i
            refine (h.thieves i).congr fun y hy => ?_
            obtain ⟨z, N, rfl⟩ := List.exists_cons_of_ne_nil hM
            exact hy
          · simpa using h.balance
  | frontEmpty t =>
    rw [hpc] at hown hstep
    obtain ⟨-, ht, rfl, rfl⟩ := hown
    cases hstep
    exact ⟨[], [], ⟨h.size, h.top, h.holds, ⟨ht, Nat.zero_le _, rfl⟩, h.thieves, h.balance⟩,
      rfl, rfl⟩
  | frontEntry b t =>
    rw [hpc] at hown hstep
    obtain ⟨hb, ⟨hne, hidx, hle, x, rfl, hx⟩ | ⟨rfl, rfl, S, hS, hlen, hle⟩⟩ := hown
    · simp only [Queue.ownerStep, hne, ne_eq, not_false_eq_true, if_true] at hstep
      cases hstep
      have hret : s.queue.entries (s.queue.slot b) = some x := by
        rw [hidx, slot_idx h.size, hx]
      refine ⟨L, [], ⟨h.size, h.top, h.holds, ⟨hb.trans hidx, hle, rfl⟩, h.thieves, ?_⟩, rfl, rfl⟩
      have hbal := h.balance
      simp only [hret, Option.map_some, Option.toList_some, List.map_append, List.map_cons,
        List.map_nil, List.append_nil, List.cons_append] at hbal ⊢
      rw [← List.append_assoc] at hbal
      exact hbal.trans (List.perm_append_singleton _ _)
    · simp only [Queue.ownerStep, ne_eq, not_true_eq_false, if_false] at hstep
      cases hstep
      refine ⟨L, [], ⟨h.size, h.top, h.holds, ⟨hb, rfl, S, hS, hlen, hle, ?_⟩, h.thieves,
        h.balance⟩, rfl, rfl⟩
      intro x hx
      obtain ⟨y, rfl⟩ := List.length_eq_one_iff.mp (Nat.le_antisymm hle (List.length_pos_of_mem hx))
      rw [List.mem_singleton] at hx
      subst hx
      have hST : S = s.hist.advances := by simpa using hlen
      show s.queue.entries (s.queue.slot b) = some x
      rw [hS, slot_idx h.size, hST]
      exact h.holds.head
  | frontCas t ret =>
    rw [hpc] at hown hstep
    obtain ⟨hb, rfl, S, rfl, hlen, hle, hret⟩ := hown
    rw [Queue.ownerStep] at hstep
    split at hstep <;> rename_i htop <;> rw [h.top, idx_eq_idx] at htop <;> cases hstep
    · -- the owner wins: nobody has advanced `top` since it was read
      obtain ⟨x, rfl⟩ : ∃ x, L = [x] := List.length_eq_one_iff.mp (by omega)
      have hS : S = s.hist.advances := by simpa using hlen
      subst hS
      refine ⟨[], [x], ⟨h.size, idx_add_one _, fun _ hk => absurd hk (Nat.not_lt_zero _),
        ⟨hb, idx_add_one _, rfl, ?_⟩, fun i => (h.thieves i).advance, by simpa using h.balance⟩,
        .inr ⟨x, rfl, rfl, rfl⟩⟩
      rw [hret x (List.mem_singleton_self x)]
      rfl
    · -- a thief was faster
      have hL : L = [] := by
        rcases Nat.le_one_iff_eq_zero_or_eq_one.mp hle with h0 | h1
        · exact List.length_eq_zero_iff.mp h0
        · exact absurd (show s.hist.advances % 256 = S % 256 by omega) htop
      subst hL
      refine ⟨[], [], ⟨h.size, h.top, h.holds, ⟨hb, ?_, rfl, rfl⟩, h.thieves, h.balance⟩,
        .inl ⟨rfl, rfl⟩⟩
      rw [idx_add_one, hlen]
      rfl
  | frontRestore t ret =>
    rw [hpc] at hown hstep
    obtain ⟨-, ht, rfl, rfl⟩ := hown
    cases hstep
    refine ⟨[], [], ⟨h.size, h.top, h.holds, ⟨ht, Nat.zero_le _, rfl⟩, h.thieves, ?_⟩, rfl, rfl⟩
    refine h.balance.trans ?_
    cases ret with
    | none => exact .refl _
    | some x =>
      show (s.hist.returned ++ [some x]).Perm ([some x] ++ s.hist.returned ++ [])
      simp

/-! ## The thieves keep the invariant -/

variable [DecidableEq Thief]

/-- A thief that moves alone, with a program point that fits. -/
theorem InvAt.setThief {s : State α Thief} {L H : List α} (h : InvAt s L H) {i : Thief}
    {pc : ThiefPc α} (hpc : ThiefOk s.hist.advances L (s.hist.seen i) pc) :
    InvAt (s.setThief i pc) L H := by
  refine ⟨h.size, h.top, h.holds, h.owner, fun j => ?_, h.balance⟩
  show ThiefOk _ _ _ (Function.update s.thief i pc j)
  rcases eq_or_ne j i with rfl | hji
  · rw [Function.update_self]
    exact hpc
  · rw [Function.update_of_ne hji]
    exact h.thieves j

/-- What an access of thief `i` does to the first list. -/
def ThiefMoves (s : State α Thief) (L L' : List α) : ThiefPc α → Prop
  | .backCas t ret => if s.queue.top = t then ∃ x, L = x :: L' ∧ ret = some x else L' = L
  | _ => L' = L

theorem InvAt.thiefStep {s : State α Thief} {L H : List α} (h : InvAt s L H) (i : Thief)
    (hok : Timely s (.thief i)) :
    ∃ L', InvAt (thiefStep s i (s.thief i)) L' H ∧ ThiefMoves s L L' (s.thief i) := by
  have hi := h.thieves i
  cases hpc : s.thief i with
  | idle =>
    refine ⟨L, ⟨h.size, h.top, h.holds, h.owner, fun j => ?_, h.balance⟩, rfl⟩
    show ThiefOk _ _ (Function.update s.hist.seen i _ j) (Function.update s.thief i _ j)
    rcases eq_or_ne j i with rfl | hji
    · rw [Function.update_self, Function.update_self]
      exact ⟨Nat.le_refl _, h.top⟩
    · rw [Function.update_of_ne hji, Function.update_of_ne hji]
      exact h.thieves j
  | backBottom t =>
    rw [hpc] at hi
    rw [Queue.thiefStep]
    split
    · exact ⟨L, h.setThief trivial, rfl⟩
    · rename_i hne
      refine ⟨L, h.setThief ⟨hi.1, hi.2, ?_⟩, rfl⟩
      rintro hS rfl
      rw [hi.2, hS] at hne
      exact hne h.owner.isEmpty
  | backEntry t =>
    rw [hpc] at hi
    refine ⟨L, h.setThief ⟨hi.1, hi.2.1, fun hS => ?_⟩, rfl⟩
    obtain ⟨x, M, rfl⟩ := List.exists_cons_of_ne_nil (hi.2.2 hS)
    refine ⟨x, rfl, ?_⟩
    rw [hi.2.1, hS, slot_idx h.size]
    exact h.holds.head
  | backCas t ret =>
    rw [hpc] at hi
    simp only [Queue.thiefStep, ThiefMoves]
    split
    · -- a timely thief takes the oldest element
      rename_i htop
      have hseen : s.hist.seen i = s.hist.advances := by
        rw [Timely, hpc] at hok
        exact (hok htop).symm
      obtain ⟨x, hx, rfl⟩ := hi.2.2 hseen
      obtain ⟨M, rfl⟩ : ∃ M, L = x :: M := List.head?_eq_some_iff.mp hx
      have h' : InvAt (s.setThief i .idle) (x :: M) H := h.setThief trivial
      refine ⟨M, ⟨h.size, ?_, h.holds.tail, h.owner.steal _, fun j => (h'.thieves j).advance, ?_⟩,
        x, rfl, rfl⟩
      · show t + 1 = idx (s.hist.advances + 1)
        rw [← htop, h.top, idx_add_one]
      · refine h.balance.trans ?_
        simp only [List.cons_append, List.map_cons]
        exact List.perm_middle
    · exact ⟨L, h.setThief trivial, rfl⟩

omit [DecidableEq Thief] in
/-- Calling `enqueue` loads `bottom`. -/
theorem InvAt.enqueue {s : State α Thief} {L H : List α} (h : InvAt s L H)
    (hidle : s.owner = .idle) (data : α) :
    InvAt { s with owner := .enqueueTop data s.queue.bottom } L H := by
  have hown := h.owner
  rw [hidle] at hown
  exact h.call hidle ⟨rfl, hown.1, hown.2.1, rfl⟩

omit [DecidableEq Thief] in
/-- Calling `dequeue_front` loads `bottom`. -/
theorem InvAt.dequeueFront {s : State α Thief} {L H : List α} (h : InvAt s L H)
    (hidle : s.owner = .idle) :
    InvAt { s with owner := .frontBottom (s.queue.bottom - 1) } L H := by
  have hown := h.owner
  rw [hidle] at hown
  refine h.call hidle ⟨(sub_one_add_one _).symm, ?_, hown.2.1, rfl⟩
  rw [sub_one_add_one]
  exact hown.1

/-- **One step keeps the invariant**, unless a stale thief wins. -/
theorem inv_step {s s' : State α Thief} {a : Label α Thief} (hs : Inv s) (hok : Timely s a)
    (hstep : step s a = some s') : Inv s' := by
  obtain ⟨L, H, h⟩ := hs
  cases a with
  | enqueue data =>
    rw [step] at hstep
    split at hstep
    · rename_i hidle
      cases hstep
      exact ⟨L, H, h.enqueue hidle data⟩
    · cases hstep
  | dequeueFront =>
    rw [step] at hstep
    split at hstep
    · rename_i hidle
      cases hstep
      exact ⟨L, H, h.dequeueFront hidle⟩
    · cases hstep
  | owner =>
    obtain ⟨L', H', h', -⟩ := h.ownerStep hstep
    exact ⟨L', H', h'⟩
  | thief i =>
    cases hstep
    obtain ⟨L', h', -⟩ := h.thiefStep i hok
    exact ⟨L', H, h'⟩

/-- **The invariant holds along every run without a stale success.** -/
theorem Inv.of_run {s : State α Thief} (r : Run step Timely (init α Thief) s) : Inv s :=
  r.invariant inv_init fun _ _ _ hs hok hstep => inv_step hs hok hstep

/-! ## Reading the invariant -/

omit [DecidableEq Thief] in
/-- At rest, what is on offer is what the buffer stores. -/
theorem InvAt.stored {s : State α Thief} {L H : List α} (h : InvAt s L H)
    (hidle : s.owner = .idle) : L.map some = s.queue.stored ∧ H = [] := by
  have hown := h.owner
  rw [hidle] at hown
  obtain ⟨hb, hle, rfl⟩ := hown
  refine ⟨?_, rfl⟩
  have hlen : (s.queue.bottom - s.queue.top).toNat = L.length := by
    rw [hb, h.top, ← idx_add_idx, BitVec.add_comm, BitVec.add_sub_cancel, idx, BitVec.toNat_ofNat]
    omega
  refine List.ext_getElem (by simp [Deque.stored, hlen]) fun k hk _ => ?_
  rw [List.length_map] at hk
  simp only [Deque.stored, List.getElem_map, List.getElem_range]
  rw [h.top, show idx s.hist.advances + BitVec.ofNat 8 k = idx (s.hist.advances + k) from
    idx_add_idx _ _, slot_idx h.size]
  exact (h.holds k hk).symm

end Queue
end Partee
