import Partee.Queue.Sequential
import Partee.Transition.Linearization

/-!
# The deque is linearizable

The calls and returns of the deque functions are part of the steps of
`Queue.Model`: a function is called at its first access and returns at its last.
`logStep` records them.

`enqueue` commits at its store of `bottom`, `dequeue_back` at its successful
compare-and-swap.  `dequeue_front` commits at its compare-and-swap when one
element is left; when there are more it commits at its load of `top`, before it
has read the element: from there on no thief can reach the slot.  The element is
then the list `H` of the invariant, and the list `L` of the invariant is the
content of the abstract deque.

The only condition is that no compare-and-swap of a thief succeeds because `top`
has gone around.
-/

namespace Partee
namespace Queue

open Transition

variable {α Thief : Type*}

/-- Who calls the functions. -/
inductive Party (Thief : Type*) where
  | owner
  | thief (i : Thief)
  deriving DecidableEq

/-! ## Calls and returns -/

/-- The return that is part of an access of the owner. -/
def ownerEvents (s : State α Thief) : OwnerPc α → List (Event (Party Thief) (Call α) (Answer α))
  | .enqueueTop _ b =>
      if isFullQueue s.queue b s.queue.top then [.ret .owner (.enqueued false)] else []
  | .enqueueBottom _ _ => [.ret .owner (.enqueued true)]
  | .frontEmpty _ => [.ret .owner (.front none)]
  | .frontEntry b t =>
      if b ≠ t then [.ret .owner (.front (s.queue.entries (s.queue.slot b)))] else []
  | .frontRestore _ ret => [.ret .owner (.front ret)]
  | _ => []

/-- The call or return that is part of an access of thief `i`. -/
def thiefEvents (s : State α Thief) (i : Thief) :
    ThiefPc α → List (Event (Party Thief) (Call α) (Answer α))
  | .idle => [.call (.thief i) .dequeueBack]
  | .backBottom t => if isEmptyQueue s.queue.bottom t then [.ret (.thief i) .backEmpty] else []
  | .backEntry _ => []
  | .backCas t ret =>
      if s.queue.top = t then
        [.ret (.thief i) (.backTaken ret)]
      else
        [.ret (.thief i) .backContended]

/-- The call or return that is part of a step. -/
def events (s : State α Thief) :
    Label α Thief → List (Event (Party Thief) (Call α) (Answer α))
  | .enqueue data => [.call .owner (.enqueue data)]
  | .dequeueFront => [.call .owner .dequeueFront]
  | .owner => ownerEvents s s.owner
  | .thief i => thiefEvents s i (s.thief i)

/-- The events of a thief are its own. -/
theorem party_of_mem_thiefEvents {s : State α Thief} {i : Thief} {pc : ThiefPc α}
    {e : Event (Party Thief) (Call α) (Answer α)} (he : e ∈ thiefEvents s i pc) :
    e.party = .thief i := by
  cases pc <;> simp only [thiefEvents] at he <;> (try split at he) <;> simp at he <;> rw [he] <;> rfl

/-- The system with its history. -/
abbrev Logged (α Thief : Type*) :=
  State α Thief × List (Event (Party Thief) (Call α) (Answer α))

variable [DecidableEq Thief]

/-- One step of the system, recording the call or return. -/
def logStep (x : Logged α Thief) (a : Label α Thief) : Option (Logged α Thief) :=
  (step x.1 a).map fun s' => (s', x.2 ++ events x.1 a)

/-- No compare-and-swap of a thief succeeds after `top` has been advanced by a
positive multiple of 256 since the thief read it. -/
def NoWrapAround (x : Logged α Thief) : Label α Thief → Prop
  | .thief i =>
      match x.1.thief i with
      | .backCas t _ => x.1.queue.top = t →
          ¬ (x.1.hist.seen i < x.1.hist.advances ∧ 256 ∣ x.1.hist.advances - x.1.hist.seen i)
      | _ => True
  | _ => True

instance (x : Logged α Thief) (a : Label α Thief) : Decidable (NoWrapAround x a) :=
  match a with
  | .enqueue _ | .dequeueFront | .owner => .isTrue trivial
  | .thief i =>
      match h : x.1.thief i with
      | .backCas t _ =>
          decidable_of_iff (x.1.queue.top = t → ¬ (x.1.hist.seen i < x.1.hist.advances ∧
            256 ∣ x.1.hist.advances - x.1.hist.seen i)) (by rw [NoWrapAround, h])
      | .idle | .backBottom _ | .backEntry _ => .isTrue (by rw [NoWrapAround, h]; trivial)

/-! ## The phases of the calls -/

/-- What a program point of the owner says about its call; `H` is what it has set
aside. -/
def OwnerPhase (H : List α) (φ : Phase (Call α) (Answer α)) : OwnerPc α → Prop
  | .idle => φ = .idle
  | .enqueueTop data _ | .enqueueEntry data _ | .enqueueBottom data _ =>
      ∃ k, φ = .running k (.enqueue data)
  | .frontBottom _ | .frontTop _ | .frontEmpty _ => ∃ k, φ = .running k .dequeueFront
  | .frontEntry _ _ | .frontCas _ _ | .frontRestore _ _ =>
      ∃ k, H = [] ∧ φ = .running k .dequeueFront ∨
        ∃ x, H = [x] ∧ φ = .committed k .dequeueFront (.front (some x))

/-- What a program point of a thief says about its call. -/
def ThiefPhase (φ : Phase (Call α) (Answer α)) : ThiefPc α → Prop
  | .idle => φ = .idle
  | _ => ∃ k, φ = .running k .dequeueBack

/-- The history has been committed to the abstract deque `d`, whose elements are
those on offer. -/
structure Recorded (x : Logged α Thief) (φ : Party Thief → Phase (Call α) (Answer α))
    (S : List (Operation (Party Thief) (Call α) (Answer α)))
    (d : BoundedDeque maxQueueEntries α) (H : List α) : Prop where
  traced : Traced BoundedDeque.call Answer.Succeeds .empty x.2 φ S d
  inv : InvAt x.1 d.items H
  owner : OwnerPhase H (φ .owner) x.1.owner
  thieves : ∀ i, ThiefPhase (φ (.thief i)) (x.1.thief i)

theorem recorded_init :
    Recorded (init α Thief, []) (fun _ => .idle) [] .empty [] where
  traced := .init
  inv := ⟨rfl, rfl, fun _ h => absurd h (Nat.not_lt_zero _), ⟨rfl, Nat.zero_le _, rfl⟩,
    fun _ => trivial, .refl _⟩
  owner := rfl
  thieves _ := rfl

/-! ## The owner -/

omit [DecidableEq Thief] in
theorem ownerStep_thief {s s' : State α Thief} {pc : OwnerPc α}
    (h : ownerStep s pc = some s') : s'.thief = s.thief := by
  cases pc <;> simp only [ownerStep] at h <;> (try split at h) <;> cases h <;> rfl

namespace Recorded

variable {x : Logged α Thief} {φ : Party Thief → Phase (Call α) (Answer α)}
  {S S' : List (Operation (Party Thief) (Call α) (Answer α))}
  {d d' : BoundedDeque maxQueueEntries α} {H H' : List α} {s' : State α Thief}

/-- An access of the owner without an event. -/
theorem silent (hr : Recorded x φ S d H) (hi : InvAt s' d.items H')
    (ho : OwnerPhase H' (φ .owner) s'.owner) (hth : s'.thief = x.1.thief) :
    Recorded (s', x.2 ++ []) φ S d H' where
  traced := by rw [List.append_nil]; exact hr.traced
  inv := hi
  owner := ho
  thieves i := by rw [hth]; exact hr.thieves i

/-- An access of the owner that changes the phase of its call. -/
theorem of_owner (hr : Recorded x φ S d H) {ψ : Phase (Call α) (Answer α)}
    {h' : List (Event (Party Thief) (Call α) (Answer α))}
    (ht : Traced BoundedDeque.call Answer.Succeeds .empty h' (Function.update φ .owner ψ) S' d')
    (hi : InvAt s' d'.items H') (ho : OwnerPhase H' ψ s'.owner)
    (hth : s'.thief = x.1.thief) :
    Recorded (s', h') (Function.update φ .owner ψ) S' d' H' where
  traced := ht
  inv := hi
  owner := by rw [Function.update_self]; exact ho
  thieves i := by
    rw [Function.update_of_ne (by simp), hth]
    exact hr.thieves i

/-- The call of the owner returns without success. -/
theorem owner_fails (hr : Recorded x φ S d H) {k : ℕ} {c : Call α} {r : Answer α}
    (hφ : φ .owner = .running k c) (hfail : ¬ r.Succeeds) (hi : InvAt s' d.items H')
    (hidle : s'.owner = .idle) (hth : s'.thief = x.1.thief) :
    Recorded (s', x.2 ++ [.ret .owner r]) (Function.update φ .owner .idle) S d H' :=
  hr.of_owner (hr.traced.fail _ r hφ hfail) hi (by rw [hidle]; rfl) hth

/-- The call of the owner returns with the answer it has been committed with. -/
theorem owner_returns (hr : Recorded x φ S d H) {k : ℕ} {c : Call α} {r : Answer α}
    (hφ : φ .owner = .committed k c r) (hi : InvAt s' d.items H')
    (hidle : s'.owner = .idle) (hth : s'.thief = x.1.thief) :
    Recorded (s', x.2 ++ [.ret .owner r]) (Function.update φ .owner .idle) S d H' :=
  hr.of_owner (hr.traced.ret _ hφ) hi (by rw [hidle]; rfl) hth

theorem enqueue (hr : Recorded x φ S d H) (hidle : x.1.owner = .idle) (data : α) :
    ∃ φ', Recorded ({ x.1 with owner := .enqueueTop data x.1.queue.bottom },
      x.2 ++ [.call .owner (.enqueue data)]) φ' S d H := by
  have hφ : φ .owner = .idle := by
    have := hr.owner
    rwa [hidle] at this
  exact ⟨_, hr.of_owner (hr.traced.call _ _ hφ) (hr.inv.enqueue hidle data) ⟨_, rfl⟩ rfl⟩

theorem dequeueFront (hr : Recorded x φ S d H) (hidle : x.1.owner = .idle) :
    ∃ φ', Recorded ({ x.1 with owner := .frontBottom (x.1.queue.bottom - 1) },
      x.2 ++ [.call .owner .dequeueFront]) φ' S d H := by
  have hφ : φ .owner = .idle := by
    have := hr.owner
    rwa [hidle] at this
  exact ⟨_, hr.of_owner (hr.traced.call _ _ hφ) (hr.inv.dequeueFront hidle) ⟨_, rfl⟩ rfl⟩

/-- The newest element is set aside for the owner. -/
theorem sets_aside (hr : Recorded x φ S d H) {k : ℕ} (hφ : φ .owner = .running k .dequeueFront)
    {v : α} {L' : List α} (hL : d.items = L' ++ [v]) (hi : InvAt s' L' [v])
    (ho : ∀ ψ, OwnerPhase [v] ψ s'.owner ↔ ∃ k, ψ = .committed k .dequeueFront (.front (some v)))
    (hth : s'.thief = x.1.thief) :
    ∃ φ' S' d', Recorded (s', x.2 ++ []) φ' S' d' [v] := by
  let d' : BoundedDeque maxQueueEntries α := ⟨L', hi.owner.length_le⟩
  have hcall : d.call .dequeueFront = (.front (some v), d') :=
    BoundedDeque.call_dequeueFront_concat hL
  have hok : (Answer.front (some v)).Succeeds := Option.some_ne_none v
  rw [List.append_nil]
  exact ⟨_, _, d', hr.of_owner (hr.traced.commit _ hφ hcall hok) hi ((ho _).mpr ⟨k, rfl⟩) hth⟩

theorem ownerStep (hr : Recorded x φ S d H) (hstep : ownerStep x.1 x.1.owner = some s') :
    ∃ φ' S' d' H', Recorded (s', x.2 ++ ownerEvents x.1 x.1.owner) φ' S' d' H' := by
  obtain ⟨L', H', hi, hmoves⟩ := hr.inv.ownerStep hstep
  have hth := ownerStep_thief hstep
  have howner := hr.owner
  have hown := hr.inv.owner
  cases hpc : x.1.owner with
  | idle => simp [hpc, Queue.ownerStep] at hstep
  | enqueueTop data b =>
    rw [hpc] at hstep hmoves howner
    obtain ⟨rfl, rfl⟩ := hmoves
    obtain ⟨k, hφ⟩ := howner
    rw [Queue.ownerStep] at hstep
    rw [ownerEvents]
    split at hstep <;> rename_i hfull <;> cases hstep
    · rw [if_pos hfull]
      exact ⟨_, _, d, _, hr.owner_fails hφ Bool.false_ne_true hi rfl hth⟩
    · rw [if_neg hfull]
      exact ⟨_, _, d, _, hr.silent hi ⟨k, hφ⟩ hth⟩
  | enqueueEntry data b =>
    rw [hpc] at hstep hmoves howner
    obtain ⟨rfl, rfl⟩ := hmoves
    cases hstep
    exact ⟨_, _, d, _, hr.silent hi howner hth⟩
  | enqueueBottom data b =>
    rw [hpc] at hstep hmoves howner hown
    obtain ⟨rfl, rfl⟩ := hmoves
    obtain ⟨k, hφ⟩ := howner
    obtain ⟨-, -, hlt, -⟩ := hown
    cases hstep
    -- the store of `bottom` commits and returns
    let d' : BoundedDeque maxQueueEntries α := ⟨d.items ++ [data], hi.owner.length_le⟩
    have hcall : d.call (.enqueue data) = (.enqueued true, d') :=
      BoundedDeque.call_enqueue_of_lt hlt rfl
    have ht := (hr.traced.commit _ hφ hcall rfl).ret _ (Function.update_self ..)
    rw [Function.update_idem] at ht
    exact ⟨_, _, d', _, hr.of_owner ht hi rfl hth⟩
  | frontBottom b =>
    rw [hpc] at hstep hmoves howner
    obtain ⟨rfl, rfl⟩ := hmoves
    cases hstep
    exact ⟨_, _, d, _, hr.silent hi howner hth⟩
  | frontTop b =>
    rw [hpc] at hstep hmoves howner hown
    obtain ⟨k, hφ⟩ := howner
    obtain ⟨-, -, -, rfl⟩ := hown
    rw [Queue.ownerStep] at hstep
    rcases hmoves with ⟨rfl, rfl⟩ | ⟨v, hL, -, rfl⟩
    · split at hstep <;> cases hstep
      · exact ⟨_, _, d, _, hr.silent hi ⟨k, hφ⟩ hth⟩
      · exact ⟨_, _, d, _, hr.silent hi ⟨k, .inl ⟨rfl, hφ⟩⟩ hth⟩
    · split at hstep <;> cases hstep
      · -- the deque is not empty
        exact absurd hi.owner.2.2.2 (List.cons_ne_nil _ _)
      · obtain ⟨φ', S', d', hr'⟩ := hr.sets_aside hφ hL hi (by simp [OwnerPhase]) hth
        exact ⟨φ', S', d', _, hr'⟩
  | frontEmpty t =>
    rw [hpc] at hstep hmoves howner
    obtain ⟨rfl, rfl⟩ := hmoves
    obtain ⟨k, hφ⟩ := howner
    cases hstep
    exact ⟨_, _, d, _, hr.owner_fails hφ (fun h => h rfl) hi rfl hth⟩
  | frontEntry b t =>
    rw [hpc] at hstep hmoves howner hown
    obtain ⟨rfl, rfl⟩ := hmoves
    rw [Queue.ownerStep] at hstep
    rw [ownerEvents]
    obtain ⟨-, ⟨hne, hidx, -, v, rfl, hv⟩ | ⟨rfl, rfl, -⟩⟩ := hown
    · have hret : x.1.queue.entries (x.1.queue.slot b) = some v := by
        rw [hidx, slot_idx hr.inv.size, hv]
      obtain ⟨k, ⟨hnil, -⟩ | ⟨y, hy, hφ⟩⟩ := howner
      · exact absurd hnil (List.cons_ne_nil _ _)
      · cases hy
        simp only [hne, ne_eq, not_false_eq_true, if_true] at hstep
        cases hstep
        rw [← hret] at hφ
        rw [if_pos hne]
        exact ⟨_, _, d, _, hr.owner_returns hφ hi rfl hth⟩
    · simp only [ne_eq, not_true_eq_false, if_false] at hstep
      cases hstep
      rw [if_neg (not_not_intro rfl)]
      exact ⟨_, _, d, _, hr.silent hi howner hth⟩
  | frontCas t ret =>
    rw [hpc] at hstep hmoves howner hown
    obtain ⟨-, rfl, -⟩ := hown
    obtain ⟨k, ⟨-, hφ⟩ | ⟨y, hy, -⟩⟩ := howner
    · rw [Queue.ownerStep] at hstep
      rcases hmoves with ⟨rfl, rfl⟩ | ⟨v, hL, -, rfl⟩
      · split at hstep <;> cases hstep
        · exact ⟨_, _, d, _, hr.silent hi ⟨k, .inl ⟨rfl, hφ⟩⟩ hth⟩
        · exact ⟨_, _, d, _, hr.silent hi ⟨k, .inl ⟨rfl, hφ⟩⟩ hth⟩
      · split at hstep <;> cases hstep
        · obtain ⟨φ', S', d', hr'⟩ := hr.sets_aside hφ hL hi (by simp [OwnerPhase]) hth
          exact ⟨φ', S', d', _, hr'⟩
        · obtain ⟨φ', S', d', hr'⟩ := hr.sets_aside hφ hL hi (by simp [OwnerPhase]) hth
          exact ⟨φ', S', d', _, hr'⟩
    · exact absurd hy.symm (List.cons_ne_nil _ _)
  | frontRestore t ret =>
    rw [hpc] at hstep hmoves howner hown
    obtain ⟨rfl, rfl⟩ := hmoves
    obtain ⟨-, -, -, rfl⟩ := hown
    cases hstep
    cases ret with
    | none =>
      obtain ⟨k, ⟨-, hφ⟩ | ⟨v, hv, -⟩⟩ := howner
      · exact ⟨_, _, d, _, hr.owner_fails hφ (fun h => h rfl) hi rfl hth⟩
      · exact absurd hv.symm (List.cons_ne_nil _ _)
    | some v =>
      obtain ⟨k, ⟨hnil, -⟩ | ⟨w, hw, hφ⟩⟩ := howner
      · exact absurd hnil (List.cons_ne_nil _ _)
      · cases hw
        exact ⟨_, _, d, _, hr.owner_returns hφ hi rfl hth⟩

/-! ## The thieves -/

/-- An access of thief `i`. -/
theorem of_thief (hr : Recorded x φ S d H) {i : Thief} (pc : ThiefPc α)
    {ψ : Phase (Call α) (Answer α)} {h' : List (Event (Party Thief) (Call α) (Answer α))}
    (ht : Traced BoundedDeque.call Answer.Succeeds .empty h'
      (Function.update φ (.thief i) ψ) S' d')
    (hi : InvAt s' d'.items H) (hpc : ThiefPhase ψ pc)
    (hth : s'.thief = Function.update x.1.thief i pc) (ho : s'.owner = x.1.owner) :
    Recorded (s', h') (Function.update φ (.thief i) ψ) S' d' H where
  traced := ht
  inv := hi
  owner := by
    rw [Function.update_of_ne (by simp), ho]
    exact hr.owner
  thieves j := by
    rw [hth]
    rcases eq_or_ne j i with rfl | hji
    · rw [Function.update_self, Function.update_self]
      exact hpc
    · rw [Function.update_of_ne hji, Function.update_of_ne (by simpa using hji)]
      exact hr.thieves j

/-- An access of thief `i` without an event, and without success. -/
theorem thief_silent (hr : Recorded x φ S d H) {i : Thief} (pc : ThiefPc α)
    (hi : InvAt s' d.items H) (hpc : ThiefPhase (φ (.thief i)) pc)
    (hth : s'.thief = Function.update x.1.thief i pc) (ho : s'.owner = x.1.owner) :
    Recorded (s', x.2 ++ []) φ S d H := by
  have ht := hr.traced
  rw [← Function.update_eq_self (Party.thief i) φ] at ht
  have hr' := hr.of_thief pc ht hi hpc hth ho
  rwa [Function.update_eq_self, ← List.append_nil x.2] at hr'

/-- The call of thief `i` returns without success. -/
theorem thief_fails (hr : Recorded x φ S d H) {i : Thief} {k : ℕ} {c : Call α} {r : Answer α}
    (hφ : φ (.thief i) = .running k c) (hfail : ¬ r.Succeeds) (hi : InvAt s' d.items H)
    (hth : s'.thief = Function.update x.1.thief i .idle) (ho : s'.owner = x.1.owner) :
    Recorded (s', x.2 ++ [.ret (.thief i) r]) (Function.update φ (.thief i) .idle) S d H :=
  hr.of_thief .idle (hr.traced.fail _ r hφ hfail) hi rfl hth ho

theorem thiefStep (hr : Recorded x φ S d H) (i : Thief) (hok : Timely x.1 (.thief i)) :
    ∃ φ' S' d', Recorded (thiefStep x.1 i (x.1.thief i),
      x.2 ++ thiefEvents x.1 i (x.1.thief i)) φ' S' d' H := by
  obtain ⟨L', hi, hmoves⟩ := hr.inv.thiefStep i hok
  have hthief := hr.thieves i
  cases hpc : x.1.thief i with
  | idle =>
    rw [hpc] at hi hmoves hthief
    obtain rfl : L' = d.items := hmoves
    have hidle : φ (.thief i) = .idle := hthief
    have ht := hr.traced.call _ Call.dequeueBack hidle
    exact ⟨_, _, d, hr.of_thief (.backBottom x.1.queue.top) ht hi ⟨_, rfl⟩ rfl rfl⟩
  | backBottom t =>
    rw [hpc] at hi hmoves hthief
    obtain rfl : L' = d.items := hmoves
    obtain ⟨k, hφ⟩ := hthief
    rw [Queue.thiefStep] at hi ⊢
    rw [thiefEvents]
    split <;> rename_i hempty
    · rw [if_pos hempty] at hi
      exact ⟨_, _, d, hr.thief_fails hφ id hi rfl rfl⟩
    · rw [if_neg hempty] at hi
      exact ⟨_, _, d, hr.thief_silent (.backEntry t) hi ⟨k, hφ⟩ rfl rfl⟩
  | backEntry t =>
    rw [hpc] at hi hmoves hthief
    obtain rfl : L' = d.items := hmoves
    exact ⟨_, _, d, hr.thief_silent (.backCas t _) hi hthief rfl rfl⟩
  | backCas t ret =>
    rw [hpc] at hi hmoves hthief
    obtain ⟨k, hφ⟩ := hthief
    simp only [Queue.thiefStep, ThiefMoves, thiefEvents] at hi hmoves ⊢
    split <;> rename_i htop
    · -- the compare-and-swap commits and returns
      rw [if_pos htop] at hi hmoves
      obtain ⟨v, hL, rfl⟩ := hmoves
      let d' : BoundedDeque maxQueueEntries α := ⟨L', hi.owner.length_le⟩
      have hcall : d.call .dequeueBack = (.backTaken (some v), d') :=
        BoundedDeque.call_dequeueBack_cons hL
      have ht := (hr.traced.commit _ hφ hcall trivial).ret _ (Function.update_self ..)
      rw [Function.update_idem] at ht
      exact ⟨_, _, d', hr.of_thief .idle ht hi rfl rfl rfl⟩
    · rw [if_neg htop] at hi hmoves
      obtain rfl : L' = d.items := hmoves
      exact ⟨_, _, d, hr.thief_fails hφ id hi rfl rfl⟩

end Recorded

/-! ## Runs -/

omit [DecidableEq Thief] in
/-- A compare-and-swap of a thief that succeeds without a wrap-around is timely: the
eight bits it compares are those of the number of times `top` has been advanced. -/
theorem timely_of_noWrapAround {x : Logged α Thief} {L H : List α} (hi : InvAt x.1 L H)
    {a : Label α Thief} (hok : NoWrapAround x a) : Timely x.1 a := by
  cases a with
  | thief i =>
    have hthief := hi.thieves i
    cases hpc : x.1.thief i with
    | backCas t ret =>
      simp only [NoWrapAround, Timely, hpc] at hok hthief ⊢
      intro htop
      obtain ⟨hle, rfl, -⟩ := hthief
      rw [hi.top, idx_eq_idx] at htop
      have hwrap := hok (by rw [hi.top, idx_eq_idx]; exact htop)
      omega
    | _ => simp only [Timely, hpc]
  | _ => trivial

theorem Recorded.step {x y : Logged α Thief} {φ : Party Thief → Phase (Call α) (Answer α)}
    {S : List (Operation (Party Thief) (Call α) (Answer α))}
    {d : BoundedDeque maxQueueEntries α} {H : List α} (hr : Recorded x φ S d H)
    {a : Label α Thief} (hok : NoWrapAround x a) (hstep : logStep x a = some y) :
    ∃ φ' S' d' H', Recorded y φ' S' d' H' := by
  obtain ⟨s', hs', rfl⟩ := Option.map_eq_some_iff.mp hstep
  cases a with
  | enqueue data =>
    rw [Queue.step] at hs'
    split at hs' <;> rename_i hidle <;> cases hs'
    obtain ⟨φ', hr'⟩ := hr.enqueue hidle data
    exact ⟨φ', S, d, H, hr'⟩
  | dequeueFront =>
    rw [Queue.step] at hs'
    split at hs' <;> rename_i hidle <;> cases hs'
    obtain ⟨φ', hr'⟩ := hr.dequeueFront hidle
    exact ⟨φ', S, d, H, hr'⟩
  | owner => exact hr.ownerStep hs'
  | thief i =>
    cases hs'
    obtain ⟨φ', S', d', hr'⟩ := hr.thiefStep i (timely_of_noWrapAround hr.inv hok)
    exact ⟨φ', S', d', H, hr'⟩

theorem recorded_of_run {x : Logged α Thief}
    (r : Run logStep NoWrapAround (init α Thief, []) x) : ∃ φ S d H, Recorded x φ S d H := by
  refine r.invariant (I := fun x => ∃ φ S d H, Recorded x φ S d H) ⟨_, _, _, _, recorded_init⟩ ?_
  rintro x a y ⟨φ, S, d, H, hr⟩ hok hstep
  exact hr.step hok hstep

/-! ## Refusals -/

omit [DecidableEq Thief] in
/-- `enqueue` refuses on the value of `top` that it reads in this step, and then 128
elements are stored. -/
theorem InvAt.stored_of_refusal {s : State α Thief} {d : BoundedDeque maxQueueEntries α}
    {H : List α} (hi : InvAt s d.items H) {a : Label α Thief}
    (hret : .ret .owner (.enqueued false) ∈ events s a) :
    s.queue.stored = d.items.map some ∧ d.items.length = 128 := by
  cases a with
  | owner =>
    have hown := hi.owner
    cases hpc : s.owner with
    | enqueueTop data b =>
      rw [hpc] at hown
      obtain ⟨rfl, hidx, hle, -⟩ := hown
      have hrep : RepresentsAt s.queue s.hist.advances d := ⟨hi.size, hi.top, hidx, hi.holds⟩
      simp only [events, hpc, ownerEvents] at hret
      split at hret <;> rename_i hfull
      · exact ⟨hrep.stored, hrep.isFull.mp hfull⟩
      · cases hret
    | _ => simp [events, hpc, ownerEvents] at hret
  | thief i => exact absurd (party_of_mem_thiefEvents hret) (by simp [Event.party])
  | _ => simp [events] at hret

omit [DecidableEq Thief] in
/-- When `dequeue_front` returns `NULL`, `isEmpty_Queue` holds. -/
theorem InvAt.isEmpty_of_null {s s' : State α Thief} {L H : List α} (hi : InvAt s L H)
    (hstep : Queue.ownerStep s s.owner = some s')
    (hret : .ret .owner (.front none) ∈ ownerEvents s s.owner) :
    isEmptyQueue s'.queue.bottom s'.queue.top = true := by
  have hown := hi.owner
  obtain ⟨L', H', hi', hmoves⟩ := hi.ownerStep hstep
  suffices hnil : L' = [] by
    subst hnil
    rw [hi'.top]
    exact hi'.owner.isEmpty
  cases hpc : s.owner with
  | frontEmpty t =>
    rw [hpc] at hown hmoves
    rw [hmoves.1, hown.2.2.1]
  | frontRestore t ret =>
    rw [hpc] at hown hmoves
    rw [hmoves.1, hown.2.2.1]
  | frontEntry b t =>
    -- with more than one element there is an entry to return
    rw [hpc] at hown hret
    simp only [ownerEvents] at hret
    split at hret <;> rename_i hne
    · obtain ⟨-, ⟨-, hidx, -, v, -, hv⟩ | ⟨heq, -⟩⟩ := hown
      · rw [hidx, slot_idx hi.size, hv] at hret
        simp at hret
      · exact absurd heq hne
    · cases hret
  | enqueueTop data b =>
    rw [hpc] at hret
    simp only [ownerEvents] at hret
    split at hret <;> simp at hret
  | _ => simp [hpc, ownerEvents] at hret

/-- **The deque is linearizable**, in every run in which no compare-and-swap of a
thief succeeds after `top` has been advanced by a positive multiple of 256 since the
thief read it.  The successful operations are those of a double-ended queue of
capacity 128; `enqueue` refuses only when 128 elements are stored at its read of
`top`; `dequeue_front` returns `NULL` only if `isEmpty_Queue` holds when it
returns. -/
theorem deque_linearizable {x : Logged α Thief}
    (r : Run logStep NoWrapAround (init α Thief, []) x) :
    ∃ S, ∃ d : BoundedDeque maxQueueEntries α,
      Linearization BoundedDeque.call Answer.Succeeds .empty x.2 S d ∧
      (∀ a, .ret .owner (.enqueued false) ∈ events x.1 a →
        x.1.queue.stored = d.items.map some ∧ d.items.length = 128) ∧
      ∀ a y, logStep x a = some y → .ret .owner (.front none) ∈ events x.1 a →
        isEmptyQueue y.1.queue.bottom y.1.queue.top = true := by
  obtain ⟨φ, S, d, H, hr⟩ := recorded_of_run r
  refine ⟨S, d, hr.traced.linearization, fun a => hr.inv.stored_of_refusal, fun a y hstep hret => ?_⟩
  obtain ⟨s', hs', rfl⟩ := Option.map_eq_some_iff.mp hstep
  cases a with
  | owner => exact hr.inv.isEmpty_of_null hs' hret
  | thief i => exact absurd (party_of_mem_thiefEvents hret) (by simp [Event.party])
  | _ => simp [events] at hret

/-- Task 1 is taken by a thief while the owner adds task 2 and takes it back; then
the owner finds the deque empty. -/
theorem deque_linearizable_example :
    ∃ x : Logged ℕ Unit, Run logStep NoWrapAround (init ℕ Unit, []) x ∧
      x.2 = [.call .owner (.enqueue 1), .ret .owner (.enqueued true),
        .call (.thief ()) .dequeueBack, .call .owner (.enqueue 2), .ret .owner (.enqueued true),
        .call .owner .dequeueFront, .ret (.thief ()) (.backTaken (some 1)),
        .ret .owner (.front (some 2)), .call .owner .dequeueFront] ∧
      (∃ S, ∃ d : BoundedDeque maxQueueEntries ℕ,
        Linearization BoundedDeque.call Answer.Succeeds .empty x.2 S d) ∧
      ∃ y, logStep x .owner = some y ∧ isEmptyQueue y.1.queue.bottom y.1.queue.top = true := by
  obtain ⟨x, r, hx, y, hy, hret⟩ : ∃ x : Logged ℕ Unit,
      Run logStep NoWrapAround (init ℕ Unit, []) x ∧
      x.2 = [.call .owner (.enqueue 1), .ret .owner (.enqueued true),
        .call (.thief ()) .dequeueBack, .call .owner (.enqueue 2), .ret .owner (.enqueued true),
        .call .owner .dequeueFront, .ret (.thief ()) (.backTaken (some 1)),
        .ret .owner (.front (some 2)), .call .owner .dequeueFront] ∧
      ∃ y, logStep x .owner = some y ∧ .ret .owner (.front none) ∈ events x.1 .owner :=
    Run.exists_of_exec (l := [.enqueue 1, .owner, .owner, .owner, .thief (), .thief (),
      .enqueue 2, .owner, .owner, .owner, .dequeueFront, .owner, .thief (), .owner, .thief (),
      .owner, .dequeueFront, .owner, .owner]) ⟨_, rfl, rfl, _, rfl, .head _⟩
  obtain ⟨S, d, hlin, -, hnull⟩ := deque_linearizable r
  exact ⟨x, r, hx, ⟨S, d, hlin⟩, y, hy, hnull _ y hy hret⟩

end Queue
end Partee
