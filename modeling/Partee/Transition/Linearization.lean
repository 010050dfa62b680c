import Partee.Transition.Object
import Mathlib.Data.List.Nodup
import Mathlib.Data.List.Pairwise
import Mathlib.Logic.Function.Basic
import Mathlib.Data.Nat.Notation
import Mathlib.Tactic.Common

/-!
# Linearizability

A *history* is the list of the calls and returns of several parties, in the order
in which they happened.  An *operation* of a history is a call together with an
answer: the one it has returned, or, for a call that is still pending, one that it
may be given.  A history is linearizable to a sequential object when some of its
operations can be put in a list such that

* the object, performing the calls of the list one after the other, gives their
  answers;
* an operation that has returned before another was called does not come after it;
* every operation that has returned successfully is in the list, once, and nothing
  else is but pending calls.

The predicate `success` on answers says which operations count; the others leave
no trace in the object.

## Commit points

`Traced` is the usual way to such a list.  Next to the history it keeps the phase
of every party: no call in progress, a call in progress, or a call that has been
committed with an answer that it is going to return.  A call is put in the list
when it commits, and it commits between its call and its return.
`Traced.linearization` says that the list is then a linearization.
-/

namespace Partee
namespace Transition

variable {σ P ι ρ : Type*}

/-- An event of a history. -/
inductive Event (P ι ρ : Type*) where
  | call (p : P) (c : ι)
  | ret (p : P) (r : ρ)

/-- Whose event it is. -/
def Event.party : Event P ι ρ → P
  | .call p _ => p
  | .ret p _ => p

/-- A call at some position of a history, with an answer. -/
@[ext]
structure Operation (P ι ρ : Type*) where
  party : P
  start : ℕ
  call : ι
  answer : ρ

/-- The call of `o` is in the history and has not returned. -/
def Pending (h : List (Event P ι ρ)) (o : Operation P ι ρ) : Prop :=
  h[o.start]? = some (.call o.party o.call) ∧
    ∀ k e, o.start < k → h[k]? = some e → e.party ≠ o.party

/-- The call of `o` has returned its answer at position `stop`. -/
def ReturnsAt (h : List (Event P ι ρ)) (o : Operation P ι ρ) (stop : ℕ) : Prop :=
  h[o.start]? = some (.call o.party o.call) ∧ h[stop]? = some (.ret o.party o.answer) ∧
    o.start < stop ∧ ∀ k e, o.start < k → k < stop → h[k]? = some e → e.party ≠ o.party

/-- `S` is a linearization of `h` to the object `f`, started in `x₀`, that ends in
`x`. -/
structure Linearization (f : Object σ ι ρ) (success : ρ → Prop) (x₀ : σ)
    (h : List (Event P ι ρ)) (S : List (Operation P ι ρ)) (x : σ) : Prop where
  legal : perform f (S.map (·.call)) x₀ = (S.map (·.answer), x)
  real_time : S.Pairwise fun o o' => ∀ stop, ReturnsAt h o' stop → ¬ stop < o.start
  complete : ∀ o stop, ReturnsAt h o stop → success o.answer → o ∈ S
  once : (S.map (·.start)).Nodup
  from_history : ∀ o ∈ S, success o.answer ∧ (Pending h o ∨ ∃ stop, ReturnsAt h o stop)

/-! ## One more event -/

variable {h : List (Event P ι ρ)} {o o' : Operation P ι ρ} {e : Event P ι ρ} {stop : ℕ}

theorem Pending.start_lt (hp : Pending h o) : o.start < h.length :=
  (List.getElem?_eq_some_iff.mp hp.1).1

theorem ReturnsAt.stop_lt (hr : ReturnsAt h o stop) : stop < h.length :=
  (List.getElem?_eq_some_iff.mp hr.2.1).1

/-- A pending call has not returned, whatever the answer. -/
theorem Pending.not_returnsAt (hp : Pending h o) (hparty : o'.party = o.party)
    (hstart : o'.start = o.start) : ¬ ReturnsAt h o' stop := by
  rintro ⟨-, hstop, hlt, -⟩
  exact hp.2 stop _ (by omega) hstop hparty

/-- A party has one pending call at most. -/
theorem Pending.unique (hp : Pending h o) (hp' : Pending h o') (hparty : o'.party = o.party) :
    o'.start = o.start ∧ o'.call = o.call := by
  have hstart : o'.start = o.start := by
    rcases Nat.lt_trichotomy o'.start o.start with hlt | heq | hgt
    · exact absurd hparty.symm (hp'.2 _ _ hlt hp.1)
    · exact heq
    · exact absurd hparty (hp.2 _ _ hgt hp'.1)
  have hcall := hp'.1
  rw [hstart, hp.1, Option.some.injEq, Event.call.injEq] at hcall
  exact ⟨hstart, hcall.2.symm⟩

/-- Two pending calls at one position are of one party. -/
theorem Pending.party_eq (hp : Pending h o) (hp' : Pending h o') (hstart : o'.start = o.start) :
    o'.party = o.party := by
  have hcall := hp'.1
  rw [hstart, hp.1, Option.some.injEq, Event.call.injEq] at hcall
  exact hcall.1.symm

/-- A call stays pending at an event of another party. -/
theorem Pending.concat (hp : Pending h o) (he : e.party ≠ o.party) : Pending (h ++ [e]) o := by
  refine ⟨by rw [List.getElem?_append_left hp.start_lt]; exact hp.1, fun k d hk hd => ?_⟩
  rcases Nat.lt_or_ge k h.length with hlt | hge
  · rw [List.getElem?_append_left hlt] at hd
    exact hp.2 k d hk hd
  · rw [List.getElem?_append_right hge, List.getElem?_singleton] at hd
    split at hd
    · cases hd
      exact he
    · cases hd

/-- A call that has just been made is pending. -/
theorem pending_call {p : P} {c : ι} {r : ρ} :
    Pending (h ++ [.call p c]) ⟨p, h.length, c, r⟩ := by
  refine ⟨by simp, fun k d hk hd => ?_⟩
  rw [List.getElem?_eq_none (by rw [List.length_append]; exact hk)] at hd
  cases hd

theorem ReturnsAt.concat (hr : ReturnsAt h o stop) : ReturnsAt (h ++ [e]) o stop := by
  have hlt := hr.stop_lt
  obtain ⟨hcall, hret, hstart, hbetween⟩ := hr
  refine ⟨?_, ?_, hstart, fun k d hk hks hd => ?_⟩
  · rw [List.getElem?_append_left (by omega)]
    exact hcall
  · rw [List.getElem?_append_left hlt]
    exact hret
  · rw [List.getElem?_append_left (by omega)] at hd
    exact hbetween k d hk hks hd

/-- The new return is the one of a pending call. -/
theorem returnsAt_concat (hr : ReturnsAt (h ++ [e]) o stop) :
    ReturnsAt h o stop ∨ stop = h.length ∧ e = .ret o.party o.answer ∧ Pending h o := by
  have hlt : stop < h.length + 1 := by simpa using hr.stop_lt
  obtain ⟨hcall, hret, hstart, hbetween⟩ := hr
  rw [List.getElem?_append_left (by omega)] at hcall
  have hbefore : ∀ k d, o.start < k → k < stop → h[k]? = some d → d.party ≠ o.party := by
    intro k d hk hks hd
    refine hbetween k d hk hks ?_
    rw [List.getElem?_append_left (by omega)]
    exact hd
  rcases Nat.lt_succ_iff_lt_or_eq.mp hlt with hlt | rfl
  · rw [List.getElem?_append_left hlt] at hret
    exact .inl ⟨hcall, hret, hstart, hbefore⟩
  · rw [List.getElem?_concat_length] at hret
    cases hret
    refine .inr ⟨rfl, rfl, hcall, fun k d hk hd => hbefore k d hk ?_ hd⟩
    exact (List.getElem?_eq_some_iff.mp hd).1

/-! ## Commit points -/

/-- What a party is doing: nothing, a call made at position `start`, or such a call
that has been committed with the answer `r`. -/
inductive Phase (ι ρ : Type*) where
  | idle
  | running (start : ℕ) (c : ι)
  | committed (start : ℕ) (c : ι) (r : ρ)

variable [DecidableEq P]

/-- Histories with commit points: the phases of the parties, the operations
committed so far, and the state of the object after them. -/
inductive Traced (f : Object σ ι ρ) (success : ρ → Prop) (x₀ : σ) :
    List (Event P ι ρ) → (P → Phase ι ρ) → List (Operation P ι ρ) → σ → Prop where
  | init : Traced f success x₀ [] (fun _ => .idle) [] x₀
  | call {h φ S x} (p : P) (c : ι) : Traced f success x₀ h φ S x → φ p = .idle →
      Traced f success x₀ (h ++ [.call p c]) (Function.update φ p (.running h.length c)) S x
  | commit {h φ S x k c r y} (p : P) : Traced f success x₀ h φ S x → φ p = .running k c →
      f x c = (r, y) → success r →
      Traced f success x₀ h (Function.update φ p (.committed k c r)) (S ++ [⟨p, k, c, r⟩]) y
  | ret {h φ S x k c r} (p : P) : Traced f success x₀ h φ S x → φ p = .committed k c r →
      Traced f success x₀ (h ++ [.ret p r]) (Function.update φ p .idle) S x
  | fail {h φ S x k c} (p : P) (r : ρ) : Traced f success x₀ h φ S x → φ p = .running k c →
      ¬ success r → Traced f success x₀ (h ++ [.ret p r]) (Function.update φ p .idle) S x

namespace Traced

variable {f : Object σ ι ρ} {success : ρ → Prop} {x₀ x : σ} {φ : P → Phase ι ρ}
  {S : List (Operation P ι ρ)}

/-- What the phases say about the history. -/
structure Sound (success : ρ → Prop) (h : List (Event P ι ρ)) (φ : P → Phase ι ρ)
    (S : List (Operation P ι ρ)) : Prop where
  running : ∀ p k c r, φ p = .running k c → Pending h ⟨p, k, c, r⟩ ∧ k ∉ S.map (·.start)
  committed : ∀ p k c r, φ p = .committed k c r → Pending h ⟨p, k, c, r⟩ ∧ ⟨p, k, c, r⟩ ∈ S
  listed : ∀ o ∈ S, success o.answer ∧
    (φ o.party = .committed o.start o.call o.answer ∨ ∃ stop, ReturnsAt h o stop)

omit [DecidableEq P] in
theorem Sound.start_lt (hs : Sound success h φ S) (ho : o ∈ S) : o.start < h.length := by
  rcases (hs.listed o ho).2 with hc | ⟨stop, hr⟩
  · exact (hs.committed _ _ _ _ hc).1.start_lt
  · exact Nat.lt_trans hr.2.2.1 hr.stop_lt

theorem Sound.call (hs : Sound success h φ S) {p : P} {c : ι} (hp : φ p = .idle) :
    Sound success (h ++ [.call p c]) (Function.update φ p (.running h.length c)) S := by
  refine ⟨fun q k d r hq => ?_, fun q k d r hq => ?_, fun o ho => ?_⟩
  · rcases eq_or_ne q p with rfl | hne
    · rw [Function.update_self] at hq
      cases hq
      refine ⟨pending_call, fun hmem => ?_⟩
      obtain ⟨o, ho, hlen⟩ := List.mem_map.mp hmem
      exact absurd (hs.start_lt ho) (by omega)
    · rw [Function.update_of_ne hne] at hq
      exact ⟨(hs.running q k d r hq).1.concat hne.symm, (hs.running q k d r hq).2⟩
  · rcases eq_or_ne q p with rfl | hne
    · rw [Function.update_self] at hq
      cases hq
    · rw [Function.update_of_ne hne] at hq
      exact ⟨(hs.committed q k d r hq).1.concat hne.symm, (hs.committed q k d r hq).2⟩
  · refine ⟨(hs.listed o ho).1, (hs.listed o ho).2.imp (fun hc => ?_) fun hr =>
      hr.imp fun _ => ReturnsAt.concat⟩
    rcases eq_or_ne o.party p with heq | hne
    · rw [heq, hp] at hc
      cases hc
    · rw [Function.update_of_ne hne]
      exact hc

theorem Sound.commit (hs : Sound success h φ S) {p : P} {k : ℕ} {c : ι} {r : ρ}
    (hp : φ p = .running k c) (hr : success r) :
    Sound success h (Function.update φ p (.committed k c r)) (S ++ [⟨p, k, c, r⟩]) := by
  refine ⟨fun q j d r' hq => ?_, fun q j d r' hq => ?_, fun o ho => ?_⟩
  · rcases eq_or_ne q p with rfl | hne
    · rw [Function.update_self] at hq
      cases hq
    · rw [Function.update_of_ne hne] at hq
      have hpq := (hs.running q j d r hq).1
      refine ⟨(hs.running q j d r' hq).1, fun hmem => ?_⟩
      rw [List.map_append, List.mem_append] at hmem
      rcases hmem with hmem | hmem
      · exact (hs.running q j d r' hq).2 hmem
      · have hjk : j = k := List.mem_singleton.mp hmem
        exact hne ((hs.running p k c r hp).1.party_eq hpq hjk)
  · rcases eq_or_ne q p with rfl | hne
    · rw [Function.update_self] at hq
      cases hq
      exact ⟨(hs.running q k c r hp).1, List.mem_append_right _ (List.mem_singleton_self _)⟩
    · rw [Function.update_of_ne hne] at hq
      exact ⟨(hs.committed q j d r' hq).1, List.mem_append_left _ (hs.committed q j d r' hq).2⟩
  · rcases List.mem_append.mp ho with ho | ho
    · refine ⟨(hs.listed o ho).1, (hs.listed o ho).2.imp_left fun hc => ?_⟩
      rcases eq_or_ne o.party p with heq | hne
      · rw [heq, hp] at hc
        cases hc
      · rw [Function.update_of_ne hne]
        exact hc
    · cases List.mem_singleton.mp ho
      exact ⟨hr, .inl (Function.update_self ..)⟩

/-- A call of `p` returns; if it has been committed, with the committed answer. -/
theorem Sound.ret (hs : Sound success h φ S) {p : P} {r : ρ}
    (hp : ∀ k c r', φ p = .committed k c r' → r' = r) :
    Sound success (h ++ [.ret p r]) (Function.update φ p .idle) S := by
  refine ⟨fun q k d r' hq => ?_, fun q k d r' hq => ?_, fun o ho => ?_⟩
  · rcases eq_or_ne q p with rfl | hne
    · rw [Function.update_self] at hq
      cases hq
    · rw [Function.update_of_ne hne] at hq
      exact ⟨(hs.running q k d r' hq).1.concat hne.symm, (hs.running q k d r' hq).2⟩
  · rcases eq_or_ne q p with rfl | hne
    · rw [Function.update_self] at hq
      cases hq
    · rw [Function.update_of_ne hne] at hq
      exact ⟨(hs.committed q k d r' hq).1.concat hne.symm, (hs.committed q k d r' hq).2⟩
  · refine ⟨(hs.listed o ho).1, ?_⟩
    rcases (hs.listed o ho).2 with hc | ⟨stop, hr⟩
    · rcases eq_or_ne o.party p with rfl | hne
      · have hpend := (hs.committed _ _ _ _ hc).1
        refine .inr ⟨h.length, ?_, ?_, hpend.start_lt, fun k d hk hlt hd => ?_⟩
        · rw [List.getElem?_append_left hpend.start_lt]
          exact hpend.1
        · rw [List.getElem?_concat_length, hp _ _ _ hc]
        · rw [List.getElem?_append_left hlt] at hd
          exact hpend.2 k d hk hd
      · exact .inl (by rw [Function.update_of_ne hne]; exact hc)
    · exact .inr ⟨stop, hr.concat⟩

theorem sound (ht : Traced f success x₀ h φ S x) : Sound success h φ S := by
  induction ht with
  | init =>
    refine ⟨fun p k c r hq => ?_, fun p k c r hq => ?_, fun _ ho => absurd ho List.not_mem_nil⟩
    · cases hq
    · cases hq
  | call p c _ hp ih => exact ih.call hp
  | commit p _ hp _ hr ih => exact ih.commit hp hr
  | ret p _ hp ih =>
    refine ih.ret fun k c r' hc => ?_
    rw [hp] at hc
    cases hc
    rfl
  | fail p r _ hp _ ih =>
    refine ih.ret fun k c r' hc => ?_
    rw [hp] at hc
    cases hc

omit [DecidableEq P] in
theorem Sound.from_history (hs : Sound success h φ S) (ho : o ∈ S) :
    success o.answer ∧ (Pending h o ∨ ∃ stop, ReturnsAt h o stop) :=
  ⟨(hs.listed o ho).1, (hs.listed o ho).2.imp_left fun hc => (hs.committed _ _ _ _ hc).1⟩

omit [DecidableEq P] in
/-- An event that happens now is not before the call of an operation in the list. -/
theorem Sound.real_time (hs : Sound success h φ S)
    (hrt : S.Pairwise fun o o' => ∀ stop, ReturnsAt h o' stop → ¬ stop < o.start) :
    S.Pairwise fun o o' => ∀ stop, ReturnsAt (h ++ [e]) o' stop → ¬ stop < o.start := by
  refine hrt.imp_of_mem fun {o o'} ho _ hbefore stop hr => ?_
  rcases returnsAt_concat hr with hr | ⟨rfl, -⟩
  · exact hbefore stop hr
  · have := hs.start_lt ho
    omega

/-- **The commit order is a linearization.** -/
theorem linearization (ht : Traced f success x₀ h φ S x) :
    Linearization f success x₀ h S x := by
  induction ht with
  | init =>
    exact ⟨rfl, .nil, fun _ _ hr => absurd hr.stop_lt (Nat.not_lt_zero _), .nil,
      fun _ ho => absurd ho List.not_mem_nil⟩
  | call p c ht hp ih =>
    refine ⟨ih.legal, ht.sound.real_time ih.real_time, fun o stop hr hok => ?_, ih.once,
      fun o => (ht.call p c hp).sound.from_history⟩
    rcases returnsAt_concat hr with hr | ⟨-, he, -⟩
    · exact ih.complete o stop hr hok
    · cases he
  | @commit h φ S x k c r y p ht hp hf hr ih =>
    have hpend := (ht.sound.running p k c r hp).1
    refine ⟨?_, ?_, fun o stop hs hok => List.mem_append_left _ (ih.complete o stop hs hok), ?_,
      fun o => (ht.commit p hp hf hr).sound.from_history⟩
    · simp only [List.map_append, List.map_cons, List.map_nil]
      rw [perform_concat, ih.legal, hf]
    · -- the new operation is the last and has not returned
      refine List.pairwise_append.mpr ⟨ih.real_time, List.pairwise_singleton _ _, ?_⟩
      intro o _ o' ho' stop hs
      cases List.mem_singleton.mp ho'
      exact absurd hs (hpend.not_returnsAt rfl rfl)
    · rw [List.map_append, List.nodup_append]
      refine ⟨ih.once, List.nodup_singleton _, fun j hj j' hj' heq => ?_⟩
      cases List.mem_singleton.mp hj'
      have hjk : j = k := heq
      exact (ht.sound.running p k c r hp).2 (hjk ▸ hj)
  | @ret h φ S x k c r p ht hp ih =>
    obtain ⟨hpend, hmem⟩ := ht.sound.committed p k c r hp
    refine ⟨ih.legal, ht.sound.real_time ih.real_time, fun o stop hr hok => ?_, ih.once,
      fun o => (ht.ret p hp).sound.from_history⟩
    rcases returnsAt_concat hr with hr | ⟨-, he, ho⟩
    · exact ih.complete o stop hr hok
    · -- the pending call of `p` is the one that has been committed
      rw [Event.ret.injEq] at he
      obtain ⟨hstart, hcall⟩ := hpend.unique ho he.1.symm
      rwa [show o = ⟨p, k, c, r⟩ from Operation.ext he.1.symm hstart hcall he.2.symm]
  | fail p r ht hp hr ih =>
    refine ⟨ih.legal, ht.sound.real_time ih.real_time, fun o stop hs hok => ?_, ih.once,
      fun o => (ht.fail p r hp hr).sound.from_history⟩
    rcases returnsAt_concat hs with hs | ⟨-, he, -⟩
    · exact ih.complete o stop hs hok
    · rw [Event.ret.injEq] at he
      exact absurd (he.2 ▸ hok) hr

end Traced
end Transition
end Partee
