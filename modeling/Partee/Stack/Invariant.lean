import Partee.Stack.Model
import Mathlib.Data.List.Nodup
import Mathlib.Tactic.Common

/-!
# Nothing is lost across the lock

Behind the pointers stands the list `c` of the nodes that are linked, from the
head of the stack or, once it is locked, from the node at which `stack_pop`
stands.  A node is in this list, or private to one pusher, or in the hands of the
thread that pops, and never two of these.  A pusher that is about to
compare-and-swap has its node filled in, with the value it compares in `next`, so
that a success puts the node in front of exactly the list it points to; this is
why it does not matter how stale a value of `top` was before.

What has been popped and what is still linked make up the tasks of the successful
pushes, the latest first.
-/

namespace Partee
namespace Stack

open Transition

variable {P Addr α : Type*}

/-! ## The linked list -/

/-- From `ptr` the nodes and tasks of `c` are linked, up to `NULL`. -/
def Chain (nodes : Addr → Node Addr α) (ptr : Ptr Addr) : List (Addr × α) → Prop
  | [] => ptr = .null
  | (a, x) :: c => ptr = .node a ∧ (nodes a).task = some x ∧ Chain nodes (nodes a).next c

/-- Only the nodes of the list matter. -/
theorem Chain.congr {nodes nodes' : Addr → Node Addr α} {ptr : Ptr Addr} {c : List (Addr × α)}
    (h : Chain nodes ptr c) (heq : ∀ a ∈ c.map Prod.fst, nodes' a = nodes a) :
    Chain nodes' ptr c := by
  induction c generalizing ptr with
  | nil => exact h
  | cons y c ih =>
    obtain ⟨hptr, htask, hnext⟩ := h
    rw [List.map_cons, List.forall_mem_cons] at heq
    rw [← heq.1] at htask hnext
    exact ⟨hptr, htask, ih hnext heq.2⟩

theorem Chain.ne_locked {nodes : Addr → Node Addr α} {ptr : Ptr Addr} {c : List (Addr × α)}
    (h : Chain nodes ptr c) : ptr ≠ .locked := by
  rintro rfl
  cases c with
  | nil => cases h
  | cons y c => cases h.1

/-! ## What each program point holds -/

/-- The node a pusher has allocated. -/
def PushPc.tmp : PushPc Addr α → Option Addr
  | .bzero _ _ tmp | .storeTask _ _ tmp | .storeNext _ _ tmp | .cas _ _ tmp | .free _ tmp =>
      some tmp
  | .idle | .malloc _ _ => none

/-- The node `stack_pop` has taken off the list and not yet freed. -/
def LockPc.tmp : LockPc Addr α → Option Addr
  | .popNext tmp _ _ | .popFree tmp _ _ _ => some tmp
  | _ => none

/-- The tasks taken off the list so far. -/
def LockPc.taken : LockPc Addr α → List (Option α)
  | .load | .cas _ => []
  | .popTask _ popped | .done popped => popped
  | .popNext _ task popped | .popFree _ task _ popped => popped ++ [task]

/-- `stack_lock` has returned. -/
def LockPc.HasLocked : LockPc Addr α → Prop
  | .load | .cas _ => False
  | _ => True

/-- Where the linked nodes start. -/
def State.head (s : State P Addr α) : Ptr Addr :=
  match s.locker with
  | .load | .cas _ => s.top
  | .popTask head _ => head
  | .popNext tmp _ _ => (s.nodes tmp).next
  | .popFree _ _ next _ => next
  | .done _ => .null

/-- What a pusher has stored in its node. -/
def PushOk (nodes : Addr → Node Addr α) : PushPc Addr α → Prop
  | .storeNext task _ tmp => (nodes tmp).task = some task
  | .cas task top tmp => nodes tmp = ⟨some task, top⟩ ∧ top ≠ .locked
  | _ => True

/-- The invariant, with the list of the linked nodes explicit. -/
structure InvAt (s : State P Addr α) (c : List (Addr × α)) : Prop where
  chain : Chain s.nodes s.head c
  nodup : (c.map Prod.fst).Nodup
  linked : ∀ a ∈ c.map Prod.fst, s.allocated a = true
  pushing : ∀ p a, (s.pusher p).tmp = some a →
    s.allocated a = true ∧ a ∉ c.map Prod.fst ∧ ∀ q, (s.pusher q).tmp = some a → q = p
  popping : ∀ a, s.locker.tmp = some a →
    s.allocated a = true ∧ a ∉ c.map Prod.fst ∧ ∀ p, (s.pusher p).tmp ≠ some a
  pushers : ∀ p, PushOk s.nodes (s.pusher p)
  order : s.locker.taken ++ c.map (fun y => some y.2) = s.won.map some
  locked : s.top = .locked ↔ s.locker.HasLocked

theorem inv_init (nodes : Addr → Node Addr α) : InvAt (init nodes : State P Addr α) [] where
  chain := rfl
  nodup := .nil
  linked _ h := absurd h List.not_mem_nil
  pushing _ _ h := by cases h
  popping _ h := by cases h
  pushers _ := trivial
  order := rfl
  locked := by simp [init, LockPc.HasLocked]

/-! ## Pushers -/

variable [DecidableEq P]

/-- The private moves of pusher `p`: it writes and frees its own node only, and
allocates one that was free. -/
theorem InvAt.push {s : State P Addr α} {c : List (Addr × α)} (h : InvAt s c) {p : P}
    {pc : PushPc Addr α} {nodes : Addr → Node Addr α} {allocated : Addr → Bool}
    {returns : List (Return P α)}
    (hnodes : ∀ a, (s.pusher p).tmp ≠ some a → nodes a = s.nodes a)
    (halloc : ∀ a, (s.pusher p).tmp ≠ some a → s.allocated a = true → allocated a = true)
    (hpc : PushOk nodes pc)
    (htmp : ∀ a, pc.tmp = some a →
      allocated a = true ∧ ((s.pusher p).tmp = some a ∨ s.allocated a = false))
    (hwon : (returns.filter (·.code)).map (·.task) = s.won) :
    InvAt { s with
      nodes := nodes
      allocated := allocated
      pusher := Function.update s.pusher p pc
      returns := returns } c := by
  have hlinked : ∀ a ∈ c.map Prod.fst, (s.pusher p).tmp ≠ some a :=
    fun a ha hp => (h.pushing p a hp).2.1 ha
  have hpopping : ∀ a, s.locker.tmp = some a → (s.pusher p).tmp ≠ some a :=
    fun a ha => (h.popping a ha).2.2 p
  have hother : ∀ q a, q ≠ p → (s.pusher q).tmp = some a → (s.pusher p).tmp ≠ some a :=
    fun q a hq ha hp => hq ((h.pushing p a hp).2.2 q ha)
  -- the node of `p` was its own before, or nobody's
  have hmine : ∀ a, pc.tmp = some a → a ∉ c.map Prod.fst ∧ s.locker.tmp ≠ some a ∧
      ∀ q, q ≠ p → (s.pusher q).tmp ≠ some a := by
    intro a ha
    rcases (htmp a ha).2 with hp | hfree
    · exact ⟨(h.pushing p a hp).2.1, fun hl => hpopping a hl hp, fun q hq hqa => hother q a hq hqa hp⟩
    · refine ⟨fun hc => ?_, fun hl => ?_, fun q _ hqa => ?_⟩
      · exact Bool.false_ne_true (hfree.symm.trans (h.linked a hc))
      · exact Bool.false_ne_true (hfree.symm.trans (h.popping a hl).1)
      · exact Bool.false_ne_true (hfree.symm.trans (h.pushing q a hqa).1)
  refine ⟨?_, h.nodup, fun a ha => halloc a (hlinked a ha) (h.linked a ha), fun q a hq => ?_,
    fun a ha => ⟨halloc a (hpopping a ha) (h.popping a ha).1, (h.popping a ha).2.1, fun q hq => ?_⟩,
    fun q => ?_, ?_, h.locked⟩
  · have hhead : State.head { s with
        nodes := nodes
        allocated := allocated
        pusher := Function.update s.pusher p pc
        returns := returns } = s.head := by
      simp only [State.head]
      split <;> try rfl
      rename_i tmp task popped hl
      exact congrArg Node.next (hnodes tmp (hpopping tmp (by rw [hl]; rfl)))
    rw [hhead]
    exact h.chain.congr fun a ha => hnodes a (hlinked a ha)
  · rcases eq_or_ne q p with rfl | hqp
    · simp only [Function.update_self] at hq
      refine ⟨(htmp a hq).1, (hmine a hq).1, fun q' hq' => ?_⟩
      by_contra hne
      simp only [Function.update_of_ne hne] at hq'
      exact (hmine a hq).2.2 q' hne hq'
    · simp only [Function.update_of_ne hqp] at hq
      refine ⟨halloc a (hother q a hqp hq) (h.pushing q a hq).1, (h.pushing q a hq).2.1,
        fun q' hq' => ?_⟩
      rcases eq_or_ne q' p with rfl | hq'p
      · simp only [Function.update_self] at hq'
        exact absurd hq ((hmine a hq').2.2 q hqp)
      · simp only [Function.update_of_ne hq'p] at hq'
        exact (h.pushing q a hq).2.2 q' hq'
  · rcases eq_or_ne q p with rfl | hqp
    · simp only [Function.update_self] at hq
      exact (hmine a hq).2.1 ha
    · simp only [Function.update_of_ne hqp] at hq
      exact (h.popping a ha).2.2 q hq
  · rcases eq_or_ne q p with rfl | hqp
    · simp only [Function.update_self]
      exact hpc
    · simp only [Function.update_of_ne hqp]
      have hq := h.pushers q
      cases hpcq : s.pusher q with
      | storeNext task top tmp =>
        have htmpq : (s.pusher q).tmp = some tmp := by rw [hpcq]; rfl
        rw [hpcq] at hq
        simp only [PushOk, hnodes tmp (hother q tmp hqp htmpq)]
        exact hq
      | cas task top tmp =>
        have htmpq : (s.pusher q).tmp = some tmp := by rw [hpcq]; rfl
        rw [hpcq] at hq
        simp only [PushOk, hnodes tmp (hother q tmp hqp htmpq)]
        exact hq
      | _ => trivial
  · rw [State.won, hwon]
    exact h.order

/-- A pusher that is private to its node writes it. -/
theorem InvAt.store [DecidableEq Addr] {s : State P Addr α} {c : List (Addr × α)}
    (h : InvAt s c) {p : P} {tmp : Addr} (hp : (s.pusher p).tmp = some tmp) (n : Node Addr α)
    {pc : PushPc Addr α} (hpc : PushOk (Function.update s.nodes tmp n) pc)
    (htmp : pc.tmp = some tmp) : InvAt ((s.store tmp n).setPusher p pc) c := by
  refine h.push (fun a ha => Function.update_of_ne ?_ _ _) (fun _ _ ha => ha) hpc ?_ rfl
  · rintro rfl
    exact ha hp
  · intro a ha
    rw [htmp] at ha
    cases ha
    exact ⟨(h.pushing p tmp hp).1, .inl hp⟩

/-- The successful compare-and-swap puts the node of `p` in front. -/
theorem InvAt.cas [DecidableEq Addr] {s : State P Addr α} {c : List (Addr × α)}
    (h : InvAt s c) {p : P} {task : α} {tmp : Addr}
    (hpc : s.pusher p = .cas task s.top tmp) :
    InvAt ({ s with top := .node tmp }.return p task true) ((tmp, task) :: c) := by
  have hok := h.pushers p
  rw [hpc] at hok
  obtain ⟨hnode, htop⟩ := hok
  have htmp : (s.pusher p).tmp = some tmp := by rw [hpc]; rfl
  obtain ⟨halloc, hfresh, honly⟩ := h.pushing p tmp htmp
  have hunlocked : ¬ s.locker.HasLocked := fun hl => htop (h.locked.mpr hl)
  have hhead : s.head = s.top := by
    cases hl : s.locker <;> simp_all [State.head, LockPc.HasLocked]
  have hhead' : ({ s with top := .node tmp }.return p task true).head = .node tmp := by
    cases hl : s.locker <;> simp_all [State.head, State.return, State.setPusher, LockPc.HasLocked]
  have hnil : s.locker.taken = [] ∧ s.locker.tmp = none := by
    cases hl : s.locker <;> simp_all [LockPc.HasLocked, LockPc.taken, LockPc.tmp]
  -- the other pushers keep their nodes, and `p` gives its node up
  have hpusher : ∀ q a, (Function.update s.pusher p .idle q).tmp = some a →
      (s.pusher q).tmp = some a ∧ a ≠ tmp := by
    intro q a hq
    rcases eq_or_ne q p with rfl | hqp
    · rw [Function.update_self] at hq
      cases hq
    · rw [Function.update_of_ne hqp] at hq
      refine ⟨hq, ?_⟩
      rintro rfl
      exact hqp (honly q hq)
  refine ⟨?_, ?_, ?_, fun q a hq => ?_, fun a ha => ?_, fun q => ?_, ?_, ?_⟩
  · rw [hhead']
    refine ⟨rfl, by rw [State.return, State.setPusher, hnode], ?_⟩
    rw [State.return, State.setPusher, hnode, ← hhead]
    exact h.chain
  · exact List.nodup_cons.mpr ⟨hfresh, h.nodup⟩
  · exact List.forall_mem_cons.mpr ⟨halloc, h.linked⟩
  · obtain ⟨hq, hne⟩ := hpusher q a hq
    refine ⟨(h.pushing q a hq).1, ?_, fun q' hq' => ?_⟩
    · rw [List.map_cons, List.mem_cons, not_or]
      exact ⟨hne, (h.pushing q a hq).2.1⟩
    · exact (h.pushing q a hq).2.2 q' (hpusher q' a hq').1
  · have hl : s.locker.tmp = some a := ha
    rw [hnil.2] at hl
    cases hl
  · show PushOk s.nodes (Function.update s.pusher p .idle q)
    rcases eq_or_ne q p with rfl | hqp
    · rw [Function.update_self]
      trivial
    · rw [Function.update_of_ne hqp]
      exact h.pushers q
  · have horder := h.order
    rw [hnil.1, List.nil_append] at horder
    show s.locker.taken ++ _ = (task :: s.won).map some
    rw [hnil.1, List.nil_append, List.map_cons, List.map_cons, horder]
  · show (Ptr.node tmp = .locked ↔ s.locker.HasLocked)
    simp [hunlocked]

theorem InvAt.pushStep [DecidableEq Addr] {s s' : State P Addr α} {c : List (Addr × α)}
    (h : InvAt s c) {p : P} (hstep : pushStep s p (s.pusher p) = some s') :
    ∃ c', InvAt s' c' := by
  have hok := h.pushers p
  cases hpc : s.pusher p with
  | idle => simp [hpc, Stack.pushStep] at hstep
  | malloc task top => simp [hpc, Stack.pushStep] at hstep
  | bzero task top tmp =>
    rw [hpc] at hstep
    cases hstep
    exact ⟨c, h.store (by rw [hpc]; rfl) _ trivial rfl⟩
  | storeTask task top tmp =>
    rw [hpc] at hstep
    cases hstep
    refine ⟨c, h.store (by rw [hpc]; rfl) _ ?_ rfl⟩
    simp only [PushOk, Function.update_self]
  | storeNext task top tmp =>
    rw [hpc] at hstep hok
    cases hstep
    refine ⟨c, h.store (by rw [hpc]; rfl) _ ?_ (by split <;> rfl)⟩
    split
    · trivial
    · rename_i hne
      refine ⟨?_, hne⟩
      rw [Function.update_self]
      exact congrArg (Node.mk · top) hok
  | cas task top tmp =>
    rw [hpc] at hstep hok
    rw [Stack.pushStep] at hstep
    split at hstep <;> cases hstep
    · rename_i htop
      subst htop
      exact ⟨_, h.cas hpc⟩
    · refine ⟨c, h.push (fun _ _ => rfl) (fun _ _ ha => ha) ?_ (fun a ha => ?_) rfl⟩
      · exact congrArg Node.task hok.1
      · have htmp : (s.pusher p).tmp = some a := by rw [hpc]; exact ha
        exact ⟨(h.pushing p a htmp).1, .inl htmp⟩
  | free task tmp =>
    rw [hpc] at hstep
    cases hstep
    refine ⟨c, h.push (fun _ _ => rfl) (fun a ha halloc => ?_) trivial (fun a ha => by cases ha) rfl⟩
    have hne : a ≠ tmp := by
      rintro rfl
      exact ha (by rw [hpc]; rfl)
    exact (Function.update_of_ne hne _ _).trans halloc

/-! ## The lock -/

omit [DecidableEq P] in
/-- The thread that locks and pops moves, without writing a node. -/
theorem InvAt.lock {s : State P Addr α} {c c' : List (Addr × α)} (h : InvAt s c) {top : Ptr Addr}
    {pc : LockPc Addr α} {allocated : Addr → Bool}
    (hchain : Chain s.nodes (State.head { s with top := top, locker := pc }) c')
    (hsub : c' <:+ c)
    (halloc : ∀ a, s.locker.tmp ≠ some a → s.allocated a = true → allocated a = true)
    (hpc : ∀ a, pc.tmp = some a → s.locker.tmp = some a ∨ a ∈ c.map Prod.fst)
    (hnot : ∀ a, pc.tmp = some a → allocated a = true ∧ a ∉ c'.map Prod.fst)
    (horder : pc.taken ++ c'.map (fun y => some y.2) = s.locker.taken ++ c.map (fun y => some y.2))
    (hlocked : top = .locked ↔ pc.HasLocked) :
    InvAt { s with top := top, allocated := allocated, locker := pc } c' := by
  have hsubset : ∀ a ∈ c'.map Prod.fst, a ∈ c.map Prod.fst := fun a ha =>
    (hsub.sublist.map Prod.fst).subset ha
  refine ⟨hchain, h.nodup.sublist (hsub.sublist.map _), fun a ha => ?_, fun p a hp => ?_,
    fun a ha => ⟨(hnot a ha).1, (hnot a ha).2, fun p hp => ?_⟩, h.pushers, horder.trans h.order,
    hlocked⟩
  · exact halloc a (fun hl => (h.popping a hl).2.1 (hsubset a ha)) (h.linked a (hsubset a ha))
  · exact ⟨halloc a (fun hl => (h.popping a hl).2.2 p hp) (h.pushing p a hp).1,
      fun hc => (h.pushing p a hp).2.1 (hsubset a hc), (h.pushing p a hp).2.2⟩
  · rcases hpc a ha with hl | hc
    · exact (h.popping a hl).2.2 p hp
    · exact (h.pushing p a hp).2.1 hc

omit [DecidableEq P] in
theorem InvAt.lockStep [DecidableEq Addr] {s s' : State P Addr α} {c : List (Addr × α)}
    (h : InvAt s c) (hstep : lockStep s s.locker = some s') : ∃ c', InvAt s' c' := by
  have hchain := h.chain
  have horder := h.order
  have hlocked := h.locked
  have hpopping := h.popping
  cases hl : s.locker with
  | load =>
    rw [hl] at hstep horder hlocked
    rw [Stack.lockStep] at hstep
    split at hstep <;> cases hstep
    rw [State.head, hl] at hchain
    exact ⟨c, h.lock hchain (List.suffix_refl c) (fun _ _ ha => ha) (fun a ha => by cases ha)
      (fun a ha => by cases ha) (by rw [hl]; rfl) hlocked⟩
  | cas top =>
    rw [hl] at hstep horder hlocked
    rw [State.head, hl] at hchain
    rw [Stack.lockStep] at hstep
    split at hstep
    · rename_i htop
      cases hstep
      subst htop
      exact ⟨c, h.lock hchain (List.suffix_refl c) (fun _ _ ha => ha) (fun a ha => by cases ha)
        (fun a ha => by cases ha) (by rw [hl]; rfl) ⟨fun _ => trivial, fun _ => rfl⟩⟩
    · split at hstep <;> cases hstep
      exact ⟨c, h.lock hchain (List.suffix_refl c) (fun _ _ ha => ha) (fun a ha => by cases ha)
        (fun a ha => by cases ha) (by rw [hl]; rfl) hlocked⟩
  | popTask head popped =>
    rw [hl] at hstep horder hlocked
    rw [State.head, hl] at hchain
    cases head with
    | null =>
      cases hstep
      have hnil : c = [] := by
        cases c with
        | nil => rfl
        | cons y c => cases hchain.1
      subst hnil
      exact ⟨[], h.lock rfl (List.suffix_refl _) (fun _ _ ha => ha) (fun a ha => by cases ha)
        (fun a ha => by cases ha) (by rw [hl]; rfl) hlocked⟩
    | locked => cases hstep
    | node a =>
      cases hstep
      cases c with
      | nil => cases hchain
      | cons y c =>
        obtain ⟨b, x⟩ := y
        obtain ⟨hptr, htask, hnext⟩ := hchain
        cases hptr
        refine ⟨c, h.lock hnext (List.suffix_cons _ _) (fun _ _ ha => ha) (fun d hd => ?_)
          (fun d hd => ?_) ?_ hlocked⟩
        · cases hd
          exact .inr (List.mem_cons_self ..)
        · cases hd
          exact ⟨h.linked a (List.mem_cons_self ..), (List.nodup_cons.mp h.nodup).1⟩
        · rw [hl, LockPc.taken, LockPc.taken, htask, List.append_assoc]
          rfl
  | popNext tmp task popped =>
    rw [hl] at hstep hlocked hpopping
    rw [State.head, hl] at hchain
    cases hstep
    refine ⟨c, h.lock hchain (List.suffix_refl c) (fun _ _ ha => ha) (fun a ha => ?_)
      (fun a ha => ?_) (by rw [hl]; rfl) hlocked⟩
    · exact .inl (by rw [hl]; exact ha)
    · exact ⟨(hpopping a ha).1, (hpopping a ha).2.1⟩
  | popFree tmp task next popped =>
    rw [hl] at hstep hlocked
    rw [State.head, hl] at hchain
    cases hstep
    refine ⟨c, h.lock hchain (List.suffix_refl c) (fun a ha halloc => ?_) (fun a ha => by cases ha)
      (fun a ha => by cases ha) (by rw [hl]; rfl) hlocked⟩
    have hne : a ≠ tmp := by
      rintro rfl
      exact ha (by rw [hl]; rfl)
    exact (Function.update_of_ne hne _ _).trans halloc
  | done popped => simp [hl, Stack.lockStep] at hstep

/-! ## Runs -/

variable [DecidableEq Addr]

/-- **One step keeps the invariant.** -/
theorem InvAt.step {s s' : State P Addr α} {c : List (Addr × α)} (h : InvAt s c)
    {l : Label P Addr α} (hstep : step s l = some s') : ∃ c', InvAt s' c' := by
  cases l with
  | push p task =>
    rw [Stack.step] at hstep
    split at hstep
    · split at hstep <;> cases hstep
      · exact ⟨c, h.push (fun _ _ => rfl) (fun _ _ ha => ha) trivial (fun a ha => by cases ha) rfl⟩
      · exact ⟨c, h.push (fun _ _ => rfl) (fun _ _ ha => ha) trivial (fun a ha => by cases ha) rfl⟩
    · cases hstep
  | malloc p tmp =>
    rw [Stack.step] at hstep
    split at hstep
    · split at hstep <;> cases hstep
      rename_i hfree
      refine ⟨c, h.push (fun _ _ => rfl) (fun a _ halloc => ?_) trivial (fun a ha => ?_) rfl⟩
      · rcases eq_or_ne a tmp with rfl | hne
        · exact absurd halloc hfree
        · exact (Function.update_of_ne hne _ _).trans halloc
      · cases ha
        exact ⟨Function.update_self .., .inr (Bool.not_eq_true _ ▸ hfree)⟩
    · cases hstep
  | pusher p => exact h.pushStep hstep
  | locker => exact h.lockStep hstep

theorem inv_of_reach {nodes : Addr → Node Addr α} {s : State P Addr α}
    (r : Reach Stack.step (init nodes) s) : ∃ c, InvAt s c := by
  refine r.invariant (I := fun s => ∃ c, InvAt s c) ⟨[], inv_init nodes⟩ ?_
  rintro s l s' ⟨c, h⟩ - hstep
  exact h.step hstep

/-! ## Once locked -/

omit [DecidableEq P] [DecidableEq Addr] in
/-- A locked stack is not about to be locked again, and no compare-and-swap of a
pusher succeeds on it. -/
theorem InvAt.of_locked {s : State P Addr α} {c : List (Addr × α)} (h : InvAt s c)
    (hlocked : s.top = .locked) :
    s.locker.HasLocked ∧ ∀ p task top tmp, s.pusher p = .cas task top tmp → s.top ≠ top := by
  refine ⟨h.locked.mp hlocked, fun p task top tmp hpc htop => ?_⟩
  have hok := h.pushers p
  rw [hpc] at hok
  exact hok.2 (htop.symm.trans hlocked)

/-- A step of the system leaves a locked stack locked, and a call that returns with
it returns 0. -/
theorem InvAt.stays_locked {s s' : State P Addr α} {c : List (Addr × α)} (h : InvAt s c)
    (hlocked : s.top = .locked) {l : Label P Addr α} (hstep : Stack.step s l = some s') :
    s'.top = .locked ∧ ∃ new, s'.returns = new ++ s.returns ∧ ∀ r ∈ new, r.code = false := by
  obtain ⟨hl, hcas⟩ := h.of_locked hlocked
  have hreturn : ∀ (p : P) (task : α), ∃ new : List (Return P α),
      ⟨p, task, false⟩ :: s.returns = new ++ s.returns ∧ ∀ r ∈ new, r.code = false :=
    fun p task => ⟨[⟨p, task, false⟩], rfl, fun r hr => by rw [List.mem_singleton.mp hr]⟩
  have hnone : ∃ new : List (Return P α),
      s.returns = new ++ s.returns ∧ ∀ r ∈ new, r.code = false :=
    ⟨[], rfl, fun r hr => absurd hr List.not_mem_nil⟩
  cases l with
  | push p task =>
    rw [Stack.step] at hstep
    split at hstep
    · rw [if_pos hlocked] at hstep
      cases hstep
      exact ⟨hlocked, hreturn p task⟩
    · cases hstep
  | malloc p tmp =>
    rw [Stack.step] at hstep
    split at hstep
    · split at hstep <;> cases hstep
      exact ⟨hlocked, hnone⟩
    · cases hstep
  | pusher p =>
    rw [Stack.step] at hstep
    cases hpc : s.pusher p with
    | cas task top tmp =>
      rw [hpc, Stack.pushStep, if_neg (hcas p task top tmp hpc)] at hstep
      cases hstep
      exact ⟨hlocked, hnone⟩
    | free task tmp =>
      rw [hpc] at hstep
      cases hstep
      exact ⟨hlocked, hreturn p task⟩
    | idle => simp [hpc, Stack.pushStep] at hstep
    | malloc task top => simp [hpc, Stack.pushStep] at hstep
    | _ =>
      rw [hpc] at hstep
      cases hstep
      exact ⟨hlocked, hnone⟩
  | locker =>
    rw [Stack.step] at hstep
    cases hpc : s.locker with
    | load => exact absurd hl (by simp [hpc, LockPc.HasLocked])
    | cas top => exact absurd hl (by simp [hpc, LockPc.HasLocked])
    | popTask head popped =>
      rw [hpc] at hstep
      cases head <;> cases hstep <;> exact ⟨hlocked, hnone⟩
    | done popped => simp [hpc, Stack.lockStep] at hstep
    | _ =>
      rw [hpc] at hstep
      cases hstep
      exact ⟨hlocked, hnone⟩

/-- How many accesses a call of `stack_push` still makes once the stack is locked. -/
def PushPc.left : PushPc Addr α → ℕ
  | .idle => 0
  | .malloc _ _ => 7
  | .bzero _ _ _ => 6
  | .storeTask _ _ _ => 5
  | .storeNext _ top _ => if top = .locked then 2 else 4
  | .cas _ _ _ => 3
  | .free _ _ => 1

/-- The label is a step of pusher `p`. -/
def Label.By (p : P) : Label P Addr α → Prop
  | .push q _ | .malloc q _ | .pusher q => q = p
  | .locker => False

/-- The others do not touch the program point of `p`. -/
theorem pusher_of_not_by {s s' : State P Addr α} {p : P} {l : Label P Addr α} (hl : ¬ l.By p)
    (hstep : Stack.step s l = some s') : s'.pusher p = s.pusher p := by
  cases l with
  | push q task =>
    rw [Stack.step] at hstep
    split at hstep
    · split at hstep <;> cases hstep <;> exact Function.update_of_ne (Ne.symm hl) _ _
    · cases hstep
  | malloc q tmp =>
    rw [Stack.step] at hstep
    split at hstep
    · split at hstep <;> cases hstep
      exact Function.update_of_ne (Ne.symm hl) _ _
    · cases hstep
  | pusher q =>
    rw [Stack.step] at hstep
    cases hpc : s.pusher q with
    | idle => simp [hpc, Stack.pushStep] at hstep
    | malloc task top => simp [hpc, Stack.pushStep] at hstep
    | cas task top tmp =>
      rw [hpc, Stack.pushStep] at hstep
      split at hstep <;> cases hstep <;> exact Function.update_of_ne (Ne.symm hl) _ _
    | _ =>
      rw [hpc] at hstep
      cases hstep
      exact Function.update_of_ne (Ne.symm hl) _ _
  | locker =>
    rw [Stack.step] at hstep
    cases hpc : s.locker with
    | popTask head popped =>
      rw [hpc] at hstep
      cases head <;> cases hstep <;> rfl
    | load =>
      rw [hpc, Stack.lockStep] at hstep
      split at hstep <;> cases hstep
      rfl
    | cas top =>
      rw [hpc, Stack.lockStep] at hstep
      split at hstep
      · cases hstep
        rfl
      · split at hstep <;> cases hstep
        rfl
    | done popped => simp [hpc, Stack.lockStep] at hstep
    | _ =>
      rw [hpc] at hstep
      cases hstep
      rfl

/-- A call in progress on a locked stack is one access closer to its return, and it
returns 0. -/
theorem InvAt.left_lt {s s' : State P Addr α} {c : List (Addr × α)} (h : InvAt s c)
    (hlocked : s.top = .locked) {p : P} (hbusy : s.pusher p ≠ .idle) {l : Label P Addr α}
    (hl : l.By p) (hstep : Stack.step s l = some s') :
    (s'.pusher p).left < (s.pusher p).left ∧
      (s'.pusher p = .idle → ∃ task, s'.returns = ⟨p, task, false⟩ :: s.returns) := by
  cases l with
  | push q task =>
    obtain rfl : q = p := hl
    rw [Stack.step] at hstep
    split at hstep
    · rename_i hidle
      exact absurd hidle hbusy
    · cases hstep
  | malloc q tmp =>
    obtain rfl : q = p := hl
    rw [Stack.step] at hstep
    split at hstep
    · rename_i hpc
      split at hstep <;> cases hstep
      simp [State.setPusher, hpc, PushPc.left]
    · cases hstep
  | pusher q =>
    obtain rfl : q = p := hl
    rw [Stack.step] at hstep
    cases hpc : s.pusher q with
    | idle => exact absurd hpc hbusy
    | malloc task top => simp [hpc, Stack.pushStep] at hstep
    | bzero task top tmp =>
      rw [hpc] at hstep
      cases hstep
      simp [State.setPusher, PushPc.left]
    | storeTask task top tmp =>
      rw [hpc] at hstep
      cases hstep
      simp only [State.setPusher, Function.update_self, PushPc.left]
      split <;> simp
    | storeNext task top tmp =>
      rw [hpc] at hstep
      cases hstep
      by_cases htop : top = .locked <;>
        simp [State.setPusher, PushPc.left, htop]
    | cas task top tmp =>
      rw [hpc, Stack.pushStep, if_neg ((h.of_locked hlocked).2 q task top tmp hpc)] at hstep
      cases hstep
      simp [State.setPusher, PushPc.left, hlocked]
    | free task tmp =>
      rw [hpc] at hstep
      cases hstep
      simp [State.return, State.setPusher, State.setAllocated, PushPc.left]
  | locker => exact hl.elim

/-! ## Taking the list apart -/

/-- The thread that locks the stack can always go on until `stack_pop` has returned
`NULL`: no assertion fails, and it never follows `STACK_LOCKED`. -/
theorem InvAt.lockStep_isSome {s : State P Addr α} {c : List (Addr × α)} (h : InvAt s c)
    (hdone : ∀ popped, s.locker ≠ .done popped) : (Stack.step s .locker).isSome := by
  have hlocked := h.locked
  have hchain := h.chain.ne_locked
  rw [Stack.step]
  cases hpc : s.locker with
  | load =>
    rw [hpc] at hlocked
    rw [Stack.lockStep, if_neg fun ht => hlocked.mp ht]
    rfl
  | cas top =>
    rw [hpc] at hlocked
    rw [Stack.lockStep, if_neg (c := s.top = .locked) fun ht => hlocked.mp ht]
    split <;> rfl
  | popTask head popped =>
    rw [State.head, hpc] at hchain
    cases head with
    | locked => exact absurd rfl hchain
    | _ => rfl
  | done popped => exact absurd hpc (hdone popped)
  | _ => rfl

/-- `stack_pop` takes the list apart, node after node; what is left is what has been
pushed and not been popped. -/
theorem InvAt.drains {s : State P Addr α} {c : List (Addr × α)} (h : InvAt s c) {head : Ptr Addr}
    {popped : List (Option α)} (hpc : s.locker = .popTask head popped) :
    ∃ s', Reach Stack.step s s' ∧ ∃ popped', s'.locker = .done popped' := by
  induction hn : s.won.length - popped.length generalizing s c head popped with
  | zero =>
    have horder := congrArg List.length h.order
    rw [hpc, LockPc.taken, List.length_append, List.length_map, List.length_map] at horder
    have hnil : c = [] := List.length_eq_zero_iff.mp (by omega)
    have hchain := h.chain
    rw [State.head, hpc, hnil] at hchain
    cases hchain
    exact ⟨{ s with locker := .done popped },
      Run.refl.tail (a := .locker) trivial (by rw [Stack.step, hpc]; rfl), popped, rfl⟩
  | succ n ih =>
    have horder := congrArg List.length h.order
    rw [hpc, LockPc.taken, List.length_append, List.length_map, List.length_map] at horder
    have hchain := h.chain
    rw [State.head, hpc] at hchain
    cases c with
    | nil =>
      rw [List.length_nil] at horder
      omega
    | cons y c =>
      obtain ⟨rfl, -⟩ := hchain
      obtain ⟨s', r, hpc', hwon⟩ : ∃ s', Reach Stack.step s s' ∧
          (∃ next, s'.locker = .popTask next (popped ++ [(s.nodes y.1).task])) ∧
          s'.won = s.won := by
        refine Run.exists_of_exec (l := [.locker, .locker, .locker]) ?_
        simp only [exec, Stack.step, Stack.lockStep, always, hpc, if_true, Option.bind_some]
        exact ⟨_, rfl, ⟨_, rfl⟩, rfl⟩
      obtain ⟨next, hpc'⟩ := hpc'
      obtain ⟨c', h'⟩ : ∃ c', InvAt s' c' := by
        refine r.invariant (I := fun s => ∃ c, InvAt s c) ⟨_, h⟩ ?_
        rintro s l s' ⟨c, h⟩ - hstep
        exact h.step hstep
      obtain ⟨s'', r', hdone⟩ := ih h' hpc' (by
        rw [hwon, List.length_append, List.length_singleton]
        omega)
      exact ⟨s'', r.trans r', hdone⟩

/-- **The notify stack never loses a push across its lock.**  The list that
`stack_lock` returns, taken apart by `stack_pop`, has the tasks of the calls of
`stack_push` that return 1, in the reverse order of their compare-and-swaps.  Once
locked the stack stays locked, and a call that has not taken effect by then returns
0 after at most seven more accesses.  The locking thread never fails an assertion,
and `stack_pop` comes to the end of the list. -/
theorem no_push_lost {nodes : Addr → Node Addr α} {s : State P Addr α}
    (r : Reach Stack.step (init nodes) s) :
    (∀ popped, s.locker = .done popped → popped = s.won.map some) ∧
    (s.top = .locked →
      (∀ s', Reach Stack.step s s' → s'.top = .locked ∧
        ∃ new, s'.returns = new ++ s.returns ∧ ∀ ret ∈ new, ret.code = false) ∧
      (∀ p, s.pusher p ≠ .idle → (s.pusher p).left ≤ 7 ∧
        ∀ l s', Stack.step s l = some s' →
          (¬ l.By p → s'.pusher p = s.pusher p) ∧
          (l.By p → (s'.pusher p).left < (s.pusher p).left ∧
            (s'.pusher p = .idle → ∃ task, s'.returns = ⟨p, task, false⟩ :: s.returns)))) ∧
    ((∀ popped, s.locker ≠ .done popped) → (Stack.step s .locker).isSome) ∧
    (∀ head popped, s.locker = .popTask head popped →
      ∃ s', Reach Stack.step s s' ∧ ∃ popped', s'.locker = .done popped') := by
  obtain ⟨c, h⟩ := inv_of_reach r
  refine ⟨fun popped hpc => ?_, fun hlocked => ⟨fun s' r' => ?_, fun p hbusy => ⟨?_, ?_⟩⟩,
    h.lockStep_isSome, fun head popped => h.drains⟩
  · have hchain := h.chain
    have horder := h.order
    rw [State.head, hpc] at hchain
    rw [hpc] at horder
    cases c with
    | nil => rwa [List.map_nil, List.append_nil] at horder
    | cons y c => cases hchain.1
  · refine r'.invariant_of (I := fun s' => s'.top = .locked ∧
        ∃ new, s'.returns = new ++ s.returns ∧ ∀ ret ∈ new, ret.code = false)
      (fun x rx => inv_of_reach (r.trans rx)) ⟨hlocked, [], rfl, fun _ hr => absurd hr List.not_mem_nil⟩ ?_
    rintro x l y ⟨c', hx⟩ ⟨hxl, new, hnew, hfalse⟩ - hstep
    obtain ⟨hyl, newer, hnewer, hfalse'⟩ := hx.stays_locked hxl hstep
    refine ⟨hyl, newer ++ new, by rw [hnewer, hnew, List.append_assoc], fun ret hr => ?_⟩
    exact (List.mem_append.mp hr).elim (hfalse' ret) (hfalse ret)
  · cases s.pusher p <;> simp only [PushPc.left] <;> (try split) <;> omega
  · exact fun l s' hstep => ⟨fun hl => pusher_of_not_by hl hstep,
      fun hl => h.left_lt hlocked hbusy hl hstep⟩

/-- Two pushes race, one of them tries again; a third one finds the stack locked. -/
theorem no_push_lost_example :
    ∃ s : State Bool ℕ ℕ, Reach Stack.step (init fun _ => ⟨none, .null⟩) s ∧
      s.returns = [⟨true, 3, false⟩, ⟨false, 2, true⟩, ⟨true, 1, true⟩] ∧
      s.locker = .done [some 2, some 1] ∧ [some 2, some 1] = s.won.map some := by
  obtain ⟨s, r, hret, hdone⟩ : ∃ s : State Bool ℕ ℕ,
      Reach Stack.step (init fun _ => ⟨none, .null⟩) s ∧
      s.returns = [⟨true, 3, false⟩, ⟨false, 2, true⟩, ⟨true, 1, true⟩] ∧
      s.locker = .done [some 2, some 1] :=
    Run.exists_of_exec (l := [.push true 1, .push false 2, .malloc true 0, .malloc false 1,
      .pusher true, .pusher true, .pusher true, .pusher true,
      .pusher false, .pusher false, .pusher false, .pusher false, .pusher false, .pusher false,
      .push true 3, .malloc true 2, .locker, .locker,
      .pusher true, .pusher true, .pusher true, .pusher true, .pusher true, .pusher true,
      .locker, .locker, .locker, .locker, .locker, .locker, .locker]) ⟨_, rfl, rfl, rfl⟩
  exact ⟨s, r, hret, hdone, (no_push_lost r).1 _ hdone⟩

end Stack
end Partee
