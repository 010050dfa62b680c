import Partee.Runtime.Accesses
import Partee.Runtime.Follows

/-!
# What a wait is for

A push of `t` on the stack of `x` makes `t` wait for `x`.  The two access a block in
common, not both for reading, unless an IN argument of a third sibling stands
between them: all its blocks share one metadata element, hence one list of readers
and one `dependent_metadata`.  A writer of one of its blocks waits for the readers
of another, and a reader of one of its blocks waits for the writer of another.

* `Justified`: the reasons for a wait.
* `StandsFor`: what a metadata element knows about the argument it was made for.
* `Grounded`: the invariant.
-/

namespace Partee

open Transition

variable {ω : Type*}

/-! ## The reasons -/

/-- The two tasks access one block, and not both for reading. -/
def Conflict (gridT : BitVec 64) (r : Runtime ω) (t x : TaskId) : Prop :=
  ∃ a b j, (a = true ∨ b = true) ∧ Accesses gridT r t a j ∧ Accesses gridT r x b j

/-- An IN argument of `o` has a block that `t` accesses by `a`, and a block that `x`
accesses by `b`. -/
def Links (gridT : BitVec 64) (r : Runtime ω) (o t : TaskId) (a : Bool) (x : TaskId) (b : Bool) :
    Prop :=
  ∃ g ∈ (r.task o).args, g.isOut = false ∧ (∃ j ∈ g.blocks gridT, Accesses gridT r t a j) ∧
    ∃ i ∈ g.blocks gridT, Accesses gridT r x b i

/-- The reasons for which `t` waits for `x`. -/
def Justified (gridT : BitVec 64) (r : Runtime ω) (t x : TaskId) : Prop :=
  Conflict gridT r t x ∨ ∃ o, Sibling r t o ∧
    (o < x ∧ Links gridT r o t true x false ∨ x < o ∧ Links gridT r o t false x true)

variable {gridT : BitVec 64} {r r' : Runtime ω} {s s' : State ω} {d d' : Analysis}
  {t c x o : TaskId} {e : ElemId} {g : Argument} {a b : Bool} {j : ℕ} {k : Walk}
  {pc pc' : CallPc} {arg arg' : ElemId → Argument}

theorem Accesses.mono (hg : Grows r r') (ht : t < r.next) (h : Accesses gridT r t a j) :
    Accesses gridT r' t a j := by
  unfold Accesses at h ⊢
  rwa [hg.args t ht]

theorem Conflict.mono (hg : Grows r r') (ht : t < r.next) (hx : x < r.next)
    (h : Conflict gridT r t x) : Conflict gridT r' t x := by
  obtain ⟨a, b, j, hab, hta, hxb⟩ := h
  exact ⟨a, b, j, hab, hta.mono hg ht, hxb.mono hg hx⟩

theorem Links.mono (hg : Grows r r') (ho : o < r.next) (ht : t < r.next) (hx : x < r.next)
    (h : Links gridT r o t a x b) : Links gridT r' o t a x b := by
  obtain ⟨g, hmem, hout, ⟨j, hj, hta⟩, i, hi, hxb⟩ := h
  exact ⟨g, by rwa [hg.args o ho], hout, ⟨j, hj, hta.mono hg ht⟩, i, hi, hxb.mono hg hx⟩

theorem Sibling.mono (hg : Grows r r') {p : TaskId} (hp : (r.task t).parent = some p)
    (h : Sibling r t o) : Sibling r' t o := by
  obtain ⟨hlt, hpar, hcounted⟩ := h
  refine ⟨hlt, ?_, hg.counted o hcounted⟩
  rw [hg.parent t p hp, hg.parent o p (hpar.trans hp)]

theorem Justified.mono (hg : Grows r r') {p : TaskId} (hp : (r.task t).parent = some p)
    (ht : t < r.next) (hx : x < r.next) (h : Justified gridT r t x) : Justified gridT r' t x := by
  rcases h with hconf | ⟨o, ho, hlinks⟩
  · exact .inl (hconf.mono hg ht hx)
  · have hlt : o < r.next := ho.1.trans ht
    exact .inr ⟨o, ho.mono hg hp, hlinks.imp (fun h => ⟨h.1, h.2.mono hg hlt ht hx⟩)
      fun h => ⟨h.1, h.2.mono hg hlt ht hx⟩⟩

/-! ## Elements and their arguments -/

/-- The element `e` was made for the argument `g` of its owner. -/
structure StandsFor (gridT : BitVec 64) (r : Runtime ω) (d : Analysis) (e : ElemId)
    (g : Argument) : Prop where
  owner : (d.elem e).owner < r.next
  mem : g ∈ (r.task (d.elem e).owner).args
  isOut : g.isOut = isOutType (d.elem e).type
  node : ∀ p j, d.metadata p j = some e → j ∈ g.blocks gridT
  reader : ∀ x ∈ (d.elem e).readers, x = (d.elem e).owner ∨
    (d.elem e).owner < x ∧ x < r.next ∧ ∃ i ∈ g.blocks gridT, Accesses gridT r x false i
  dependent : ∀ i, (d.elem e).dependentMetadata = some i → i < d.nextElem ∧
    (d.elem i).owner < r.next ∧ ∃ j ∈ g.blocks gridT, Accesses gridT r (d.elem i).owner true j

theorem StandsFor.accesses (h : StandsFor gridT r d e g) (hj : j ∈ g.blocks gridT) :
    Accesses gridT r (d.elem e).owner (isOutType (d.elem e).type) j :=
  ⟨g, h.mem, h.isOut, hj⟩

/-- Every element stands for its argument. -/
def AllStand (gridT : BitVec 64) (r : Runtime ω) (d : Analysis) (arg : ElemId → Argument) : Prop :=
  ∀ e < d.nextElem, StandsFor gridT r d e (arg e)

namespace AllStand

theorem grows (hg : Grows r r') (h : AllStand gridT r d arg) : AllStand gridT r' d arg := by
  intro e he
  have hs := h e he
  exact {
    owner := hs.owner.trans_le hg.next
    mem := by
      rw [hg.args _ hs.owner]
      exact hs.mem
    isOut := hs.isOut
    node := hs.node
    reader := fun x hx => (hs.reader x hx).imp_right fun ⟨hlt, hnext, i, hi, hacc⟩ =>
      ⟨hlt, hnext.trans_le hg.next, i, hi, hacc.mono hg hnext⟩
    dependent := fun i hi => by
      obtain ⟨hlt, hnext, j, hj, hacc⟩ := hs.dependent i hi
      exact ⟨hlt, hnext.trans_le hg.next, j, hj, hacc.mono hg hnext⟩ }

/-- A change of the lookup tables that puts an element on a block of its
argument. -/
theorem of_elem (helem : d'.elem = d.elem) (hnext : d'.nextElem = d.nextElem)
    (hnode : ∀ p j e, d'.metadata p j = some e →
      d.metadata p j = some e ∨ j ∈ (arg e).blocks gridT)
    (h : AllStand gridT r d arg) : AllStand gridT r d' arg := by
  intro e he
  rw [hnext] at he
  have hs := h e he
  exact {
    owner := by rw [helem]; exact hs.owner
    mem := by rw [helem]; exact hs.mem
    isOut := by rw [helem]; exact hs.isOut
    node := fun p j hj => (hnode p j e hj).elim (hs.node p j) id
    reader := by rw [helem]; exact hs.reader
    dependent := by rw [helem, hnext]; exact hs.dependent }

theorem setNode {p : TaskId} (h : AllStand gridT r d arg) (hj : j ∈ (arg e).blocks gridT) :
    AllStand gridT r ((d.setNode p j e).visit c b j) arg := by
  refine of_elem (d := d) rfl rfl (fun q i e' hi => ?_) h
  simp only [Analysis.visit_metadata, Analysis.setNode_metadata] at hi
  rcases eq_or_ne q p with rfl | hq
  · rw [Function.update_self] at hi
    rcases eq_or_ne i j with rfl | hij
    · rw [Function.update_self] at hi
      cases hi
      exact .inr hj
    · rw [Function.update_of_ne hij] at hi
      exact .inl hi
  · rw [Function.update_of_ne hq] at hi
    exact .inl hi

theorem insertFront (h : AllStand gridT r d arg)
    (hc : c = (d.elem e).owner ∨ (d.elem e).owner < c ∧ c < r.next ∧
      ∃ i ∈ (arg e).blocks gridT, Accesses gridT r c false i) :
    AllStand gridT r (d.insertFront c e) arg := by
  intro i hi
  have hs := h i hi
  exact {
    owner := by simpa using hs.owner
    mem := by simpa using hs.mem
    isOut := by simpa using hs.isOut
    node := hs.node
    reader := fun x hx => by
      rw [Analysis.insertFront_owner]
      rw [Analysis.insertFront_readers] at hx
      split at hx
      · rename_i hie
        rcases List.mem_cons.1 hx with rfl | hold
        · rw [hie]
          exact hc
        · exact hs.reader x hold
      · exact hs.reader x hx
    dependent := by simpa using hs.dependent }

theorem setDependent {i : ElemId} (h : AllStand gridT r d arg) (he : e < d.nextElem)
    (hj : ∃ j ∈ (arg i).blocks gridT, Accesses gridT r (d.elem e).owner true j) :
    AllStand gridT r (d.setDependent i e) arg := by
  intro i' hi'
  have hs := h i' hi'
  exact {
    owner := by simpa using hs.owner
    mem := by simpa using hs.mem
    isOut := by simpa using hs.isOut
    node := hs.node
    reader := by simpa using hs.reader
    dependent := fun x hx => by
      rw [Analysis.setDependent_owner]
      rw [Analysis.setDependent_dependent] at hx
      split at hx
      · rename_i hie
        cases hx
        rw [hie]
        exact ⟨he, (h e he).owner, hj⟩
      · exact hs.dependent x hx }

/-- The element of a new argument. -/
theorem newElement (h : AllStand gridT r d arg) (hc : c < r.next) (hg : g ∈ (r.task c).args)
    (hnode : ∀ p j e, d.metadata p j = some e → e < d.nextElem) :
    AllStand gridT r (d.newElement g.type c) (Function.update arg d.nextElem g) := by
  intro e he
  rcases (Nat.lt_succ_iff_lt_or_eq.1 he) with hlt | rfl
  · have hs := h e hlt
    have helem := d.newElement_of_lt c e g.type hlt
    rw [Function.update_of_ne hlt.ne]
    exact {
      owner := by rw [helem]; exact hs.owner
      mem := by rw [helem]; exact hs.mem
      isOut := by rw [helem]; exact hs.isOut
      node := hs.node
      reader := by rw [helem]; exact hs.reader
      dependent := fun i hi => by
        rw [helem] at hi
        obtain ⟨hi', hrest⟩ := hs.dependent i hi
        rw [d.newElement_of_lt c i g.type hi']
        exact ⟨hi'.trans (Nat.lt_succ_self _), hrest⟩ }
  · rw [Function.update_self]
    exact {
      owner := by simpa using hc
      mem := by simpa using hg
      isOut := by simp [Argument.isOut]
      node := fun p j hj => absurd (hnode p j _ hj) (Nat.lt_irrefl _)
      reader := by simp
      dependent := by simp }

end AllStand

/-! ## The calls in progress -/

/-- The walk of `tpc_call(c)` is within the arguments of `c`, and within the current
argument. -/
structure WalkOk (gridT : BitVec 64) (r : Runtime ω) (arg : ElemId → Argument) (c : TaskId)
    (k : Walk) : Prop where
  args : k.args ⊆ (r.task c).args
  blocks : ∀ j, j ∈ k.pieces.flatten ∨ j ∈ k.blocks → j ∈ (arg k.elem).blocks gridT

/-- The pushes that `tpc_call(c)` may still perform for what it has found are
justified. -/
def CallGrounded (gridT : BitVec 64) (s : State ω) (arg : ElemId → Argument) (c : TaskId) :
    CallPc → Prop
  | .walk k => WalkOk gridT s.rt arg c k
  | .push k e _ => WalkOk gridT s.rt arg c k ∧
      ∃ j ∈ (arg k.elem).blocks gridT, Accesses gridT s.rt (s.dep.elem e).owner true j
  | .readers k rest => WalkOk gridT s.rt arg c k ∧ ∀ x ∈ rest, x = c ∨ Justified gridT s.rt c x
  | .ownerStatus k e j => WalkOk gridT s.rt arg c k ∧ j ∈ (arg k.elem).blocks gridT ∧
      j ∈ (arg e).blocks gridT
  | .pushDependent k d => WalkOk gridT s.rt arg c k ∧
      Justified gridT s.rt c (s.dep.elem d).owner
  | _ => True

/-- **Every wait is justified**, and what the analysis knows bears this out. -/
structure Grounded (gridT : BitVec 64) (s : State ω) (arg : ElemId → Argument) : Prop where
  stand : AllStand gridT s.rt s.dep arg
  calls : ∀ w t tmp c pc, Frame.execute t tmp (.call c pc) ∈ s.rt.stack w →
    CallGrounded gridT s arg c pc
  pushes : ∀ t x, (t, x) ∈ s.rt.hist.pushes → Justified gridT s.rt t x

theorem WalkOk.mono (hg : Grows r r') (hc : c < r.next)
    (harg : k.pieces ≠ [] ∨ k.blocks ≠ [] → arg' k.elem = arg k.elem)
    (h : WalkOk gridT r arg c k) : WalkOk gridT r' arg' c k where
  args := by
    rw [hg.args c hc]
    exact h.args
  blocks j hj := by
    have hne : k.pieces ≠ [] ∨ k.blocks ≠ [] := by
      by_contra hnil
      simp only [not_or, not_not] at hnil
      simp [hnil] at hj
    rw [harg hne]
    exact h.blocks j hj

theorem Sound.lt_of_kin [Fintype ω] (hS : Sound s) {p : TaskId} (h : Kin s.rt p x) : x < s.rt.next :=
  (hS.family.parent_of_eq hS.tokens h.parent).2.1

/-- What is known of a call in progress stays known. -/
theorem CallGrounded.mono [Fintype ω] (hS : Sound s) (hx : Extends s s') (hok : CallOk s t c pc)
    (hp : (s.rt.task c).parent = some t) (harg : ∀ e < s.dep.nextElem, arg' e = arg e)
    (h : CallGrounded gridT s arg c pc) : CallGrounded gridT s' arg' c pc := by
  have hg := hx.grows
  have hc : c < s.rt.next := (hS.family.parent_of_eq hS.tokens hp).2.1
  have hwalk : ∀ {k}, Visiting s t c k → WalkOk gridT s.rt arg c k →
      WalkOk gridT s'.rt arg' c k := fun hv h =>
    h.mono hg hc fun _ => harg _ hv.elemOf.allocated
  cases pc with
  | walk k =>
    refine h.mono hg hc fun hne => harg _ ?_
    rcases hne with hpieces | hblocks
    · exact (hok.1 hpieces).elemOf.allocated
    · exact (hok.2 hblocks).elemOf.allocated
  | push k e raw =>
    obtain ⟨hv, he⟩ := hok
    obtain ⟨hw, j, hj, hacc⟩ := h
    refine ⟨hwalk hv hw, j, by rwa [harg _ hv.elemOf.allocated], ?_⟩
    rw [hx.owner e he.allocated]
    exact hacc.mono hg (hS.lt_of_kin he.owner)
  | readers k rest =>
    obtain ⟨hv, hkin⟩ := hok
    exact ⟨hwalk hv h.1, fun x hmem => (h.2 x hmem).imp_right
      (Justified.mono hg hp hc (hS.lt_of_kin (hkin x hmem)))⟩
  | ownerStatus k e j =>
    obtain ⟨hv, he, -⟩ := hok
    refine ⟨hwalk hv h.1, ?_, ?_⟩
    · rw [harg _ hv.elemOf.allocated]
      exact h.2.1
    · rw [harg _ he.allocated]
      exact h.2.2
  | pushDependent k d =>
    obtain ⟨hv, hd, -, hkin⟩ := hok
    refine ⟨hwalk hv h.1, ?_⟩
    rw [hx.owner d hd]
    exact h.2.mono hg hp hc (hS.lt_of_kin hkin)
  | _ => trivial

/-! ## One access of `tpc_call` -/

/-- What `tpc_call(c)`, called by `t`, accesses at a block of its current
argument. -/
theorem AllStand.accesses_current (h : AllStand gridT s.rt s.dep arg) (hcur : Current s t c k)
    (hj : j ∈ (arg k.elem).blocks gridT) : Accesses gridT s.rt c k.out j := by
  have hacc := (h _ hcur.elemOf.allocated).accesses hj
  rwa [hcur.owner, hcur.type] at hacc

/-- A writer waits for the readers of the element it finds. -/
theorem justified_of_reader (hcaller : Caller s.rt t c) (hstand : StandsFor gridT s.rt s.dep e g)
    (he : ElemOf s t e) (htype : isOutType (s.dep.elem e).type = false)
    (hj : j ∈ g.blocks gridT) (hacc : Accesses gridT s.rt c true j)
    (hx : x ∈ (s.dep.elem e).readers) : x = c ∨ Justified gridT s.rt c x := by
  have howner : Accesses gridT s.rt (s.dep.elem e).owner false j := htype ▸ hstand.accesses hj
  rcases hstand.reader x hx with rfl | ⟨hlt, -, i, hi, hread⟩
  · exact .inr (.inl ⟨true, false, j, .inl rfl, hacc, howner⟩)
  · have hsib : Sibling s.rt c (s.dep.elem e).owner := by
      refine (hcaller.sibling he.owner).resolve_left fun hself => ?_
      exact absurd (hself ▸ hlt) (Nat.not_lt.2 (hcaller.latest x (he.readers x hx).parent))
    exact .inr (.inr ⟨_, hsib, .inl ⟨hlt, g, hstand.mem, hstand.isOut.trans htype, ⟨j, hj, hacc⟩,
      i, hi, hread⟩⟩)

/-- A reader that joins others waits for the writer that they wait for. -/
theorem justified_of_dependent {i : ElemId} (hcaller : Caller s.rt t c)
    (hstand : StandsFor gridT s.rt s.dep e g) (he : ElemOf s t e)
    (htype : isOutType (s.dep.elem e).type = false) (hj : j ∈ g.blocks gridT)
    (hacc : Accesses gridT s.rt c false j) (hne : c ≠ (s.dep.elem e).owner)
    (hi : (s.dep.elem e).dependentMetadata = some i) :
    Justified gridT s.rt c (s.dep.elem i).owner := by
  have hsib : Sibling s.rt c (s.dep.elem e).owner :=
    (hcaller.sibling he.owner).resolve_left hne.symm
  obtain ⟨-, -, j', hj', hwrite⟩ := hstand.dependent i hi
  exact .inr ⟨_, hsib, .inr ⟨(he.dependent i hi).2.1, g, hstand.mem, hstand.isOut.trans htype,
    ⟨j, hj, hacc⟩, j', hj', hwrite⟩⟩

/-- What one access of `tpc_call(c)` keeps. -/
structure GroundedStep (gridT : BitVec 64) (s s' : State ω) (arg : ElemId → Argument) (c : TaskId)
    (pc' : CallPc) (arg' : ElemId → Argument) : Prop where
  agrees : ∀ e < s.dep.nextElem, arg' e = arg e
  stand : AllStand gridT s'.rt s'.dep arg'
  call : CallGrounded gridT s' arg' c pc'
  pushes : ∀ t x, (t, x) ∈ s'.rt.hist.pushes →
    (t, x) ∈ s.rt.hist.pushes ∨ t = c ∧ Justified gridT s'.rt c x

variable {p : TaskId}

/-- A step of the analysis between two shared accesses, which makes no element. -/
theorem GroundedStep.of_dep (hpushes : s'.rt.hist.pushes = s.rt.hist.pushes)
    (hstand : AllStand gridT s'.rt s'.dep arg) (hcall : CallGrounded gridT s' arg c pc') :
    GroundedStep gridT s s' arg c pc' arg :=
  ⟨fun _ _ => rfl, hstand, hcall, fun _ _ h => .inl (hpushes ▸ h)⟩

/-- A push, and what the analysis stores next to it. -/
theorem GroundedStep.of_push {l : List TaskId} {d : Analysis} (hx : Justified gridT s.rt c x)
    (hp : (s.rt.task c).parent = some t) (hc : c < s.rt.next) (hlt : x < s.rt.next)
    (hstand : AllStand gridT s.rt d arg)
    (hcall : CallGrounded gridT ⟨s.rt.pushed c x l, d.setDepsLast c x⟩ arg c pc') :
    GroundedStep gridT s ⟨s.rt.pushed c x l, d.setDepsLast c x⟩ arg c pc' arg := by
  have hg : Grows s.rt (s.rt.pushed c x l) := .pushed
  refine ⟨fun _ _ => rfl, ?_, hcall, fun y z hyz => ?_⟩
  · exact AllStand.of_elem (d := d) rfl rfl (fun p j e he => .inl he) (hstand.grows hg)
  · rw [Runtime.pushed_hist_pushes, List.mem_cons] at hyz
    rcases hyz with heq | hold
    · cases heq
      exact .inr ⟨rfl, hx.mono hg hp hc hlt⟩
    · exact .inl hold

theorem grounded_createDependency (hE : Elements s) (hcaller : Caller s.rt t c)
    (hstand : AllStand gridT s.rt s.dep arg) (hv : Visiting s t c k)
    (hw : WalkOk gridT s.rt arg c k) (hj : j ∈ (arg k.elem).blocks gridT) :
    GroundedStep gridT s { s with dep := (createDependency s.dep c t k j).2 } arg c
      (createDependency s.dep c t k j).1 arg := by
  have hset : ∀ b, AllStand gridT s.rt ((s.dep.setNode t j k.elem).visit c b j) arg :=
    fun _ => hstand.setNode hj
  have hacc := hstand.accesses_current hv.toCurrent hj
  unfold createDependency
  split
  · rename_i hout
    split
    · exact .of_dep rfl (hset true) hw
    · rename_i e he
      have hof := hE.table t j e he
      have hse := hstand e hof.allocated
      split
      · rename_i htype
        exact .of_dep rfl (hset true) ⟨hw, j, hj, htype ▸ hse.accesses (hse.node t j he)⟩
      · rename_i htype
        rw [hout] at hacc
        have hread : ∀ x ∈ (s.dep.elem e).readers, x = c ∨ Justified gridT s.rt c x :=
          fun x hx => justified_of_reader hcaller hse hof (by simpa using htype)
            (hse.node t j he) hacc hx
        exact .of_dep rfl (hset true) ⟨hw, hread⟩
  · split
    · exact .of_dep rfl (hset false) hw
    · rename_i e he
      have hse := hstand e (hE.table t j e he).allocated
      split
      · rename_i htype
        exact .of_dep rfl (hset false) ⟨hw, j, hj, htype ▸ hse.accesses (hse.node t j he)⟩
      · exact .of_dep rfl hstand ⟨hw, hj, hse.node t j he⟩

theorem grounded_createDependencies (hE : Elements s) (hcaller : Caller s.rt t c)
    (hc : c < s.rt.next) (hstand : AllStand gridT s.rt s.dep arg) (hok : CallOk s t c (.walk k))
    (hw : WalkOk gridT s.rt arg c k) :
    ∃ arg', GroundedStep gridT s { s with dep := (createDependencies gridT s.dep c t k).2 } arg c
      (createDependencies gridT s.dep c t k).1 arg' := by
  unfold createDependencies
  split
  · rename_i j blocks hb
    have hv : Visiting s t c { k with blocks := blocks } := by
      have h := hok.2 (by simp [hb])
      exact ⟨⟨h.elemOf, h.owner, h.type⟩, h.reader⟩
    have hw' : WalkOk gridT s.rt arg c { k with blocks := blocks } :=
      ⟨hw.args, fun i hi => hw.blocks i (hi.imp_right fun hmem => by simp [hb, hmem])⟩
    exact ⟨arg, grounded_createDependency hE hcaller hstand hv hw' (hw.blocks j (by simp [hb]))⟩
  · rename_i piece pieces hb hpieces
    have hcur := hok.1 (by simp [hpieces])
    have hw' : WalkOk gridT s.rt arg c { k with pieces := pieces, blocks := piece } :=
      ⟨hw.args, fun i hi => hw.blocks i (by
        rw [hpieces, List.flatten_cons, List.mem_append]
        exact .inl hi.symm)⟩
    refine ⟨arg, ?_⟩
    split
    · exact .of_dep rfl hstand hw'
    · exact .of_dep rfl (hstand.insertFront (.inl hcur.owner.symm)) hw'
  · rename_i a args hb hpieces hargs
    have hsub : args ⊆ (s.rt.task c).args := fun x hx =>
      hw.args (by rw [hargs]; exact List.mem_cons_of_mem _ hx)
    split
    · exact ⟨arg, .of_dep rfl hstand ⟨hsub, fun i hi => by simp [hb, hpieces] at hi⟩⟩
    · rename_i hsafe
      refine ⟨Function.update arg s.dep.nextElem a, ?_, ?_, ?_, fun t x h => .inl h⟩
      · exact fun e he => Function.update_of_ne he.ne _ _
      · exact hstand.newElement hc (hw.args (by simp [hargs])) fun p j e he =>
          (hE.table p j e he).allocated
      · refine ⟨hsub, fun i hi => ?_⟩
        rw [Function.update_self, Argument.blocks, if_neg hsafe]
        simpa [hb] using hi
  · split <;> exact ⟨arg, .of_dep rfl hstand trivial⟩

theorem grounded_notifyOwner [Fintype ω] (hS : Sound s) (hp : (s.rt.task c).parent = some t)
    (hc : c < s.rt.next) (hstand : AllStand gridT s.rt s.dep arg) {raw : Bool}
    (hok : CallOk s t c (.push k e raw)) (h : CallGrounded gridT s arg c (.push k e raw)) :
    GroundedStep gridT s (notifyOwner s c k e raw).2 arg c (notifyOwner s c k e raw).1 arg := by
  obtain ⟨hv, he⟩ := hok
  obtain ⟨hw, j, hj, hacc⟩ := h
  unfold notifyOwner
  dsimp only
  split
  · exact .of_dep rfl hstand hw
  · split
    · exact .of_dep rfl hstand hw
    · rename_i r hr
      obtain ⟨l, -, rfl⟩ := stackPush_eq_some.1 hr
      have hcur := hstand.accesses_current hv.toCurrent hj
      have hlt := hS.lt_of_kin he.owner
      have hw' : WalkOk gridT (s.rt.pushed c (s.dep.elem e).owner l) arg c
          { k with waitfor := k.waitfor + 1 } :=
        WalkOk.mono (k := { k with waitfor := k.waitfor + 1 }) .pushed hc (fun _ => rfl)
          ⟨hw.args, hw.blocks⟩
      have hconf : Justified gridT s.rt c (s.dep.elem e).owner :=
        .inl ⟨k.out, true, j, .inr rfl, hcur, hacc⟩
      cases raw with
      | false => exact .of_push hconf hp hc hlt hstand hw'
      | true =>
        exact .of_push hconf hp hc hlt (hstand.setDependent he.allocated ⟨j, hj, hacc⟩) hw'

theorem grounded_notifyReaders [Fintype ω] (hS : Sound s) (hp : (s.rt.task c).parent = some t)
    (hc : c < s.rt.next) (hstand : AllStand gridT s.rt s.dep arg) {rest : List TaskId}
    (hok : CallOk s t c (.readers k rest)) (h : CallGrounded gridT s arg c (.readers k rest)) :
    GroundedStep gridT s (notifyReaders s c k rest).2 arg c (notifyReaders s c k rest).1 arg := by
  obtain ⟨hv, hkin⟩ := hok
  obtain ⟨hw, hrest⟩ := h
  cases rest with
  | nil => exact .of_dep rfl hstand hw
  | cons x rest =>
    have hrest' : ∀ y ∈ rest, y = c ∨ Justified gridT s.rt c y := fun y hy =>
      hrest y (List.mem_cons_of_mem _ hy)
    simp only [notifyReaders]
    split
    · rename_i hne
      split
      · exact .of_dep rfl hstand ⟨hw, hrest'⟩
      · rename_i r hr
        obtain ⟨l, -, rfl⟩ := stackPush_eq_some.1 hr
        have hg : Grows s.rt (s.rt.pushed c x l) := .pushed
        have hx := (hrest x List.mem_cons_self).resolve_left (Ne.symm hne.1)
        have hw' : WalkOk gridT (s.rt.pushed c x l) arg c { k with waitfor := k.waitfor + 1 } :=
          WalkOk.mono (k := { k with waitfor := k.waitfor + 1 }) hg hc (fun _ => rfl)
            ⟨hw.args, hw.blocks⟩
        refine .of_push hx hp hc (hS.lt_of_kin (hkin x List.mem_cons_self)) hstand
          ⟨hw', fun y hy => ?_⟩
        exact (hrest' y hy).imp_right (Justified.mono hg hp hc
          (hS.lt_of_kin (hkin y (List.mem_cons_of_mem _ hy))))
    · exact .of_dep rfl hstand ⟨hw, hrest'⟩

theorem grounded_readAfterRead (hcaller : Caller s.rt t c) (hc : c < s.rt.next)
    (hstand : AllStand gridT s.rt s.dep arg) (hok : CallOk s t c (.ownerStatus k e j))
    (h : CallGrounded gridT s arg c (.ownerStatus k e j)) :
    GroundedStep gridT s (readAfterRead s c t k e j).2 arg c (readAfterRead s c t k e j).1 arg := by
  obtain ⟨hv, he, hout, htype, -⟩ := hok
  obtain ⟨hw, hj, hje⟩ := h
  have hse := hstand e he.allocated
  have hacc := hstand.accesses_current hv.toCurrent hj
  rw [hout] at hacc
  unfold readAfterRead
  dsimp only
  split
  · have hjoin : AllStand gridT s.rt ((s.dep.insertFront c e).visit c false j) arg := by
      refine AllStand.of_elem (d := s.dep.insertFront c e) rfl rfl (fun p i e he => .inl he)
        (hstand.insertFront ?_)
      rcases hcaller.sibling he.owner with hself | hsib
      · exact .inl hself.symm
      · exact .inr ⟨hsib.1, hc, j, hje, hacc⟩
    split
    · exact .of_dep rfl hjoin hw
    · rename_i d hd
      split
      · rename_i hne
        refine .of_dep rfl hjoin ⟨hw, ?_⟩
        have hjust := justified_of_dependent hcaller hse he htype hje hacc hne.1 hd
        simpa using hjust
      · exact .of_dep rfl hjoin hw
  · exact .of_dep rfl (hstand.setNode hj) hw

theorem grounded_notifyDependent [Fintype ω] (hS : Sound s) (hp : (s.rt.task c).parent = some t)
    (hc : c < s.rt.next) (hstand : AllStand gridT s.rt s.dep arg)
    (hok : CallOk s t c (.pushDependent k e))
    (h : CallGrounded gridT s arg c (.pushDependent k e)) :
    GroundedStep gridT s (notifyDependent s c k e).2 arg c (notifyDependent s c k e).1 arg := by
  obtain ⟨hv, -, -, hkin⟩ := hok
  obtain ⟨hw, hjust⟩ := h
  unfold notifyDependent
  dsimp only
  split
  · exact .of_dep rfl hstand hw
  · rename_i r hr
    obtain ⟨l, -, rfl⟩ := stackPush_eq_some.1 hr
    refine .of_push hjust hp hc (hS.lt_of_kin hkin) hstand ?_
    exact WalkOk.mono (k := { k with waitfor := k.waitfor + 1 }) .pushed hc (fun _ => rfl)
      ⟨hw.args, hw.blocks⟩

/-- **An access of `tpc_call` pushes for a reason.** -/
theorem grounded_tpcCall [Fintype ω] (hS : Sound s) (hp : (s.rt.task c).parent = some t)
    (hcaller : pc.walking → Caller s.rt t c) (hg : Grows s.rt s'.rt) (hok : CallOk s t c pc)
    (hstand : AllStand gridT s.rt s.dep arg) (hcall : CallGrounded gridT s arg c pc)
    (h : tpcCall gridT s c pc = some (pc', s')) :
    ∃ arg', GroundedStep gridT s s' arg c pc' arg' := by
  have hc : c < s.rt.next := (hS.family.parent_of_eq hS.tokens hp).2.1
  cases pc with
  | incr =>
    rw [tpcCall, hp] at h
    cases h
    exact ⟨arg, .of_dep rfl (hstand.grows hg) trivial⟩
  | creating =>
    cases h
    refine ⟨arg, .of_dep rfl (hstand.grows hg) ⟨?_, fun i hi => by simp [Walk.start] at hi⟩⟩
    rw [hg.args c hc]
    exact List.Subset.refl _
  | walk k =>
    rw [tpcCall, hp] at h
    cases h
    exact grounded_createDependencies hS.elements (hcaller rfl) hc hstand hok hcall
  | push k e raw =>
    rw [tpcCall, Option.some.injEq] at h
    have hs := grounded_notifyOwner hS hp hc hstand hok hcall
    rw [h] at hs
    exact ⟨arg, hs⟩
  | readers k rest =>
    rw [tpcCall, Option.some.injEq] at h
    have hs := grounded_notifyReaders hS hp hc hstand hok hcall
    rw [h] at hs
    exact ⟨arg, hs⟩
  | ownerStatus k e j =>
    rw [tpcCall, hp, Option.map_some, Option.some.injEq] at h
    have hs := grounded_readAfterRead (hcaller rfl) hc hstand hok hcall
    rw [h] at hs
    exact ⟨arg, hs⟩
  | pushDependent k d =>
    rw [tpcCall, Option.some.injEq] at h
    have hs := grounded_notifyDependent hS hp hc hstand hok hcall
    rw [h] at hs
    exact ⟨arg, hs⟩
  | storeWaitfor n =>
    cases h
    exact ⟨arg, .of_dep rfl (hstand.grows hg) trivial⟩
  | storeCreated n => cases h

/-! ## The steps of the system -/

variable [Fintype ω] [DecidableEq ω] {w : ω} {f : Frame} {gs fs : List Frame} {ch : Choice ω}

omit [Fintype ω] in
/-- Only the calls of `tpc_call` push. -/
theorem Move.pushes_eq {r r' : Runtime ω} (h : Move r w f gs r')
    (hne : ∀ t tmp c pc, f = .execute t tmp (.call c pc) → ¬ pc.walking) :
    r'.hist.pushes = r.hist.pushes := by
  cases h with
  | push hpc => exact absurd hpc (hne _ _ _ _ rfl)
  | _ => rfl

/-- What an action keeps, of the elements and of the call that it performs. -/
structure GroundedAct (gridT : BitVec 64) (s s' : State ω) (arg arg' : ElemId → Argument)
    (gs : List Frame) : Prop where
  agrees : ∀ e < s.dep.nextElem, arg' e = arg e
  stand : AllStand gridT s'.rt s'.dep arg'
  calls : ∀ t tmp c pc, Frame.execute t tmp (.call c pc) ∈ gs → CallGrounded gridT s' arg' c pc
  pushes : ∀ t x, (t, x) ∈ s'.rt.hist.pushes → Justified gridT s'.rt t x

theorem Grounded.groundedAct (hS : Sound s) (hG : Grounded gridT s arg)
    (hst : s.rt.stack w = f :: fs) (h : Partee.act gridT s w f ch = some (gs, s')) :
    ∃ arg', GroundedAct gridT s s' arg arg' gs := by
  have hg : Grows s.rt s'.rt := hS.grows hst h
  have hold : ∀ t x, (t, x) ∈ s.rt.hist.pushes → Justified gridT s'.rt t x := fun t x hmem => by
    obtain ⟨hlt, hnext, ⟨p, -, hp⟩, -⟩ := hS.family.pushes t x hmem
    exact (hG.pushes t x hmem).mono hg hp hnext (hlt.trans hnext)
  have hcall : ∀ t tmp c pc pc', f = .execute t tmp (.call c pc) →
      gs = [.execute t tmp (.call c pc')] → tpcCall gridT s c pc = some (pc', s') →
      ∃ arg', GroundedAct gridT s s' arg arg' gs := by
    rintro t tmp c pc pc' rfl rfl hcall
    have hmem : Frame.execute t tmp (.call c pc) ∈ s.rt.stack w := hst ▸ List.mem_cons_self
    obtain ⟨arg', hstep⟩ := grounded_tpcCall hS (hS.owned hst).2.2.2.1 (hS.caller hst) hg
      (hS.elements.calls w t tmp c pc hmem) hG.stand (hG.calls w t tmp c pc hmem) hcall
    refine ⟨arg', hstep.agrees, hstep.stand, fun t' tmp' c' pc₁ hgs => ?_, fun y x hyx => ?_⟩
    · simp only [List.mem_singleton, Frame.execute.injEq, ExecPc.call.injEq] at hgs
      obtain ⟨rfl, rfl, rfl, rfl⟩ := hgs
      exact hstep.call
    · rcases hstep.pushes y x hyx with hpast | ⟨rfl, hnew⟩
      · exact hold y x hpast
      · exact hnew
  by_cases hwalk : ∃ t tmp c pc, f = .execute t tmp (.call c pc) ∧ pc.walking
  · obtain ⟨t, tmp, c, pc, rfl, hpc⟩ := hwalk
    obtain ⟨pc', hgs, htpc⟩ := tpcCall_of_act (fun n hn => by simp [hn, CallPc.walking] at hpc) h
    exact hcall t tmp c pc pc' rfl hgs htpc
  · have hpushes : s'.rt.hist.pushes = s.rt.hist.pushes :=
      (hS.move hst h).pushes_eq fun t tmp c pc hf hpc => hwalk ⟨t, tmp, c, pc, hf, hpc⟩
    rw [← hpushes] at hold
    have hstand : AllStand gridT s'.rt s.dep arg := hG.stand.grows hg
    rcases dep_of_act h with ⟨hdep, hincr⟩ | ⟨t, tmp, -, rfl, hdep⟩ |
      ⟨t, tmp, c, pc, pc', hf, hgs, htpc⟩
    · refine ⟨arg, fun _ _ => rfl, hdep ▸ hstand, fun t tmp c pc hgs => ?_, hold⟩
      rw [hincr t tmp c pc hgs]
      trivial
    · refine ⟨arg, fun _ _ => rfl, ?_, fun t tmp c pc hgs => by simp at hgs, hold⟩
      rw [hdep]
      refine AllStand.of_elem (d := s.dep) rfl rfl (fun p j e he => .inl ?_) hstand
      rw [Analysis.newTrie_metadata] at he
      rcases eq_or_ne p t with rfl | hne
      · simp at he
      · rwa [Function.update_of_ne hne] at he
    · exact hcall t tmp c pc pc' hf hgs htpc

omit [Fintype ω] in
theorem CallGrounded.setStack {l : List Frame} (h : CallGrounded gridT s arg c pc) :
    CallGrounded gridT { s with rt := s.rt.setStack w l } arg c pc := by
  have hwalk : ∀ {k}, WalkOk gridT s.rt arg c k → WalkOk gridT (s.rt.setStack w l) arg c k :=
    fun hw => ⟨hw.args, hw.blocks⟩
  cases pc with
  | walk k => exact hwalk h
  | push k e raw => exact ⟨hwalk h.1, h.2⟩
  | readers k rest => exact ⟨hwalk h.1, h.2⟩
  | ownerStatus k e j => exact ⟨hwalk h.1, h.2⟩
  | pushDependent k d => exact ⟨hwalk h.1, h.2⟩
  | _ => trivial

/-- **The invariant is kept by every action.** -/
theorem Grounded.act (hS : Sound s) (hG : Grounded gridT s arg) (hst : s.rt.stack w = f :: fs)
    (h : Partee.act gridT s w f ch = some (gs, s')) :
    ∃ arg', Grounded gridT { s' with rt := s'.rt.setStack w (gs ++ fs) } arg' := by
  obtain ⟨arg', ha⟩ := hG.groundedAct hS hst h
  refine ⟨arg', ha.stand.grows .setStack, fun v t tmp c pc hv => ?_, ha.pushes⟩
  rcases mem_setStack (hS.move hst h).stack_eq hst hv with ⟨-, hgs⟩ | ⟨hold, -⟩
  · exact (ha.calls t tmp c pc hgs).setStack
  · have hok := hS.elements.calls v t tmp c pc hold
    have hp := (hS.family.frames v _ hold).2
    exact ((hG.calls v t tmp c pc hold).mono hS (hS.extends hst h) hok hp ha.agrees).setStack

omit [Fintype ω] in
theorem Grounded.init (main : ω) : Grounded gridT (init main) arg where
  stand e he := absurd he (Nat.not_lt_zero e)
  calls w t tmp c pc hmem := by
    simp only [Partee.init] at hmem
    split at hmem <;> simp at hmem
  pushes t x hmem := by cases hmem

/-! ## The result -/

theorem Grounded.of_reachable {main : ω} (h : Reachable gridT main s) :
    ∃ arg, Grounded gridT s arg := by
  refine h.invariant_of (I := fun s => ∃ arg, Grounded gridT s arg)
    (fun s hr => Sound.of_reachable hr) ⟨fun _ => .ofBlock 0 0 0, .init main⟩ ?_
  rintro s m s' hS ⟨arg, hG⟩ - hs
  obtain ⟨f, fs, gs, s₁, hst, hact, rfl⟩ := act_of_step hs
  exact hG.act hS hst hact

/-- **Every wait is justified.**  A task waits for earlier siblings only, and for a
reason. -/
theorem waits_justified {main : ω} (h : Reachable gridT main s)
    (hpush : (t, x) ∈ s.rt.hist.pushes) :
    x < t ∧ (∃ p, (s.rt.task x).parent = some p ∧ (s.rt.task t).parent = some p) ∧
      Justified gridT s.rt t x := by
  obtain ⟨arg, hG⟩ := Grounded.of_reachable h
  have hwait := (Sound.of_reachable h).family.pushes t x hpush
  exact ⟨hwait.lt, hwait.parent, hG.pushes t x hpush⟩

/-- Task 1 writes block 0, and task 2 reads the blocks 0 and 1 by one argument.  Task
3 reads block 1, and task 4 writes block 0. -/
def sharedElementRun (v : ω) : List (ω × Choice ω) :=
  (v, .spawn [.ofBlock 0 2 0]) :: goOn v 9 ++
    (v, .spawn [{ Argument.ofBlock 0 1 0 with size := 4096 }]) :: goOn v 10 ++
    (v, .spawn [.ofBlock 0 1 1]) :: goOn v 10 ++ (v, .spawn [.ofBlock 0 2 0]) :: goOn v 6

/-- Task 3 waits for task 1, and task 4 for task 3. -/
theorem exists_sharedElement :
    ∃ s : State (Fin 2), Reachable 0 0 s ∧ (3, 1) ∈ s.rt.hist.pushes ∧
      (4, 3) ∈ s.rt.hist.pushes ∧ (s.rt.task 1).args = [.ofBlock 0 2 0] ∧
      (s.rt.task 3).args = [.ofBlock 0 1 1] ∧ (s.rt.task 4).args = [.ofBlock 0 2 0] :=
  Run.exists_of_exec (l := sharedElementRun 0) ⟨_, rfl, by decide, by decide, rfl, rfl, rfl⟩

theorem waits_justified_example :
    ∃ s : State (Fin 2), Reachable 0 0 s ∧ (3, 1) ∈ s.rt.hist.pushes ∧
      Justified 0 s.rt 3 1 := by
  obtain ⟨s, hr, hpush, -⟩ := exists_sharedElement
  exact ⟨s, hr, hpush, (waits_justified hr hpush).2.2⟩

omit [Fintype ω] [DecidableEq ω] in
/-- Tasks with one argument each, which visit different blocks. -/
theorem not_conflict_of_args {g g' : Argument} {i : ℕ} (ht : (r.task t).args = [g])
    (hx : (r.task x).args = [g']) (hg : g.blocks gridT = [i]) (hg' : g'.blocks gridT = [j])
    (hij : i ≠ j) : ¬ Conflict gridT r t x := by
  rintro ⟨a, b, l, -, ⟨g₁, hg₁, -, hl⟩, ⟨g₂, hg₂, -, hl'⟩⟩
  rw [ht, List.mem_singleton] at hg₁
  rw [hx, List.mem_singleton] at hg₂
  rw [hg₁, hg, List.mem_singleton] at hl
  rw [hg₂, hg', List.mem_singleton] at hl'
  exact hij (hl.symm.trans hl')

/-- A reader waits for a writer, and a writer for a reader, of another block. -/
theorem waits_without_conflict :
    ∃ s : State (Fin 2), Reachable 0 0 s ∧
      ((3, 1) ∈ s.rt.hist.pushes ∧ ¬ Conflict 0 s.rt 3 1) ∧
      ((4, 3) ∈ s.rt.hist.pushes ∧ ¬ Conflict 0 s.rt 4 3) := by
  obtain ⟨s, hr, h31, h43, h1, h3, h4⟩ := exists_sharedElement
  exact ⟨s, hr,
    ⟨h31, not_conflict_of_args h3 h1 (i := 1) (j := 0) (by decide) (by decide) (by decide)⟩,
    ⟨h43, not_conflict_of_args h4 h3 (i := 0) (j := 1) (by decide) (by decide) (by decide)⟩⟩

end Partee
