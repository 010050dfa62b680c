import Partee.Runtime.Width

/-!
# Blocks that are read again

A task that finds the element of an earlier reader at a block joins its readers and is
pushed on the stack of the writer that `dependent_metadata` names.  The push is skipped
when the last push of the task went to the owner of the element found, which is the
reader and not the writer.  So a task whose arguments cover the same blocks several times
is pushed on the same stack once per visit, and `waitfor` is the number of the visits,
modulo `2 ^ 32`.

* `Rereader`: the names of the tasks and elements involved.
* `Rereader.At`: the situation, at a program point of the analysis.
* `At.block`, `At.blocks`, `At.argument`, `At.arguments`: one visit, the visits of an
  argument, and those of several arguments.
* `At.overflow`: when the number of pushes is a multiple of `2 ^ 32`, the task is scheduled
  at once.
* `exists_overflow`: a program in which this happens.
-/

namespace Partee

open Transition

variable {ω : Type*}

/-- `task`, a child of `parent`, reads `blocks` whose element `found` belongs to `reader`
and names an element `dependent` of `writer`. -/
structure Rereader where
  parent : TaskId
  task : TaskId
  reader : TaskId
  writer : TaskId
  found : ElemId
  dependent : ElemId
  blocks : List ℕ

namespace Rereader

/-- The data of the analysis, when `task` has been pushed `n` times, last on `writer`.
The descriptors are those of `r₀`, but for their counts and stacks. -/
structure Facts (R : Rereader) (r₀ : Runtime ω) (n : ℕ) (s : State ω) : Prop where
  kept : ∀ t, (s.rt.task t).args = (r₀.task t).args ∧ (s.rt.task t).parent = (r₀.task t).parent ∧
    (s.rt.task t).status = (r₀.task t).status
  unlocked : (s.rt.task R.writer).toNotify ≠ none
  last : s.dep.depsLast R.task = some R.writer
  table : ∀ j ∈ R.blocks, s.dep.metadata R.parent j = some R.found
  isIn : isOutType (s.dep.elem R.found).type = false
  reader : (s.dep.elem R.found).owner = R.reader
  dependent : (s.dep.elem R.found).dependentMetadata = some R.dependent
  writer : (s.dep.elem R.dependent).owner = R.writer
  found_lt : R.found < s.dep.nextElem
  dependent_lt : R.dependent < s.dep.nextElem
  pushes : pushesOf s.rt R.task = n

/-- What the situation asks of the descriptors. -/
structure Applies (R : Rereader) (r₀ : Runtime ω) : Prop where
  parent : (r₀.task R.task).parent = some R.parent
  reader : (r₀.task R.reader).status.code ≤ Status.executed.code
  task_ne : R.task ≠ R.reader
  writer_ne : R.writer ≠ R.reader

/-- The analysis of `task` stands at `pc`, on an otherwise empty stack. -/
structure At (R : Rereader) (r₀ : Runtime ω) (w : ω) (tmp : Option TaskId) (pc : CallPc) (n : ℕ)
    (s : State ω) : Prop where
  stack : s.rt.stack w = [.execute R.parent tmp (.call R.task pc)]
  facts : R.Facts r₀ n s

variable {R : Rereader} {r₀ : Runtime ω} {w : ω} {tmp : Option TaskId} {pc pc' : CallPc}
  {n m : ℕ} {s s' : State ω} {gridT : BitVec 64} {args : List Argument} {e : ElemId}
  {out : Bool} {pieces : List (List ℕ)} {bs : List ℕ}

/-! ## One access -/

/-- The facts are not about counts. -/
theorem Facts.wrap (h : R.Facts r₀ n s) : R.Facts r₀ n s.wrap :=
  ⟨h.kept, h.unlocked, h.last, h.table, h.isIn, h.reader, h.dependent, h.writer,
    h.found_lt, h.dependent_lt, h.pushes⟩

/-- Nor are they about stacks. -/
theorem Facts.setStack [DecidableEq ω] {l : List Frame} (h : R.Facts r₀ n s) :
    R.Facts r₀ n { s with rt := s.rt.setStack w l } :=
  ⟨h.kept, h.unlocked, h.last, h.table, h.isIn, h.reader, h.dependent, h.writer,
    h.found_lt, h.dependent_lt, h.pushes⟩

/-- The task joins the readers of some element. -/
theorem Facts.insertFront (h : R.Facts r₀ n s) (i : ElemId) :
    R.Facts r₀ n { s with dep := s.dep.insertFront R.task i } where
  kept := h.kept
  unlocked := h.unlocked
  last := h.last
  table := h.table
  isIn := by rw [Analysis.insertFront_type, h.isIn]
  reader := by rw [Analysis.insertFront_owner, h.reader]
  dependent := by rw [Analysis.insertFront_dependent, h.dependent]
  writer := by rw [Analysis.insertFront_owner, h.writer]
  found_lt := h.found_lt
  dependent_lt := h.dependent_lt
  pushes := h.pushes

theorem Facts.newElement (h : R.Facts r₀ n s) (type : BitVec 32) :
    R.Facts r₀ n { s with dep := s.dep.newElement type R.task } where
  kept := h.kept
  unlocked := h.unlocked
  last := h.last
  table := h.table
  isIn := by rw [Analysis.newElement_of_lt _ _ _ _ h.found_lt, h.isIn]
  reader := by rw [Analysis.newElement_of_lt _ _ _ _ h.found_lt, h.reader]
  dependent := by rw [Analysis.newElement_of_lt _ _ _ _ h.found_lt, h.dependent]
  writer := by rw [Analysis.newElement_of_lt _ _ _ _ h.dependent_lt, h.writer]
  found_lt := Nat.lt_succ_of_lt h.found_lt
  dependent_lt := Nat.lt_succ_of_lt h.dependent_lt
  pushes := h.pushes

theorem Facts.visit (h : R.Facts r₀ n s) (j : ℕ) :
    R.Facts r₀ n { s with dep := s.dep.visit R.task false j } :=
  ⟨h.kept, h.unlocked, h.last, h.table, h.isIn, h.reader, h.dependent, h.writer,
    h.found_lt, h.dependent_lt, h.pushes⟩

/-- The push on the stack of the writer. -/
theorem Facts.pushed (h : R.Facts r₀ n s) (l : List TaskId) :
    R.Facts r₀ (n + 1)
      ⟨s.rt.pushed R.task R.writer l, s.dep.setDepsLast R.task R.writer⟩ where
  kept t := by
    by_cases ht : t = R.writer
    · rw [ht, ← (h.kept R.writer).1, ← (h.kept R.writer).2.1, ← (h.kept R.writer).2.2]
      simp
    · simpa [ht] using h.kept t
  unlocked := by simp
  last := by simp
  table := h.table
  isIn := h.isIn
  reader := h.reader
  dependent := h.dependent
  writer := h.writer
  found_lt := h.found_lt
  dependent_lt := h.dependent_lt
  pushes := by
    have hp := h.pushes
    simp only [pushesOf] at hp ⊢
    simp [hp]

variable [DecidableEq ω]

/-- An access of the analysis. -/
theorem At.go (h : R.At r₀ w tmp pc n s) (hpc : pc.walking)
    (hcall : tpcCall gridT s R.task pc = some (pc', s')) (hfacts : R.Facts r₀ m s') :
    ∃ x, Reach (step32 gridT) s x ∧ R.At r₀ w tmp pc'.wrap m x := by
  have hact : act gridT s w (.execute R.parent tmp (.call R.task pc)) .go =
      some ([.execute R.parent tmp (.call R.task pc')], s') := by
    cases pc with
    | incr | creating | storeWaitfor n | storeCreated n => cases hpc
    | _ => simp [act, executeTask, hcall]
  refine ⟨_, Run.refl.tail trivial (step32_of_act h.stack hact), ?_, hfacts.setStack.wrap⟩
  simp [Frame.wrap]

/-! ## A block -/

/-- **Every visit of a block is a push.** -/
theorem At.block {j : ℕ} (hR : R.Applies r₀)
    (h : R.At r₀ w tmp (.walk ⟨args, e, false, pieces, j :: bs, n % 2 ^ 32⟩) n s)
    (hj : j ∈ R.blocks) :
    ∃ x, Reach (step32 gridT) s x ∧
      R.At r₀ w tmp (.walk ⟨args, e, false, pieces, bs, (n + 1) % 2 ^ 32⟩) (n + 1) x := by
  have hparent : ∀ {u : State ω} {k : ℕ}, R.Facts r₀ k u →
      (u.rt.task R.task).parent = some R.parent := fun hu =>
    (hu.kept R.task).2.1.trans hR.parent
  -- the element found is that of a reader
  have hwalk : tpcCall gridT s R.task (.walk ⟨args, e, false, pieces, j :: bs, n % 2 ^ 32⟩) =
      some (.ownerStatus ⟨args, e, false, pieces, bs, n % 2 ^ 32⟩ R.found j, s) := by
    simp [tpcCall, hparent h.facts, createDependencies, createDependency, h.facts.table j hj,
      h.facts.isIn]
  obtain ⟨s₁, hr₁, h₁⟩ := h.go rfl hwalk h.facts
  -- it is not released, and names a writer
  have hstatus : (s₁.rt.task R.reader).status.code ≤ Status.executed.code := by
    rw [(h₁.facts.kept R.reader).2.2]
    exact hR.reader
  have hread : tpcCall gridT s₁ R.task
      (.ownerStatus ⟨args, e, false, pieces, bs, n % 2 ^ 32⟩ R.found j) =
      some (.pushDependent ⟨args, e, false, pieces, bs, n % 2 ^ 32⟩ R.dependent,
        { s₁ with dep := (s₁.dep.insertFront R.task R.found).visit R.task false j }) := by
    simp [tpcCall, hparent h₁.facts, readAfterRead, h₁.facts.reader, hstatus,
      h₁.facts.dependent, hR.task_ne, h₁.facts.last, hR.writer_ne]
  have hwrap : CallPc.wrap (.ownerStatus ⟨args, e, false, pieces, bs, n % 2 ^ 32⟩ R.found j) =
      .ownerStatus ⟨args, e, false, pieces, bs, n % 2 ^ 32⟩ R.found j := by
    simp [CallPc.wrap, Walk.wrap]
  rw [hwrap] at h₁
  obtain ⟨s₂, hr₂, h₂⟩ := h₁.go rfl hread ((h₁.facts.insertFront R.found).visit j)
  -- the writer's stack takes the task once more
  obtain ⟨l, hl⟩ := Option.ne_none_iff_exists'.1 h₂.facts.unlocked
  have hpush : tpcCall gridT s₂ R.task
      (.pushDependent ⟨args, e, false, pieces, bs, n % 2 ^ 32⟩ R.dependent) =
      some (.walk ⟨args, e, false, pieces, bs, n % 2 ^ 32 + 1⟩,
        ⟨s₂.rt.pushed R.task R.writer l, s₂.dep.setDepsLast R.task R.writer⟩) := by
    simp [tpcCall, notifyDependent, h₂.facts.writer, stackPush, hl]
  have hwrap' : CallPc.wrap (.pushDependent ⟨args, e, false, pieces, bs, n % 2 ^ 32⟩ R.dependent) =
      .pushDependent ⟨args, e, false, pieces, bs, n % 2 ^ 32⟩ R.dependent := by
    simp [CallPc.wrap, Walk.wrap]
  rw [hwrap'] at h₂
  obtain ⟨s₃, hr₃, h₃⟩ := h₂.go rfl hpush (h₂.facts.pushed l)
  refine ⟨s₃, (hr₁.trans hr₂).trans hr₃, ?_⟩
  simpa [CallPc.wrap, Walk.wrap] using h₃

theorem At.blocks (hR : R.Applies r₀)
    (h : R.At r₀ w tmp (.walk ⟨args, e, false, pieces, bs, n % 2 ^ 32⟩) n s)
    (hbs : ∀ j ∈ bs, j ∈ R.blocks) :
    ∃ x, Reach (step32 gridT) s x ∧
      R.At r₀ w tmp (.walk ⟨args, e, false, pieces, [], (n + bs.length) % 2 ^ 32⟩)
        (n + bs.length) x := by
  induction bs generalizing n s with
  | nil => exact ⟨s, .refl, h⟩
  | cons j bs ih =>
    obtain ⟨s₁, hr₁, h₁⟩ := h.block hR (hbs j List.mem_cons_self)
    obtain ⟨s₂, hr₂, h₂⟩ := ih h₁ fun i hi => hbs i (List.mem_cons_of_mem j hi)
    refine ⟨s₂, hr₁.trans hr₂, ?_⟩
    rw [List.length_cons, Nat.add_comm bs.length, ← Nat.add_assoc]
    exact h₂

/-! ## The arguments -/

/-- A plain IN argument that covers blocks of the situation. -/
structure Reads (R : Rereader) (gridT : BitVec 64) (a : Argument) : Prop where
  safe : a.isSafe = false
  plain : a.isStride = false
  isIn : a.isOut = false
  blocks : ∀ j ∈ blockRange gridT a, j ∈ R.blocks

theorem At.argument {a : Argument} (hR : R.Applies r₀) (ha : R.Reads gridT a)
    (h : R.At r₀ w tmp (.walk ⟨a :: args, e, out, [], [], n % 2 ^ 32⟩) n s) :
    ∃ e' x, Reach (step32 gridT) s x ∧
      R.At r₀ w tmp (.walk ⟨args, e', false, [], [], (n + (blockRange gridT a).length) % 2 ^ 32⟩)
        (n + (blockRange gridT a).length) x := by
  have hparent : ∀ {u : State ω} {k : ℕ}, R.Facts r₀ k u →
      (u.rt.task R.task).parent = some R.parent := fun hu =>
    (hu.kept R.task).2.1.trans hR.parent
  have harg : tpcCall gridT s R.task (.walk ⟨a :: args, e, out, [], [], n % 2 ^ 32⟩) =
      some (.walk ⟨args, s.dep.nextElem, false, [blockRange gridT a], [], n % 2 ^ 32⟩,
        { s with dep := s.dep.newElement a.type R.task }) := by
    simp [tpcCall, hparent h.facts, createDependencies, ha.safe, ha.isIn, handleArgument, ha.plain]
  obtain ⟨s₁, hr₁, h₁⟩ := h.go rfl harg (h.facts.newElement a.type)
  have hpiece : tpcCall gridT s₁ R.task
      (.walk ⟨args, s.dep.nextElem, false, [blockRange gridT a], [], n % 2 ^ 32⟩) =
      some (.walk ⟨args, s.dep.nextElem, false, [], blockRange gridT a, n % 2 ^ 32⟩,
        { s₁ with dep := s₁.dep.insertFront R.task s.dep.nextElem }) := by
    simp [tpcCall, hparent h₁.facts, createDependencies]
  simp only [CallPc.wrap, Walk.wrap, Nat.mod_mod] at h₁
  obtain ⟨s₂, hr₂, h₂⟩ := h₁.go rfl hpiece (h₁.facts.insertFront s.dep.nextElem)
  simp only [CallPc.wrap, Walk.wrap, Nat.mod_mod] at h₂
  obtain ⟨s₃, hr₃, h₃⟩ := h₂.blocks hR ha.blocks
  exact ⟨s.dep.nextElem, s₃, (hr₁.trans hr₂).trans hr₃, h₃⟩

theorem At.arguments {a : Argument} (hR : R.Applies r₀) (ha : R.Reads gridT a) {i : ℕ}
    (h : R.At r₀ w tmp (.walk ⟨.replicate i a, e, out, [], [], n % 2 ^ 32⟩) n s) :
    ∃ e' out' x, Reach (step32 gridT) s x ∧
      R.At r₀ w tmp
        (.walk ⟨[], e', out', [], [], (n + i * (blockRange gridT a).length) % 2 ^ 32⟩)
        (n + i * (blockRange gridT a).length) x := by
  induction i generalizing n s e out with
  | zero => exact ⟨e, out, s, .refl, by simpa using h⟩
  | succ i ih =>
    obtain ⟨e₁, s₁, hr₁, h₁⟩ := h.argument hR ha
    obtain ⟨e', out', s₂, hr₂, h₂⟩ := ih h₁
    refine ⟨e', out', s₂, hr₁.trans hr₂, ?_⟩
    rw [Nat.succ_mul, Nat.add_comm (i * _), ← Nat.add_assoc]
    exact h₂

/-! ## Nothing to wait for -/

/-- `task` is scheduled after `n` pushes.  Of the other descriptors, none has moved on. -/
structure Scheduled (R : Rereader) (r₀ : Runtime ω) (n : ℕ) (s : State ω) : Prop where
  args : ∀ t, (s.rt.task t).args = (r₀.task t).args
  parent : ∀ t, (s.rt.task t).parent = (r₀.task t).parent
  task : (s.rt.task R.task).status = .scheduled
  others : ∀ t, t ≠ R.task → (s.rt.task t).status = (r₀.task t).status
  pushes : pushesOf s.rt R.task = n
  waitfor_lt : (s.rt.task R.task).waitfor < 2 ^ 32

/-- A task that finds nothing to wait for is scheduled by its creator. -/
theorem At.scheduled (hR : R.Applies r₀) (h : R.At r₀ w tmp (.walk ⟨[], e, out, [], [], 0⟩) n s) :
    ∃ x, Reach (step32 gridT) s x ∧ R.Scheduled r₀ n x := by
  have hparent : (s.rt.task R.task).parent = some R.parent :=
    (h.facts.kept R.task).2.1.trans hR.parent
  have hend : tpcCall gridT s R.task (.walk ⟨[], e, out, [], [], 0⟩) = some (.storeCreated 0, s) := by
    simp [tpcCall, hparent, createDependencies]
  obtain ⟨s₁, hr₁, h₁⟩ := h.go rfl hend h.facts
  have hcreated : act gridT s₁ w (.execute R.parent tmp (.call R.task (.storeCreated 0))) .go =
      some ([.schedule R.task false, .execute R.parent tmp .body],
        { s₁ with rt := s₁.rt.setStatus R.task .created }) := by
    simp [act, executeTask]
  obtain ⟨s₂, hs₂, hst₂⟩ : ∃ s₂, step32 gridT s₁ (w, .go) = some s₂ ∧ s₂ = State.wrap
      ⟨(s₁.rt.setStatus R.task .created).setStack w
        ([.schedule R.task false, .execute R.parent tmp .body] ++ []), s₁.dep⟩ :=
    ⟨_, step32_of_act h₁.stack hcreated, rfl⟩
  have hscheduled : act gridT s₂ w (.schedule R.task false) .go =
      some ([.schedule R.task true], { s₂ with rt := s₂.rt.schedule R.task }) := by
    simp [act, scheduleTask, hst₂]
  have hstack : s₂.rt.stack w = [.schedule R.task false, .execute R.parent tmp .body] := by
    simp [hst₂, Frame.wrap]
  refine ⟨_, (hr₁.tail trivial hs₂).tail trivial (step32_of_act hstack hscheduled), ?_⟩
  subst hst₂
  have hkept := h₁.facts.kept
  refine ⟨fun t => ?_, fun t => ?_, by simp, fun t ht => ?_, h₁.facts.pushes, ?_⟩
  · rw [← (hkept t).1]
    by_cases ht : t = R.task
    · subst ht
      simp
    · simp [ht]
  · rw [← (hkept t).2.1]
    by_cases ht : t = R.task
    · subst ht
      simp
    · simp [ht]
  · rw [← (hkept t).2.2]
    simp [ht]
  · exact Nat.mod_lt _ (Nat.two_pow_pos 32)

/-- **A task that is pushed a multiple of `2 ^ 32` times waits for nobody.** -/
theorem At.overflow {a : Argument} (hR : R.Applies r₀) (ha : R.Reads gridT a) {i : ℕ}
    (h : R.At r₀ w tmp (.walk ⟨.replicate i a, e, out, [], [], n % 2 ^ 32⟩) n s)
    (hdvd : 2 ^ 32 ∣ n + i * (blockRange gridT a).length) :
    ∃ x, Reach (step32 gridT) s x ∧ R.Scheduled r₀ (n + i * (blockRange gridT a).length) x := by
  obtain ⟨e', out', s₁, hr₁, h₁⟩ := h.arguments hR ha
  rw [Nat.mod_eq_zero_of_dvd hdvd] at h₁
  obtain ⟨s₂, hr₂, h₂⟩ := h₁.scheduled hR
  exact ⟨s₂, hr₁.trans hr₂, h₂⟩

end Rereader

/-! ## A program -/

/-- An OUT argument that covers blocks 0 and 1. -/
def firstWrite : Argument := { Argument.ofBlock 0x10000 2 0 with size := 4096 }

/-- An IN argument that covers blocks 1 to 85. -/
def longRead : Argument := { Argument.ofBlock 0x10000 1 1 with size := 174080 }

/-- An OUT argument for block 0, and enough IN arguments for blocks 1 to 85. -/
def rereadArgs : List Argument := .ofBlock 0x10000 2 0 :: .replicate 50529027 longRead

/-- Task 1 writes blocks 0 and 1, task 2 reads blocks 1 to 85.  Task 3 is going to write
block 0, for which it has been pushed on task 1, and to read blocks 1 to 85 again and
again. -/
def rereadRun (w : ω) : List (ω × Choice ω) :=
  (w, .spawn [firstWrite]) :: goOn w 10 ++ (w, .spawn [longRead]) :: goOn w 93 ++
    (w, .spawn rereadArgs) :: goOn w 6

set_option maxRecDepth 4000 in
/-- Task 3 is scheduled after `2 ^ 32` pushes, before task 1 has been executed. -/
theorem exists_overflow :
    ∃ s : State (Fin 2), Reach (step32 0x10000) (init 0) s ∧
      (s.rt.task 1).args = [firstWrite] ∧ (s.rt.task 3).args = rereadArgs ∧
      (s.rt.task 1).parent = some 0 ∧ (s.rt.task 3).parent = some 0 ∧
      (s.rt.task 1).status = .scheduled ∧ (s.rt.task 3).status = .scheduled ∧
      pushesOf s.rt 3 = 2 ^ 32 ∧ (s.rt.task 3).waitfor < 2 ^ 32 := by
  have hrun : ∃ s ∈ exec (step 0x10000) CountsEntries (rereadRun 0) (init (0 : Fin 2)),
      s.rt.stack 0 =
        [.execute 0 none (.call 3 (.walk ⟨.replicate 50529027 longRead, 2, true, [], [], 1⟩))] ∧
      s.rt.hist.pushes = [(3, 1), (2, 1)] ∧
      (s.rt.task 1).args = [firstWrite] ∧ (s.rt.task 3).args = rereadArgs ∧
      (s.rt.task 1).parent = some 0 ∧ (s.rt.task 3).parent = some 0 ∧
      (s.rt.task 1).status = .scheduled ∧ (s.rt.task 2).status = .created ∧
      (s.rt.task 1).toNotify = some [3, 2] ∧ s.dep.depsLast 3 = some 1 ∧
      (∀ j ∈ List.range' 1 85, s.dep.metadata 0 j = some 1) ∧
      s.dep.elem 0 = ⟨2, [], 1, none⟩ ∧ s.dep.elem 1 = ⟨1, [2], 2, some 0⟩ ∧ s.dep.nextElem = 3 :=
    ⟨_, rfl, rfl, rfl, rfl, rfl, rfl, rfl, rfl, rfl, rfl, rfl, by decide +kernel, rfl, rfl, rfl⟩
  obtain ⟨s, hr, hst, hpushes, ha1, ha3, hp1, hp3, hs1, hs2, hopen, hlast, htable, he0, he1, hnext⟩ :=
    Run.exists_of_exec hrun
  let R : Rereader := ⟨0, 3, 2, 1, 1, 0, List.range' 1 85⟩
  have hfacts : R.Facts s.rt 1 s :=
    { kept := fun _ => ⟨rfl, rfl, rfl⟩
      unlocked := by simp [R, hopen]
      last := hlast
      table := htable
      isIn := by simp [R, he1, isOutType]
      reader := by rw [he1]
      dependent := by rw [he1]
      writer := by rw [he0]
      found_lt := by simp [R, hnext]
      dependent_lt := by simp [R, hnext]
      pushes := by simp [R, pushesOf, hpushes] }
  have hR : R.Applies s.rt :=
    { parent := hp3
      reader := by simp [R, hs2, Status.code]
      task_ne := by decide
      writer_ne := by decide }
  have hreads : R.Reads 0x10000 longRead := ⟨rfl, rfl, rfl, by decide⟩
  have hcount : 1 + 50529027 * (blockRange 0x10000 longRead).length = 2 ^ 32 := rfl
  obtain ⟨x, hx, h⟩ := Rereader.At.overflow hR hreads ⟨hst, hfacts⟩ (hcount ▸ dvd_rfl)
  have hfew : FewPushes s.rt := fewPushes_of_length (by simp [hpushes])
  have hr32 := run32_of_run hr (fun _ _ => id) hfew
  refine ⟨x, hr32.reach.trans hx, (h.args 1).trans ha1, (h.args 3).trans ha3,
    (h.parent 1).trans hp1, (h.parent 3).trans hp3, (h.others 1 (by decide)).trans hs1, h.task,
    h.pushes.trans hcount, h.waitfor_lt⟩

end Partee
