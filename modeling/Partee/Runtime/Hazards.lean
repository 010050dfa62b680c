import Partee.Runtime.Coverage
import Partee.Runtime.Accesses
import Partee.Runtime.Rereads

/-!
# Read-after-write, write-after-read, write-after-write

Two siblings that access the same block are executed in the order of their spawns,
unless both only read it.  All of this is about the system with 32-bit counts, and about
the runs in which no task has been pushed `2 ^ 32` times and no list of readers with as
many entries is given another one; `writer_overtakes_writer` is what happens when the
pushes reach that number.  Below it, two writers are always ordered.  With a reader
involved the analysis can lose an order at one place each, both of them in the
read-after-read case of `create_dependency`:

* A task that joins the readers of an element waits for the writer named by
  `dependent_metadata` only.  The field is set by the first successful
  read-after-write push of an argument, so it is missing, or names the writer of
  another block, when the push was skipped or the argument covers several blocks.
* A task that finds the owner of an element released puts its own element in its
  place, and the other readers of the old one are forgotten.

`KeepsWriters` and `KeepsReaders` are the conditions under which nothing is lost
there, and the runs at the end of each section show what happens otherwise.
-/

namespace Partee

open Transition

variable {ω : Type*}

/-- Siblings that access the same block, the later one by `a` and the earlier one
by `b`, are executed in order: the later one is not scheduled, let alone started,
before the earlier one is released. -/
def AccessesOrdered (gridT : BitVec 64) (s : State ω) (a b : Bool) : Prop :=
  ∀ p x t j, x < t → (s.rt.task x).parent = some p → (s.rt.task t).parent = some p →
    Accesses gridT s.rt x b j → Accesses gridT s.rt t a j →
    Scheduled s.rt t ∨ 0 < s.rt.hist.start t → Released s.rt x

/-- In the read-after-read case, the order after the writers is not lost. -/
def KeepsWriters (s : State ω) (a : ω × Choice ω) : Prop :=
  ∀ f fs, s.rt.stack a.1 = f :: fs → JoinsBehindWriters s f

/-- In the read-after-read case, the order after the other readers is not lost. -/
def KeepsReaders (s : State ω) (a : ω × Choice ω) : Prop :=
  ∀ f fs, s.rt.stack a.1 = f :: fs → ReplacesBehindReaders s f

variable [Fintype ω] [DecidableEq ω] {gridT : BitVec 64} {main : ω} {s s' : State ω}
  {a b : Bool} {p x t : TaskId} {j : ℕ}

/-! ## From visits to executions -/

omit [Fintype ω] [DecidableEq ω] in
theorem accesses_of_args {r : Runtime ω} {arg : Argument} (h : (r.task t).args = [arg])
    (hout : arg.isOut = b) (hj : j ∈ arg.blocks gridT) : Accesses gridT r t b j :=
  ⟨arg, by simp [h], hout, hj⟩

omit [DecidableEq ω] in
/-- An earlier sibling has been created when the later one is. -/
theorem Sound.created_of_lt (hS : Sound s) (hxt : x < t) (hx : (s.rt.task x).parent = some p)
    (ht : (s.rt.task t).parent = some p) : (s.rt.task x).status ≠ .creating := by
  intro hcr
  have hlt := (hS.family.parent_of_eq hS.tokens hx).2.1
  have hcreating := hS.tokens.creating x
  rw [one, if_pos ⟨hlt, hcr⟩] at hcreating
  obtain ⟨w, f, hf, h0⟩ := exists_of_tally_pos (hcreating ▸ Nat.one_pos)
  unfold Frame.creates at h0
  split at h0
  · rename_i q tmp c pc
    obtain rfl : c = x := by
      by_contra hc
      simp [hc] at h0
    obtain rfl : q = p := Option.some.inj ((hS.family.frames w _ hf).2.symm.trans hx)
    exact absurd (hS.family.latest w q tmp c pc hf t ht) (Nat.not_le.2 hxt)
  · cases h0

omit [DecidableEq ω] in
/-- **The order of the visits is an order of executions.** -/
theorem Sound.accessesOrdered (hS : Sound s) (hA : Analysed gridT s)
    (hO : VisitsOrdered s a b) : AccessesOrdered gridT s a b := by
  intro p x t j hxt hx ht hxj htj hstarted
  have hs : Scheduled s.rt t := by
    rcases hstarted with hs | h0
    · exact hs
    · by_contra hlt
      exact h0.ne' (hS.tokens.unstarted t (Nat.lt_of_not_le hlt))
  have hcr : (s.rt.task t).status ≠ .creating := fun h => by simp [Scheduled, h, Status.code] at hs
  have hxj' := hA.created x (hS.created_of_lt hxt hx ht) b j hxj
  rcases hO p j x t hxt hx ht hxj' (hA.created t hcr a j htj) with hfol |
    ⟨w, q, tmp, pc, hmem, -⟩
  · exact released_of_follows hS.tokens hS.family hfol hs hxt.ne'
  · exact absurd (hS.tokens.creates_of_mem (c := t) hmem (by simp [Frame.creates])).2 hcr

/-- A run keeps the order, where its steps do. -/
theorem accessesOrdered_of_run {ok : State ω → ω × Choice ω → Prop}
    (hab : a = true ∨ b = true) (hb : b = false → ∀ s m, ok s m → KeepsReaders s m)
    (ha : a = false → ∀ s m, ok s m → KeepsWriters s m)
    (h : Run (step gridT) ok (init main) s) : AccessesOrdered gridT s a b := by
  have hI : Covered s a b ∧ Analysed gridT s := by
    refine h.invariant_of (I := fun s => Covered s a b ∧ Analysed gridT s)
      (fun s hr => Sound.of_reachable hr.reach) ⟨.init main, .init main⟩ ?_
    rintro s m s' hS ⟨hC, hA⟩ hok hs
    obtain ⟨f, fs, gs, s₁, hst, hact, rfl⟩ := act_of_step hs
    exact ⟨hC.act hS hab hst hact (fun h => hb h s m hok f fs hst)
      (fun h => ha h s m hok f fs hst), hA.act hS hst hact⟩
  exact (Sound.of_reachable h.reach).accessesOrdered hI.2 hI.1.ordered

/-! ## Write after write -/

/-- **Writers of a block are executed in order**, until some task has been pushed
`2 ^ 32` times, or some list of readers has as many entries and gets another one. -/
theorem writes_after_writes (h : Run (step32 gridT) CountsEntries (init main) s)
    (hfew : FewPushes s.rt) : AccessesOrdered gridT s true true :=
  accessesOrdered_of_run (.inl rfl) (fun h => nomatch h) (fun h => nomatch h)
    (run_of_run32 h (fun _ _ => id) hfew)

/-- Tasks 1 and 2 write block 0; task 2 has been scheduled by the release of task 1. -/
def writersRun (v w : ω) : List (ω × Choice ω) :=
  (v, .spawn [.ofBlock 0 2 0]) :: goOn v 9 ++
    (v, .spawn [.ofBlock 0 2 0]) :: goOn v 9 ++
    (w, .take v 0) :: (w, .go) :: (w, .ret) :: goOn w 9

theorem writes_after_writes_example :
    ∃ s : State (Fin 2), Run (step32 0) CountsEntries (init 0) s ∧ FewPushes s.rt ∧
      Accesses 0 s.rt 1 true 0 ∧ Accesses 0 s.rt 2 true 0 ∧ Scheduled s.rt 2 ∧
      Released s.rt 1 := by
  have hrun : ∃ s ∈ exec (step 0) CountsEntries (writersRun 0 1) (init (0 : Fin 2)),
      (s.rt.task 1).args = [.ofBlock 0 2 0] ∧ (s.rt.task 2).args = [.ofBlock 0 2 0] ∧
        (s.rt.task 1).parent = some 0 ∧ (s.rt.task 2).parent = some 0 ∧
        (s.rt.task 2).status = .scheduled ∧ s.rt.hist.pushes.length = 1 :=
    ⟨_, rfl, rfl, rfl, rfl, rfl, rfl, rfl⟩
  obtain ⟨s, hr, ha1, ha2, hp1, hp2, hst, hlen⟩ := Run.exists_of_exec hrun
  have hfew : FewPushes s.rt := fewPushes_of_length (by simp [hlen])
  have hr32 : Run (step32 0) CountsEntries (init 0) s := run32_of_run hr (fun _ _ => id) hfew
  have hacc1 : Accesses 0 s.rt 1 true 0 := accesses_of_args ha1 (by decide) (by decide)
  have hacc2 : Accesses 0 s.rt 2 true 0 := accesses_of_args ha2 (by decide) (by decide)
  have hs : Scheduled s.rt 2 := by simp [Scheduled, hst]
  exact ⟨s, hr32, hfew, hacc1, hacc2, hs,
    writes_after_writes hr32 hfew 0 1 2 0 (by decide) hp1 hp2 hacc1 hacc2 (.inl hs)⟩

/-- After `2 ^ 32` pushes on the stack of task 1 the count of task 3 is zero. -/
theorem writer_overtakes_writer :
    ∃ s : State (Fin 2), Reach (step32 0x10000) (init 0) s ∧
      ¬ AccessesOrdered 0x10000 s true true := by
  obtain ⟨s, hr, ha1, ha3, hp1, hp3, hst1, hst3, -⟩ := exists_overflow
  refine ⟨s, hr, fun h => ?_⟩
  have hacc1 : Accesses 0x10000 s.rt 1 true 0 := accesses_of_args ha1 (by decide) (by decide)
  have hacc3 : Accesses 0x10000 s.rt 3 true 0 :=
    ⟨.ofBlock 0x10000 2 0, ha3 ▸ List.mem_cons_self, by decide, by decide⟩
  have hrel := h 0 1 3 0 (by decide) hp1 hp3 hacc1 hacc3 (.inl (by simp [Scheduled, hst3]))
  simp [Released, hst1, Status.code] at hrel

/-! ## Read after write -/

/-- **A reader is executed after the writers of its block, as long as no task joins
the readers of an element without waiting for them**, and within the bounds of the counts. -/
theorem reads_after_writes
    (h : Run (step32 gridT) (fun s a => KeepsWriters s a ∧ CountsEntries s a) (init main) s)
    (hfew : FewPushes s.rt) : AccessesOrdered gridT s false true :=
  accessesOrdered_of_run (.inr rfl) (fun h => nomatch h) (fun _ _ _ hok => hok.1)
    (run_of_run32 h (fun _ _ => And.right) hfew)

/-- The only writer of the block is the one that `dependent_metadata` names. -/
def joinsLastWriter (s : State ω) (a : ω × Choice ω) : Bool :=
  match s.rt.stack a.1 with
  | .execute _ _ (.call _ (.ownerStatus _ e j)) :: _ =>
      match (s.dep.elem e).dependentMetadata with
      | some d => s.dep.visits.all fun v => v.2 ≠ (true, j) || v.1 == (s.dep.elem d).owner
      | none => false
  | _ => true

omit [Fintype ω] [DecidableEq ω] in
theorem keepsWriters_of_joinsLastWriter {m : ω × Choice ω} (h : joinsLastWriter s m) :
    KeepsWriters s m := by
  intro f fs hst
  unfold joinsLastWriter at h
  rw [hst] at h
  unfold JoinsBehindWriters
  split
  · dsimp only at h
    split at h
    · rename_i d hd
      intro _ _ _ x hx _
      have hall := List.all_eq_true.1 h _ hx
      simp only [ne_eq, not_true_eq_false, decide_false, Bool.false_or, beq_iff_eq] at hall
      exact .inr ⟨d, hd, hall ▸ .refl⟩
    · cases h
  · trivial

/-- Task 1 writes block 0, tasks 2 and 3 read it; task 3 has been scheduled by the
release of task 1. -/
def readersRun (v w : ω) : List (ω × Choice ω) :=
  (v, .spawn [.ofBlock 0 2 0]) :: goOn v 9 ++
    (v, .spawn [.ofBlock 0 1 0]) :: goOn v 9 ++
    (v, .spawn [.ofBlock 0 1 0]) :: goOn v 10 ++
    (w, .take v 0) :: (w, .go) :: (w, .ret) :: goOn w 9

theorem reads_after_writes_example :
    ∃ s : State (Fin 2),
      Run (step32 0) (fun s a => KeepsWriters s a ∧ CountsEntries s a) (init 0) s ∧ FewPushes s.rt ∧
      Accesses 0 s.rt 1 true 0 ∧ Accesses 0 s.rt 3 false 0 ∧ Scheduled s.rt 3 ∧
      Released s.rt 1 := by
  have hrun : ∃ s ∈ exec (step 0) (fun s m => joinsLastWriter s m ∧ CountsEntries s m)
      (readersRun 0 1) (init (0 : Fin 2)),
      (s.rt.task 1).args = [.ofBlock 0 2 0] ∧ (s.rt.task 3).args = [.ofBlock 0 1 0] ∧
        (s.rt.task 1).parent = some 0 ∧ (s.rt.task 3).parent = some 0 ∧
        (s.rt.task 3).status = .scheduled ∧ s.rt.hist.pushes.length = 2 :=
    ⟨_, rfl, rfl, rfl, rfl, rfl, rfl, rfl⟩
  obtain ⟨s, hr, ha1, ha3, hp1, hp3, hst, hlen⟩ := Run.exists_of_exec hrun
  have hfew : FewPushes s.rt := fewPushes_of_length (by simp [hlen])
  have hr' : Run (step32 0) (fun s a => KeepsWriters s a ∧ CountsEntries s a) (init 0) s :=
    run32_of_run (hr.mono fun _ _ => And.imp_left keepsWriters_of_joinsLastWriter)
      (fun _ _ => And.right) hfew
  have hacc1 : Accesses 0 s.rt 1 true 0 := accesses_of_args ha1 (by decide) (by decide)
  have hacc3 : Accesses 0 s.rt 3 false 0 := accesses_of_args ha3 (by decide) (by decide)
  have hs : Scheduled s.rt 3 := by simp [Scheduled, hst]
  exact ⟨s, hr', hfew, hacc1, hacc3, hs,
    reads_after_writes hr' hfew 0 1 3 0 (by decide) hp1 hp3 hacc1 hacc3 (.inl hs)⟩

/-- Task 1 writes blocks 0 and 1.  Task 2 reads the two by one argument each, and
the second push is skipped because of `deps_last`, so the element of block 1 names
no writer.  Task 3 joins its readers and is scheduled at once. -/
def skippedPushRun (v : ω) : List (ω × Choice ω) :=
  (v, .spawn [{ Argument.ofBlock 0x10000 2 0 with size := 4096 }]) :: goOn v 10 ++
    (v, .spawn [.ofBlock 0x10000 1 0, .ofBlock 0x10000 1 1]) :: goOn v 13 ++
    (v, .spawn [.ofBlock 0x10000 1 1]) :: goOn v 10

theorem reader_overtakes_writer :
    ∃ s : State (Fin 2), Reach (step32 0x10000) (init 0) s ∧
      ¬ AccessesOrdered 0x10000 s false true := by
  have hrun : ∃ s ∈ exec (step 0x10000) CountsEntries (skippedPushRun 0) (init (0 : Fin 2)),
      (s.rt.task 1).args = [{ Argument.ofBlock 0x10000 2 0 with size := 4096 }] ∧
        (s.rt.task 3).args = [.ofBlock 0x10000 1 1] ∧
        (s.rt.task 1).parent = some 0 ∧ (s.rt.task 3).parent = some 0 ∧
        (s.rt.task 1).status = .scheduled ∧ (s.rt.task 3).status = .scheduled ∧
        s.rt.hist.pushes.length = 1 :=
    ⟨_, rfl, rfl, rfl, rfl, rfl, rfl, rfl, rfl⟩
  obtain ⟨s, hr, ha1, ha3, hp1, hp3, hst1, hst3, hlen⟩ := Run.exists_of_exec hrun
  have hr32 := run32_of_run hr (fun _ _ => id) (fewPushes_of_length (by simp [hlen]))
  refine ⟨s, hr32.reach, fun h => ?_⟩
  have hacc1 : Accesses 0x10000 s.rt 1 true 1 := accesses_of_args ha1 (by decide) (by decide)
  have hacc3 : Accesses 0x10000 s.rt 3 false 1 := accesses_of_args ha3 (by decide) (by decide)
  have hrel := h 0 1 3 1 (by decide) hp1 hp3 hacc1 hacc3 (.inl (by simp [Scheduled, hst3]))
  simp [Released, hst1, Status.code] at hrel

/-! ## Write after read -/

/-- **A writer is executed after the readers of its block, as long as no element is
replaced while it holds other readers**, and within the bounds of the counts. -/
theorem writes_after_reads
    (h : Run (step32 gridT) (fun s a => KeepsReaders s a ∧ CountsEntries s a) (init main) s)
    (hfew : FewPushes s.rt) : AccessesOrdered gridT s true false :=
  accessesOrdered_of_run (.inl rfl) (fun _ _ _ hok => hok.1) (fun h => nomatch h)
    (run_of_run32 h (fun _ _ => And.right) hfew)

/-- Every reader of the element that is replaced has been released. -/
def replacesReleased (s : State ω) (a : ω × Choice ω) : Bool :=
  match s.rt.stack a.1 with
  | .execute _ _ (.call _ (.ownerStatus _ e _)) :: _ =>
      (s.dep.elem e).readers.all fun x => Status.releasing.code ≤ (s.rt.task x).status.code
  | _ => true

omit [Fintype ω] [DecidableEq ω] in
theorem keepsReaders_of_replacesReleased {m : ω × Choice ω} (h : replacesReleased s m) :
    KeepsReaders s m := by
  intro f fs hst
  unfold replacesReleased at h
  rw [hst] at h
  unfold ReplacesBehindReaders
  split
  · intro _ x hx _
    have hrel := List.all_eq_true.1 h x hx
    exact .of_released (by simpa [Released] using hrel)
  · trivial

/-- Task 1 reads block 0 and is released; tasks 2 and 3 read and write the block,
and task 3 has been scheduled by the release of task 2. -/
def overwriteRun (v w : ω) : List (ω × Choice ω) :=
  (v, .spawn [.ofBlock 0 1 0]) :: goOn v 9 ++
    (w, .take v 0) :: (w, .go) :: (w, .ret) :: goOn w 10 ++
    (v, .spawn [.ofBlock 0 1 0]) :: goOn v 10 ++
    (v, .spawn [.ofBlock 0 2 0]) :: goOn v 10 ++
    (w, .take v 0) :: (w, .go) :: (w, .ret) :: goOn w 9

theorem writes_after_reads_example :
    ∃ s : State (Fin 2),
      Run (step32 0) (fun s a => KeepsReaders s a ∧ CountsEntries s a) (init 0) s ∧ FewPushes s.rt ∧
      Accesses 0 s.rt 2 false 0 ∧ Accesses 0 s.rt 3 true 0 ∧ Scheduled s.rt 3 ∧
      Released s.rt 2 := by
  have hrun : ∃ s ∈ exec (step 0) (fun s m => replacesReleased s m ∧ CountsEntries s m)
      (overwriteRun 0 1) (init (0 : Fin 2)),
      (s.rt.task 2).args = [.ofBlock 0 1 0] ∧ (s.rt.task 3).args = [.ofBlock 0 2 0] ∧
        (s.rt.task 2).parent = some 0 ∧ (s.rt.task 3).parent = some 0 ∧
        (s.rt.task 3).status = .scheduled ∧ s.rt.hist.pushes.length = 1 :=
    ⟨_, rfl, rfl, rfl, rfl, rfl, rfl, rfl⟩
  obtain ⟨s, hr, ha2, ha3, hp2, hp3, hst, hlen⟩ := Run.exists_of_exec hrun
  have hfew : FewPushes s.rt := fewPushes_of_length (by simp [hlen])
  have hr' : Run (step32 0) (fun s a => KeepsReaders s a ∧ CountsEntries s a) (init 0) s :=
    run32_of_run (hr.mono fun _ _ => And.imp_left keepsReaders_of_replacesReleased)
      (fun _ _ => And.right) hfew
  have hacc2 : Accesses 0 s.rt 2 false 0 := accesses_of_args ha2 (by decide) (by decide)
  have hacc3 : Accesses 0 s.rt 3 true 0 := accesses_of_args ha3 (by decide) (by decide)
  have hs : Scheduled s.rt 3 := by simp [Scheduled, hst]
  exact ⟨s, hr', hfew, hacc2, hacc3, hs,
    writes_after_reads hr' hfew 0 2 3 0 (by decide) hp2 hp3 hacc2 hacc3 (.inl hs)⟩

/-- Tasks 1 and 2 read block 0 and share an element; task 1, its owner, is
released.  Task 3 reads the block and replaces the element by its own, so task 4,
which writes the block, waits for task 3 only, and is scheduled while task 2 still
waits to be run. -/
def forgottenReaderRun (v w : ω) : List (ω × Choice ω) :=
  (v, .spawn [.ofBlock 0x10000 1 0]) :: goOn v 9 ++
    (v, .spawn [.ofBlock 0x10000 1 0]) :: goOn v 10 ++
    (w, .take v 0) :: (w, .go) :: (w, .ret) :: goOn w 10 ++
    (v, .spawn [.ofBlock 0x10000 1 0]) :: goOn v 10 ++
    (v, .spawn [.ofBlock 0x10000 2 0]) :: goOn v 10 ++
    (w, .take v 1) :: (w, .go) :: (w, .ret) :: goOn w 9

theorem writer_overtakes_reader :
    ∃ s : State (Fin 2), Reach (step32 0x10000) (init 0) s ∧
      ¬ AccessesOrdered 0x10000 s true false := by
  have hrun : ∃ s ∈ exec (step 0x10000) CountsEntries (forgottenReaderRun 0 1)
      (init (0 : Fin 2)),
      (s.rt.task 2).args = [.ofBlock 0x10000 1 0] ∧
        (s.rt.task 4).args = [.ofBlock 0x10000 2 0] ∧
        (s.rt.task 2).parent = some 0 ∧ (s.rt.task 4).parent = some 0 ∧
        (s.rt.task 2).status = .scheduled ∧ (s.rt.task 4).status = .scheduled ∧
        s.rt.hist.pushes.length = 1 :=
    ⟨_, rfl, rfl, rfl, rfl, rfl, rfl, rfl, rfl⟩
  obtain ⟨s, hr, ha2, ha4, hp2, hp4, hst2, hst4, hlen⟩ := Run.exists_of_exec hrun
  have hr32 := run32_of_run hr (fun _ _ => id) (fewPushes_of_length (by simp [hlen]))
  refine ⟨s, hr32.reach, fun h => ?_⟩
  have hacc2 : Accesses 0x10000 s.rt 2 false 0 := accesses_of_args ha2 (by decide) (by decide)
  have hacc4 : Accesses 0x10000 s.rt 4 true 0 := accesses_of_args ha4 (by decide) (by decide)
  have hrel := h 0 2 4 0 (by decide) hp2 hp4 hacc2 hacc4 (.inl (by simp [Scheduled, hst4]))
  simp [Released, hst2, Status.code] at hrel

end Partee
