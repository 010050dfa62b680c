import Partee.Runtime.Elements
import Mathlib.Algebra.Group.Nat.Defs

/-!
# The width of the counters

The counts of notifications are 32 bits wide in the source: `waitfor` and `fired` of a
descriptor, the running `waitfor` of `create_dependencies`, and the local `fired` of
`fire_dependencies`.  So is `total_entries` of a list of readers, by which `insert_front`
tells whether the list is empty.  `step` counts with natural numbers.  `step32` is the
system as it is: after every step the counts of notifications are what is left of them
modulo `2 ^ 32`, a list of readers that had `2 ^ 32` entries has lost them with the next
one, and the tests of the next steps see nothing else.

As long as no task has been pushed `2 ^ 32` times, and no list with `2 ^ 32` entries is
given another one, the two do not differ.  The counts of notifications are bounded by
the number of successful pushes of their task, because every unit of one of them stands
for such a push.

The counter `number_of_children` is 32 bits wide as well.  It is a natural number in both
systems: a task is assumed to have fewer than `2 ^ 31` children counted at a time, which
is what the assertion of `release_task` expects.

* `State.wrap`, `step32`: the reduction, and the system with it.
* `FewPushes`, `CountsEntries`: the bounds.
* `wrap_eq_self`: below the bounds nothing is reduced.
* `Sound.step32`: the lists of readers are not needed for the invariant.
* `run_of_run32`, `run32_of_run`: the runs of the two systems, one from the other.
-/

namespace Partee

open Transition

variable {ω : Type*}

/-! ## Reduced counts -/

/-- The descriptor, with its two counts of notifications reduced. -/
@[simps] def Descriptor.wrap (d : Descriptor) : Descriptor :=
  { d with waitfor := d.waitfor % 2 ^ 32, fired := d.fired % 2 ^ 32 }

/-- `waitfor` of `create_dependency`, `handle_argument` and `create_dependencies`. -/
@[simps] def Walk.wrap (k : Walk) : Walk := { k with waitfor := k.waitfor % 2 ^ 32 }

/-- The element, after `insert_front` on its readers.  With `2 ^ 32` entries the count of the
list is back at zero, `isEmpty_List` takes it for an empty list, and the next entry becomes
the only one. -/
@[simps] def MetadataElement.wrap (m : MetadataElement) : MetadataElement :=
  { m with readers := m.readers.take ((m.readers.length - 1) % 2 ^ 32 + 1) }

def CallPc.wrap : CallPc → CallPc
  | .incr => .incr
  | .creating => .creating
  | .walk k => .walk k.wrap
  | .push k e raw => .push k.wrap e raw
  | .readers k rest => .readers k.wrap rest
  | .ownerStatus k e j => .ownerStatus k.wrap e j
  | .pushDependent k d => .pushDependent k.wrap d
  | .storeWaitfor n => .storeWaitfor (n % 2 ^ 32)
  | .storeCreated n => .storeCreated (n % 2 ^ 32)

/-- `fired` of `fire_dependencies`. -/
def ReleasePc.wrap : ReleasePc → ReleasePc
  | .await t n rest => .await t (n % 2 ^ 32) rest
  | .testStatus t n rest => .testStatus t (n % 2 ^ 32) rest
  | .testWaitfor t n rest => .testWaitfor t (n % 2 ^ 32) rest
  | pc => pc

def Frame.wrap : Frame → Frame
  | .execute t tmp (.call c pc) => .execute t tmp (.call c pc.wrap)
  | .release t pc => .release t pc.wrap
  | f => f

/-- The state as 32-bit counts hold it. -/
@[simps rt_next rt_task rt_stack rt_queue rt_parent rt_currTask rt_hist dep_elem dep_nextElem
  dep_metadata dep_depsLast dep_visits]
def State.wrap (s : State ω) : State ω :=
  { s with
    rt.task := fun t => (s.rt.task t).wrap
    rt.stack := fun w => (s.rt.stack w).map Frame.wrap
    dep.elem := fun e => (s.dep.elem e).wrap }

/-- One step of the system with 32-bit counts. -/
def step32 [DecidableEq ω] (gridT : BitVec 64) (s : State ω) (a : ω × Choice ω) :
    Option (State ω) :=
  (step gridT s a).map State.wrap

/-- No task has been pushed on `to_notify` stacks `2 ^ 32` times or more. -/
def FewPushes (r : Runtime ω) : Prop := ∀ t, pushesOf r t < 2 ^ 32

/-- The element into whose list of readers the access inserts the task. -/
def Frame.inserts (s : State ω) : Frame → Option ElemId
  | .execute _ _ (.call _ (.walk ⟨_, e, false, _ :: _, [], _⟩)) => some e
  | .execute _ _ (.call _ (.ownerStatus _ e _)) =>
      if (s.rt.task (s.dep.elem e).owner).status.code ≤ Status.executed.code then some e else none
  | _ => none

/-- The worker that moves does not insert a task in a list that has `2 ^ 32` entries. -/
def CountsEntries (s : State ω) (a : ω × Choice ω) : Prop :=
  ∀ f ∈ (s.rt.stack a.1).head?, ∀ e ∈ f.inserts s, (s.dep.elem e).readers.length < 2 ^ 32

instance (s : State ω) (a : ω × Choice ω) : Decidable (CountsEntries s a) :=
  inferInstanceAs (Decidable (∀ f ∈ (s.rt.stack a.1).head?, ∀ e ∈ f.inserts s,
    (s.dep.elem e).readers.length < 2 ^ 32))

theorem fewPushes_of_length {r : Runtime ω} (h : r.hist.pushes.length < 2 ^ 32) : FewPushes r := by
  intro t
  have hle : pushesOf r t ≤ (r.hist.pushes.map Prod.fst).length := List.count_le_length
  rw [List.length_map] at hle
  exact hle.trans_lt h

/-! ## Below the bound -/

theorem CallPc.wrap_eq_self {pc : CallPc} (h : pc.pushed < 2 ^ 32) : pc.wrap = pc := by
  cases pc <;> simp_all [CallPc.wrap, CallPc.pushed, Walk.wrap, Nat.mod_eq_of_lt]

/-- The count that a release remembers. -/
def ReleasePc.remembered : ReleasePc → ℕ
  | .await _ n _ | .testStatus _ n _ | .testWaitfor _ n _ => n
  | _ => 0

theorem ReleasePc.wrap_eq_self {pc : ReleasePc} (h : pc.remembered < 2 ^ 32) : pc.wrap = pc := by
  cases pc <;> simp_all [ReleasePc.wrap, ReleasePc.remembered, Nat.mod_eq_of_lt]

theorem Descriptor.wrap_eq_self {d : Descriptor} (hw : d.waitfor < 2 ^ 32)
    (hf : d.fired < 2 ^ 32) : d.wrap = d := by
  simp only [Descriptor.wrap, Nat.mod_eq_of_lt hw, Nat.mod_eq_of_lt hf]

section

variable [Fintype ω] {r : Runtime ω} {s : State ω} {w : ω} {f : Frame} {t : TaskId}

theorem Tokens.fired_le (hT : Tokens r) (t : TaskId) : (r.task t).fired ≤ pushesOf r t := by
  have hn := hT.notified t
  omega

/-- Every unit of `waitfor` is a push, also while the task is being created. -/
theorem Tokens.waitfor_le (hT : Tokens r) (t : TaskId) : (r.task t).waitfor ≤ pushesOf r t := by
  by_cases hcr : (r.task t).status = .creating
  · obtain ⟨hpushed, hwaitfor⟩ := hT.pushing t hcr
    rw [← hpushed, ← hwaitfor]
    refine tally_le_tally fun g => ?_
    unfold Frame.waitforBy
    split
    · exact le_rfl
    · exact Nat.zero_le _
  · exact (hT.waitfor t hcr).le

theorem Tokens.pushed_le (hT : Tokens r) {t c : TaskId} {tmp : Option TaskId} {pc : CallPc}
    (hf : Frame.execute t tmp (.call c pc) ∈ r.stack w) : pc.pushed ≤ pushesOf r c := by
  obtain ⟨-, hcr⟩ := hT.creates_of_mem (c := c) hf (by simp [Frame.creates])
  rw [← (hT.pushing c hcr).1]
  have hle : Frame.pushedBy c (.execute t tmp (.call c pc)) ≤ tally (Frame.pushedBy c) r.stack :=
    le_tally hf
  simpa [Frame.pushedBy] using hle

omit [Fintype ω] in
/-- What a release remembers has been counted in `fired` of some task. -/
theorem FrameOk.remembered_le {t : TaskId} {pc : ReleasePc} (h : FrameOk r (.release t pc)) :
    ∃ x, pc.remembered ≤ (r.task x).fired := by
  obtain ⟨-, -, hpc⟩ := h
  cases pc with
  | await x n rest => exact ⟨x, hpc.2⟩
  | testStatus x n rest => exact ⟨x, hpc.2.1⟩
  | testWaitfor x n rest => exact ⟨x, hpc.2.1⟩
  | _ => exact ⟨t, Nat.zero_le _⟩

theorem Frame.wrap_eq_self (hT : Tokens r) (hF : Family r) (hfew : FewPushes r)
    (hf : f ∈ r.stack w) : f.wrap = f := by
  unfold Frame.wrap
  split
  · rename_i c pc
    rw [CallPc.wrap_eq_self ((hT.pushed_le hf).trans_lt (hfew c))]
  · obtain ⟨x, hx⟩ := (hF.frames w _ hf).remembered_le
    rw [ReleasePc.wrap_eq_self ((hx.trans (hT.fired_le x)).trans_lt (hfew x))]
  · rfl

/-- **Below the bound, the counts are what they should be.** -/
theorem wrap_rt_eq_self (hS : Sound s) (hfew : FewPushes s.rt) : s.wrap.rt = s.rt := by
  have htask : (fun t => (s.rt.task t).wrap) = s.rt.task := by
    funext t
    exact Descriptor.wrap_eq_self ((hS.tokens.waitfor_le t).trans_lt (hfew t))
      ((hS.tokens.fired_le t).trans_lt (hfew t))
  have hstack : (fun w => (s.rt.stack w).map Frame.wrap) = s.rt.stack := by
    funext w
    have hmap : ∀ f ∈ s.rt.stack w, f.wrap = id f := fun f hf =>
      Frame.wrap_eq_self hS.tokens hS.family hfew hf
    rw [List.map_congr_left hmap, List.map_id]
  rw [State.wrap, htask, hstack]

end

/-! ## Lists of readers -/

/-- No list of readers holds more than `2 ^ 32` entries. -/
def ShortLists (d : Analysis) : Prop := ∀ e, (d.elem e).readers.length ≤ 2 ^ 32

theorem MetadataElement.wrap_eq_self {m : MetadataElement} (h : m.readers.length ≤ 2 ^ 32) :
    m.wrap = m := by
  have hlen : m.readers.length ≤ (m.readers.length - 1) % 2 ^ 32 + 1 := by omega
  rw [MetadataElement.wrap, List.take_of_length_le hlen]

theorem MetadataElement.wrap_length_le (m : MetadataElement) : m.wrap.readers.length ≤ 2 ^ 32 := by
  rw [MetadataElement.wrap_readers, List.length_take]
  have hlt : (m.readers.length - 1) % 2 ^ 32 < 2 ^ 32 := Nat.mod_lt _ (Nat.two_pow_pos 32)
  omega

theorem MetadataElement.wrap_subset (m : MetadataElement) : m.wrap.readers ⊆ m.readers :=
  List.take_subset _ _

/-- The newest entry stays. -/
theorem MetadataElement.mem_wrap {m : MetadataElement} {c : TaskId} {l : List TaskId}
    (h : m.readers = c :: l) : c ∈ m.wrap.readers := by
  rw [MetadataElement.wrap_readers, h, List.take_succ_cons]
  exact List.mem_cons_self

theorem shortLists_of_step32 [DecidableEq ω] {gridT : BitVec 64} {s s' : State ω}
    {a : ω × Choice ω} (h : step32 gridT s a = some s') : ShortLists s'.dep := by
  obtain ⟨s₁, -, rfl⟩ := Option.map_eq_some_iff.1 h
  exact fun e => (s₁.dep.elem e).wrap_length_le

/-- **Below the bounds, nothing is reduced.** -/
theorem wrap_eq_self [Fintype ω] {s : State ω} (hS : Sound s) (hfew : FewPushes s.rt)
    (hshort : ShortLists s.dep) : s.wrap = s := by
  have hrt : s.wrap.rt = s.rt := wrap_rt_eq_self hS hfew
  have helem : (fun e => (s.dep.elem e).wrap) = s.dep.elem := by
    funext e
    exact MetadataElement.wrap_eq_self (hshort e)
  have hdep : s.wrap.dep = s.dep := by rw [State.wrap, helem]
  calc s.wrap = ⟨s.wrap.rt, s.wrap.dep⟩ := rfl
    _ = s := by rw [hrt, hdep]

section

variable {s s' : State ω} {t c : TaskId} {tmp : Option TaskId} {pc pc' : CallPc} {gridT : BitVec 64}

/-- What `insert_front` does to the list of readers of `i`. -/
theorem readers_of_insertFront {d : Analysis} {e : ElemId} (i : ElemId) :
    ((d.insertFront c e).elem i).readers = (d.elem i).readers ∨
      e = i ∧ ((d.insertFront c e).elem i).readers = c :: (d.elem i).readers := by
  rw [Analysis.insertFront_readers]
  split
  · exact .inr ⟨Eq.symm ‹_›, rfl⟩
  · exact .inl rfl

theorem readers_of_createDependency {d : Analysis} {p : TaskId} {k : Walk} {j : ℕ} (i : ElemId) :
    ((createDependency d c p k j).2.elem i).readers = (d.elem i).readers := by
  unfold createDependency
  split
  · dsimp only
    split
    · rfl
    · split <;> rfl
  · split
    · rfl
    · split <;> rfl

theorem readers_of_createDependencies {p : TaskId} {k : Walk} (i : ElemId) :
    ((createDependencies gridT s.dep c p k).2.elem i).readers = (s.dep.elem i).readers ∨
      ((createDependencies gridT s.dep c p k).2.elem i).readers = [] ∨
      Frame.inserts s (.execute t tmp (.call c (.walk k))) = some i ∧
        ((createDependencies gridT s.dep c p k).2.elem i).readers =
          c :: (s.dep.elem i).readers := by
  obtain ⟨args, e, out, pieces, blocks, n⟩ := k
  cases blocks with
  | cons j blocks => exact .inl (readers_of_createDependency i)
  | nil =>
    cases pieces with
    | cons piece pieces =>
      cases out with
      | true => exact .inl rfl
      | false =>
        rcases readers_of_insertFront (d := s.dep) (c := c) (e := e) i with hsame | ⟨rfl, hcons⟩
        · exact .inl hsame
        · exact .inr (.inr ⟨rfl, hcons⟩)
    | nil =>
      cases args with
      | nil =>
        left
        simp only [createDependencies]
        split <;> rfl
      | cons a args =>
        simp only [createDependencies]
        split
        · exact .inl rfl
        · rcases eq_or_ne i s.dep.nextElem with rfl | hne
          · exact .inr (.inl (by simp))
          · exact .inl (by simp [hne])

/-- What an access of `tpc_call(c)` does to the list of readers of `i`. -/
theorem readers_of_tpcCall (h : tpcCall gridT s c pc = some (pc', s')) (i : ElemId) :
    (s'.dep.elem i).readers = (s.dep.elem i).readers ∨ (s'.dep.elem i).readers = [] ∨
      Frame.inserts s (.execute t tmp (.call c pc)) = some i ∧
        (s'.dep.elem i).readers = c :: (s.dep.elem i).readers := by
  cases pc with
  | incr =>
    simp only [tpcCall] at h
    split at h <;> cases h <;> exact .inl rfl
  | walk k =>
    obtain ⟨p, -, h⟩ := Option.map_eq_some_iff.1 h
    cases h
    exact readers_of_createDependencies i
  | push k e raw =>
    have h := Option.some.inj h
    simp only [notifyOwner] at h
    split at h
    · cases h
      exact .inl rfl
    · split at h <;> cases h
      · exact .inl rfl
      · cases raw with
        | false => exact .inl rfl
        | true => exact .inl (by simp)
  | readers k rest =>
    have h := Option.some.inj h
    cases rest with
    | nil =>
      cases h
      exact .inl rfl
    | cons x rest =>
      simp only [notifyReaders] at h
      split at h
      · split at h <;> cases h <;> exact .inl rfl
      · cases h
        exact .inl rfl
  | ownerStatus k e j =>
    obtain ⟨p, -, h⟩ := Option.map_eq_some_iff.1 h
    simp only [readAfterRead] at h
    split at h
    · rename_i halive
      have hins : Frame.inserts s (.execute t tmp (.call c (.ownerStatus k e j))) = some e :=
        if_pos halive
      have hdep : s'.dep = (s.dep.insertFront c e).visit c false j := by
        split at h
        · cases h
          rfl
        · split at h <;> cases h <;> rfl
      rw [hdep, hins]
      rcases readers_of_insertFront (d := s.dep) (c := c) (e := e) i with hsame | ⟨rfl, hcons⟩
      · exact .inl hsame
      · exact .inr (.inr ⟨rfl, hcons⟩)
    · cases h
      exact .inl rfl
  | pushDependent k d =>
    have h := Option.some.inj h
    simp only [notifyDependent] at h
    split at h <;> cases h <;> exact .inl rfl
  | creating | storeWaitfor n =>
    cases h
    exact .inl rfl
  | storeCreated n => cases h

variable [DecidableEq ω] {w : ω} {f : Frame} {gs : List Frame}

/-- **Lists of readers only grow at the front**, and only by the task that is being created. -/
theorem readers_of_act {a : Choice ω} (h : act gridT s w f a = some (gs, s')) (i : ElemId) :
    (s'.dep.elem i).readers = (s.dep.elem i).readers ∨ (s'.dep.elem i).readers = [] ∨
      ∃ t tmp c pc pc', f = .execute t tmp (.call c pc) ∧ gs = [.execute t tmp (.call c pc')] ∧
        f.inserts s = some i ∧ (s'.dep.elem i).readers = c :: (s.dep.elem i).readers := by
  rcases dep_of_act h with ⟨hdep, -⟩ | ⟨t, tmp, -, -, hdep⟩ | ⟨t, tmp, c, pc, pc', rfl, hgs, hcall⟩
  · exact .inl (by rw [hdep])
  · exact .inl (by rw [hdep]; rfl)
  · rcases readers_of_tpcCall hcall i with hsame | hnil | ⟨hins, hcons⟩
    · exact .inl hsame
    · exact .inr (.inl hnil)
    · exact .inr (.inr ⟨t, tmp, c, pc, pc', rfl, hgs, hins, hcons⟩)

/-- A step that counts its entries keeps the lists short. -/
theorem ShortLists.step {a : ω × Choice ω} (hshort : ShortLists s.dep) (hok : CountsEntries s a)
    (h : step gridT s a = some s') : ShortLists s'.dep := by
  obtain ⟨f, fs, gs, s₁, hst, hact, rfl⟩ := act_of_step h
  intro i
  show (s₁.dep.elem i).readers.length ≤ 2 ^ 32
  rcases readers_of_act hact i with hsame | hnil | ⟨-, -, c, -, -, -, -, hins, hcons⟩
  · rw [hsame]
    exact hshort i
  · rw [hnil]
    exact Nat.zero_le _
  · have hlt : (s.dep.elem i).readers.length < 2 ^ 32 := hok f (by rw [hst]; rfl) i hins
    rw [hcons]
    exact hlt

end

/-! ## Pushes are not undone -/

variable [DecidableEq ω] {gridT : BitVec 64} {s s' : State ω} {w : ω} {f : Frame}
  {gs : List Frame} {a : ω × Choice ω}

omit [DecidableEq ω] in
theorem pushes_of_stackPush {r r' : Runtime ω} {t x : TaskId} (h : stackPush r t x = some r') :
    r.hist.pushes <:+ r'.hist.pushes := by
  obtain ⟨l, -, rfl⟩ := stackPush_eq_some.1 h
  exact List.suffix_cons _ _

omit [DecidableEq ω] in
theorem pushes_of_tpcCall {c : TaskId} {pc pc' : CallPc}
    (h : tpcCall gridT s c pc = some (pc', s')) : s.rt.hist.pushes <:+ s'.rt.hist.pushes := by
  cases pc with
  | incr =>
    simp only [tpcCall] at h
    split at h <;> cases h <;> exact List.suffix_rfl
  | walk k =>
    obtain ⟨p, -, h⟩ := Option.map_eq_some_iff.1 h
    cases h
    exact List.suffix_rfl
  | push k e raw =>
    have h := Option.some.inj h
    simp only [notifyOwner] at h
    split at h
    · cases h
      exact List.suffix_rfl
    · split at h <;> cases h
      · exact List.suffix_rfl
      · exact pushes_of_stackPush ‹_›
  | readers k rest =>
    have h := Option.some.inj h
    cases rest with
    | nil =>
      cases h
      exact List.suffix_rfl
    | cons x rest =>
      simp only [notifyReaders] at h
      split at h
      · split at h <;> cases h
        · exact List.suffix_rfl
        · exact pushes_of_stackPush ‹_›
      · cases h
        exact List.suffix_rfl
  | ownerStatus k e j =>
    obtain ⟨p, -, h⟩ := Option.map_eq_some_iff.1 h
    simp only [readAfterRead] at h
    split at h
    · split at h
      · cases h
        exact List.suffix_rfl
      · split at h <;> cases h <;> exact List.suffix_rfl
    · cases h
      exact List.suffix_rfl
  | pushDependent k d =>
    have h := Option.some.inj h
    simp only [notifyDependent] at h
    split at h <;> cases h
    · exact List.suffix_rfl
    · exact pushes_of_stackPush ‹_›
  | creating | storeWaitfor n =>
    cases h
    exact List.suffix_rfl
  | storeCreated n => cases h

theorem pushes_of_executeTask {t : TaskId} {tmp : Option TaskId} {pc : ExecPc} {ch : Choice ω}
    (h : executeTask gridT s w t tmp pc ch = some (gs, s')) :
    s.rt.hist.pushes <:+ s'.rt.hist.pushes := by
  unfold executeTask at h
  split at h
  case h_5 =>
    obtain ⟨⟨pc', s''⟩, hcall, h⟩ := Option.map_eq_some_iff.1 h
    cases h
    exact pushes_of_tpcCall hcall
  case h_1 | h_2 | h_7 =>
    obtain ⟨x, -, h⟩ := Option.map_eq_some_iff.1 h
    cases h
    exact List.suffix_rfl
  case h_3 | h_4 | h_6 | h_10 =>
    split at h <;> cases h <;> exact List.suffix_rfl
  all_goals
    cases h
    try exact List.suffix_rfl

omit [DecidableEq ω] in
theorem pushes_of_releaseTask {t : TaskId} {pc : ReleasePc}
    (h : releaseTask s t pc = some (gs, s')) : s.rt.hist.pushes <:+ s'.rt.hist.pushes := by
  unfold releaseTask at h
  split at h
  case h_2 =>
    obtain ⟨l, -, h⟩ := Option.map_eq_some_iff.1 h
    cases h
    exact List.suffix_rfl
  case h_3 | h_4 | h_8 | h_9 | h_12 =>
    cases h
    exact List.suffix_rfl
  all_goals
    split at h <;> cases h <;> exact List.suffix_rfl

theorem pushes_of_act {ch : Choice ω} (h : act gridT s w f ch = some (gs, s')) :
    s.rt.hist.pushes <:+ s'.rt.hist.pushes := by
  unfold act at h
  split at h
  · unfold workerThread at h
    split at h
    · obtain ⟨x, -, h⟩ := Option.map_eq_some_iff.1 h
      cases h
      exact List.suffix_rfl
    · cases h
      exact List.suffix_rfl
    · cases h
  · cases h
    exact List.suffix_rfl
  · exact pushes_of_executeTask h
  · unfold scheduleTask at h
    split at h
    · split at h <;> cases h <;> exact List.suffix_rfl
    · cases h
      exact List.suffix_rfl
    · cases h
      exact List.suffix_rfl
    · cases h
  · exact pushes_of_releaseTask h
  · cases h

theorem pushes_of_step (h : step gridT s a = some s') :
    s.rt.hist.pushes <:+ s'.rt.hist.pushes := by
  obtain ⟨f, fs, gs, s₁, -, hact, rfl⟩ := act_of_step h
  have hpushes : s.rt.hist.pushes <:+ s₁.rt.hist.pushes := pushes_of_act hact
  exact hpushes

omit [DecidableEq ω] in
theorem FewPushes.of_suffix {r r' : Runtime ω} (hfew : FewPushes r')
    (h : r.hist.pushes <:+ r'.hist.pushes) : FewPushes r := fun t =>
  (List.Sublist.count_le t (h.map Prod.fst).sublist).trans_lt (hfew t)

theorem FewPushes.of_step32 (hfew : FewPushes s'.rt) (h : step32 gridT s a = some s') :
    FewPushes s.rt := by
  obtain ⟨s₁, hs, rfl⟩ := Option.map_eq_some_iff.1 h
  have hpushes : s.rt.hist.pushes <:+ s₁.rt.hist.pushes := pushes_of_step hs
  exact hfew.of_suffix hpushes

theorem step32_of_act {fs : List Frame} {ch : Choice ω} (hst : s.rt.stack w = f :: fs)
    (hact : act gridT s w f ch = some (gs, s')) : step32 gridT s (w, ch) =
      some (State.wrap { s' with rt := s'.rt.setStack w (gs ++ fs) }) :=
  congrArg (Option.map State.wrap) (step_of_act hst hact)

/-! ## The invariant -/

variable [Fintype ω] {main : ω} {ok : State ω → ω × Choice ω → Prop}

omit [DecidableEq ω] [Fintype ω] in
theorem ElemOf.wrap {p : TaskId} {e : ElemId} (h : ElemOf s p e) : ElemOf s.wrap p e where
  allocated := h.allocated
  owner := ⟨h.owner.parent, h.owner.counted⟩
  readers x hx := by
    have hkin : Kin s.rt p x := h.readers x ((s.dep.elem e).wrap_subset hx)
    exact ⟨hkin.parent, hkin.counted⟩
  dependent d hd := by
    obtain ⟨hlt, hown, hkin⟩ := h.dependent d hd
    exact ⟨hlt, hown, hkin.parent, hkin.counted⟩

omit [DecidableEq ω] [Fintype ω] in
/-- A call in progress, as long as the task stays among the readers of its own elements. -/
theorem CallOk.wrap {t c : TaskId} {pc : CallPc} (h : CallOk s t c pc)
    (hkeep : ∀ e, ElemOf s t e → (s.dep.elem e).owner = c → c ∈ (s.dep.elem e).readers →
      c ∈ (s.wrap.dep.elem e).readers) : CallOk s.wrap t c pc := by
  have hcurrent : ∀ {k}, Current s t c k → Current s.wrap t c k := fun hcur =>
    ⟨hcur.elemOf.wrap, hcur.owner, hcur.type⟩
  have hvisiting : ∀ {k}, Visiting s t c k → Visiting s.wrap t c k := fun hv =>
    ⟨hcurrent hv.toCurrent, fun hout => hkeep _ hv.elemOf hv.owner (hv.reader hout)⟩
  cases pc with
  | walk k => exact ⟨fun hp => hcurrent (h.1 hp), fun hb => hvisiting (h.2 hb)⟩
  | push k e raw => exact ⟨hvisiting h.1, h.2.wrap⟩
  | readers k rest =>
    exact ⟨hvisiting h.1, fun x hx => ⟨(h.2 x hx).parent, (h.2 x hx).counted⟩⟩
  | ownerStatus k e j =>
    obtain ⟨hv, he, hout, htype, hnode⟩ := h
    exact ⟨hvisiting hv, he.wrap, hout, htype, hnode⟩
  | pushDependent k d =>
    obtain ⟨hv, hd, hlt, hkin⟩ := h
    exact ⟨hvisiting hv, hd, hlt, hkin.parent, hkin.counted⟩
  | _ => trivial

omit [DecidableEq ω] [Fintype ω] in
/-- The access inserts the task in the list of an element of its family. -/
theorem CallOk.elemOf_of_inserts {t c : TaskId} {tmp : Option TaskId} {pc : CallPc} {e : ElemId}
    (h : CallOk s t c pc) (hins : Frame.inserts s (.execute t tmp (.call c pc)) = some e) :
    ElemOf s t e := by
  unfold Frame.inserts at hins
  split at hins
  · rename_i heq
    cases heq
    cases hins
    exact (h.1 (List.cons_ne_nil _ _)).elemOf
  · rename_i heq
    cases heq
    split at hins <;> cases hins
    exact h.2.1
  · cases hins

/-- The task that is being created stays among the readers of its own elements. -/
theorem Sound.mem_readers_wrap (hS : Sound s) (hshort : ShortLists s.dep)
    (h : Partee.step gridT s a = some s') {v : ω} {t c : TaskId} {tmp : Option TaskId}
    {pc : CallPc} {e : ElemId} (hv : Frame.execute t tmp (.call c pc) ∈ s'.rt.stack v)
    (he : ElemOf s' t e) (hown : (s'.dep.elem e).owner = c)
    (hmem : c ∈ (s'.dep.elem e).readers) : c ∈ (s'.wrap.dep.elem e).readers := by
  have hS' : Sound s' := hS.step h
  obtain ⟨f, fs, gs, s₁, hst, hact, rfl⟩ := act_of_step h
  have hle : (s₁.dep.elem e).readers.length ≤ 2 ^ 32 → c ∈ (s₁.dep.elem e).wrap.readers := fun h =>
    (MetadataElement.wrap_eq_self h).symm ▸ hmem
  show c ∈ (s₁.dep.elem e).wrap.readers
  rcases readers_of_act hact e with hsame | hnil | ⟨t₀, tmp₀, c₀, pc₀, pc₁, rfl, rfl, hins, hcons⟩
  · exact hle (hsame ▸ hshort e)
  · exact hle (hnil ▸ Nat.zero_le _)
  · have hext := hS.extends hst hact
    have he₀ : ElemOf s t₀ e :=
      (hS.elements.calls _ t₀ tmp₀ c₀ pc₀ (hst ▸ List.mem_cons_self)).elemOf_of_inserts hins
    have ht : t₀ = t := (he₀.mono hext).owner.unique ⟨he.owner.parent, he.owner.counted⟩
    subst ht
    -- `t` runs on one stack only, so the two calls are the same
    by_cases hc : c = c₀
    · exact hc ▸ MetadataElement.mem_wrap hcons
    · have hst' : (s₁.rt.setStack a.1 ([.execute t₀ tmp₀ (.call c₀ pc₁)] ++ fs)).stack a.1 =
          .execute t₀ tmp₀ (.call c₀ pc₁) :: fs := Function.update_self _ _ _
      have hzero := hS'.tokens.runs_eq_zero (t := t₀) hst' (by simp [Frame.runs]) hv fun hva => by
        subst hva
        rw [hst'] at hv
        exact (List.mem_cons.1 hv).resolve_left (by simp [hc])
      simp [Frame.runs] at hzero

/-- **The invariant is kept by the steps of the 32-bit system.**  It does not matter whether
lists of readers lose entries. -/
theorem Sound.step32 (hS : Sound s) (hshort : ShortLists s.dep)
    (h : Partee.step32 gridT s a = some s') (hfew : FewPushes s'.rt) : Sound s' := by
  obtain ⟨s₁, hs, rfl⟩ := Option.map_eq_some_iff.1 h
  have hS₁ : Sound s₁ := hS.step hs
  have hrt : s₁.wrap.rt = s₁.rt := wrap_rt_eq_self hS₁ hfew
  refine ⟨hrt ▸ hS₁.tokens, hrt ▸ hS₁.family, fun p j e he => ?_, fun c o ho => ?_,
    fun v t tmp c pc hv => ?_⟩
  · exact (hS₁.elements.table p j e he).wrap
  · exact hS₁.elements.depsLast c o ho
  · rw [hrt] at hv
    exact (hS₁.elements.calls v t tmp c pc hv).wrap fun e he hown hmem =>
      hS.mem_readers_wrap hshort hs hv he hown hmem

/-! ## The runs of the two systems -/

omit [Fintype ω] in
theorem shortLists_of_run32 (h : Run (step32 gridT) ok (init main) s) : ShortLists s.dep := by
  cases h with
  | refl => exact fun _ => Nat.zero_le _
  | tail _ _ hs => exact shortLists_of_step32 hs

/-- **Every state of the 32-bit system below `2 ^ 32` pushes satisfies the invariant.** -/
theorem sound_of_run32 (h : Run (step32 gridT) ok (init main) s) (hfew : FewPushes s.rt) :
    Sound s := by
  induction h with
  | refl => exact .init main
  | tail hr _ hs ih => exact (ih (hfew.of_step32 hs)).step32 (shortLists_of_run32 hr) hs hfew

/-- A step of the 32-bit system that stays below the bounds is a step of `step`. -/
theorem Sound.step_of_step32 (hS : Sound s) (hshort : ShortLists s.dep) (hcounts : CountsEntries s a)
    (h : Partee.step32 gridT s a = some s') (hfew : FewPushes s'.rt) :
    Partee.step gridT s a = some s' := by
  obtain ⟨s₁, hs, rfl⟩ := Option.map_eq_some_iff.1 h
  rw [hs, wrap_eq_self (hS.step hs) hfew (hshort.step hcounts hs)]

/-- **Below the bounds, the runs of the 32-bit system are runs of `step`.** -/
theorem run_of_run32 (h : Run (step32 gridT) ok (init main) s)
    (hcounts : ∀ s a, ok s a → CountsEntries s a) (hfew : FewPushes s.rt) :
    Run (step gridT) ok (init main) s := by
  induction h with
  | refl => exact .refl
  | tail hr hok hs ih =>
    have hfew' := hfew.of_step32 hs
    exact (ih hfew').tail hok ((sound_of_run32 hr hfew').step_of_step32 (shortLists_of_run32 hr)
      (hcounts _ _ hok) hs hfew)

/-- **Below the bounds, the runs of `step` are runs of the 32-bit system.** -/
theorem run32_of_run (h : Run (step gridT) ok (init main) s)
    (hcounts : ∀ s a, ok s a → CountsEntries s a) (hfew : FewPushes s.rt) :
    Run (step32 gridT) ok (init main) s := by
  have hboth : ShortLists s.dep ∧ (FewPushes s.rt → Run (step32 gridT) ok (init main) s) := by
    refine h.invariant_of (I := fun s => ShortLists s.dep ∧
      (FewPushes s.rt → Run (step32 gridT) ok (init main) s))
      (fun s hr => Sound.of_reachable hr.reach) ⟨fun _ => Nat.zero_le _, fun _ => .refl⟩ ?_
    rintro s a s' hS ⟨hshort, hrun⟩ hok hs
    have hshort' : ShortLists s'.dep := hshort.step (hcounts s a hok) hs
    refine ⟨hshort', fun hfew => (hrun (hfew.of_suffix (pushes_of_step hs))).tail hok ?_⟩
    rw [step32, hs, Option.map_some, wrap_eq_self (hS.step hs) hfew hshort']
  exact hboth.2 hfew

end Partee
