import Partee.Runtime.Step

/-!
# What a step can do to the runtime

`Move r w f gs r'` lists, once and for all, what the innermost record `f` of
worker `w` can do: it is replaced by `gs`, and the shared data become `r'`.  The
constructors are the shared accesses of the source.  The inner workings of the
dependence analysis are left out: between two pushes it only moves its own
record (`walk`), and all that is said about a push is that it goes to the stack
of a sibling that was spawned before.  So everything proved from `Move` holds
for every dependence pattern between siblings.

* `Sibling r c s`: `s` is a sibling of `c`, spawned before `c`.
* `move_of_act`: every action of the innermost record is a move, if the push it
  may be about to perform goes to an earlier sibling (`PushesBack`).
-/

namespace Partee

open Transition

variable {ω : Type*}

/-- `s` has the same parent as `c`, has been through the increment of `tpc_call`,
and was spawned before `c`. -/
def Sibling (r : Runtime ω) (c s : TaskId) : Prop :=
  s < c ∧ (r.task s).parent = (r.task c).parent ∧ r.hist.counted s = true

namespace CallPc

/-- The program points inside the loops of the dependence analysis. -/
def walking : CallPc → Bool
  | .walk _ | .push _ _ _ | .readers _ _ | .ownerStatus _ _ _ | .pushDependent _ _ => true
  | _ => false

/-- The number of successful pushes so far. -/
def pushed : CallPc → ℕ
  | .incr | .creating => 0
  | .walk k | .push k _ _ | .readers k _ | .ownerStatus k _ _ | .pushDependent k _ => k.waitfor
  | .storeWaitfor n | .storeCreated n => n

end CallPc

variable [DecidableEq ω]

/-- What the innermost record of worker `w` can do. -/
inductive Move (r : Runtime ω) (w : ω) : Frame → List Frame → Runtime ω → Prop where
  | take {v : ω} {k : ℕ} {t : TaskId} (hk : (r.queue v)[k]? = some t) :
      Move r w .worker [.enter t, .worker] (r.dequeue v k)
  | idle : Move r w .worker [.worker] r
  | enter {t : TaskId} :
      Move r w (.enter t) [.execute t (r.currTask w) .body] (r.begin w t)
  | spawn {t p : TaskId} {tmp : Option TaskId} {args : List Argument}
      (hp : r.parent w = some p) :
      Move r w (.execute t tmp .body) [.execute t tmp (.call r.next .incr)] (r.alloc args p)
  | syncCall {t q : TaskId} {tmp : Option TaskId} (hq : r.currTask w = some q) :
      Move r w (.execute t tmp .body) [.execute t tmp (.sync q false)] r
  | ret {t : TaskId} {tmp : Option TaskId} (ht : t ≠ mainTask) :
      Move r w (.execute t tmp .body) [.execute t tmp .storeExecuted] r
  | incr {t c p : TaskId} {tmp : Option TaskId} (hp : (r.task c).parent = some p) :
      Move r w (.execute t tmp (.call c .incr)) [.execute t tmp (.call c .creating)]
        (r.incrChildren c p)
  | creating {t c : TaskId} {tmp : Option TaskId} :
      Move r w (.execute t tmp (.call c .creating))
        [.execute t tmp (.call c (.walk (.start (r.task c).args)))] (r.setStatus c .creating)
  | walk {t c : TaskId} {tmp : Option TaskId} {pc pc' : CallPc} (hpc : pc.walking)
      (heq : pc'.pushed = pc.pushed)
      (hpc' : pc'.walking ∨ pc' = .storeWaitfor pc.pushed ∨ pc' = .storeCreated 0) :
      Move r w (.execute t tmp (.call c pc)) [.execute t tmp (.call c pc')] r
  | push {t c s : TaskId} {tmp : Option TaskId} {pc pc' : CallPc} {l : List TaskId}
      (hpc : pc.walking) (hpc' : pc'.walking) (heq : pc'.pushed = pc.pushed + 1)
      (hs : Sibling r c s) (hl : (r.task s).toNotify = some l) :
      Move r w (.execute t tmp (.call c pc)) [.execute t tmp (.call c pc')] (r.pushed c s l)
  | storeWaitfor {t c : TaskId} {tmp : Option TaskId} {n : ℕ} :
      Move r w (.execute t tmp (.call c (.storeWaitfor n)))
        [.execute t tmp (.call c (.storeCreated n))]
        (r.modify c fun d => { d with waitfor := n })
  | createdReady {t c : TaskId} {tmp : Option TaskId} :
      Move r w (.execute t tmp (.call c (.storeCreated 0)))
        [.schedule c false, .execute t tmp .body] (r.setStatus c .created)
  | createdWaiting {t c : TaskId} {tmp : Option TaskId} {n : ℕ} (hn : n ≠ 0) :
      Move r w (.execute t tmp (.call c (.storeCreated n))) [.execute t tmp .body]
        (r.setStatus c .created)
  | syncDone {t q : TaskId} {tmp : Option TaskId} (h0 : (r.task q).numberOfChildren = 0) :
      Move r w (.execute t tmp (.sync q false)) [.execute t tmp .body] (r.setContext w (some q))
  | syncBusy {t q : TaskId} {tmp : Option TaskId} (h0 : (r.task q).numberOfChildren ≠ 0) :
      Move r w (.execute t tmp (.sync q false)) [.execute t tmp (.sync q true)] r
  | syncTake {t q x : TaskId} {tmp : Option TaskId} {v : ω} {k : ℕ}
      (hk : (r.queue v)[k]? = some x) :
      Move r w (.execute t tmp (.sync q true)) [.enter x, .execute t tmp (.sync q false)]
        (r.dequeue v k)
  | syncNothing {t q : TaskId} {tmp : Option TaskId} :
      Move r w (.execute t tmp (.sync q true)) [.execute t tmp (.sync q false)] r
  | storeExecuted {t : TaskId} {tmp : Option TaskId} :
      Move r w (.execute t tmp .storeExecuted) [.execute t tmp .loadChildren]
        (r.setStatus t .executed)
  | loadBusy {t : TaskId} {tmp : Option TaskId} (h0 : 0 < (r.task t).numberOfChildren) :
      Move r w (.execute t tmp .loadChildren) [.execute t tmp .restore] r
  | loadFree {t : TaskId} {tmp : Option TaskId} (h0 : (r.task t).numberOfChildren = 0) :
      Move r w (.execute t tmp .loadChildren) [.release t .cas, .execute t tmp .restore] r
  | restore {t : TaskId} {tmp : Option TaskId} :
      Move r w (.execute t tmp .restore) [] (r.setContext w tmp)
  | scheduleWon {t : TaskId} (hst : (r.task t).status = .created) :
      Move r w (.schedule t false) [.schedule t true] (r.schedule t)
  | scheduleLost {t : TaskId} (hst : (r.task t).status ≠ .created) :
      Move r w (.schedule t false) [] r
  | accept {t : TaskId} : Move r w (.schedule t true) [] (r.enqueue w t)
  | refuse {t : TaskId} : Move r w (.schedule t true) [.enter t] r
  | releaseWon {t : TaskId} (hst : (r.task t).status = .executed) :
      Move r w (.release t .cas) [.release t .lock] (r.release t)
  | releaseLost {t : TaskId} (hst : (r.task t).status ≠ .executed) :
      Move r w (.release t .cas) [] r
  | lock {t : TaskId} {l : List TaskId} (hl : (r.task t).toNotify = some l) :
      Move r w (.release t .lock) [.release t (.fire l)] (r.locked t)
  | fireDone {t : TaskId} : Move r w (.release t (.fire [])) [.release t .storeComplete] r
  | fire {t x : TaskId} {rest : List TaskId} :
      Move r w (.release t (.fire (x :: rest)))
        [.release t (.await x ((r.task x).fired + 1) rest)] (r.incrFired x)
  | spin {t x : TaskId} {n : ℕ} {rest : List TaskId}
      (hst : (r.task x).status.code < Status.created.code) :
      Move r w (.release t (.await x n rest)) [.release t (.await x n rest)] r
  | seen {t x : TaskId} {n : ℕ} {rest : List TaskId}
      (hst : Status.created.code ≤ (r.task x).status.code) :
      Move r w (.release t (.await x n rest)) [.release t (.testStatus x n rest)] r
  | statusPass {t x : TaskId} {n : ℕ} {rest : List TaskId}
      (hst : (r.task x).status = .created) :
      Move r w (.release t (.testStatus x n rest)) [.release t (.testWaitfor x n rest)] r
  | statusFail {t x : TaskId} {n : ℕ} {rest : List TaskId}
      (hst : (r.task x).status ≠ .created) :
      Move r w (.release t (.testStatus x n rest)) [.release t (.fire rest)] r
  | waitforPass {t x : TaskId} {n : ℕ} {rest : List TaskId} (hn : (r.task x).waitfor = n) :
      Move r w (.release t (.testWaitfor x n rest)) [.schedule x false, .release t (.fire rest)] r
  | waitforFail {t x : TaskId} {n : ℕ} {rest : List TaskId} (hn : (r.task x).waitfor ≠ n) :
      Move r w (.release t (.testWaitfor x n rest)) [.release t (.fire rest)] r
  | storeComplete {t : TaskId} :
      Move r w (.release t .storeComplete) [.release t .deleteRegion] (r.setStatus t .complete)
  | deleteRegion {t : TaskId} :
      Move r w (.release t .deleteRegion) [.release t .decr]
        (r.modify t fun d => { d with regionDeleted := true })
  | decr {t p : TaskId} (hp : (r.task t).parent = some p) :
      Move r w (.release t .decr)
        [.release t (.testParent p ((r.task p).numberOfChildren - 1))] (r.decrChildren t p)
  | decrRoot {t : TaskId} (hp : (r.task t).parent = none) : Move r w (.release t .decr) [] r
  | testPass {t p : TaskId} (hst : (r.task p).status = .executed) :
      Move r w (.release t (.testParent p 0)) [.release t (.callParent p)] r
  | testFail {t p : TaskId} {n : ℕ} (h : ¬ (n = 0 ∧ (r.task p).status = .executed)) :
      Move r w (.release t (.testParent p n)) [] r
  | callParent {t p : TaskId} : Move r w (.release t (.callParent p)) [.release p .cas] r

/-! ## Every action is a move -/

/-- The task whose stack the record of `tpc_call(c)` is about to push on. -/
def CallPc.target (d : Analysis) : CallPc → Option TaskId
  | .push _ e _ => some (d.elem e).owner
  | .readers _ (x :: _) => some x
  | .pushDependent _ e => some (d.elem e).owner
  | _ => none

/-- A push that `tpc_call(c)` is about to perform goes to an earlier sibling, or
to `c` itself, which the analysis skips. -/
def PushesBack (s : State ω) : Frame → Prop
  | .execute _ _ (.call c pc) =>
      (∃ p, (s.rt.task c).parent = some p) ∧
        ∀ x ∈ pc.target s.dep, (x = c ∧ ∀ k d, pc ≠ .pushDependent k d) ∨ Sibling s.rt c x
  | _ => True

omit [DecidableEq ω] in
theorem stackPush_eq_some {r r' : Runtime ω} {t s : TaskId} :
    stackPush r t s = some r' ↔ ∃ l, (r.task s).toNotify = some l ∧ r' = r.pushed t s l := by
  rw [stackPush, Option.map_eq_some_iff]
  exact exists_congr fun l => and_congr_right fun _ => eq_comm

/-- The analysis between two shared accesses keeps its count of pushes. -/
theorem pushed_createDependency (d : Analysis) (c p : TaskId) (k : Walk) (j : ℕ) :
    (createDependency d c p k j).1.walking ∧
      (createDependency d c p k j).1.pushed = k.waitfor := by
  unfold createDependency
  split <;> split <;> first | exact ⟨rfl, rfl⟩ | (split <;> exact ⟨rfl, rfl⟩)

theorem pushed_createDependencies (gridT : BitVec 64) (d : Analysis) (c p : TaskId) (k : Walk) :
    (createDependencies gridT d c p k).1.pushed = k.waitfor ∧
      ((createDependencies gridT d c p k).1.walking ∨
        (createDependencies gridT d c p k).1 = .storeWaitfor k.waitfor ∨
        (createDependencies gridT d c p k).1 = .storeCreated 0) := by
  unfold createDependencies
  split
  · rename_i j blocks _
    have h := pushed_createDependency d c p { k with blocks := blocks } j
    exact ⟨h.2, .inl h.1⟩
  · exact ⟨rfl, .inl rfl⟩
  · split <;> exact ⟨rfl, .inl rfl⟩
  · split
    · rename_i h
      exact ⟨h.symm, .inr (.inr rfl)⟩
    · exact ⟨rfl, .inr (.inl rfl)⟩

variable {s s' : State ω} {w : ω} {t c : TaskId} {tmp : Option TaskId} {gs : List Frame}

/-- A step of the analysis that does not push. -/
theorem Move.of_walk {pc pc' : CallPc} (hpc : pc.walking)
    (h : pc'.walking ∧ pc'.pushed = pc.pushed) (hrt : s'.rt = s.rt) :
    Move s.rt w (.execute t tmp (.call c pc)) [.execute t tmp (.call c pc')] s'.rt := by
  rw [hrt]
  exact .walk hpc h.2 (.inl h.1)

theorem move_of_notifyOwner {k : Walk} {e : ElemId} {raw : Bool} {pc' : CallPc}
    (hb : ∀ x, (s.dep.elem e).owner = x → x = c ∨ Sibling s.rt c x)
    (h : notifyOwner s c k e raw = (pc', s')) :
    Move s.rt w (.execute t tmp (.call c (.push k e raw))) [.execute t tmp (.call c pc')] s'.rt := by
  simp only [notifyOwner] at h
  split at h
  · cases h
    exact .of_walk rfl ⟨rfl, rfl⟩ rfl
  · rename_i hne
    split at h
    · cases h
      exact .of_walk rfl ⟨rfl, rfl⟩ rfl
    · rename_i r hr
      cases h
      obtain ⟨l, hl, rfl⟩ := stackPush_eq_some.1 hr
      rcases hb _ rfl with hself | hsib
      · exact absurd (Or.inl hself.symm) hne
      · exact .push rfl rfl rfl hsib hl

theorem move_of_notifyReaders {k : Walk} {rest : List TaskId} {pc' : CallPc}
    (hb : ∀ x ∈ rest.head?, x = c ∨ Sibling s.rt c x)
    (h : notifyReaders s c k rest = (pc', s')) :
    Move s.rt w (.execute t tmp (.call c (.readers k rest))) [.execute t tmp (.call c pc')] s'.rt := by
  cases rest with
  | nil =>
    cases h
    exact .of_walk rfl ⟨rfl, rfl⟩ rfl
  | cons reader rest =>
    simp only [notifyReaders] at h
    split at h
    · rename_i hne
      split at h
      · cases h
        exact .of_walk rfl ⟨rfl, rfl⟩ rfl
      · rename_i r hr
        cases h
        obtain ⟨l, hl, rfl⟩ := stackPush_eq_some.1 hr
        rcases hb _ rfl with hself | hsib
        · exact absurd hself.symm hne.1
        · exact .push rfl rfl rfl hsib hl
    · cases h
      exact .of_walk rfl ⟨rfl, rfl⟩ rfl

theorem move_of_readAfterRead {p : TaskId} {k : Walk} {e : ElemId} {j : ℕ} {pc' : CallPc}
    (h : readAfterRead s c p k e j = (pc', s')) :
    Move s.rt w (.execute t tmp (.call c (.ownerStatus k e j)))
      [.execute t tmp (.call c pc')] s'.rt := by
  simp only [readAfterRead] at h
  split at h
  · split at h
    · cases h
      exact .of_walk rfl ⟨rfl, rfl⟩ rfl
    · split at h <;> cases h <;> exact .of_walk rfl ⟨rfl, rfl⟩ rfl
  · cases h
    exact .of_walk rfl ⟨rfl, rfl⟩ rfl

theorem move_of_notifyDependent {k : Walk} {d : ElemId} {pc' : CallPc}
    (hb : Sibling s.rt c (s.dep.elem d).owner) (h : notifyDependent s c k d = (pc', s')) :
    Move s.rt w (.execute t tmp (.call c (.pushDependent k d)))
      [.execute t tmp (.call c pc')] s'.rt := by
  simp only [notifyDependent] at h
  split at h
  · cases h
    exact .of_walk rfl ⟨rfl, rfl⟩ rfl
  · rename_i r hr
    cases h
    obtain ⟨l, hl, rfl⟩ := stackPush_eq_some.1 hr
    exact .push rfl rfl rfl hb hl

theorem move_of_tpcCall {gridT : BitVec 64} {pc pc' : CallPc}
    (hb : PushesBack s (.execute t tmp (.call c pc))) (h : tpcCall gridT s c pc = some (pc', s')) :
    Move s.rt w (.execute t tmp (.call c pc)) [.execute t tmp (.call c pc')] s'.rt := by
  obtain ⟨⟨p, hp⟩, hb⟩ := hb
  cases pc with
  | incr =>
    rw [tpcCall, hp] at h
    cases h
    exact .incr hp
  | creating =>
    cases h
    exact .creating
  | walk k =>
    rw [tpcCall, hp] at h
    cases h
    have hk := pushed_createDependencies gridT s.dep c p k
    exact .walk rfl hk.1 hk.2
  | push k e raw =>
    refine move_of_notifyOwner (fun x hx => ?_) (Option.some.inj h)
    exact (hb x (congrArg some hx)).imp And.left id
  | readers k rest =>
    refine move_of_notifyReaders (fun x hx => ?_) (Option.some.inj h)
    cases rest with
    | nil => cases hx
    | cons y rest => exact (hb x hx).imp And.left id
  | ownerStatus k e j =>
    rw [tpcCall, hp] at h
    exact move_of_readAfterRead (Option.some.inj h)
  | pushDependent k d =>
    refine move_of_notifyDependent ?_ (Option.some.inj h)
    rcases hb _ rfl with ⟨-, hne⟩ | hsib
    · exact absurd rfl (hne k d)
    · exact hsib
  | storeWaitfor n =>
    cases h
    exact .storeWaitfor
  | storeCreated n => cases h

theorem move_of_takeTask {f g : Frame} {v : ω} {k : ℕ}
    (hf : ∀ t, (s.rt.queue v)[k]? = some t → Move s.rt w g [.enter t, f] (s.rt.dequeue v k))
    (h : takeTask s f v k = some (gs, s')) : Move s.rt w g gs s'.rt := by
  rw [takeTask, Option.map_eq_some_iff] at h
  obtain ⟨t, ht, heq⟩ := h
  cases heq
  exact hf t ht

theorem move_of_executeTask {gridT : BitVec 64} {pc : ExecPc} {a : Choice ω}
    (hb : PushesBack s (.execute t tmp pc))
    (h : executeTask gridT s w t tmp pc a = some (gs, s')) :
    Move s.rt w (.execute t tmp pc) gs s'.rt := by
  unfold executeTask at h
  split at h
  · rw [Option.map_eq_some_iff] at h
    obtain ⟨p, hp, heq⟩ := h
    cases heq
    exact .spawn hp
  · rw [Option.map_eq_some_iff] at h
    obtain ⟨q, hq, heq⟩ := h
    cases heq
    exact .syncCall hq
  · split at h <;> cases h
    exact .ret ‹_›
  · rename_i n
    split at h
    · rename_i hn
      cases h
      subst hn
      exact .createdReady
    · cases h
      exact .createdWaiting ‹_›
  · rw [Option.map_eq_some_iff] at h
    obtain ⟨⟨pc', s''⟩, hpc, heq⟩ := h
    cases heq
    exact move_of_tpcCall hb hpc
  · split at h <;> cases h
    · exact .syncDone ‹_›
    · exact .syncBusy ‹_›
  · exact move_of_takeTask (fun x hx => .syncTake hx) h
  · cases h
    exact .syncNothing
  · cases h
    exact .storeExecuted
  · split at h <;> cases h
    · exact .loadBusy ‹_›
    · exact .loadFree (Nat.eq_zero_of_not_pos ‹_›)
  · cases h
    exact .restore
  · cases h

theorem move_of_scheduleTask {enqueue : Bool} {a : Choice ω}
    (h : scheduleTask s w t enqueue a = some (gs, s')) :
    Move s.rt w (.schedule t enqueue) gs s'.rt := by
  unfold scheduleTask at h
  split at h
  · split at h <;> cases h
    · exact .scheduleWon ‹_›
    · exact .scheduleLost ‹_›
  · cases h
    exact .accept
  · cases h
    exact .refuse
  · cases h

theorem move_of_releaseTask {pc : ReleasePc} (h : releaseTask s t pc = some (gs, s')) :
    Move s.rt w (.release t pc) gs s'.rt := by
  unfold releaseTask at h
  split at h
  · split at h <;> cases h
    · exact .releaseWon ‹_›
    · exact .releaseLost ‹_›
  · rw [Option.map_eq_some_iff] at h
    obtain ⟨l, hl, heq⟩ := h
    cases heq
    exact .lock hl
  · cases h
    exact .fireDone
  · cases h
    exact .fire
  · split at h <;> cases h
    · exact .spin ‹_›
    · exact .seen (Nat.le_of_not_lt ‹_›)
  · split at h <;> cases h
    · exact .statusPass ‹_›
    · exact .statusFail ‹_›
  · split at h <;> cases h
    · exact .waitforPass ‹_›
    · exact .waitforFail ‹_›
  · cases h
    exact .storeComplete
  · cases h
    exact .deleteRegion
  · split at h <;> cases h
    · exact .decrRoot ‹_›
    · exact .decr ‹_›
  · rename_i p children
    split at h <;> cases h
    · rename_i htest
      rw [htest.1]
      exact .testPass htest.2
    · exact .testFail ‹_›
  · cases h
    exact .callParent

/-- **Every action of the innermost record is a move.** -/
theorem move_of_act {gridT : BitVec 64} {f : Frame} {a : Choice ω} (hb : PushesBack s f)
    (h : act gridT s w f a = some (gs, s')) : Move s.rt w f gs s'.rt := by
  unfold act at h
  split at h
  · unfold workerThread at h
    split at h
    · exact move_of_takeTask (fun x hx => .take hx) h
    · cases h
      exact .idle
    · cases h
  · cases h
    exact .enter
  · exact move_of_executeTask hb h
  · exact move_of_scheduleTask h
  · exact move_of_releaseTask h
  · cases h

/-- A step is an action of an innermost record. -/
theorem act_of_step {gridT : BitVec 64} {a : ω × Choice ω} (h : step gridT s a = some s') :
    ∃ f fs gs s₁, s.rt.stack a.1 = f :: fs ∧ act gridT s a.1 f a.2 = some (gs, s₁) ∧
      s' = { s₁ with rt := s₁.rt.setStack a.1 (gs ++ fs) } := by
  unfold step at h
  split at h
  · cases h
  · rename_i f fs hst
    rw [Option.map_eq_some_iff] at h
    obtain ⟨⟨gs, s₁⟩, hact, heq⟩ := h
    exact ⟨f, fs, gs, s₁, hst, hact, heq.symm⟩

theorem step_of_act {gridT : BitVec 64} {f : Frame} {fs : List Frame} {ch : Choice ω}
    (hst : s.rt.stack w = f :: fs) (hact : act gridT s w f ch = some (gs, s')) :
    step gridT s (w, ch) = some { s' with rt := s'.rt.setStack w (gs ++ fs) } := by
  simp only [step, hst, hact, Option.map_some]

end Partee
