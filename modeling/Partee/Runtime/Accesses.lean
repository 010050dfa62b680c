import Partee.Runtime.Elements

/-!
# Every block of every argument is visited

What a task accesses is fixed by its argument list.  The loops of the dependence
analysis visit all of it before the task is created: what has not been visited yet
is still in the local variables of the call.

* `Accesses`: the blocks of the arguments of a task.
* `CallPc.Remains`: the blocks that a call in progress has still to visit.
* `Analysed`: the invariant.
-/

namespace Partee

open Transition

variable {ω : Type*}

/-- The task has an argument that visits block `j`, OUT or INOUT if `out`. -/
def Accesses (gridT : BitVec 64) (r : Runtime ω) (t : TaskId) (out : Bool) (j : ℕ) : Prop :=
  ∃ a ∈ (r.task t).args, a.isOut = out ∧ j ∈ a.blocks gridT

/-- The blocks that a walk has still to visit. -/
def Walk.Remains (gridT : BitVec 64) (k : Walk) (out : Bool) (j : ℕ) : Prop :=
  (∃ a ∈ k.args, a.isOut = out ∧ j ∈ a.blocks gridT) ∨
    (k.out = out ∧ (j ∈ k.pieces.flatten ∨ j ∈ k.blocks))

/-- The blocks that a call has still to visit. -/
def CallPc.Remains (gridT : BitVec 64) (pc : CallPc) (out : Bool) (j : ℕ) : Prop :=
  match pc with
  | .incr | .creating => True
  | .walk k | .push k _ _ | .readers k _ | .pushDependent k _ => k.Remains gridT out j
  | .ownerStatus k _ i => k.Remains gridT out j ∨ (out = false ∧ j = i)
  | .storeWaitfor _ | .storeCreated _ => False

/-- What a task accesses has been visited, up to what its call has still to visit. -/
structure Analysed (gridT : BitVec 64) (s : State ω) : Prop where
  creating : ∀ w t tmp c pc, Frame.execute t tmp (.call c pc) ∈ s.rt.stack w →
    ∀ out j, Accesses gridT s.rt c out j → (c, out, j) ∈ s.dep.visits ∨ pc.Remains gridT out j
  created : ∀ t, (s.rt.task t).status ≠ .creating →
    ∀ out j, Accesses gridT s.rt t out j → (t, out, j) ∈ s.dep.visits

variable {gridT : BitVec 64} {r r' : Runtime ω} {s s' : State ω} {t c p : TaskId} {out : Bool}
  {j : ℕ} {k : Walk} {pc pc' : CallPc}

theorem Accesses.of_grows (hg : Grows r r') (ht : t < r.next) (h : Accesses gridT r' t out j) :
    Accesses gridT r t out j := by
  unfold Accesses at h ⊢
  rwa [hg.args t ht] at h

/-! ## The loops -/

/-- The block looked at is visited, or its visit waits for the status of the owner. -/
theorem visited_createDependency (d : Analysis) {i : ℕ}
    (h : (k.out = out ∧ j = i) ∨ k.Remains gridT out j) :
    (c, out, j) ∈ (createDependency d c p k i).2.visits ∨
      (createDependency d c p k i).1.Remains gridT out j := by
  unfold createDependency
  rcases h with ⟨rfl, rfl⟩ | h
  · cases k.out <;> simp only [if_true, if_false, Bool.false_eq_true] <;> split
    · exact .inl (by simp)
    · split
      · exact .inl (by simp)
      · exact .inr (.inr ⟨rfl, rfl⟩)
    · exact .inl (by simp)
    · split <;> exact .inl (by simp)
  · right
    split <;> split <;> first | exact h | (split <;> first | exact h | exact .inl h)

theorem visited_createDependencies (d : Analysis) (h : k.Remains gridT out j) :
    (c, out, j) ∈ (createDependencies gridT d c p k).2.visits ∨
      (createDependencies gridT d c p k).1.Remains gridT out j := by
  unfold createDependencies
  split
  · rename_i i blocks hb
    refine visited_createDependency d ?_
    rcases h with hargs | ⟨hout, hpieces | hblocks⟩
    · exact .inr (.inl hargs)
    · exact .inr (.inr ⟨hout, .inl hpieces⟩)
    · rw [hb, List.mem_cons] at hblocks
      exact hblocks.imp (fun hj => ⟨hout, hj⟩) fun hj => .inr ⟨hout, .inr hj⟩
  · rename_i piece pieces hb hp
    refine .inr (h.imp id fun ⟨hout, hj⟩ => ⟨hout, ?_⟩)
    simp only [hb, hp, List.flatten_cons, List.mem_append, List.not_mem_nil, or_false] at hj
    exact hj.symm
  · rename_i a args hb hp ha
    -- the current argument is used up
    have hargs : ∃ x ∈ a :: args, x.isOut = out ∧ j ∈ x.blocks gridT := by
      simpa [Walk.Remains, hb, hp, ha] using h
    obtain ⟨x, hx, hout, hj⟩ := hargs
    rcases List.mem_cons.1 hx with rfl | hx
    · unfold Argument.blocks at hj
      split
      · rename_i hsafe
        simp [hsafe] at hj
      · rename_i hsafe
        rw [if_neg hsafe] at hj
        exact .inr (.inr ⟨hout, .inl hj⟩)
    · split <;> exact .inr (.inl ⟨x, hx, hout, hj⟩)
  · rename_i hb hp ha
    simp [Walk.Remains, hb, hp, ha] at h

/-- **No access of `tpc_call` forgets a block.** -/
theorem visited_of_tpcCall (hp : (s.rt.task c).parent = some t)
    (h : tpcCall gridT s c pc = some (pc', s')) (hacc : Accesses gridT s.rt c out j)
    (hj : (c, out, j) ∈ s.dep.visits ∨ pc.Remains gridT out j)
    (hsub : s.dep.visits ⊆ s'.dep.visits) :
    (c, out, j) ∈ s'.dep.visits ∨ pc'.Remains gridT out j := by
  rcases hj with hj | hj
  · exact .inl (hsub hj)
  · cases pc with
    | incr =>
      rw [tpcCall, hp] at h
      cases h
      exact .inr trivial
    | creating =>
      cases h
      exact .inr (.inl hacc)
    | walk k =>
      rw [tpcCall, hp] at h
      cases h
      exact visited_createDependencies s.dep hj
    | push k e raw =>
      have hs : notifyOwner s c k e raw = (pc', s') := Option.some.inj h
      simp only [notifyOwner] at hs
      split at hs
      · cases hs
        exact .inr hj
      · split at hs <;> cases hs <;> exact .inr hj
    | readers k rest =>
      have hs : notifyReaders s c k rest = (pc', s') := Option.some.inj h
      cases rest with
      | nil =>
        cases hs
        exact .inr hj
      | cons y rest =>
        simp only [notifyReaders] at hs
        split at hs
        · split at hs <;> cases hs <;> exact .inr hj
        · cases hs
          exact .inr hj
    | ownerStatus k e i =>
      rw [tpcCall, hp, Option.map_some, Option.some.injEq] at h
      unfold readAfterRead at h
      dsimp only at h
      rcases hj with hj | ⟨rfl, rfl⟩
      · split at h
        · split at h
          · cases h
            exact .inr hj
          · split at h <;> cases h <;> exact .inr hj
        · cases h
          exact .inr hj
      · split at h
        · split at h
          · cases h
            exact .inl (by simp)
          · split at h <;> cases h <;> exact .inl (by simp)
        · cases h
          exact .inl (by simp)
    | pushDependent k d =>
      have hs : notifyDependent s c k d = (pc', s') := Option.some.inj h
      simp only [notifyDependent] at hs
      split at hs <;> cases hs <;> exact .inr hj
    | storeWaitfor n => exact hj.elim
    | storeCreated n => cases h

/-! ## The steps of the system -/

variable [Fintype ω] [DecidableEq ω] {w : ω} {f : Frame} {gs fs : List Frame} {ch : Choice ω}

omit [Fintype ω] in
/-- A task becomes created by the store of `CREATED_TASK` only. -/
theorem Move.created_of (h : Move r w f gs r') (ho : Owned r f)
    (hst : (r.task t).status = .creating) (hne : (r'.task t).status ≠ .creating) :
    ∃ p tmp n, f = .execute p tmp (.call t (.storeCreated n)) := by
  cases h with
  | @createdReady p c tmp =>
    obtain rfl : t = c := by
      by_contra hc
      exact hne (by simp [hc, hst])
    exact ⟨p, tmp, 0, rfl⟩
  | @createdWaiting p c tmp n hn =>
    obtain rfl : t = c := by
      by_contra hc
      exact hne (by simp [hc, hst])
    exact ⟨p, tmp, n, rfl⟩
  | _ =>
    simp only [Owned] at ho
    simp -failIfUnchanged [Function.update_apply] at hne
    grind [Descriptor.new]

theorem Analysed.act (hS : Sound s) (hA : Analysed gridT s) (hst : s.rt.stack w = f :: fs)
    (h : Partee.act gridT s w f ch = some (gs, s')) :
    Analysed gridT { s' with rt := s'.rt.setStack w (gs ++ fs) } := by
  have hm : Move s.rt w f gs s'.rt := hS.move hst h
  have hg : Grows s.rt s'.rt := hS.grows hst h
  have hsub : s.dep.visits ⊆ s'.dep.visits := (hS.extends hst h).visits
  refine ⟨fun v t tmp c pc hv out j hacc => ?_, fun t hne out j hacc => ?_⟩
  · rcases mem_setStack hm.stack_eq hst hv with ⟨-, hgs⟩ | ⟨hold, -⟩
    · rcases dep_of_act h with ⟨-, hincr⟩ | ⟨x, tmp', -, rfl, -⟩ |
        ⟨x, tmp', c', pc₀, pc', rfl, rfl, hcall⟩
      · rw [hincr t tmp c pc hgs]
        exact .inr trivial
      · simp at hgs
      · simp only [List.mem_singleton, Frame.execute.injEq, ExecPc.call.injEq] at hgs
        obtain ⟨rfl, rfl, rfl, rfl⟩ := hgs
        obtain ⟨-, -, hlt, hp, -⟩ := hS.owned hst
        have hacc' : Accesses gridT s.rt c out j := Accesses.of_grows hg hlt hacc
        have hbefore := hA.creating w t tmp c pc₀ (hst ▸ List.mem_cons_self) out j hacc'
        have hafter : (c, out, j) ∈ s'.dep.visits ∨ pc.Remains gridT out j :=
          visited_of_tpcCall hp hcall hacc' hbefore hsub
        exact hafter
    · have hlt := (hS.family.frames v _ hold).1
      have hacc' : Accesses gridT s.rt c out j := Accesses.of_grows hg hlt hacc
      exact (hA.creating v t tmp c pc hold out j hacc').imp (fun hj => hsub hj) id
  · by_cases hcr : (s.rt.task t).status = .creating
    · obtain ⟨p, tmp, n, rfl⟩ := hm.created_of (hS.owned hst) hcr hne
      have hlt := (hS.owned hst).2.2.1
      have hacc' : Accesses gridT s.rt t out j := Accesses.of_grows hg hlt hacc
      exact hsub ((hA.creating w p tmp t _ (hst ▸ List.mem_cons_self) out j hacc').resolve_right id)
    · have hacc' : Accesses gridT s.rt t out j :=
        Accesses.of_grows hg (hS.tokens.lt_next hcr) hacc
      exact hsub (hA.created t hcr out j hacc')

omit [Fintype ω] in
theorem Analysed.init (main : ω) : Analysed gridT (init main) where
  creating w t tmp c pc hmem := by
    simp only [Partee.init] at hmem
    split at hmem <;> simp at hmem
  created t _ out j hacc := by
    obtain ⟨a, ha, -⟩ := hacc
    have hnil : ((Partee.init main).rt.task t).args = [] := by
      simp only [Partee.init]
      split <;> rfl
    rw [hnil] at ha
    cases ha

end Partee
