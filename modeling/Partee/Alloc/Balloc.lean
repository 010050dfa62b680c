import Partee.Transition.Run
import Partee.Runtime.Argument
import Mathlib.Algebra.Group.Nat.Defs
import Mathlib.Logic.Function.Basic
import Mathlib.Tactic.Common

/-!
# The allocator of `balloc.c`

`balloc_alloc` returns the value of the global `Top` and advances `Top` by a whole
number of blocks.  It makes three accesses of `Top`: the load of the result, and the
load and the store of `Top += segment`.  Nothing keeps two workers from making them
at the same time, so an advance can be lost.

A call is *undisturbed* when `Top` still has, at its store, the value of its two
loads.  As long as all calls are, the segments are disjoint and `Top` moves forward;
the first call that is not returns a segment that has been handed out already.

`segments` and `allotted` are kept for the statements; no step reads them.
-/

namespace Partee
namespace Balloc

open Transition

/-- The bytes by which `balloc_alloc(size)` advances `Top`. -/
def segment (size : ℕ) : ℕ := (size + blockSz - size % blockSz) % 2 ^ 64

/-- The program points of `balloc_alloc`. -/
inductive Pc where
  /-- no call in progress -/
  | idle
  /-- `Top += segment`: the load is next -/
  | load (size ret : ℕ)
  /-- `Top += segment`: the store is next -/
  | store (size ret top : ℕ)

/-- The allocator and the workers that call it. -/
structure State (ω : Type*) where
  /-- `Top` -/
  top : ℕ
  pc : ω → Pc
  /-- the results of the calls that have returned and their sizes, the latest first -/
  segments : List (ℕ × ℕ)
  /-- the bytes by which the calls that have returned were to advance `Top` -/
  allotted : ℕ

variable {ω : Type*}

/-- After `balloc_init`. -/
def init (ω : Type*) (gridT : ℕ) : State ω where
  top := gridT
  pc := fun _ => .idle
  segments := []
  allotted := 0

/-- Who moves; an idle worker is told the size it asks for. -/
inductive Label (ω : Type*) where
  | alloc (w : ω) (size : ℕ)
  | move (w : ω)

variable [DecidableEq ω]

/-- One access of `Top`. -/
def step (s : State ω) : Label ω → Option (State ω)
  | .alloc w size =>
      match s.pc w with
      | .idle => some { s with pc := Function.update s.pc w (.load size s.top) }
      | _ => none
  | .move w =>
      match s.pc w with
      | .idle => none
      | .load size ret => some { s with pc := Function.update s.pc w (.store size ret s.top) }
      | .store size ret top => some { s with
          top := (top + segment size) % 2 ^ 64
          pc := Function.update s.pc w .idle
          segments := (ret, size) :: s.segments
          allotted := s.allotted + segment size }

/-- Sizes are positive, and the segments of the calls that return fit in the grid.  What has to
fit is the advance of `Top`, that is the size rounded up to the next whole block, and one block
more than the size where that is a multiple already. -/
def Fits (s : State ω) : Label ω → Prop
  | .alloc _ size => 0 < size
  | .move w =>
      match s.pc w with
      | .store size _ _ => s.allotted + (size + blockSz - size % blockSz) ≤ gridSz
      | _ => True

/-- When a call stores `Top`, it still has the value that both its loads have read. -/
def Undisturbed (s : State ω) : Label ω → Prop
  | .alloc _ _ => True
  | .move w =>
      match s.pc w with
      | .store _ ret top => s.top = top ∧ s.top = ret
      | _ => True

instance (s : State ω) (a : Label ω) : Decidable (Fits s a) :=
  match a with
  | .alloc _ size => inferInstanceAs (Decidable (0 < size))
  | .move w =>
      match h : s.pc w with
      | .store size _ _ =>
          decidable_of_iff (s.allotted + (size + blockSz - size % blockSz) ≤ gridSz)
            (by rw [Fits, h])
      | .idle | .load _ _ => .isTrue (by rw [Fits, h]; trivial)

instance (s : State ω) (a : Label ω) : Decidable (Undisturbed s a) :=
  match a with
  | .alloc _ _ => .isTrue trivial
  | .move w =>
      match h : s.pc w with
      | .store _ ret top =>
          decidable_of_iff (s.top = top ∧ s.top = ret) (by rw [Undisturbed, h])
      | .idle | .load _ _ => .isTrue (by rw [Undisturbed, h]; trivial)

/-- Two segments `[result, result + size)` have no byte in common. -/
def Apart (x y : ℕ × ℕ) : Prop := x.1 + x.2 ≤ y.1 ∨ y.1 + y.2 ≤ x.1

instance (x y : ℕ × ℕ) : Decidable (Apart x y) := inferInstanceAs (Decidable (_ ∨ _))

/-! ## The invariant -/

/-- A segment that fits in the grid is larger than what was asked for. -/
theorem segment_bounds {size n : ℕ} (h : n + (size + blockSz - size % blockSz) ≤ gridSz) :
    size < segment size ∧ n + segment size ≤ gridSz := by
  rw [gridSz, blockSz] at h
  rw [segment, blockSz, gridSz]
  omega

/-- `Top` has had this value: it has it now, or a segment that starts there has been
handed out. -/
def Seen (s : State ω) (ret : ℕ) : Prop :=
  ret = s.top ∨ ∃ n, 0 < n ∧ (ret, n) ∈ s.segments

/-- What a call has read. -/
def PcOk (s : State ω) : Pc → Prop
  | .idle => True
  | .load size ret => 0 < size ∧ ret ≤ s.top ∧ Seen s ret
  | .store size ret top => 0 < size ∧ ret ≤ top ∧ top ≤ s.top ∧ Seen s ret

/-- The invariant of the runs whose calls are undisturbed. -/
structure Inv (gridT : ℕ) (s : State ω) : Prop where
  top : s.top = gridT + s.allotted
  below : ∀ x ∈ s.segments, x.1 + x.2 ≤ s.top
  apart : s.segments.Pairwise Apart
  pcs : ∀ w, PcOk s (s.pc w)

omit [DecidableEq ω] in
theorem inv_init (gridT : ℕ) : Inv gridT (init ω gridT) where
  top := rfl
  below _ h := absurd h List.not_mem_nil
  apart := .nil
  pcs _ := trivial

omit [DecidableEq ω] in
/-- Handing out the segment at `Top` keeps what the other calls know. -/
theorem PcOk.mono {s s' : State ω} {pc : Pc} (h : PcOk s pc) (htop : s.top ≤ s'.top)
    (hseen : ∀ ret, Seen s ret → Seen s' ret) : PcOk s' pc := by
  cases pc with
  | idle => trivial
  | load size ret => exact ⟨h.1, Nat.le_trans h.2.1 htop, hseen ret h.2.2⟩
  | store size ret top => exact ⟨h.1, h.2.1, Nat.le_trans h.2.2.1 htop, hseen ret h.2.2.2⟩

/-- Worker `w` moves on without storing `Top`. -/
theorem Inv.load {gridT : ℕ} {s : State ω} (h : Inv gridT s) {w : ω} {pc : Pc}
    (hpc : PcOk s pc) : Inv gridT { s with pc := Function.update s.pc w pc } := by
  refine ⟨h.top, h.below, h.apart, fun v => ?_⟩
  show PcOk s (Function.update s.pc w pc v)
  rcases eq_or_ne v w with rfl | hvw
  · rw [Function.update_self]
    exact hpc
  · rw [Function.update_of_ne hvw]
    exact h.pcs v

/-- An undisturbed store advances `Top` by a segment that begins there. -/
theorem Inv.store {gridT : ℕ} {s : State ω} (h : Inv gridT s) (hgrid : gridT + gridSz < 2 ^ 64)
    {w : ω} {size : ℕ} (hpc : s.pc w = .store size s.top s.top)
    (hfits : s.allotted + (size + blockSz - size % blockSz) ≤ gridSz) :
    (s.top + segment size) % 2 ^ 64 = s.top + segment size ∧
      Inv gridT { s with
        top := s.top + segment size
        pc := Function.update s.pc w .idle
        segments := (s.top, size) :: s.segments
        allotted := s.allotted + segment size } := by
  have hok := h.pcs w
  rw [hpc] at hok
  have htop := h.top
  obtain ⟨hlt, hle⟩ := segment_bounds hfits
  refine ⟨Nat.mod_eq_of_lt (by omega), ?_, fun x hx => ?_, ?_, fun v => ?_⟩
  · show s.top + segment size = gridT + (s.allotted + segment size)
    omega
  · show x.1 + x.2 ≤ s.top + segment size
    rcases List.mem_cons.mp hx with rfl | hx
    · exact Nat.add_le_add_left (Nat.le_of_lt hlt) _
    · exact Nat.le_trans (h.below x hx) (Nat.le_add_right _ _)
  · exact List.pairwise_cons.mpr ⟨fun x hx => .inr (h.below x hx), h.apart⟩
  · show PcOk _ (Function.update s.pc w .idle v)
    rcases eq_or_ne v w with rfl | hvw
    · rw [Function.update_self]
      trivial
    · rw [Function.update_of_ne hvw]
      refine (h.pcs v).mono (Nat.le_add_right _ _) fun ret hseen => .inr ?_
      rcases hseen with rfl | ⟨n, hn, hmem⟩
      · exact ⟨size, hok.1, List.mem_cons_self⟩
      · exact ⟨n, hn, List.mem_cons_of_mem _ hmem⟩

theorem Inv.step {gridT : ℕ} {s s' : State ω} (h : Inv gridT s) (hgrid : gridT + gridSz < 2 ^ 64)
    {a : Label ω} (hfits : Fits s a) (hundisturbed : Undisturbed s a)
    (hstep : step s a = some s') : Inv gridT s' ∧ s.top ≤ s'.top := by
  cases a with
  | alloc w size =>
    rw [Balloc.step] at hstep
    split at hstep <;> cases hstep
    exact ⟨h.load ⟨hfits, Nat.le_refl _, .inl rfl⟩, Nat.le_refl _⟩
  | move w =>
    rw [Balloc.step] at hstep
    have hok := h.pcs w
    cases hpc : s.pc w with
    | idle => simp [hpc] at hstep
    | load size ret =>
      rw [hpc] at hok
      simp only [hpc] at hstep
      cases hstep
      exact ⟨h.load ⟨hok.1, hok.2.1, Nat.le_refl _, hok.2.2⟩, Nat.le_refl _⟩
    | store size ret top =>
      simp only [Fits, Undisturbed, hpc] at hfits hundisturbed
      obtain ⟨rfl, rfl⟩ := hundisturbed
      simp only [hpc] at hstep
      cases hstep
      obtain ⟨hmod, hinv⟩ := h.store hgrid hpc hfits
      simp only [hmod]
      exact ⟨hinv, Nat.le_add_right _ _⟩

/-- A disturbed call returns a segment that has been handed out already. -/
theorem Inv.overlap {gridT : ℕ} {s s' : State ω} (h : Inv gridT s) {a : Label ω}
    (hdisturbed : ¬ Undisturbed s a) (hstep : Balloc.step s a = some s') :
    ¬ s'.segments.Pairwise Apart := by
  cases a with
  | alloc w size => exact absurd trivial hdisturbed
  | move w =>
    rw [Balloc.step] at hstep
    have hok := h.pcs w
    cases hpc : s.pc w with
    | idle => simp [hpc] at hstep
    | load size ret => exact absurd trivial (by simpa only [Undisturbed, hpc] using hdisturbed)
    | store size ret top =>
      simp only [Undisturbed, hpc] at hdisturbed
      rw [hpc] at hok
      obtain ⟨hsize, hret, htop, hseen⟩ := hok
      simp only [hpc] at hstep
      cases hstep
      rcases hseen with rfl | ⟨n, hn, hmem⟩
      · exact absurd ⟨by omega, rfl⟩ hdisturbed
      · intro hapart
        have hpair := (List.pairwise_cons.mp hapart).1 _ hmem
        simp only [Apart] at hpair
        omega

/-! ## Runs -/

/-- What the steps of a run have to meet. -/
def Ok (s : State ω) (a : Label ω) : Prop := Fits s a ∧ Undisturbed s a

instance (s : State ω) (a : Label ω) : Decidable (Ok s a) := inferInstanceAs (Decidable (_ ∧ _))

/-- **Undisturbed calls of `balloc_alloc` return disjoint segments, and `Top` never
moves backwards.**  The first call that is disturbed returns a segment that overlaps
one handed out before. -/
theorem segments_apart {gridT : ℕ} (hgrid : gridT + gridSz < 2 ^ 64) {s : State ω}
    (r : Run step Ok (init ω gridT) s) :
    s.segments.Pairwise Apart ∧
    (∀ s', Run step Ok s s' → s.top ≤ s'.top) ∧
    ∀ a s', step s a = some s' → Fits s a → ¬ Undisturbed s a →
      ¬ s'.segments.Pairwise Apart := by
  have hinv : ∀ x, Run Balloc.step Ok (init ω gridT) x → Inv gridT x := by
    intro x rx
    refine rx.invariant (inv_init gridT) ?_
    rintro y a z hy ⟨hfits, hundisturbed⟩ hstep
    exact (hy.step hgrid hfits hundisturbed hstep).1
  refine ⟨(hinv s r).apart, fun s' r' => ?_, fun a s' hstep _ hdisturbed =>
    (hinv s r).overlap hdisturbed hstep⟩
  refine r'.invariant_of (I := fun x => s.top ≤ x.top) (fun x rx => hinv x (r.trans rx))
    (Nat.le_refl _) ?_
  rintro x a y hx hle ⟨hfits, hundisturbed⟩ hstep
  exact Nat.le_trans hle (hx.step hgrid hfits hundisturbed hstep).2

/-- One worker after the other. -/
theorem segments_apart_example :
    ∃ s : State Bool, Run step Ok (init Bool 65536) s ∧
      s.segments = [(67584, 4096), (65536, 1)] ∧ s.segments.Pairwise Apart := by
  obtain ⟨s, r, hs⟩ : ∃ s : State Bool, Run step Ok (init Bool 65536) s ∧
      s.segments = [(67584, 4096), (65536, 1)] :=
    Run.exists_of_exec (l := [.alloc true 1, .move true, .move true,
      .alloc false 4096, .move false, .move false]) (by decide +kernel)
  exact ⟨s, r, hs, (segments_apart (by rw [gridSz]; omega) r).1⟩

/-- **Two workers get the same segment, and `Top` moves backwards.**  One worker is
between its loads and its store while the other allocates twice; its store takes back
the second advance. -/
theorem segment_handed_out_twice :
    ∃ s s' : State Bool, Run step Fits (init Bool 65536) s ∧ Run step Fits s s' ∧
      s'.top < s.top ∧ s'.segments = [(65536, 1), (67584, 1), (65536, 1)] ∧
      ¬ s'.segments.Pairwise Apart := by
  obtain ⟨s, r, s', hs', htop, hsegments⟩ : ∃ s : State Bool, Run step Fits (init Bool 65536) s ∧
      ∃ s' ∈ exec step Fits [.move true] s, s'.top < s.top ∧
        s'.segments = [(65536, 1), (67584, 1), (65536, 1)] :=
    Run.exists_of_exec (l := [.alloc true 1, .move true, .alloc false 1, .move false,
      .move false, .alloc false 1, .move false, .move false]) (by decide +kernel)
  exact ⟨s, s', r, .of_exec hs', htop, hsegments, by rw [hsegments]; decide⟩

end Balloc
end Partee
