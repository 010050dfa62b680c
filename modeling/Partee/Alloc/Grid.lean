import Partee.Alloc.Balloc
import Partee.Runtime.BlockWalk
import Mathlib.Data.Set.Lattice
import Mathlib.Order.CompletePartialOrder

/-!
# Histories of `tpc_malloc`

The calls of one thread, from `balloc_init(GRID_SZ)` on.  `balloc_alloc` advances
`Top` by whole blocks and never looks where the grid ends, so a history is right as
long as each request fits in what the requests before it have left of the grid.  A
request of a multiple of `BLOCK_SZ` takes one block more than it needs.

* `call_run`: a call of `tpc_malloc` is the three accesses of `Top` that
  `Alloc.Balloc` interleaves, made without interruption.
* `segments_in_grid_iff`: the segments lie in the grid, begin at blocks and have no
  block in common, exactly if each request fits.
* `segment_shares_block`: a history that runs over the end of the grid; the block
  index wraps onto the first segment.
-/

namespace Partee
namespace Balloc

open Transition

/-- `balloc_alloc`: the result and the new `Top`. -/
def ballocAlloc (top size : ℕ) : ℕ × ℕ := (top, (top + segment size) % 2 ^ 64)

/-- `tpc_malloc`; `none` when an `assert` fails, in a build that has them. -/
def tpcMalloc (asserts : Bool) (top size : ℕ) : Option (ℕ × ℕ) :=
  if asserts ∧ size = 0 then none
  else
    let new := ballocAlloc top size
    if asserts ∧ new.1 = 0 then none else some new

/-- The segments `(result, size)` that the calls with these sizes return, one call
after the other. -/
def tpcMallocs (asserts : Bool) : ℕ → List ℕ → List (ℕ × ℕ)
  | _, [] => []
  | top, size :: sizes =>
      match tpcMalloc asserts top size with
      -- a failed assert is the end of the program
      | none => []
      | some (ret, top) => (ret, size) :: tpcMallocs asserts top sizes

/-! ## A call and the accesses of `Top` -/

/-- A call is the load of the result, and the load and the store of `Top += segment`. -/
theorem call_run {ω : Type*} [DecidableEq ω] {s : State ω} {w : ω} (hidle : s.pc w = .idle)
    {size : ℕ} : exec step always [.alloc w size, .move w, .move w] s = some { s with
        top := (ballocAlloc s.top size).2
        segments := ((ballocAlloc s.top size).1, size) :: s.segments
        allotted := s.allotted + segment size } := by
  simp only [exec_cons, step, hidle, Function.update_self, Option.bind_some, Function.update_idem]
  rw [exec, ← hidle, Function.update_eq_self]
  rfl

/-! ## The statement -/

/-- A segment that lies in the grid and begins at a block. -/
def InGrid (gridT : ℕ) (x : ℕ × ℕ) : Prop :=
  (∃ k, x.1 = gridT + k * blockSz) ∧ x.1 + x.2 ≤ gridT + gridSz

/-- The block indices of the bytes of a segment. -/
def blocks (gridT : ℕ) (x : ℕ × ℕ) : Set ℕ :=
  {j | ∃ k < x.2, getIndex (BitVec.ofNat 64 gridT) (BitVec.ofNat 64 (x.1 + k)) = j}

/-- The segments lie in the grid, begin at blocks, and no two have a block in common. -/
def Separated (gridT : ℕ) (segments : List (ℕ × ℕ)) : Prop :=
  (∀ x ∈ segments, InGrid gridT x) ∧
  segments.Pairwise fun x y => Disjoint (blocks gridT x) (blocks gridT y)

/-- Each request fits in what the requests before it have left of the grid; `off` is the
offset of `Top`.  When `Top` has come around to `NULL`, `assert(new)` stops the call. -/
def FitsGrid (asserts : Bool) (gridT : ℕ) : ℕ → List ℕ → Prop
  | _, [] => True
  | off, size :: sizes =>
      asserts ∧ gridT + off = 2 ^ 64 ∨
      off + size ≤ gridSz ∧
        FitsGrid asserts gridT (off + (size + blockSz - size % blockSz)) sizes

/-! ## One call -/

variable {asserts : Bool} {gridT off size : ℕ}

/-- What a call returns as long as `Top` is not past the block behind the grid. -/
theorem tpcMalloc_eq (h0 : 0 < gridT) (hgrid : gridT + gridSz < 2 ^ 64) (hsize : 0 < size)
    (hoff : off ≤ gridSz + blockSz) :
    tpcMalloc asserts ((gridT + off) % 2 ^ 64) size =
      if asserts ∧ gridT + off = 2 ^ 64 then none
      else some ((gridT + off) % 2 ^ 64, (gridT + off + segment size) % 2 ^ 64) := by
  rw [gridSz] at hgrid hoff
  rw [blockSz] at hoff
  have hnull : (gridT + off) % 2 ^ 64 = 0 ↔ gridT + off = 2 ^ 64 := by omega
  rw [tpcMalloc, if_neg (fun h => Nat.ne_of_gt hsize h.2)]
  simp only [ballocAlloc, hnull, Nat.mod_add_mod]

/-- The advance of a request that fits does not wrap, and covers the request. -/
theorem advance_of_fits (hfits : off + size ≤ gridSz) (hoff : off % blockSz = 0) :
    segment size = size + blockSz - size % blockSz ∧
      off + size < off + (size + blockSz - size % blockSz) ∧
      off + (size + blockSz - size % blockSz) ≤ gridSz + blockSz ∧
      (off + (size + blockSz - size % blockSz)) % blockSz = 0 := by
  rw [gridSz] at hfits
  rw [blockSz] at hoff
  rw [segment, blockSz, gridSz]
  omega

/-- A result of `Top` is in the grid exactly if the request fits behind it. -/
theorem inGrid_top_iff (hgrid : gridT + gridSz < 2 ^ 64) (hsize : 0 < size)
    (hoff : off ≤ gridSz + blockSz) (hblock : off % blockSz = 0) :
    InGrid gridT ((gridT + off) % 2 ^ 64, size) ↔ off + size ≤ gridSz := by
  rw [InGrid]
  constructor
  · rintro ⟨⟨k, hk⟩, hend⟩
    show off + size ≤ gridSz
    have hle : gridT ≤ (gridT + off) % 2 ^ 64 := Nat.le_trans (Nat.le_add_right _ _) hk.ge
    have hend' : (gridT + off) % 2 ^ 64 + size ≤ gridT + gridSz := hend
    rw [gridSz] at *
    rw [blockSz] at hoff
    omega
  · intro hfits
    have hlt : gridT + off < 2 ^ 64 := by omega
    rw [Nat.mod_eq_of_lt hlt]
    refine ⟨⟨off / blockSz, ?_⟩, ?_⟩
    · show gridT + off = gridT + off / blockSz * blockSz
      rw [Nat.div_mul_cancel (Nat.dvd_of_mod_eq_zero hblock)]
    · show gridT + off + size ≤ gridT + gridSz
      omega

/-! ## A history -/

/-- The history after one more call. -/
theorem tpcMallocs_cons (h0 : 0 < gridT) (hgrid : gridT + gridSz < 2 ^ 64) (hsize : 0 < size)
    (hoff : off ≤ gridSz + blockSz) (sizes : List ℕ) :
    tpcMallocs asserts ((gridT + off) % 2 ^ 64) (size :: sizes) =
      if asserts ∧ gridT + off = 2 ^ 64 then []
      else ((gridT + off) % 2 ^ 64, size) ::
        tpcMallocs asserts ((gridT + off + segment size) % 2 ^ 64) sizes := by
  rw [tpcMallocs, tpcMalloc_eq h0 hgrid hsize hoff]
  split_ifs <;> rfl

/-- The segments of a history are in the grid exactly if each request fits. -/
theorem forall_inGrid_iff (h0 : 0 < gridT) (hgrid : gridT + gridSz < 2 ^ 64) (sizes : List ℕ)
    (hsizes : ∀ size ∈ sizes, 0 < size) (hoff : off ≤ gridSz + blockSz)
    (hblock : off % blockSz = 0) :
    (∀ x ∈ tpcMallocs asserts ((gridT + off) % 2 ^ 64) sizes, InGrid gridT x) ↔
      FitsGrid asserts gridT off sizes := by
  induction sizes generalizing off with
  | nil => exact ⟨fun _ => trivial, fun _ x hx => absurd hx List.not_mem_nil⟩
  | cons size sizes ih =>
    have hsize := hsizes size List.mem_cons_self
    rw [tpcMallocs_cons h0 hgrid hsize hoff, FitsGrid]
    split_ifs with hstop
    · exact ⟨fun _ => .inl hstop, fun _ x hx => absurd hx List.not_mem_nil⟩
    · rw [List.forall_mem_cons, inGrid_top_iff hgrid hsize hoff hblock, or_iff_right hstop]
      refine and_congr_right fun hfits => ?_
      obtain ⟨hsegment, -, hle, hnext⟩ := advance_of_fits hfits hblock
      rw [hsegment, Nat.add_assoc]
      exact ih (fun n hn => hsizes n (List.mem_cons_of_mem _ hn)) hle hnext

/-- In a history whose requests fit, no segment begins before `Top` was. -/
theorem le_of_mem_tpcMallocs (h0 : 0 < gridT) (hgrid : gridT + gridSz < 2 ^ 64) (sizes : List ℕ)
    (hsizes : ∀ size ∈ sizes, 0 < size) (hoff : off ≤ gridSz + blockSz)
    (hblock : off % blockSz = 0) (hfits : FitsGrid asserts gridT off sizes) :
    ∀ x ∈ tpcMallocs asserts ((gridT + off) % 2 ^ 64) sizes, gridT + off ≤ x.1 := by
  induction sizes generalizing off with
  | nil => exact fun x hx => absurd hx List.not_mem_nil
  | cons size sizes ih =>
    have hsize := hsizes size List.mem_cons_self
    rw [tpcMallocs_cons h0 hgrid hsize hoff]
    split_ifs with hstop
    · exact fun x hx => absurd hx List.not_mem_nil
    · obtain ⟨hfit, hrest⟩ := hfits.resolve_left hstop
      obtain ⟨hsegment, hlt, hle, hnext⟩ := advance_of_fits hfit hblock
      rw [List.forall_mem_cons]
      constructor
      · show gridT + off ≤ (gridT + off) % 2 ^ 64
        rw [Nat.mod_eq_of_lt (by omega)]
      · intro x hx
        rw [hsegment, Nat.add_assoc] at hx
        have h := ih (fun n hn => hsizes n (List.mem_cons_of_mem _ hn)) hle hnext hrest x hx
        omega

/-! ## Blocks -/

/-- The blocks of a segment in the grid, counted from its first byte. -/
theorem mem_blocks_iff (hfits : off + size ≤ gridSz) (j : ℕ) :
    j ∈ blocks gridT (gridT + off, size) ↔ ∃ k < size, (off + k) / blockSz = j := by
  refine exists_congr fun k => and_congr_right fun hk => ?_
  have haddr : BitVec.ofNat 64 (gridT + off + k) =
      BitVec.ofNat 64 gridT + BitVec.ofNat 64 (off + k) := by
    rw [Nat.add_assoc, BitVec.ofNat_add]
  have hself : gridOffset (BitVec.ofNat 64 gridT) (BitVec.ofNat 64 gridT) = 0 := by
    rw [gridOffset, BitVec.sub_self]
    rfl
  show getIndex _ (BitVec.ofNat 64 (gridT + off + k)) = j ↔ _
  rw [haddr, getIndex_add, hself, Nat.zero_add, Nat.mod_eq_of_lt (by omega)]

/-- Segments with a block boundary between them have no block in common. -/
theorem disjoint_blocks {o n o' n' : ℕ} (hfits : o + n ≤ gridSz)
    (hfits' : o' + n' ≤ gridSz) (hblock : o' % blockSz = 0)
    (hlt : o + n ≤ o') :
    Disjoint (blocks gridT (gridT + o, n)) (blocks gridT (gridT + o', n')) := by
  rw [Set.disjoint_left]
  intro j hj hj'
  obtain ⟨k, hk, rfl⟩ := (mem_blocks_iff hfits j).mp hj
  obtain ⟨k', hk', heq⟩ := (mem_blocks_iff hfits' _).mp hj'
  rw [blockSz] at *
  omega

/-- The segments of a history whose requests fit have no block in common. -/
theorem pairwise_of_fits (h0 : 0 < gridT) (hgrid : gridT + gridSz < 2 ^ 64) (sizes : List ℕ)
    (hsizes : ∀ size ∈ sizes, 0 < size) (hoff : off ≤ gridSz + blockSz)
    (hblock : off % blockSz = 0) (hfits : FitsGrid asserts gridT off sizes) :
    (tpcMallocs asserts ((gridT + off) % 2 ^ 64) sizes).Pairwise
      fun x y => Disjoint (blocks gridT x) (blocks gridT y) := by
  induction sizes generalizing off with
  | nil => exact .nil
  | cons size sizes ih =>
    have hsize := hsizes size List.mem_cons_self
    rw [tpcMallocs_cons h0 hgrid hsize hoff]
    split_ifs with hstop
    · exact .nil
    · obtain ⟨hfit, hrest⟩ := hfits.resolve_left hstop
      obtain ⟨hsegment, hlt, hle, hnext⟩ := advance_of_fits hfit hblock
      have hsizes' : ∀ n ∈ sizes, 0 < n := fun n hn => hsizes n (List.mem_cons_of_mem _ hn)
      rw [hsegment, Nat.add_assoc, Nat.mod_eq_of_lt (by omega : gridT + off < 2 ^ 64)]
      refine List.pairwise_cons.mpr ⟨fun x hx => ?_, ih hsizes' hle hnext hrest⟩
      -- a later segment begins behind the whole advance
      obtain ⟨⟨k, hk⟩, hend⟩ :=
        (forall_inGrid_iff h0 hgrid sizes hsizes' hle hnext).mpr hrest x hx
      have hbehind := le_of_mem_tpcMallocs h0 hgrid sizes hsizes' hle hnext hrest x hx
      rw [show x = (gridT + k * blockSz, x.2) from Prod.ext hk rfl]
      exact disjoint_blocks hfit (by omega) (Nat.mul_mod_left _ _) (by omega)

/-- **Grid allocations stay in the grid and share no block, exactly if they fit.**  Each
request has to fit in what the requests before it have left, where a request of a
multiple of `BLOCK_SZ` has taken a block more than its size. -/
theorem segments_in_grid_iff (asserts : Bool) {gridT : ℕ} (h0 : 0 < gridT)
    (hgrid : gridT + gridSz < 2 ^ 64) (sizes : List ℕ) (hsizes : ∀ size ∈ sizes, 0 < size) :
    Separated gridT (tpcMallocs asserts gridT sizes) ↔ FitsGrid asserts gridT 0 sizes := by
  have hoff : 0 ≤ gridSz + blockSz := Nat.zero_le _
  have hblock : 0 % blockSz = 0 := Nat.zero_mod _
  have htop : gridT = (gridT + 0) % 2 ^ 64 := by omega
  have hin : _ ↔ FitsGrid asserts gridT 0 sizes :=
    forall_inGrid_iff h0 hgrid sizes hsizes hoff hblock
  rw [← htop] at hin
  constructor
  · intro h
    exact hin.mp h.1
  · intro h
    have hpairs := pairwise_of_fits h0 hgrid sizes hsizes hoff hblock h
    rw [← htop] at hpairs
    exact ⟨hin.mpr h, hpairs⟩

/-- A request of one byte, and one for the rest of the grid. -/
theorem segments_in_grid_example :
    Separated 65536 (tpcMallocs true 65536 [1, gridSz - blockSz]) :=
  (segments_in_grid_iff true (by decide) (by decide) _ (by decide)).mpr
    (.inr ⟨by decide, .inr ⟨by decide, trivial⟩⟩)

/-- **A request for the whole grid leaves `Top` behind it.**  The next segment lies
outside the grid, and its block is a block of the first. -/
theorem segment_shares_block :
    tpcMallocs true 65536 [gridSz, 1] = [(65536, gridSz), (65536 + gridSz + blockSz, 1)] ∧
      ¬ InGrid 65536 (65536 + gridSz + blockSz, 1) ∧
      1 ∈ blocks 65536 (65536, gridSz) ∧
      1 ∈ blocks 65536 (65536 + gridSz + blockSz, 1) ∧
      ¬ Separated 65536 (tpcMallocs true 65536 [gridSz, 1]) := by
  have hrun : tpcMallocs true 65536 [gridSz, 1] =
      [(65536, gridSz), (65536 + gridSz + blockSz, 1)] := by decide
  have hout : ¬ InGrid 65536 (65536 + gridSz + blockSz, 1) := fun h => absurd h.2 (by decide)
  refine ⟨hrun, hout, ⟨blockSz, by decide, by decide⟩, ⟨0, by decide, by decide⟩, fun h => ?_⟩
  rw [hrun] at h
  exact hout (h.1 _ (List.mem_cons_of_mem _ List.mem_cons_self))

end Balloc
end Partee
