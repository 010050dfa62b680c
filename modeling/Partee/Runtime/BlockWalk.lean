import Partee.Alloc.Trie
import Partee.Runtime.Argument
import Mathlib.Algebra.Group.Nat.Defs
import Mathlib.Logic.Function.Iterate
import Mathlib.Tactic.Common

/-!
# Which blocks an argument visits

`create_dependency` walks from the block of the first byte of an argument to the
block of its last byte.  Block indices are reduced modulo the number of blocks of
the grid, so the walk is right as long as the argument does not go around: no
multiple of the size of the grid, counted from `grid_t`, lies inside it.  Nothing
is promised about that by the callers: an address need not be in the grid at all.

`block_walk` says exactly when the walk visits the blocks of the bytes.
`walk_misses_blocks` is an argument that goes around: its walk visits no block.

The second part is about strided arguments.  `handle_argument` uses the argument
record as the cursor of its loop.  The walk is right for every record; whether the
record is handed back as it was depends on which of its two addresses is the
cursor.
-/

namespace Partee

/-! ## Offsets -/

/-- The offset of an address from `grid_t`, modulo the size of the grid. -/
def gridOffset (gridT address : BitVec 64) : ℕ := (address - gridT).toNat % gridSz

theorem gridOffset_lt (gridT address : BitVec 64) : gridOffset gridT address < gridSz :=
  Nat.mod_lt _ (by decide)

/-- The block of the `k`-th byte after `address`. -/
theorem getIndex_add (gridT address : BitVec 64) (k : ℕ) :
    getIndex gridT (address + BitVec.ofNat 64 k) =
      (gridOffset gridT address + k) % gridSz / blockSz := by
  have hmove : address + BitVec.ofNat 64 k - gridT = address - gridT + BitVec.ofNat 64 k := by
    rw [BitVec.sub_eq_add_neg, BitVec.sub_eq_add_neg, BitVec.add_assoc, BitVec.add_assoc,
      BitVec.add_comm (BitVec.ofNat 64 k)]
  rw [getIndex, hmove, BitVec.toNat_add, BitVec.toNat_ofNat, gridOffset, gridSz, blockSz]
  omega

theorem getIndex_eq (gridT address : BitVec 64) :
    getIndex gridT address = gridOffset gridT address / blockSz := by
  have h := getIndex_add gridT address 0
  rw [show BitVec.ofNat 64 0 = 0#64 from rfl, BitVec.add_zero, Nat.add_zero,
    Nat.mod_eq_of_lt (gridOffset_lt gridT address)] at h
  exact h

/-! ## The walk -/

/-- The range of `size` bytes at offset `off` does not go around, or it starts in the
first block, goes around and ends in the last. -/
def WithinGrid (off size : ℕ) : Prop :=
  off + size ≤ gridSz ∨ off < blockSz ∧ gridSz - blockSz ≤ (off + size - 1) % gridSz

instance (off size : ℕ) : Decidable (WithinGrid off size) :=
  inferInstanceAs (Decidable (_ ∨ _))

/-- Every block from the first to the last contains a byte of a range that does not
go around. -/
theorem exists_byte_of_le {off size j : ℕ} (hsize : 1 ≤ size) (hle : off + size ≤ gridSz)
    (hfirst : off / blockSz ≤ j) (hlast : j ≤ (off + size - 1) % gridSz / blockSz) :
    ∃ k < size, (off + k) % gridSz / blockSz = j := by
  rw [gridSz] at *
  rw [blockSz] at *
  rcases Nat.eq_or_lt_of_le hfirst with rfl | hlt
  · exact ⟨0, by omega, by omega⟩
  · exact ⟨j * 2048 - off, by omega, by omega⟩

/-- A range that goes around from the first block contains a byte of every block. -/
theorem exists_byte_of_lt {off size j : ℕ} (hoff : off < blockSz) (hgt : gridSz < off + size)
    (hj : j < gridSz / blockSz) : ∃ k < size, (off + k) % gridSz / blockSz = j := by
  rw [gridSz] at *
  rw [blockSz] at *
  rcases Nat.eq_zero_or_pos j with rfl | hpos
  · exact ⟨0, by omega, by omega⟩
  · exact ⟨j * 2048 - off, by omega, by omega⟩

/-- The blocks from the first byte to the last are the blocks of the bytes, exactly
if the range does not go around or the walk covers the whole grid. -/
theorem range_iff {off size : ℕ} (hsize : 1 ≤ size) (hoff : off < gridSz) :
    (∀ j, off / blockSz ≤ j ∧ j ≤ (off + size - 1) % gridSz / blockSz ↔
      ∃ k < size, (off + k) % gridSz / blockSz = j) ↔ WithinGrid off size := by
  constructor
  · intro h
    by_contra hout
    rw [WithinGrid, not_or] at hout
    obtain ⟨hgt, hends⟩ := hout
    -- the byte just before the next multiple, and the one at it
    have hlast := (h (gridSz / blockSz - 1)).mpr ⟨gridSz - 1 - off, by omega, by
      rw [gridSz] at *
      rw [blockSz]
      omega⟩
    have hfirst := (h 0).mpr ⟨gridSz - off, by omega, by
      rw [gridSz] at *
      rw [blockSz]
      omega⟩
    rw [gridSz, blockSz] at *
    omega
  · intro hin j
    constructor
    · rintro ⟨hfirst, hlast⟩
      rcases Nat.lt_or_ge gridSz (off + size) with hgt | hle
      · obtain ⟨hblock, -⟩ := hin.resolve_left (Nat.not_le.mpr hgt)
        refine exists_byte_of_lt hblock hgt (Nat.lt_of_le_of_lt hlast ?_)
        rw [gridSz, blockSz]
        omega
      · exact exists_byte_of_le hsize hle hfirst hlast
    · rintro ⟨k, hk, rfl⟩
      rcases hin with hle | ⟨hblock, hends⟩
      · rw [gridSz] at *
        rw [blockSz]
        omega
      · rw [gridSz, blockSz] at *
        omega

namespace Argument

/-- The address `create_dependency` starts from. -/
def base (a : Argument) : BitVec 64 := if a.isOut then a.addrOut else a.addrIn

/-- The blocks of the bytes of the argument. -/
def HasByteIn (gridT : BitVec 64) (a : Argument) (j : ℕ) : Prop :=
  ∃ k < a.size.toNat, getIndex gridT (a.base + BitVec.ofNat 64 k) = j

/-- Where the walk visits the blocks of the bytes. -/
def Within (gridT : BitVec 64) (a : Argument) : Prop :=
  WithinGrid (gridOffset gridT a.base) a.size.toNat

instance (gridT : BitVec 64) (a : Argument) : Decidable (a.Within gridT) :=
  inferInstanceAs (Decidable (WithinGrid _ _))

theorem mem_blockRange {gridT : BitVec 64} {a : Argument} (hsize : 1 ≤ a.size.toNat) {j : ℕ} :
    j ∈ blockRange gridT a ↔ gridOffset gridT a.base / blockSz ≤ j ∧
      j ≤ (gridOffset gridT a.base + a.size.toNat - 1) % gridSz / blockSz := by
  have hlast : a.base + a.size.zeroExtend 64 - 1 = a.base + BitVec.ofNat 64 (a.size.toNat - 1) := by
    have hlt := a.size.isLt
    refine BitVec.eq_of_toNat_eq ?_
    rw [BitVec.toNat_sub, BitVec.toNat_add, BitVec.toNat_add, BitVec.toNat_setWidth,
      BitVec.toNat_ofNat, show (1 : BitVec 64).toNat = 1 from rfl]
    omega
  rw [blockRange, ← base, hlast, getIndex_add, getIndex_eq, List.mem_range'_1,
    ← Nat.add_sub_assoc hsize]
  omega

end Argument

/-! ## The trie -/

/-- Every block index is an index of the trie. -/
theorem fits_trie {x : ℕ} (hx : x < gridSz / blockSz) :
    Trie.firstLevel x < 1 <<< Trie.upBits ∧ Trie.secondLevel x < 1 <<< Trie.downBits :=
  ⟨Trie.firstLevel_lt hx, Trie.secondLevel_lt x⟩

/-! ## The block walk -/

namespace Argument

/-- The two arguments have a byte in common. -/
def SharesByte (a b : Argument) : Prop :=
  ∃ k < a.size.toNat, ∃ l < b.size.toNat,
    a.base + BitVec.ofNat 64 k = b.base + BitVec.ofNat 64 l

theorem mem_blockRange_iff_hasByteIn {gridT : BitVec 64} {a : Argument}
    (hsize : 1 ≤ a.size.toNat) :
    (∀ j, j ∈ blockRange gridT a ↔ a.HasByteIn gridT j) ↔ a.Within gridT := by
  rw [Within, ← range_iff hsize (gridOffset_lt gridT a.base)]
  refine forall_congr' fun j => ?_
  rw [mem_blockRange hsize, HasByteIn]
  simp only [getIndex_add]

end Argument

/-- **The block walk.**  The blocks that `create_dependency` visits are the blocks of
the bytes of the argument, exactly if the argument does not go around the grid or
the walk covers the whole grid; then two arguments with a common byte visit a common
block.  Every index fits the trie in any case. -/
theorem block_walk (gridT : BitVec 64) (a : Argument) (hsize : 1 ≤ a.size.toNat) :
    ((∀ j, j ∈ blockRange gridT a ↔ a.HasByteIn gridT j) ↔ a.Within gridT) ∧
    (∀ j ∈ blockRange gridT a,
      Trie.firstLevel j < 1 <<< Trie.upBits ∧ Trie.secondLevel j < 1 <<< Trie.downBits) ∧
    ∀ b : Argument, 1 ≤ b.size.toNat → a.Within gridT → b.Within gridT → a.SharesByte b →
      ∃ j, j ∈ blockRange gridT a ∧ j ∈ blockRange gridT b := by
  refine ⟨Argument.mem_blockRange_iff_hasByteIn hsize, fun j hj => ?_, ?_⟩
  · rw [Argument.mem_blockRange hsize] at hj
    refine fits_trie (Nat.lt_of_le_of_lt hj.2 ?_)
    rw [gridSz, blockSz]
    omega
  · rintro b hsizeb ha hb ⟨k, hk, l, hl, hbyte⟩
    refine ⟨getIndex gridT (a.base + BitVec.ofNat 64 k), ?_, ?_⟩
    · exact ((Argument.mem_blockRange_iff_hasByteIn hsize).mpr ha _).mpr ⟨k, hk, rfl⟩
    · exact ((Argument.mem_blockRange_iff_hasByteIn hsizeb).mpr hb _).mpr ⟨l, hl, by rw [hbyte]⟩

/-- An argument of two blocks at the start of the grid. -/
theorem block_walk_example :
    ∃ a : Argument, a.Within 0x10000 ∧ blockRange 0x10000 a = [0, 1] ∧
      ∀ j, j ∈ blockRange 0x10000 a ↔ a.HasByteIn 0x10000 j := by
  have hin : Argument.Within 0x10000 ⟨0x10000, 0x10000, 2, 4096, 0, 0⟩ := by decide
  exact ⟨⟨0x10000, 0x10000, 2, 4096, 0, 0⟩, hin, by decide,
    (block_walk 0x10000 ⟨0x10000, 0x10000, 2, 4096, 0, 0⟩ (by decide)).1.mpr hin⟩

/-- **An argument that goes around visits no block.**  It has 4096 bytes, the first
half of them in the last block and the second half in the first, and the loop from
the block of its first byte down to the block of its last does nothing.  A task that
writes it and one that reads it have all their bytes in common and no block. -/
theorem walk_misses_blocks :
    ∃ (gridT : BitVec 64) (a b : Argument),
      1 ≤ a.size.toNat ∧ a.base.toNat + a.size.toNat ≤ 2 ^ 64 ∧
      a.isOut = true ∧ b.isOut = false ∧ a.base = b.base ∧ a.size = b.size ∧
      a.SharesByte b ∧ blockRange gridT a = [] ∧ blockRange gridT b = [] ∧
      a.HasByteIn gridT 0 ∧ a.HasByteIn gridT (gridSz / blockSz - 1) ∧
      ¬ ∀ j, j ∈ blockRange gridT a ↔ a.HasByteIn gridT j := by
  have hnil : blockRange 0x7f0000000010 ⟨0, 0x7f007ffff810, 2, 4096, 0, 0⟩ = [] := by decide
  have hbyte : Argument.HasByteIn 0x7f0000000010 ⟨0, 0x7f007ffff810, 2, 4096, 0, 0⟩ 0 :=
    ⟨2048, by decide, by decide⟩
  refine ⟨0x7f0000000010, ⟨0, 0x7f007ffff810, 2, 4096, 0, 0⟩, ⟨0x7f007ffff810, 0, 1, 4096, 0, 0⟩,
    by decide, by decide, by decide, by decide, by decide, by decide,
    ⟨0, by decide, 0, by decide, by decide⟩, hnil, by decide, hbyte,
    ⟨0, by decide, by decide⟩, fun h => ?_⟩
  have hmem := (h 0).mpr hbyte
  rw [hnil] at hmem
  exact absurd hmem List.not_mem_nil

/-! ## Strided arguments -/

/-- The blocks from the first to the last byte of a piece. -/
def walk (gridT base : BitVec 64) (size : BitVec 32) : List ℕ :=
  List.range' (getIndex gridT base)
    (getIndex gridT (base + size.zeroExtend 64 - 1) + 1 - getIndex gridT base)

theorem blockRange_eq_walk (gridT : BitVec 64) (a : Argument) :
    blockRange gridT a = walk gridT a.base a.size := rfl

/-- The loop visits the record, moved once, twice and so on, and leaves it moved `n`
times. -/
theorem strideLoop_eq (gridT : BitVec 64) (move : Argument → Argument) (n : ℕ) (a : Argument) :
    strideLoop gridT move n a =
      ((List.range n).map fun k => blockRange gridT (move^[k] a), move^[n] a) := by
  induction n generalizing a with
  | zero => rfl
  | succ n ih =>
    rw [strideLoop, ih, List.range_succ_eq_map, List.map_cons, List.map_map]
    rfl

theorem iterate_addrOut (a : Argument) (k : ℕ) :
    (fun a : Argument => { a with addrOut := a.addrOut + a.stride.zeroExtend 64 })^[k] a =
      { a with addrOut := a.addrOut + BitVec.ofNat 64 k * a.stride.zeroExtend 64 } := by
  induction k with
  | zero => simp
  | succ k ih =>
    rw [Function.iterate_succ_apply', ih, BitVec.ofNat_add, BitVec.add_mul, ← BitVec.add_assoc]
    simp

theorem iterate_addrIn (a : Argument) (k : ℕ) :
    (fun a : Argument => { a with addrIn := a.addrIn + a.stride.zeroExtend 64 })^[k] a =
      { a with addrIn := a.addrIn + BitVec.ofNat 64 k * a.stride.zeroExtend 64 } := by
  induction k with
  | zero => simp
  | succ k ih =>
    rw [Function.iterate_succ_apply', ih, BitVec.ofNat_add, BitVec.add_mul, ← BitVec.add_assoc]
    simp

/-- The pieces of a strided argument, in order. -/
def Argument.pieces (gridT : BitVec 64) (a : Argument) : List (List ℕ) :=
  (List.range a.elementNum.toNat).map fun k =>
    walk gridT (a.base + BitVec.ofNat 64 k * a.stride.zeroExtend 64) a.size

/-- For an OUT argument both paths of the loop save `addr_in`, but this one restores
`addr_out` from it. -/
theorem handleArgument_out {gridT : BitVec 64} {a : Argument} (hstride : a.isStride = true)
    (hout : a.isOut = true) :
    handleArgument gridT a = (a.pieces gridT, { a with addrOut := a.addrIn }) := by
  simp only [handleArgument, hstride, hout, strideLoop_eq, iterate_addrOut, Argument.pieces,
    blockRange_eq_walk]
  simp only [Argument.base, Argument.isOut] at hout ⊢
  simp [hout]

theorem handleArgument_in {gridT : BitVec 64} {a : Argument} (hstride : a.isStride = true)
    (hout : a.isOut = false) : handleArgument gridT a = (a.pieces gridT, a) := by
  simp only [handleArgument, hstride, hout, strideLoop_eq, iterate_addrIn, Argument.pieces,
    blockRange_eq_walk]
  simp only [Argument.base, Argument.isOut] at hout ⊢
  simp [hout]

/-- **Strided arguments.**  `handle_argument` always walks the `element_num` pieces in
order.  It hands the record back intact exactly if the argument is an IN argument
or its two addresses are the same. -/
theorem strided_argument (gridT : BitVec 64) (a : Argument) (hstride : a.isStride = true) :
    (handleArgument gridT a = (a.pieces gridT, a) ↔ a.isOut = false ∨ a.addrIn = a.addrOut) ∧
      (handleArgument gridT a).1 = a.pieces gridT := by
  cases hout : a.isOut with
  | false =>
    rw [handleArgument_in hstride hout]
    simp
  | true =>
    rw [handleArgument_out hstride hout]
    obtain ⟨addrIn, addrOut, type, size, stride, elementNum⟩ := a
    simp

/-- Two pieces of an IN argument, 4096 bytes apart. -/
theorem strided_argument_example :
    ∃ a : Argument, a.isStride = true ∧ a.isSafe = false ∧ a.pieces 0x10000 = [[0], [2]] ∧
      handleArgument 0x10000 a = (a.pieces 0x10000, a) :=
  ⟨⟨0x10000, 0, 5, 2048, 4096, 2⟩, by decide, by decide, by decide,
    (strided_argument 0x10000 ⟨0x10000, 0, 5, 2048, 4096, 2⟩ (by decide)).1.mpr
      (.inl (by decide))⟩

/-- **The pointer of an OUT argument is lost.**  An OUT argument of one piece at
0x10000 with no `addr_in` comes back without its `addr_out`. -/
theorem strided_out_loses_pointer :
    ∃ (gridT : BitVec 64) (a : Argument), a.isStride = true ∧ a.isSafe = false ∧
      a.addrOut = 0x10000 ∧ (handleArgument gridT a).2.addrOut = 0 ∧
      ¬ (handleArgument gridT a).2 = a :=
  ⟨0x10000, ⟨0, 0x10000, 6, 2048, 2048, 1⟩, by decide, by decide, by decide, by decide, by decide⟩

end Partee
