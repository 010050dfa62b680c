import Mathlib.Data.List.Basic
import Mathlib.Data.Nat.Notation

/-!
# Task arguments and the blocks they visit

The record of one argument (`partee.h`), the block index of an address
(`GET_INDEX` of `deps.c`), the range of blocks one call of `create_dependency`
walks, and the loop of `handle_argument` that calls it once for a plain argument
and once per element for a strided one.

Which blocks are visited, and in which order, depends on the argument record
alone; what happens at a block is the business of `Runtime.Dependencies`.
-/

namespace Partee

/-- `struct _tpc_task_argument`. -/
structure Argument where
  addrIn : BitVec 64
  addrOut : BitVec 64
  type : BitVec 32
  size : BitVec 32
  stride : BitVec 32
  elementNum : BitVec 32
  deriving DecidableEq, Repr

/-- `SCOOP_IS_OUTARG`, which is also asked of the type of a metadata element. -/
def isOutType (type : BitVec 32) : Bool := type &&& 0x2 != 0

namespace Argument

/-- `SCOOP_IS_OUTARG`. -/
def isOut (a : Argument) : Bool := isOutType a.type

/-- `SCOOP_IS_STRIDEARG`. -/
def isStride (a : Argument) : Bool := a.type &&& 0x4 != 0

/-- `SCOOP_IS_SAFEARG`. -/
def isSafe (a : Argument) : Bool := a.type &&& 0x8 != 0

/-- A plain argument that covers exactly the `j`-th block of a grid at `g`. -/
def ofBlock (g : BitVec 64) (type : BitVec 32) (j : ℕ) : Argument where
  addrIn := g + BitVec.ofNat 64 (2048 * j)
  addrOut := g + BitVec.ofNat 64 (2048 * j)
  type := type
  size := 2048
  stride := 0
  elementNum := 0

end Argument

/-- `BLOCK_SZ` of `config.h`. -/
def blockSz : ℕ := 2048

/-- `GRID_SZ` of `config.h`. -/
def gridSz : ℕ := 1024 * 1024 * 1024

/-- `GET_INDEX`: the block of an address, counted from `grid_t` and reduced
modulo the number of blocks of the grid. -/
def getIndex (gridT address : BitVec 64) : ℕ :=
  ((address - gridT).toNat / blockSz) % (gridSz / blockSz)

/-- The blocks one call of `create_dependency` walks, from `meta_index_start` to
`meta_index_end`. -/
def blockRange (gridT : BitVec 64) (a : Argument) : List ℕ :=
  let base := if a.isOut then a.addrOut else a.addrIn
  let metaIndexStart := getIndex gridT base
  let metaIndexEnd := getIndex gridT (base + a.size.zeroExtend 64 - 1)
  List.range' metaIndexStart (metaIndexEnd + 1 - metaIndexStart)

/-- The loop over the elements of a strided argument.  The argument record is
the cursor of the loop: `move` advances it, and the record is returned as the
loop leaves it. -/
def strideLoop (gridT : BitVec 64) (move : Argument → Argument) :
    ℕ → Argument → List (List ℕ) × Argument
  | 0, a => ([], a)
  | n + 1, a =>
      let rest := strideLoop gridT move n (move a)
      (blockRange gridT a :: rest.1, rest.2)

/-- `handle_argument` for an argument that is not safe: the block ranges of its
calls of `create_dependency`, and the argument record it leaves behind. -/
def handleArgument (gridT : BitVec 64) (a : Argument) : List (List ℕ) × Argument :=
  if !a.isStride then
    ([blockRange gridT a], a)
  else if a.isOut then
    let tmp := a.addrIn
    let r := strideLoop gridT
      (fun a => { a with addrOut := a.addrOut + a.stride.zeroExtend 64 }) a.elementNum.toNat a
    (r.1, { r.2 with addrOut := tmp })
  else
    let tmp := a.addrIn
    let r := strideLoop gridT
      (fun a => { a with addrIn := a.addrIn + a.stride.zeroExtend 64 }) a.elementNum.toNat a
    (r.1, { r.2 with addrIn := tmp })

namespace Argument

/-- The blocks that `handle_argument` visits, in order; none if the argument is
safe. -/
def blocks (gridT : BitVec 64) (a : Argument) : List ℕ :=
  if a.isSafe then [] else (handleArgument gridT a).1.flatten

end Argument

end Partee
