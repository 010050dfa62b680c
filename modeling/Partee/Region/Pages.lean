import Partee.Transition.Run
import Partee.Region.RegionMap
import Partee.Memory.Lists
import Mathlib.Algebra.Group.Int.Defs

/-!
# The page allocator of `pages.c`

Sixteen lists of free pages, linked through the headers of the pages, with a counter
each.  A request takes pages from a list that the random `list_id` picks; a list that
is too short is first given the pages of a fresh block from `malloc`, in the order of
their addresses, so that its head becomes the last page of the block.

The functions are those of a build with `NMEMDEBUG` and `NDEBUG`, as the makefile has
it: regions are not marked here, and the `assert`s are gone.  One caller at a time, so a
lock is always free when it is tried.  A pointer to a page is its page number.

* `Memory`: what the functions read and write.
* `Label`, `step`: a call, with the list that is picked and what `malloc` answers.
* `Legal`: what the callers and `malloc` promise.

`blocks`, `pagesOut` and `runsOut` are kept for the statements; no function reads them.
-/

namespace Partee
namespace Region
namespace Pages

open Transition Memory

/-- `K`. -/
def k : ℕ := 4

/-- The header of a page, `struct page`. -/
structure Page where
  listId : ℕ
  next : Option ℕ
  pagecount : ℕ
  free : Bool

/-- `struct list_pages`. -/
structure ListPages where
  pages : Option ℕ
  pageCount : ℕ

/-- What the page allocator works on. -/
structure Store where
  totalPageCount : ℕ
  /-- the header of each page -/
  page : ℕ → Page
  singlePages : ℕ → ListPages

/-- An answer of `malloc`: the address of the block, and what is in its page headers. -/
structure Malloc where
  mem : ℕ
  page : ℕ → Page

/-- A block of `malloc`, and the pages that `region_get_mem` makes of it. -/
structure Block where
  mem : ℕ
  bytes : ℕ
  first : ℕ
  count : ℕ

namespace Store

/-- `PAGE_GROUP_SIZE`. -/
def pageGroupSize (m : Store) : ℕ := 1 + m.totalPageCount / 2 ^ 7

/-- A `size_t` passed as an `int`. -/
def toInt (x : ℕ) : ℤ := Int.bmod x (2 ^ 32)

/-- An `int` as a number of 64 bits without sign. -/
def toUnsigned (n : ℤ) : ℕ := (n % 2 ^ 64).toNat

/-- Writes to the header of a page. -/
def modify (m : Store) (p : ℕ) (f : Page → Page) : Store :=
  { m with page := Function.update m.page p (f (m.page p)) }

/-- Writes to a list and its counter. -/
def modifyList (m : Store) (l : ℕ) (f : ListPages → ListPages) : Store :=
  { m with singlePages := Function.update m.singlePages l (f (m.singlePages l)) }

/-- `request_bytes` of `region_get_mem`, as it is passed to `malloc`. -/
def requestBytes (m : Store) (s : ℕ) : ℕ :=
  let minimumMemRequest := m.pageGroupSize * k * rPageSize % 2 ^ 64
  if (s + k * rPageSize) % 2 ^ 64 < minimumMemRequest then minimumMemRequest else s

/-- `PALIGN(mem, RPAGESIZE)`. -/
def palign (mem : ℕ) : ℕ := (mem + (rPageSize - 1)) / rPageSize * rPageSize

/-- The block that `region_get_mem(s)` gets when `malloc` puts it at `mem`. -/
def block (m : Store) (s mem : ℕ) : Block :=
  let newp := palign mem
  let requestBytes := m.requestBytes s
  { mem := mem
    bytes := (requestBytes + rPageSize) % 2 ^ 64
    first := newp / rPageSize
    -- Maybe we were lucky!
    count := (if mem = newp then requestBytes + rPageSize else requestBytes) / rPageSize }

/-- `region_get_mem`. -/
def regionGetMem (m : Store) (a : Malloc) (s : ℕ) : ℕ × Store :=
  let b := m.block s a.mem
  let fresh : Store :=
    { m with page := fun p => if b.first ≤ p ∧ p < b.first + b.count then a.page p else m.page p }
  (b.first,
    { fresh.modify b.first fun h => { h with pagecount := b.count % 2 ^ 63, free := true } with
      totalPageCount := (m.totalPageCount + b.count) % 2 ^ 64 })

/-- `alloc_split`, when `list_id` is `l`. -/
def allocSplit (m : Store) (split : ℕ) (n : ℤ) (next : Option ℕ) (l : ℕ) : ℕ × Store :=
  let n := toUnsigned n
  let r :=
    if n < (m.page split).pagecount then
      -- Keep first part of block
      let m := m.modify split fun h => { h with pagecount := h.pagecount - n }
      -- Return latter part of block
      (split + (m.page split).pagecount, m)
    else (split, m)
  (r.1, r.2.modify r.1 fun _ =>
    { next := next, pagecount := n % 2 ^ 63, free := false, listId := l })

/-- The bytes that `alloc_new` asks for. -/
def allocBytes (n : ℤ) : ℕ := toUnsigned n * rPageSize % 2 ^ 64

/-- `alloc_new`. -/
def allocNew (m : Store) (a : Malloc) (n : ℤ) (next : Option ℕ) (l : ℕ) : ℕ × Store :=
  let newp := m.regionGetMem a (allocBytes n)
  let m := newp.2.modify newp.1 fun h => { h with listId := l }
  m.allocSplit newp.1 n next l

/-- A page in front of a list. -/
def push (m : Store) (l p : ℕ) : Store :=
  (m.modify p fun h => { h with next := (m.singlePages l).pages }).modifyList l
    fun x => { x with pages := some p }

/-- The loop of `add_single_pages`, for `n` pages from `base` on. -/
def addLoop (index : ℕ) : ℕ → ℕ → Store → Store
  | 0, _, m => m
  | n + 1, base, m =>
      addLoop index n (base + 1) ((m.modify base fun h => { h with free := false }).push index base)

/-- An addition to the counter of a list. -/
def count (m : Store) (l n : ℕ) : Store :=
  m.modifyList l fun x => { x with pageCount := (x.pageCount + n) % 2 ^ 32 }

/-- `add_single_pages`; `none` when the loop runs out of the address space. -/
def addSinglePages (m : Store) (base : ℕ) : Option Store :=
  let n := (m.page base).pagecount
  let index := (m.page base).listId
  -- `if (--n == 0) break` stands at the end of the loop
  let times := if n = 0 then 2 ^ 64 else n
  if base + times ≤ 2 ^ 50 then some (addLoop index times base (m.count index n)) else none

/-- The list `l` is given the pages of a fresh block if it is `short`. -/
def refill (m : Store) (short : Bool) (a : Malloc) (n : ℤ) (l : ℕ) : Option Store :=
  if short then
    let p := m.allocNew a n none l
    p.2.addSinglePages p.1
  else some m

/-- The page at the head of a list is taken off it, and `n` off its counter; `none` when
the head is `NULL`. -/
def take (m : Store) (l n : ℕ) (next : Option ℕ) : Option (ℕ × Store) :=
  match (m.singlePages l).pages with
  | none => none
  | some p =>
      some (p, (m.modify p fun h => { h with next := next }).modifyList l fun x =>
        { pages := (m.page p).next, pageCount := (x.pageCount + 2 ^ 32 - n) % 2 ^ 32 })

/-- The test of `alloc_single_page`, and the pages it asks `alloc_new` for. -/
def shortSingle (m : Store) (l : ℕ) : Bool × ℤ :=
  ((m.singlePages l).pageCount = 0, toInt m.pageGroupSize)

/-- The test of `alloc_pages`, and the pages it asks `alloc_new` for. -/
def shortPages (m : Store) (n l : ℕ) : Bool × ℤ :=
  (n > (m.singlePages l).pageCount, toInt (n + m.pageGroupSize))

/-- `alloc_single_page`. -/
def allocSinglePage (m : Store) (a : Malloc) (l : ℕ) (next : Option ℕ) : Option (ℕ × Store) :=
  (m.refill (m.shortSingle l).1 a (m.shortSingle l).2 l).bind fun m => m.take l 1 next

/-- `alloc_pages`. -/
def allocPages (m : Store) (a : Malloc) (n l : ℕ) (next : Option ℕ) : Option (ℕ × Store) :=
  (m.refill (m.shortPages n l).1 a (m.shortPages n l).2 l).bind fun m => m.take l n next

/-- `free_single_page`. -/
def freeSinglePage (m : Store) (p l : ℕ) : Store := (m.push l p).count l 1

/-- `free_pages`. -/
def freePages (m : Store) (p l : ℕ) : Store :=
  (m.push l p).count l ((m.push l p).page p).pagecount

end Store

/-! ## Calls -/

/-- The allocator and its callers. -/
structure State where
  mem : Store
  /-- the blocks that `region_get_mem` has got -/
  blocks : List Block
  /-- the pages handed out by `alloc_single_page` and not freed since -/
  pagesOut : List ℕ
  /-- the runs handed out by `alloc_pages` and not freed since, with their lengths -/
  runsOut : List (ℕ × ℕ)

/-- At the start no page has been got; what is in memory is arbitrary. -/
def init (totalPageCount : ℕ) (page : ℕ → Page) : State where
  mem := { totalPageCount := totalPageCount, page := page, singlePages := fun _ => ⟨none, 0⟩ }
  blocks := []
  pagesOut := []
  runsOut := []

/-- Page headers in which nothing has been written, with this `pagecount`. -/
def unwritten (pagecount : ℕ) (_ : ℕ) : Page where
  listId := 0
  next := none
  pagecount := pagecount
  free := false

/-- A call, with the list it picks. -/
inductive Label where
  | allocSinglePage (l : ℕ) (next : Option ℕ) (a : Malloc)
  | allocPages (n l : ℕ) (next : Option ℕ) (a : Malloc)
  | freeSinglePage (p l : ℕ)
  | freePages (p l : ℕ)

/-- The block that `malloc` is asked for, if the list is short. -/
def Store.asked (m : Store) (short : Bool × ℤ) (a : Malloc) : List Block :=
  if short.1 then [m.block (Store.allocBytes short.2) a.mem] else []

/-- One call; `none` when it does not return. -/
def step (s : State) : Label → Option State
  | .allocSinglePage l next a => (s.mem.allocSinglePage a l next).map fun r => { s with
      mem := r.2
      blocks := s.mem.asked (s.mem.shortSingle l) a ++ s.blocks
      pagesOut := r.1 :: s.pagesOut }
  | .allocPages n l next a => (s.mem.allocPages a n l next).map fun r => { s with
      mem := r.2
      blocks := s.mem.asked (s.mem.shortPages n l) a ++ s.blocks
      runsOut := (r.1, n) :: s.runsOut }
  | .freeSinglePage p l => some { s with
      mem := s.mem.freeSinglePage p l
      pagesOut := s.pagesOut.erase p }
  | .freePages p l => some { s with
      mem := s.mem.freePages p l
      runsOut := s.runsOut.filter fun r => r.1 ≠ p }

/-- `malloc` hands out memory that it has not handed out before. -/
def Fresh (blocks : List Block) (b : Block) : Prop :=
  0 < b.mem ∧ b.mem + b.bytes ≤ 2 ^ 64 ∧
    ∀ c ∈ blocks, b.mem + b.bytes ≤ c.mem ∨ c.mem + c.bytes ≤ b.mem

/-- At least one page is asked for, and only what has been handed out is freed. -/
def Legal (s : State) : Label → Prop
  | .allocSinglePage l _ a => ∀ b ∈ s.mem.asked (s.mem.shortSingle l) a, Fresh s.blocks b
  | .allocPages n l _ a =>
      1 ≤ n ∧ n < 2 ^ 31 ∧ ∀ b ∈ s.mem.asked (s.mem.shortPages n l) a, Fresh s.blocks b
  | .freeSinglePage p _ => p ∈ s.pagesOut
  | .freePages p _ => p ∈ s.runsOut.map Prod.fst

instance (blocks : List Block) (b : Block) : Decidable (Fresh blocks b) :=
  inferInstanceAs (Decidable (_ ∧ _))

instance (s : State) (label : Label) : Decidable (Legal s label) :=
  match label with
  | .allocSinglePage _ _ _ => inferInstanceAs (Decidable (∀ b ∈ _, _))
  | .allocPages _ _ _ _ => inferInstanceAs (Decidable (_ ∧ _))
  | .freeSinglePage p _ => inferInstanceAs (Decidable (p ∈ s.pagesOut))
  | .freePages p _ => inferInstanceAs (Decidable (p ∈ s.runsOut.map Prod.fst))

end Pages
end Region
end Partee
