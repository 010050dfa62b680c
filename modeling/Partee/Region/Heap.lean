import Partee.Memory.Bytes
import Partee.Region.Delete

/-!
# The objects of the regions

A region takes its objects from the front of its current page, `normal.page`; one that
does not fit there gets a fresh page, and one of more than a quarter of a page gets pages
of its own.  The calls are sequential, so the locks are left out, and so is `available`, which
only the code that saves regions would read.  The `preclear` of `alloc_block` is empty in
this build, and the blocks `superpage` and `hyperpage` are used in no call.  A call of
`__rc_rstrdup` is a call of `__rc_rstralloc` and writes to the new object.

A size is a `size_t` that is passed on as an `int`; `Legal` has it small.  Addresses do
not wrap.  Memory that `malloc` hands out for the first time holds whatever the function
`byte` has there.

* `qalloc`, `Request`, `State.call`: the calls that allocate.
* `newsubregion`, `deleteregion`: the life of a region.
* `Label`, `step`, `Legal`: a call, or a write of the program to an object.

`regions` and `objects` are kept for the statements; no function reads them but the one
for the writes.
-/

namespace Partee
namespace Region
namespace Heap

open Transition Memory Pages
open Delete (Header Mem Field)

/-- `offsetof(struct page, previous)`: where the header of a page ends. -/
def pageHeader : ℕ := 32

/-- `sizeof(struct region_)`. -/
def regionHeader : ℕ := 96

/-- `RALIGNMENT`, `ALIGNMENT_LONG`, and `sizeof(unsigned long)`. -/
def long : ℕ := 8

/-- `struct ablock`. -/
structure Ablock where
  base : ℕ
  allocfrom : ℕ
  deriving DecidableEq

/-- A piece of memory that a call has returned: `size` bytes from `mem` on, of the region
whose first page is `region`.  If it was made by `__rc_rstrextend` there is a word with
the size in front of it. -/
structure Object where
  region : ℕ
  mem : ℕ
  size : ℕ
  header : Bool
  deriving DecidableEq

/-- The page allocator, the headers of the regions, and memory. -/
structure State where
  pages : Pages.State
  header : ℕ → Header
  /-- `normal.page` of each region -/
  block : ℕ → Ablock
  /-- `__rcregionmap` -/
  map : RegionMap (Option ℕ)
  byte : Bytes
  /-- the regions that are not deleted, the latest first -/
  regions : List ℕ
  /-- their objects, the latest first -/
  objects : List Object

namespace State

/-- The headers of the pages and of the regions. -/
def mem (s : State) : Mem := ⟨s.pages.mem, s.header⟩

/-- Writes to the headers. -/
def put (s : State) (m : Mem) : State :=
  { s with pages := { s.pages with mem := m.store }, header := m.header }

/-- Writes to the current page of a region. -/
def setBlock (s : State) (r : ℕ) (blk : Ablock) : State :=
  { s with block := Function.update s.block r blk }

/-- `set_region`, for `n` pages from the page `p` on. -/
def setRegion (s : State) (p n r : ℕ) : State :=
  { s with map := Region.setRegion s.map (p * rPageSize) n (some r) }

/-- `alloc_single_page(next)`. -/
def allocSinglePage (s : State) (next : Option ℕ) (l : ℕ) (a : Malloc) : Option (ℕ × State) :=
  (s.pages.mem.allocSinglePage a l next).bind fun x =>
    (Pages.step s.pages (.allocSinglePage l next a)).map fun pages =>
      (x.1, { s with pages := pages })

/-- `alloc_pages(n, next)`. -/
def allocPages (s : State) (n : ℕ) (next : Option ℕ) (l : ℕ) (a : Malloc) : Option (ℕ × State) :=
  (s.pages.mem.allocPages a n l next).bind fun x =>
    (Pages.step s.pages (.allocPages n l next a)).map fun pages =>
      (x.1, { s with pages := pages })

end State

/-! ## `clear` -/

/-- The loop of `clear`: `*clear++ = 0` is done once at least. -/
def clearLoop (b : Bytes) (clear clearend : ℕ) : Bytes :=
  let b := store long b clear 0
  if h : clear + long < clearend then
    have : clearend - (clear + long) < clearend - clear :=
      Nat.sub_lt_sub_left (Nat.lt_of_le_of_lt (Nat.le_add_right clear long) h)
        (Nat.lt_add_of_pos_right (by decide))
    clearLoop b (clear + long) clearend
  else b
termination_by clearend - clear
decreasing_by exact this

/-- `clear(start, size)`. -/
def clear (b : Bytes) (start size : ℕ) : Bytes := clearLoop b start (start + size)

/-- The first address that `clear(start, size)` does not write to. -/
def clearStop (start size : ℕ) : ℕ := start + max long (align size long)

namespace State

/-- Zeros up to `stop`, from an address in the page `p`: what goes beyond the page falls on
the header of the next one, which begins with its `list_id`. -/
def overrun (s : State) (p stop : ℕ) : State :=
  let digits := stop - (p + 1) * rPageSize
  if digits = 0 then s
  else s.put { s.mem with store := s.pages.mem.modify (p + 1) fun h =>
    { h with listId := h.listId / 256 ^ digits * 256 ^ digits } }

/-- `clear(start, size)`, on an object. -/
def clear (s : State) (start size : ℕ) : State :=
  { s with byte := Heap.clear s.byte start size }.overrun (start / rPageSize)
    (clearStop start size)

/-- `clear` from `start` on to the end of the pages from `p` to `p + n`. -/
def clearPages (s : State) (p n start : ℕ) : State :=
  { s.put (s.mem.clearRun p n) with
    byte := Heap.clear s.byte start ((p + n) * rPageSize - start) }

end State

/-! ## Allocation in a region -/

/-- `mem1`, for a block that is used up to `allocfrom`. -/
def mem1 (allocfrom a1 : ℕ) : ℕ := align allocfrom a1

/-- `mem2`. -/
def mem2 (allocfrom s1 a1 a2 : ℕ) : ℕ := align (mem1 allocfrom a1 + s1) a2

/-- An object at the front of the current page. -/
def takeFront (s : State) (r s1 a1 s2 a2 : ℕ) : ℕ × ℕ × State :=
  let blk := s.block r
  let mem2 := mem2 blk.allocfrom s1 a1 a2
  (mem1 blk.allocfrom a1, mem2, s.setBlock r { blk with allocfrom := mem2 + s2 })

/-- `alloc_block`, when `blksize` is a page. -/
def allocBlock (s : State) (r s1 a1 s2 a2 l : ℕ) (a : Malloc) : Option (ℕ × ℕ × State) :=
  let blk := s.block r
  -- Can't use last byte of page
  if mem2 blk.allocfrom s1 a1 a2 + s2 ≥ blk.base + rPageSize then
    (s.allocSinglePage (s.header r).pages l a).map fun x =>
      let newp := x.1
      let allocfrom := newp * rPageSize + pageHeader
      let s := x.2.put (x.2.mem.modify r fun h => { h with pages := some newp })
      let s := (s.setRegion newp 1 r).clearPages newp 1 allocfrom
      takeFront (s.setBlock r ⟨newp * rPageSize, allocfrom⟩) r s1 a1 s2 a2
  else some (takeFront s r s1 a1 s2 a2)

/-- `npages` of `qalloc`. -/
def npages (n a1 : ℕ) : ℕ := (n + align pageHeader a1 + rPageSize) / rPageSize

/-- `qalloc`: where the two parts of the object lie. -/
def qalloc (s : State) (r s1 a1 s2 a2 l : ℕ) (a : Malloc) : Option (ℕ × ℕ × State) :=
  let n := align s1 a2 + s2
  let blk := s.block r
  -- We optimise the check for the first block
  if mem2 blk.allocfrom s1 a1 a2 + s2 < blk.base + rPageSize then
    some (takeFront s r s1 a1 s2 a2)
  else if n ≤ rPageSize / k then allocBlock s r s1 a1 s2 a2 l a
  else
    (s.allocPages (npages n a1) (s.header r).bigpages l a).map fun x =>
      let p := x.1
      let mem := p * rPageSize + pageHeader
      let s := x.2.put (x.2.mem.modify r fun h => { h with bigpages := some p })
      let s := s.setRegion p (npages n a1) r
      (mem1 mem a1, mem2 mem s1 a1 a2, s.clearPages p (npages n a1) (mem2 mem s1 a1 a2))

/-- `__rc_rstralloc`. -/
def rstralloc (s : State) (r size l : ℕ) (a : Malloc) : Option (ℕ × State) :=
  (qalloc s r 0 1 size long l a).map fun x => (x.2.1, x.2.2)

/-- `__rc_rstralloc0`, and `__rc_typed_ralloc`. -/
def rstralloc0 (s : State) (r size l : ℕ) (a : Malloc) : Option (ℕ × State) :=
  (rstralloc s r size l a).map fun x => (x.1, x.2.clear x.1 size)

/-- `__rc_ralloc_small0`. -/
def rallocSmall0 (s : State) (r size l : ℕ) (a : Malloc) : Option (ℕ × State) :=
  let blk := s.block r
  let mem2 := align blk.allocfrom long
  if mem2 + size ≥ blk.base + rPageSize then rstralloc0 s r size l a
  else some (mem2, (s.setBlock r { blk with allocfrom := mem2 + size }).clear mem2 size)

/-- `internal_rstrextend`, from `newmem` on. -/
def extendFrom (s : State) (newmem : ℕ) (old : Option ℕ) (newsize : ℕ) (needsclear : Bool) :
    State :=
  let s := { s with byte := store long s.byte (newmem - long) newsize }
  match old with
  | some old =>
      let oldsize := load long s.byte (old - long)
      if oldsize > newsize then { s with byte := copy s.byte newmem old newsize }
      else
        let s := if needsclear then s.clear (newmem + oldsize) (newsize - oldsize) else s
        { s with byte := copy s.byte newmem old oldsize }
  | none => if needsclear then s.clear newmem newsize else s

/-- `internal_rstrextend`: `__rc_rstrextend` and `__rc_rstrextend0`. -/
def internalRstrextend (s : State) (r : ℕ) (old : Option ℕ) (newsize : ℕ) (needsclear : Bool)
    (l : ℕ) (a : Malloc) : Option (ℕ × State) :=
  (qalloc s r long long newsize long l a).map fun x =>
    (x.2.1, extendFrom x.2.2 x.2.1 old newsize needsclear)

/-! ## Regions -/

/-- The loop of `check_region`, for at most so many passes: `r` is not met. -/
def checkRegion (m : Mem) (r : ℕ) : ℕ → Option ℕ → Bool
  | _, none => true
  | 0, some _ => false
  | passes + 1, some scan => scan ≠ r && checkRegion m r passes (m.header scan).sibling

/-- `initregion`, in the page `r`. -/
def initregion (s : State) (r : ℕ) : State :=
  let first := r * rPageSize
  let s := (s.put (s.mem.initregion r)).setBlock r ⟨first, first + pageHeader + regionHeader⟩
  s.setRegion r 1 r

/-- `newsubregion`; `none` when a call in it does not return, or `check_region` aborts. -/
def newsubregion (s : State) (parent : Option ℕ) (passes l : ℕ) (a : Malloc) :
    Option (ℕ × State) :=
  (s.allocSinglePage none l a).bind fun x =>
    let r := x.1
    let s := initregion (x.2.put (x.2.mem.postclear r)) r
    match parent with
    | none => some (r, s)
    | some parent =>
        if checkRegion s.mem r passes (s.header parent).children then
          some (r, s.put (s.mem.linkRegion r parent))
        else none

/-- The loop of `unlink_region`, for at most so many passes. -/
def unlinkLoop (m : Mem) (r : ℕ) : ℕ → Field → Option Mem
  | 0, _ => none
  | passes + 1, scan => (m.load scan).bind fun c =>
      if c = r then some (m.write (m.header r).sibling scan)
      else unlinkLoop m r passes (.sibling c)

/-- The first loop of `free_all_pages`, from the page `p` on; every pass picks a list. -/
def freeSingles : List ℕ → Option ℕ → Pages.State → Option (List ℕ × Pages.State)
  | ls, none, s => some (ls, s)
  | [], some _, _ => none
  | l :: ls, some p, s =>
      (Pages.step s (.freeSinglePage p l)).bind (freeSingles ls (s.mem.page p).next)

/-- The second loop. -/
def freeRuns : List ℕ → Option ℕ → Pages.State → Option (List ℕ × Pages.State)
  | ls, none, s => some (ls, s)
  | [], some _, _ => none
  | l :: ls, some p, s =>
      (Pages.step s (.freePages p l)).bind (freeRuns ls (s.mem.page p).next)

/-- `delregion`: `nochildren` and `free_all_pages`. -/
def delregion (s : State) (r : ℕ) (ls : List ℕ) : Option State :=
  if (s.header r).children = none then
    (freeSingles ls (s.header r).pages s.pages).bind fun x =>
      (freeRuns x.1 (s.header r).bigpages x.2).map fun x => { s with pages := x.2 }
  else none

/-- `__deleteregion`; `none` when a loop does not end within so many passes, or `nochildren`
aborts. -/
def deleteregion (s : State) (r passes : ℕ) (ls : List ℕ) : Option State :=
  match (s.header r).parent with
  | none => delregion s r ls
  | some parent =>
      (unlinkLoop s.mem r passes (.children parent)).bind fun m => delregion (s.put m) r ls

/-! ## Calls -/

/-- A call for an object; the old object is named by its place in `objects`. -/
inductive Request where
  | rstralloc (size : ℕ)
  | rstralloc0 (size : ℕ)
  | rallocSmall0 (size : ℕ)
  | rstrextend (old : Option ℕ) (newsize : ℕ) (needsclear : Bool)

namespace Request

/-- `__rc_typed_rarrayalloc`. -/
def typedRarrayalloc (n size : ℕ) : Request := .rstralloc0 (n * size % 2 ^ 64)

/-- `__rc_typed_rarrayextend`. -/
def typedRarrayextend (old : Option ℕ) (n size : ℕ) : Request :=
  .rstrextend old (n * size % 2 ^ 64) true

def size : Request → ℕ
  | .rstralloc size | .rstralloc0 size | .rallocSmall0 size | .rstrextend _ size _ => size

/-- The object has a word in front of it. -/
def header : Request → Bool
  | .rstralloc _ | .rstralloc0 _ | .rallocSmall0 _ => false
  | .rstrextend _ _ _ => true

/-- The first two arguments of `qalloc`: `s1` and `a1`. -/
def front (c : Request) : ℕ × ℕ := if c.header then (long, long) else (0, 1)

end Request

/-- A call for an object. -/
def State.call (s : State) (r l : ℕ) (a : Malloc) : Request → Option (ℕ × State)
  | .rstralloc size => rstralloc s r size l a
  | .rstralloc0 size => rstralloc0 s r size l a
  | .rallocSmall0 size => rallocSmall0 s r size l a
  | .rstrextend old newsize needsclear =>
      internalRstrextend s r ((old.bind (s.objects[·]?)).map Object.mem) newsize needsclear l a

inductive Label where
  | newsubregion (parent : Option ℕ) (passes l : ℕ) (a : Malloc)
  | ralloc (r : ℕ) (c : Request) (l : ℕ) (a : Malloc)
  /-- the program writes to byte `i` of an object -/
  | write (object i : ℕ) (x : UInt8)
  | deleteregion (r passes : ℕ) (ls : List ℕ)

/-- One call, or one write; `none` when it does not return. -/
def step (s : State) : Label → Option State
  | .newsubregion parent passes l a => (newsubregion s parent passes l a).map fun x =>
      { x.2 with regions := x.1 :: x.2.regions }
  | .ralloc r c l a => (s.call r l a c).map fun x =>
      { x.2 with objects := ⟨r, x.1, c.size, c.header⟩ :: x.2.objects }
  | .write object i x => (s.objects[object]?).map fun o =>
      { s with byte := Function.update s.byte (o.mem + i) x }
  | .deleteregion r passes ls => (deleteregion s r passes ls).map fun s =>
      { s with regions := s.regions.erase r, objects := s.objects.filter (·.region ≠ r) }

/-- The call for pages that `qalloc` makes, if it makes one. -/
def State.pageCall (s : State) (r : ℕ) (c : Request) (l : ℕ) (a : Malloc) : Option Pages.Label :=
  let n := align c.front.1 long + c.size
  let blk := s.block r
  if mem2 blk.allocfrom c.front.1 c.front.2 long + c.size < blk.base + rPageSize then none
  else if n ≤ rPageSize / k then some (.allocSinglePage l (s.header r).pages a)
  else some (.allocPages (npages n c.front.2) l (s.header r).bigpages a)

/-- The old object was made by `__rc_rstrextend`. -/
def Request.Extends (s : State) : Request → Prop
  | .rstrextend (some old) _ _ => ∃ o ∈ s.objects[old]?, o.header = true
  | _ => True

/-- `malloc` hands out memory it has not handed out before, a region is used until it is
deleted, an object fits in the rest of a page behind its header, and the program writes
to its objects. -/
def Legal (s : State) : Label → Prop
  | .newsubregion parent _ l a =>
      (∀ r ∈ parent, r ∈ s.regions) ∧ Pages.Legal s.pages (.allocSinglePage l none a)
  | .ralloc r c l a => r ∈ s.regions ∧ c.front.1 + c.size + pageHeader < rPageSize ∧
      c.Extends s ∧ ∀ label ∈ s.pageCall r c l a, Pages.Legal s.pages label
  | .write object i _ => ∃ o ∈ s.objects[object]?, i < o.size
  | .deleteregion r _ _ => r ∈ s.regions

instance (s : State) (c : Request) : Decidable (c.Extends s) :=
  match c with
  | .rstrextend (some _) _ _ => inferInstanceAs (Decidable (∃ o ∈ _, _))
  | .rstrextend none _ _ | .rstralloc _ | .rstralloc0 _ | .rallocSmall0 _ => .isTrue trivial

instance (s : State) (label : Label) : Decidable (Legal s label) :=
  match label with
  | .newsubregion _ _ _ _ => inferInstanceAs (Decidable ((∀ r ∈ _, _) ∧ _))
  | .ralloc _ _ _ _ => inferInstanceAs (Decidable (_ ∧ _ ∧ _ ∧ ∀ label ∈ _, _))
  | .write _ _ _ => inferInstanceAs (Decidable (∃ o ∈ _, _))
  | .deleteregion r _ _ => inferInstanceAs (Decidable (r ∈ s.regions))

/-- At the start there is no region; what is in memory is arbitrary. -/
def init (totalPageCount : ℕ) (page : ℕ → Page) (header : ℕ → Header)
    (map : RegionMap (Option ℕ)) (byte : Bytes) : State where
  pages := Pages.init totalPageCount page
  header := header
  block := fun _ => ⟨0, 0⟩
  map := map
  byte := byte
  regions := []
  objects := []

end Heap
end Region
end Partee
