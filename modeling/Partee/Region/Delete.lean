import Partee.Region.FreeLists

/-!
# `__deleteregion`, and other workers meanwhile

The header of a region lies in its first page, behind the header of the page; a region
is named by that page.  `__deleteregion` is split at every read of the header of the
region, every iteration of its loops, and every call that frees.  The lock of a list is
held for the whole of such a call, so the call is one step.  Other workers take pages,
make regions, and allocate in regions of their own.

* `Header`, `Mem`: the headers of the regions, on top of the page allocator.
* `Pc`, `deleteStep`: the deletion.
* `Worker`, `work`: another worker.  Which branch of `qalloc` is taken is up to the label:
  one that finds room in its block writes to no header.
* `step`, `Legal`: all of them together.

`log` and `regions` are kept for the statements.
-/

namespace Partee
namespace Region
namespace Delete

open Transition Memory Pages

/-- `struct region_`, without the blocks. -/
structure Header where
  pages : Option ℕ
  bigpages : Option ℕ
  parent : Option ℕ
  sibling : Option ℕ
  children : Option ℕ
  lock : Bool

/-- What `clear` leaves. -/
def Header.zero : Header := ⟨none, none, none, none, none, false⟩

structure Mem where
  store : Store
  /-- what lies in each page where a region has its header -/
  header : ℕ → Header

namespace Mem

/-- Writes to the header of a region. -/
def modify (m : Mem) (p : ℕ) (f : Header → Header) : Mem :=
  { m with header := Function.update m.header p (f (m.header p)) }

theorem header_modify_self (m : Mem) (p : ℕ) (f : Header → Header) :
    (m.modify p f).header p = f (m.header p) :=
  Function.update_self ..

theorem header_modify_of_ne (m : Mem) {p q : ℕ} (h : q ≠ p) (f : Header → Header) :
    (m.modify p f).header q = m.header q :=
  Function.update_of_ne h ..

/-- `postclear(r, sizeof *r)`. -/
def postclear (m : Mem) (r : ℕ) : Mem := m.modify r fun _ => .zero

/-- `initregion`. -/
def initregion (m : Mem) (r : ℕ) : Mem := m.modify r fun h =>
  { h with pages := some r, parent := none, sibling := none, children := none }

/-- `link_region`. -/
def linkRegion (m : Mem) (r parent : ℕ) : Mem :=
  let m := m.modify r fun h => { h with sibling := (m.header parent).children }
  let m := m.modify r fun h => { h with parent := some parent }
  m.modify parent fun h => { h with children := some r }

/-- What `clear` does with a run of `n` pages: the header of the first page stays. -/
def clearRun (m : Mem) (p n : ℕ) : Mem where
  store := { m.store with page := fun q =>
    if p < q ∧ q < p + n then ⟨0, none, 0, false⟩ else m.store.page q }
  header := fun q => if p ≤ q ∧ q < p + n then .zero else m.header q

/-- `acquire_spinlock`; `none` while somebody has the lock. -/
def acquire (m : Mem) (r : ℕ) : Option Mem :=
  if (m.header r).lock then none else some (m.modify r fun h => { h with lock := true })

/-- `release_spinlock`. -/
def release (m : Mem) (r : ℕ) : Mem := m.modify r fun h => { h with lock := false }

end Mem

/-! ## The deletion -/

/-- A field that `scan` of `unlink_region` points to. -/
inductive Field where
  | children (r : ℕ)
  | sibling (r : ℕ)
  deriving DecidableEq

def Mem.load (m : Mem) : Field → Option ℕ
  | .children r => (m.header r).children
  | .sibling r => (m.header r).sibling

def Mem.write (m : Mem) (x : Option ℕ) : Field → Mem
  | .children r => m.modify r fun h => { h with children := x }
  | .sibling r => m.modify r fun h => { h with sibling := x }

/-- The program points of `__deleteregion(r)`. -/
inductive Pc where
  /-- `if (r->parent)` is next -/
  | start
  /-- `acquire_spinlock(&r->parent->lock)` is next -/
  | acquire
  /-- `scan = &r->parent->children` is next -/
  | unlink
  /-- the loop of `unlink_region` -/
  | scan (scan : Field)
  /-- `nochildren(r)` is next -/
  | nochildren
  /-- `p = a->pages` is next -/
  | pages
  /-- the first loop of `free_all_pages` -/
  | singles (p : Option ℕ)
  /-- `free_single_page(r, p)` is next -/
  | freeSingle (p : ℕ) (next : Option ℕ)
  /-- `p = a->bigpages` is next -/
  | bigpages
  /-- the second loop of `free_all_pages` -/
  | runs (p : Option ℕ)
  /-- `free_pages(r, p)` is next -/
  | freeRun (p : ℕ) (next : Option ℕ)
  /-- the second `if (r->parent)` is next -/
  | final
  /-- `release_spinlock(&r->parent->lock)` is next -/
  | release
  | done
  deriving DecidableEq

/-- What the deletion of `r` does: it reads a field of the header of `r`, puts a page on a
list, or puts a run on a list. -/
inductive Event where
  | read
  | freePage (p : ℕ)
  | freeRun (p : ℕ)
  deriving DecidableEq

/-- The deletion, and what it has done so far, the latest first. -/
structure Deletion where
  pc : Pc
  log : List Event
  deriving DecidableEq

/-- A step of `__deleteregion(r)`; `l` is the list that a call that frees picks.  `none`
when it waits for a lock, follows a pointer that is `NULL`, aborts, or has returned. -/
def deleteStep (r : ℕ) (m : Mem) (d : Deletion) (l : ℕ) : Option (Mem × Deletion) :=
  let h := m.header r
  match d.pc with
  | .start => some (m, ⟨if h.parent = none then .nochildren else .acquire, .read :: d.log⟩)
  | .acquire => h.parent.bind fun q => (m.acquire q).map fun m => (m, ⟨.unlink, .read :: d.log⟩)
  | .unlink => h.parent.map fun q => (m, ⟨.scan (.children q), .read :: d.log⟩)
  | .scan x => (m.load x).map fun c =>
      if c = r then (m.write h.sibling x, ⟨.nochildren, .read :: d.log⟩)
      else (m, ⟨.scan (.sibling c), d.log⟩)
  | .nochildren => if h.children = none then some (m, ⟨.pages, .read :: d.log⟩) else none
  | .pages => some (m, ⟨.singles h.pages, .read :: d.log⟩)
  | .singles none => some (m, ⟨.bigpages, d.log⟩)
  | .singles (some p) => some (m, ⟨.freeSingle p (m.store.page p).next, d.log⟩)
  | .freeSingle p next =>
      some ({ m with store := m.store.freeSinglePage p l }, ⟨.singles next, .freePage p :: d.log⟩)
  | .bigpages => some (m, ⟨.runs h.bigpages, .read :: d.log⟩)
  | .runs none => some (m, ⟨.final, d.log⟩)
  | .runs (some p) => some (m, ⟨.freeRun p (m.store.page p).next, d.log⟩)
  | .freeRun p next =>
      some ({ m with store := m.store.freePages p l }, ⟨.runs next, .freeRun p :: d.log⟩)
  | .final => some (m, ⟨if h.parent = none then .done else .release, .read :: d.log⟩)
  | .release => h.parent.map fun q => (m.release q, ⟨.done, .read :: d.log⟩)
  | .done => none

/-! ## Other workers -/

/-- What a worker calls. -/
inductive Call where
  | allocSinglePage (next : Option ℕ)
  | newsubregion (parent : Option ℕ)
  /-- `qalloc` in a fresh page for `r` -/
  | allocBlock (r : ℕ)
  /-- `qalloc` in `n` fresh pages for `r` -/
  | bigPages (r n : ℕ)

/-- The program points of a worker. -/
inductive Worker where
  | idle
  | allocSinglePage (next : Option ℕ)
  /-- `newsubregion`: `acquire_spinlock(&parent->lock)` is next -/
  | acquire (parent : ℕ)
  /-- `newsubregion`: `alloc_single_page(NULL)` is next -/
  | first (parent : Option ℕ)
  | postclear (parent : Option ℕ) (r : ℕ)
  | initregion (parent : Option ℕ) (r : ℕ)
  /-- `newsubregion`: `link_region(r, parent)` is next -/
  | link (r parent : ℕ)
  /-- `newsubregion`: `release_spinlock(&parent->lock)` is next -/
  | release (r parent : ℕ)
  /-- `alloc_block`: `newp = alloc_single_page(a->pages)` is next -/
  | block (r : ℕ)
  /-- `alloc_block`: `a->pages = newp` is next -/
  | setPages (r newp : ℕ)
  /-- `alloc_block`: `clear` is next -/
  | clearPage (newp : ℕ)
  /-- `qalloc`: `p = alloc_pages(npages, a->bigpages)` is next -/
  | big (r n : ℕ)
  /-- `qalloc`: `a->bigpages = p` is next -/
  | setBigpages (r p n : ℕ)
  /-- `qalloc`: `clear` is next -/
  | clearRun (p n : ℕ)

/-- An idle worker makes a call. -/
def Call.start : Call → Worker
  | .allocSinglePage next => .allocSinglePage next
  | .newsubregion none => .first none
  | .newsubregion (some parent) => .acquire parent
  | .allocBlock r => .block r
  | .bigPages r n => .big r n

/-- A step of a worker; `l` is the list that a call for pages picks, `a` what `malloc`
answers.  The last component is the region that the worker has made. -/
def work (m : Mem) (l : ℕ) (a : Malloc) : Worker → Option (Mem × Worker × Option ℕ)
  | .idle => none
  | .allocSinglePage next => (m.store.allocSinglePage a l next).map fun x =>
      ({ m with store := x.2 }, .idle, none)
  | .acquire parent => (m.acquire parent).map fun m => (m, .first (some parent), none)
  | .first parent => (m.store.allocSinglePage a l none).map fun x =>
      ({ m with store := x.2 }, .postclear parent x.1, none)
  | .postclear parent r => some (m.postclear r, .initregion parent r, none)
  | .initregion none r => some (m.initregion r, .idle, some r)
  | .initregion (some parent) r => some (m.initregion r, .link r parent, none)
  | .link r parent => some (m.linkRegion r parent, .release r parent, none)
  | .release r parent => some (m.release parent, .idle, some r)
  | .block r => (m.store.allocSinglePage a l (m.header r).pages).map fun x =>
      ({ m with store := x.2 }, .setPages r x.1, none)
  | .setPages r newp => some (m.modify r fun h => { h with pages := some newp },
      .clearPage newp, none)
  | .clearPage newp => some (m.modify newp fun _ => .zero, .idle, none)
  | .big r n => (m.store.allocPages a n l (m.header r).bigpages).map fun x =>
      ({ m with store := x.2 }, .setBigpages r x.1 n, none)
  | .setBigpages r p n => some (m.modify r fun h => { h with bigpages := some p },
      .clearRun p n, none)
  | .clearRun p n => some (m.clearRun p n, .idle, none)

/-! ## All together -/

structure State where
  mem : Mem
  deletion : Deletion
  worker : ℕ → Worker
  /-- the regions of the workers, and `r` until its deletion begins -/
  regions : List ℕ

/-- Who moves. -/
inductive Label where
  | delete (l : ℕ)
  | call (w : ℕ) (c : Call)
  | work (w l : ℕ) (a : Malloc)

/-- One step; the region to be deleted is `r`. -/
def step (r : ℕ) (s : State) : Label → Option State
  | .delete l => (deleteStep r s.mem s.deletion l).map fun x => { s with
      mem := x.1
      deletion := x.2
      regions := if s.deletion.pc = .start then s.regions.erase r else s.regions }
  | .call w c => match s.worker w with
      | .idle => some { s with worker := Function.update s.worker w c.start }
      | _ => none
  | .work w l a => (work s.mem l a (s.worker w)).map fun x => { s with
      mem := x.1
      worker := Function.update s.worker w x.2.1
      regions := x.2.2.toList ++ s.regions }

/-- Workers call for regions of their own, and for at least one page. -/
def Call.Legal (regions : List ℕ) : Call → Prop
  | .allocSinglePage _ | .newsubregion none => True
  | .newsubregion (some parent) => parent ∈ regions
  | .allocBlock r => r ∈ regions
  | .bigPages r n => r ∈ regions ∧ 1 ≤ n

def Legal (s : State) : Label → Prop
  | .call _ c => c.Legal s.regions
  | .delete _ | .work _ _ _ => True

instance (regions : List ℕ) (c : Call) : Decidable (c.Legal regions) :=
  match c with
  | .allocSinglePage _ | .newsubregion none => .isTrue trivial
  | .newsubregion (some parent) => inferInstanceAs (Decidable (parent ∈ regions))
  | .allocBlock r => inferInstanceAs (Decidable (r ∈ regions))
  | .bigPages _ _ => inferInstanceAs (Decidable (_ ∧ _))

instance (s : State) (label : Label) : Decidable (Legal s label) :=
  match label with
  | .call _ c => inferInstanceAs (Decidable (c.Legal s.regions))
  | .delete _ | .work _ _ _ => .isTrue trivial

/-! ## What a region owns -/

/-- The region `r` has the pages `singles` and the runs `bigs`; its header lies in one of
the pages. -/
structure Owns (m : Mem) (r : ℕ) (singles bigs : List ℕ) : Prop where
  pages : Chain m.store.next (m.header r).pages singles
  bigpages : Chain m.store.next (m.header r).bigpages bigs
  nodup : (singles ++ bigs).Nodup
  first : r ∈ singles

section Owns

variable {m : Mem} {r p : ℕ} {singles bigs : List ℕ}

/-- `newsubregion` makes a region that has its first page. -/
theorem owns_initregion (hnext : m.store.next r = none) :
    Owns ((m.postclear r).initregion r) r [r] [] := by
  have hheader : (((m.postclear r).initregion r).header r) =
      { Header.zero with pages := some r } := by
    rw [Mem.initregion, Mem.header_modify_self, Mem.postclear, Mem.header_modify_self]
    rfl
  refine ⟨?_, ?_, List.nodup_singleton r, List.mem_singleton_self r⟩
  · rw [hheader]
    exact ⟨rfl, hnext⟩
  · rw [hheader]
    rfl

/-- `alloc_block` adds a page that it has taken in front of the others. -/
theorem Owns.setPages (h : Owns m r singles bigs) (hp : p ∉ singles ++ bigs)
    (hnext : m.store.next p = (m.header r).pages) :
    Owns (m.modify r fun h => { h with pages := some p }) r (p :: singles) bigs := by
  refine ⟨?_, ?_, List.nodup_cons.mpr ⟨hp, h.nodup⟩, List.mem_cons_of_mem p h.first⟩
  · rw [Mem.header_modify_self]
    refine ⟨rfl, ?_⟩
    show Chain m.store.next (m.store.next p) singles
    rw [hnext]
    exact h.pages
  · rw [Mem.header_modify_self]
    exact h.bigpages

/-- `qalloc` adds a run in front of the others. -/
theorem Owns.setBigpages (h : Owns m r singles bigs) (hp : p ∉ singles ++ bigs)
    (hnext : m.store.next p = (m.header r).bigpages) :
    Owns (m.modify r fun h => { h with bigpages := some p }) r singles (p :: bigs) := by
  refine ⟨?_, ?_, List.nodup_middle.mpr (List.nodup_cons.mpr ⟨hp, h.nodup⟩), h.first⟩
  · rw [Mem.header_modify_self]
    exact h.pages
  · rw [Mem.header_modify_self]
    refine ⟨rfl, ?_⟩
    show Chain m.store.next (m.store.next p) bigs
    rw [hnext]
    exact h.bigpages

end Owns

/-- What a deletion has put on lists. -/
def freed (log : List Event) : List Event := log.filter (· ≠ .read)

/-- These pages and runs have been put on lists, each once, and nothing else. -/
def Exact (singles bigs : List ℕ) (log : List Event) : Prop :=
  (freed log).Perm (singles.map .freePage ++ bigs.map .freeRun)

/-- A field of the header of `r` was read after its page had been put on a list. -/
def LateRead (r : ℕ) (log : List Event) : Prop :=
  ∃ xs ys, log = xs ++ .read :: ys ∧ (.freePage r ∈ ys ∨ .freeRun r ∈ ys)

end Delete
end Region
end Partee
