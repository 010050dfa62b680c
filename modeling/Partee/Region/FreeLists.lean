import Partee.Region.Pages

/-!
# What the page allocator keeps

Each call takes at most one page off a list and puts on the lists only pages that are on
none.  So in every history the lists are proper and have no page in common, and no page
on a list is the first page of anything handed out (`Inv`, `inv_of_run`).  That holds
for `alloc_pages` too, whatever the number of pages it is asked for: it never looks at
the pages behind the first.

`refill_spec` says what a list looks like after it has been given a fresh block.
-/

namespace Partee
namespace Region
namespace Pages

open Transition Memory

/-! ## Reading the store -/

namespace Store

def next (m : Store) (p : ℕ) : Option ℕ := (m.page p).next

def head (m : Store) (l : ℕ) : Option ℕ := (m.singlePages l).pages

def pageCount (m : Store) (l : ℕ) : ℕ := (m.singlePages l).pageCount

variable (m : Store)

theorem next_modify (p : ℕ) (f : Page → Page) :
    (m.modify p f).next = Function.update m.next p (f (m.page p)).next := by
  funext q
  rw [next, modify]
  rcases eq_or_ne q p with rfl | hq
  · simp only [Function.update_self]
  · simp only [Function.update_of_ne hq]
    rfl

theorem page_modify_self (p : ℕ) (f : Page → Page) : (m.modify p f).page p = f (m.page p) :=
  Function.update_self ..

theorem head_modifyList (l : ℕ) (f : ListPages → ListPages) :
    (m.modifyList l f).head = Function.update m.head l (f (m.singlePages l)).pages := by
  funext j
  rw [head, modifyList]
  rcases eq_or_ne j l with rfl | hj
  · simp only [Function.update_self]
  · simp only [Function.update_of_ne hj]
    rfl

theorem pageCount_modifyList (l : ℕ) (f : ListPages → ListPages) :
    (m.modifyList l f).pageCount =
      Function.update m.pageCount l (f (m.singlePages l)).pageCount := by
  funext j
  rw [pageCount, modifyList]
  rcases eq_or_ne j l with rfl | hj
  · simp only [Function.update_self]
  · simp only [Function.update_of_ne hj]
    rfl

theorem next_push (l p : ℕ) : (m.push l p).next = Function.update m.next p (m.head l) :=
  next_modify m p fun h => { h with next := m.head l }

theorem head_push (l p : ℕ) : (m.push l p).head = Function.update m.head l (some p) :=
  head_modifyList (m.modify p fun h => { h with next := m.head l }) l
    fun x => { x with pages := some p }

theorem pageCount_push (l p : ℕ) : (m.push l p).pageCount = m.pageCount := by
  rw [push, pageCount_modifyList]
  exact Function.update_eq_self l m.pageCount

theorem head_count (l n : ℕ) : (m.count l n).head = m.head := by
  rw [count, head_modifyList]
  exact Function.update_eq_self l m.head

theorem pageCount_count (l n : ℕ) :
    (m.count l n).pageCount = Function.update m.pageCount l ((m.pageCount l + n) % 2 ^ 32) :=
  pageCount_modifyList m l _

variable {m}

/-- Taking the head of a list. -/
theorem take_spec {l p : ℕ} (hhead : m.head l = some p) (n : ℕ) (next : Option ℕ) :
    ∃ m', m.take l n next = some (p, m') ∧
      m'.next = Function.update m.next p next ∧
      m'.head = Function.update m.head l (m.next p) ∧
      m'.pageCount = Function.update m.pageCount l ((m.pageCount l + 2 ^ 32 - n) % 2 ^ 32) := by
  rw [head] at hhead
  rw [take, hhead]
  exact ⟨_, rfl, next_modify m p fun h => { h with next := next },
    head_modifyList (m.modify p fun h => { h with next := next }) l _,
    pageCount_modifyList (m.modify p fun h => { h with next := next }) l _⟩

theorem take_eq_none {l n : ℕ} {next : Option ℕ} (hhead : m.head l = none) :
    m.take l n next = none := by
  rw [head] at hhead
  rw [take, hhead]

/-- The loop of `add_single_pages` puts the pages on the list, the last in front. -/
theorem addLoop_spec (l n base : ℕ) (m : Store) {free : ℕ → List ℕ}
    (hlists : Lists m.next m.head free) (hoff : ∀ p, base ≤ p → p < base + n → ∀ j, p ∉ free j) :
    Lists (addLoop l n base m).next (addLoop l n base m).head
        (Function.update free l ((List.range' base n).reverse ++ free l)) ∧
      (addLoop l n base m).pageCount = m.pageCount := by
  induction n generalizing base m free with
  | zero =>
    rw [List.range'_zero, List.reverse_nil, List.nil_append, Function.update_eq_self]
    exact ⟨hlists, rfl⟩
  | succ n ih =>
    rw [addLoop]
    set m' := (m.modify base fun h => { h with free := false }).push l base with hm'
    have hnext : m'.next = Function.update m.next base (m.head l) := by
      rw [hm', next_push, next_modify, Function.update_idem]
      rfl
    have hhead : m'.head = Function.update m.head l (some base) := by
      rw [hm', head_push]
      rfl
    have hpush := hlists.push l (hoff base (Nat.le_refl _) (by omega))
    rw [← hnext, ← hhead] at hpush
    obtain ⟨hall, hcount⟩ := ih (base + 1) m' hpush fun p hle hlt j => by
      rcases eq_or_ne j l with rfl | hj
      · rw [Function.update_self, List.mem_cons, not_or]
        exact ⟨by omega, hoff p (by omega) (by omega) j⟩
      · rw [Function.update_of_ne hj]
        exact hoff p (by omega) (by omega) j
    rw [Function.update_self, Function.update_idem] at hall
    rw [List.range'_succ, List.reverse_cons, List.append_assoc, List.singleton_append]
    exact ⟨hall, hcount.trans (by rw [hm', pageCount_push]; rfl)⟩

end Store

/-! ## A fresh block -/

/-- The pages of a block. -/
def Block.Has (b : Block) (p : ℕ) : Prop := b.first ≤ p ∧ p < b.first + b.count

instance (b : Block) (p : ℕ) : Decidable (b.Has p) := inferInstanceAs (Decidable (_ ∧ _))

/-- The pages of a block lie in it. -/
structure Block.Wf (b : Block) : Prop where
  first : b.mem ≤ b.first * rPageSize
  last : (b.first + b.count) * rPageSize ≤ b.mem + b.bytes
  bytes : b.mem + b.bytes ≤ 2 ^ 64

/-- A page of a fresh block is a page of no block before. -/
theorem Fresh.not_has {blocks : List Block} {b : Block} (hfresh : Fresh blocks b) (hwf : b.Wf)
    {c : Block} (hc : c ∈ blocks) (hwfc : c.Wf) {p : ℕ} (hp : b.Has p) : ¬ c.Has p := by
  rintro ⟨hle, hlt⟩
  obtain ⟨hle', hlt'⟩ := hp
  have hfirst := hwf.first
  have hlast := hwf.last
  have hfirstc := hwfc.first
  have hlastc := hwfc.last
  have hapart := hfresh.2.2 c hc
  rw [rPageSize] at *
  omega

namespace Store

variable {m : Store}

theorem toUnsigned_natCast {n : ℕ} (h : n < 2 ^ 31) : toUnsigned n = n := by
  rw [toUnsigned]
  omega

theorem allocBytes_natCast {n : ℕ} (h : n < 2 ^ 31) : allocBytes n = n * rPageSize := by
  rw [allocBytes, toUnsigned_natCast h, rPageSize]
  omega

/-- `region_get_mem` gets at least the pages it is asked for. -/
theorem block_spec {n mem : ℕ} (hn : n < 2 ^ 31) {blocks : List Block}
    (hfresh : Fresh blocks (m.block (allocBytes n) mem)) :
    (m.block (allocBytes n) mem).Wf ∧ n ≤ (m.block (allocBytes n) mem).count := by
  obtain ⟨hpos, hend, -⟩ := hfresh
  rw [allocBytes_natCast hn] at *
  have hrequest : n * rPageSize ≤ m.requestBytes (n * rPageSize) ∧
      m.requestBytes (n * rPageSize) + rPageSize < 2 ^ 64 := by
    rw [requestBytes, k, rPageSize]
    split_ifs <;> omega
  have hbytes : (m.block (n * rPageSize) mem).bytes =
      m.requestBytes (n * rPageSize) + rPageSize := Nat.mod_eq_of_lt hrequest.2
  have hcount : (m.block (n * rPageSize) mem).count =
      (if mem = palign mem then m.requestBytes (n * rPageSize) + rPageSize
        else m.requestBytes (n * rPageSize)) / rPageSize := rfl
  have hfirst : (m.block (n * rPageSize) mem).first = palign mem / rPageSize := rfl
  have hmem : (m.block (n * rPageSize) mem).mem = mem := rfl
  rw [hbytes, hmem] at hend
  refine ⟨⟨?_, ?_, ?_⟩, ?_⟩
  · rw [hmem, hfirst, palign, rPageSize]
    omega
  · rw [hmem, hbytes, hcount, hfirst, palign]
    rw [rPageSize] at *
    split_ifs <;> omega
  · rw [hmem, hbytes]
    exact hend
  · rw [hcount]
    rw [rPageSize] at *
    split_ifs <;> omega

/-- `region_get_mem` writes the length into the header of the first page, and leaves the
pages of other blocks alone. -/
theorem regionGetMem_spec (a : Malloc) (s : ℕ) :
    (((m.regionGetMem a s).2.page (m.block s a.mem).first).pagecount =
      (m.block s a.mem).count % 2 ^ 63) ∧
    ∀ p, p ≠ (m.block s a.mem).first → ¬ (m.block s a.mem).Has p →
      (m.regionGetMem a s).2.next p = m.next p := by
  have hpage : ∃ h : Page, (m.regionGetMem a s).2.page = Function.update
      (fun p => if (m.block s a.mem).Has p then a.page p else m.page p) (m.block s a.mem).first
      { h with pagecount := (m.block s a.mem).count % 2 ^ 63, free := true } := ⟨_, rfl⟩
  obtain ⟨h, hpage⟩ := hpage
  refine ⟨?_, fun p hne hp => ?_⟩
  · rw [hpage, Function.update_self]
  · rw [next, hpage, Function.update_of_ne hne, if_neg hp]
    rfl

/-- The part of a block that `alloc_split` returns: its last `n` pages. -/
theorem allocSplit_spec {split n : ℕ} (hn : n < 2 ^ 31) (hle : n ≤ (m.page split).pagecount)
    (next : Option ℕ) (l : ℕ) :
    ∃ m', m.allocSplit split n next l = (split + ((m.page split).pagecount - n), m') ∧
      m'.head = m.head ∧ m'.pageCount = m.pageCount ∧
      m'.page (split + ((m.page split).pagecount - n)) =
        { next := next, pagecount := n, free := false, listId := l } ∧
      ∀ p, p ≠ split + ((m.page split).pagecount - n) → m'.next p = m.next p := by
  have hmod : n % 2 ^ 63 = n := by omega
  rw [allocSplit, toUnsigned_natCast hn]
  dsimp only
  split_ifs with hlt
  · -- the first part is kept, with its new length
    set m₁ := m.modify split fun h => { h with pagecount := h.pagecount - n } with hm₁
    have hself : (m₁.page split).pagecount = (m.page split).pagecount - n := by
      rw [hm₁, page_modify_self]
    rw [hself]
    refine ⟨_, rfl, rfl, rfl, ?_, fun p hp => ?_⟩
    · rw [page_modify_self, hmod]
    · rw [next_modify, Function.update_of_ne hp, hm₁, next_modify]
      exact congrFun (Function.update_eq_self split m.next) p
  · have heq : (m.page split).pagecount - n = 0 := by omega
    rw [heq, Nat.add_zero]
    refine ⟨_, rfl, rfl, rfl, ?_, fun p hp => ?_⟩
    · rw [page_modify_self, hmod]
    · rw [next_modify, Function.update_of_ne hp]

/-- The first of the pages that a list is given from a fresh block. -/
def Base (b : Block) (n : ℕ) : ℕ := b.first + (b.count - n)

/-- `alloc_new` returns the last `n` pages of the block, and leaves other pages alone. -/
theorem allocNew_spec {n : ℕ} (hpos : 0 < n) (hn : n < 2 ^ 31) {a : Malloc} {blocks : List Block}
    (hfresh : Fresh blocks (m.block (allocBytes n) a.mem)) (l : ℕ) :
    ∃ m', m.allocNew a n none l = (Base (m.block (allocBytes n) a.mem) n, m') ∧
      m'.head = m.head ∧ m'.pageCount = m.pageCount ∧
      m'.page (Base (m.block (allocBytes n) a.mem) n) =
        { next := none, pagecount := n, free := false, listId := l } ∧
      ∀ p, ¬ (m.block (allocBytes n) a.mem).Has p → m'.next p = m.next p := by
  obtain ⟨hwf, hle⟩ := block_spec hn hfresh
  set b := m.block (allocBytes n) a.mem with hb
  have hcount : b.count % 2 ^ 63 = b.count := by
    have hlast := hwf.last
    have hbytes := hwf.bytes
    rw [rPageSize] at hlast
    omega
  set m₁ := (m.regionGetMem a (allocBytes n)).2.modify b.first
    fun h => { h with listId := l } with hm₁
  have hpagecount : (m₁.page b.first).pagecount = b.count := by
    rw [hm₁, page_modify_self]
    exact (regionGetMem_spec a (allocBytes n)).1.trans hcount
  have hnext : ∀ p, ¬ b.Has p → m₁.next p = m.next p := by
    intro p hp
    have hne : p ≠ b.first := fun h => hp ⟨h ▸ Nat.le_refl _, by omega⟩
    rw [hm₁, next_modify, Function.update_of_ne hne]
    exact (regionGetMem_spec a (allocBytes n)).2 p hne hp
  obtain ⟨m', heq, hhead, hcounts, hpage, hother⟩ :=
    allocSplit_spec hn (hpagecount.symm ▸ hle : n ≤ (m₁.page b.first).pagecount) none l
  rw [hpagecount] at heq hpage hother
  have hnew : m.allocNew a n none l = m₁.allocSplit b.first n none l := by
    rw [allocNew]
    rfl
  refine ⟨m', hnew.trans heq, hhead, hcounts, hpage, fun p hp => ?_⟩
  have hne : p ≠ b.first + (b.count - n) := fun h => hp ⟨by omega, by omega⟩
  rw [hother p hne, hnext p hp]

/-- A short list is given the last `n` pages of a fresh block. -/
theorem refill_spec {n : ℕ} (hpos : 0 < n) (hn : n < 2 ^ 31) {a : Malloc} {blocks : List Block}
    (hfresh : Fresh blocks (m.block (allocBytes n) a.mem)) (l : ℕ) {free : ℕ → List ℕ}
    (hlists : Lists m.next m.head free)
    (hoff : ∀ p, (m.block (allocBytes n) a.mem).Has p → ∀ j, p ∉ free j) :
    ∃ m', m.refill true a n l = some m' ∧
      Lists m'.next m'.head (Function.update free l
        ((List.range' (Base (m.block (allocBytes n) a.mem) n) n).reverse ++ free l)) ∧
      m'.pageCount = Function.update m.pageCount l ((m.pageCount l + n) % 2 ^ 32) := by
  obtain ⟨hwf, hle⟩ := block_spec hn hfresh
  obtain ⟨m₁, heq, hhead, hcounts, hpage, hnext⟩ := allocNew_spec hpos hn hfresh l
  set b := m.block (allocBytes n) a.mem with hb
  have hspace : Base b n + n ≤ 2 ^ 50 := by
    have hlast := hwf.last
    have hbytes := hwf.bytes
    rw [Base]
    rw [rPageSize] at hlast
    omega
  have hin : ∀ p, Base b n ≤ p → p < Base b n + n → b.Has p := by
    intro p hlo hhi
    rw [Base] at hlo hhi
    exact ⟨by omega, by omega⟩
  rw [refill, if_pos rfl, heq]
  dsimp only
  rw [addSinglePages, hpage]
  dsimp only
  rw [if_neg (Nat.ne_of_gt hpos), if_pos hspace]
  have hlists₁ : Lists (m₁.count l n).next (m₁.count l n).head free := by
    rw [head_count, hhead]
    exact hlists.congr fun j p hp => hnext p fun hhas => hoff p hhas j hp
  obtain ⟨hall, hcount⟩ := addLoop_spec l n (Base b n) (m₁.count l n) hlists₁
    fun p hlo hhi => hoff p (hin p hlo hhi)
  refine ⟨_, rfl, hall, hcount.trans ?_⟩
  rw [pageCount_count, hcounts]

/-- A list that is not short is left as it is. -/
theorem refill_false (a : Malloc) (n : ℤ) (l : ℕ) : m.refill false a n l = some m := rfl

/-- When the pages to ask for are cut to an `int` that is not positive, the loop of
`add_single_pages` runs out of the address space. -/
theorem refill_eq_none {n : ℤ} (hn : n ≤ 0) (hlow : -2 ^ 31 ≤ n) (a : Malloc) (l : ℕ) :
    m.refill true a n l = none := by
  have hadd : ∀ (m' : Store) (base : ℕ), (m'.page base).pagecount = toUnsigned n % 2 ^ 63 →
      m'.addSinglePages base = none := by
    intro m' base hpage
    rw [addSinglePages, hpage]
    refine if_neg ?_
    rw [toUnsigned]
    split_ifs <;> omega
  have hsplit : ∀ (m' : Store) (split : ℕ), ∃ m'' base, m'.allocSplit split n none l = (base, m'') ∧
      (m''.page base).pagecount = toUnsigned n % 2 ^ 63 := by
    intro m' split
    refine ⟨(m'.allocSplit split n none l).2, (m'.allocSplit split n none l).1, rfl, ?_⟩
    rw [allocSplit]
    dsimp only
    rw [page_modify_self]
  rw [refill, if_pos rfl, allocNew]
  obtain ⟨m', base, heq, hpage⟩ := hsplit ((m.regionGetMem a (allocBytes n)).2.modify
    (m.regionGetMem a (allocBytes n)).1 fun h => { h with listId := l })
    (m.regionGetMem a (allocBytes n)).1
  dsimp only
  rw [heq]
  exact hadd m' base hpage

theorem toInt_bounds (x : ℕ) : -2 ^ 31 ≤ toInt x ∧ toInt x < 2 ^ 31 := by
  have hdef : toInt x = Int.bmod x 4294967296 := rfl
  have hle := Int.le_bmod (x := x) (m := 4294967296) (by omega)
  have hlt := Int.bmod_lt (x := x) (m := 4294967296) (by omega)
  rw [hdef]
  omega

end Store

/-! ## The invariant -/

/-- The first pages of all that is handed out. -/
def State.out (s : State) : List ℕ := s.pagesOut ++ s.runsOut.map Prod.fst

/-- A page that `region_get_mem` has got. -/
def State.Obtained (s : State) (p : ℕ) : Prop := ∃ b ∈ s.blocks, b.Has p

/-- A page on some list. -/
def State.OnList (s : State) (p : ℕ) : Prop :=
  ∃ l xs, Chain s.mem.next (s.mem.head l) xs ∧ p ∈ xs

/-- A page that is handed out, alone or in a run. -/
def State.HandedOut (s : State) (p : ℕ) : Prop :=
  p ∈ s.pagesOut ∨ ∃ r ∈ s.runsOut, r.1 ≤ p ∧ p < r.1 + r.2

/-- The pages on the lists are `free`: no page is on two lists, none is handed out, and
all come from blocks. -/
structure Inv (s : State) (free : ℕ → List ℕ) : Prop where
  lists : Lists s.mem.next s.mem.head free
  out_nodup : s.out.Nodup
  free_out : ∀ l, ∀ p ∈ free l, p ∉ s.out
  free_obtained : ∀ l, ∀ p ∈ free l, s.Obtained p
  out_obtained : ∀ p ∈ s.out, s.Obtained p
  blocks : ∀ b ∈ s.blocks, b.Wf
  count_lt : ∀ l, s.mem.pageCount l < 2 ^ 32

theorem inv_init (totalPageCount : ℕ) (page : ℕ → Page) :
    Inv (init totalPageCount page) fun _ => [] where
  lists := .empty _
  out_nodup := .nil
  free_out _ _ h := absurd h List.not_mem_nil
  free_obtained _ _ h := absurd h List.not_mem_nil
  out_obtained _ h := absurd h List.not_mem_nil
  blocks _ h := absurd h List.not_mem_nil
  count_lt _ := Nat.two_pow_pos 32

theorem Inv.onList_iff {s : State} {free : ℕ → List ℕ} (h : Inv s free) (p : ℕ) :
    s.OnList p ↔ ∃ l, p ∈ free l := by
  constructor
  · rintro ⟨l, xs, hchain, hp⟩
    rw [hchain.unique (h.lists.chain l)] at hp
    exact ⟨l, hp⟩
  · rintro ⟨l, hp⟩
    exact ⟨l, free l, h.lists.chain l, hp⟩

/-- A counter is an `unsigned int`. -/
theorem update_count_lt {count count' : ℕ → ℕ} (h : ∀ l, count l < 2 ^ 32) (l n : ℕ)
    (heq : count' = Function.update count l (n % 2 ^ 32)) (j : ℕ) : count' j < 2 ^ 32 := by
  rw [heq]
  rcases eq_or_ne j l with rfl | hj
  · rw [Function.update_self]
    exact Nat.mod_lt _ (Nat.two_pow_pos 32)
  · rw [Function.update_of_ne hj]
    exact h j

/-- The pages that a list is given: of a fresh block, the last ones, in falling order. -/
def added (m : Store) (short : Bool × ℤ) (a : Malloc) : List ℕ :=
  if short.1 then
    (List.range' (Store.Base (m.block (Store.allocBytes short.2) a.mem) short.2.toNat)
      short.2.toNat).reverse
  else []

namespace Inv

variable {s : State} {free : ℕ → List ℕ}

/-- A list that is short is given pages, if the `int` is positive. -/
theorem refill (h : Inv s free) {short : Bool × ℤ} {a : Malloc} (l : ℕ)
    (hfresh : ∀ b ∈ s.mem.asked short a, Fresh s.blocks b) (hlt : short.2 < 2 ^ 31)
    (hpos : short.1 = true → 0 < short.2) :
    ∃ m, s.mem.refill short.1 a short.2 l = some m ∧
      Inv { s with mem := m, blocks := s.mem.asked short a ++ s.blocks }
        (Function.update free l (added s.mem short a ++ free l)) ∧
      m.pageCount = if short.1 then Function.update s.mem.pageCount l
        ((s.mem.pageCount l + (added s.mem short a).length) % 2 ^ 32) else s.mem.pageCount := by
  obtain ⟨short, n⟩ := short
  cases short with
  | false =>
    refine ⟨s.mem, Store.refill_false a n l, ?_, rfl⟩
    show Inv s (Function.update free l (free l))
    rw [Function.update_eq_self]
    exact h
  | true =>
    obtain ⟨n, rfl⟩ := Int.eq_ofNat_of_zero_le (Int.le_of_lt (hpos rfl))
    have hn : 0 < n := by
      have := hpos rfl
      dsimp only at this
      omega
    have hn' : n < 2 ^ 31 := by
      dsimp only at hlt
      omega
    set b := s.mem.block (Store.allocBytes (n : ℤ)) a.mem with hb
    have hasked : s.mem.asked (true, (n : ℤ)) a = [b] := rfl
    have hadded : added s.mem (true, (n : ℤ)) a = (List.range' (Store.Base b n) n).reverse := rfl
    have hb_fresh : Fresh s.blocks b := hfresh b (hasked ▸ List.mem_singleton_self b)
    obtain ⟨hwf, hle⟩ : b.Wf ∧ n ≤ b.count := Store.block_spec hn' hb_fresh
    have hnew : ∀ p, b.Has p → ¬ s.Obtained p := by
      rintro p hp ⟨c, hc, hcp⟩
      exact hb_fresh.not_has hwf hc (h.blocks c hc) hp hcp
    obtain ⟨m, heq, hlists, hcount⟩ := Store.refill_spec hn hn' hb_fresh l h.lists
      fun p hp j hpj => hnew p hp (h.free_obtained j p hpj)
    have hmem : ∀ p ∈ added s.mem (true, (n : ℤ)) a, b.Has p := by
      intro p hp
      rw [hadded, List.mem_reverse, List.mem_range'_1, Store.Base] at hp
      exact ⟨by omega, by omega⟩
    have hfree : ∀ j, ∀ p ∈ Function.update free l (added s.mem (true, (n : ℤ)) a ++ free l) j,
        b.Has p ∨ p ∈ free j := by
      intro j p hp
      rcases eq_or_ne j l with rfl | hj
      · rw [Function.update_self, List.mem_append] at hp
        exact hp.imp_left (hmem p)
      · rw [Function.update_of_ne hj] at hp
        exact .inr hp
    refine ⟨m, heq, ⟨hlists, h.out_nodup, fun j p hp => ?_, fun j p hp => ?_, fun p hp => ?_,
      fun c hc => ?_, update_count_lt h.count_lt l _ hcount⟩, ?_⟩
    · rcases hfree j p hp with hbp | hp
      · exact fun hout => hnew p hbp (h.out_obtained p hout)
      · exact h.free_out j p hp
    · rcases hfree j p hp with hbp | hp
      · exact ⟨b, List.mem_cons_self, hbp⟩
      · obtain ⟨c, hc, hcp⟩ := h.free_obtained j p hp
        exact ⟨c, List.mem_cons_of_mem b hc, hcp⟩
    · obtain ⟨c, hc, hcp⟩ := h.out_obtained p hp
      exact ⟨c, List.mem_cons_of_mem b hc, hcp⟩
    · rcases List.mem_cons.mp hc with rfl | hc
      · exact hwf
      · exact h.blocks c hc
    · rw [if_pos rfl, hadded, List.length_reverse, List.length_range']
      exact hcount

/-- The first page of a list is handed out. -/
theorem take (h : Inv s free) {l p : ℕ} {xs : List ℕ} (hfree : free l = p :: xs) (n : ℕ)
    (next : Option ℕ) :
    ∃ m, s.mem.take l n next = some (p, m) ∧
      (∀ s' : State, s'.mem = m → s'.blocks = s.blocks → s'.out.Perm (p :: s.out) →
        Inv s' (Function.update free l xs)) ∧
      m.pageCount =
        Function.update s.mem.pageCount l ((s.mem.pageCount l + 2 ^ 32 - n) % 2 ^ 32) := by
  have hchain := h.lists.chain l
  rw [hfree] at hchain
  obtain ⟨m, heq, hnext, hhead, hcount⟩ := Store.take_spec hchain.1 n next
  obtain ⟨hlists, hoff⟩ := h.lists.pop hfree next
  have hp : p ∈ free l := hfree ▸ List.mem_cons_self
  refine ⟨m, heq, fun s' hmem hblocks hout => ?_, hcount⟩
  have hsub : ∀ j, ∀ q ∈ Function.update free l xs j, q ∈ free j := by
    intro j q hq
    rcases eq_or_ne j l with rfl | hj
    · rw [Function.update_self] at hq
      rw [hfree]
      exact List.mem_cons_of_mem p hq
    · rw [Function.update_of_ne hj] at hq
      exact hq
  have hobtained : ∀ q, s'.Obtained q ↔ s.Obtained q := fun q => by
    rw [State.Obtained, State.Obtained, hblocks]
  refine ⟨?_, ?_, fun j q hq hqout => ?_, fun j q hq => ?_, fun q hq => ?_, fun c hc => ?_,
    update_count_lt h.count_lt l _ (hmem ▸ hcount)⟩
  · rw [hmem, hnext, hhead]
    exact hlists
  · rw [hout.nodup_iff]
    exact List.nodup_cons.mpr ⟨h.free_out l p hp, h.out_nodup⟩
  · rcases List.mem_cons.mp (hout.mem_iff.mp hqout) with rfl | hqout
    · exact hoff j hq
    · exact h.free_out j q (hsub j q hq) hqout
  · exact (hobtained q).mpr (h.free_obtained j q (hsub j q hq))
  · rcases List.mem_cons.mp (hout.mem_iff.mp hq) with rfl | hq
    · exact (hobtained q).mpr (h.free_obtained l q hp)
    · exact (hobtained q).mpr (h.out_obtained q hq)
  · rw [hblocks] at hc
    exact h.blocks c hc

/-- A page that was handed out is put in front of a list. -/
theorem push (h : Inv s free) {p : ℕ} (l n : ℕ) {s' : State}
    (hmem : s'.mem = (s.mem.push l p).count l n) (hblocks : s'.blocks = s.blocks)
    (hout : s.out.Perm (p :: s'.out)) : Inv s' (Function.update free l (p :: free l)) := by
  have hp : p ∈ s.out := hout.mem_iff.mpr List.mem_cons_self
  have hnodup := hout.nodup_iff.mp h.out_nodup
  have hoff : ∀ j, p ∉ free j := fun j hj => h.free_out j p hj hp
  have hfree : ∀ j, ∀ q ∈ Function.update free l (p :: free l) j, q = p ∨ q ∈ free j := by
    intro j q hq
    rcases eq_or_ne j l with rfl | hj
    · rw [Function.update_self] at hq
      exact List.mem_cons.mp hq
    · rw [Function.update_of_ne hj] at hq
      exact .inr hq
  have hobtained : ∀ q, s'.Obtained q ↔ s.Obtained q := fun q => by
    rw [State.Obtained, State.Obtained, hblocks]
  have hsub : ∀ q ∈ s'.out, q ∈ s.out := fun q hq =>
    hout.mem_iff.mpr (List.mem_cons_of_mem p hq)
  refine ⟨?_, (List.nodup_cons.mp hnodup).2, fun j q hq hqout => ?_, fun j q hq => ?_,
    fun q hq => (hobtained q).mpr (h.out_obtained q (hsub q hq)), fun c hc => ?_,
    update_count_lt (Store.pageCount_push s.mem l p ▸ h.count_lt) l _
      (hmem ▸ Store.pageCount_count (s.mem.push l p) l n)⟩
  · have hpush := h.lists.push l hoff
    rw [← Store.next_push, ← Store.head_push, ← Store.head_count (s.mem.push l p) l n] at hpush
    rw [hmem]
    exact hpush
  · rcases hfree j q hq with rfl | hq
    · exact (List.nodup_cons.mp hnodup).1 hqout
    · exact h.free_out j q hq (hsub q hqout)
  · rcases hfree j q hq with rfl | hq
    · exact (hobtained q).mpr (h.out_obtained q hp)
    · exact (hobtained q).mpr (h.free_obtained j q hq)
  · rw [hblocks] at hc
    exact h.blocks c hc

end Inv

/-! ## Steps and runs -/

/-- Taking the runs that begin at a page off the list of runs. -/
theorem perm_filter_runs {runs : List (ℕ × ℕ)} {p : ℕ} (hnodup : (runs.map Prod.fst).Nodup)
    (hp : p ∈ runs.map Prod.fst) :
    (runs.map Prod.fst).Perm (p :: (runs.filter fun r => r.1 ≠ p).map Prod.fst) := by
  have herase : (runs.filter fun r => r.1 ≠ p).map Prod.fst = (runs.map Prod.fst).erase p := by
    rw [hnodup.erase_eq_filter, List.filter_map]
    refine congrArg (List.map Prod.fst) (List.filter_congr fun r _ => ?_)
    rcases eq_or_ne r.1 p with hr | hr
    · rw [decide_eq_false (not_not.mpr hr)]
      exact (bne_eq_false_iff_eq.mpr hr).symm
    · rw [decide_eq_true hr]
      exact (bne_iff_ne.mpr hr).symm
  rw [herase]
  exact List.perm_cons_erase hp

/-- A call for pages: `n` off the counter of the list `l`, which is given pages if it is
`short`. -/
structure Request where
  n : ℕ
  l : ℕ
  short : Bool × ℤ
  malloc : Malloc
  next : Option ℕ

def Label.request (m : Store) : Label → Option Request
  | .allocSinglePage l next a => some ⟨1, l, m.shortSingle l, a, next⟩
  | .allocPages n l next a => some ⟨n, l, m.shortPages n l, a, next⟩
  | .freeSinglePage _ _ | .freePages _ _ => none

/-- A call that gives the page `p` back to the list `l`, with `n` added to the counter. -/
structure Release where
  p : ℕ
  l : ℕ
  n : ℕ

def Label.release (m : Store) : Label → Option Release
  | .freeSinglePage p l => some ⟨p, l, 1⟩
  | .freePages p l => some ⟨p, l, (m.page p).pagecount⟩
  | .allocSinglePage _ _ _ | .allocPages _ _ _ _ => none

/-- The pages of the list after it has been given pages. -/
def Request.pages (r : Request) (m : Store) (free : ℕ → List ℕ) : List ℕ :=
  added m r.short r.malloc ++ free r.l

/-- The counter of the list after it has been given pages. -/
def Request.count (r : Request) (m : Store) : ℕ :=
  if r.short.1 then (m.pageCount r.l + (added m r.short r.malloc).length) % 2 ^ 32
  else m.pageCount r.l

section Step

variable {s s' : State} {label : Label}

/-- What a call for pages does. -/
theorem step_request {r : Request} (hr : label.request s.mem = some r)
    (hstep : step s label = some s') :
    ∃ p, ((s.mem.refill r.short.1 r.malloc r.short.2 r.l).bind fun m =>
        m.take r.l r.n r.next) = some (p, s'.mem) ∧
      s'.blocks = s.mem.asked r.short r.malloc ++ s.blocks ∧ s'.out.Perm (p :: s.out) := by
  cases label with
  | allocSinglePage l next a =>
    cases hr
    rw [step, Option.map_eq_some_iff] at hstep
    obtain ⟨⟨p, m⟩, heq, rfl⟩ := hstep
    exact ⟨p, heq, rfl, .refl _⟩
  | allocPages n l next a =>
    cases hr
    rw [step, Option.map_eq_some_iff] at hstep
    obtain ⟨⟨p, m⟩, heq, rfl⟩ := hstep
    exact ⟨p, heq, rfl, List.perm_middle⟩
  | freeSinglePage p l => cases hr
  | freePages p l => cases hr

/-- A call for pages returns when it gets a page. -/
theorem step_of_request {r : Request} (hr : label.request s.mem = some r) {p : ℕ} {m : Store}
    (heq : ((s.mem.refill r.short.1 r.malloc r.short.2 r.l).bind fun m =>
      m.take r.l r.n r.next) = some (p, m)) : ∃ s', step s label = some s' := by
  cases label with
  | allocSinglePage l next a =>
    cases hr
    exact ⟨_, congrArg (Option.map _) heq⟩
  | allocPages n l next a =>
    cases hr
    exact ⟨_, congrArg (Option.map _) heq⟩
  | freeSinglePage p l => cases hr
  | freePages p l => cases hr

/-- What is promised about a call for pages. -/
theorem Legal.request (h : Legal s label) {r : Request} (hr : label.request s.mem = some r) :
    (∀ b ∈ s.mem.asked r.short r.malloc, Fresh s.blocks b) ∧
      1 ≤ r.n ∧ r.n < 2 ^ 31 ∧ -2 ^ 31 ≤ r.short.2 ∧ r.short.2 < 2 ^ 31 := by
  cases label with
  | allocSinglePage l next a =>
    cases hr
    refine ⟨h, Nat.le_refl 1, Nat.one_lt_two_pow (Nat.succ_ne_zero 30), ?_⟩
    dsimp only [Store.shortSingle]
    exact Store.toInt_bounds _
  | allocPages n l next a =>
    cases hr
    refine ⟨h.2.2, h.1, h.2.1, ?_⟩
    dsimp only [Store.shortPages]
    exact Store.toInt_bounds _
  | freeSinglePage p l => cases hr
  | freePages p l => cases hr

/-- What a call that frees does. -/
theorem step_release {r : Release} (hr : label.release s.mem = some r) (hlegal : Legal s label)
    (hnodup : s.out.Nodup) (hstep : step s label = some s') :
    s'.mem = (s.mem.push r.l r.p).count r.l r.n ∧ s'.blocks = s.blocks ∧
      s.out.Perm (r.p :: s'.out) := by
  cases label with
  | allocSinglePage l next a => cases hr
  | allocPages n l next a => cases hr
  | freeSinglePage p l =>
    cases hr
    cases hstep
    exact ⟨rfl, rfl, (List.perm_cons_erase hlegal).append_right _⟩
  | freePages p l =>
    cases hr
    cases hstep
    have hpage : ((s.mem.push l p).page p).pagecount = (s.mem.page p).pagecount := by
      show (Store.page (s.mem.modify p fun h =>
        { h with next := (s.mem.singlePages l).pages }) p).pagecount = _
      rw [Store.page_modify_self]
    refine ⟨?_, rfl, ?_⟩
    · show (s.mem.push l p).count l ((s.mem.push l p).page p).pagecount = _
      rw [hpage]
    · have hruns := perm_filter_runs (hnodup.of_append_right) hlegal
      exact (hruns.append_left s.pagesOut).trans List.perm_middle

end Step

namespace Inv

variable {s s' : State} {free : ℕ → List ℕ} {label : Label}

/-- The list of a call for pages, before a page is taken off it. -/
theorem refilled (h : Inv s free) (hlegal : Legal s label) {r : Request}
    (hr : label.request s.mem = some r) (hpos : r.short.1 = true → 0 < r.short.2) :
    ∃ m, s.mem.refill r.short.1 r.malloc r.short.2 r.l = some m ∧
      Inv { s with mem := m, blocks := s.mem.asked r.short r.malloc ++ s.blocks }
        (Function.update free r.l (r.pages s.mem free)) ∧
      m.pageCount r.l = r.count s.mem ∧ ∀ j, j ≠ r.l → m.pageCount j = s.mem.pageCount j := by
  obtain ⟨hfresh, -, -, -, hlt⟩ := hlegal.request hr
  obtain ⟨m, heq, hinv, hcount⟩ := h.refill r.l hfresh hlt hpos
  refine ⟨m, heq, hinv, ?_, fun j hj => ?_⟩
  · rw [hcount, Request.count]
    split_ifs
    · rw [Function.update_self]
    · rfl
  · rw [hcount]
    split_ifs
    · rw [Function.update_of_ne hj]
    · rfl

/-- The `int` is positive, or the call does not return. -/
theorem pos_of_step (hlegal : Legal s label) {r : Request}
    (hr : label.request s.mem = some r) (hstep : step s label = some s') :
    r.short.1 = true → 0 < r.short.2 := by
  intro hshort
  obtain ⟨-, -, -, hlow, -⟩ := hlegal.request hr
  obtain ⟨p, heq, -⟩ := step_request hr hstep
  by_contra hneg
  rw [hshort, Store.refill_eq_none (Int.not_lt.mp hneg) hlow] at heq
  cases heq

/-- **A call for pages** hands out the first page of the list, after the list has been
given pages. -/
theorem request (h : Inv s free) (hlegal : Legal s label) {r : Request}
    (hr : label.request s.mem = some r) (hstep : step s label = some s') :
    ∃ p xs, r.pages s.mem free = p :: xs ∧ Inv s' (Function.update free r.l xs) ∧
      s'.out.Perm (p :: s.out) ∧
      s'.mem.pageCount = Function.update s.mem.pageCount r.l
        ((r.count s.mem + 2 ^ 32 - r.n) % 2 ^ 32) ∧
      ((s.mem.refill r.short.1 r.malloc r.short.2 r.l).bind fun m =>
        m.take r.l r.n r.next) = some (p, s'.mem) ∧
      s'.blocks = s.mem.asked r.short r.malloc ++ s.blocks := by
  obtain ⟨m, hm, hinv, hcount, hother⟩ := h.refilled hlegal hr (pos_of_step hlegal hr hstep)
  obtain ⟨p, hreturn, hblocks, hout⟩ := step_request hr hstep
  have heq := hreturn
  rw [hm, Option.bind_some] at heq
  have hself : Function.update free r.l (r.pages s.mem free) r.l = r.pages s.mem free :=
    Function.update_self ..
  have hchain := hinv.lists.chain r.l
  rw [hself] at hchain
  cases hpages : r.pages s.mem free with
  | nil =>
    rw [hpages] at hchain
    rw [Store.take_eq_none hchain] at heq
    cases heq
  | cons q xs =>
    obtain ⟨m', htake, hinv', hcount'⟩ := hinv.take (hself.trans hpages) r.n r.next
    obtain ⟨rfl, rfl⟩ : q = p ∧ m' = s'.mem := by
      rw [heq] at htake
      cases htake
      exact ⟨rfl, rfl⟩
    have hinv'' := hinv' s' rfl hblocks hout
    rw [Function.update_idem] at hinv''
    refine ⟨q, xs, rfl, hinv'', hout, ?_, hreturn, hblocks⟩
    rw [hcount']
    show Function.update m.pageCount r.l ((m.pageCount r.l + 2 ^ 32 - r.n) % 2 ^ 32) = _
    rw [hcount]
    funext j
    rcases eq_or_ne j r.l with rfl | hj
    · rw [Function.update_self, Function.update_self]
    · rw [Function.update_of_ne hj, Function.update_of_ne hj, hother j hj]

/-- A call for pages returns when the `int` is positive and the list is not empty. -/
theorem exists_step (h : Inv s free) (hlegal : Legal s label) {r : Request}
    (hr : label.request s.mem = some r) (hpos : r.short.1 = true → 0 < r.short.2)
    (hpages : r.pages s.mem free ≠ []) :
    (∃ s', step s label = some s') ∧
      ∃ m, s.mem.refill r.short.1 r.malloc r.short.2 r.l = some m ∧
        m.head r.l ≠ none ∧ m.pageCount r.l = r.count s.mem := by
  obtain ⟨m, hm, hinv, hcount, -⟩ := h.refilled hlegal hr hpos
  have hself : Function.update free r.l (r.pages s.mem free) r.l = r.pages s.mem free :=
    Function.update_self ..
  obtain ⟨p, xs, hcons⟩ := List.exists_cons_of_ne_nil hpages
  obtain ⟨m', htake, -⟩ := hinv.take (hself.trans hcons) r.n r.next
  have hchain := hinv.lists.chain r.l
  rw [hself, hcons] at hchain
  refine ⟨step_of_request hr (p := p) (m := m') ?_, m, hm, ?_, hcount⟩
  · rw [hm, Option.bind_some]
    exact htake
  · exact fun hnone => Option.some_ne_none p (hchain.1.symm.trans hnone)

/-- **A call that frees** puts its page in front of the list. -/
theorem release (h : Inv s free) (hlegal : Legal s label) {r : Release}
    (hr : label.release s.mem = some r) (hstep : step s label = some s') :
    Inv s' (Function.update free r.l (r.p :: free r.l)) ∧ s.out.Perm (r.p :: s'.out) ∧
      s'.mem.pageCount =
        Function.update s.mem.pageCount r.l ((s.mem.pageCount r.l + r.n) % 2 ^ 32) := by
  obtain ⟨hmem, hblocks, hout⟩ := step_release hr hlegal h.out_nodup hstep
  refine ⟨h.push r.l r.n hmem hblocks hout, hout, ?_⟩
  rw [hmem, Store.pageCount_count, Store.pageCount_push]

/-- **One call.** -/
theorem step (h : Inv s free) (hlegal : Legal s label) (hstep : Pages.step s label = some s') :
    ∃ free', Inv s' free' := by
  cases label with
  | allocSinglePage l next a =>
    obtain ⟨p, xs, -, hinv, -⟩ := h.request hlegal rfl hstep
    exact ⟨_, hinv⟩
  | allocPages n l next a =>
    obtain ⟨p, xs, -, hinv, -⟩ := h.request hlegal rfl hstep
    exact ⟨_, hinv⟩
  | freeSinglePage p l => exact ⟨_, (h.release hlegal rfl hstep).1⟩
  | freePages p l => exact ⟨_, (h.release hlegal rfl hstep).1⟩

end Inv

/-- **Every history.** -/
theorem inv_of_run {totalPageCount : ℕ} {page : ℕ → Page} {s : State}
    (run : Run step Legal (init totalPageCount page) s) : ∃ free, Inv s free := by
  refine run.invariant (I := fun s => ∃ free, Inv s free) ⟨_, inv_init totalPageCount page⟩ ?_
  rintro s label s' ⟨free, hinv⟩ hlegal hstep
  exact hinv.step hlegal hstep

end Pages
end Region
end Partee
