import Partee.Region.Heap
import Partee.Region.Grants
import Partee.Region.Undisturbed

/-!
# Whose a page is

Every page that is handed out belongs to one region, which has it on one of its two lists
and in the map.  `Owned` says so; it depends on few of the fields of a state, so most of
what a call does is covered by `Owned.congr`.  What is left is a page more
(`Owned.setPages`, `Owned.setBigpages`), a new region (`Owned.newsubregion`) and a deletion
(`Owned.delregion`).
-/

namespace Partee
namespace Region
namespace Heap

open Transition Memory Pages
open Delete (Header Mem Field Owns SameLists)

/-- The regions have the pages `singles` and the runs `bigs`, and nothing else is handed
out. -/
structure Owned (s : State) (singles bigs : ℕ → List ℕ) : Prop where
  inv : ∃ free, Pages.Inv s.pages free
  nodup : s.regions.Nodup
  owns : ∀ r ∈ s.regions, Owns s.mem r (singles r) (bigs r)
  apart : ∀ r ∈ s.regions, ∀ r' ∈ s.regions, r ≠ r' →
    ∀ p ∈ singles r ++ bigs r, p ∉ singles r' ++ bigs r'
  single : ∀ p, p ∈ s.pages.pagesOut ↔ ∃ r ∈ s.regions, p ∈ singles r
  run : ∀ p, p ∈ s.pages.runsOut.map Prod.fst ↔ ∃ r ∈ s.regions, p ∈ bigs r
  one : ∀ run ∈ s.pages.runsOut, run.2 = 1
  map : ∀ r ∈ s.regions, ∀ p ∈ singles r ++ bigs r, entry s.map p = some r

/-- What `Owned` depends on is the same in both states. -/
structure SameOwners (s s' : State) : Prop where
  next : s'.pages.mem.next = s.pages.mem.next
  head : s'.pages.mem.head = s.pages.mem.head
  pageCount : s'.pages.mem.pageCount = s.pages.mem.pageCount
  blocks : s'.pages.blocks = s.pages.blocks
  pagesOut : s'.pages.pagesOut = s.pages.pagesOut
  runsOut : s'.pages.runsOut = s.pages.runsOut
  regions : s'.regions = s.regions
  map : s'.map = s.map
  pages : ∀ r ∈ s.regions, (s'.header r).pages = (s.header r).pages
  bigpages : ∀ r ∈ s.regions, (s'.header r).bigpages = (s.header r).bigpages

variable {s s' : State} {singles bigs : ℕ → List ℕ} {r p l : ℕ} {a : Malloc}

/-- A page the page allocator has got lies below `2 ^ 64`. -/
theorem end_le (h : ∃ free, Pages.Inv s.pages free) (hp : p ∈ s.pages.out) :
    (p + 1) * rPageSize ≤ 2 ^ 64 := by
  obtain ⟨free, hinv⟩ := h
  obtain ⟨b, hb, -, hlt⟩ := hinv.out_obtained p hp
  have hwf := hinv.blocks b hb
  calc (p + 1) * rPageSize ≤ (b.first + b.count) * rPageSize := Nat.mul_le_mul_right _ hlt
    _ ≤ b.mem + b.bytes := hwf.last
    _ ≤ 2 ^ 64 := hwf.bytes

/-- One page is marked in the map. -/
theorem entry_setRegion {ρ : Type*} (m : RegionMap ρ) (x : ρ) (hp : (p + 1) * rPageSize ≤ 2 ^ 64)
    (q : ℕ) : entry (Region.setRegion m (p * rPageSize) (1 : ℕ) x) q =
      if q = p then x else entry m q := by
  have hpos : 0 < rPageSize := by decide
  have haddress : mapnb (p * rPageSize) * rMaxPage + pagenb (p * rPageSize) = p := by
    rw [mapnb_pagenb (by rw [Nat.succ_mul] at hp; omega), Nat.mul_div_cancel _ hpos]
  rw [Region.setRegion, Int.toNat_natCast, entry_setRegionLoop, haddress]
  exact if_congr (by omega) rfl rfl

namespace Owned

theorem mem_out (h : Owned s singles bigs) (hr : r ∈ s.regions) (hp : p ∈ singles r ++ bigs r) :
    p ∈ s.pages.out := by
  rcases List.mem_append.mp hp with hp | hp
  · exact List.mem_append_left _ ((h.single p).mpr ⟨r, hr, hp⟩)
  · exact List.mem_append_right _ ((h.run p).mpr ⟨r, hr, hp⟩)

/-- A region is named by its first page. -/
theorem region_out (h : Owned s singles bigs) (hr : r ∈ s.regions) : r ∈ s.pages.out :=
  h.mem_out hr (List.mem_append_left _ (h.owns r hr).first)

/-- Whose a page is. -/
theorem exists_owner (h : Owned s singles bigs) (hp : p ∈ s.pages.out) :
    ∃ r ∈ s.regions, p ∈ singles r ++ bigs r := by
  rcases List.mem_append.mp hp with hp | hp
  · obtain ⟨r, hr, hp⟩ := (h.single p).mp hp
    exact ⟨r, hr, List.mem_append_left _ hp⟩
  · obtain ⟨r, hr, hp⟩ := (h.run p).mp hp
    exact ⟨r, hr, List.mem_append_right _ hp⟩

theorem congr (h : Owned s singles bigs) (hsame : SameOwners s s') : Owned s' singles bigs where
  inv := by
    obtain ⟨free, hinv⟩ := h.inv
    have hout : s'.pages.out = s.pages.out := by
      rw [Pages.State.out, Pages.State.out, hsame.pagesOut, hsame.runsOut]
    have hobtained : ∀ p, s.pages.Obtained p → s'.pages.Obtained p := by
      intro p hp
      rw [Pages.State.Obtained, hsame.blocks]
      exact hp
    refine ⟨free, ?_, ?_, ?_, fun l p hp => hobtained p (hinv.free_obtained l p hp), ?_, ?_, ?_⟩
    · rw [hsame.next, hsame.head]
      exact hinv.lists
    · rw [hout]
      exact hinv.out_nodup
    · rw [hout]
      exact hinv.free_out
    · rw [hout]
      exact fun p hp => hobtained p (hinv.out_obtained p hp)
    · rw [hsame.blocks]
      exact hinv.blocks
    · rw [hsame.pageCount]
      exact hinv.count_lt
  nodup := by
    rw [hsame.regions]
    exact h.nodup
  owns := by
    intro r hr
    rw [hsame.regions] at hr
    obtain ⟨hpages, hruns, hnodup, hfirst⟩ := h.owns r hr
    refine ⟨?_, ?_, hnodup, hfirst⟩
    · show Chain s'.pages.mem.next (s'.header r).pages (singles r)
      rw [hsame.next, hsame.pages r hr]
      exact hpages
    · show Chain s'.pages.mem.next (s'.header r).bigpages (bigs r)
      rw [hsame.next, hsame.bigpages r hr]
      exact hruns
  apart := by
    rw [hsame.regions]
    exact h.apart
  single := by
    rw [hsame.pagesOut, hsame.regions]
    exact h.single
  run := by
    rw [hsame.runsOut, hsame.regions]
    exact h.run
  one := by
    rw [hsame.runsOut]
    exact h.one
  map := by
    rw [hsame.regions, hsame.map]
    exact h.map

end Owned

/-! ## What does not matter -/

theorem SameOwners.refl (s : State) : SameOwners s s :=
  ⟨rfl, rfl, rfl, rfl, rfl, rfl, rfl, rfl, fun _ _ => rfl, fun _ _ => rfl⟩

theorem SameOwners.trans {s₁ s₂ s₃ : State} (h : SameOwners s₁ s₂) (h' : SameOwners s₂ s₃) :
    SameOwners s₁ s₃ where
  next := h'.next.trans h.next
  head := h'.head.trans h.head
  pageCount := h'.pageCount.trans h.pageCount
  blocks := h'.blocks.trans h.blocks
  pagesOut := h'.pagesOut.trans h.pagesOut
  runsOut := h'.runsOut.trans h.runsOut
  regions := h'.regions.trans h.regions
  map := h'.map.trans h.map
  pages r hr := (h'.pages r (h.regions ▸ hr)).trans (h.pages r hr)
  bigpages r hr := (h'.bigpages r (h.regions ▸ hr)).trans (h.bigpages r hr)

/-- A write to the links between the regions. -/
theorem sameOwners_put {m : Mem} (h : SameLists s.mem m) : SameOwners s (s.put m) := by
  have hstore : m.store = s.pages.mem := h.store
  refine ⟨?_, ?_, ?_, rfl, rfl, rfl, rfl, rfl, fun r _ => h.pages r, fun r _ => h.bigpages r⟩
  · exact congrArg Store.next hstore
  · exact congrArg Store.head hstore
  · exact congrArg Store.pageCount hstore

theorem sameOwners_setBlock (s : State) (r : ℕ) (blk : Ablock) :
    SameOwners s (s.setBlock r blk) :=
  ⟨rfl, rfl, rfl, rfl, rfl, rfl, rfl, rfl, fun _ _ => rfl, fun _ _ => rfl⟩

theorem sameOwners_byte (s : State) (b : Bytes) : SameOwners s { s with byte := b } :=
  ⟨rfl, rfl, rfl, rfl, rfl, rfl, rfl, rfl, fun _ _ => rfl, fun _ _ => rfl⟩

/-- A `list_id` is only looked at while a list is given pages. -/
theorem sameOwners_overrun (s : State) (p stop : ℕ) : SameOwners s (s.overrun p stop) := by
  rw [State.overrun]
  dsimp only
  split_ifs
  · exact .refl s
  · refine ⟨?_, rfl, rfl, rfl, rfl, rfl, rfl, rfl, fun _ _ => rfl, fun _ _ => rfl⟩
    show (s.pages.mem.modify (p + 1) fun h => { h with listId := _ }).next = s.pages.mem.next
    rw [Store.next_modify]
    exact Function.update_eq_self (p + 1) s.pages.mem.next

theorem sameOwners_clear (s : State) (start size : ℕ) : SameOwners s (s.clear start size) :=
  (sameOwners_byte s _).trans (sameOwners_overrun _ _ _)

/-- A page is cleared in which no region has its header. -/
theorem header_clearPages (hp : p ∉ s.regions) (start : ℕ) (hr : r ∈ s.regions) :
    (s.clearPages p 1 start).header r = s.header r := by
  have hne : ¬ (p ≤ r ∧ r < p + 1) := by
    rintro ⟨hle, hlt⟩
    obtain rfl : p = r := by omega
    exact hp hr
  exact if_neg hne

theorem sameOwners_clearPages (hp : p ∉ s.regions) (start : ℕ) :
    SameOwners s (s.clearPages p 1 start) := by
  have hpage : (s.clearPages p 1 start).pages.mem.next = s.pages.mem.next := by
    funext q
    have hne : ¬ (p < q ∧ q < p + 1) := by omega
    show (if p < q ∧ q < p + 1 then (⟨0, none, 0, false⟩ : Page) else _).next = _
    rw [if_neg hne]
    rfl
  refine ⟨hpage, rfl, rfl, rfl, rfl, rfl, rfl, rfl, fun r hr => ?_, fun r hr => ?_⟩
  · rw [header_clearPages hp start hr]
  · rw [header_clearPages hp start hr]

/-! ## A page more -/

/-- A call for a page, as one for a region. -/
theorem allocSinglePage_eq {next : Option ℕ}
    (heq : s.allocSinglePage next l a = some (p, s')) :
    ∃ pages, Pages.step s.pages (.allocSinglePage l next a) = some pages ∧
      s.pages.mem.allocSinglePage a l next = some (p, pages.mem) ∧
      pages.pagesOut = p :: s.pages.pagesOut ∧ pages.runsOut = s.pages.runsOut ∧
      s' = { s with pages := pages } := by
  rw [State.allocSinglePage, Option.bind_eq_some_iff] at heq
  obtain ⟨⟨q, m⟩, hreturn, heq⟩ := heq
  rw [Option.map_eq_some_iff] at heq
  obtain ⟨pages, hstep, heq⟩ := heq
  cases heq
  refine ⟨pages, hstep, ?_⟩
  rw [Pages.step, hreturn] at hstep
  cases hstep
  exact ⟨hreturn, rfl, rfl, rfl⟩

theorem allocPages_eq {n : ℕ} {next : Option ℕ} (heq : s.allocPages n next l a = some (p, s')) :
    ∃ pages, Pages.step s.pages (.allocPages n l next a) = some pages ∧
      s.pages.mem.allocPages a n l next = some (p, pages.mem) ∧
      pages.pagesOut = s.pages.pagesOut ∧ pages.runsOut = (p, n) :: s.pages.runsOut ∧
      s' = { s with pages := pages } := by
  rw [State.allocPages, Option.bind_eq_some_iff] at heq
  obtain ⟨⟨q, m⟩, hreturn, heq⟩ := heq
  rw [Option.map_eq_some_iff] at heq
  obtain ⟨pages, hstep, heq⟩ := heq
  cases heq
  refine ⟨pages, hstep, ?_⟩
  rw [Pages.step, hreturn] at hstep
  cases hstep
  exact ⟨hreturn, rfl, rfl, rfl⟩

/-- What a call for a page does: the page was not handed out, it is linked as it is told to,
and the rest of the state stays. -/
structure Grant (s : State) (next : Option ℕ) (p : ℕ) (s' : State) : Prop where
  inv : ∃ free, Pages.Inv s'.pages free
  fresh : p ∉ s.pages.out
  out : p ∈ s'.pages.out
  next_self : s'.pages.mem.next p = next
  next_of_mem : ∀ q ∈ s.pages.out, s'.pages.mem.next q = s.pages.mem.next q
  rest : s' = { s with pages := s'.pages }

theorem grant_single (h : ∃ free, Pages.Inv s.pages free) {next : Option ℕ}
    (hlegal : Pages.Legal s.pages (.allocSinglePage l next a))
    (heq : s.allocSinglePage next l a = some (p, s')) : Grant s next p s' := by
  obtain ⟨free, hinv⟩ := h
  obtain ⟨pages, hstep, hreturn, hpages, -, rfl⟩ := allocSinglePage_eq heq
  obtain ⟨q, free', hreturn', hinv', hfresh, hself, hother⟩ := hinv.next_request hlegal rfl hstep
  obtain ⟨rfl, -⟩ := Prod.mk.inj (Option.some.inj (hreturn.symm.trans hreturn'))
  refine ⟨⟨free', hinv'⟩, hfresh, ?_, hself, hother, rfl⟩
  refine List.mem_append_left _ ?_
  rw [hpages]
  exact List.mem_cons_self

theorem grant_run (h : ∃ free, Pages.Inv s.pages free) {n : ℕ} {next : Option ℕ}
    (hlegal : Pages.Legal s.pages (.allocPages n l next a))
    (heq : s.allocPages n next l a = some (p, s')) : Grant s next p s' := by
  obtain ⟨free, hinv⟩ := h
  obtain ⟨pages, hstep, hreturn, -, hruns, rfl⟩ := allocPages_eq heq
  obtain ⟨q, free', hreturn', hinv', hfresh, hself, hother⟩ := hinv.next_request hlegal rfl hstep
  obtain ⟨rfl, -⟩ := Prod.mk.inj (Option.some.inj (hreturn.symm.trans hreturn'))
  refine ⟨⟨free', hinv'⟩, hfresh, ?_, hself, hother, rfl⟩
  refine List.mem_append_right _ ?_
  rw [hruns, List.map_cons]
  exact List.mem_cons_self

/-- A family of lists, one of which is given a page more. -/
theorem mem_update_cons {xs : ℕ → List ℕ} {q : ℕ} :
    q ∈ Function.update xs r (p :: xs r) l ↔ q ∈ xs l ∨ l = r ∧ q = p := by
  rcases eq_or_ne l r with rfl | hl
  · rw [Function.update_self, List.mem_cons, or_comm]
    exact or_congr_right (and_iff_right rfl).symm
  · rw [Function.update_of_ne hl]
    exact ⟨Or.inl, fun h => h.resolve_right fun h => hl h.1⟩

theorem exists_mem_cons {xs : ℕ → List ℕ} {regions : List ℕ} (hr : r ∈ regions) {q : ℕ} :
    (q = p ∨ ∃ r' ∈ regions, q ∈ xs r') ↔
      ∃ r' ∈ regions, q ∈ Function.update xs r (p :: xs r) r' := by
  constructor
  · rintro (rfl | ⟨r', hr', hq⟩)
    · exact ⟨r, hr, mem_update_cons.mpr (.inr ⟨rfl, rfl⟩)⟩
    · exact ⟨r', hr', mem_update_cons.mpr (.inl hq)⟩
  · rintro ⟨r', hr', hq⟩
    rcases mem_update_cons.mp hq with hq | ⟨-, rfl⟩
    · exact .inr ⟨r', hr', hq⟩
    · exact .inl rfl

namespace Owned

/-- A page that no region has, added to the pages of one of them. -/
theorem apart_cons (h : Owned s singles bigs) {own : ℕ → List ℕ}
    (hfresh : ∀ r' ∈ s.regions, p ∉ singles r' ++ bigs r')
    (hmem : ∀ r' q, q ∈ own r' ↔ q ∈ singles r' ++ bigs r' ∨ r' = r ∧ q = p) :
    ∀ r₁ ∈ s.regions, ∀ r₂ ∈ s.regions, r₁ ≠ r₂ → ∀ q ∈ own r₁, q ∉ own r₂ := by
  intro r₁ hr₁ r₂ hr₂ hne q hq hq'
  rw [hmem] at hq hq'
  rcases hq with hq | ⟨rfl, rfl⟩
  · rcases hq' with hq' | ⟨rfl, rfl⟩
    · exact h.apart r₁ hr₁ r₂ hr₂ hne q hq hq'
    · exact hfresh r₁ hr₁ hq
  · rcases hq' with hq' | ⟨rfl, -⟩
    · exact hfresh r₂ hr₂ hq'
    · exact hne rfl

/-- It is marked as a page of that region. -/
theorem map_cons (h : Owned s singles bigs) {own : ℕ → List ℕ}
    (hfresh : ∀ r' ∈ s.regions, p ∉ singles r' ++ bigs r') (hend : (p + 1) * rPageSize ≤ 2 ^ 64)
    (hmem : ∀ r' q, q ∈ own r' ↔ q ∈ singles r' ++ bigs r' ∨ r' = r ∧ q = p) :
    ∀ r' ∈ s.regions, ∀ q ∈ own r',
      entry (Region.setRegion s.map (p * rPageSize) (1 : ℕ) (some r)) q = some r' := by
  intro r' hr' q hq
  rw [entry_setRegion s.map (some r) hend]
  rcases (hmem r' q).mp hq with hq | ⟨rfl, rfl⟩
  · have hne : q ≠ p := fun h => hfresh r' hr' (h ▸ hq)
    rw [if_neg hne]
    exact h.map r' hr' q hq
  · rw [if_pos rfl]

/-- The other regions do not notice a page that was not handed out. -/
theorem owns_of_grant (h : Owned s singles bigs) {next : Option ℕ} (hgrant : Grant s next p s')
    {r' : ℕ} (hr' : r' ∈ s.regions) {header : Header}
    (hpages : header.pages = (s.header r').pages)
    (hbigpages : header.bigpages = (s.header r').bigpages) {m : Mem}
    (hstore : m.store = s'.pages.mem) (hheader : m.header r' = header) :
    Owns m r' (singles r') (bigs r') := by
  obtain ⟨hchain, hruns, hnodup, hfirst⟩ := h.owns r' hr'
  have hnext : ∀ q ∈ singles r' ++ bigs r', m.store.next q = s.mem.store.next q := by
    intro q hq
    rw [hstore]
    exact hgrant.next_of_mem q (h.mem_out hr' hq)
  refine ⟨?_, ?_, hnodup, hfirst⟩
  · rw [hheader, hpages]
    exact hchain.congr fun q hq => hnext q (List.mem_append_left _ hq)
  · rw [hheader, hbigpages]
    exact hruns.congr fun q hq => hnext q (List.mem_append_right _ hq)

/-- **A region takes a page more.** -/
theorem setPages (h : Owned s singles bigs) (hr : r ∈ s.regions)
    (hlegal : Pages.Legal s.pages (.allocSinglePage l (s.header r).pages a))
    (heq : s.allocSinglePage (s.header r).pages l a = some (p, s')) :
    Owned ((s'.put (s'.mem.modify r fun h => { h with pages := some p })).setRegion p 1 r)
      (Function.update singles r (p :: singles r)) bigs := by
  have hgrant := grant_single h.inv hlegal heq
  have hend := end_le hgrant.inv hgrant.out
  obtain ⟨pages, -, -, hpages, hruns, rfl⟩ := allocSinglePage_eq heq
  have hfresh : ∀ r' ∈ s.regions, p ∉ singles r' ++ bigs r' := fun r' hr' hp =>
    hgrant.fresh (h.mem_out hr' hp)
  have hmem : ∀ r' q, q ∈ Function.update singles r (p :: singles r) r' ++ bigs r' ↔
      q ∈ singles r' ++ bigs r' ∨ r' = r ∧ q = p := by
    intro r' q
    rw [List.mem_append, mem_update_cons, List.mem_append, or_right_comm]
  refine ⟨hgrant.inv, h.nodup, fun r' hr' => ?_, ?_, fun q => ?_, fun q => ?_, ?_, ?_⟩
  · rcases eq_or_ne r' r with rfl | hne
    · rw [Function.update_self]
      have howns := h.owns_of_grant hgrant hr rfl rfl (m := ⟨pages.mem, s.header⟩) rfl rfl
      exact howns.setPages (hfresh r' hr) hgrant.next_self
    · rw [Function.update_of_ne hne]
      have hheader := Mem.header_modify_of_ne ⟨pages.mem, s.header⟩ hne
        fun h => { h with pages := some p }
      exact h.owns_of_grant hgrant hr' rfl rfl rfl hheader
  · exact h.apart_cons hfresh hmem
  · show q ∈ pages.pagesOut ↔ _
    rw [hpages, List.mem_cons, h.single]
    exact exists_mem_cons hr
  · show q ∈ pages.runsOut.map Prod.fst ↔ _
    rw [hruns]
    exact h.run q
  · show ∀ run ∈ pages.runsOut, run.2 = 1
    rw [hruns]
    exact h.one
  · exact h.map_cons hfresh hend hmem

/-- **A region takes a run more**, of one page. -/
theorem setBigpages (h : Owned s singles bigs) (hr : r ∈ s.regions)
    (hlegal : Pages.Legal s.pages (.allocPages 1 l (s.header r).bigpages a))
    (heq : s.allocPages 1 (s.header r).bigpages l a = some (p, s')) :
    Owned ((s'.put (s'.mem.modify r fun h => { h with bigpages := some p })).setRegion p 1 r)
      singles (Function.update bigs r (p :: bigs r)) := by
  have hgrant := grant_run h.inv hlegal heq
  have hend := end_le hgrant.inv hgrant.out
  obtain ⟨pages, -, -, hpages, hruns, rfl⟩ := allocPages_eq heq
  have hfresh : ∀ r' ∈ s.regions, p ∉ singles r' ++ bigs r' := fun r' hr' hp =>
    hgrant.fresh (h.mem_out hr' hp)
  have hmem : ∀ r' q, q ∈ singles r' ++ Function.update bigs r (p :: bigs r) r' ↔
      q ∈ singles r' ++ bigs r' ∨ r' = r ∧ q = p := by
    intro r' q
    rw [List.mem_append, mem_update_cons, List.mem_append, or_assoc]
  refine ⟨hgrant.inv, h.nodup, fun r' hr' => ?_, ?_, fun q => ?_, fun q => ?_, ?_, ?_⟩
  · rcases eq_or_ne r' r with rfl | hne
    · rw [Function.update_self]
      have howns := h.owns_of_grant hgrant hr rfl rfl (m := ⟨pages.mem, s.header⟩) rfl rfl
      exact howns.setBigpages (hfresh r' hr) hgrant.next_self
    · rw [Function.update_of_ne hne]
      have hheader := Mem.header_modify_of_ne ⟨pages.mem, s.header⟩ hne
        fun h => { h with bigpages := some p }
      exact h.owns_of_grant hgrant hr' rfl rfl rfl hheader
  · exact h.apart_cons hfresh hmem
  · show q ∈ pages.pagesOut ↔ _
    rw [hpages]
    exact h.single q
  · show q ∈ pages.runsOut.map Prod.fst ↔ _
    rw [hruns, List.map_cons, List.mem_cons, h.run]
    exact exists_mem_cons hr
  · show ∀ run ∈ pages.runsOut, run.2 = 1
    rw [hruns]
    intro run hrun
    rcases List.mem_cons.mp hrun with rfl | hrun
    · rfl
    · exact h.one run hrun
  · exact h.map_cons hfresh hend hmem

end Owned

/-! ## A new region -/

/-- **A new region** has its first page. -/
theorem Owned.newsubregion (h : Owned s singles bigs)
    (hlegal : Pages.Legal s.pages (.allocSinglePage l none a))
    (heq : s.allocSinglePage none l a = some (r, s')) :
    Owned { initregion (s'.put (s'.mem.postclear r)) r with regions := r :: s.regions }
      (Function.update singles r [r]) (Function.update bigs r []) := by
  have hgrant := grant_single h.inv hlegal heq
  have hend := end_le hgrant.inv hgrant.out
  obtain ⟨pages, -, -, hpages, hruns, rfl⟩ := allocSinglePage_eq heq
  have hr : ∀ r' ∈ s.regions, r' ≠ r := by
    rintro r' hr' rfl
    exact hgrant.fresh (h.region_out hr')
  have hsingles : ∀ r' ∈ s.regions, Function.update singles r [r] r' = singles r' :=
    fun r' hr' => Function.update_of_ne (hr r' hr') ..
  have hbigs : ∀ r' ∈ s.regions, Function.update bigs r [] r' = bigs r' :=
    fun r' hr' => Function.update_of_ne (hr r' hr') ..
  have hfresh : ∀ r' ∈ s.regions, r ∉ singles r' ++ bigs r' := fun r' hr' hp =>
    hgrant.fresh (h.mem_out hr' hp)
  refine ⟨hgrant.inv, ?_, ?_, ?_, fun q => ?_, fun q => ?_, ?_, ?_⟩
  · exact List.nodup_cons.mpr ⟨fun hmem => hr r hmem rfl, h.nodup⟩
  · rw [List.forall_mem_cons]
    constructor
    · rw [Function.update_self, Function.update_self]
      exact Delete.owns_initregion (m := ⟨pages.mem, s.header⟩) hgrant.next_self
    · intro r' hr'
      rw [hsingles r' hr', hbigs r' hr']
      have hheader : ((Mem.postclear ⟨pages.mem, s.header⟩ r).initregion r).header r' =
          s.header r' := by
        rw [Mem.initregion, Mem.header_modify_of_ne _ (hr r' hr'), Mem.postclear,
          Mem.header_modify_of_ne _ (hr r' hr')]
      exact h.owns_of_grant hgrant hr' rfl rfl rfl hheader
  · rw [List.forall_mem_cons]
    rw [Function.update_self, Function.update_self, List.append_nil]
    constructor
    · rw [List.forall_mem_cons]
      refine ⟨fun hne => absurd rfl hne, fun r' hr' _ q hq => ?_⟩
      rw [hsingles r' hr', hbigs r' hr']
      obtain rfl := List.mem_singleton.mp hq
      exact hfresh r' hr'
    · intro r₁ hr₁
      rw [hsingles r₁ hr₁, hbigs r₁ hr₁, List.forall_mem_cons]
      constructor
      · rw [Function.update_self, Function.update_self, List.append_nil]
        intro _ q hq hq'
        obtain rfl := List.mem_singleton.mp hq'
        exact hfresh r₁ hr₁ hq
      · intro r₂ hr₂
        rw [hsingles r₂ hr₂, hbigs r₂ hr₂]
        exact h.apart r₁ hr₁ r₂ hr₂
  · show q ∈ pages.pagesOut ↔ _
    rw [hpages, List.mem_cons, List.exists_mem_cons_iff, Function.update_self,
      List.mem_singleton, h.single]
    refine or_congr_right (exists_congr fun r' => and_congr_right fun hr' => ?_)
    rw [hsingles r' hr']
  · show q ∈ pages.runsOut.map Prod.fst ↔ _
    rw [hruns, List.exists_mem_cons_iff, Function.update_self, h.run]
    rw [or_iff_right List.not_mem_nil]
    refine exists_congr fun r' => and_congr_right fun hr' => ?_
    rw [hbigs r' hr']
  · show ∀ run ∈ pages.runsOut, run.2 = 1
    rw [hruns]
    exact h.one
  · show ∀ r' ∈ r :: s.regions, ∀ q ∈ _,
      entry (Region.setRegion s.map (r * rPageSize) (1 : ℕ) (some r)) q = some r'
    rw [List.forall_mem_cons]
    rw [Function.update_self, Function.update_self, List.append_nil]
    constructor
    · intro q hq
      obtain rfl := List.mem_singleton.mp hq
      rw [entry_setRegion s.map _ hend, if_pos rfl]
    · intro r' hr' q hq
      rw [hsingles r' hr', hbigs r' hr'] at hq
      have hne : q ≠ r := fun h => hfresh r' hr' (h ▸ hq)
      rw [entry_setRegion s.map _ hend, if_neg hne]
      exact h.map r' hr' q hq

theorem sameLists_linkRegion (m : Mem) (r parent : ℕ) : SameLists m (m.linkRegion r parent) := by
  rw [Mem.linkRegion]
  refine SameLists.trans ?_ (Delete.sameLists_modify _ parent _ (fun _ => rfl) fun _ => rfl)
  refine SameLists.trans ?_ (Delete.sameLists_modify _ r _ (fun _ => rfl) fun _ => rfl)
  exact Delete.sameLists_modify m r _ (fun _ => rfl) fun _ => rfl

/-! ## A deletion -/

theorem sameLists_unlinkLoop {m m' : Mem} {passes : ℕ} {scan : Field}
    (heq : unlinkLoop m r passes scan = some m') : SameLists m m' := by
  induction passes generalizing scan with
  | zero => cases heq
  | succ passes ih =>
    rw [unlinkLoop, Option.bind_eq_some_iff] at heq
    obtain ⟨c, -, heq⟩ := heq
    split_ifs at heq
    · cases heq
      exact Delete.sameLists_write m _ scan
    · exact ih heq

section Free

variable {t t' : Pages.State} {free : ℕ → List ℕ} {ls ls' xs : List ℕ} {o : Option ℕ}

/-- **The first loop of `free_all_pages`** gives back the pages of the list. -/
theorem freeSingles_spec (h : Pages.Inv t free) (hchain : Chain t.mem.next o xs)
    (hnodup : xs.Nodup) (hmem : ∀ q ∈ xs, q ∈ t.pagesOut)
    (heq : freeSingles ls o t = some (ls', t')) :
    ∃ free', Pages.Inv t' free' ∧ t'.runsOut = t.runsOut ∧
      (∀ q, q ∈ t'.pagesOut ↔ q ∈ t.pagesOut ∧ q ∉ xs) ∧
      ∀ q, q ∉ xs → t'.mem.next q = t.mem.next q := by
  induction ls generalizing t free o xs with
  | nil =>
    cases o with
    | none =>
      obtain rfl := hchain.eq_nil_iff.mpr rfl
      cases heq
      exact ⟨free, h, rfl, fun q => (and_iff_left List.not_mem_nil).symm, fun q _ => rfl⟩
    | some p => cases heq
  | cons l ls ih =>
    cases o with
    | none =>
      obtain rfl := hchain.eq_nil_iff.mpr rfl
      cases heq
      exact ⟨free, h, rfl, fun q => (and_iff_left List.not_mem_nil).symm, fun q _ => rfl⟩
    | some p =>
      obtain ⟨xs, rfl, hnext⟩ := hchain.eq_cons
      obtain ⟨hp, hxs⟩ := List.nodup_cons.mp hnodup
      rw [freeSingles, Option.bind_eq_some_iff] at heq
      obtain ⟨t₁, hstep, heq⟩ := heq
      have hlegal : Pages.Legal t (.freeSinglePage p l) := hmem p List.mem_cons_self
      obtain ⟨free₁, hinv₁, -, hother⟩ := h.next_release hlegal rfl hstep
      have hpages : ∀ q, q ∈ t₁.pagesOut ↔ q ∈ t.pagesOut ∧ q ≠ p := by
        intro q
        cases hstep
        exact (List.Nodup.mem_erase_iff h.out_nodup.of_append_left).trans and_comm
      have hruns : t₁.runsOut = t.runsOut := by
        cases hstep
        rfl
      have hne : ∀ q ∈ xs, q ≠ p := by
        rintro q hq rfl
        exact hp hq
      obtain ⟨free', hinv', hruns', hpages', hother'⟩ :=
        ih hinv₁ (hnext.congr fun q hq => hother q (hne q hq)) hxs
          (fun q hq => (hpages q).mpr ⟨hmem q (List.mem_cons_of_mem p hq), hne q hq⟩) heq
      refine ⟨free', hinv', hruns'.trans hruns, fun q => ?_, fun q hq => ?_⟩
      · rw [hpages', hpages, List.mem_cons, not_or, and_assoc]
      · rw [List.mem_cons, not_or] at hq
        exact (hother' q hq.2).trans (hother q hq.1)

/-- **The second loop** gives back the runs. -/
theorem freeRuns_spec (h : Pages.Inv t free) (hchain : Chain t.mem.next o xs)
    (hnodup : xs.Nodup) (hmem : ∀ q ∈ xs, q ∈ t.runsOut.map Prod.fst)
    (heq : freeRuns ls o t = some (ls', t')) :
    ∃ free', Pages.Inv t' free' ∧ t'.pagesOut = t.pagesOut ∧
      (∀ run, run ∈ t'.runsOut ↔ run ∈ t.runsOut ∧ run.1 ∉ xs) ∧
      ∀ q, q ∉ xs → t'.mem.next q = t.mem.next q := by
  induction ls generalizing t free o xs with
  | nil =>
    cases o with
    | none =>
      obtain rfl := hchain.eq_nil_iff.mpr rfl
      cases heq
      exact ⟨free, h, rfl, fun q => (and_iff_left List.not_mem_nil).symm, fun q _ => rfl⟩
    | some p => cases heq
  | cons l ls ih =>
    cases o with
    | none =>
      obtain rfl := hchain.eq_nil_iff.mpr rfl
      cases heq
      exact ⟨free, h, rfl, fun q => (and_iff_left List.not_mem_nil).symm, fun q _ => rfl⟩
    | some p =>
      obtain ⟨xs, rfl, hnext⟩ := hchain.eq_cons
      obtain ⟨hp, hxs⟩ := List.nodup_cons.mp hnodup
      rw [freeRuns, Option.bind_eq_some_iff] at heq
      obtain ⟨t₁, hstep, heq⟩ := heq
      have hlegal : Pages.Legal t (.freePages p l) := hmem p List.mem_cons_self
      obtain ⟨free₁, hinv₁, -, hother⟩ := h.next_release hlegal rfl hstep
      have hruns : ∀ run, run ∈ t₁.runsOut ↔ run ∈ t.runsOut ∧ run.1 ≠ p := by
        intro run
        cases hstep
        show run ∈ t.runsOut.filter _ ↔ _
        rw [List.mem_filter, decide_eq_true_iff]
      have hpages : t₁.pagesOut = t.pagesOut := by
        cases hstep
        rfl
      have hne : ∀ q ∈ xs, q ≠ p := by
        rintro q hq rfl
        exact hp hq
      have hmem' : ∀ q ∈ xs, q ∈ t₁.runsOut.map Prod.fst := by
        intro q hq
        obtain ⟨run, hrun, rfl⟩ := List.mem_map.mp (hmem q (List.mem_cons_of_mem p hq))
        exact List.mem_map.mpr ⟨run, (hruns run).mpr ⟨hrun, hne _ hq⟩, rfl⟩
      obtain ⟨free', hinv', hpages', hruns', hother'⟩ :=
        ih hinv₁ (hnext.congr fun q hq => hother q (hne q hq)) hxs hmem' heq
      refine ⟨free', hinv', hpages'.trans hpages, fun run => ?_, fun q hq => ?_⟩
      · rw [hruns', hruns, List.mem_cons, not_or, and_assoc]
      · rw [List.mem_cons, not_or] at hq
        exact (hother' q hq.2).trans (hother q hq.1)

end Free

/-- What is left when one of the lists of a family without common elements goes. -/
theorem exists_mem_erase {xs : ℕ → List ℕ} {regions : List ℕ} (hnodup : regions.Nodup)
    (hapart : ∀ r' ∈ regions, r' ≠ r → ∀ q ∈ xs r', q ∉ xs r) {q : ℕ} :
    ((∃ r' ∈ regions, q ∈ xs r') ∧ q ∉ xs r) ↔ ∃ r' ∈ regions.erase r, q ∈ xs r' := by
  constructor
  · rintro ⟨⟨r', hr', hq⟩, hnot⟩
    have hne : r' ≠ r := fun h => hnot (h ▸ hq)
    exact ⟨r', (List.mem_erase_of_ne hne).mpr hr', hq⟩
  · rintro ⟨r', hr', hq⟩
    obtain ⟨hne, hr'⟩ := (List.Nodup.mem_erase_iff hnodup).mp hr'
    exact ⟨⟨r', hr', hq⟩, hapart r' hr' hne q hq⟩

/-- **A deletion** gives back the pages and the runs of the region, and no others. -/
theorem Owned.delregion (h : Owned s singles bigs) (hr : r ∈ s.regions) {ls : List ℕ}
    (heq : delregion s r ls = some s') :
    (s.header r).children = none ∧ s' = { s with pages := s'.pages } ∧
      Owned { s' with regions := s.regions.erase r } singles bigs := by
  rw [Heap.delregion] at heq
  split_ifs at heq with hchildren
  rw [Option.bind_eq_some_iff] at heq
  obtain ⟨⟨ls₁, t₁⟩, hfirst, heq⟩ := heq
  rw [Option.map_eq_some_iff] at heq
  obtain ⟨⟨ls₂, t₂⟩, hsecond, rfl⟩ := heq
  refine ⟨hchildren, rfl, ?_⟩
  obtain ⟨hchain, hbigchain, hnodup, -⟩ := h.owns r hr
  obtain ⟨hxs, hys, hdisjoint⟩ := List.nodup_append'.mp hnodup
  obtain ⟨free, hinv⟩ := h.inv
  obtain ⟨free₁, hinv₁, hruns₁, hpages₁, hother₁⟩ := freeSingles_spec hinv hchain hxs
    (fun q hq => (h.single q).mpr ⟨r, hr, hq⟩) hfirst
  have hbigchain₁ : Chain t₁.mem.next (s.header r).bigpages (bigs r) :=
    hbigchain.congr fun q hq => hother₁ q fun hq' => hdisjoint hq' hq
  obtain ⟨free₂, hinv₂, hpages₂, hruns₂, hother₂⟩ := freeRuns_spec hinv₁ hbigchain₁ hys
    (fun q hq => by
      rw [hruns₁]
      exact (h.run q).mpr ⟨r, hr, hq⟩) hsecond
  have hleft : ∀ r' ∈ s.regions, r' ≠ r → ∀ q ∈ singles r' ++ bigs r',
      q ∉ singles r ∧ q ∉ bigs r := by
    intro r' hr' hne q hq
    rw [← not_or, ← List.mem_append]
    exact h.apart r' hr' r hr hne q hq
  have herase : ∀ r' ∈ s.regions.erase r, r' ≠ r ∧ r' ∈ s.regions := fun r' hr' =>
    (List.Nodup.mem_erase_iff h.nodup).mp hr'
  refine ⟨⟨free₂, hinv₂⟩, h.nodup.erase r, fun r' hr' => ?_, fun r₁ hr₁ r₂ hr₂ =>
    h.apart r₁ (herase r₁ hr₁).2 r₂ (herase r₂ hr₂).2, fun q => ?_, fun q => ?_, ?_,
    fun r' hr' => h.map r' (herase r' hr').2⟩
  · obtain ⟨hne, hr'⟩ := herase r' hr'
    obtain ⟨hchain', hbigchain', hnodup', hfirst'⟩ := h.owns r' hr'
    have hnext : ∀ q ∈ singles r' ++ bigs r', t₂.mem.next q = s.pages.mem.next q := by
      intro q hq
      obtain ⟨hsingle, hbig⟩ := hleft r' hr' hne q hq
      exact (hother₂ q hbig).trans (hother₁ q hsingle)
    refine ⟨?_, ?_, hnodup', hfirst'⟩
    · exact hchain'.congr fun q hq => hnext q (List.mem_append_left _ hq)
    · exact hbigchain'.congr fun q hq => hnext q (List.mem_append_right _ hq)
  · show q ∈ t₂.pagesOut ↔ _
    rw [hpages₂, hpages₁, h.single]
    exact exists_mem_erase h.nodup fun r' hr' hne q hq =>
      (hleft r' hr' hne q (List.mem_append_left _ hq)).1
  · show q ∈ t₂.runsOut.map Prod.fst ↔ _
    rw [← exists_mem_erase h.nodup fun r' hr' hne q hq =>
      (hleft r' hr' hne q (List.mem_append_right _ hq)).2, ← h.run]
    constructor
    · intro hq
      obtain ⟨run, hrun, rfl⟩ := List.mem_map.mp hq
      rw [hruns₂, hruns₁] at hrun
      exact ⟨List.mem_map_of_mem hrun.1, hrun.2⟩
    · rintro ⟨hq, hnot⟩
      obtain ⟨run, hrun, rfl⟩ := List.mem_map.mp hq
      rw [← hruns₁] at hrun
      exact List.mem_map_of_mem ((hruns₂ run).mpr ⟨hrun, hnot⟩)
  · intro run hrun
    rw [hruns₂, hruns₁] at hrun
    exact h.one run hrun.1

end Heap
end Region
end Partee
