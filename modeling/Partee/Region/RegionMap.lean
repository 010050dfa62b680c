import Mathlib.Algebra.Group.Nat.Defs
import Mathlib.Logic.Function.Basic
import Mathlib.Tactic.Common

/-!
# The map from pages to regions

`__rcregionmap` is a table of tables: the upper bits of a page number select a table,
the lower bits an entry of it, and a table is made when one of its entries is first
asked for.  `get_or_alloc_regionmap` carries an entry number that is too large over
into the next table.

* `regionof_setRegion`: `set_region` marks the pages it is given and no other, also
  when they go on in the next table.
* `setRegionRange_diverges`: `set_region_range` should do the same for a range of
  addresses.  The call that marks a page and advances `firstp` stands behind the loop
  instead of in it, so the loop never ends, whatever the range.
-/

namespace Partee
namespace Region

/-- `RPAGESIZE`. -/
def rPageSize : ℕ := 2 ^ 14

/-- `RMAXPAGE`: the entries of a table. -/
def rMaxPage : ℕ := 2 ^ 26

/-- `RMAXMAP`: the number of tables. -/
def rMaxMap : ℕ := 2 ^ 24

/-- `MAPNB`. -/
def mapnb (address : ℕ) : ℕ := address / 2 ^ 40 % rMaxMap

/-- `PAGENB`. -/
def pagenb (address : ℕ) : ℕ := address / rPageSize % rMaxPage

/-- `__rcregionmap`. -/
structure RegionMap (ρ : Type*) where
  /-- the tables made so far -/
  tables : ℕ → Option (ℕ → ρ)
  /-- what `malloc` leaves in the table made for each entry of `__rcregionmap` -/
  fresh : ℕ → ℕ → ρ

variable {ρ : Type*}

/-- The loop of `get_or_alloc_regionmap`. -/
def carry (map page : ℕ) : ℕ × ℕ :=
  if h : rMaxPage ≤ page then
    have : page - rMaxPage < page :=
      Nat.sub_lt (Nat.lt_of_lt_of_le (by decide) h) (by decide)
    carry (map + 1) (page - rMaxPage)
  else (map, page)
termination_by page
decreasing_by exact this

/-- The table with this number, made if it is not there. -/
def table (m : RegionMap ρ) (map : ℕ) : ℕ → ρ := (m.tables map).getD (m.fresh map)

/-- The map with the table `t` in place. -/
def put (m : RegionMap ρ) (map : ℕ) (t : ℕ → ρ) : RegionMap ρ :=
  { m with tables := Function.update m.tables map (some t) }

/-- `get_or_alloc_regionmap`: the map with the table in place, and the entry. -/
def getOrAllocRegionmap (m : RegionMap ρ) (map page : ℕ) : RegionMap ρ × ℕ × ℕ :=
  let entry := carry map page
  (put m entry.1 (table m entry.1), entry)

/-- `set_page_region`. -/
def setPageRegion (m : RegionMap ρ) (mapnb pagenb : ℕ) (r : ρ) : RegionMap ρ :=
  let rp := getOrAllocRegionmap m mapnb pagenb
  put rp.1 rp.2.1 (Function.update (table rp.1 rp.2.1) rp.2.2 r)

/-- The loop of `set_region`. -/
def setRegionLoop (mnb : ℕ) (r : ρ) : ℕ → ℕ → RegionMap ρ → RegionMap ρ
  | 0, _, m => m
  | npages + 1, pnb, m => setRegionLoop mnb r npages (pnb + 1) (setPageRegion m mnb pnb r)

/-- `set_region`. -/
def setRegion (m : RegionMap ρ) (p : ℕ) (npages : ℤ) (r : ρ) : RegionMap ρ :=
  setRegionLoop (mapnb p) r npages.toNat (pagenb p) m

/-- `regionof`: the entry of an address, and the map with its table in place. -/
def regionof (m : RegionMap ρ) (ptr : ℕ) : ρ × RegionMap ρ :=
  let entry := getOrAllocRegionmap m (mapnb ptr) (pagenb ptr)
  (table entry.1 entry.2.1 entry.2.2, entry.1)

/-- One pass of the loop of `set_region_range`; `none` when the loop is left. -/
def rangePass (lastm lastp : ℕ) : ℕ × ℕ → Option (ℕ × ℕ)
  | (firstm, firstp) =>
      if firstm < lastm ∨ firstp ≤ lastp then
        some (if rMaxPage ≤ firstp then (firstm + 1, firstp - rMaxPage) else (firstm, firstp))
      else none

/-- The loop of `set_region_range`, for at most `fuel` passes. -/
def rangeLoop (lastm lastp : ℕ) : ℕ → ℕ × ℕ → Option (ℕ × ℕ)
  | 0, _ => none
  | fuel + 1, first =>
      match rangePass lastm lastp first with
      | none => some first
      | some first => rangeLoop lastm lastp fuel first

/-- `set_region_range` on `[start, stop)`, when its loop ends within `fuel` passes. -/
def setRegionRange (fuel : ℕ) (m : RegionMap ρ) (start stop : ℕ) (r : ρ) :
    Option (RegionMap ρ) :=
  let last := (stop + 2 ^ 64 - 1) % 2 ^ 64
  (rangeLoop (mapnb last) (pagenb last) fuel (mapnb start, pagenb start)).map
    fun first => setPageRegion m first.1 first.2 r

/-! ## The entry of a page -/

theorem carry_eq (map page : ℕ) : carry map page = (map + page / rMaxPage, page % rMaxPage) := by
  induction map, page using carry.induct with
  | case1 map page h _ ih =>
    rw [carry, dif_pos h, ih]
    refine Prod.ext ?_ (Nat.mod_eq_sub_mod h).symm
    show map + 1 + (page - rMaxPage) / rMaxPage = map + page / rMaxPage
    rw [Nat.div_eq_sub_div (by decide) h]
    omega
  | case2 map page h =>
    have hlt : page < rMaxPage := Nat.not_le.mp h
    rw [carry, dif_neg h, Nat.div_eq_of_lt hlt, Nat.mod_eq_of_lt hlt, Nat.add_zero]

/-- The region of the page with this number. -/
def entry (m : RegionMap ρ) (n : ℕ) : ρ := table m (n / rMaxPage) (n % rMaxPage)

theorem table_put (m : RegionMap ρ) (map : ℕ) (t : ℕ → ρ) :
    table (put m map t) = Function.update (table m) map t := by
  funext k
  show Option.getD (Function.update m.tables map (some t) k) (m.fresh k) = _
  rcases eq_or_ne k map with rfl | hk
  · rw [Function.update_self, Function.update_self]
    rfl
  · rw [Function.update_of_ne hk, Function.update_of_ne hk]
    rfl

/-- Making a table changes no entry. -/
theorem table_getOrAllocRegionmap (m : RegionMap ρ) (map page : ℕ) :
    table (getOrAllocRegionmap m map page).1 = table m := by
  rw [getOrAllocRegionmap, table_put, Function.update_eq_self]

/-- Page `page` of table `map`, in the numbering of all pages. -/
theorem carry_eq_iff (map page n : ℕ) :
    carry map page = (n / rMaxPage, n % rMaxPage) ↔ n = map * rMaxPage + page := by
  rw [carry_eq, Prod.mk.injEq, rMaxPage]
  omega

theorem entry_setPageRegion (m : RegionMap ρ) (map page : ℕ) (r : ρ) (n : ℕ) :
    entry (setPageRegion m map page r) n =
      if n = map * rMaxPage + page then r else entry m n := by
  have htable : table (setPageRegion m map page r) =
      Function.update (table m) (carry map page).1
        (Function.update (table m (carry map page).1) (carry map page).2 r) := by
    rw [setPageRegion, table_put, table_getOrAllocRegionmap]
    rfl
  rw [entry, htable]
  by_cases hn : n = map * rMaxPage + page
  · rw [if_pos hn, (carry_eq_iff map page n).mpr hn, Function.update_self, Function.update_self]
  · rw [if_neg hn]
    rcases eq_or_ne (n / rMaxPage) (carry map page).1 with hk | hk
    · have hpage : n % rMaxPage ≠ (carry map page).2 := fun h =>
        hn ((carry_eq_iff map page n).mp (Prod.ext hk.symm h.symm))
      rw [← hk, Function.update_self, Function.update_of_ne hpage]
      rfl
    · rw [Function.update_of_ne hk]
      rfl

/-- The loop of `set_region` marks consecutive pages, beyond the end of a table too. -/
theorem entry_setRegionLoop (mnb : ℕ) (r : ρ) (npages pnb : ℕ) (m : RegionMap ρ) (n : ℕ) :
    entry (setRegionLoop mnb r npages pnb m) n =
      if mnb * rMaxPage + pnb ≤ n ∧ n < mnb * rMaxPage + pnb + npages then r
      else entry m n := by
  induction npages generalizing pnb m with
  | zero =>
    rw [setRegionLoop, if_neg]
    omega
  | succ npages ih =>
    rw [setRegionLoop, ih, entry_setPageRegion]
    split_ifs <;> first | rfl | omega

/-! ## Addresses -/

theorem pagenb_lt (address : ℕ) : pagenb address < rMaxPage := Nat.mod_lt _ (by decide)

/-- The two parts of an address give its page number. -/
theorem mapnb_pagenb {address : ℕ} (h : address < 2 ^ 64) :
    mapnb address * rMaxPage + pagenb address = address / rPageSize := by
  rw [mapnb, pagenb, rMaxPage, rMaxMap, rPageSize]
  omega

theorem regionof_fst (m : RegionMap ρ) {ptr : ℕ} (h : ptr < 2 ^ 64) :
    (regionof m ptr).1 = entry m (ptr / rPageSize) := by
  have hcarry : carry (mapnb ptr) (pagenb ptr) =
      (ptr / rPageSize / rMaxPage, ptr / rPageSize % rMaxPage) :=
    (carry_eq_iff _ _ _).mpr (mapnb_pagenb h).symm
  show table (getOrAllocRegionmap m _ _).1 (carry (mapnb ptr) (pagenb ptr)).1
    (carry (mapnb ptr) (pagenb ptr)).2 = _
  rw [table_getOrAllocRegionmap, hcarry, entry]

/-- **`set_region` marks the pages it is given and no other.** -/
theorem regionof_setRegion (m : RegionMap ρ) {p npages : ℕ} (r : ρ) (hp : p % rPageSize = 0)
    (hend : p + npages * rPageSize ≤ 2 ^ 64) {ptr : ℕ} (hptr : ptr < 2 ^ 64) :
    (regionof (setRegion m p npages r) ptr).1 =
      if p ≤ ptr ∧ ptr < p + npages * rPageSize then r else (regionof m ptr).1 := by
  have hin : mapnb p * rMaxPage + pagenb p ≤ ptr / rPageSize ∧
      ptr / rPageSize < mapnb p * rMaxPage + pagenb p + npages ↔
      p ≤ ptr ∧ ptr < p + npages * rPageSize := by
    rcases Nat.eq_zero_or_pos npages with rfl | hpos
    · rw [Nat.zero_mul]
      omega
    · rw [mapnb_pagenb (by rw [rPageSize] at hend; omega), rPageSize] at *
      omega
  rw [regionof_fst _ hptr, regionof_fst _ hptr, setRegion, Int.toNat_natCast,
    entry_setRegionLoop]
  exact if_congr hin rfl rfl

/-! ## Range marking -/

/-- What range marking is for: it ends, with the effect of `set_region` on the pages of
the range, and so marks exactly the addresses of the range. -/
def MarksRange (m : RegionMap ρ) (start stop : ℕ) (r : ρ) : Prop :=
  ∃ fuel m', setRegionRange fuel m start stop r = some m' ∧
    ∀ ptr < 2 ^ 64,
      (regionof m' ptr).1 =
        (regionof (setRegion m start ((stop - start) / rPageSize : ℕ) r) ptr).1 ∧
      (regionof m' ptr).1 = if start ≤ ptr ∧ ptr < stop then r else (regionof m ptr).1

/-- A pass that has not left the loop leaves its variables as they are. -/
theorem rangePass_eq {lastm lastp firstm firstp : ℕ} (h : firstm < lastm ∨ firstp ≤ lastp)
    (hp : firstp < rMaxPage) : rangePass lastm lastp (firstm, firstp) = some (firstm, firstp) := by
  rw [rangePass, if_pos h, if_neg (Nat.not_le.mpr hp)]

theorem rangeLoop_diverges {lastm lastp firstm firstp : ℕ}
    (h : firstm < lastm ∨ firstp ≤ lastp) (hp : firstp < rMaxPage) (fuel : ℕ) :
    rangeLoop lastm lastp fuel (firstm, firstp) = none := by
  induction fuel with
  | zero => rfl
  | succ fuel ih =>
    rw [rangeLoop, rangePass_eq h hp]
    exact ih

/-- At the first and the last page of a range the loop is entered. -/
theorem first_le_last {start last : ℕ} (hle : start ≤ last) (hlast : last < 2 ^ 64) :
    mapnb start < mapnb last ∨ pagenb start ≤ pagenb last := by
  have h := mapnb_pagenb (Nat.lt_of_le_of_lt hle hlast)
  have h' := mapnb_pagenb hlast
  have hpages : start / rPageSize ≤ last / rPageSize := Nat.div_le_div_right hle
  have hmaps : mapnb start ≤ mapnb last := by
    rw [mapnb, mapnb, rMaxMap]
    omega
  rcases Nat.eq_or_lt_of_le hmaps with heq | hlt
  · rw [heq] at h
    exact .inr (by omega)
  · exact .inl hlt

theorem setRegionRange_eq_none (m : RegionMap ρ) {start stop : ℕ} (r : ρ) (hlt : start < stop)
    (hstop : stop < 2 ^ 64) (fuel : ℕ) : setRegionRange fuel m start stop r = none := by
  have hlast : (stop + 2 ^ 64 - 1) % 2 ^ 64 = stop - 1 := by omega
  rw [setRegionRange, hlast, Option.map_eq_none_iff]
  exact rangeLoop_diverges (first_le_last (by omega) (by omega)) (pagenb_lt start) fuel

/-- **`set_region_range` never ends.**  On no range does it do what it is for. -/
theorem setRegionRange_diverges (m : RegionMap ρ) {start stop : ℕ} (r : ρ) (hlt : start < stop)
    (hstop : stop < 2 ^ 64) :
    (∀ fuel, setRegionRange fuel m start stop r = none) ∧ ¬ MarksRange m start stop r := by
  have hnone := setRegionRange_eq_none m r hlt hstop
  refine ⟨hnone, fun h => ?_⟩
  obtain ⟨fuel, m', hsome, -⟩ := h
  rw [hnone] at hsome
  cases hsome

/-- A map in which every page belongs to region 0. -/
def unmarked : RegionMap ℕ where
  tables := fun _ => none
  fresh := fun _ _ => 0

/-- The last page of one table and the first of the next. -/
theorem setRegionRange_diverges_example :
    (∀ fuel, setRegionRange fuel unmarked (2 ^ 40 - 2 ^ 14) (2 ^ 40 + 2 ^ 14) 7 = none) ∧
      ¬ MarksRange unmarked (2 ^ 40 - 2 ^ 14) (2 ^ 40 + 2 ^ 14) 7 :=
  setRegionRange_diverges unmarked 7 (by decide) (by decide)

/-- One page.  `set_region` marks it; `set_region_range` does not come back. -/
theorem page_not_marked :
    (regionof (setRegion unmarked (2 ^ 14) 1 7) (2 ^ 14)).1 = 7 ∧
      ¬ MarksRange unmarked (2 ^ 14) (2 ^ 15) 7 := by
  refine ⟨?_, fun h => ?_⟩
  · have hend : 2 ^ 14 + 1 * rPageSize ≤ 2 ^ 64 := by decide
    exact regionof_setRegion unmarked 7 (by decide) hend (by decide)
  · obtain ⟨fuel, m', hsome, -⟩ := h
    rw [setRegionRange_eq_none unmarked 7 (by decide) (by decide)] at hsome
    cases hsome

end Region
end Partee
