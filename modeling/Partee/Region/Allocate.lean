import Partee.Region.Objects

/-!
# An allocation finds room

`qalloc` takes an object from the current page, from a fresh page that becomes the current
one, or from a page of its own.  In each case (`Placed.takeFront`, `Placed.freshBlock`,
`Placed.bigPage`) the invariant is kept and there is `Room` for the object.  The objects
that were there, and the links between the regions, stay as they are.
-/

namespace Partee
namespace Region
namespace Heap

open Transition Memory Pages
open Delete (Header Mem Field Owns SameLists)

/-- The links between the regions are the same. -/
structure SameLinks (s s' : State) : Prop where
  regions : s'.regions = s.regions
  parent : ∀ r ∈ s.regions, (s'.header r).parent = (s.header r).parent
  sibling : ∀ r ∈ s.regions, (s'.header r).sibling = (s.header r).sibling
  children : ∀ r ∈ s.regions, (s'.header r).children = (s.header r).children

/-- The objects stay, and so does what is in them. -/
structure SameObjects (s s' : State) : Prop where
  objects : s'.objects = s.objects
  byte : ∀ o ∈ s.objects, ∀ z, o.start ≤ z → z < o.stop → s'.byte z = s.byte z

/-- What an allocation does: there is room behind `allocfrom` for the two parts of the
object. -/
structure Allocated (s : State) (r s1 a1 s2 : ℕ) (x : ℕ × ℕ × State)
    (singles bigs : ℕ → List ℕ) (allocfrom : ℕ) : Prop where
  placed : Placed x.2.2 singles bigs
  room : Room x.2.2 singles bigs r allocfrom (x.2.1 + s2)
  mem1 : x.1 = mem1 allocfrom a1
  mem2 : x.2.1 = mem2 allocfrom s1 a1 long
  objects : SameObjects s x.2.2
  links : SameLinks s x.2.2

/-- How `qalloc` is called: with a word in front of the object, or without. -/
def Front (s1 a1 : ℕ) : Prop := s1 = 0 ∧ a1 = 1 ∨ s1 = long ∧ a1 = long

variable {s s' : State} {singles bigs : ℕ → List ℕ} {r p l s1 a1 s2 : ℕ} {a : Malloc}

theorem SameLinks.trans {s₁ s₂ s₃ : State} (h : SameLinks s₁ s₂) (h' : SameLinks s₂ s₃) :
    SameLinks s₁ s₃ where
  regions := h'.regions.trans h.regions
  parent r hr := (h'.parent r (h.regions ▸ hr)).trans (h.parent r hr)
  sibling r hr := (h'.sibling r (h.regions ▸ hr)).trans (h.sibling r hr)
  children r hr := (h'.children r (h.regions ▸ hr)).trans (h.children r hr)

theorem SameObjects.trans {s₁ s₂ s₃ : State} (h : SameObjects s₁ s₂) (h' : SameObjects s₂ s₃) :
    SameObjects s₁ s₃ where
  objects := h'.objects.trans h.objects
  byte o ho z hle hlt := (h'.byte o (h.objects ▸ ho) z hle hlt).trans (h.byte o ho z hle hlt)

/-! ## Where the two parts lie -/

theorem Front.mem1_le (h : Front s1 a1) (x : ℕ) :
    x ≤ mem1 x a1 ∧ mem1 x a1 + s1 ≤ mem2 x s1 a1 long := by
  have hpos : 0 < a1 := by
    rcases h with ⟨-, rfl⟩ | ⟨-, rfl⟩ <;> decide
  exact ⟨le_align x hpos, le_align _ (by decide)⟩

/-- Behind the header of a page both parts are aligned. -/
theorem Front.mem2_page (h : Front s1 a1) (p : ℕ) :
    mem2 (p * rPageSize + pageHeader) s1 a1 long = p * rPageSize + pageHeader + s1 := by
  rw [mem2, mem1, align, align, rPageSize, pageHeader]
  rcases h with ⟨rfl, rfl⟩ | ⟨rfl, rfl⟩
  · rw [long]
    omega
  · rw [long]
    omega

/-- An object that fits in a page with its header gets one page. -/
theorem Front.npages_eq (h : Front s1 a1) (hsize : s1 + s2 + pageHeader < rPageSize) :
    npages (align s1 long + s2) a1 = 1 := by
  rw [npages, align, align]
  rw [rPageSize, pageHeader] at *
  rcases h with ⟨rfl, rfl⟩ | ⟨rfl, rfl⟩
  · rw [long] at *
    omega
  · rw [long] at *
    omega

theorem pageHeader_lt : pageHeader < rPageSize := by
  rw [pageHeader, rPageSize]
  omega

/-- A page is cleared up to its end. -/
theorem clearStop_page (p : ℕ) {x : ℕ} (hx : long ∣ x) (hlt : x < (p + 1) * rPageSize) :
    clearStop x ((p + 1) * rPageSize - x) = (p + 1) * rPageSize := by
  rw [clearStop, align]
  rw [rPageSize, long] at *
  omega

/-! ## The current page -/

/-- Only `r` has objects in its pages. -/
theorem Placed.region_eq (h : Placed s singles bigs) (hr : r ∈ s.regions) {o : Object}
    (ho : o ∈ s.objects) (hp : o.page ∈ singles r ++ bigs r) : o.region = r := by
  have hplaced := h.object o ho
  by_contra hne
  exact h.owned.apart o.region hplaced.region r hr hne o.page hplaced.page hp

theorem block_takeFront (s : State) (r s1 a1 s2 : ℕ) :
    (takeFront s r s1 a1 s2 long).2.2.block = Function.update s.block r
      ⟨(s.block r).base, Heap.mem2 (s.block r).allocfrom s1 a1 long + s2⟩ := rfl

/-- **From the current page.** -/
theorem Placed.takeFront (h : Placed s singles bigs) (hr : r ∈ s.regions) (hfront : Front s1 a1)
    (hfit : Heap.mem2 (s.block r).allocfrom s1 a1 long + s2 < (s.block r).base + rPageSize) :
    Allocated s r s1 a1 s2 (takeFront s r s1 a1 s2 long) singles bigs (s.block r).allocfrom := by
  obtain ⟨p, hp, hbase, hfirst, -⟩ := h.current r hr
  have hpage := page_le_front r p
  have hend : (s.block r).base + rPageSize = (p + 1) * rPageSize := by
    rw [hbase, Nat.succ_mul]
  rw [hend] at hfit
  have hle : (s.block r).allocfrom ≤ Heap.mem2 (s.block r).allocfrom s1 a1 long + s2 := by
    obtain ⟨hmem1, hmem2⟩ := hfront.mem1_le (s.block r).allocfrom
    omega
  have hdiv : (s.block r).allocfrom / rPageSize = p := div_eq_page.mpr ⟨by omega, by omega⟩
  refine ⟨⟨h.owned.congr (sameOwners_setBlock s r _), fun r' hr' => ?_, fun o ho => ?_, h.apart⟩,
    ⟨hr, ?_, ?_, hle, ?_, fun o ho hsame => ?_, fun _ => ?_⟩, rfl, rfl,
    ⟨rfl, fun _ _ _ _ _ => rfl⟩, ⟨rfl, fun _ _ => rfl, fun _ _ => rfl, fun _ _ => rfl⟩⟩
  · rw [block_takeFront]
    rcases eq_or_ne r' r with rfl | hne
    · rw [Function.update_self]
      exact ⟨p, hp, hbase, Nat.le_trans hfirst hle, Nat.le_of_lt hfit⟩
    · rw [Function.update_of_ne hne]
      exact h.current r' hr'
  · have hplaced := h.object o ho
    refine hplaced.mono hplaced.region (fun _ hq => hq) ?_
    rw [block_takeFront]
    rcases eq_or_ne o.region r with heq | hne
    · have hused := hplaced.used
      rw [heq] at hused ⊢
      rw [Function.update_self]
      exact fun hbase => Nat.le_trans (hused hbase) hle
    · rw [Function.update_of_ne hne]
      exact hplaced.used
  · rw [hdiv]
    exact List.mem_append_left _ hp
  · rw [hdiv]
    exact hfirst
  · rw [hdiv]
    exact hfit
  · -- the objects in the current page are objects of `r`
    rw [hdiv] at hsame
    have hregion := h.region_eq hr ho (hsame ▸ List.mem_append_left _ hp)
    have hused := (h.object o ho).used
    rw [hregion, hsame] at hused
    exact hused hbase
  · rw [block_takeFront, Function.update_self]
    exact Nat.le_refl _

/-! ## A fresh page -/

/-- A page that no region has holds no object, and is cleared without any object noticing. -/
theorem Placed.not_page (h : Placed s singles bigs) (hp : p ∉ s.pages.out) {o : Object}
    (ho : o ∈ s.objects) : o.page ≠ p := by
  rintro rfl
  exact hp (h.owned.mem_out (h.object o ho).region (h.object o ho).page)

theorem Placed.clear_page (h : Placed s singles bigs) (hp : p ∉ s.pages.out) {x : ℕ}
    (hx : long ∣ x) (hle : p * rPageSize ≤ x) (hlt : x < (p + 1) * rPageSize) {o : Object}
    (ho : o ∈ s.objects) {z : ℕ} (hz : o.start ≤ z) (hz' : z < o.stop) :
    clear s.byte x ((p + 1) * rPageSize - x) z = s.byte z := by
  obtain ⟨hstart, hmem⟩ := (h.object o ho).start_bounds
  have hstop := (h.object o ho).stop_lt
  rw [clear_apply, clearStop_page p hx hlt]
  refine if_neg fun hin => h.not_page hp ho ?_
  have hz'' : z / rPageSize = o.page := div_eq_page.mpr ⟨by omega, by omega⟩
  exact hz''.symm.trans (div_eq_page.mpr ⟨by omega, hin.2⟩)

/-- `alloc_block` with a fresh page, before the object is taken from it. -/
def freshBlock (s : State) (r newp : ℕ) : State :=
  ((s.put (s.mem.modify r fun h => { h with pages := some newp })).setRegion newp 1 r
    |>.clearPages newp 1 (newp * rPageSize + pageHeader)).setBlock r
      ⟨newp * rPageSize, newp * rPageSize + pageHeader⟩

/-- `qalloc` with a page of its own for the object. -/
def bigPage (s : State) (r p start : ℕ) : State :=
  ((s.put (s.mem.modify r fun h => { h with bigpages := some p })).setRegion p 1 r).clearPages
    p 1 start

theorem dvd_page (p : ℕ) (hfront : Front s1 a1) : long ∣ p * rPageSize + pageHeader + s1 := by
  rw [rPageSize, pageHeader, long]
  rcases hfront with ⟨rfl, -⟩ | ⟨rfl, -⟩
  · omega
  · rw [long]
    omega

/-- Links in a header that is written to otherwise. -/
theorem sameLinks_modify {f : Header → Header} (hregions : s'.regions = s.regions)
    (hheader : s'.header = (s.mem.modify r f).header)
    (hparent : ∀ h, (f h).parent = h.parent) (hsibling : ∀ h, (f h).sibling = h.sibling)
    (hchildren : ∀ h, (f h).children = h.children) : SameLinks s s' := by
  have hcases : ∀ r', s'.header r' = s.header r' ∨ s'.header r' = f (s.header r') := by
    intro r'
    rw [hheader]
    rcases eq_or_ne r' r with rfl | hne
    · exact .inr (Mem.header_modify_self s.mem r' f)
    · exact .inl (Mem.header_modify_of_ne s.mem hne f)
  refine ⟨hregions, fun r' _ => ?_, fun r' _ => ?_, fun r' _ => ?_⟩
  · rcases hcases r' with h | h
    · rw [h]
    · rw [h, hparent]
  · rcases hcases r' with h | h
    · rw [h]
    · rw [h, hsibling]
  · rcases hcases r' with h | h
    · rw [h]
    · rw [h, hchildren]

/-- Links in the headers that do not lie in the page that is cleared. -/
theorem sameLinks_clearPages (hp : p ∉ s.regions) (start : ℕ) (hregions : s'.regions = s.regions)
    (hheader : s'.header = (s.clearPages p 1 start).header) : SameLinks s s' := by
  have hsame : ∀ r ∈ s.regions, s'.header r = s.header r := by
    intro r hr
    rw [hheader]
    exact header_clearPages hp start hr
  refine ⟨hregions, fun r hr => ?_, fun r hr => ?_, fun r hr => ?_⟩
  · rw [hsame r hr]
  · rw [hsame r hr]
  · rw [hsame r hr]

/-- **A fresh page becomes the current one.** -/
theorem Placed.freshBlock (h : Placed s singles bigs) (hr : r ∈ s.regions)
    (hlegal : Pages.Legal s.pages (.allocSinglePage l (s.header r).pages a))
    (heq : s.allocSinglePage (s.header r).pages l a = some (p, s')) :
    Placed (freshBlock s' r p) (Function.update singles r (p :: singles r)) bigs ∧
      SameObjects s (freshBlock s' r p) ∧ SameLinks s (freshBlock s' r p) := by
  have hgrant := grant_single h.owned.inv hlegal heq
  have howned := h.owned.setPages hr hlegal heq
  obtain ⟨pages, -, -, -, -, rfl⟩ := allocSinglePage_eq heq
  have hp : p ∉ s.regions := fun hp => hgrant.fresh (h.owned.region_out hp)
  have hfirst : front r p = p * rPageSize + pageHeader := by
    have hne : p ≠ r := fun h => hp (h ▸ hr)
    rw [front, if_neg hne, Nat.add_zero]
  have hblock : ∀ r', (Heap.freshBlock { s with pages := pages } r p).block r' =
      Function.update s.block r ⟨p * rPageSize, p * rPageSize + pageHeader⟩ r' := fun _ => rfl
  refine ⟨⟨?_, fun r' hr' => ?_, fun o ho => ?_, h.apart⟩, ⟨rfl, fun o ho z hz hz' => ?_⟩, ?_⟩
  · refine howned.congr (SameOwners.trans (sameOwners_clearPages ?_ _) (sameOwners_setBlock ..))
    exact hp
  · rw [hblock]
    rcases eq_or_ne r' r with rfl | hne
    · rw [Function.update_self, Function.update_self]
      refine ⟨p, List.mem_cons_self, rfl, Nat.le_of_eq hfirst, ?_⟩
      rw [Nat.succ_mul]
      exact Nat.add_le_add_left (Nat.le_of_lt pageHeader_lt) _
    · rw [Function.update_of_ne hne, Function.update_of_ne hne]
      exact h.current r' hr'
  · have hplaced := h.object o ho
    refine hplaced.mono hplaced.region (fun q hq => ?_) ?_
    · rw [List.mem_append, mem_update_cons, or_right_comm, ← List.mem_append]
      exact .inl hq
    · rw [hblock]
      rcases eq_or_ne o.region r with heq | hne
      · rw [heq, Function.update_self]
        intro hbase
        exact absurd (Nat.eq_of_mul_eq_mul_right (by decide : 0 < rPageSize) hbase).symm
          (h.not_page hgrant.fresh ho)
      · rw [Function.update_of_ne hne]
        exact hplaced.used
  · have hlt : p * rPageSize + pageHeader < (p + 1) * rPageSize := by
      rw [Nat.succ_mul]
      exact Nat.add_lt_add_left pageHeader_lt _
    have hdvd : long ∣ p * rPageSize + pageHeader + 0 := dvd_page p (.inl ⟨rfl, rfl⟩)
    rw [Nat.add_zero] at hdvd
    exact h.clear_page hgrant.fresh hdvd (Nat.le_add_right _ _) hlt ho hz hz'
  · have hlinks : SameLinks s (s.put (s.mem.modify r fun h => { h with pages := some p })) :=
      sameLinks_modify (f := fun h => { h with pages := some p }) rfl rfl (fun _ => rfl)
        (fun _ => rfl) fun _ => rfl
    exact hlinks.trans (sameLinks_clearPages hp (p * rPageSize + pageHeader) rfl rfl)

/-- **A page of its own for an object.** -/
theorem Placed.bigPage (h : Placed s singles bigs) (hr : r ∈ s.regions) (hfront : Front s1 a1)
    (hsize : s1 + s2 + pageHeader < rPageSize)
    (hlegal : Pages.Legal s.pages (.allocPages 1 l (s.header r).bigpages a))
    (heq : s.allocPages 1 (s.header r).bigpages l a = some (p, s')) :
    Allocated s r s1 a1 s2 (Heap.mem1 (p * rPageSize + pageHeader) a1,
      Heap.mem2 (p * rPageSize + pageHeader) s1 a1 long,
      bigPage s' r p (Heap.mem2 (p * rPageSize + pageHeader) s1 a1 long))
      singles (Function.update bigs r (p :: bigs r)) (p * rPageSize + pageHeader) := by
  have hgrant := grant_run h.owned.inv hlegal heq
  have howned := h.owned.setBigpages hr hlegal heq
  obtain ⟨pages, -, -, -, -, rfl⟩ := allocPages_eq heq
  have hp : p ∉ s.regions := fun hp => hgrant.fresh (h.owned.region_out hp)
  have hfirst : front r p = p * rPageSize + pageHeader := by
    have hne : p ≠ r := fun h => hp (h ▸ hr)
    rw [front, if_neg hne, Nat.add_zero]
  have hend : p * rPageSize + pageHeader + s1 + s2 < (p + 1) * rPageSize := by
    rw [Nat.succ_mul]
    omega
  have hdiv : (p * rPageSize + pageHeader) / rPageSize = p := div_eq_page.mpr ⟨by omega, by omega⟩
  rw [hfront.mem2_page]
  refine ⟨⟨?_, h.current, fun o ho => ?_, h.apart⟩,
    ⟨hr, ?_, ?_, ?_, ?_, fun o ho hsame => ?_, fun hbase => ?_⟩, rfl, ?_,
    ⟨rfl, fun o ho z hz hz' => ?_⟩, ?_⟩
  · refine howned.congr (sameOwners_clearPages ?_ _)
    exact hp
  · refine (h.object o ho).mono (h.object o ho).region (fun q hq => ?_) (h.object o ho).used
    rw [List.mem_append, mem_update_cons, ← or_assoc, ← List.mem_append]
    exact .inl hq
  · rw [hdiv, Function.update_self]
    exact List.mem_append_right _ List.mem_cons_self
  · exact Nat.le_of_eq (by rw [hdiv, hfirst])
  · show _ ≤ p * rPageSize + pageHeader + s1 + s2
    omega
  · rw [hdiv]
    exact hend
  · exact absurd (hsame.trans hdiv) (h.not_page hgrant.fresh ho)
  · -- the current page is another one
    obtain ⟨q, hq, hcurrent⟩ := h.current r hr
    rw [hdiv] at hbase
    have hqp := Nat.eq_of_mul_eq_mul_right (by decide : 0 < rPageSize)
      (hcurrent.base.symm.trans hbase)
    exact absurd (h.owned.mem_out hr (List.mem_append_left _ hq)) (hqp ▸ hgrant.fresh)
  · rw [hfront.mem2_page]
  · exact h.clear_page hgrant.fresh (dvd_page p hfront) (by omega) (by omega) ho hz hz'
  · have hlinks : SameLinks s (s.put (s.mem.modify r fun h => { h with bigpages := some p })) :=
      sameLinks_modify (f := fun h => { h with bigpages := some p }) rfl rfl (fun _ => rfl)
        (fun _ => rfl) fun _ => rfl
    exact hlinks.trans (sameLinks_clearPages hp (p * rPageSize + pageHeader + s1) rfl rfl)

/-! ## `qalloc` -/

/-- **An allocation finds room.** -/
theorem Placed.qalloc (h : Placed s singles bigs) (hr : r ∈ s.regions) (hfront : Front s1 a1)
    (hsize : s1 + s2 + pageHeader < rPageSize)
    (hlegal : ∀ label, (if Heap.mem2 (s.block r).allocfrom s1 a1 long + s2 <
        (s.block r).base + rPageSize then none
      else if align s1 long + s2 ≤ rPageSize / k then
        some (Pages.Label.allocSinglePage l (s.header r).pages a)
      else some (.allocPages (npages (align s1 long + s2) a1) l (s.header r).bigpages a)) =
        some label → Pages.Legal s.pages label)
    {x : ℕ × ℕ × State} (heq : qalloc s r s1 a1 s2 long l a = some x) :
    ∃ singles' bigs' allocfrom, Allocated s r s1 a1 s2 x singles' bigs' allocfrom := by
  rw [Heap.qalloc] at heq
  dsimp only at heq
  by_cases hfit : Heap.mem2 (s.block r).allocfrom s1 a1 long + s2 < (s.block r).base + rPageSize
  · rw [if_pos hfit] at heq
    cases heq
    exact ⟨singles, bigs, _, h.takeFront hr hfront hfit⟩
  · rw [if_neg hfit] at heq hlegal
    by_cases hsmall : align s1 long + s2 ≤ rPageSize / k
    · rw [if_pos hsmall] at heq hlegal
      rw [allocBlock] at heq
      dsimp only at heq
      rw [if_pos (Nat.le_of_not_lt hfit), Option.map_eq_some_iff] at heq
      obtain ⟨⟨p, s'⟩, halloc, rfl⟩ := heq
      obtain ⟨hplaced, hobjects, hlinks⟩ := h.freshBlock hr (hlegal _ rfl) halloc
      have hblock : (Heap.freshBlock s' r p).block r =
          ⟨p * rPageSize, p * rPageSize + pageHeader⟩ := Function.update_self ..
      have hfit' : Heap.mem2 ((Heap.freshBlock s' r p).block r).allocfrom s1 a1 long + s2 <
          ((Heap.freshBlock s' r p).block r).base + rPageSize := by
        rw [hblock]
        show Heap.mem2 (p * rPageSize + pageHeader) s1 a1 long + s2 < p * rPageSize + rPageSize
        rw [hfront.mem2_page]
        omega
      obtain ⟨hplaced', hroom, hmem1, hmem2, hobjects', hlinks'⟩ :=
        hplaced.takeFront (hlinks.regions ▸ hr) hfront hfit'
      exact ⟨_, _, _, hplaced', hroom, hmem1, hmem2, hobjects.trans hobjects',
        hlinks.trans hlinks'⟩
    · rw [if_neg hsmall] at heq hlegal
      rw [hfront.npages_eq hsize] at heq hlegal
      rw [Option.map_eq_some_iff] at heq
      obtain ⟨⟨p, s'⟩, halloc, rfl⟩ := heq
      exact ⟨_, _, _, h.bigPage hr hfront hsize (hlegal _ rfl) halloc⟩

end Heap
end Region
end Partee
