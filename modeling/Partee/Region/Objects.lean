import Partee.Region.Ownership

/-!
# Where the objects lie

An object lies in one page of its region, behind the headers, and ends before the last byte
of the page, so that a pointer to the byte behind it is still a pointer into the page.  In
the current page of a region the objects end where the free part begins.

* `Placed`: the invariant.
* `Room`: memory in a page of a region that no object uses.  `Placed.push` places an object
  there, and `Room.off` says that no object notices a write there.
* `Placed.qalloc`: an allocation finds room.
-/

namespace Partee
namespace Region
namespace Heap

open Transition Memory Pages
open Delete (Header Mem Field Owns SameLists)

/-! ## `clear` -/

theorem store_zero (n : ℕ) (b : Bytes) (p a : ℕ) :
    store n b p 0 a = if p ≤ a ∧ a < p + n then 0 else b a := by
  induction n generalizing p with
  | zero => exact (if_neg (by omega)).symm
  | succ n ih =>
    rw [store, Nat.zero_div]
    rcases eq_or_ne a p with rfl | ha
    · rw [Function.update_self, if_pos ⟨Nat.le_refl a, by omega⟩]
      rfl
    · rw [Function.update_of_ne ha, ih]
      exact if_congr (by omega) rfl rfl

theorem clearLoop_apply (b : Bytes) (start stop a : ℕ) :
    clearLoop b start stop a =
      if start ≤ a ∧ a < clearStop start (stop - start) then 0 else b a := by
  induction b, start using clearLoop.induct stop with
  | case1 b start b' hlt _ ih =>
    have hb : b' a = if start ≤ a ∧ a < start + long then 0 else b a := store_zero long b start a
    have hstop : clearStop (start + long) (stop - (start + long)) =
        clearStop start (stop - start) := by
      rw [clearStop, clearStop, align, align]
      rw [long] at *
      omega
    have hle : start + long ≤ clearStop start (stop - start) := by
      rw [clearStop]
      exact Nat.add_le_add_left (Nat.le_max_left _ _) start
    rw [clearLoop]
    dsimp only
    rw [dif_pos hlt, ih, hstop, hb]
    split_ifs <;> first | rfl | omega
  | case2 b start hlt =>
    have hstop : clearStop start (stop - start) = start + long := by
      rw [clearStop, align]
      rw [long] at *
      omega
    rw [clearLoop]
    dsimp only
    rw [dif_neg hlt, store_zero, hstop]

/-- **What `clear` writes to**: whole words, and at least one. -/
theorem clear_apply (b : Bytes) (start size a : ℕ) :
    clear b start size a = if start ≤ a ∧ a < clearStop start size then 0 else b a := by
  rw [clear, clearLoop_apply, Nat.add_sub_cancel_left]

theorem byte_overrun (s : State) (p stop : ℕ) : (s.overrun p stop).byte = s.byte := by
  rw [State.overrun]
  dsimp only
  split_ifs <;> rfl

theorem byte_clear (s : State) (start size a : ℕ) :
    (s.clear start size).byte a =
      if start ≤ a ∧ a < clearStop start size then 0 else s.byte a := by
  rw [State.clear, byte_overrun]
  exact clear_apply s.byte start size a

/-! ## Places -/

namespace Object

variable (o : Object)

/-- Where the object begins, with the word in front of it. -/
def start : ℕ := if o.header then o.mem - long else o.mem

/-- The byte behind the object. -/
def stop : ℕ := o.mem + o.size

def page : ℕ := o.mem / rPageSize

end Object

/-- Where the objects of `r` can begin in the page `p`: behind the header of the page, and
behind the header of the region if it lies there too. -/
def front (r p : ℕ) : ℕ :=
  p * rPageSize + pageHeader + if p = r then regionHeader else 0

/-- The object is in its place. -/
structure Object.Placed (s : State) (singles bigs : ℕ → List ℕ) (o : Object) : Prop where
  region : o.region ∈ s.regions
  page : o.page ∈ singles o.region ++ bigs o.region
  front : front o.region o.page ≤ o.start
  start_le : o.start + (if o.header then long else 0) = o.mem
  stop_lt : o.stop < (o.page + 1) * rPageSize
  aligned : long ∣ o.mem
  used : (s.block o.region).base = o.page * rPageSize → o.stop ≤ (s.block o.region).allocfrom

/-- One object ends before the other begins. -/
def Apart (o o' : Object) : Prop := o.stop ≤ o'.start ∨ o'.stop ≤ o.start

/-- The current page of `r`, used up to `allocfrom`. -/
structure Current (blk : Ablock) (r p : ℕ) : Prop where
  base : blk.base = p * rPageSize
  front : front r p ≤ blk.allocfrom
  le : blk.allocfrom ≤ (p + 1) * rPageSize

/-- All pages have their owners, and all objects are in their places. -/
structure Placed (s : State) (singles bigs : ℕ → List ℕ) : Prop where
  owned : Owned s singles bigs
  current : ∀ r ∈ s.regions, ∃ p ∈ singles r, Current (s.block r) r p
  object : ∀ o ∈ s.objects, o.Placed s singles bigs
  apart : s.objects.Pairwise Apart

/-- Memory from `x` on, up to `y`, in a page of `r`, that no object uses. -/
structure Room (s : State) (singles bigs : ℕ → List ℕ) (r x y : ℕ) : Prop where
  region : r ∈ s.regions
  page : x / rPageSize ∈ singles r ++ bigs r
  front : front r (x / rPageSize) ≤ x
  le : x ≤ y
  lt : y < (x / rPageSize + 1) * rPageSize
  free : ∀ o ∈ s.objects, o.page = x / rPageSize → o.stop ≤ x
  used : (s.block r).base = x / rPageSize * rPageSize → y ≤ (s.block r).allocfrom

variable {s s' : State} {singles bigs singles' bigs' : ℕ → List ℕ} {r p l x y : ℕ} {a : Malloc}

theorem page_le_front (r p : ℕ) : p * rPageSize + pageHeader ≤ front r p := Nat.le_add_right _ _

/-- The addresses of a page. -/
theorem div_eq_page {x p : ℕ} :
    x / rPageSize = p ↔ p * rPageSize ≤ x ∧ x < (p + 1) * rPageSize := by
  rw [rPageSize]
  omega

namespace Object.Placed

variable {o : Object}

/-- The object lies in its page, behind the header. -/
theorem start_bounds (h : o.Placed s singles bigs) :
    o.page * rPageSize + pageHeader ≤ o.start ∧ o.start ≤ o.mem :=
  ⟨Nat.le_trans (page_le_front _ _) h.front, h.start_le ▸ Nat.le_add_right _ _⟩

/-- A state in which the regions have these pages too, and blocks go on from where they are
or in pages without objects. -/
theorem mono (h : o.Placed s singles bigs) (hregion : o.region ∈ s'.regions)
    (hpages : ∀ p ∈ singles o.region ++ bigs o.region, p ∈ singles' o.region ++ bigs' o.region)
    (hused : (s'.block o.region).base = o.page * rPageSize →
      o.stop ≤ (s'.block o.region).allocfrom) : o.Placed s' singles' bigs' where
  region := hregion
  page := hpages _ h.page
  front := h.front
  start_le := h.start_le
  stop_lt := h.stop_lt
  aligned := h.aligned
  used := hused

end Object.Placed

/-- An object in free memory. -/
theorem Room.placed (hroom : Room s singles bigs r x y) {o : Object} (hregion : o.region = r)
    (hx : x ≤ o.start) (hstart : o.start + (if o.header then long else 0) = o.mem)
    (hy : o.stop ≤ y) (haligned : long ∣ o.mem) :
    o.Placed s singles bigs ∧ o.page = x / rPageSize := by
  have hlt := hroom.lt
  have hle : o.start ≤ o.mem := hstart ▸ Nat.le_add_right _ _
  have hmem : o.mem ≤ o.stop := Nat.le_add_right _ _
  have hpage : o.page = x / rPageSize := by
    rw [Object.page, div_eq_page]
    have hx' := Nat.div_mul_le_self x rPageSize
    omega
  subst hregion
  refine ⟨⟨hroom.region, ?_, ?_, hstart, ?_, haligned, ?_⟩, hpage⟩
  · rw [hpage]
    exact hroom.page
  · rw [hpage]
    exact Nat.le_trans hroom.front hx
  · rw [hpage]
    exact Nat.lt_of_le_of_lt hy hlt
  · rw [hpage]
    exact fun hbase => Nat.le_trans hy (hroom.used hbase)

/-- Nothing that lies in its place is met from free memory on, up to the objects of the next
page. -/
theorem Room.off (hroom : Room s singles bigs r x y) {o : Object} (ho : o ∈ s.objects)
    (hplaced : o.Placed s singles bigs) {z : ℕ} (hz : x ≤ z)
    (hz' : z < (x / rPageSize + 1) * rPageSize + pageHeader) : ¬ (o.start ≤ z ∧ z < o.stop) := by
  rintro ⟨hle, hlt⟩
  obtain ⟨hfront, hmem⟩ := hplaced.start_bounds
  have hstop := hplaced.stop_lt
  have hx := Nat.div_mul_le_self x rPageSize
  by_cases hpage : o.page = x / rPageSize
  · have hfree := hroom.free o ho hpage
    omega
  · rcases Nat.lt_or_gt_of_ne hpage with hbefore | hbehind
    · have hmul : (o.page + 1) * rPageSize ≤ x / rPageSize * rPageSize :=
        Nat.mul_le_mul_right _ hbefore
      omega
    · have hmul : (x / rPageSize + 1) * rPageSize ≤ o.page * rPageSize :=
        Nat.mul_le_mul_right _ hbehind
      omega

/-- **An object is placed in free memory.** -/
theorem Placed.push (h : Placed s singles bigs) (hroom : Room s singles bigs r x y) {o : Object}
    (hregion : o.region = r) (hx : x ≤ o.start)
    (hstart : o.start + (if o.header then long else 0) = o.mem) (hy : o.stop ≤ y)
    (haligned : long ∣ o.mem) : Placed { s with objects := o :: s.objects } singles bigs := by
  obtain ⟨hplaced, hpage⟩ := hroom.placed hregion hx hstart hy haligned
  refine ⟨h.owned.congr ⟨rfl, rfl, rfl, rfl, rfl, rfl, rfl, rfl, fun _ _ => rfl, fun _ _ => rfl⟩,
    h.current, ?_, ?_⟩
  · show ∀ o' ∈ o :: s.objects, _
    rw [List.forall_mem_cons]
    exact ⟨hplaced.mono hplaced.region (fun _ h => h) hplaced.used, fun o' ho' =>
      (h.object o' ho').mono (h.object o' ho').region (fun _ h => h) (h.object o' ho').used⟩
  · refine List.pairwise_cons.mpr ⟨fun o' ho' => ?_, h.apart⟩
    obtain ⟨hfront, hmem⟩ := hplaced.start_bounds
    obtain ⟨hfront', hmem'⟩ := (h.object o' ho').start_bounds
    have hstop := hplaced.stop_lt
    have hstop' := (h.object o' ho').stop_lt
    by_cases hsame : o'.page = x / rPageSize
    · exact .inr (Nat.le_trans (hroom.free o' ho' hsame) hx)
    · rcases Nat.lt_or_gt_of_ne (hpage ▸ hsame : o'.page ≠ o.page) with hbefore | hbehind
      · have hmul : (o'.page + 1) * rPageSize ≤ o.page * rPageSize :=
          Nat.mul_le_mul_right _ hbefore
        exact .inr (by omega)
      · have hmul : (o.page + 1) * rPageSize ≤ o'.page * rPageSize :=
          Nat.mul_le_mul_right _ hbehind
        exact .inl (by omega)

end Heap
end Region
end Partee
