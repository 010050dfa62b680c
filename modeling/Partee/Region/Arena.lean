import Partee.Region.Allocate
import Mathlib.Data.List.Forall2

/-!
# What the regions are for

An arena is a list of pieces of memory, each of a region.  A piece is made with zeros in
it, with the contents of another piece, or with nothing in particular; it holds what the
program writes to it, and it goes when its region goes.  `Label.spec` says so, call by
call, without addresses and pages.

`Represents` connects the objects of a state with the pieces of an arena: what is said to
be in a piece is in memory.
-/

namespace Partee
namespace Region
namespace Heap

open Transition Memory Pages

/-- A piece of memory; `none` is a byte that may be anything. -/
structure Piece where
  region : ℕ
  size : ℕ
  contents : ℕ → Option UInt8

/-- What a new piece holds. -/
def Request.contents (arena : List Piece) : Request → ℕ → Option UInt8
  | .rstralloc _ => fun _ => none
  | .rstralloc0 _ | .rallocSmall0 _ => fun _ => some 0
  | .rstrextend old newsize needsclear => fun i =>
      match old.bind (arena[·]?) with
      | some v =>
          if i < min v.size newsize then v.contents i
          else if needsclear then some 0 else none
      | none => if needsclear then some 0 else none

/-- What a call is for. -/
def Label.spec (arena : List Piece) : Label → List Piece
  | .newsubregion _ _ _ _ => arena
  | .ralloc r c _ _ => ⟨r, c.size, c.contents arena⟩ :: arena
  | .write object i x => arena.modify object fun v =>
      { v with contents := Function.update v.contents i (some x) }
  | .deleteregion r _ _ => arena.filter fun v => v.region ≠ r

/-- The object is the piece: memory has in it what it is said to hold. -/
structure Object.Holds (byte : Bytes) (o : Object) (v : Piece) : Prop where
  region : o.region = v.region
  size : o.size = v.size
  contents : ∀ i < o.size, ∀ x, v.contents i = some x → byte (o.mem + i) = x

/-- The objects of a state, and the pieces of an arena. -/
def Represents (s : State) (arena : List Piece) : Prop :=
  List.Forall₂ (Object.Holds s.byte) s.objects arena

variable {s s' : State} {arena : List Piece}

/-- Objects that stay, with what is in them. -/
theorem Represents.congr (h : Represents s arena) (hsame : SameObjects s s')
    (hstart : ∀ o ∈ s.objects, o.start ≤ o.mem) : Represents s' arena := by
  rw [Represents, hsame.objects]
  have hmem : List.Forall₂ (fun o v => o ∈ s.objects ∧ o.Holds s.byte v) s.objects arena :=
    (List.forall₂_and_left s.objects arena).mpr ⟨fun _ ho => ho, h⟩
  refine hmem.imp fun o v hov => ?_
  obtain ⟨ho, hregion, hsize, hcontents⟩ := hov
  refine ⟨hregion, hsize, fun i hi x hx => ?_⟩
  have hle := hstart o ho
  rw [hsame.byte o ho (o.mem + i) (by omega) (by rw [Object.stop]; omega)]
  exact hcontents i hi x hx

/-- The piece an object is. -/
theorem Represents.exists_piece (h : Represents s arena) {k : ℕ} {o : Object}
    (ho : s.objects[k]? = some o) : ∃ v, arena[k]? = some v ∧ o.Holds s.byte v := by
  obtain ⟨hlength, hget⟩ := List.forall₂_iff_get.mp h
  obtain ⟨hk, rfl⟩ := List.getElem?_eq_some_iff.mp ho
  have hka : k < arena.length := hlength ▸ hk
  exact ⟨arena[k], List.getElem?_eq_getElem hka, hget k hk hka⟩

theorem Represents.cons (h : Represents s arena) {o : Object} {v : Piece}
    (hov : o.Holds s.byte v) : Represents { s with objects := o :: s.objects } (v :: arena) :=
  List.Forall₂.cons hov h

/-- The objects of a region go. -/
theorem holds_filter {byte : Bytes} {objects : List Object}
    (h : List.Forall₂ (Object.Holds byte) objects arena) (r : ℕ) :
    List.Forall₂ (Object.Holds byte) (objects.filter fun o => o.region ≠ r)
      (arena.filter fun v => v.region ≠ r) := by
  induction h with
  | nil => exact .nil
  | @cons o v objects pieces hov _ ih =>
    by_cases hr : v.region = r
    · have hro : o.region = r := hov.region.trans hr
      rw [List.filter_cons_of_neg (by simpa using hro), List.filter_cons_of_neg (by simpa using hr)]
      exact ih
    · have hro : o.region ≠ r := fun h => hr (hov.region.symm.trans h)
      rw [List.filter_cons_of_pos (by simpa using hro), List.filter_cons_of_pos (by simpa using hr)]
      exact .cons hov ih

/-- The program writes to an object, and no other object notices. -/
theorem Represents.write (h : Represents s arena) (hapart : s.objects.Pairwise Apart)
    (hstart : ∀ o ∈ s.objects, o.start ≤ o.mem) {k i : ℕ} {o : Object}
    (ho : s.objects[k]? = some o) (hi : i < o.size) (x : UInt8) :
    Represents { s with byte := Function.update s.byte (o.mem + i) x }
      (arena.modify k fun v => { v with contents := Function.update v.contents i (some x) }) := by
  obtain ⟨hlength, hget⟩ := List.forall₂_iff_get.mp h
  obtain ⟨hk, rfl⟩ := List.getElem?_eq_some_iff.mp ho
  show List.Forall₂ _ s.objects _
  refine List.forall₂_iff_get.mpr ⟨hlength.trans (List.length_modify ..).symm, fun j hj hj' => ?_⟩
  have hja : j < arena.length := hlength ▸ hj
  obtain ⟨hregion, hsize, hcontents⟩ : s.objects[j].Holds s.byte arena[j] := hget j hj hja
  show s.objects[j].Holds (Function.update s.byte _ x) (List.modify ..)[j]
  rw [List.getElem_modify]
  rcases eq_or_ne k j with rfl | hkj
  · rw [if_pos rfl]
    refine ⟨hregion, hsize, fun i' hi' x' hx' => ?_⟩
    dsimp only at hx'
    rcases eq_or_ne i' i with rfl | hne
    · rw [Function.update_self] at hx' ⊢
      exact Option.some.inj hx'
    · rw [Function.update_of_ne hne] at hx'
      rw [Function.update_of_ne (by omega)]
      exact hcontents i' hi' x' hx'
  · rw [if_neg hkj]
    refine ⟨hregion, hsize, fun i' hi' x' hx' => ?_⟩
    have hboth : Apart s.objects[j] s.objects[k] := by
      rcases Nat.lt_or_gt_of_ne hkj with hlt | hgt
      · exact (List.pairwise_iff_getElem.mp hapart k j hk hj hlt).symm
      · exact List.pairwise_iff_getElem.mp hapart j k hj hk hgt
    have hne : s.objects[j].mem + i' ≠ s.objects[k].mem + i := by
      have hle := hstart s.objects[k] (List.getElem_mem hk)
      have hle' := hstart s.objects[j] (List.getElem_mem hj)
      rcases hboth with hstop | hstop
      · rw [Object.stop] at hstop
        omega
      · rw [Object.stop] at hstop
        omega
    rw [Function.update_of_ne hne]
    exact hcontents i' hi' x' hx'

end Heap
end Region
end Partee
