import Partee.Region.Arena

/-!
# What is in a new object

After `qalloc` has found room a call clears the object, or copies another one into it.
What it writes to lies in the room and in the few bytes behind the page where the header of
the next page is, so no other object notices; and the new object holds what its piece is
said to hold (`Placed.call`).
-/

namespace Partee
namespace Region
namespace Heap

open Transition Memory Pages
open Delete (Header Mem Field Owns SameLists)

/-- The pages have the same owners, and the objects lie where they are. -/
structure SameHeap (s s' : State) : Prop where
  owners : SameOwners s s'
  block : s'.block = s.block
  objects : s'.objects = s.objects

variable {s s' : State} {singles bigs : ℕ → List ℕ} {r l x y mem : ℕ} {a : Malloc} {c : Request}

theorem SameHeap.trans {s₁ s₂ s₃ : State} (h : SameHeap s₁ s₂) (h' : SameHeap s₂ s₃) :
    SameHeap s₁ s₃ where
  owners := h.owners.trans h'.owners
  block := h'.block.trans h.block
  objects := h'.objects.trans h.objects

theorem sameHeap_byte (s : State) (b : Bytes) : SameHeap s { s with byte := b } :=
  ⟨sameOwners_byte s b, rfl, rfl⟩

theorem clear_rest (s : State) (start size : ℕ) :
    (s.clear start size).block = s.block ∧ (s.clear start size).objects = s.objects ∧
      (s.clear start size).header = s.header := by
  rw [State.clear, State.overrun]
  dsimp only
  split_ifs
  · exact ⟨rfl, rfl, rfl⟩
  · exact ⟨rfl, rfl, rfl⟩

theorem sameHeap_clear (s : State) (start size : ℕ) : SameHeap s (s.clear start size) :=
  ⟨sameOwners_clear s start size, (clear_rest s start size).1, (clear_rest s start size).2.1⟩

theorem header_clear (s : State) (start size : ℕ) : (s.clear start size).header = s.header :=
  (clear_rest s start size).2.2

theorem Placed.congr (h : Placed s singles bigs) (hsame : SameHeap s s') :
    Placed s' singles bigs where
  owned := h.owned.congr hsame.owners
  current := by
    rw [hsame.owners.regions, hsame.block]
    exact h.current
  object := by
    rw [hsame.objects]
    intro o ho
    refine (h.object o ho).mono (hsame.owners.regions ▸ (h.object o ho).region) (fun _ hp => hp) ?_
    rw [hsame.block]
    exact (h.object o ho).used
  apart := by
    rw [hsame.objects]
    exact h.apart

theorem Room.congr (h : Room s singles bigs r x y) (hsame : SameHeap s s') :
    Room s' singles bigs r x y where
  region := hsame.owners.regions ▸ h.region
  page := h.page
  front := h.front
  le := h.le
  lt := h.lt
  free := hsame.objects ▸ h.free
  used := hsame.block ▸ h.used

theorem sameLinks_of_header (hregions : s'.regions = s.regions) (h : s'.header = s.header) :
    SameLinks s s' :=
  ⟨hregions, fun r _ => by rw [h], fun r _ => by rw [h], fun r _ => by rw [h]⟩

/-- No object notices writes to free memory. -/
theorem Room.sameObjects (hroom : Room s singles bigs r x y) (h : Placed s singles bigs)
    (hsame : SameHeap s s')
    (hbyte : ∀ z, ¬ (x ≤ z ∧ z < y + long) → s'.byte z = s.byte z) : SameObjects s s' := by
  refine ⟨hsame.objects, fun o ho z hz hz' => hbyte z fun hin => ?_⟩
  have hlt := hroom.lt
  refine hroom.off ho (h.object o ho) hin.1 ?_ ⟨hz, hz'⟩
  rw [long] at hin
  rw [pageHeader]
  omega

/-- `clear` goes on for less than a word. -/
theorem clearStop_le (start size : ℕ) : clearStop start size ≤ start + size + long := by
  have hlt : align size long < size + long := align_lt size (by decide)
  rw [clearStop]
  omega

theorem le_clearStop (start size : ℕ) : start + size ≤ clearStop start size := by
  have hle : size ≤ align size long := le_align size (by decide)
  rw [clearStop]
  omega

/-! ## `internal_rstrextend` -/

section Extend

variable {newmem newsize z i : ℕ} {old : Option ℕ} {needsclear : Bool}

theorem sameHeap_extendFrom (s : State) (newmem : ℕ) (old : Option ℕ) (newsize : ℕ)
    (needsclear : Bool) : SameHeap s (extendFrom s newmem old newsize needsclear) := by
  have hword := sameHeap_byte s (store long s.byte (newmem - long) newsize)
  refine hword.trans ?_
  cases old with
  | none =>
    cases needsclear with
    | false => exact ⟨.refl _, rfl, rfl⟩
    | true => exact sameHeap_clear _ _ _
  | some old =>
    rw [extendFrom]
    dsimp only
    split_ifs
    · exact sameHeap_byte _ _
    · exact (sameHeap_clear _ _ _).trans (sameHeap_byte _ _)
    · exact sameHeap_byte _ _

theorem header_extendFrom (s : State) (newmem : ℕ) (old : Option ℕ) (newsize : ℕ)
    (needsclear : Bool) : (extendFrom s newmem old newsize needsclear).header = s.header := by
  cases old with
  | none =>
    cases needsclear with
    | false => rfl
    | true => exact header_clear _ _ _
  | some old =>
    rw [extendFrom]
    dsimp only
    split_ifs
    · rfl
    · exact header_clear _ _ _
    · rfl

/-- What the call writes to: the word in front of the object, the object, and what `clear`
adds. -/
theorem extendFrom_of_not (hz : ¬ (newmem - long ≤ z ∧ z < newmem + newsize + long))
    (hmem : long ≤ newmem) : (extendFrom s newmem old newsize needsclear).byte z = s.byte z := by
  have hword : store long s.byte (newmem - long) newsize z = s.byte z :=
    store_of_not fun hin => hz ⟨hin.1, by omega⟩
  have hclear : ∀ t : State, ∀ start size, newmem ≤ start → start + size = newmem + newsize →
      (t.clear start size).byte z = t.byte z := by
    intro t start size hstart hsize
    have hle := clearStop_le start size
    rw [byte_clear]
    exact if_neg fun hin => hz ⟨by omega, by omega⟩
  have hcopy : ∀ (b : Bytes) (source n), n ≤ newsize → copy b newmem source n z = b z :=
    fun b source n hn => if_neg fun hin => hz ⟨by omega, by omega⟩
  cases old with
  | none =>
    cases needsclear with
    | false => exact hword
    | true => exact (hclear _ _ _ (Nat.le_refl _) rfl).trans hword
  | some old =>
    rw [extendFrom]
    dsimp only
    split_ifs with hlarge hneeds
    · exact (hcopy _ _ _ (Nat.le_refl _)).trans hword
    · refine (hcopy _ _ _ (Nat.le_of_not_lt hlarge)).trans ?_
      exact (hclear _ _ _ (Nat.le_add_right _ _) (by omega)).trans hword
    · exact (hcopy _ _ _ (Nat.le_of_not_lt hlarge)).trans hword

/-- The word in front of the object has its size. -/
theorem extendFrom_word (hmem : long ≤ newmem) (hsize : newsize < 2 ^ 64) :
    load long (extendFrom s newmem old newsize needsclear).byte (newmem - long) = newsize := by
  have hword : load long (store long s.byte (newmem - long) newsize) (newmem - long) = newsize := by
    rw [load_store]
    exact Nat.mod_eq_of_lt hsize
  refine (load_congr fun z hz hz' => ?_).trans hword
  have hclear : ∀ t : State, ∀ start size, newmem ≤ start →
      (t.clear start size).byte z = t.byte z := by
    intro t start size hstart
    rw [byte_clear]
    exact if_neg fun hin => by omega
  have hcopy : ∀ (b : Bytes) (source n), copy b newmem source n z = b z :=
    fun b source n => if_neg fun hin => by omega
  cases old with
  | none =>
    cases needsclear with
    | false => rfl
    | true => exact hclear _ _ _ (Nat.le_refl _)
  | some old =>
    rw [extendFrom]
    dsimp only
    split_ifs
    · exact hcopy _ _ _
    · exact (hcopy _ _ _).trans (hclear _ _ _ (Nat.le_add_right _ _))
    · exact hcopy _ _ _

/-- An object that is not extended from another one. -/
theorem extendFrom_none (hi : i < newsize) :
    (extendFrom s newmem none newsize true).byte (newmem + i) = 0 := by
  have hle := le_clearStop newmem newsize
  rw [extendFrom, if_pos rfl, byte_clear, if_pos ⟨by omega, by omega⟩]

/-- An object that is extended from an object `o`, which lies elsewhere: what they both
have room for is the same, and the rest is zero if it is to be cleared. -/
theorem extendFrom_some {o : Object} (hheader : o.start + long = o.mem)
    (hword : load long s.byte o.start = o.size) (hmem : long ≤ newmem)
    (hoff : ∀ z, o.start ≤ z → z < o.stop → ¬ (newmem - long ≤ z ∧ z < newmem + newsize + long))
    (hi : i < newsize) (needsclear : Bool) :
    (i < min o.size newsize →
      (extendFrom s newmem (some o.mem) newsize needsclear).byte (newmem + i) =
        s.byte (o.mem + i)) ∧
    (¬ i < min o.size newsize → needsclear = true →
      (extendFrom s newmem (some o.mem) newsize needsclear).byte (newmem + i) = 0) := by
  have hstop : o.stop = o.mem + o.size := rfl
  have hstart : o.mem - long = o.start := by omega
  have hstore : ∀ z, o.start ≤ z → z < o.stop →
      store long s.byte (newmem - long) newsize z = s.byte z := fun z hz hz' =>
    store_of_not fun hin => hoff z hz hz' ⟨hin.1, by omega⟩
  have hload : load long (store long s.byte (newmem - long) newsize) (o.mem - long) = o.size := by
    rw [hstart, ← hword]
    exact load_congr fun z hz hz' => hstore z hz (by omega)
  have hcopy : ∀ (b : Bytes) n, i < n → copy b newmem o.mem n (newmem + i) = b (o.mem + i) := by
    intro b n hn
    rw [copy, if_pos ⟨by omega, by omega⟩, Nat.add_sub_cancel_left]
  rw [extendFrom]
  dsimp only
  rw [hload]
  constructor
  · intro hmin
    have hsame := hstore (o.mem + i) (by omega) (by omega)
    split_ifs with hlarge hneeds
    · exact (hcopy _ _ hi).trans hsame
    · refine (hcopy _ _ (by omega)).trans ?_
      have hle := clearStop_le (newmem + o.size) (newsize - o.size)
      rw [byte_clear, if_neg fun hin => hoff (o.mem + i) (by omega) (by omega) ⟨by omega, by omega⟩]
      exact hsame
    · exact (hcopy _ _ (by omega)).trans hsame
  · rintro hmin rfl
    have hlarge : ¬ o.size > newsize := by omega
    have hle := le_clearStop (newmem + o.size) (newsize - o.size)
    rw [if_neg hlarge, if_pos rfl]
    show copy _ newmem o.mem o.size (newmem + i) = 0
    rw [copy, if_neg fun hin => hmin (by omega), byte_clear, if_pos ⟨by omega, by omega⟩]

end Extend

/-! ## A call -/

/-- What a call does after `qalloc`. -/
def Request.post (s₀ s : State) (mem : ℕ) : Request → State
  | .rstralloc _ => s
  | .rstralloc0 size | .rallocSmall0 size => s.clear mem size
  | .rstrextend old newsize needsclear =>
      extendFrom s mem ((old.bind (s₀.objects[·]?)).map Object.mem) newsize needsclear

/-- **The short way is the long way**: `__rc_ralloc_small0` does what `__rc_rstralloc0` does. -/
theorem rallocSmall0_eq (s : State) (r size l : ℕ) (a : Malloc) :
    rallocSmall0 s r size l a = rstralloc0 s r size l a := by
  rw [rallocSmall0]
  split_ifs with hfull
  · rfl
  · have hmem2 : mem2 (s.block r).allocfrom 0 1 long = align (s.block r).allocfrom long := by
      rw [mem2, mem1, align_one, Nat.add_zero]
    rw [rstralloc0, rstralloc, qalloc, hmem2, if_pos (Nat.lt_of_not_le hfull), takeFront, hmem2]
    rfl

theorem call_eq (s : State) (r l : ℕ) (a : Malloc) (c : Request) :
    s.call r l a c = (qalloc s r c.front.1 c.front.2 c.size long l a).map fun x =>
      (x.2.1, c.post s x.2.2 x.2.1) := by
  cases c with
  | rstralloc size => rfl
  | rstralloc0 size =>
    rw [State.call, rstralloc0, rstralloc, Option.map_map]
    rfl
  | rallocSmall0 size =>
    rw [State.call, rallocSmall0_eq, rstralloc0, rstralloc, Option.map_map]
    rfl
  | rstrextend old newsize needsclear => rfl

theorem front_front (c : Request) : Front c.front.1 c.front.2 := by
  rw [Request.front]
  split_ifs
  · exact .inr ⟨rfl, rfl⟩
  · exact .inl ⟨rfl, rfl⟩

theorem sameHeap_post (s₀ s : State) (mem : ℕ) (c : Request) : SameHeap s (c.post s₀ s mem) := by
  cases c with
  | rstralloc size => exact ⟨.refl s, rfl, rfl⟩
  | rstralloc0 size => exact sameHeap_clear s mem size
  | rallocSmall0 size => exact sameHeap_clear s mem size
  | rstrextend old newsize needsclear => exact sameHeap_extendFrom s mem _ newsize needsclear

theorem header_post (s₀ s : State) (mem : ℕ) (c : Request) :
    (c.post s₀ s mem).header = s.header := by
  cases c with
  | rstralloc size => rfl
  | rstralloc0 size => exact header_clear s mem size
  | rallocSmall0 size => exact header_clear s mem size
  | rstrextend old newsize needsclear => exact header_extendFrom s mem _ newsize needsclear

/-- The new object. -/
def Request.object (c : Request) (r mem : ℕ) : Object := ⟨r, mem, c.size, c.header⟩

/-- Where the new object lies. -/
theorem Allocated.object {x : ℕ × ℕ × State} {singles bigs : ℕ → List ℕ} {allocfrom : ℕ}
    (h : Allocated s r c.front.1 c.front.2 c.size x singles bigs allocfrom) :
    allocfrom ≤ (c.object r x.2.1).start ∧
      (c.object r x.2.1).start + (if c.header then long else 0) = x.2.1 ∧ long ∣ x.2.1 := by
  have hle := (front_front c).mem1_le allocfrom
  have haligned : long ∣ x.2.1 := by
    rw [h.mem2]
    exact dvd_align _ _
  rw [← h.mem2] at hle
  obtain ⟨hmem1, hmem2⟩ := hle
  rw [Request.front] at hmem1 hmem2
  rw [Request.object, Object.start]
  dsimp only
  cases hheader : c.header with
  | true =>
    rw [hheader, if_pos rfl] at hmem1 hmem2
    rw [if_pos rfl, if_pos rfl]
    dsimp only at hmem1 hmem2
    exact ⟨by omega, by omega, haligned⟩
  | false =>
    rw [hheader, if_neg Bool.false_ne_true] at hmem1 hmem2
    rw [if_neg Bool.false_ne_true, if_neg Bool.false_ne_true]
    dsimp only at hmem1 hmem2
    exact ⟨by omega, rfl, haligned⟩

/-- What a call writes to after `qalloc`. -/
theorem post_of_not {s₀ : State} {z : ℕ} (hz : ¬ ((c.object r mem).start ≤ z ∧
      z < (c.object r mem).stop + long))
    (hstart : (c.object r mem).start + (if c.header then long else 0) = mem) :
    (c.post s₀ s mem).byte z = s.byte z := by
  have hclear : ∀ size, ¬ (mem ≤ z ∧ z < mem + size + long) →
      (s.clear mem size).byte z = s.byte z := by
    intro size hz
    have hle := clearStop_le mem size
    rw [byte_clear]
    exact if_neg fun hin => hz ⟨hin.1, by omega⟩
  cases c with
  | rstralloc size => rfl
  | rstralloc0 size => exact hclear size hz
  | rallocSmall0 size => exact hclear size hz
  | rstrextend old newsize needsclear =>
    have hmem : mem - long = (Request.object (.rstrextend old newsize needsclear) r mem).start := rfl
    rw [← hmem] at hz hstart
    refine extendFrom_of_not hz ?_
    have hlong : (if Request.header (.rstrextend old newsize needsclear) then long else 0) = long :=
      rfl
    omega

/-- The word in front of an object that has one is its size. -/
def Words (s : State) : Prop :=
  ∀ o ∈ s.objects, o.header = true → load long s.byte o.start = o.size

theorem Words.congr (h : Words s) (hsame : SameObjects s s')
    (hstart : ∀ o ∈ s.objects, o.start + (if o.header then long else 0) = o.mem) : Words s' := by
  intro o ho hheader
  rw [hsame.objects] at ho
  rw [← h o ho hheader]
  have hmem := hstart o ho
  rw [if_pos hheader] at hmem
  refine load_congr fun z hz hz' => hsame.byte o ho z hz ?_
  rw [Object.stop]
  omega

/-- What a call for an object does. -/
structure Called (s : State) (r : ℕ) (c : Request) (mem : ℕ) (s' : State)
    (singles bigs : ℕ → List ℕ) : Prop where
  placed : Placed { s' with objects := c.object r mem :: s'.objects } singles bigs
  objects : SameObjects s s'
  links : SameLinks s s'
  word : c.header = true → load long s'.byte (c.object r mem).start = c.size
  contents : ∀ arena, Represents s arena → ∀ i < c.size, ∀ v, c.contents arena i = some v →
    s'.byte (mem + i) = v

/-- **A call for an object** finds room for it, leaves the others alone, and puts into it
what its piece is said to hold. -/
theorem Placed.call (h : Placed s singles bigs) (hwords : Words s)
    (hlegal : Legal s (.ralloc r c l a)) (heq : s.call r l a c = some (mem, s')) :
    ∃ singles' bigs', Called s r c mem s' singles' bigs' := by
  obtain ⟨hr, hsize, hextends, hpages⟩ := hlegal
  rw [call_eq, Option.map_eq_some_iff] at heq
  obtain ⟨x, hqalloc, heq⟩ := heq
  obtain ⟨rfl, rfl⟩ := Prod.mk.inj heq
  obtain ⟨singles', bigs', allocfrom, halloc⟩ :=
    h.qalloc hr (front_front c) hsize hpages hqalloc
  obtain ⟨hle, hstart, haligned⟩ := halloc.object
  have hplaced := halloc.placed
  have hroom := halloc.room
  have hpost := sameHeap_post s x.2.2 x.2.1 c
  have hstop : (c.object r x.2.1).stop = x.2.1 + c.size := rfl
  have hoff : SameObjects x.2.2 (c.post s x.2.2 x.2.1) := by
    refine hroom.sameObjects hplaced hpost fun z hz => post_of_not (r := r) ?_ hstart
    exact fun hin => hz ⟨by omega, by omega⟩
  have hlinks := sameLinks_of_header hpost.owners.regions (header_post s x.2.2 x.2.1 c)
  have hmem : ∀ o ∈ s.objects, o.start + (if o.header then long else 0) = o.mem :=
    fun o ho => (h.object o ho).start_le
  refine ⟨singles', bigs', (hplaced.congr hpost).push (hroom.congr hpost) rfl hle hstart
    (Nat.le_refl _) haligned, halloc.objects.trans hoff, halloc.links.trans hlinks, ?_, ?_⟩
  · intro hheader
    cases c with
    | rstralloc size => cases hheader
    | rstralloc0 size => cases hheader
    | rallocSmall0 size => cases hheader
    | rstrextend old newsize needsclear =>
      have hlong : (if Request.header (.rstrextend old newsize needsclear) then long else 0) = long :=
        rfl
      rw [hlong] at hstart
      refine extendFrom_word (by omega) ?_
      have hlt : newsize < rPageSize := by
        show Request.size (.rstrextend old newsize needsclear) < _
        omega
      rw [rPageSize] at hlt
      omega
  · intro arena hrep i hi v hv
    cases c with
    | rstralloc size => cases hv
    | rstralloc0 size =>
      cases hv
      have hstop := le_clearStop x.2.1 size
      refine (byte_clear x.2.2 x.2.1 size (x.2.1 + i)).trans (if_pos ⟨by omega, ?_⟩)
      exact Nat.lt_of_lt_of_le (Nat.add_lt_add_left hi _) hstop
    | rallocSmall0 size =>
      cases hv
      have hstop := le_clearStop x.2.1 size
      refine (byte_clear x.2.2 x.2.1 size (x.2.1 + i)).trans (if_pos ⟨by omega, ?_⟩)
      exact Nat.lt_of_lt_of_le (Nat.add_lt_add_left hi _) hstop
    | rstrextend old newsize needsclear =>
      have hlong : (if Request.header (.rstrextend old newsize needsclear) then long else 0) = long :=
        rfl
      rw [hlong] at hstart
      rw [Request.contents] at hv
      cases old with
      | none =>
        cases needsclear with
        | false => cases hv
        | true =>
          cases hv
          exact extendFrom_none hi
      | some k =>
        obtain ⟨o, ho, hheader⟩ := hextends
        obtain ⟨v', hv', hholds⟩ := hrep.exists_piece ho
        have hobject : o ∈ s.objects := List.mem_of_getElem? ho
        have hfront := hmem o hobject
        rw [if_pos hheader] at hfront
        have hword : load long x.2.2.byte o.start = o.size :=
          hwords.congr halloc.objects hmem o (halloc.objects.objects ▸ hobject) hheader
        have hclear : ∀ z, o.start ≤ z → z < o.stop →
            ¬ (x.2.1 - long ≤ z ∧ z < x.2.1 + newsize + long) := by
          intro z hz hz' hin
          have hlt := hroom.lt
          have hin' : z < (allocfrom / rPageSize + 1) * rPageSize + pageHeader := by
            have hlt' : x.2.1 + newsize < (allocfrom / rPageSize + 1) * rPageSize := hlt
            rw [pageHeader]
            rw [long] at hin
            omega
          exact hroom.off (halloc.objects.objects ▸ hobject)
            (hplaced.object o (halloc.objects.objects ▸ hobject)) (by omega) hin' ⟨hz, hz'⟩
        obtain ⟨hcopied, hcleared⟩ :=
          extendFrom_some hfront hword (by omega) hclear hi needsclear
        have hold : ((some k).bind (s.objects[·]?)).map Object.mem = some o.mem :=
          congrArg (Option.map Object.mem) ho
        show (extendFrom x.2.2 x.2.1 (((some k).bind (s.objects[·]?)).map Object.mem)
          newsize needsclear).byte (x.2.1 + i) = v
        have hbind : (some k).bind (arena[·]?) = some v' := hv'
        rw [hbind] at hv
        dsimp only at hv
        rw [hold]
        rw [← hholds.size] at hv
        by_cases hmin : i < min o.size newsize
        · rw [if_pos hmin] at hv
          rw [hcopied hmin, halloc.objects.byte o hobject _ (by omega) (by rw [Object.stop]; omega)]
          exact hholds.contents i (by omega) v hv
        · rw [if_neg hmin] at hv
          cases needsclear with
          | false => cases hv
          | true =>
            cases hv
            exact hcleared hmin rfl

end Heap
end Region
end Partee
