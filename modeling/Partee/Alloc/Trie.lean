import Mathlib.Algebra.Group.Nat.Defs
import Mathlib.Data.List.Perm.Subperm
import Mathlib.Data.List.Range
import Mathlib.Logic.Function.Basic
import Mathlib.Tactic.Common

/-!
# The trie of `trie.c`

The lookup table of a task has two levels: an array of pointers to arrays of pointers.
An array of the second level is made when an index that needs it is first asked for.
With `WITH_REGIONS` the arrays come from `__rc_rstralloc0`, which clears them; without,
they come from `malloc`, and nothing writes to them before they are read.

Memory is a function from addresses to words; what an array holds when it is handed
out is up to the allocator.

* `Rep`: what memory looks like after a sequence of calls, when arrays start out clear.
* `trie_isMap_iff`: the trie is a map, and its accesses stay in its arrays, exactly if
  arrays are cleared or happen to be clear already.
* `getNode_garbage`: a trie that is not.
-/

namespace Partee
namespace Trie

/-- `UP_BITS`. -/
def upBits : ℕ := 10

/-- `DOWN_BITS`. -/
def downBits : ℕ := 9

/-- `FIRST_LEVEL`. -/
def firstLevel (x : ℕ) : ℕ := x >>> downBits

/-- `SECOND_LEVEL`. -/
def secondLevel (x : ℕ) : ℕ := x - firstLevel x <<< downBits

/-- The entries of the array of the `k`-th allocation of a trie: the first level comes
first. -/
def entries (k : ℕ) : ℕ := if k = 0 then 2 ^ 10 else 2 ^ 9

/-- `malloc`, or the region allocator: where it puts the `k`-th allocation, and the words
that are there.  Allocations are not `NULL`, and do not overlap. -/
structure Allocator where
  addr : ℕ → ℕ
  words : ℕ → ℕ → ℕ
  addr_pos : ∀ k, 0 < addr k
  apart : ∀ j k, j < k → addr j + 8 * entries j ≤ addr k ∨ addr k + 8 * entries k ≤ addr j

/-- Memory, and the number of allocations made. -/
structure Heap where
  mem : ℕ → ℕ
  allocs : ℕ

/-- Memory with the words `w` in the `n` places from `p` on. -/
def fill (mem : ℕ → ℕ) (p n : ℕ) (w : ℕ → ℕ) (a : ℕ) : ℕ :=
  if p ≤ a ∧ a < p + 8 * n ∧ (a - p) % 8 = 0 then w ((a - p) / 8) else mem a

/-- An access of an array of the trie. -/
inductive Access where
  | first (address : ℕ)
  | second (address : ℕ)

/-- The calls on a trie. -/
inductive Op where
  | getOrCreateNode (index : ℕ)
  | getNode (index : ℕ)
  | setNode (index newNode : ℕ)

def Op.index : Op → ℕ
  | getOrCreateNode index | getNode index | setNode index _ => index

/-- What a call does: memory after it, what it returns, the accesses it makes. -/
structure Outcome where
  heap : Heap
  result : Option ℕ
  accesses : List Access

section

variable (regions : Bool) (alloc : Allocator)

/-- `malloc`, or `__rc_rstralloc0` with `WITH_REGIONS`, of `n` words. -/
def allocate (n : ℕ) (h : Heap) : ℕ × Heap :=
  let p := alloc.addr h.allocs
  let mem := fill h.mem p n (alloc.words h.allocs)
  (p, { mem := if regions then fill mem p n (fun _ => 0) else mem, allocs := h.allocs + 1 })

/-- `new_trie`. -/
def newTrie (mem : ℕ → ℕ) : ℕ × Heap := allocate regions alloc (2 ^ 10) ⟨mem, 0⟩

/-- `get_or_create_node`. -/
def getOrCreateNode (trie index : ℕ) (h : Heap) : Outcome :=
  let slot := trie + 8 * firstLevel index
  let h :=
    if h.mem slot = 0 then
      let new := allocate regions alloc (2 ^ 9) h
      { new.2 with mem := Function.update new.2.mem slot new.1 }
    else h
  let place := h.mem slot + 8 * secondLevel index
  { heap := h, result := some (h.mem place), accesses := [.first slot, .second place] }

/-- `get_node`. -/
def getNode (trie index : ℕ) (h : Heap) : Outcome :=
  let slot := trie + 8 * firstLevel index
  if h.mem slot ≠ 0 then
    let place := h.mem slot + 8 * secondLevel index
    { heap := h, result := some (h.mem place), accesses := [.first slot, .second place] }
  else { heap := h, result := some 0, accesses := [.first slot] }

/-- `set_node`. -/
def setNode (trie index newNode : ℕ) (h : Heap) : Outcome :=
  let slot := trie + 8 * firstLevel index
  let place := h.mem slot + 8 * secondLevel index
  { heap := { h with mem := Function.update h.mem place newNode }, result := none,
    accesses := [.first slot, .second place] }

def perform (trie : ℕ) (h : Heap) : Op → Outcome
  | .getOrCreateNode index => getOrCreateNode regions alloc trie index h
  | .getNode index => getNode trie index h
  | .setNode index newNode => setNode trie index newNode h

/-- Memory after these calls on a new trie, the latest call first. -/
def exec (mem : ℕ → ℕ) : List Op → Heap
  | [] => (newTrie regions alloc mem).2
  | op :: ops => (perform regions alloc (newTrie regions alloc mem).1 (exec mem ops) op).heap

end

/-! ## The statement -/

/-- The value last set for an index, or `NULL`. -/
def lastSet (i : ℕ) : List Op → ℕ
  | [] => 0
  | .setNode index newNode :: ops => if index = i then newNode else lastSet i ops
  | _ :: ops => lastSet i ops

/-- Indices are blocks of the grid, and `set_node` comes after `get_or_create_node`. -/
def Legal : List Op → Prop
  | [] => True
  | op :: ops =>
      op.index < 2 ^ 19 ∧ Legal ops ∧
        ∀ index newNode, op = .setNode index newNode → .getOrCreateNode index ∈ ops

/-- The access falls into the first level, or into an array of the second. -/
def Inside (alloc : Allocator) (h : Heap) : Access → Prop
  | .first a => ∃ i < 2 ^ 10, a = alloc.addr 0 + 8 * i
  | .second a => ∃ k, 1 ≤ k ∧ k < h.allocs ∧ ∃ i < 2 ^ 9, a = alloc.addr k + 8 * i

/-- A call on a trie after some others returns what a map would, and its accesses fall
into the arrays of the trie. -/
def IsMap (regions : Bool) (alloc : Allocator) : Prop :=
  ∀ mem ops op, Legal (op :: ops) →
    let out := perform regions alloc (newTrie regions alloc mem).1 (exec regions alloc mem ops) op
    (∀ x, out.result = some x → x = lastSet op.index ops) ∧
    ∀ a ∈ out.accesses, Inside alloc out.heap a

/-- The arrays of a trie are clear when they are handed out: one of the first level, and
at most one of the second for each entry of it. -/
def Cleared (alloc : Allocator) : Prop :=
  ∀ k ≤ 2 ^ 10, ∀ i < entries k, alloc.words k i = 0

/-! ## Memory -/

theorem firstLevel_eq (x : ℕ) : firstLevel x = x / 2 ^ 9 :=
  Nat.shiftRight_eq_div_pow x downBits

theorem secondLevel_eq (x : ℕ) : secondLevel x = x % 2 ^ 9 := by
  rw [secondLevel, firstLevel_eq, downBits, Nat.shiftLeft_eq]
  omega

theorem firstLevel_lt {x : ℕ} (h : x < 2 ^ 19) : firstLevel x < 2 ^ 10 := by
  rw [firstLevel_eq]
  omega

theorem secondLevel_lt (x : ℕ) : secondLevel x < 2 ^ 9 := by
  rw [secondLevel_eq]
  omega

/-- An index is given by its two levels. -/
theorem index_eq {x y : ℕ} (hf : firstLevel x = firstLevel y)
    (hs : secondLevel x = secondLevel y) : x = y := by
  rw [firstLevel_eq, firstLevel_eq] at hf
  rw [secondLevel_eq, secondLevel_eq] at hs
  omega

/-- Different places of the arrays have different addresses. -/
theorem place_injective (alloc : Allocator) {j k i l : ℕ} (hi : i < entries j)
    (hl : l < entries k) (h : alloc.addr j + 8 * i = alloc.addr k + 8 * l) : j = k ∧ i = l := by
  rcases Nat.lt_trichotomy j k with hjk | rfl | hkj
  · have := alloc.apart j k hjk
    omega
  · exact ⟨rfl, by omega⟩
  · have := alloc.apart k j hkj
    omega

theorem fill_place (mem w : ℕ → ℕ) (p : ℕ) {n i : ℕ} (hi : i < n) :
    fill mem p n w (p + 8 * i) = w i := by
  rw [fill, if_pos (by omega)]
  congr 1
  omega

/-- Filling an array leaves the places of the others. -/
theorem fill_other (alloc : Allocator) (mem w : ℕ → ℕ) {j k i : ℕ} (hjk : j ≠ k)
    (hi : i < entries j) :
    fill mem (alloc.addr k) (entries k) w (alloc.addr j + 8 * i) = mem (alloc.addr j + 8 * i) := by
  rw [fill, if_neg]
  rcases Nat.lt_or_gt_of_ne hjk with h | h
  · have := alloc.apart j k h
    omega
  · have := alloc.apart k j h
    omega

section

variable {regions : Bool} {alloc : Allocator}

/-- What is in an array when `new_trie` and `get_or_create_node` get it. -/
def initial (regions : Bool) (alloc : Allocator) (k i : ℕ) : ℕ :=
  if regions then 0 else alloc.words k i

theorem allocate_place (h : Heap) {i : ℕ} (hi : i < entries h.allocs) :
    (allocate regions alloc (entries h.allocs) h).2.mem (alloc.addr h.allocs + 8 * i) =
      initial regions alloc h.allocs i := by
  rw [allocate, initial]
  split_ifs
  · exact fill_place _ (fun _ => 0) _ hi
  · exact fill_place _ _ _ hi

theorem allocate_other (h : Heap) {j i : ℕ} (hj : j ≠ h.allocs) (hi : i < entries j) :
    (allocate regions alloc (entries h.allocs) h).2.mem (alloc.addr j + 8 * i) =
      h.mem (alloc.addr j + 8 * i) := by
  rw [allocate]
  split_ifs
  · exact (fill_other alloc _ (fun _ => 0) hj hi).trans (fill_other alloc _ _ hj hi)
  · exact fill_other alloc _ _ hj hi

end

/-! ## The representation -/

/-- The number of the allocation made for an entry of the first level, when the second
level has been made for the entries `made`, the latest first; 0 when there is none. -/
def number : List ℕ → ℕ → ℕ
  | [], _ => 0
  | f :: made, g => if g = f then made.length + 1 else number made g

theorem number_le (made : List ℕ) (g : ℕ) : number made g ≤ made.length := by
  induction made with
  | nil => exact Nat.le_refl _
  | cons f made ih =>
    rw [number, List.length_cons]
    split_ifs
    · exact Nat.le_refl _
    · exact Nat.le_succ_of_le ih

theorem number_eq_zero (made : List ℕ) (g : ℕ) : number made g = 0 ↔ g ∉ made := by
  induction made with
  | nil => exact ⟨fun _ => List.not_mem_nil, fun _ => rfl⟩
  | cons f made ih =>
    rw [number, List.mem_cons, not_or]
    rcases eq_or_ne g f with rfl | hne
    · rw [if_pos rfl]
      exact ⟨fun h => absurd h (Nat.succ_ne_zero _), fun h => absurd rfl h.1⟩
    · rw [if_neg hne, ih, and_iff_right hne]

/-- Different entries have different arrays. -/
theorem number_injective {made : List ℕ} {f g : ℕ} (hf : f ∈ made)
    (h : number made f = number made g) : f = g := by
  induction made with
  | nil => exact absurd hf List.not_mem_nil
  | cons e made ih =>
    have hle := number_le made
    rw [number, number] at h
    split_ifs at h with hfe hge hge
    · rw [hfe, hge]
    · exact absurd (hle g) (by omega)
    · exact absurd (hle f) (by omega)
    · exact ih ((List.mem_cons.mp hf).resolve_left hfe) h

/-- What memory looks like after the calls `ops`, when the second level has been made
for the entries `made`. -/
structure Rep (alloc : Allocator) (h : Heap) (ops : List Op) (made : List ℕ) : Prop where
  nodup : made.Nodup
  lt : ∀ f ∈ made, f < 2 ^ 10
  allocs : h.allocs = made.length + 1
  /-- an entry of the first level is `NULL` or its array -/
  first : ∀ f < 2 ^ 10, h.mem (alloc.addr 0 + 8 * f) =
    if f ∈ made then alloc.addr (number made f) else 0
  /-- an entry of the second level is the value last set -/
  second : ∀ i, firstLevel i ∈ made →
    h.mem (alloc.addr (number made (firstLevel i)) + 8 * secondLevel i) = lastSet i ops
  /-- only what has a second level has been set -/
  unset : ∀ i, firstLevel i ∉ made → lastSet i ops = 0
  created : ∀ i, .getOrCreateNode i ∈ ops → firstLevel i ∈ made

namespace Rep

variable {regions : Bool} {alloc : Allocator} {h : Heap} {ops : List Op} {made : List ℕ}

/-- At most one array is made for each entry of the first level. -/
theorem length_le (hnodup : made.Nodup) (hlt : ∀ f ∈ made, f < 2 ^ 10) : made.length ≤ 2 ^ 10 := by
  have hsub : made ⊆ List.range (2 ^ 10) := fun f hf => List.mem_range.mpr (hlt f hf)
  exact (List.Nodup.subperm hnodup hsub).length_le.trans_eq List.length_range

theorem entries_number {f : ℕ} (hf : f ∈ made) : entries (number made f) = 2 ^ 9 :=
  if_neg fun h => (number_eq_zero made f).mp h hf

theorem secondLevel_lt_entries {i : ℕ} (hi : firstLevel i ∈ made) :
    secondLevel i < entries (number made (firstLevel i)) :=
  (secondLevel_lt i).trans_eq (entries_number hi).symm

/-- After `new_trie`. -/
theorem init (mem : ℕ → ℕ) (hclear : ∀ i < entries 0, initial regions alloc 0 i = 0) :
    Rep alloc (newTrie regions alloc mem).2 [] [] where
  nodup := .nil
  lt _ hf := absurd hf List.not_mem_nil
  allocs := rfl
  first f hf := by
    rw [if_neg List.not_mem_nil]
    exact (allocate_place ⟨mem, 0⟩ hf).trans (hclear f hf)
  second _ hi := absurd hi List.not_mem_nil
  unset _ _ := rfl
  created _ hi := absurd hi List.not_mem_nil

/-- Making the second level for an entry. -/
theorem create (hrep : Rep alloc h ops made) {f : ℕ} (hf : f < 2 ^ 10) (hnew : f ∉ made)
    (hclear : ∀ i < entries h.allocs, initial regions alloc h.allocs i = 0) :
    Rep alloc { (allocate regions alloc (2 ^ 9) h).2 with
      mem := Function.update (allocate regions alloc (2 ^ 9) h).2.mem (alloc.addr 0 + 8 * f)
        (alloc.addr h.allocs) } ops (f :: made) := by
  have hallocs : h.allocs ≠ 0 := by rw [hrep.allocs]; exact Nat.succ_ne_zero _
  have hentries : 2 ^ 9 = entries h.allocs := (if_neg hallocs).symm
  have hnumber : ∀ g ∈ made, number (f :: made) g = number made g := fun g hg =>
    if_neg fun hgf : g = f => hnew (hgf ▸ hg)
  rw [hentries]
  refine ⟨List.nodup_cons.mpr ⟨hnew, hrep.nodup⟩, ?_, ?_, fun g hg => ?_, fun i hi => ?_,
    fun i hi => hrep.unset i fun hmem => hi (List.mem_cons_of_mem _ hmem),
    fun i hi => List.mem_cons_of_mem _ (hrep.created i hi)⟩
  · intro g hg
    rcases List.mem_cons.mp hg with rfl | hg
    · exact hf
    · exact hrep.lt g hg
  · show h.allocs + 1 = _
    rw [hrep.allocs, List.length_cons]
  · show Function.update _ _ _ _ = _
    rcases eq_or_ne g f with rfl | hgf
    · rw [Function.update_self, if_pos List.mem_cons_self, number, if_pos rfl, hrep.allocs]
    · have hne : alloc.addr 0 + 8 * g ≠ alloc.addr 0 + 8 * f := fun he =>
        hgf (place_injective alloc hg hf he).2
      rw [Function.update_of_ne hne, allocate_other h hallocs.symm hg, hrep.first g hg]
      by_cases hmem : g ∈ made
      · rw [if_pos hmem, if_pos (List.mem_cons_of_mem _ hmem), hnumber g hmem]
      · rw [if_neg hmem, if_neg fun h => (List.mem_cons.mp h).elim hgf hmem]
  · show Function.update _ _ _ _ = _
    have hs := secondLevel_lt_entries hi
    have hslot : alloc.addr (number (f :: made) (firstLevel i)) + 8 * secondLevel i ≠
        alloc.addr 0 + 8 * f := fun he =>
      (number_eq_zero _ _).mp (place_injective alloc hs hf he).1 hi
    rw [Function.update_of_ne hslot]
    rcases List.mem_cons.mp hi with hif | hmem
    · -- a place of the new array
      have hthis : number (f :: made) (firstLevel i) = h.allocs := by
        rw [number, if_pos hif, hrep.allocs]
      rw [hthis] at hs ⊢
      rw [allocate_place h hs, hclear _ hs, hrep.unset i fun hmem => hnew (hif ▸ hmem)]
    · have hold : number made (firstLevel i) ≠ h.allocs := by
        have := number_le made (firstLevel i)
        rw [hrep.allocs]
        omega
      rw [hnumber _ hmem] at hs ⊢
      rw [allocate_other h hold hs, hrep.second i hmem]

/-- `set_node` on an index that has a second level. -/
theorem set (hrep : Rep alloc h ops made) {index : ℕ} (hmade : firstLevel index ∈ made)
    (newNode : ℕ) :
    Rep alloc
      { h with
        mem := Function.update h.mem
          (alloc.addr (number made (firstLevel index)) + 8 * secondLevel index) newNode }
      (.setNode index newNode :: ops) made := by
  have hs := secondLevel_lt_entries hmade
  refine ⟨hrep.nodup, hrep.lt, hrep.allocs, fun f hf => ?_, fun i hi => ?_, fun i hi => ?_,
    fun i hi => ?_⟩
  · have hne : alloc.addr 0 + 8 * f ≠
        alloc.addr (number made (firstLevel index)) + 8 * secondLevel index := fun he =>
      (number_eq_zero _ _).mp (place_injective alloc hf hs he).1.symm hmade
    show Function.update _ _ _ _ = _
    rw [Function.update_of_ne hne, hrep.first f hf]
  · show Function.update _ _ _ _ = _
    rw [lastSet]
    split_ifs with heq
    · rw [heq, Function.update_self]
    · have hne : alloc.addr (number made (firstLevel i)) + 8 * secondLevel i ≠
          alloc.addr (number made (firstLevel index)) + 8 * secondLevel index := by
        intro he
        obtain ⟨hnumber, hsecond⟩ := place_injective alloc (secondLevel_lt_entries hi) hs he
        exact heq (index_eq (number_injective hi hnumber) hsecond).symm
      rw [Function.update_of_ne hne, hrep.second i hi]
  · rw [lastSet, if_neg fun heq : index = i => hi (heq ▸ hmade)]
    exact hrep.unset i hi
  · rcases List.mem_cons.mp hi with heq | hi
    · cases heq
    · exact hrep.created i hi

/-- `get_node`, or `get_or_create_node` when there is nothing to create. -/
theorem read (hrep : Rep alloc h ops made) {op : Op}
    (hop : op = .getNode op.index ∨ firstLevel op.index ∈ made ∧ op = .getOrCreateNode op.index) :
    Rep alloc h (op :: ops) made := by
  have hset : ∀ i, lastSet i (op :: ops) = lastSet i ops := by
    rcases hop with hop | ⟨-, hop⟩
    · rw [hop]
      exact fun _ => rfl
    · rw [hop]
      exact fun _ => rfl
  refine ⟨hrep.nodup, hrep.lt, hrep.allocs, hrep.first, fun i hi => ?_, fun i hi => ?_,
    fun i hi => ?_⟩
  · rw [hset, hrep.second i hi]
  · rw [hset, hrep.unset i hi]
  · rcases List.mem_cons.mp hi with heq | hi
    · rcases hop with hop | ⟨hmade, -⟩
      · rw [hop] at heq
        cases heq
      · rw [← heq] at hmade
        exact hmade
    · exact hrep.created i hi

/-- The accesses for an index whose second level has been made. -/
theorem inside (hrep : Rep alloc h ops made) {index : ℕ} (hmade : firstLevel index ∈ made) :
    ∀ a ∈ [Access.first (alloc.addr 0 + 8 * firstLevel index), .second
      (alloc.addr (number made (firstLevel index)) + 8 * secondLevel index)], Inside alloc h a := by
  have hpos : number made (firstLevel index) ≠ 0 := fun h => (number_eq_zero _ _).mp h hmade
  have hle := number_le made (firstLevel index)
  intro a ha
  rcases List.mem_cons.mp ha with rfl | ha
  · exact ⟨_, hrep.lt _ hmade, rfl⟩
  · rw [List.mem_singleton.mp ha]
    refine ⟨_, Nat.one_le_iff_ne_zero.mpr hpos, ?_, _, secondLevel_lt index, rfl⟩
    rw [hrep.allocs]
    omega

theorem mem_slot (hrep : Rep alloc h ops made) {index : ℕ} (hmade : firstLevel index ∈ made) :
    h.mem (alloc.addr 0 + 8 * firstLevel index) = alloc.addr (number made (firstLevel index)) := by
  rw [hrep.first _ (hrep.lt _ hmade), if_pos hmade]

theorem mem_slot_ne (hrep : Rep alloc h ops made) {index : ℕ} (hmade : firstLevel index ∈ made) :
    h.mem (alloc.addr 0 + 8 * firstLevel index) ≠ 0 := by
  rw [hrep.mem_slot hmade]
  exact Nat.ne_of_gt (alloc.addr_pos _)

theorem mem_slot_eq_zero (hrep : Rep alloc h ops made) {index : ℕ}
    (hlt : firstLevel index < 2 ^ 10) (hmade : firstLevel index ∉ made) :
    h.mem (alloc.addr 0 + 8 * firstLevel index) = 0 := by
  rw [hrep.first _ hlt, if_neg hmade]

end Rep

/-- A call that does what it should: memory is represented again, what is returned is the
value last set, and the accesses fall into the arrays. -/
structure Outcome.Ok (alloc : Allocator) (out : Outcome) (op : Op) (ops : List Op) : Prop where
  rep : ∃ made, Rep alloc out.heap (op :: ops) made
  result : ∀ x, out.result = some x → x = lastSet op.index ops
  inside : ∀ a ∈ out.accesses, Inside alloc out.heap a

namespace Rep

variable {regions : Bool} {alloc : Allocator} {h : Heap} {ops : List Op} {made : List ℕ}

/-- `get_or_create_node` on an index whose second level is there. -/
theorem getOrCreateNode_of_mem (hrep : Rep alloc h ops made) {index : ℕ}
    (hmade : firstLevel index ∈ made) :
    (getOrCreateNode regions alloc (alloc.addr 0) index h).Ok alloc (.getOrCreateNode index)
      ops := by
  rw [getOrCreateNode, if_neg (hrep.mem_slot_ne hmade), hrep.mem_slot hmade]
  refine ⟨⟨made, hrep.read (.inr ⟨hmade, rfl⟩)⟩, fun x hx => ?_, hrep.inside hmade⟩
  rw [← Option.some.inj hx]
  exact hrep.second index hmade

/-- `get_or_create_node`. -/
theorem getOrCreateNode (hrep : Rep alloc h ops made) {index : ℕ}
    (hlt : firstLevel index < 2 ^ 10)
    (hclear : ∀ k ≤ 2 ^ 10, ∀ i < entries k, initial regions alloc k i = 0) :
    (getOrCreateNode regions alloc (alloc.addr 0) index h).Ok alloc (.getOrCreateNode index)
      ops := by
  by_cases hmade : firstLevel index ∈ made
  · exact hrep.getOrCreateNode_of_mem hmade
  · -- the call goes on as if the second level had been there
    have hlength : (firstLevel index :: made).length ≤ 2 ^ 10 := by
      refine length_le (List.nodup_cons.mpr ⟨hmade, hrep.nodup⟩) fun f hf => ?_
      rcases List.mem_cons.mp hf with rfl | hf
      · exact hlt
      · exact hrep.lt f hf
    have hcreate := hrep.create hlt hmade
      (hclear h.allocs (hrep.allocs.trans_le hlength))
    have hok : (Trie.getOrCreateNode regions alloc (alloc.addr 0) index _).Ok alloc
        (.getOrCreateNode index) ops := hcreate.getOrCreateNode_of_mem List.mem_cons_self
    rw [Trie.getOrCreateNode, if_neg (hcreate.mem_slot_ne List.mem_cons_self)] at hok
    rw [Trie.getOrCreateNode, if_pos (hrep.mem_slot_eq_zero hlt hmade)]
    exact hok

theorem getNode (hrep : Rep alloc h ops made) {index : ℕ} (hlt : firstLevel index < 2 ^ 10) :
    (getNode (alloc.addr 0) index h).Ok alloc (.getNode index) ops := by
  by_cases hmade : firstLevel index ∈ made
  · rw [Trie.getNode, if_pos (hrep.mem_slot_ne hmade)]
    dsimp only
    rw [hrep.mem_slot hmade]
    refine ⟨⟨made, hrep.read (.inl rfl)⟩, fun x hx => ?_, hrep.inside hmade⟩
    rw [← Option.some.inj hx]
    exact hrep.second index hmade
  · rw [Trie.getNode, if_neg (not_not.mpr (hrep.mem_slot_eq_zero hlt hmade))]
    refine ⟨⟨made, hrep.read (.inl rfl)⟩, fun x hx => ?_, fun a ha => ?_⟩
    · rw [← Option.some.inj hx]
      exact (hrep.unset index hmade).symm
    · rw [List.mem_singleton.mp ha]
      exact ⟨_, hlt, rfl⟩

theorem setNode (hrep : Rep alloc h ops made) {index : ℕ}
    (hcreated : .getOrCreateNode index ∈ ops) (newNode : ℕ) :
    (setNode (alloc.addr 0) index newNode h).Ok alloc (.setNode index newNode) ops := by
  have hmade := hrep.created index hcreated
  rw [Trie.setNode, hrep.mem_slot hmade]
  have hrep' := hrep.set hmade newNode
  exact ⟨⟨made, hrep'⟩, fun x hx => (Option.some_ne_none x hx.symm).elim, hrep'.inside hmade⟩

end Rep

section

variable {regions : Bool} {alloc : Allocator}

/-- **One call.** -/
theorem perform_of_rep (hclear : ∀ k ≤ 2 ^ 10, ∀ i < entries k, initial regions alloc k i = 0)
    {h : Heap} {ops : List Op} {made : List ℕ} (hrep : Rep alloc h ops made) {op : Op}
    (hlegal : Legal (op :: ops)) :
    (perform regions alloc (alloc.addr 0) h op).Ok alloc op ops := by
  obtain ⟨hindex, -, hset⟩ := hlegal
  have hlt := firstLevel_lt hindex
  cases op with
  | getOrCreateNode index => exact hrep.getOrCreateNode hlt hclear
  | getNode index => exact hrep.getNode hlt
  | setNode index newNode => exact hrep.setNode (hset index newNode rfl) newNode

/-- **A sequence of calls.** -/
theorem exists_rep (hclear : ∀ k ≤ 2 ^ 10, ∀ i < entries k, initial regions alloc k i = 0)
    (mem : ℕ → ℕ) {ops : List Op} (hlegal : Legal ops) :
    ∃ made, Rep alloc (exec regions alloc mem ops) ops made := by
  induction ops with
  | nil => exact ⟨[], .init mem (hclear 0 (Nat.zero_le _))⟩
  | cons op ops ih =>
    obtain ⟨made, hrep⟩ := ih hlegal.2.1
    exact (perform_of_rep hclear hrep hlegal).rep

theorem isMap_of_initial
    (hclear : ∀ k ≤ 2 ^ 10, ∀ i < entries k, initial regions alloc k i = 0) :
    IsMap regions alloc := by
  intro mem ops op hlegal
  obtain ⟨made, hrep⟩ := exists_rep hclear mem hlegal.2.1
  have hok := perform_of_rep hclear hrep hlegal
  exact ⟨hok.result, hok.inside⟩

/-! ## Arrays that are not clear -/

/-- The value `get_or_create_node` returns when it makes the second level. -/
theorem getOrCreateNode_result {h : Heap} (hallocs : h.allocs ≠ 0) {index : ℕ}
    (hlt : firstLevel index < 2 ^ 10) (hnull : h.mem (alloc.addr 0 + 8 * firstLevel index) = 0) :
    (getOrCreateNode regions alloc (alloc.addr 0) index h).result =
      some (initial regions alloc h.allocs (secondLevel index)) := by
  have hentries : 2 ^ 9 = entries h.allocs := (if_neg hallocs).symm
  have hs : secondLevel index < entries h.allocs := hentries ▸ secondLevel_lt index
  have hplace : alloc.addr h.allocs + 8 * secondLevel index ≠
      alloc.addr 0 + 8 * firstLevel index := fun he =>
    hallocs (place_injective alloc hs hlt he).1
  have hnew : (allocate regions alloc (entries h.allocs) h).1 = alloc.addr h.allocs := rfl
  rw [getOrCreateNode, if_pos hnull, hentries]
  dsimp only
  rw [Function.update_self, hnew, Function.update_of_ne hplace, allocate_place h hs]

/-- The calls that make the second level for the first `n` entries. -/
def creates : ℕ → List Op
  | 0 => []
  | n + 1 => .getOrCreateNode (n * 2 ^ 9) :: creates n

theorem firstLevel_mul (n : ℕ) : firstLevel (n * 2 ^ 9) = n := by
  rw [firstLevel_eq, Nat.mul_div_cancel n (Nat.two_pow_pos 9)]

theorem firstLevel_mul_add (n : ℕ) {i : ℕ} (hi : i < 2 ^ 9) : firstLevel (n * 2 ^ 9 + i) = n := by
  rw [firstLevel_eq]
  omega

theorem secondLevel_mul_add (n : ℕ) {i : ℕ} (hi : i < 2 ^ 9) :
    secondLevel (n * 2 ^ 9 + i) = i := by
  rw [secondLevel_eq]
  omega

theorem legal_creates {n : ℕ} (hn : n ≤ 2 ^ 10) : Legal (creates n) := by
  induction n with
  | zero => trivial
  | succ n ih =>
    refine ⟨?_, ih (Nat.le_of_succ_le hn), fun _ _ h => by cases h⟩
    show n * 2 ^ 9 < 2 ^ 19
    omega

theorem lastSet_creates (i n : ℕ) : lastSet i (creates n) = 0 := by
  induction n with
  | zero => rfl
  | succ n ih => exact ih

/-- With a first level that was clear, each of them makes one allocation. -/
theorem exec_creates (hclear : ∀ i < entries 0, initial regions alloc 0 i = 0) (mem : ℕ → ℕ)
    {n : ℕ} (hn : n ≤ 2 ^ 10) :
    (exec regions alloc mem (creates n)).allocs = n + 1 ∧
    ∀ f, n ≤ f → f < 2 ^ 10 →
      (exec regions alloc mem (creates n)).mem (alloc.addr 0 + 8 * f) = 0 := by
  induction n with
  | zero =>
    refine ⟨rfl, fun f _ hf => ?_⟩
    exact (allocate_place ⟨mem, 0⟩ hf).trans (hclear f hf)
  | succ n ih =>
    obtain ⟨hallocs, hnull⟩ := ih (Nat.le_of_succ_le hn)
    have hfirst : firstLevel (n * 2 ^ 9) = n := firstLevel_mul n
    have hne : (exec regions alloc mem (creates n)).allocs ≠ 0 := by
      rw [hallocs]
      exact Nat.succ_ne_zero n
    have hexec : exec regions alloc mem (creates (n + 1)) =
        (getOrCreateNode regions alloc (alloc.addr 0) (n * 2 ^ 9)
          (exec regions alloc mem (creates n))).heap := rfl
    rw [hexec, getOrCreateNode, hfirst, if_pos (hnull n (Nat.le_refl n) hn)]
    refine ⟨congrArg Nat.succ hallocs, fun f hnf hf => ?_⟩
    have hslot : alloc.addr 0 + 8 * f ≠ alloc.addr 0 + 8 * n := by omega
    have hentries : 2 ^ 9 = entries (exec regions alloc mem (creates n)).allocs :=
      (if_neg hne).symm
    show Function.update _ _ _ _ = _
    rw [Function.update_of_ne hslot, hentries, allocate_other _ hne.symm hf]
    exact hnull f (Nat.le_of_succ_le hnf) hf

/-- A trie that is a map gets clear arrays. -/
theorem initial_of_isMap (h : IsMap regions alloc) :
    ∀ k ≤ 2 ^ 10, ∀ i < entries k, initial regions alloc k i = 0 := by
  have hzero : ∀ i < entries 0, initial regions alloc 0 i = 0 := by
    intro i hi
    by_contra hne
    -- the entry is taken for an array, and there is none yet
    have hi' : i < 2 ^ 10 := hi
    have hfirst : firstLevel (i * 2 ^ 9) = i := firstLevel_mul i
    have hslot : (newTrie regions alloc fun _ => 0).2.mem (alloc.addr 0 + 8 * i) ≠ 0 :=
      fun he => hne ((allocate_place ⟨fun _ => 0, 0⟩ hi).symm.trans he)
    have hindex : i * 2 ^ 9 < 2 ^ 19 := by omega
    have hinside := (h (fun _ => 0) [] (.getNode (i * 2 ^ 9))
      ⟨hindex, trivial, fun _ _ he => by cases he⟩).2
    have hget : perform regions alloc (newTrie regions alloc fun _ => 0).1
        (exec regions alloc (fun _ => 0) []) (.getNode (i * 2 ^ 9)) =
        getNode (alloc.addr 0) (i * 2 ^ 9) (newTrie regions alloc fun _ => 0).2 := rfl
    rw [hget, getNode, hfirst, if_pos hslot] at hinside
    obtain ⟨k, hk, hlt, -⟩ := hinside _ (List.mem_cons_of_mem _ List.mem_cons_self)
    exact absurd hlt (Nat.not_lt.mpr hk)
  intro k hk i hi
  rcases Nat.eq_zero_or_pos k with rfl | hpos
  · exact hzero i hi
  · obtain ⟨n, rfl⟩ := Nat.exists_eq_add_of_le' hpos
    have hi' : i < 2 ^ 9 := hi
    have hn : n < 2 ^ 10 := hk
    obtain ⟨hallocs, hnull⟩ := exec_creates hzero (fun _ => 0) (Nat.le_of_lt hn)
    have hfirst := firstLevel_mul_add n hi'
    have hindex : n * 2 ^ 9 + i < 2 ^ 19 := by omega
    have hset : lastSet (n * 2 ^ 9 + i) (creates n) = 0 := lastSet_creates _ n
    have hresult : (getOrCreateNode regions alloc (alloc.addr 0) (n * 2 ^ 9 + i)
        (exec regions alloc (fun _ => 0) (creates n))).result = _ :=
      getOrCreateNode_result (hallocs.trans_ne (Nat.succ_ne_zero n)) (hfirst.trans_lt hn)
        (by rw [hfirst]; exact hnull n (Nat.le_refl n) hn)
    rw [hallocs, secondLevel_mul_add n hi'] at hresult
    exact ((h (fun _ => 0) (creates n) (.getOrCreateNode (n * 2 ^ 9 + i))
      ⟨hindex, legal_creates (Nat.le_of_lt hn), fun _ _ he => by cases he⟩).1 _ hresult).trans hset

end

/-! ## Both builds -/

theorem initial_eq_zero_iff (regions : Bool) (alloc : Allocator) :
    (∀ k ≤ 2 ^ 10, ∀ i < entries k, initial regions alloc k i = 0) ↔
      regions = true ∨ Cleared alloc := by
  cases regions with
  | true => exact ⟨fun _ => .inl rfl, fun _ _ _ _ _ => rfl⟩
  | false => exact ⟨.inr, fun h => h.resolve_left Bool.false_ne_true⟩

/-- **The trie is a map exactly if its arrays are cleared.**  With `WITH_REGIONS` they
always are; with `malloc`, whether the words it hands out are zero decides. -/
theorem trie_isMap_iff (regions : Bool) (alloc : Allocator) :
    IsMap regions alloc ↔ regions = true ∨ Cleared alloc := by
  rw [← initial_eq_zero_iff]
  exact ⟨initial_of_isMap, isMap_of_initial⟩

/-- The two calls of `create_dependency` at a block update the map there, which is how
`Runtime.State` has the lookup table of a task. -/
theorem lastSet_createDependency {ops : List Op} (hlegal : Legal ops) {j : ℕ} (hj : j < 2 ^ 19)
    (newMetadata : ℕ) :
    Legal (.setNode j newMetadata :: .getOrCreateNode j :: ops) ∧
      (fun i => lastSet i (.setNode j newMetadata :: .getOrCreateNode j :: ops)) =
        Function.update (fun i => lastSet i ops) j newMetadata := by
  refine ⟨⟨hj, ⟨hj, hlegal, fun _ _ he => by cases he⟩, ?_⟩, funext fun i => ?_⟩
  · intro index newNode he
    cases he
    exact List.mem_cons_self
  · show (if j = i then newMetadata else lastSet i ops) = _
    rcases eq_or_ne i j with rfl | hij
    · rw [if_pos rfl, Function.update_self]
    · rw [if_neg hij.symm, Function.update_of_ne hij]

/-- An allocator that hands out words that are not zero. -/
def garbage : Allocator where
  addr k := 8192 * (k + 1)
  words _ _ := 1
  addr_pos k := by omega
  apart j k hjk := by
    rw [entries]
    split_ifs <;> omega

/-- **A new trie that is not empty.**  Without `WITH_REGIONS` the first look-up takes a
word of the new array for a pointer. -/
theorem getNode_garbage :
    (getNode (newTrie false garbage fun _ => 7).1 0 (newTrie false garbage fun _ => 7).2).result =
        some 7 ∧
      ¬ IsMap false garbage := by
  have hresult : (getNode (newTrie false garbage fun _ => 7).1 0
      (newTrie false garbage fun _ => 7).2).result = some 7 := by decide
  refine ⟨hresult, fun h => ?_⟩
  have hzero := (h (fun _ => 7) [] (.getNode 0) ⟨by decide, trivial, fun _ _ he => by cases he⟩).1 7
    hresult
  cases hzero

end Trie
end Partee
