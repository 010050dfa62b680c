import Partee.Region.Forest

/-!
# Histories of the regions

What holds after every history of calls, however the page allocator picks its lists and
wherever `malloc` puts its blocks.

* `objects_apart`: objects do not overlap, and every address of an object, with the one
  behind it, is an address of its region.
* `heap_refines_arena`: memory holds what the arena says.
* `regions_forest`: the lists of children are right, and a region can be deleted exactly if
  it has no children.
* `pages_owned`: what the page allocator has handed out belongs to the regions.
-/

namespace Partee
namespace Region
namespace Heap

open Transition Memory Pages
open Delete (Header Mem Field Owns SameLists)

/-- **The invariant.** -/
structure Inv (s : State) (singles bigs kids : ℕ → List ℕ) : Prop where
  placed : Placed s singles bigs
  words : Words s
  forest : Forest s.mem s.regions kids

variable {s s' : State} {singles bigs kids : ℕ → List ℕ} {r l : ℕ} {a : Malloc} {label : Label}

theorem SameLinks.forest (hlinks : SameLinks s s') (h : Forest s.mem s.regions kids) :
    Forest s'.mem s'.regions kids := by
  rw [hlinks.regions]
  exact h.congr hlinks.sibling hlinks.parent hlinks.children

theorem Placed.start_le (h : Placed s singles bigs) :
    ∀ o ∈ s.objects, o.start + (if o.header then long else 0) = o.mem :=
  fun o ho => (h.object o ho).start_le

theorem Placed.start_le_mem (h : Placed s singles bigs) : ∀ o ∈ s.objects, o.start ≤ o.mem :=
  fun o ho => (h.object o ho).start_bounds.2

namespace Inv

/-! ## An object -/

theorem ralloc (h : Inv s singles bigs kids) {c : Request} (hlegal : Legal s (.ralloc r c l a))
    (hstep : Heap.step s (.ralloc r c l a) = some s') :
    (∃ singles' bigs', Inv s' singles' bigs' kids) ∧
      ∀ arena, Represents s arena → Represents s' (Label.spec arena (.ralloc r c l a)) := by
  rw [Heap.step, Option.map_eq_some_iff] at hstep
  obtain ⟨⟨mem, s₁⟩, hcall, rfl⟩ := hstep
  obtain ⟨singles', bigs', hplaced, hobjects, hlinks, hword, hcontents⟩ :=
    h.placed.call h.words hlegal hcall
  refine ⟨⟨singles', bigs', hplaced, ?_, hlinks.forest h.forest⟩, fun arena hrep => ?_⟩
  · have hwords := h.words.congr hobjects h.placed.start_le
    show ∀ o ∈ c.object r mem :: s₁.objects, _
    rw [List.forall_mem_cons]
    exact ⟨hword, hwords⟩
  · have hrep' := hrep.congr hobjects h.placed.start_le_mem
    exact hrep'.cons (o := c.object r mem) ⟨rfl, rfl, hcontents arena hrep⟩

/-! ## A write -/

theorem write (h : Inv s singles bigs kids) {k i : ℕ} {x : UInt8}
    (hlegal : Legal s (.write k i x)) (hstep : Heap.step s (.write k i x) = some s') :
    Inv s' singles bigs kids ∧
      ∀ arena, Represents s arena → Represents s' (Label.spec arena (.write k i x)) := by
  obtain ⟨o, ho, hi⟩ := hlegal
  rw [Heap.step, show s.objects[k]? = some o from ho] at hstep
  cases hstep
  refine ⟨⟨h.placed.congr (sameHeap_byte s _), ?_, h.forest⟩, fun arena hrep =>
    hrep.write h.placed.apart h.placed.start_le_mem ho hi x⟩
  -- no word in front of an object lies in an object
  show ∀ o' ∈ s.objects, o'.header = true →
    load long (Function.update s.byte (o.mem + i) x) o'.start = o'.size
  intro o' ho' hheader
  rw [← h.words o' ho' hheader]
  refine load_congr fun z hz hz' => Function.update_of_ne ?_ _ _
  have hstart := h.placed.start_le o' ho'
  rw [if_pos hheader] at hstart
  obtain ⟨hk, rfl⟩ := List.getElem?_eq_some_iff.mp ho
  obtain ⟨k', hk', rfl⟩ := List.getElem_of_mem ho'
  have hle := h.placed.start_le_mem _ (List.getElem_mem hk)
  rcases Nat.lt_trichotomy k k' with hlt | rfl | hgt
  · have hapart := List.pairwise_iff_getElem.mp h.placed.apart k k' hk hk' hlt
    rw [Apart, Object.stop, Object.stop] at hapart
    omega
  · omega
  · have hapart := List.pairwise_iff_getElem.mp h.placed.apart k' k hk' hk hgt
    rw [Apart, Object.stop, Object.stop] at hapart
    omega

/-! ## A new region -/

theorem newsubregion (h : Inv s singles bigs kids) {parent : Option ℕ} {passes : ℕ}
    (hlegal : Legal s (.newsubregion parent passes l a))
    (hstep : Heap.step s (.newsubregion parent passes l a) = some s') :
    (∃ singles' bigs' kids', Inv s' singles' bigs' kids') ∧ SameObjects s s' := by
  obtain ⟨hparent, hlegal⟩ := hlegal
  rw [Heap.step, Option.map_eq_some_iff] at hstep
  obtain ⟨⟨r, s₁⟩, hnew, rfl⟩ := hstep
  rw [Heap.newsubregion, Option.bind_eq_some_iff] at hnew
  obtain ⟨⟨r', t⟩, halloc, hnew⟩ := hnew
  dsimp only at hnew
  have hgrant := grant_single h.placed.owned.inv hlegal halloc
  have howned := h.placed.owned.newsubregion hlegal halloc
  obtain ⟨pages, -, -, -, -, rfl⟩ := allocSinglePage_eq halloc
  have hr : r' ∉ s.regions := fun hr => hgrant.fresh (h.placed.owned.region_out hr)
  have hne : ∀ c ∈ s.regions, c ≠ r' := by
    rintro c hc rfl
    exact hr hc
  set u := initregion ((State.put { s with pages := pages }
    (State.mem { s with pages := pages } |>.postclear r'))) r' with hu
  have hheader : ∀ c, u.header c = if c = r' then { Header.zero with pages := some r' }
      else s.header c := by
    intro c
    show ((Mem.postclear ⟨pages.mem, s.header⟩ r').initregion r').header c = _
    rw [Mem.initregion, Mem.postclear]
    split_ifs with hc
    · rw [hc, Mem.header_modify_self, Mem.header_modify_self]
      rfl
    · rw [Mem.header_modify_of_ne _ hc, Mem.header_modify_of_ne _ hc]
  have hself : u.header r' = { Header.zero with pages := some r' } := by
    rw [hheader, if_pos rfl]
  have hplaced : Placed { u with regions := r' :: u.regions } (Function.update singles r' [r'])
      (Function.update bigs r' []) := by
    refine ⟨howned, ?_, fun o ho => ?_, h.placed.apart⟩
    · show ∀ c ∈ r' :: s.regions, _
      rw [List.forall_mem_cons]
      constructor
      · rw [Function.update_self]
        refine ⟨r', List.mem_singleton_self r', ?_⟩
        show Current (Function.update s.block r' _ r') r' r'
        rw [Function.update_self]
        refine ⟨rfl, ?_, ?_⟩
        · exact Nat.le_of_eq (by rw [front, if_pos rfl])
        · show r' * rPageSize + pageHeader + regionHeader ≤ _
          rw [rPageSize, pageHeader, regionHeader]
          omega
      · intro c hc
        rw [Function.update_of_ne (hne c hc)]
        show ∃ p ∈ singles c, Current (Function.update s.block r' _ c) c p
        rw [Function.update_of_ne (hne c hc)]
        exact h.placed.current c hc
    · have ho' := h.placed.object o ho
      have hor := hne o.region ho'.region
      refine ho'.mono (List.mem_cons_of_mem r' ho'.region) (fun p hp => ?_) ?_
      · rw [Function.update_of_ne hor, Function.update_of_ne hor]
        exact hp
      · show (Function.update s.block r' _ o.region).base = _ →
          _ ≤ (Function.update s.block r' _ o.region).allocfrom
        rw [Function.update_of_ne hor]
        exact ho'.used
  have hforest : Forest u.mem (r' :: u.regions) (Function.update kids r' []) := by
    refine h.forest.cons hr (fun c hc => ?_) ?_ ?_ ?_
    · show u.header c = s.header c
      rw [hheader, if_neg (hne c hc)]
    · show (u.header r').sibling = none
      rw [hself]
      rfl
    · show (u.header r').parent = none
      rw [hself]
      rfl
    · show (u.header r').children = none
      rw [hself]
      rfl
  have hobjects : SameObjects s u := ⟨rfl, fun _ _ _ _ _ => rfl⟩
  have hregions : u.regions = s.regions := rfl
  have hwords : Words u := h.words
  clear_value u
  cases parent with
  | none =>
    obtain ⟨rfl, rfl⟩ := Prod.mk.inj (Option.some.inj hnew)
    exact ⟨⟨_, _, _, hplaced, hwords, hforest⟩, hobjects.objects, hobjects.byte⟩
  | some q =>
    dsimp only at hnew
    split_ifs at hnew
    obtain ⟨rfl, rfl⟩ := Prod.mk.inj (Option.some.inj hnew)
    have hnone : parent u.mem r' = none := congrArg Header.parent hself
    have hlinked : Placed (State.put { u with regions := r' :: u.regions }
        (u.mem.linkRegion r' q)) _ _ :=
      hplaced.congr ⟨sameOwners_put (sameLists_linkRegion u.mem r' q), rfl, rfl⟩
    rw [← hregions] at hr hparent
    exact ⟨⟨_, _, _, hlinked, hwords, hforest.link (hparent q rfl) hr hnone⟩,
      hobjects.objects, hobjects.byte⟩

/-! ## A deletion -/

/-- A region goes, with its pages and its objects. -/
theorem erase (h : Inv s singles bigs kids) {s₁ : State}
    (howned : Owned { s₁ with regions := s.regions.erase r } singles bigs)
    (hblock : s₁.block = s.block) (hbyte : s₁.byte = s.byte) {kids' : ℕ → List ℕ}
    (hforest : Forest s₁.mem (s.regions.erase r) kids') :
    Inv { s₁ with
      regions := s.regions.erase r
      objects := s.objects.filter (·.region ≠ r) } singles bigs kids' := by
  have hmem : ∀ c, c ∈ s.regions.erase r ↔ c ≠ r ∧ c ∈ s.regions := fun c =>
    List.Nodup.mem_erase_iff h.placed.owned.nodup
  have hobject : ∀ o, o ∈ (s.objects.filter fun o => o.region ≠ r) →
      o ∈ s.objects ∧ o.region ≠ r := by
    intro o ho
    rw [List.mem_filter, decide_eq_true_iff] at ho
    exact ho
  refine ⟨⟨?_, fun c hc => ?_, fun o ho => ?_, ?_⟩, fun o ho => ?_, hforest⟩
  · exact howned.congr
      ⟨rfl, rfl, rfl, rfl, rfl, rfl, rfl, rfl, fun _ _ => rfl, fun _ _ => rfl⟩
  · show ∃ p ∈ singles c, Current (s₁.block c) c p
    rw [hblock]
    exact h.placed.current c ((hmem c).mp hc).2
  · obtain ⟨ho, hne⟩ := hobject o ho
    have hplaced := h.placed.object o ho
    refine hplaced.mono ((hmem o.region).mpr ⟨hne, hplaced.region⟩) (fun _ hp => hp) ?_
    show (s₁.block o.region).base = _ → _ ≤ (s₁.block o.region).allocfrom
    rw [hblock]
    exact hplaced.used
  · exact h.placed.apart.sublist List.filter_sublist
  · show _ → load long s₁.byte o.start = o.size
    rw [hbyte]
    exact h.words o (hobject o ho).1

/-- What `__deleteregion` does before and after it has taken the region off the list of its
parent. -/
theorem deleteregion_eq (h : Inv s singles bigs kids) (hr : r ∈ s.regions) {passes : ℕ}
    {ls : List ℕ} {s₁ : State} (heq : Heap.deleteregion s r passes ls = some s₁) :
    (s.header r).children = none ∧ Owned { s₁ with regions := s.regions.erase r } singles bigs ∧
      s₁.block = s.block ∧ s₁.byte = s.byte ∧ s₁.regions = s.regions ∧ s₁.objects = s.objects ∧
      Forest s₁.mem (s.regions.erase r) fun q => (kids q).erase r := by
  have hnil : children s.mem r = none → kids r = [] := ((h.forest.chain r hr).eq_nil_iff).mpr
  rw [Heap.deleteregion] at heq
  cases hparent : (s.header r).parent with
  | none =>
    rw [hparent] at heq
    obtain ⟨hchildren, hrest, howned⟩ := h.placed.owned.delregion hr heq
    rw [hrest]
    rw [hrest] at howned
    refine ⟨hchildren, howned, rfl, rfl, rfl, rfl, ?_⟩
    refine h.forest.erase h.placed.owned.nodup hr (hnil hchildren) (fun _ _ _ _ _ => rfl)
      (fun _ => rfl) (fun _ _ => rfl) fun q hq => ?_
    have hq' : parent s.mem r = some q := hq
    rw [show parent s.mem r = none from hparent] at hq'
    cases hq'
  | some q =>
    rw [hparent] at heq
    dsimp only at heq
    rw [Option.bind_eq_some_iff] at heq
    obtain ⟨m, hunlink, heq⟩ := heq
    have hq : parent s.mem r = some q := hparent
    have hqm := h.forest.parent_mem r hr q hq
    have hqr : q ≠ r := fun hqr => h.forest.parent_ne r hr (hqr ▸ hq)
    have hrest := sameOwners_put (sameLists_unlinkLoop hunlink)
    have hunlinked := h.placed.owned.congr hrest
    obtain ⟨hchildren, hsame, howned⟩ := hunlinked.delregion hr heq
    obtain ⟨f, hf, rfl, hchain⟩ := unlinkLoop_spec (h.forest.chain q hqm) (h.forest.nodup q hqm)
      (fun _ _ hfield => by cases hfield) hunlink
    have hchildren' : children s.mem r = none := by
      have hwrite : children (s.mem.write (s.mem.header r).sibling f) r = none := hchildren
      rw [children_write] at hwrite
      have hfr : f ≠ .children r := by
        rintro rfl
        rcases hf with hf | ⟨c, -, hf⟩
        · exact hqr (Field.children.inj hf).symm
        · cases hf
      rwa [if_neg hfr] at hwrite
    rw [hsame]
    rw [hsame] at howned
    refine ⟨hchildren', howned, rfl, rfl, rfl, rfl, ?_⟩
    refine h.forest.erase h.placed.owned.nodup hr (hnil hchildren') (fun q' hq' hne c hc => ?_)
      (fun c => parent_write s.mem _ f c) (fun q' hne => ?_) fun q' hq' => ?_
    · refine (sibling_write s.mem _ f c).trans (if_neg ?_)
      rintro rfl
      rcases hf with hf | ⟨d, hd, hf⟩
      · cases hf
      · obtain rfl := Field.sibling.inj hf
        have hcq := ((h.forest.kid_iff q hqm c).mp hd).2
        rw [((h.forest.kid_iff q' hq' c).mp hc).2] at hcq
        rw [hq] at hne
        exact hne hcq.symm
    · refine (children_write s.mem _ f q').trans (if_neg ?_)
      rintro rfl
      rcases hf with hf | ⟨d, -, hf⟩
      · rw [hq, Field.children.inj hf] at hne
        exact hne rfl
      · cases hf
    · obtain rfl := Option.some.inj (hq.symm.trans hq')
      exact hchain

theorem deleteregion (h : Inv s singles bigs kids) {passes : ℕ} {ls : List ℕ}
    (hlegal : Legal s (.deleteregion r passes ls))
    (hstep : Heap.step s (.deleteregion r passes ls) = some s') :
    (∃ kids', Inv s' singles bigs kids') ∧
      ∀ arena, Represents s arena → Represents s' (Label.spec arena (.deleteregion r passes ls)) := by
  rw [Heap.step, Option.map_eq_some_iff] at hstep
  obtain ⟨s₁, hdelete, rfl⟩ := hstep
  obtain ⟨-, howned, hblock, hbyte, hregions, hobjects, hforest⟩ := h.deleteregion_eq hlegal hdelete
  rw [hregions, hobjects]
  refine ⟨⟨_, h.erase howned hblock hbyte hforest⟩, fun arena hrep => ?_⟩
  show List.Forall₂ (Object.Holds s₁.byte) _ _
  rw [hbyte]
  exact holds_filter hrep r

/-! ## Every history -/

/-- **One call, or one write.** -/
theorem step (h : Inv s singles bigs kids) (hlegal : Legal s label)
    (hstep : Heap.step s label = some s') :
    (∃ singles' bigs' kids', Inv s' singles' bigs' kids') ∧
      ∀ arena, Represents s arena → Represents s' (label.spec arena) := by
  cases label with
  | newsubregion parent passes l a =>
    obtain ⟨hinv, hobjects⟩ := h.newsubregion hlegal hstep
    exact ⟨hinv, fun arena hrep => hrep.congr hobjects h.placed.start_le_mem⟩
  | ralloc r c l a =>
    obtain ⟨⟨singles', bigs', hinv⟩, hrep⟩ := h.ralloc hlegal hstep
    exact ⟨⟨singles', bigs', kids, hinv⟩, hrep⟩
  | write k i x =>
    obtain ⟨hinv, hrep⟩ := h.write hlegal hstep
    exact ⟨⟨singles, bigs, kids, hinv⟩, hrep⟩
  | deleteregion r passes ls =>
    obtain ⟨⟨kids', hinv⟩, hrep⟩ := h.deleteregion hlegal hstep
    exact ⟨⟨singles, bigs, kids', hinv⟩, hrep⟩

/-! ## A deletion returns -/

/-- The loops of `free_all_pages` end. -/
theorem freeSingles_isSome {t : Pages.State} {o : Option ℕ} {xs : List ℕ}
    (hchain : Chain t.mem.next o xs) (hnodup : xs.Nodup) (ls : List ℕ) :
    ∃ t', freeSingles (List.replicate xs.length 0 ++ ls) o t = some (ls, t') ∧
      ∀ q, q ∉ xs → t'.mem.next q = t.mem.next q := by
  induction xs generalizing t o with
  | nil =>
    cases hchain
    cases ls with
    | nil => exact ⟨t, rfl, fun _ _ => rfl⟩
    | cons l ls => exact ⟨t, rfl, fun _ _ => rfl⟩
  | cons p xs ih =>
    obtain ⟨rfl, hnext⟩ := hchain
    obtain ⟨hp, hxs⟩ := List.nodup_cons.mp hnodup
    have hother : ∀ q, q ≠ p → (t.mem.freeSinglePage p 0).next q = t.mem.next q := by
      intro q hq
      rw [Delete.next_freeSinglePage, Function.update_of_ne hq]
    obtain ⟨t', heq, hsame⟩ :=
      ih (t := { t with mem := t.mem.freeSinglePage p 0, pagesOut := t.pagesOut.erase p })
        (hnext.congr fun q hq => hother q fun h => hp (h ▸ hq)) hxs
    refine ⟨t', heq, fun q hq => ?_⟩
    rw [List.mem_cons, not_or] at hq
    exact (hsame q hq.2).trans (hother q hq.1)

theorem freeRuns_isSome {t : Pages.State} {o : Option ℕ} {xs : List ℕ}
    (hchain : Chain t.mem.next o xs) (hnodup : xs.Nodup) (ls : List ℕ) :
    ∃ t', freeRuns (List.replicate xs.length 0 ++ ls) o t = some (ls, t') := by
  induction xs generalizing t o with
  | nil =>
    cases hchain
    cases ls with
    | nil => exact ⟨t, rfl⟩
    | cons l ls => exact ⟨t, rfl⟩
  | cons p xs ih =>
    obtain ⟨rfl, hnext⟩ := hchain
    obtain ⟨hp, hxs⟩ := List.nodup_cons.mp hnodup
    refine ih (t := { t with
      mem := t.mem.freePages p 0
      runsOut := t.runsOut.filter fun r => r.1 ≠ p }) (hnext.congr fun q hq => ?_) hxs
    have hq' : q ≠ p := fun h => hp (h ▸ hq)
    show (t.mem.freePages p 0).next q = t.mem.next q
    rw [Delete.next_freePages, Function.update_of_ne hq']

theorem delregion_isSome (h : Owned s singles bigs) (hr : r ∈ s.regions)
    (hchildren : (s.header r).children = none) : ∃ ls s', delregion s r ls = some s' := by
  obtain ⟨hchain, hbigchain, hnodup, -⟩ := h.owns r hr
  obtain ⟨hxs, hys, hdisjoint⟩ := List.nodup_append'.mp hnodup
  obtain ⟨t, hfirst, hsame⟩ :=
    freeSingles_isSome hchain hxs (List.replicate (bigs r).length 0 ++ [])
  have hbigchain' : Chain t.mem.next (s.header r).bigpages (bigs r) :=
    hbigchain.congr fun q hq => hsame q fun hq' => hdisjoint hq' hq
  obtain ⟨t', hsecond⟩ := freeRuns_isSome hbigchain' hys []
  refine ⟨List.replicate (singles r).length 0 ++ (List.replicate (bigs r).length 0 ++ []),
    { s with pages := t' }, ?_⟩
  rw [delregion, if_pos hchildren]
  show (freeSingles _ (s.mem.header r).pages s.pages).bind _ = _
  rw [hfirst, Option.bind_some, hsecond]
  rfl

/-- **A region can be deleted** exactly if it has no children. -/
theorem deleteregion_iff (h : Inv s singles bigs kids) (hr : r ∈ s.regions) :
    (∃ passes ls s', Heap.step s (.deleteregion r passes ls) = some s') ↔
      ∀ c ∈ s.regions, (s.header c).parent ≠ some r := by
  have hkids := h.forest.kids_eq_nil hr
  constructor
  · rintro ⟨passes, ls, s', hstep⟩
    rw [Heap.step, Option.map_eq_some_iff] at hstep
    obtain ⟨s₁, hdelete, -⟩ := hstep
    exact hkids.mp (h.deleteregion_eq hr hdelete).1
  · intro hnot
    have hchildren := hkids.mpr hnot
    have hreturn : ∃ passes ls s₁, Heap.deleteregion s r passes ls = some s₁ := by
      cases hparent : (s.header r).parent with
      | none =>
        obtain ⟨ls, s₁, heq⟩ := delregion_isSome h.placed.owned hr hchildren
        refine ⟨0, ls, s₁, ?_⟩
        rw [Heap.deleteregion, hparent]
        exact heq
      | some q =>
        have hq : parent s.mem r = some q := hparent
        have hqm := h.forest.parent_mem r hr q hq
        have hqr : q ≠ r := fun hqr => h.forest.parent_ne r hr (hqr ▸ hq)
        have hchain : Chain (sibling s.mem) (s.mem.load (.children q)) (kids q) :=
          h.forest.chain q hqm
        obtain ⟨m, hunlink⟩ := unlinkLoop_isSome hchain ((h.forest.kid_iff q hqm r).mpr ⟨hr, hq⟩)
        obtain ⟨f, hf, rfl, -⟩ := unlinkLoop_spec hchain (h.forest.nodup q hqm)
          (fun _ _ hfield => by cases hfield) hunlink
        have hfr : f ≠ .children r := by
          rintro rfl
          rcases hf with hf | ⟨c, -, hf⟩
          · exact hqr (Field.children.inj hf).symm
          · cases hf
        have hchildren' : children (s.mem.write (s.mem.header r).sibling f) r = none := by
          rw [children_write, if_neg hfr]
          exact hchildren
        have hunlinked := h.placed.owned.congr (sameOwners_put (sameLists_unlinkLoop hunlink))
        obtain ⟨ls, s₁, heq⟩ := delregion_isSome hunlinked hr hchildren'
        refine ⟨(kids q).length, ls, s₁, ?_⟩
        rw [Heap.deleteregion, hparent]
        dsimp only
        rw [hunlink]
        exact heq
    obtain ⟨passes, ls, s₁, heq⟩ := hreturn
    exact ⟨passes, ls, _, congrArg (Option.map _) heq⟩

end Inv

/-! ## Every history -/

/-- A start at which memory is empty, and no page is marked. -/
def blank : State :=
  init 0 (unwritten 0) (fun _ => .zero) ⟨fun _ => none, fun _ _ => none⟩ fun _ => 0

/-- An object, a write to it, and a copy of it in a subregion. -/
def history : List Label := [
  .newsubregion none 0 0 ⟨1, unwritten 0⟩,
  .ralloc 1 (.rstrextend none 20 false) 0 ⟨1, unwritten 0⟩,
  .newsubregion (some 1) 0 3 ⟨200000, unwritten 0⟩,
  .write 0 5 77,
  .ralloc 13 (.rstrextend (some 0) 40 true) 0 ⟨1, unwritten 0⟩]

section Histories

variable {totalPageCount : ℕ} {page : ℕ → Page} {header : ℕ → Header}
  {map : RegionMap (Option ℕ)} {byte : Bytes}

theorem inv_init : Inv (init totalPageCount page header map byte) (fun _ => []) (fun _ => [])
    fun _ => [] where
  placed :=
    { owned :=
        { inv := ⟨_, Pages.inv_init totalPageCount page⟩
          nodup := .nil
          owns := fun _ h => absurd h List.not_mem_nil
          apart := fun _ h => absurd h List.not_mem_nil
          single := fun _ => iff_of_false List.not_mem_nil fun h => List.not_mem_nil h.choose_spec.1
          run := fun _ => iff_of_false List.not_mem_nil fun h => List.not_mem_nil h.choose_spec.1
          one := fun _ h => absurd h List.not_mem_nil
          map := fun _ h => absurd h List.not_mem_nil }
      current := fun _ h => absurd h List.not_mem_nil
      object := fun _ h => absurd h List.not_mem_nil
      apart := .nil }
  words _ h := absurd h List.not_mem_nil
  forest := ⟨fun _ h => absurd h List.not_mem_nil, fun _ h => absurd h List.not_mem_nil,
    fun _ h => absurd h List.not_mem_nil, fun _ h => absurd h List.not_mem_nil, .nil,
    fun _ h => absurd h List.not_mem_nil⟩

theorem inv_of_run (run : Run step Legal (init totalPageCount page header map byte) s) :
    ∃ singles bigs kids, Inv s singles bigs kids := by
  refine run.invariant (I := fun s => ∃ singles bigs kids, Inv s singles bigs kids)
    ⟨_, _, _, inv_init⟩ ?_
  rintro s label s' ⟨singles, bigs, kids, hinv⟩ hlegal hstep
  exact (hinv.step hlegal hstep).1

/-- The object lies among the pages of its region: every address of it, and the one behind
it, is an address of the region, and no header lies in it. -/
structure Object.Safe (s : State) (o : Object) : Prop where
  region : o.region ∈ s.regions
  aligned : long ∣ o.mem
  regionof : ∀ z, o.start ≤ z → z ≤ o.stop →
    z < 2 ^ 64 ∧ (Region.regionof s.map z).1 = some o.region
  page : ∀ z, o.start ≤ z → z ≤ o.stop → pageHeader ≤ z % rPageSize
  header : ∀ z, o.start ≤ z → z ≤ o.stop → z / rPageSize ∈ s.regions →
    pageHeader + regionHeader ≤ z % rPageSize

theorem Placed.safe (h : Placed s singles bigs) {o : Object} (ho : o ∈ s.objects) : o.Safe s := by
  have hplaced := h.object o ho
  have hstop := hplaced.stop_lt
  obtain ⟨hstart, hmem⟩ := hplaced.start_bounds
  have hend := end_le h.owned.inv (h.owned.mem_out hplaced.region hplaced.page)
  have hdiv : ∀ z, o.start ≤ z → z ≤ o.stop → z / rPageSize = o.page := fun z hz hz' =>
    div_eq_page.mpr ⟨by omega, by omega⟩
  have hoffset : ∀ z, o.start ≤ z → z ≤ o.stop → z = o.page * rPageSize + z % rPageSize := by
    intro z hz hz'
    have hz'' := Nat.div_add_mod z rPageSize
    rw [hdiv z hz hz', Nat.mul_comm] at hz''
    exact hz''.symm
  refine ⟨hplaced.region, hplaced.aligned, fun z hz hz' => ?_, fun z hz hz' => ?_,
    fun z hz hz' hregion => ?_⟩
  · have hlt : z < 2 ^ 64 := by omega
    refine ⟨hlt, ?_⟩
    rw [regionof_fst _ hlt, hdiv z hz hz']
    exact h.owned.map o.region hplaced.region o.page hplaced.page
  · have hz'' := hoffset z hz hz'
    omega
  · -- the page is the first of its region, which is the region of the object
    rw [hdiv z hz hz'] at hregion
    have hfirst := List.mem_append_left (bigs o.page) (h.owned.owns o.page hregion).first
    have heq := h.region_eq hregion ho hfirst
    have hfront := hplaced.front
    rw [heq, front, if_pos rfl] at hfront
    have hz'' := hoffset z hz hz'
    omega

/-- **Objects do not overlap**, and lie where they should. -/
theorem objects_apart (run : Run step Legal (init totalPageCount page header map byte) s) :
    s.objects.Pairwise Apart ∧ ∀ o ∈ s.objects, o.Safe s := by
  obtain ⟨singles, bigs, kids, hinv⟩ := inv_of_run run
  exact ⟨hinv.placed.apart, fun o ho => hinv.placed.safe ho⟩

/-- The object and the copy. -/
theorem objects_apart_example : ∃ s, Run step Legal blank s ∧
    s.objects = [⟨13, 213128, 40, true⟩, ⟨1, 16520, 20, true⟩] ∧
    (regionof s.map 213168).1 = some 13 ∧ (regionof s.map 16540).1 = some 1 := by
  obtain ⟨s, run, hobjects⟩ : ∃ s, Run step Legal blank s ∧
      s.objects = [⟨13, 213128, 40, true⟩, ⟨1, 16520, 20, true⟩] :=
    Run.exists_of_exec (l := history) (by decide +kernel)
  have hsafe := (objects_apart run).2
  rw [hobjects, List.forall_mem_cons, List.forall_mem_singleton] at hsafe
  exact ⟨s, run, hobjects, (hsafe.1.regionof 213168 (by decide) (by decide)).2,
    (hsafe.2.regionof 16540 (by decide) (by decide)).2⟩

/-- **The regions are what the arena says**: byte by byte, after every history. -/
theorem heap_refines_arena {arena : List Piece}
    (run : Run (withHistory step Label.spec) (fun x label => Legal x.1 label)
      (init totalPageCount page header map byte, []) (s, arena)) : Represents s arena := by
  refine (run.refines (I := fun s => ∃ singles bigs kids, Inv s singles bigs kids)
    (R := Represents) ⟨_, _, _, inv_init⟩ .nil ?_).2
  rintro s label s' ⟨singles, bigs, kids, hinv⟩ hlegal hstep
  exact hinv.step hlegal hstep

/-- What was written to the object is in the copy, and the rest of the copy is zero. -/
theorem heap_refines_arena_example : ∃ s, Run step Legal blank s ∧
    s.objects = [⟨13, 213128, 40, true⟩, ⟨1, 16520, 20, true⟩] ∧
    s.byte 213133 = 77 ∧ s.byte 213167 = 0 := by
  obtain ⟨⟨s, arena⟩, run, hobjects, ⟨v, hv, hfive⟩, ⟨v', hv', hlast⟩⟩ : ∃ x : State × List Piece,
      Run (withHistory step Label.spec) (fun x label => Legal x.1 label) (blank, []) x ∧
        x.1.objects = [⟨13, 213128, 40, true⟩, ⟨1, 16520, 20, true⟩] ∧
        (∃ v ∈ x.2.head?, v.contents 5 = some 77) ∧ ∃ v ∈ x.2.head?, v.contents 39 = some 0 :=
    Run.exists_of_exec (l := history) (by decide +kernel)
  have hrep := heap_refines_arena run
  rw [Represents, hobjects] at hrep
  cases hrep with
  | cons hholds _ =>
    cases hv
    cases hv'
    exact ⟨s, run.of_withHistory, hobjects, hholds.contents 5 (by decide) 77 hfive,
      hholds.contents 39 (by decide) 0 hlast⟩

/-- **The regions are a forest.** -/
theorem regions_forest (run : Run step Legal (init totalPageCount page header map byte) s) :
    (∀ r ∈ s.regions, ∃ kids, Chain (sibling s.mem) (children s.mem r) kids ∧ kids.Nodup ∧
      ∀ c, c ∈ kids ↔ c ∈ s.regions ∧ parent s.mem c = some r) ∧
    (∀ c ∈ s.regions, ∀ q, parent s.mem c = some q → q ∈ s.regions) ∧
    (∀ c ∈ s.regions, ¬ Relation.TransGen (fun c q => parent s.mem c = some q) c c) ∧
    (∀ r ∈ s.regions, ∀ c, c ∉ s.regions →
      ∃ passes, checkRegion s.mem c passes (children s.mem r) = true) ∧
    ∀ r ∈ s.regions, (∃ passes ls s', step s (.deleteregion r passes ls) = some s') ↔
      ∀ c ∈ s.regions, parent s.mem c ≠ some r := by
  obtain ⟨singles, bigs, kids, hinv⟩ := inv_of_run run
  refine ⟨fun r hr => ⟨kids r, hinv.forest.chain r hr, hinv.forest.nodup r hr,
    hinv.forest.kid_iff r hr⟩, hinv.forest.parent_mem, fun c hc => hinv.forest.acyclic hc,
    fun r hr c hc => ?_, fun r hr => hinv.deleteregion_iff hr⟩
  have hkid : c ∉ kids r := fun hck => hc ((hinv.forest.kid_iff r hr c).mp hck).1
  exact ⟨_, checkRegion_eq (hinv.forest.chain r hr) hkid⟩

/-- A region with a subregion cannot be deleted, and the subregion can. -/
theorem regions_forest_example : ∃ s, Run step Legal blank s ∧ s.regions = [13, 1] ∧
    (¬ ∃ passes ls s', step s (.deleteregion 1 passes ls) = some s') ∧
    ∃ passes ls s', step s (.deleteregion 13 passes ls) = some s' := by
  obtain ⟨s, run, hregions, hparent, hroot⟩ : ∃ s, Run step Legal blank s ∧
      s.regions = [13, 1] ∧ (s.header 13).parent = some 1 ∧ (s.header 1).parent = none :=
    Run.exists_of_exec (l := history) (by decide +kernel)
  have hforest := (regions_forest run).2.2.2.2
  rw [hregions, List.forall_mem_cons, List.forall_mem_singleton] at hforest
  refine ⟨s, run, hregions, fun hdelete => ?_, hforest.1.mpr ?_⟩
  · exact hforest.2.mp hdelete 13 List.mem_cons_self hparent
  · rw [List.forall_mem_cons, List.forall_mem_singleton]
    refine ⟨fun heq => ?_, fun heq => ?_⟩
    · cases hparent.symm.trans heq
    · cases hroot.symm.trans heq

/-- The region has the page on one of its lists. -/
def State.Has (s : State) (r p : ℕ) : Prop :=
  ∃ xs, (Chain s.pages.mem.next (s.header r).pages xs ∨
    Chain s.pages.mem.next (s.header r).bigpages xs) ∧ p ∈ xs

theorem Owned.has_iff (h : Owned s singles bigs) (hr : r ∈ s.regions) (p : ℕ) :
    s.Has r p ↔ p ∈ singles r ++ bigs r := by
  obtain ⟨hchain, hbigchain, -, -⟩ := h.owns r hr
  rw [List.mem_append]
  constructor
  · rintro ⟨xs, hxs | hxs, hp⟩
    · exact .inl ((hxs.unique hchain) ▸ hp)
    · exact .inr ((hxs.unique hbigchain) ▸ hp)
  · rintro (hp | hp)
    · exact ⟨singles r, .inl hchain, hp⟩
    · exact ⟨bigs r, .inr hbigchain, hp⟩

/-- **What is handed out belongs to the regions**: each page to one of them, which the map
knows, and nothing is lost when regions are deleted. -/
theorem pages_owned (run : Run step Legal (init totalPageCount page header map byte) s) :
    (∀ p, p ∈ s.pages.out ↔ ∃ r ∈ s.regions, s.Has r p) ∧
    ∀ r ∈ s.regions, ∀ p, s.Has r p → entry s.map p = some r ∧
      ∀ r' ∈ s.regions, s.Has r' p → r' = r := by
  obtain ⟨singles, bigs, kids, hinv⟩ := inv_of_run run
  have howned := hinv.placed.owned
  refine ⟨fun p => ⟨fun hp => ?_, ?_⟩, fun r hr p hp => ?_⟩
  · obtain ⟨r, hr, hp⟩ := howned.exists_owner hp
    exact ⟨r, hr, (howned.has_iff hr p).mpr hp⟩
  · rintro ⟨r, hr, hp⟩
    exact howned.mem_out hr ((howned.has_iff hr p).mp hp)
  · rw [howned.has_iff hr] at hp
    refine ⟨howned.map r hr p hp, fun r' hr' hp' => ?_⟩
    rw [howned.has_iff hr'] at hp'
    by_contra hne
    exact howned.apart r' hr' r hr hne p hp' hp

/-- The pages of two regions. -/
theorem pages_owned_example : ∃ s, Run step Legal blank s ∧ s.pages.out = [13, 1] ∧
    ∃ r ∈ s.regions, s.Has r 13 := by
  obtain ⟨s, run, hout⟩ : ∃ s, Run step Legal blank s ∧ s.pages.out = [13, 1] :=
    Run.exists_of_exec (l := history) (by decide +kernel)
  have hmem : 13 ∈ s.pages.out := by
    rw [hout]
    exact List.mem_cons_self
  exact ⟨s, run, hout, ((pages_owned run).1 13).mp hmem⟩

end Histories

end Heap
end Region
end Partee
