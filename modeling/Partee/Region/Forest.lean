import Partee.Region.Contents
import Mathlib.Logic.Relation

/-!
# The regions are a forest

A region names its parent, and the parent has a list of its children, linked through the
children themselves.  `Forest` says that the two agree: the list of a region has the
regions whose parent it is, each once.  A parent is older than its children, so nobody is
an ancestor of itself (`Forest.acyclic`).

* `Forest.cons`, `Forest.link`: a new region, and its place on the list of its parent.
* `unlinkLoop_spec`, `Forest.erase`: a region without children goes.
-/

namespace Partee
namespace Region
namespace Heap

open Transition Memory Pages
open Delete (Header Mem Field Owns SameLists)

/-- The link from a child to the next child of the same parent. -/
def sibling (m : Mem) (c : ℕ) : Option ℕ := (m.header c).sibling

def parent (m : Mem) (c : ℕ) : Option ℕ := (m.header c).parent

def children (m : Mem) (r : ℕ) : Option ℕ := (m.header r).children

/-- The regions `regions`, the latest first, have the children `kids`. -/
structure Forest (m : Mem) (regions : List ℕ) (kids : ℕ → List ℕ) : Prop where
  chain : ∀ r ∈ regions, Chain (sibling m) (children m r) (kids r)
  nodup : ∀ r ∈ regions, (kids r).Nodup
  kid_iff : ∀ r ∈ regions, ∀ c, c ∈ kids r ↔ c ∈ regions ∧ parent m c = some r
  parent_mem : ∀ c ∈ regions, ∀ q, parent m c = some q → q ∈ regions
  older : regions.Pairwise fun c q => parent m q ≠ some c
  parent_ne : ∀ c ∈ regions, parent m c ≠ some c

variable {m m' : Mem} {regions : List ℕ} {kids : ℕ → List ℕ} {r q : ℕ}

namespace Forest

/-- Only the links of the regions matter. -/
theorem congr (h : Forest m regions kids) (hsibling : ∀ c ∈ regions, sibling m' c = sibling m c)
    (hparent : ∀ c ∈ regions, parent m' c = parent m c)
    (hchildren : ∀ c ∈ regions, children m' c = children m c) : Forest m' regions kids where
  chain r hr := by
    rw [hchildren r hr]
    exact (h.chain r hr).congr fun c hc => hsibling c ((h.kid_iff r hr c).mp hc).1
  nodup := h.nodup
  kid_iff r hr c := by
    rw [h.kid_iff r hr c]
    exact and_congr_right fun hc => by rw [hparent c hc]
  parent_mem c hc q hq := h.parent_mem c hc q (hparent c hc ▸ hq)
  older := by
    refine h.older.imp_of_mem fun hc hq hne => ?_
    rw [hparent _ hq]
    exact hne
  parent_ne c hc := by
    rw [hparent c hc]
    exact h.parent_ne c hc

/-- A region without children. -/
theorem kids_eq_nil (h : Forest m regions kids) (hr : r ∈ regions) :
    children m r = none ↔ ∀ c ∈ regions, parent m c ≠ some r := by
  rw [← (h.chain r hr).eq_nil_iff, List.eq_nil_iff_forall_not_mem]
  refine forall_congr' fun c => ?_
  rw [h.kid_iff r hr, not_and]

/-- **A new region**, with nothing in its links. -/
theorem cons (h : Forest m regions kids) (hr : r ∉ regions)
    (hother : ∀ c ∈ regions, m'.header c = m.header c) (hsibling : sibling m' r = none)
    (hparent : parent m' r = none) (hchildren : children m' r = none) :
    Forest m' (r :: regions) (Function.update kids r []) := by
  have hne : ∀ c ∈ regions, c ≠ r := by
    rintro c hc rfl
    exact hr hc
  have hold : Forest m' regions kids := h.congr
    (fun c hc => congrArg Header.sibling (hother c hc))
    (fun c hc => congrArg Header.parent (hother c hc))
    fun c hc => congrArg Header.children (hother c hc)
  refine ⟨?_, ?_, ?_, ?_, ?_, ?_⟩
  · rw [List.forall_mem_cons, Function.update_self]
    refine ⟨hchildren, fun c hc => ?_⟩
    rw [Function.update_of_ne (hne c hc)]
    exact hold.chain c hc
  · rw [List.forall_mem_cons, Function.update_self]
    refine ⟨.nil, fun c hc => ?_⟩
    rw [Function.update_of_ne (hne c hc)]
    exact hold.nodup c hc
  · have hnot : ∀ c ∈ r :: regions, parent m' c ≠ some r := by
      rw [List.forall_mem_cons, hparent]
      refine ⟨(Option.some_ne_none r).symm, fun c hc heq => hr (hold.parent_mem c hc r heq)⟩
    rw [List.forall_mem_cons, Function.update_self]
    refine ⟨fun c => ?_, fun q hq c => ?_⟩
    · exact iff_of_false List.not_mem_nil fun hc => hnot c hc.1 hc.2
    · rw [Function.update_of_ne (hne q hq), hold.kid_iff q hq, List.mem_cons]
      constructor
      · rintro ⟨hc, heq⟩
        exact ⟨.inr hc, heq⟩
      · rintro ⟨rfl | hc, heq⟩
        · rw [hparent] at heq
          cases heq
        · exact ⟨hc, heq⟩
  · rw [List.forall_mem_cons, hparent]
    refine ⟨fun q hq => ?_, fun c hc q hq => List.mem_cons_of_mem r (hold.parent_mem c hc q hq)⟩
    cases hq
  · refine List.pairwise_cons.mpr ⟨fun c hc heq => hr (hold.parent_mem c hc r heq), hold.older⟩
  · rw [List.forall_mem_cons, hparent]
    exact ⟨(Option.some_ne_none r).symm, hold.parent_ne⟩

/-- **The newest region is linked** to an older one: `link_region`. -/
theorem link (h : Forest m (r :: regions) kids) (hq : q ∈ regions) (hr : r ∉ regions)
    (hparent : parent m r = none) :
    Forest (m.linkRegion r q) (r :: regions) (Function.update kids q (r :: kids q)) := by
  have hne : q ≠ r := fun h => hr (h ▸ hq)
  have hmem := List.mem_cons_of_mem r hq
  have hkids : ∀ c ∈ r :: regions, r ∉ kids c := by
    intro c hc hrc
    have heq := ((h.kid_iff c hc r).mp hrc).2
    rw [hparent] at heq
    cases heq
  -- what is written: two links of `r`, and the list of `q`
  have hheader : ∀ c, (m.linkRegion r q).header c =
      if c = q then { m.header q with children := some r }
      else if c = r then { m.header r with sibling := (m.header q).children, parent := some q }
      else m.header c := by
    intro c
    rw [Mem.linkRegion]
    dsimp only
    by_cases hcq : c = q
    · subst hcq
      rw [if_pos rfl, Mem.header_modify_self, Mem.header_modify_of_ne _ hne,
        Mem.header_modify_of_ne _ hne]
    · rw [if_neg hcq, Mem.header_modify_of_ne _ hcq]
      by_cases hcr : c = r
      · subst hcr
        rw [if_pos rfl, Mem.header_modify_self, Mem.header_modify_self]
      · rw [if_neg hcr, Mem.header_modify_of_ne _ hcr, Mem.header_modify_of_ne _ hcr]
  have hsibling : ∀ c, c ≠ r → sibling (m.linkRegion r q) c = sibling m c := by
    intro c hc
    rw [sibling, hheader]
    split_ifs with hcq
    · rw [hcq]
      rfl
    · rfl
  have hparent' : ∀ c, parent (m.linkRegion r q) c = if c = r then some q else parent m c := by
    intro c
    rw [parent, hheader]
    by_cases hcq : c = q
    · subst hcq
      rw [if_pos rfl, if_neg hne]
      rfl
    · rw [if_neg hcq]
      split_ifs
      · rfl
      · rfl
  have hchildren : ∀ c, children (m.linkRegion r q) c = if c = q then some r else children m c := by
    intro c
    rw [children, hheader]
    split_ifs with hcq hcr
    · rfl
    · rw [hcr]
      rfl
    · rfl
  refine ⟨fun c hc => ?_, fun c hc => ?_, fun c hc d => ?_, fun c hc d hd => ?_, ?_, fun c hc => ?_⟩
  · rw [hchildren]
    rcases eq_or_ne c q with rfl | hcq
    · rw [if_pos rfl, Function.update_self]
      have hr' : sibling (m.linkRegion r c) r = children m c := by
        rw [sibling, hheader, if_neg hne.symm, if_pos rfl]
        rfl
      refine ⟨rfl, ?_⟩
      rw [hr']
      exact (h.chain c hmem).congr fun d hd => hsibling d fun hdr => hkids c hmem (hdr ▸ hd)
    · rw [if_neg hcq, Function.update_of_ne hcq]
      exact (h.chain c hc).congr fun d hd => hsibling d fun hdr => hkids c hc (hdr ▸ hd)
  · rcases eq_or_ne c q with rfl | hcq
    · rw [Function.update_self]
      exact List.nodup_cons.mpr ⟨hkids c hmem, h.nodup c hmem⟩
    · rw [Function.update_of_ne hcq]
      exact h.nodup c hc
  · rw [hparent']
    rcases eq_or_ne c q with rfl | hcq
    · rw [Function.update_self, List.mem_cons, h.kid_iff c hmem]
      rcases eq_or_ne d r with rfl | hdr
      · rw [if_pos rfl]
        exact iff_of_true (.inl rfl) ⟨List.mem_cons_self, rfl⟩
      · rw [if_neg hdr]
        exact or_iff_right hdr
    · rw [Function.update_of_ne hcq, h.kid_iff c hc]
      rcases eq_or_ne d r with rfl | hdr
      · rw [if_pos rfl, hparent]
        exact and_congr_right fun _ => iff_of_false (Option.some_ne_none c).symm
          fun heq => hcq (Option.some.inj heq).symm
      · rw [if_neg hdr]
  · rw [hparent'] at hd
    split_ifs at hd with hcr
    · cases hd
      exact hmem
    · exact h.parent_mem c hc d hd
  · obtain ⟨hfirst, hrest⟩ := List.pairwise_cons.mp h.older
    have hne_of_mem : ∀ c ∈ regions, c ≠ r := fun c hc hcr => hr (hcr ▸ hc)
    refine List.pairwise_cons.mpr ⟨fun c hc => ?_, hrest.imp_of_mem fun _ hd hcd => ?_⟩
    · rw [hparent', if_neg (hne_of_mem c hc)]
      exact hfirst c hc
    · rw [hparent', if_neg (hne_of_mem _ hd)]
      exact hcd
  · rw [hparent']
    split_ifs with hcr
    · rw [hcr]
      exact fun heq => hne (Option.some.inj heq)
    · exact h.parent_ne c hc

/-- **A region without children goes**, after it has been taken off the list of its
parent. -/
theorem erase (h : Forest m regions kids) (hnodup : regions.Nodup) (hr : r ∈ regions)
    (hkids : kids r = []) (hsibling : ∀ q, q ∈ regions → parent m r ≠ some q →
      ∀ c ∈ kids q, sibling m' c = sibling m c)
    (hparent : ∀ c, parent m' c = parent m c)
    (hchildren : ∀ q, parent m r ≠ some q → children m' q = children m q)
    (hchain : ∀ q, parent m r = some q → Chain (sibling m') (children m' q) ((kids q).erase r)) :
    Forest m' (regions.erase r) fun q => (kids q).erase r := by
  have hmem : ∀ c, c ∈ regions.erase r ↔ c ≠ r ∧ c ∈ regions := fun c =>
    List.Nodup.mem_erase_iff hnodup
  refine ⟨fun q hq => ?_, fun q hq => ?_, fun q hq c => ?_, fun c hc q hcq => ?_, ?_, fun c hc => ?_⟩
  · by_cases hrq : parent m r = some q
    · exact hchain q hrq
    · have hq' := ((hmem q).mp hq).2
      have hnot : r ∉ kids q := fun hrk => hrq ((h.kid_iff q hq' r).mp hrk).2
      rw [List.erase_of_not_mem hnot, hchildren q hrq]
      exact (h.chain q hq').congr (hsibling q hq' hrq)
  · exact (h.nodup q ((hmem q).mp hq).2).erase r
  · have hq' := ((hmem q).mp hq).2
    rw [List.Nodup.mem_erase_iff (h.nodup q hq'), h.kid_iff q hq', hmem, hparent, and_assoc]
  · rw [hparent] at hcq
    have hc' := ((hmem c).mp hc).2
    have hq' := h.parent_mem c hc' q hcq
    refine (hmem q).mpr ⟨?_, hq'⟩
    rintro rfl
    have hck := (h.kid_iff q hq' c).mpr ⟨hc', hcq⟩
    rw [hkids] at hck
    exact List.not_mem_nil hck
  · refine (h.older.sublist List.erase_sublist).imp fun {c q} hne => ?_
    rw [hparent]
    exact hne
  · rw [hparent]
    exact h.parent_ne c ((hmem c).mp hc).2

/-- A parent stands behind its children. -/
theorem idxOf_lt (h : Forest m regions kids) {c : ℕ} (hc : c ∈ regions)
    (hq : parent m c = some q) : regions.idxOf c < regions.idxOf q := by
  have hqm := h.parent_mem c hc q hq
  by_contra hle
  rcases Nat.eq_or_lt_of_le (Nat.le_of_not_lt hle) with heq | hlt
  · rw [List.idxOf_inj hqm] at heq
    rw [heq] at hq
    exact h.parent_ne c hc hq
  · have hpair := List.pairwise_iff_getElem.mp h.older _ _ (List.idxOf_lt_length_of_mem hqm)
      (List.idxOf_lt_length_of_mem hc) hlt
    rw [List.getElem_idxOf, List.getElem_idxOf] at hpair
    exact hpair hq

/-- **Nobody is an ancestor of itself.** -/
theorem acyclic (h : Forest m regions kids) {c : ℕ} (hc : c ∈ regions) :
    ¬ Relation.TransGen (fun c q => parent m c = some q) c c := by
  have hlt : ∀ q, Relation.TransGen (fun c q => parent m c = some q) c q →
      q ∈ regions ∧ regions.idxOf c < regions.idxOf q := by
    intro q hpath
    induction hpath with
    | single hedge => exact ⟨h.parent_mem c hc _ hedge, h.idxOf_lt hc hedge⟩
    | tail _ hedge ih =>
      obtain ⟨hmem, hlt⟩ := ih
      exact ⟨h.parent_mem _ hmem _ hedge, Nat.lt_trans hlt (h.idxOf_lt hmem hedge)⟩
  exact fun hpath => Nat.lt_irrefl _ (hlt c hpath).2

end Forest

/-! ## `unlink_region` -/

variable {passes : ℕ} {scan : Field} {xs : List ℕ}

theorem children_ne_sibling (q c : ℕ) : Field.children q ≠ .sibling c := by
  intro h
  cases h

/-- What a write through `scan` does to the links. -/
theorem sibling_write (m : Mem) (x : Option ℕ) (scan : Field) (c : ℕ) :
    sibling (m.write x scan) c = if scan = .sibling c then x else sibling m c := by
  cases scan with
  | children q =>
    rw [if_neg (children_ne_sibling q c), Mem.write, sibling]
    rcases eq_or_ne c q with rfl | hc
    · rw [Mem.header_modify_self]
      rfl
    · rw [Mem.header_modify_of_ne m hc]
      rfl
  | sibling q =>
    rw [Mem.write, sibling]
    rcases eq_or_ne c q with rfl | hc
    · rw [Mem.header_modify_self, if_pos rfl]
    · rw [Mem.header_modify_of_ne m hc, if_neg fun h => hc (Field.sibling.inj h).symm]
      rfl

theorem children_write (m : Mem) (x : Option ℕ) (scan : Field) (q : ℕ) :
    children (m.write x scan) q = if scan = .children q then x else children m q := by
  cases scan with
  | children r =>
    rw [Mem.write, children]
    rcases eq_or_ne q r with rfl | hq
    · rw [Mem.header_modify_self, if_pos rfl]
    · rw [Mem.header_modify_of_ne m hq, if_neg fun h => hq (Field.children.inj h).symm]
      rfl
  | sibling r =>
    rw [if_neg (children_ne_sibling q r).symm, Mem.write, children]
    rcases eq_or_ne q r with rfl | hq
    · rw [Mem.header_modify_self]
      rfl
    · rw [Mem.header_modify_of_ne m hq]
      rfl

theorem parent_write (m : Mem) (x : Option ℕ) (scan : Field) (c : ℕ) :
    parent (m.write x scan) c = parent m c := by
  have hmodify : ∀ q (f : Header → Header), (∀ h, (f h).parent = h.parent) →
      parent (m.modify q f) c = parent m c := by
    intro q f hf
    rw [parent]
    rcases eq_or_ne c q with rfl | hc
    · rw [Mem.header_modify_self, hf]
      rfl
    · rw [Mem.header_modify_of_ne m hc]
      rfl
  cases scan with
  | children q => exact hmodify q (fun h => { h with children := x }) fun _ => rfl
  | sibling q => exact hmodify q (fun h => { h with sibling := x }) fun _ => rfl

theorem load_write_of_ne (m : Mem) (x : Option ℕ) {f : Field} (h : f ≠ scan) :
    (m.write x f).load scan = m.load scan := by
  cases scan with
  | children q =>
    show children (m.write x f) q = _
    rw [children_write, if_neg h]
    rfl
  | sibling c =>
    show sibling (m.write x f) c = _
    rw [sibling_write, if_neg h]
    rfl

/-- **`unlink_region`** writes one link, that of the child before `r` or the list itself,
and then `r` is not on the list. -/
theorem unlinkLoop_spec (hchain : Chain (sibling m) (m.load scan) xs) (hnodup : xs.Nodup)
    (hscan : ∀ c ∈ xs, scan ≠ .sibling c) (heq : unlinkLoop m r passes scan = some m') :
    ∃ f, (f = scan ∨ ∃ c ∈ xs, f = .sibling c) ∧ m' = m.write (m.header r).sibling f ∧
      Chain (sibling m') (m'.load scan) (xs.erase r) := by
  induction passes generalizing scan xs with
  | zero => cases heq
  | succ passes ih =>
    rw [unlinkLoop, Option.bind_eq_some_iff] at heq
    obtain ⟨c, hload, heq⟩ := heq
    rw [hload] at hchain
    obtain ⟨xs, rfl, hnext⟩ := hchain.eq_cons
    obtain ⟨hc, hxs⟩ := List.nodup_cons.mp hnodup
    have hother : ∀ d ∈ xs, scan ≠ .sibling d := fun d hd =>
      hscan d (List.mem_cons_of_mem c hd)
    by_cases hcr : c = r
    · subst hcr
      rw [if_pos rfl] at heq
      cases heq
      refine ⟨scan, .inl rfl, rfl, ?_⟩
      have hself : (m.write (m.header c).sibling scan).load scan = sibling m c := by
        cases scan with
        | children q => exact (children_write m _ _ q).trans (if_pos rfl)
        | sibling q => exact (sibling_write m _ _ q).trans (if_pos rfl)
      rw [List.erase_cons_head, hself]
      refine hnext.congr fun d hd => ?_
      rw [sibling_write, if_neg (hother d hd)]
    · rw [if_neg hcr] at heq
      have hload' : Chain (sibling m) (m.load (.sibling c)) xs := hnext
      obtain ⟨f, hf, rfl, hchain'⟩ :=
        ih hload' hxs (fun d hd h => hc (Field.sibling.inj h ▸ hd)) heq
      have hscanf : f ≠ scan := by
        rintro rfl
        rcases hf with hf | ⟨d, hd, hf⟩
        · exact hscan c List.mem_cons_self hf
        · exact hother d hd hf
      refine ⟨f, .inr ?_, rfl, ?_⟩
      · rcases hf with rfl | ⟨d, hd, rfl⟩
        · exact ⟨c, List.mem_cons_self, rfl⟩
        · exact ⟨d, List.mem_cons_of_mem c hd, rfl⟩
      · rw [List.erase_cons_tail (by simpa using hcr), load_write_of_ne m _ hscanf, hload]
        exact ⟨rfl, hchain'⟩

/-- With as many passes as there are children, the loop ends. -/
theorem unlinkLoop_isSome (hchain : Chain (sibling m) (m.load scan) xs) (hr : r ∈ xs) :
    ∃ m', unlinkLoop m r xs.length scan = some m' := by
  induction xs generalizing scan with
  | nil => cases hr
  | cons c xs ih =>
    obtain ⟨hload, hnext⟩ := hchain
    rw [List.length_cons, unlinkLoop, hload, Option.bind_some]
    by_cases hcr : c = r
    · rw [if_pos hcr]
      exact ⟨_, rfl⟩
    · rw [if_neg hcr]
      have hload' : Chain (sibling m) (m.load (.sibling c)) xs := hnext
      exact ih hload' ((List.mem_cons.mp hr).resolve_left fun h => hcr h.symm)

/-- `check_region` does not abort for a region that is not on the list. -/
theorem checkRegion_eq {head : Option ℕ} (hchain : Chain (sibling m) head xs) (hr : r ∉ xs) :
    checkRegion m r xs.length head = true := by
  induction xs generalizing head with
  | nil =>
    cases hchain
    rfl
  | cons c xs ih =>
    obtain ⟨rfl, hnext⟩ := hchain
    rw [List.mem_cons, not_or] at hr
    rw [List.length_cons, checkRegion, decide_eq_true (Ne.symm hr.1), Bool.true_and]
    exact ih hnext hr.2

end Heap
end Region
end Partee
