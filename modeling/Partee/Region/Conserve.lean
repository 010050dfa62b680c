import Partee.Region.FreeLists

/-!
# What becomes of the pages of a block

`region_get_mem` gets at least the pages it is asked for.  It gets more when it rounds the
request up, and one more when `malloc` is lucky with the address.  `alloc_split` returns
the last of the pages; the first, which it is to keep, it puts nowhere.

`pages_kept` is about the histories in which no block has more pages than it was asked
for: no page is lost, and a call that gets a block with more pages loses one.  The
requests of `alloc_single_page` are rounded up as soon as there are 128 pages
(`exact_single_iff`).
-/

namespace Partee
namespace Region
namespace Pages

open Transition Memory

/-- A page on some list, or taken off one and handed out. -/
def State.Held (s : State) (p : ℕ) : Prop := s.OnList p ∨ p ∈ s.out

/-- Every page that has been got is on a list or has been handed out. -/
def Kept (s : State) : Prop := ∀ p, s.Obtained p → s.Held p

/-- A request for `n` pages is not rounded up, and the address of the block is not
aligned. -/
def Store.Exact (m : Store) (n mem : ℕ) : Prop :=
  mem % rPageSize ≠ 0 ∧ m.pageGroupSize * k * rPageSize % 2 ^ 64 ≤ (n + k) * rPageSize

/-- The calls that get as many pages as they ask for, if they get any. -/
def Exact (s : State) : Label → Prop
  | .allocSinglePage l _ a =>
      s.mem.pageCount l = 0 → s.mem.Exact (Store.toInt s.mem.pageGroupSize).toNat a.mem
  | .allocPages n l _ a =>
      s.mem.pageCount l < n → s.mem.Exact (Store.toInt (n + s.mem.pageGroupSize)).toNat a.mem
  | .freeSinglePage _ _ | .freePages _ _ => True

instance (m : Store) (n mem : ℕ) : Decidable (m.Exact n mem) :=
  inferInstanceAs (Decidable (_ ∧ _))

instance (s : State) (label : Label) : Decidable (Exact s label) :=
  match label with
  | .allocSinglePage _ _ _ => inferInstanceAs (Decidable (_ → _))
  | .allocPages _ _ _ _ => inferInstanceAs (Decidable (_ → _))
  | .freeSinglePage _ _ | .freePages _ _ => .isTrue trivial

variable {s s' : State} {free : ℕ → List ℕ} {label : Label}

/-! ## A fresh block -/

namespace Store

variable {m : Store}

/-- `region_get_mem` gets exactly what it is asked for. -/
theorem count_block_iff {n : ℕ} (hn : n < 2 ^ 31) (mem : ℕ) :
    (m.block (allocBytes n) mem).count = n ↔ m.Exact n mem := by
  have hcount : (m.block (allocBytes n) mem).count =
      (if mem = palign mem then m.requestBytes (allocBytes n) + rPageSize
        else m.requestBytes (allocBytes n)) / rPageSize := rfl
  have haligned : mem = palign mem ↔ mem % rPageSize = 0 := by
    rw [palign, rPageSize]
    omega
  rw [hcount, Exact, if_congr haligned rfl rfl, allocBytes_natCast hn, requestBytes, k, rPageSize]
  split_ifs <;> omega

/-- As many pages as the group has are exactly what is got as long as there are fewer
than 128. -/
theorem exact_single_iff (mem : ℕ) (hsmall : m.totalPageCount < 2 ^ 37) :
    m.Exact (toInt m.pageGroupSize).toNat mem ↔
      mem % rPageSize ≠ 0 ∧ m.totalPageCount < 128 := by
  have hint : toInt m.pageGroupSize = m.pageGroupSize := by
    have hdef : toInt m.pageGroupSize = Int.bmod m.pageGroupSize 4294967296 := rfl
    rw [hdef, Int.bmod_def, pageGroupSize]
    split_ifs <;> omega
  rw [hint, Int.toNat_natCast, Exact, pageGroupSize, k, rPageSize]
  omega

end Store

/-! ## One call -/

/-- The condition on a call for pages. -/
theorem exact_iff {r : Request} (hr : label.request s.mem = some r) :
    Exact s label ↔ (r.short.1 = true → s.mem.Exact r.short.2.toNat r.malloc.mem) := by
  cases label with
  | allocSinglePage l next a =>
    cases hr
    dsimp only [Exact, Store.shortSingle]
    rw [decide_eq_true_iff]
    exact Iff.rfl
  | allocPages n l next a =>
    cases hr
    dsimp only [Exact, Store.shortPages]
    rw [decide_eq_true_iff]
    exact Iff.rfl
  | freeSinglePage p l => cases hr
  | freePages p l => cases hr

theorem Inv.held_iff (h : Inv s free) (p : ℕ) : s.Held p ↔ (∃ l, p ∈ free l) ∨ p ∈ s.out := by
  rw [State.Held, h.onList_iff]

theorem obtained_of_held (h : Inv s free) {p : ℕ} (hp : s.Held p) : s.Obtained p := by
  rcases (h.held_iff p).mp hp with ⟨l, hl⟩ | hout
  · exact h.free_obtained l p hl
  · exact h.out_obtained p hout

/-- A page taken off a list is handed out, and stays held. -/
theorem held_request (h : Inv s free) (hlegal : Legal s label) {r : Request}
    (hr : label.request s.mem = some r) (hstep : step s label = some s') (p : ℕ) :
    s'.Held p ↔ p ∈ added s.mem r.short r.malloc ∨ s.Held p := by
  obtain ⟨q, xs, hpages, hinv, hout, -⟩ := h.request hlegal hr hstep
  have hmem : p = q ∨ p ∈ xs ↔ p ∈ added s.mem r.short r.malloc ∨ p ∈ free r.l := by
    rw [← List.mem_cons, ← hpages, Request.pages, List.mem_append]
  rw [h.held_iff, hinv.held_iff, hout.mem_iff, List.mem_cons]
  constructor
  · rintro (⟨j, hj⟩ | rfl | hp)
    · rcases eq_or_ne j r.l with rfl | hne
      · rw [Function.update_self] at hj
        exact (hmem.mp (.inr hj)).imp_right fun hl => .inl ⟨_, hl⟩
      · rw [Function.update_of_ne hne] at hj
        exact .inr (.inl ⟨j, hj⟩)
    · exact (hmem.mp (.inl rfl)).imp_right fun hl => .inl ⟨_, hl⟩
    · exact .inr (.inr hp)
  · have hlist : p = q ∨ p ∈ xs →
        (∃ j, p ∈ Function.update free r.l xs j) ∨ p = q ∨ p ∈ s.out := by
      rintro (rfl | hp)
      · exact .inr (.inl rfl)
      · refine .inl ⟨r.l, ?_⟩
        rw [Function.update_self]
        exact hp
    rintro (hp | ⟨j, hj⟩ | hp)
    · exact hlist (hmem.mpr (.inl hp))
    · rcases eq_or_ne j r.l with rfl | hne
      · exact hlist (hmem.mpr (.inr hj))
      · refine .inl ⟨j, ?_⟩
        rw [Function.update_of_ne hne]
        exact hj
    · exact .inr (.inr hp)

/-- A page that is freed is put on a list, and stays held. -/
theorem held_release (h : Inv s free) (hlegal : Legal s label) {r : Release}
    (hr : label.release s.mem = some r) (hstep : step s label = some s') (p : ℕ) (hp : s.Held p) :
    s'.Held p := by
  obtain ⟨hinv, hout, -⟩ := h.release hlegal hr hstep
  rw [h.held_iff, hout.mem_iff, List.mem_cons] at hp
  rw [hinv.held_iff]
  have hlist : p = r.p ∨ p ∈ free r.l →
      ∃ j, p ∈ Function.update free r.l (r.p :: free r.l) j := by
    intro hp
    refine ⟨r.l, ?_⟩
    rw [Function.update_self, List.mem_cons]
    exact hp
  rcases hp with ⟨j, hj⟩ | rfl | hp
  · rcases eq_or_ne j r.l with rfl | hne
    · exact .inl (hlist (.inr hj))
    · refine .inl ⟨j, ?_⟩
      rw [Function.update_of_ne hne]
      exact hj
  · exact .inl (hlist (.inl rfl))
  · exact .inr hp

/-- Of a fresh block all pages are put on the list, exactly if there are no more of them
than were asked for. -/
theorem added_all_iff {n : ℕ} (hpos : 0 < n) (hn : n < 2 ^ 31) {a : Malloc} {blocks : List Block}
    (hfresh : Fresh blocks (s.mem.block (Store.allocBytes n) a.mem)) :
    (∀ p, (s.mem.block (Store.allocBytes n) a.mem).Has p → p ∈ added s.mem (true, (n : ℤ)) a) ↔
      s.mem.Exact n a.mem := by
  obtain ⟨-, hle⟩ := Store.block_spec hn hfresh
  rw [← Store.count_block_iff hn]
  set b := s.mem.block (Store.allocBytes n) a.mem with hb
  have hmem : ∀ p, p ∈ added s.mem (true, (n : ℤ)) a ↔
      b.first + (b.count - n) ≤ p ∧ p < b.first + (b.count - n) + n := by
    intro p
    have hadded : added s.mem (true, (n : ℤ)) a = (List.range' (Store.Base b n) n).reverse := rfl
    rw [hadded, List.mem_reverse, List.mem_range'_1, Store.Base]
  constructor
  · intro hall
    have hfirst := (hmem b.first).mp (hall b.first ⟨Nat.le_refl _, by omega⟩)
    omega
  · rintro hcount p ⟨hlo, hhi⟩
    exact (hmem p).mpr (by omega)

/-- A call for pages loses none, exactly if it gets as many as it asks for. -/
theorem kept_request (h : Inv s free) (hkept : Kept s) (hlegal : Legal s label) {r : Request}
    (hr : label.request s.mem = some r) (hstep : step s label = some s') :
    Exact s label ↔ Kept s' := by
  obtain ⟨hfresh, -, -, -, hlt⟩ := hlegal.request hr
  have hpos := Inv.pos_of_step hlegal hr hstep
  have hheld := held_request h hlegal hr hstep
  obtain ⟨-, -, -, -, -, -, -, hblocks⟩ := h.request hlegal hr hstep
  have hobtained : ∀ p, s'.Obtained p ↔
      (∃ b ∈ s.mem.asked r.short r.malloc, b.Has p) ∨ s.Obtained p := by
    intro p
    rw [State.Obtained, hblocks]
    constructor
    · rintro ⟨b, hb, hp⟩
      exact (List.mem_append.mp hb).imp (⟨b, ·, hp⟩) (⟨b, ·, hp⟩)
    · rintro (⟨b, hb, hp⟩ | ⟨b, hb, hp⟩)
      · exact ⟨b, List.mem_append_left _ hb, hp⟩
      · exact ⟨b, List.mem_append_right _ hb, hp⟩
  rw [exact_iff hr]
  by_cases hshort : r.short.1 = true
  · -- the list is given pages of a fresh block
    obtain ⟨n, hn⟩ := Int.eq_ofNat_of_zero_le (Int.le_of_lt (hpos hshort))
    have hn_pos := hpos hshort
    have heq : r.short = (true, (n : ℤ)) := Prod.ext hshort hn
    have hb : s.mem.asked r.short r.malloc =
        [s.mem.block (Store.allocBytes n) r.malloc.mem] := by
      rw [heq]
      rfl
    rw [hn] at hlt hn_pos
    rw [hb] at hobtained hfresh
    have hb_fresh := hfresh _ (List.mem_singleton_self _)
    obtain ⟨hwf, -⟩ := Store.block_spec (by omega) hb_fresh
    rw [hn, Int.toNat_natCast, ← added_all_iff (by omega) (by omega) hb_fresh]
    rw [heq] at hheld
    constructor
    · intro hall p hp
      rcases (hobtained p).mp hp with ⟨b, hb, hbp⟩ | hp
      · obtain rfl := List.mem_singleton.mp hb
        exact (hheld p).mpr (.inl (hall hshort p hbp))
      · exact (hheld p).mpr (.inr (hkept p hp))
    · intro hkept' _ p hp
      have hp' := hkept' p ((hobtained p).mpr (.inl ⟨_, List.mem_singleton_self _, hp⟩))
      refine ((hheld p).mp hp').resolve_right fun hold => ?_
      obtain ⟨c, hc, hcp⟩ := obtained_of_held h hold
      exact hb_fresh.not_has hwf hc (h.blocks c hc) hp hcp
  · refine iff_of_true (fun ht => absurd ht hshort) fun p hp => (hheld p).mpr (.inr ?_)
    have hnone : s.mem.asked r.short r.malloc = [] := if_neg hshort
    rw [hobtained, hnone] at hp
    rcases hp with ⟨b, hb, -⟩ | hp
    · exact absurd hb List.not_mem_nil
    · exact hkept p hp

/-- **One call.** -/
theorem kept_step (h : Inv s free) (hkept : Kept s) (hlegal : Legal s label)
    (hstep : step s label = some s') : Exact s label ↔ Kept s' := by
  have hrelease : ∀ r : Release, label.release s.mem = some r → Kept s' := by
    intro r hr p hp
    obtain ⟨-, hblocks, -⟩ := step_release hr hlegal h.out_nodup hstep
    refine held_release h hlegal hr hstep p (hkept p ?_)
    rw [State.Obtained, ← hblocks]
    exact hp
  cases label with
  | allocSinglePage l next a => exact kept_request h hkept hlegal rfl hstep
  | allocPages n l next a => exact kept_request h hkept hlegal rfl hstep
  | freeSinglePage p l => exact iff_of_true trivial (hrelease _ rfl)
  | freePages p l => exact iff_of_true trivial (hrelease _ rfl)

/-! ## Histories -/

theorem kept_of_run {totalPageCount : ℕ} {page : ℕ → Page} {s : State}
    (run : Run step (fun s label => Legal s label ∧ Exact s label)
      (init totalPageCount page) s) : Kept s := by
  refine run.invariant_of (J := fun s => ∃ free, Inv s free)
    (fun t rt => inv_of_run (rt.mono fun _ _ hok => hok.1)) ?_ ?_
  · rintro p ⟨b, hb, -⟩
    exact absurd hb List.not_mem_nil
  · rintro s label s' ⟨free, hinv⟩ hkept ⟨hlegal, hexact⟩ hstep
    exact (kept_step hinv hkept hlegal hstep).mp hexact

/-- **No page is lost as long as no block has more pages than it was asked for.**  The first
call that gets such a block loses a page. -/
theorem pages_kept {totalPageCount : ℕ} {page : ℕ → Page} {s : State}
    (run : Run step (fun s label => Legal s label ∧ Exact s label)
      (init totalPageCount page) s) :
    Kept s ∧ ∀ label s', Legal s label → step s label = some s' →
      (Exact s label ↔ Kept s') := by
  have hkept := kept_of_run run
  obtain ⟨free, hinv⟩ := inv_of_run (run.mono fun _ _ hok => hok.1)
  exact ⟨hkept, fun label s' hlegal hstep => kept_step hinv hkept hlegal hstep⟩

/-- Two lists are given pages, one of them for a run. -/
theorem pages_kept_example :
    ∃ s, Run step (fun s label => Legal s label ∧ Exact s label) (init 0 (unwritten 0)) s ∧
      s.mem.totalPageCount = 6 ∧ Kept s := by
  obtain ⟨s, run, htotal⟩ : ∃ s,
      Run step (fun s label => Legal s label ∧ Exact s label) (init 0 (unwritten 0)) s ∧
        s.mem.totalPageCount = 6 :=
    Run.exists_of_exec (l := [.allocSinglePage 0 none ⟨1, unwritten 0⟩, .freeSinglePage 1 5,
      .allocPages 4 2 none ⟨65537, unwritten 0⟩]) (by decide +kernel)
  exact ⟨s, run, htotal, (pages_kept run).1⟩

/-- What a first call for pages does not put on the list is not held. -/
theorem not_held_init {totalPageCount : ℕ} {page : ℕ → Page}
    (hlegal : Legal (init totalPageCount page) label) {r : Request}
    (hr : label.request (init totalPageCount page).mem = some r)
    (hstep : step (init totalPageCount page) label = some s) {p : ℕ}
    (hp : p ∉ added (init totalPageCount page).mem r.short r.malloc) : ¬ s.Held p := by
  have hinv := inv_init totalPageCount page
  rw [held_request hinv hlegal hr hstep, hinv.held_iff]
  rintro (hadded | ⟨l, hl⟩ | hout)
  · exact hp hadded
  · exact absurd hl List.not_mem_nil
  · exact absurd hout List.not_mem_nil

/-- **Lost pages.**  A page is asked for when there are 128 pages, and another when the
address of the block is aligned: page 1 is got, and is neither on a list nor part of
what is handed out. -/
theorem pages_lost :
    (∃ s, Run step Legal (init 128 (unwritten 0)) s ∧
      s.Obtained 1 ∧ ¬ s.OnList 1 ∧ ¬ s.HandedOut 1) ∧
    ∃ s, Run step Legal (init 0 (unwritten 0)) s ∧
      s.Obtained 1 ∧ ¬ s.OnList 1 ∧ ¬ s.HandedOut 1 := by
  have hlost : ∀ (totalPageCount mem : ℕ) (s : State),
      Legal (init totalPageCount (unwritten 0)) (.allocSinglePage 0 none ⟨mem, unwritten 0⟩) →
      step (init totalPageCount (unwritten 0)) (.allocSinglePage 0 none ⟨mem, unwritten 0⟩) =
        some s →
      1 ∉ added (init totalPageCount (unwritten 0)).mem
        ((init totalPageCount (unwritten 0)).mem.shortSingle 0) ⟨mem, unwritten 0⟩ →
      s.runsOut = [] → (∃ b ∈ s.blocks, b.Has 1) →
      ∃ s, Run step Legal (init totalPageCount (unwritten 0)) s ∧
        s.Obtained 1 ∧ ¬ s.OnList 1 ∧ ¬ s.HandedOut 1 := by
    intro totalPageCount mem s hlegal hstep hadded hruns hobtained
    have hheld : ¬ s.Held 1 := not_held_init hlegal rfl hstep hadded
    refine ⟨s, Run.refl.tail hlegal hstep, hobtained, fun hlist => hheld (.inl hlist), ?_⟩
    rintro (hpage | ⟨r, hr, -⟩)
    · exact hheld (.inr (List.mem_append_left _ hpage))
    · rw [hruns] at hr
      exact absurd hr List.not_mem_nil
  constructor
  · exact hlost 128 1 _ (by decide +kernel) rfl (by decide +kernel) rfl (by decide +kernel)
  · exact hlost 0 16384 _ (by decide +kernel) rfl (by decide +kernel) rfl (by decide +kernel)

end Pages
end Region
end Partee
