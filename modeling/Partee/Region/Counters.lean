import Partee.Region.FreeLists

/-!
# The counters of the free lists

`page_count` should be the number of pages on the list.  `alloc_pages(n)` takes one page
off the list and `n` off the counter; `free_pages` puts one page on the list and adds
the `pagecount` that it finds in the header, which is whatever was there last unless
`alloc_split` has written it.  The single-page calls keep the counter right.

`pageCount_true` is about the histories in which every call keeps it right: the counters
are true in every state, and a call breaks that, or takes a page off an empty list,
exactly if it is not of that kind.
-/

namespace Partee
namespace Region
namespace Pages

open Transition Memory

/-- Each counter is the number of pages that can be reached on its list. -/
def CountsTrue (s : State) : Prop :=
  ∀ l, ∃ xs, Chain s.mem.next (s.mem.head l) xs ∧ s.mem.pageCount l = xs.length

/-- When a call takes a page off its list, the head is not `NULL`, and the counter is not
below what is taken off it. -/
def Served (s : State) (label : Label) : Prop :=
  ∀ r, label.request s.mem = some r →
    ∃ m, s.mem.refill r.short.1 r.malloc r.short.2 r.l = some m ∧
      m.head r.l ≠ none ∧ r.n ≤ m.pageCount r.l

/-- The calls that keep the counters right: no more than one page at a time; a run is
freed only if its header says that it is one page; the group size is not cut to an `int`
that is not positive, and no list grows to 2³² pages. -/
def CountsRight (s : State) : Label → Prop
  | .allocSinglePage l _ _ => s.mem.pageCount l = 0 → 0 < Store.toInt s.mem.pageGroupSize
  | .allocPages n l _ _ =>
      n = 1 ∧ (s.mem.pageCount l = 0 → 0 < Store.toInt (n + s.mem.pageGroupSize))
  | .freeSinglePage _ l => s.mem.pageCount l + 1 < 2 ^ 32
  | .freePages p l => (s.mem.page p).pagecount % 2 ^ 32 = 1 ∧ s.mem.pageCount l + 1 < 2 ^ 32

instance (s : State) (label : Label) : Decidable (CountsRight s label) :=
  match label with
  | .allocSinglePage _ _ _ => inferInstanceAs (Decidable (_ → _))
  | .allocPages _ _ _ _ => inferInstanceAs (Decidable (_ ∧ _))
  | .freeSinglePage _ _ => inferInstanceAs (Decidable (_ < _))
  | .freePages _ _ => inferInstanceAs (Decidable (_ ∧ _))

variable {s s' : State} {free : ℕ → List ℕ} {label : Label}

theorem countsTrue_iff (h : Inv s free) :
    CountsTrue s ↔ ∀ l, s.mem.pageCount l = (free l).length := by
  refine forall_congr' fun l => ⟨fun hcount => ?_, fun hcount => ⟨free l, h.lists.chain l, hcount⟩⟩
  obtain ⟨xs, hchain, hlength⟩ := hcount
  rw [(h.lists.chain l).unique hchain]
  exact hlength

/-- Changing one list and its counter. -/
theorem countsTrue_update (h : ∀ l, s.mem.pageCount l = (free l).length) {l n : ℕ} {xs : List ℕ}
    (hinv : Inv s' (Function.update free l xs))
    (hcount : s'.mem.pageCount = Function.update s.mem.pageCount l n) :
    CountsTrue s' ↔ n = xs.length := by
  rw [countsTrue_iff hinv, hcount]
  constructor
  · intro hall
    have hl := hall l
    rw [Function.update_self, Function.update_self] at hl
    exact hl
  · rintro rfl j
    rcases eq_or_ne j l with rfl | hj
    · rw [Function.update_self, Function.update_self]
    · rw [Function.update_of_ne hj, Function.update_of_ne hj]
      exact h j

/-! ## Calls for pages -/

/-- A list is short when its counter is below what the call takes off it. -/
theorem short_iff {r : Request} (hr : label.request s.mem = some r) :
    r.short.1 = true ↔ s.mem.pageCount r.l < r.n := by
  cases label with
  | allocSinglePage l next a =>
    cases hr
    exact decide_eq_true_iff.trans Nat.lt_one_iff.symm
  | allocPages n l next a =>
    cases hr
    exact decide_eq_true_iff
  | freeSinglePage p l => cases hr
  | freePages p l => cases hr

theorem length_added (m : Store) (short : Bool × ℤ) (a : Malloc) :
    (added m short a).length = if short.1 then short.2.toNat else 0 := by
  rw [added]
  split_ifs
  · rw [List.length_reverse, List.length_range']
  · rfl

/-- Where the counters are true, the counter of a list that has been given pages is. -/
theorem count_eq_length (hcounts : ∀ l, s.mem.pageCount l = (free l).length)
    (hlegal : Legal s label) {r : Request} (hr : label.request s.mem = some r) :
    r.count s.mem = (r.pages s.mem free).length := by
  obtain ⟨-, -, hn, -, hlt⟩ := hlegal.request hr
  have hshort := short_iff hr
  have hl := hcounts r.l
  rw [Request.count, Request.pages, List.length_append, length_added]
  split_ifs with h
  · have hlt' := hshort.mp h
    rw [Nat.mod_eq_of_lt (by omega), Nat.add_comm, hl]
  · rw [Nat.zero_add]
    exact hl

theorem count_lt (h : Inv s free) (r : Request) : r.count s.mem < 2 ^ 32 := by
  rw [Request.count]
  split_ifs
  · exact Nat.mod_lt _ (Nat.two_pow_pos 32)
  · exact h.count_lt r.l

/-- A call for pages is right if it is for one page and the `int` is positive, and not
otherwise. -/
theorem request_iff (h : Inv s free) (hcounts : ∀ l, s.mem.pageCount l = (free l).length)
    (hlegal : Legal s label) {r : Request} (hr : label.request s.mem = some r) :
    r.n = 1 ∧ (r.short.1 = true → 0 < r.short.2) ↔
      Served s label ∧ ∃ s', step s label = some s' ∧ CountsTrue s' := by
  obtain ⟨-, hle, hlt, -, -⟩ := hlegal.request hr
  have hcount := count_eq_length hcounts hlegal hr
  have hcount_lt := count_lt h r
  -- what the counter is after a call that returns
  have hafter : ∀ s', step s label = some s' →
      (CountsTrue s' ↔ (r.count s.mem + 2 ^ 32 - r.n) % 2 ^ 32 + 1 = r.count s.mem) := by
    intro s' hstep
    obtain ⟨p, xs, hpages, hinv, -, hafter, -⟩ := h.request hlegal hr hstep
    rw [countsTrue_update hcounts hinv hafter, hcount, hpages, List.length_cons]
    omega
  constructor
  · rintro ⟨hone, hpos⟩
    have hpages : r.pages s.mem free ≠ [] := by
      intro hnil
      rw [Request.pages, List.append_eq_nil_iff] at hnil
      have hadded := congrArg List.length hnil.1
      rw [length_added, List.length_nil] at hadded
      by_cases hshort : r.short.1 = true
      · rw [if_pos hshort] at hadded
        have := hpos hshort
        omega
      · have hl := hcounts r.l
        rw [hnil.2, List.length_nil] at hl
        exact hshort ((short_iff hr).mpr (by omega))
    obtain ⟨⟨s', hstep⟩, m, hm, hhead, hm_count⟩ := h.exists_step hlegal hr hpos hpages
    have hlength := List.length_pos_iff.mpr hpages
    refine ⟨fun r' hr' => ?_, s', hstep, (hafter s' hstep).mpr (by omega)⟩
    obtain rfl := Option.some.inj (hr.symm.trans hr')
    exact ⟨m, hm, hhead, by omega⟩
  · rintro ⟨-, s', hstep, htrue⟩
    have := (hafter s' hstep).mp htrue
    exact ⟨by omega, Inv.pos_of_step hlegal hr hstep⟩

/-! ## Calls that free -/

theorem release_iff (h : Inv s free) (hcounts : ∀ l, s.mem.pageCount l = (free l).length)
    (hlegal : Legal s label) {r : Release} (hr : label.release s.mem = some r)
    (hstep : step s label = some s') :
    r.n % 2 ^ 32 = 1 ∧ s.mem.pageCount r.l + 1 < 2 ^ 32 ↔ CountsTrue s' := by
  obtain ⟨hinv, -, hafter⟩ := h.release hlegal hr hstep
  have hlt := h.count_lt r.l
  rw [countsTrue_update hcounts hinv hafter, List.length_cons, ← hcounts r.l]
  omega

/-! ## Histories -/

/-- A call that frees always returns. -/
theorem served_release (hr : label.request s.mem = none) (hstep : step s label = some s') :
    (Served s label ∧ ∃ s', step s label = some s' ∧ CountsTrue s') ↔ CountsTrue s' := by
  constructor
  · rintro ⟨-, s'', hstep', htrue⟩
    obtain rfl := Option.some.inj (hstep.symm.trans hstep')
    exact htrue
  · intro htrue
    refine ⟨fun r hr' => ?_, s', hstep, htrue⟩
    rw [hr] at hr'
    cases hr'

/-- One call, in a state whose counters are true. -/
theorem countsRight_iff (h : Inv s free) (hcounts : ∀ l, s.mem.pageCount l = (free l).length)
    (hlegal : Legal s label) :
    CountsRight s label ↔ Served s label ∧ ∃ s', step s label = some s' ∧ CountsTrue s' := by
  cases label with
  | allocSinglePage l next a =>
    rw [← request_iff h hcounts hlegal rfl]
    dsimp only [CountsRight, Store.shortSingle]
    rw [decide_eq_true_iff]
    exact (and_iff_right rfl).symm
  | allocPages n l next a =>
    rw [← request_iff h hcounts hlegal rfl]
    dsimp only [CountsRight, Store.shortPages]
    rw [decide_eq_true_iff]
    refine and_congr_right fun hn => ?_
    rw [hn, gt_iff_lt, Nat.lt_one_iff]
    rfl
  | freeSinglePage p l =>
    have hstep : ∃ s', step s (.freeSinglePage p l) = some s' := ⟨_, rfl⟩
    obtain ⟨s', hstep⟩ := hstep
    rw [served_release rfl hstep, ← release_iff h hcounts hlegal rfl hstep]
    exact (and_iff_right rfl).symm
  | freePages p l =>
    have hstep : ∃ s', step s (.freePages p l) = some s' := ⟨_, rfl⟩
    obtain ⟨s', hstep⟩ := hstep
    rw [served_release rfl hstep, ← release_iff h hcounts hlegal rfl hstep]
    rfl

/-- The counters in a history of right calls. -/
theorem countsTrue_of_run {totalPageCount : ℕ} {page : ℕ → Page}
    (run : Run step (fun s label => Legal s label ∧ CountsRight s label)
      (init totalPageCount page) s) : CountsTrue s := by
  refine run.invariant_of (J := fun s => ∃ free, Inv s free)
    (fun t rt => inv_of_run (rt.mono fun _ _ hok => hok.1)) (fun l => ⟨[], rfl, rfl⟩) ?_
  rintro s label s' ⟨free, hinv⟩ htrue ⟨hlegal, hright⟩ hstep
  have hcounts := (countsTrue_iff hinv).mp htrue
  obtain ⟨-, s'', hstep', htrue'⟩ := (countsRight_iff hinv hcounts hlegal).mp hright
  obtain rfl := Option.some.inj (hstep.symm.trans hstep')
  exact htrue'

/-- **The counters are true as long as every call keeps them right.**  Each counter is the
number of pages on its list, a call never finds the list it takes a page off empty, and
no counter goes below zero.  The first call that is not of the kind breaks this. -/
theorem pageCount_true {totalPageCount : ℕ} {page : ℕ → Page} {s : State}
    (run : Run step (fun s label => Legal s label ∧ CountsRight s label)
      (init totalPageCount page) s) :
    CountsTrue s ∧ ∀ label, Legal s label →
      (CountsRight s label ↔
        Served s label ∧ ∃ s', step s label = some s' ∧ CountsTrue s') := by
  have htrue := countsTrue_of_run run
  obtain ⟨free, hinv⟩ := inv_of_run (run.mono fun _ _ hok => hok.1)
  exact ⟨htrue, fun label hlegal =>
    countsRight_iff hinv ((countsTrue_iff hinv).mp htrue) hlegal⟩

/-- A page is taken from a fresh block, and given back to another list. -/
theorem pageCount_true_example :
    ∃ s, Run step (fun s label => Legal s label ∧ CountsRight s label) (init 0 (unwritten 0)) s ∧
      s.mem.pageCount 0 = 0 ∧ s.mem.pageCount 3 = 1 ∧ CountsTrue s := by
  obtain ⟨s, run, h0, h3⟩ : ∃ s,
      Run step (fun s label => Legal s label ∧ CountsRight s label) (init 0 (unwritten 0)) s ∧
        s.mem.pageCount 0 = 0 ∧ s.mem.pageCount 3 = 1 :=
    Run.exists_of_exec (l := [.allocSinglePage 0 none ⟨1, unwritten 0⟩, .freeSinglePage 1 3])
      (by decide +kernel)
  exact ⟨s, run, h0, h3, (pageCount_true run).1⟩

/-- **A counter that is too small, and one that is too large.**  A run of four pages
leaves four pages on a list whose counter says one.  A run of one page, whose header has
a `pagecount` that nobody wrote, is given back, and the third page after it is taken from
an empty list. -/
theorem pageCount_false :
    (∃ s, Run step Legal (init 0 (unwritten 0)) s ∧
      s.mem.pageCount 0 = 1 ∧ Chain s.mem.next (s.mem.head 0) [4, 3, 2, 1] ∧ ¬ CountsTrue s) ∧
    ∃ s, Run step Legal (init 0 (unwritten 0)) s ∧
      s.mem.pageCount 0 = 6 ∧ s.mem.head 0 = none ∧
      step s (.allocSinglePage 0 none ⟨1, unwritten 0⟩) = none := by
  constructor
  · obtain ⟨s, run, hcount, hhead, h4, h3, h2, h1⟩ : ∃ s,
        Run step Legal (init 0 (unwritten 0)) s ∧
          s.mem.pageCount 0 = 1 ∧ s.mem.head 0 = some 4 ∧ s.mem.next 4 = some 3 ∧
          s.mem.next 3 = some 2 ∧ s.mem.next 2 = some 1 ∧ s.mem.next 1 = none :=
      Run.exists_of_exec (l := [.allocPages 4 0 none ⟨1, unwritten 0⟩]) (by decide +kernel)
    have hchain : Chain s.mem.next (s.mem.head 0) [4, 3, 2, 1] := ⟨hhead, h4, h3, h2, h1⟩
    refine ⟨s, run, hcount, hchain, fun htrue => ?_⟩
    obtain ⟨xs, hxs, hlength⟩ := htrue 0
    rw [hxs.unique hchain, hcount] at hlength
    cases hlength
  · obtain ⟨s, run, hcount, hhead⟩ : ∃ s, Run step Legal (init 0 (unwritten 0)) s ∧
        s.mem.pageCount 0 = 6 ∧ s.mem.head 0 = none :=
      Run.exists_of_exec (l := [.allocPages 1 0 none ⟨1, unwritten 7⟩, .freePages 2 0,
        .allocSinglePage 0 none ⟨1, unwritten 7⟩, .allocSinglePage 0 none ⟨1, unwritten 7⟩])
        (by decide +kernel)
    have hshort : s.mem.shortSingle 0 = (false, Store.toInt s.mem.pageGroupSize) := by
      rw [Store.shortSingle]
      show (decide (s.mem.pageCount 0 = 0), _) = _
      rw [hcount]
      rfl
    refine ⟨s, run, hcount, hhead, ?_⟩
    rw [step, Store.allocSinglePage, hshort]
    dsimp only
    rw [Store.refill_false, Option.bind_some, Store.take_eq_none hhead]
    rfl

end Pages
end Region
end Partee
