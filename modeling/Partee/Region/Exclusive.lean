import Partee.Region.Conserve

/-!
# What the page allocator hands out

A call for pages hands out the page at the head of a list, whatever it is asked for.  One
page is right: it is on no list any more and part of nothing that is handed out.  For
`n` pages `alloc_pages` relies on the `n - 1` pages behind that page, which it takes off
no list; and the head of a list is the last page of a block, with other memory behind it.

`pages_exclusive` is about the histories in which runs are one page long;
`run_outside_block` is a run of four.
-/

namespace Partee
namespace Region
namespace Pages

open Transition Memory

/-- The `n` pages from `p` on have been got from `malloc`, are on no list after the call,
and were part of nothing handed out before it. -/
def Exclusive (s s' : State) (p n : ℕ) : Prop :=
  ∀ q, p ≤ q → q < p + n → s'.Obtained q ∧ ¬ s'.OnList q ∧ ¬ s.HandedOut q

/-- A call for pages returns the first of as many exclusive pages as it is for. -/
def Grants (s : State) (label : Label) : Prop :=
  ∀ r, label.request s.mem = some r →
    ∃ p s', ((s.mem.refill r.short.1 r.malloc r.short.2 r.l).bind fun m =>
        m.take r.l r.n r.next) = some (p, s'.mem) ∧
      step s label = some s' ∧ Exclusive s s' p r.n

/-- The calls for one page whose list is not empty when its counter is not zero, and whose
group size is positive as an `int` when it is. -/
def OnePage (s : State) : Label → Prop
  | .allocSinglePage l _ _ =>
      if s.mem.pageCount l = 0 then 0 < Store.toInt s.mem.pageGroupSize else s.mem.head l ≠ none
  | .allocPages n l _ _ =>
      n = 1 ∧ if s.mem.pageCount l = 0 then 0 < Store.toInt (n + s.mem.pageGroupSize)
        else s.mem.head l ≠ none
  | .freeSinglePage _ _ | .freePages _ _ => True

instance (s : State) (label : Label) : Decidable (OnePage s label) :=
  match label with
  | .allocSinglePage _ _ _ => inferInstanceAs (Decidable (ite ..))
  | .allocPages _ _ _ _ => inferInstanceAs (Decidable (_ ∧ _))
  | .freeSinglePage _ _ | .freePages _ _ => .isTrue trivial

variable {s s' : State} {free : ℕ → List ℕ} {label : Label}

/-- The condition on a call for pages. -/
theorem onePage_iff {r : Request} (hr : label.request s.mem = some r) :
    OnePage s label ↔
      r.n = 1 ∧ if r.short.1 then 0 < r.short.2 else s.mem.head r.l ≠ none := by
  cases label with
  | allocSinglePage l next a =>
    cases hr
    dsimp only [OnePage, Store.shortSingle]
    rw [and_iff_right rfl]
    exact Iff.of_eq (if_congr decide_eq_true_iff.symm rfl rfl)
  | allocPages n l next a =>
    cases hr
    dsimp only [OnePage, Store.shortPages]
    refine and_congr_right fun hn => Iff.of_eq (if_congr ?_ rfl rfl)
    rw [hn, decide_eq_true_iff, gt_iff_lt, Nat.lt_one_iff]
    rfl
  | freeSinglePage p l => cases hr
  | freePages p l => cases hr

/-- The list a call takes a page off is not empty, exactly if the call is of this kind. -/
theorem pages_ne_nil_iff (h : Inv s free) (r : Request) :
    (if r.short.1 then 0 < r.short.2 else s.mem.head r.l ≠ none) ↔
      (r.short.1 = true → 0 < r.short.2) ∧ r.pages s.mem free ≠ [] := by
  have hnil : r.pages s.mem free ≠ [] ↔ ¬ (added s.mem r.short r.malloc = [] ∧ free r.l = []) :=
    not_congr List.append_eq_nil_iff
  rw [hnil, added]
  by_cases hshort : r.short.1 = true
  · rw [if_pos hshort, if_pos hshort, List.reverse_eq_nil_iff, List.range'_eq_nil_iff]
    constructor
    · intro hpos
      exact ⟨fun _ => hpos, fun hnil => by omega⟩
    · rintro ⟨hpos, -⟩
      exact hpos hshort
  · rw [if_neg hshort, if_neg hshort, and_iff_right rfl, (h.lists.chain r.l).eq_nil_iff]
    exact (and_iff_right fun ht => absurd ht hshort).symm

/-- A page that is taken off a list is exclusive, as long as runs are one page long. -/
theorem Inv.exclusive (hruns : ∀ r ∈ s.runsOut, r.2 = 1)
    {free' : ℕ → List ℕ} (h' : Inv s' free') {p : ℕ} (hout : s'.out.Perm (p :: s.out)) :
    Exclusive s s' p 1 := by
  intro q hle hlt
  obtain rfl : p = q := by omega
  have hp : p ∈ s'.out := hout.mem_iff.mpr List.mem_cons_self
  have hfresh : p ∉ s.out := (List.nodup_cons.mp (hout.nodup_iff.mp h'.out_nodup)).1
  refine ⟨h'.out_obtained p hp, fun hlist => ?_, fun hhanded => hfresh ?_⟩
  · obtain ⟨l, hl⟩ := (h'.onList_iff p).mp hlist
    exact h'.free_out l p hl hp
  · rcases hhanded with hpage | ⟨r, hr, hle, hlt⟩
    · exact List.mem_append_left _ hpage
    · have hone := hruns r hr
      have hfirst : r.1 = p := by omega
      exact List.mem_append_right _ (List.mem_map.mpr ⟨r, hr, hfirst⟩)

/-- Runs stay one page long. -/
theorem runs_step (hruns : ∀ r ∈ s.runsOut, r.2 = 1) (hone : OnePage s label)
    (hstep : step s label = some s') : ∀ r ∈ s'.runsOut, r.2 = 1 := by
  cases label with
  | allocSinglePage l next a =>
    rw [step, Option.map_eq_some_iff] at hstep
    obtain ⟨⟨p, m⟩, -, rfl⟩ := hstep
    exact hruns
  | allocPages n l next a =>
    rw [step, Option.map_eq_some_iff] at hstep
    obtain ⟨⟨p, m⟩, -, rfl⟩ := hstep
    intro r hr
    rcases List.mem_cons.mp hr with rfl | hr
    · exact hone.1
    · exact hruns r hr
  | freeSinglePage p l =>
    cases hstep
    exact hruns
  | freePages p l =>
    cases hstep
    exact fun r hr => hruns r (List.mem_of_mem_filter hr)

/-- The first page of what is handed out is part of it, as long as runs are one page long. -/
theorem handedOut_of_mem_out (hruns : ∀ r ∈ s.runsOut, r.2 = 1) {p : ℕ} (hp : p ∈ s.out) :
    s.HandedOut p := by
  rcases List.mem_append.mp hp with hpage | hrun
  · exact .inl hpage
  · obtain ⟨r, hr, rfl⟩ := List.mem_map.mp hrun
    have hone := hruns r hr
    exact .inr ⟨r, hr, Nat.le_refl _, by omega⟩

/-- A call for two pages or more is not granted if no page has been lost: the page behind
the one that is returned is on a list or handed out already. -/
theorem le_one_of_exclusive (hruns : ∀ r ∈ s.runsOut, r.2 = 1) (hkept : Kept s') {p n : ℕ}
    (hout : s'.out.Perm (p :: s.out)) (hexclusive : Exclusive s s' p n) : n ≤ 1 := by
  by_contra hn
  obtain ⟨hobtained, hlist, hhanded⟩ := hexclusive (p + 1) (Nat.le_succ p) (by omega)
  rcases hkept (p + 1) hobtained with honlist | hmem
  · exact hlist honlist
  · rcases List.mem_cons.mp (hout.mem_iff.mp hmem) with hp | hmem
    · omega
    · exact hhanded (handedOut_of_mem_out hruns hmem)

/-- **Single pages, and runs of one page, are exclusive.**  In a history of such calls each
call for pages returns a page that has been got from `malloc`, is on no list, and is not
handed out already.  A call that is not of the kind does not, if it is for one page or
if no page has been lost. -/
theorem pages_exclusive {totalPageCount : ℕ} {page : ℕ → Page} {s : State}
    (run : Run step (fun s label => Legal s label ∧ OnePage s label)
      (init totalPageCount page) s) (label : Label) (hlegal : Legal s label) :
    (OnePage s label → Grants s label) ∧
    ((∀ r, label.request s.mem = some r → r.n = 1) ∨ (∀ s', step s label = some s' → Kept s') →
      Grants s label → OnePage s label) := by
  obtain ⟨free, hinv⟩ := inv_of_run (run.mono fun _ _ hok => hok.1)
  have hruns : ∀ r ∈ s.runsOut, r.2 = 1 := by
    refine run.invariant (I := fun s => ∀ r ∈ s.runsOut, r.2 = 1)
      (fun r hr => absurd hr List.not_mem_nil) ?_
    intro s label s' hruns hok hstep
    exact runs_step hruns hok.2 hstep
  constructor
  · intro hone r hr
    obtain ⟨hn, hlist⟩ := (onePage_iff hr).mp hone
    obtain ⟨hpos, hpages⟩ := (pages_ne_nil_iff hinv r).mp hlist
    obtain ⟨⟨s', hstep⟩, -⟩ := hinv.exists_step hlegal hr hpos hpages
    obtain ⟨p, xs, -, hinv', hout, -, hreturn, -⟩ := hinv.request hlegal hr hstep
    refine ⟨p, s', hreturn, hstep, ?_⟩
    rw [hn]
    exact Inv.exclusive hruns hinv' hout
  · intro hone hgrants
    cases hlabel : label.request s.mem with
    | none =>
      cases label with
      | freeSinglePage p l => trivial
      | freePages p l => trivial
      | allocSinglePage l next a => cases hlabel
      | allocPages n l next a => cases hlabel
    | some r =>
      obtain ⟨p, s', hreturn, hstep, hexclusive⟩ := hgrants r hlabel
      obtain ⟨q, xs, hcons, -, hout, -, hreturn', -⟩ := hinv.request hlegal hlabel hstep
      obtain ⟨rfl, -⟩ := Prod.mk.inj (Option.some.inj (hreturn.symm.trans hreturn'))
      have hn : r.n = 1 := by
        rcases hone with hone | hkept
        · exact hone r hlabel
        · have hle := le_one_of_exclusive hruns (hkept s' hstep) hout hexclusive
          have hpos := (hlegal.request hlabel).2.1
          omega
      refine (onePage_iff hlabel).mpr ⟨hn, (pages_ne_nil_iff hinv r).mpr
        ⟨Inv.pos_of_step hlegal hlabel hstep, ?_⟩⟩
      rw [hcons]
      exact List.cons_ne_nil p xs

/-- A page is taken, given back, and taken again; then a run of one page. -/
theorem pages_exclusive_example :
    ∃ s, Run step (fun s label => Legal s label ∧ OnePage s label) (init 0 (unwritten 0)) s ∧
      s.pagesOut = [1] ∧ Grants s (.allocPages 1 5 none ⟨65536, unwritten 0⟩) := by
  obtain ⟨s, run, hout, hlegal, hone⟩ : ∃ s,
      Run step (fun s label => Legal s label ∧ OnePage s label) (init 0 (unwritten 0)) s ∧
        s.pagesOut = [1] ∧ Legal s (.allocPages 1 5 none ⟨65536, unwritten 0⟩) ∧
        OnePage s (.allocPages 1 5 none ⟨65536, unwritten 0⟩) :=
    Run.exists_of_exec (l := [.allocSinglePage 0 none ⟨1, unwritten 0⟩, .freeSinglePage 1 5,
      .allocSinglePage 5 none ⟨1, unwritten 0⟩]) (by decide +kernel)
  exact ⟨s, run, hout, (pages_exclusive run _ hlegal).1 hone⟩

/-- **A run that is not in the block.**  The first call asks for four pages and is given
the last page of a block of five: the pages behind it have not been got, and the pages
before it are on the list. -/
theorem run_outside_block :
    Legal (init 0 (unwritten 0)) (.allocPages 4 0 none ⟨1, unwritten 0⟩) ∧
    ¬ Grants (init 0 (unwritten 0)) (.allocPages 4 0 none ⟨1, unwritten 0⟩) ∧
    ∃ s, step (init 0 (unwritten 0)) (.allocPages 4 0 none ⟨1, unwritten 0⟩) = some s ∧
      s.runsOut = [(5, 4)] ∧ (∀ p, 6 ≤ p → ¬ s.Obtained p) ∧ s.OnList 4 := by
  obtain ⟨s, hstep, hruns, hblocks, hhead, h4, h3, h2, h1⟩ : ∃ s,
      step (init 0 (unwritten 0)) (.allocPages 4 0 none ⟨1, unwritten 0⟩) = some s ∧
      s.runsOut = [(5, 4)] ∧ (∀ b ∈ s.blocks, b.first + b.count ≤ 6) ∧
      s.mem.head 0 = some 4 ∧ s.mem.next 4 = some 3 ∧
        s.mem.next 3 = some 2 ∧ s.mem.next 2 = some 1 ∧ s.mem.next 1 = none :=
    ⟨_, rfl, by decide +kernel⟩
  have hobtained : ∀ p, 6 ≤ p → ¬ s.Obtained p := by
    rintro p hp ⟨b, hb, hle, hlt⟩
    have hlast := hblocks b hb
    omega
  refine ⟨by decide +kernel, fun hgrants => ?_, s, hstep, hruns, hobtained,
    0, [4, 3, 2, 1], ⟨hhead, h4, h3, h2, h1⟩, List.mem_cons_self⟩
  obtain ⟨p, s', hreturn, hstep', hexclusive⟩ := hgrants _ rfl
  obtain rfl := Option.some.inj (hstep.symm.trans hstep')
  obtain ⟨q, m, hq, hm⟩ : ∃ q m, (init 0 (unwritten 0)).mem.allocPages ⟨1, unwritten 0⟩ 4 0 none =
      some (q, m) ∧ q = 5 := ⟨_, _, rfl, rfl⟩
  obtain ⟨rfl, -⟩ := Prod.mk.inj (Option.some.inj (hq.symm.trans hreturn))
  rw [hm] at hexclusive
  exact hobtained 6 (Nat.le_refl 6) (hexclusive 6 (by omega) (show 6 < 5 + 4 by omega)).1

end Pages
end Region
end Partee
