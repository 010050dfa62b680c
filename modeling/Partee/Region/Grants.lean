import Partee.Region.FreeLists

/-!
# What a call to the page allocator leaves alone

The pages that are handed out are linked by those who hold them.  A call for a page links
it to what it is told to, and a call that frees a page writes to that page; the links of
the other pages that are handed out stay (`Inv.next_request`, `Inv.next_release`).
-/

namespace Partee
namespace Region
namespace Pages

open Transition Memory

namespace Store

variable {m m' : Store}

/-- The loop of `add_single_pages` writes to the pages it adds. -/
theorem next_addLoop (l n base : ℕ) (m : Store) {q : ℕ} (hq : ¬ (base ≤ q ∧ q < base + n)) :
    (addLoop l n base m).next q = m.next q := by
  induction n generalizing base m with
  | zero => rfl
  | succ n ih =>
    have hne : q ≠ base := fun h => hq ⟨h ▸ Nat.le_refl q, by omega⟩
    rw [addLoop, ih (base + 1) _ fun hin => hq ⟨by omega, by omega⟩]
    rw [next_push, Function.update_of_ne hne, next_modify, Function.update_of_ne hne]

/-- A list is given pages of the fresh block, and no other page is written to. -/
theorem next_refill {n : ℕ} (hpos : 0 < n) (hn : n < 2 ^ 31) {a : Malloc} {blocks : List Block}
    (hfresh : Fresh blocks (m.block (allocBytes n) a.mem)) {l : ℕ}
    (heq : m.refill true a n l = some m') {q : ℕ}
    (hq : ¬ (m.block (allocBytes n) a.mem).Has q) : m'.next q = m.next q := by
  obtain ⟨-, hle⟩ := block_spec hn hfresh
  obtain ⟨m₁, hnew, -, -, hpage, hnext⟩ := allocNew_spec hpos hn hfresh l
  rw [refill, if_pos rfl, hnew] at heq
  dsimp only at heq
  rw [addSinglePages, hpage] at heq
  dsimp only at heq
  rw [if_neg (Nat.ne_of_gt hpos)] at heq
  split_ifs at heq
  cases heq
  rw [next_addLoop]
  · exact hnext q hq
  · rintro ⟨hlo, hhi⟩
    rw [Base] at hlo hhi
    exact hq ⟨by omega, by omega⟩

end Store

namespace Inv

variable {s s' : State} {free : ℕ → List ℕ} {label : Label}

/-- **A call for a page** returns one that was not handed out, linked as it is told to; the
other pages that are handed out stay linked as they are. -/
theorem next_request (h : Inv s free) (hlegal : Legal s label) {r : Request}
    (hr : label.request s.mem = some r) (hstep : Pages.step s label = some s') :
    ∃ p free', ((s.mem.refill r.short.1 r.malloc r.short.2 r.l).bind fun m =>
        m.take r.l r.n r.next) = some (p, s'.mem) ∧
      Inv s' free' ∧ p ∉ s.out ∧ s'.mem.next p = r.next ∧
      ∀ q ∈ s.out, s'.mem.next q = s.mem.next q := by
  obtain ⟨p, xs, -, hinv', hout, -, hreturn, -⟩ := h.request hlegal hr hstep
  obtain ⟨hfresh, -, -, -, hlt⟩ := hlegal.request hr
  have hp : p ∉ s.out := (List.nodup_cons.mp (hout.nodup_iff.mp hinv'.out_nodup)).1
  obtain ⟨m, hm, htake⟩ := Option.bind_eq_some_iff.mp hreturn
  -- the pages of a fresh block are not handed out
  have hrefill : ∀ q ∈ s.out, m.next q = s.mem.next q := by
    intro q hq
    have hpos := pos_of_step hlegal hr hstep
    cases hshort : r.short.1 with
    | false =>
      rw [hshort, Store.refill_false] at hm
      cases hm
      rfl
    | true =>
      obtain ⟨n, hn⟩ := Int.eq_ofNat_of_zero_le (Int.le_of_lt (hpos hshort))
      rw [hshort, hn] at hm
      have hblock := hfresh (s.mem.block (Store.allocBytes r.short.2) r.malloc.mem) (by
        rw [Store.asked, if_pos hshort]
        exact List.mem_singleton_self _)
      have hpos' := hpos hshort
      rw [hn] at hlt hpos' hblock
      refine Store.next_refill (by omega) (by omega) hblock hm fun hhas => ?_
      obtain ⟨b, hb, hhas'⟩ := h.out_obtained q hq
      exact hblock.not_has (Store.block_spec (by omega) hblock).1 hb (h.blocks b hb) hhas hhas'
  cases hhead : m.head r.l with
  | none =>
    rw [Store.take_eq_none hhead] at htake
    cases htake
  | some x =>
    obtain ⟨m', hm', hnext, -, -⟩ := Store.take_spec hhead r.n r.next
    rw [hm'] at htake
    cases htake
    refine ⟨p, _, hreturn, hinv', hp, ?_, fun q hq => ?_⟩
    · rw [hnext, Function.update_self]
    · have hne : q ≠ p := by
        rintro rfl
        exact hp hq
      rw [hnext, Function.update_of_ne hne]
      exact hrefill q hq

/-- **A call that frees a page** leaves the links of the others alone. -/
theorem next_release (h : Inv s free) (hlegal : Legal s label) {r : Release}
    (hr : label.release s.mem = some r) (hstep : Pages.step s label = some s') :
    ∃ free', Inv s' free' ∧ s.out.Perm (r.p :: s'.out) ∧
      ∀ q, q ≠ r.p → s'.mem.next q = s.mem.next q := by
  obtain ⟨hinv', hout, -⟩ := h.release hlegal hr hstep
  obtain ⟨hmem, -, -⟩ := step_release hr hlegal h.out_nodup hstep
  refine ⟨_, hinv', hout, fun q hq => ?_⟩
  rw [hmem]
  show (s.mem.push r.l r.p).next q = _
  rw [Store.next_push, Function.update_of_ne hq]

end Inv

end Pages
end Region
end Partee
