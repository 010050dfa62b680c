import Partee.Region.Undisturbed

/-!
# The header of a region that is deleted

The header of a region lies in one of its own pages.  The first loop of `free_all_pages`
puts that page on a list, and the deletion goes on to read `bigpages` and `parent` in it.

`deleteregion_late` says that this is so of every deletion, whatever the other workers
do.  When nobody takes the page before `bigpages` is read the right pages are put on the
lists all the same; `page_reused` has two interleavings in which somebody does.
-/

namespace Partee
namespace Region
namespace Delete

open Transition Memory Pages

variable {r l : ℕ} {m m' : Mem} {d d' : Deletion} {s : State} {singles bigs : List ℕ}

/-! ## Every deletion -/

/-- The last thing a deletion does is to read the header. -/
theorem deleteStep_done (h : deleteStep r m d l = some (m', d')) (hdone : d'.pc = .done) :
    ∃ log, d'.log = .read :: log := by
  by_cases hearly : d.pc.Early
  · obtain ⟨-, -, hpc⟩ := deleteStep_early hearly h
    rw [hdone] at hpc
    rcases hpc with hpc | hpc <;> cases hpc
  · obtain ⟨pc, log⟩ := d
    cases pc with
    | singles p => cases p <;> cases h <;> cases hdone
    | freeSingle p next =>
      cases h
      cases hdone
    | bigpages =>
      cases h
      cases hdone
    | runs p => cases p <;> cases h <;> cases hdone
    | freeRun p next =>
      cases h
      cases hdone
    | final =>
      cases h
      exact ⟨log, rfl⟩
    | release =>
      rw [deleteStep, Option.map_eq_some_iff] at h
      obtain ⟨q, -, heq⟩ := h
      cases heq
      exact ⟨log, rfl⟩
    | done => cases h
    | start => exact absurd trivial hearly
    | acquire => exact absurd trivial hearly
    | unlink => exact absurd trivial hearly
    | scan x => exact absurd trivial hearly
    | nochildren => exact absurd trivial hearly
    | pages => exact absurd trivial hearly

theorem read_of_done {s₀ : State} (hstart : s₀.deletion.pc = .start)
    (run : Reach (step r) s₀ s) (hdone : s.deletion.pc = .done) :
    ∃ log, s.deletion.log = .read :: log := by
  revert hdone
  refine run.invariant (I := fun s => s.deletion.pc = .done → ∃ log, s.deletion.log = .read :: log)
    (fun hdone => ?_) ?_
  · rw [hstart] at hdone
    cases hdone
  · intro s label s' hread _ hstep hdone
    rcases deletion_of_worker hstep with ⟨l, -, hdelete⟩ | ⟨-, hsame⟩
    · exact deleteStep_done hdelete hdone
    · rw [hsame] at hdone ⊢
      exact hread hdone

/-- **Every deletion reads a header that it has put on a list**, or has not put its pages
on lists.  This holds in every interleaving with the other workers. -/
theorem deleteregion_late {s₀ : State} (hstart : s₀.deletion = ⟨.start, []⟩)
    (howns : Owns s₀.mem r singles bigs) (run : Reach (step r) s₀ s)
    (hdone : s.deletion.pc = .done) :
    ¬ (Exact singles bigs s.deletion.log ∧ ¬ LateRead r s.deletion.log) := by
  rintro ⟨hexact, hlate⟩
  obtain ⟨log, hlog⟩ := read_of_done (by rw [hstart]) run hdone
  have hput : Event.freePage r ∈ singles.map Event.freePage ++ bigs.map Event.freeRun :=
    List.mem_append_left _ (List.mem_map_of_mem howns.first)
  have hfreed := List.mem_of_mem_filter (hexact.mem_iff.mpr hput)
  rw [hlog] at hfreed hlate
  rcases List.mem_cons.mp hfreed with heq | hfreed
  · cases heq
  · exact hlate ⟨[], log, rfl, .inl hfreed⟩

/-! ## A region with one page and one run -/

/-- Nothing has been got yet. -/
def blank : State where
  mem := { store := (Pages.init 0 (unwritten 0)).mem, header := fun _ => .zero }
  deletion := ⟨.start, []⟩
  worker := fun _ => .idle
  regions := []

/-- A worker makes a region in page 1, and allocates the run 6 in it. -/
def setup : List Label :=
  let a : Malloc := ⟨65537, unwritten 0⟩
  [.call 0 (.newsubregion none), .work 0 0 ⟨1, unwritten 0⟩, .work 0 0 a, .work 0 0 a,
    .call 0 (.bigPages 1 1), .work 0 0 a, .work 0 0 a, .work 0 0 a]

theorem owns_setup :
    ∀ s ∈ exec (step 1) Legal setup blank,
      s.deletion = ⟨.start, []⟩ ∧ Owns s.mem 1 [1] [6] := by
  have hall : ∀ s ∈ exec (step 1) Legal setup blank, s.deletion = ⟨.start, []⟩ ∧
      ((s.mem.header 1).pages = some 1 ∧ s.mem.store.next 1 = none) ∧
      ((s.mem.header 1).bigpages = some 6 ∧ s.mem.store.next 6 = none) := by
    decide +kernel
  intro s hs
  obtain ⟨hstart, ⟨hpages, hpage⟩, hbigpages, hrun⟩ := hall s hs
  exact ⟨hstart, ⟨hpages, hpage⟩, ⟨hbigpages, hrun⟩, by decide, List.mem_cons_self⟩

/-- The region is deleted, and nobody else does anything. -/
theorem deleteregion_late_example :
    ∃ s₀ s, Run (step 1) Legal blank s₀ ∧ Reach (step 1) s₀ s ∧
      freed s.deletion.log = [.freeRun 6, .freePage 1] ∧
      ¬ (Exact [1] [6] s.deletion.log ∧ ¬ LateRead 1 s.deletion.log) := by
  obtain ⟨s₀, hs₀, s, hs, hdone, hfreed⟩ : ∃ s₀ ∈ exec (step 1) Legal setup blank,
      ∃ s ∈ exec (step 1) always (List.replicate 11 (.delete 0)) s₀,
        s.deletion.pc = .done ∧ freed s.deletion.log = [.freeRun 6, .freePage 1] := by
    decide +kernel
  obtain ⟨hstart, howns⟩ := owns_setup s₀ hs₀
  exact ⟨s₀, s, .of_exec hs₀, .of_exec hs, hfreed,
    deleteregion_late hstart howns (.of_exec hs) hdone⟩

/-- The deletion up to `p = a->bigpages`, page 1 being put on list 3; then a worker that
takes the page for a region. -/
def reuse : List Label :=
  let a : Malloc := ⟨65537, unwritten 0⟩
  [.delete 0, .delete 0, .delete 0, .delete 0, .delete 3, .delete 0,
    .call 1 (.newsubregion none), .work 1 3 a, .work 1 3 a, .work 1 3 a]

/-- The worker takes a run for its region. -/
def reuseBig : List Label :=
  let a : Malloc := ⟨65537, unwritten 0⟩
  [.call 1 (.bigPages 1 1), .work 1 0 a, .work 1 0 a, .work 1 0 a]

/-- **The page is used again.**  Page 1 has been put on a list when another worker takes it
for a region of its own.  In the first interleaving `bigpages` is then `NULL`, and the
run 6 is put on no list; in the second the worker's region has a run 5 by then, and the
deletion puts that on a list. -/
theorem page_reused :
    ∃ s₀, Run (step 1) Legal blank s₀ ∧ s₀.deletion = ⟨.start, []⟩ ∧ Owns s₀.mem 1 [1] [6] ∧
      (∃ s, Run (step 1) Legal s₀ s ∧ s.deletion.pc = .done ∧
        freed s.deletion.log = [.freePage 1] ∧ ¬ Exact [1] [6] s.deletion.log ∧
        LateRead 1 s.deletion.log) ∧
      ∃ s, Run (step 1) Legal s₀ s ∧ s.deletion.pc = .done ∧
        freed s.deletion.log = [.freeRun 5, .freePage 1] ∧ ¬ Exact [1] [6] s.deletion.log ∧
        s.regions = [1] ∧ (s.mem.header 1).bigpages = some 5 := by
  have hnot : ∀ log, .freeRun 6 ∉ freed log → ¬ Exact [1] [6] log := fun log hlog hexact =>
    hlog (hexact.mem_iff.mpr (List.mem_cons_of_mem _ List.mem_cons_self))
  obtain ⟨s₀, hs₀, ⟨s, hs, hdone, hlog⟩, t, ht, hdone', hfreed, hregions, hbigpages⟩ :
      ∃ s₀ ∈ exec (step 1) Legal setup blank,
        (∃ s ∈ exec (step 1) Legal (reuse ++ List.replicate 3 (.delete 0)) s₀,
          s.deletion.pc = .done ∧
            s.deletion.log = [.read, .read, .freePage 1, .read, .read, .read]) ∧
        ∃ s ∈ exec (step 1) Legal (reuse ++ reuseBig ++ List.replicate 5 (.delete 0)) s₀,
          s.deletion.pc = .done ∧ freed s.deletion.log = [.freeRun 5, .freePage 1] ∧
            s.regions = [1] ∧ (s.mem.header 1).bigpages = some 5 := by
    decide +kernel
  obtain ⟨hstart, howns⟩ := owns_setup s₀ hs₀
  have hfreed₁ : freed s.deletion.log = [.freePage 1] := by
    rw [hlog]
    rfl
  refine ⟨s₀, .of_exec hs₀, hstart, howns,
    ⟨s, .of_exec hs, hdone, hfreed₁, hnot _ ?_, ?_⟩,
    t, .of_exec ht, hdone', hfreed, hnot _ ?_, hregions, hbigpages⟩
  · rw [hfreed₁]
    decide
  · rw [hlog]
    exact ⟨[], _, rfl, .inl (by decide)⟩
  · rw [hfreed]
    decide

end Delete
end Region
end Partee
