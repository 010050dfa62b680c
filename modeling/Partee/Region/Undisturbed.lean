import Partee.Region.Delete

/-!
# A deletion that is not disturbed

As long as no other worker writes to a page that is still the region's, and none to its
header before `bigpages` is read, a deletion puts on lists the pages and runs that the
region has at the start, in their order (`exact_of_undisturbed`).  A deletion that is
alone returns, if the region has no children, and is on the list of its parent if it has
one (`deleteregion_alone`).
-/

namespace Partee
namespace Region
namespace Delete

open Transition Memory Pages

variable {r l : ℕ} {m m' : Mem} {d d' : Deletion} {s s' : State} {label : Label}
variable {singles bigs xs ys : List ℕ}

/-! ## Before the loops -/

/-- The program points before `p = a->pages` is done. -/
def Pc.Early : Pc → Prop
  | .start | .acquire | .unlink | .scan _ | .nochildren | .pages => True
  | _ => False

/-- The store is the same, and so are the lists of the regions. -/
structure SameLists (m m' : Mem) : Prop where
  store : m'.store = m.store
  pages : ∀ q, (m'.header q).pages = (m.header q).pages
  bigpages : ∀ q, (m'.header q).bigpages = (m.header q).bigpages

theorem SameLists.refl (m : Mem) : SameLists m m := ⟨rfl, fun _ => rfl, fun _ => rfl⟩

theorem SameLists.trans {m₁ m₂ m₃ : Mem} (h : SameLists m₁ m₂) (h' : SameLists m₂ m₃) :
    SameLists m₁ m₃ where
  store := h'.store.trans h.store
  pages q := (h'.pages q).trans (h.pages q)
  bigpages q := (h'.bigpages q).trans (h.bigpages q)

theorem sameLists_modify (m : Mem) (p : ℕ) (f : Header → Header)
    (hpages : ∀ h, (f h).pages = h.pages) (hbigpages : ∀ h, (f h).bigpages = h.bigpages) :
    SameLists m (m.modify p f) := by
  refine ⟨rfl, fun q => ?_, fun q => ?_⟩
  · rcases eq_or_ne q p with rfl | hq
    · rw [Mem.header_modify_self, hpages]
    · rw [Mem.header_modify_of_ne m hq]
  · rcases eq_or_ne q p with rfl | hq
    · rw [Mem.header_modify_self, hbigpages]
    · rw [Mem.header_modify_of_ne m hq]

theorem sameLists_write (m : Mem) (x : Option ℕ) (scan : Field) : SameLists m (m.write x scan) := by
  cases scan with
  | children q =>
    exact sameLists_modify m q (fun h => { h with children := x }) (fun _ => rfl) fun _ => rfl
  | sibling q =>
    exact sameLists_modify m q (fun h => { h with sibling := x }) (fun _ => rfl) fun _ => rfl

/-- Before the loops nothing is put on a list, and the lists of the region are not changed. -/
theorem deleteStep_early (hearly : d.pc.Early) (h : deleteStep r m d l = some (m', d')) :
    SameLists m m' ∧ freed d'.log = freed d.log ∧
      (d'.pc.Early ∨ d'.pc = .singles (m.header r).pages) := by
  obtain ⟨pc, log⟩ := d
  cases pc with
  | start =>
    cases h
    refine ⟨.refl m, rfl, .inl ?_⟩
    dsimp only
    split_ifs <;> trivial
  | acquire =>
    rw [deleteStep, Option.bind_eq_some_iff] at h
    obtain ⟨q, -, h⟩ := h
    rw [Option.map_eq_some_iff] at h
    obtain ⟨m₁, hacquire, heq⟩ := h
    cases heq
    refine ⟨?_, rfl, .inl trivial⟩
    rw [Mem.acquire] at hacquire
    split_ifs at hacquire
    cases hacquire
    exact sameLists_modify m q (fun h => { h with lock := true }) (fun _ => rfl) fun _ => rfl
  | unlink =>
    rw [deleteStep, Option.map_eq_some_iff] at h
    obtain ⟨q, -, heq⟩ := h
    cases heq
    exact ⟨.refl m, rfl, .inl trivial⟩
  | scan x =>
    rw [deleteStep, Option.map_eq_some_iff] at h
    obtain ⟨c, -, heq⟩ := h
    split_ifs at heq
    · cases heq
      exact ⟨sameLists_write m _ x, rfl, .inl trivial⟩
    · cases heq
      exact ⟨.refl m, rfl, .inl trivial⟩
  | nochildren =>
    rw [deleteStep] at h
    dsimp only at h
    split_ifs at h
    cases h
    exact ⟨.refl m, rfl, .inl trivial⟩
  | pages =>
    cases h
    exact ⟨.refl m, rfl, .inr rfl⟩
  | singles p => cases hearly
  | freeSingle p next => cases hearly
  | bigpages => cases hearly
  | runs p => cases hearly
  | freeRun p next => cases hearly
  | final => cases hearly
  | release => cases hearly
  | done => cases hearly

/-- A worker does not move the deletion. -/
theorem deletion_of_worker (hstep : step r s label = some s') :
    (∃ l, label = .delete l ∧ deleteStep r s.mem s.deletion l = some (s'.mem, s'.deletion)) ∨
      (∀ l, label ≠ .delete l) ∧ s'.deletion = s.deletion := by
  cases label with
  | delete l =>
    rw [step, Option.map_eq_some_iff] at hstep
    obtain ⟨⟨m, d⟩, heq, rfl⟩ := hstep
    exact .inl ⟨l, rfl, heq⟩
  | call w c =>
    rw [step] at hstep
    split at hstep
    · cases hstep
      exact .inr ⟨fun l => Label.noConfusion, rfl⟩
    · cases hstep
  | work w l a =>
    rw [step, Option.map_eq_some_iff] at hstep
    obtain ⟨x, -, rfl⟩ := hstep
    exact .inr ⟨fun l => Label.noConfusion, rfl⟩

/-! ## Without a disturbance -/

/-- The program points before `p = a->bigpages` is done. -/
def Pc.BeforeRuns : Pc → Prop
  | .runs _ | .freeRun _ _ | .final | .release | .done => False
  | _ => True

/-- A step of another worker leaves the pages alone that are still on the lists of the
region, and the pointers to these lists while they are still to be read. -/
def Undisturbed (r : ℕ) (singles bigs : List ℕ) (s : State) (label : Label) : Prop :=
  (∀ l, label ≠ .delete l) → ∀ s', step r s label = some s' →
    (∀ p ∈ singles ++ bigs, .freePage p ∉ s.deletion.log → .freeRun p ∉ s.deletion.log →
      s'.mem.store.next p = s.mem.store.next p) ∧
    (s.deletion.pc.BeforeRuns →
      (s'.mem.header r).pages = (s.mem.header r).pages ∧
      (s'.mem.header r).bigpages = (s.mem.header r).bigpages)

/-- At a program point the pages `xs` and the runs `ys` are still to be put on lists. -/
def At (m : Mem) (r : ℕ) : Pc → List ℕ → List ℕ → Prop
  | .singles p, xs, ys =>
      Chain m.store.next p xs ∧ Chain m.store.next (m.header r).bigpages ys
  | .freeSingle p next, xs, ys =>
      (∃ xs', xs = p :: xs' ∧ Chain m.store.next next xs') ∧
        Chain m.store.next (m.header r).bigpages ys
  | .bigpages, xs, ys => xs = [] ∧ Chain m.store.next (m.header r).bigpages ys
  | .runs p, xs, ys => xs = [] ∧ Chain m.store.next p ys
  | .freeRun p next, xs, ys => xs = [] ∧ ∃ ys', ys = p :: ys' ∧ Chain m.store.next next ys'
  | .final, xs, ys | .release, xs, ys | .done, xs, ys => xs = [] ∧ ys = []
  | .start, xs, ys | .acquire, xs, ys | .unlink, xs, ys | .scan _, xs, ys
  | .nochildren, xs, ys | .pages, xs, ys =>
      Chain m.store.next (m.header r).pages xs ∧ Chain m.store.next (m.header r).bigpages ys

/-- The deletion has put the first pages and runs on lists, and goes on with the others. -/
structure Left (m : Mem) (r : ℕ) (singles bigs : List ℕ) (d : Deletion) (xs ys : List ℕ) :
    Prop where
  log : (freed d.log).reverse ++ (xs.map .freePage ++ ys.map .freeRun) =
    singles.map .freePage ++ bigs.map .freeRun
  nodup : (xs ++ ys).Nodup
  point : At m r d.pc xs ys

theorem left_start (howns : Owns m r singles bigs) :
    Left m r singles bigs ⟨.start, []⟩ singles bigs where
  log := rfl
  nodup := howns.nodup
  point := ⟨howns.pages, howns.bigpages⟩

theorem at_of_early (hearly : d.pc.Early) :
    At m r d.pc xs ys ↔
      Chain m.store.next (m.header r).pages xs ∧ Chain m.store.next (m.header r).bigpages ys := by
  obtain ⟨pc, log⟩ := d
  cases pc <;> first | exact Iff.rfl | cases hearly

/-- Only the pages that are left matter, and the pointers that are still to be read. -/
theorem At.congr {pc : Pc} (h : At m r pc xs ys)
    (hnext : ∀ p ∈ xs ++ ys, m'.store.next p = m.store.next p)
    (hheader : pc.BeforeRuns → (m'.header r).pages = (m.header r).pages ∧
      (m'.header r).bigpages = (m.header r).bigpages) : At m' r pc xs ys := by
  have hxs : ∀ p, Chain m.store.next p xs → Chain m'.store.next p xs := fun p hp =>
    hp.congr fun a ha => hnext a (List.mem_append_left _ ha)
  have hys : ∀ p, Chain m.store.next p ys → Chain m'.store.next p ys := fun p hp =>
    hp.congr fun a ha => hnext a (List.mem_append_right _ ha)
  have hearly : pc.BeforeRuns →
      Chain m.store.next (m.header r).pages xs ∧ Chain m.store.next (m.header r).bigpages ys →
      Chain m'.store.next (m'.header r).pages xs ∧
        Chain m'.store.next (m'.header r).bigpages ys := by
    rintro hbefore ⟨hpages, hbigpages⟩
    obtain ⟨heq, heq'⟩ := hheader hbefore
    rw [heq, heq']
    exact ⟨hxs _ hpages, hys _ hbigpages⟩
  cases pc with
  | singles p =>
    obtain ⟨hp, hbig⟩ := h
    refine ⟨hxs p hp, ?_⟩
    rw [(hheader trivial).2]
    exact hys _ hbig
  | freeSingle p next =>
    obtain ⟨⟨xs', rfl, hp⟩, hbig⟩ := h
    refine ⟨⟨xs', rfl, hp.congr fun a ha => hnext a ?_⟩, ?_⟩
    · exact List.mem_append_left _ (List.mem_cons_of_mem p ha)
    · rw [(hheader trivial).2]
      exact hys _ hbig
  | bigpages =>
    refine ⟨h.1, ?_⟩
    rw [(hheader trivial).2]
    exact hys _ h.2
  | runs p => exact ⟨h.1, hys p h.2⟩
  | freeRun p next =>
    obtain ⟨hnil, ys', rfl, hp⟩ := h
    exact ⟨hnil, ys', rfl, hp.congr fun a ha =>
      hnext a (List.mem_append_right _ (List.mem_cons_of_mem p ha))⟩
  | final => exact h
  | release => exact h
  | done => exact h
  | start => exact hearly trivial h
  | acquire => exact hearly trivial h
  | unlink => exact hearly trivial h
  | scan x => exact hearly trivial h
  | nochildren => exact hearly trivial h
  | pages => exact hearly trivial h

/-- A page that is put in front of a list. -/
theorem next_freeSinglePage (m : Store) (p l : ℕ) :
    (m.freeSinglePage p l).next = Function.update m.next p (m.head l) :=
  Store.next_push m l p

theorem next_freePages (m : Store) (p l : ℕ) :
    (m.freePages p l).next = Function.update m.next p (m.head l) :=
  Store.next_push m l p

/-- **A step of the deletion.** -/
theorem Left.deleteStep (h : Left m r singles bigs d xs ys)
    (hstep : deleteStep r m d l = some (m', d')) :
    ∃ xs' ys', Left m' r singles bigs d' xs' ys' := by
  obtain ⟨hlog, hnodup, hat⟩ := h
  by_cases hearly : d.pc.Early
  · obtain ⟨hsame, hfreed, hpc⟩ := deleteStep_early hearly hstep
    rw [at_of_early hearly, ← hsame.store, ← hsame.bigpages] at hat
    rw [← hfreed] at hlog
    refine ⟨xs, ys, hlog, hnodup, ?_⟩
    rcases hpc with hearly' | hpc
    · rw [at_of_early hearly', hsame.pages]
      exact hat
    · rw [hpc]
      exact hat
  · obtain ⟨pc, log⟩ := d
    cases pc with
    | singles p =>
      obtain ⟨hp, hbig⟩ := hat
      cases p with
      | none =>
        cases hstep
        exact ⟨xs, ys, hlog, hnodup, hp.eq_nil_iff.mpr rfl, hbig⟩
      | some p =>
        cases hstep
        obtain ⟨xs', rfl, hnext⟩ := hp.eq_cons
        exact ⟨p :: xs', ys, hlog, hnodup, ⟨xs', rfl, hnext⟩, hbig⟩
    | freeSingle p next =>
      obtain ⟨⟨xs', rfl, hnext⟩, hbig⟩ := hat
      cases hstep
      have hp := List.nodup_cons.mp hnodup
      have hother : ∀ q ∈ xs' ++ ys, (m.store.freeSinglePage p l).next q = m.store.next q := by
        intro q hq
        rw [next_freeSinglePage, Function.update_of_ne]
        rintro rfl
        exact hp.1 hq
      refine ⟨xs', ys, ?_, hp.2, ?_, ?_⟩
      · rw [← hlog]
        show (Event.freePage p :: freed log).reverse ++ _ = _
        rw [List.reverse_cons, List.append_assoc, List.map_cons]
        rfl
      · exact hnext.congr fun q hq => hother q (List.mem_append_left _ hq)
      · exact hbig.congr fun q hq => hother q (List.mem_append_right _ hq)
    | bigpages =>
      cases hstep
      exact ⟨xs, ys, hlog, hnodup, hat⟩
    | runs p =>
      obtain ⟨hnil, hp⟩ := hat
      cases p with
      | none =>
        cases hstep
        exact ⟨xs, ys, hlog, hnodup, hnil, hp.eq_nil_iff.mpr rfl⟩
      | some p =>
        cases hstep
        obtain ⟨ys', rfl, hnext⟩ := hp.eq_cons
        exact ⟨xs, p :: ys', hlog, hnodup, hnil, ys', rfl, hnext⟩
    | freeRun p next =>
      obtain ⟨rfl, ys', rfl, hnext⟩ := hat
      cases hstep
      have hp := List.nodup_cons.mp hnodup
      refine ⟨[], ys', ?_, hp.2, rfl, hnext.congr fun q hq => ?_⟩
      · rw [← hlog]
        show (Event.freeRun p :: freed log).reverse ++ _ = _
        rw [List.reverse_cons, List.append_assoc]
        rfl
      · rw [next_freePages, Function.update_of_ne]
        rintro rfl
        exact hp.1 hq
    | final =>
      cases hstep
      refine ⟨xs, ys, hlog, hnodup, ?_⟩
      dsimp only
      split_ifs
      · exact hat
      · exact hat
    | release =>
      rw [Delete.deleteStep, Option.map_eq_some_iff] at hstep
      obtain ⟨q, -, heq⟩ := hstep
      cases heq
      exact ⟨xs, ys, hlog, hnodup, hat⟩
    | done => cases hstep
    | start => exact absurd trivial hearly
    | acquire => exact absurd trivial hearly
    | unlink => exact absurd trivial hearly
    | scan x => exact absurd trivial hearly
    | nochildren => exact absurd trivial hearly
    | pages => exact absurd trivial hearly

/-- What an event is about. -/
def Event.page : Event → ℕ
  | .read => 0
  | .freePage p | .freeRun p => p

/-- A page that is left has not been put on a list. -/
theorem Left.not_mem_log (h : Left m r singles bigs d xs ys) (hnodup : (singles ++ bigs).Nodup)
    {p : ℕ} (hp : p ∈ xs ++ ys) :
    p ∈ singles ++ bigs ∧ .freePage p ∉ d.log ∧ .freeRun p ∉ d.log := by
  have hpages : ∀ xs ys : List ℕ,
      (xs.map Event.freePage ++ ys.map Event.freeRun).map Event.page = xs ++ ys := by
    intro xs ys
    rw [List.map_append, List.map_map, List.map_map]
    exact congrArg₂ (· ++ ·) (List.map_id xs) (List.map_id ys)
  have hall := congrArg (List.map Event.page) h.log
  rw [List.map_append, hpages, hpages] at hall
  have hnot : ∀ e ∈ freed d.log, e.page ≠ p := by
    rintro e he rfl
    rw [← hall, List.nodup_append'] at hnodup
    exact hnodup.2.2 (List.mem_map_of_mem (List.mem_reverse.mpr he)) hp
  refine ⟨?_, fun hmem => ?_, fun hmem => ?_⟩
  · rw [← hall]
    exact List.mem_append_right _ hp
  · exact hnot _ (List.mem_filter.mpr ⟨hmem, rfl⟩) rfl
  · exact hnot _ (List.mem_filter.mpr ⟨hmem, rfl⟩) rfl

/-- **One step**, of the deletion or of a worker that does not disturb it. -/
theorem Left.step (h : Left s.mem r singles bigs s.deletion xs ys)
    (hnodup : (singles ++ bigs).Nodup) (hok : Undisturbed r singles bigs s label)
    (hstep : step r s label = some s') :
    ∃ xs' ys', Left s'.mem r singles bigs s'.deletion xs' ys' := by
  rcases deletion_of_worker hstep with ⟨l, -, hdelete⟩ | ⟨hworker, hsame⟩
  · exact h.deleteStep hdelete
  · obtain ⟨hnext, hheader⟩ := hok hworker s' hstep
    rw [hsame]
    refine ⟨xs, ys, h.log, h.nodup, h.point.congr (fun p hp => ?_) hheader⟩
    obtain ⟨hmem, hpage, hrun⟩ := h.not_mem_log hnodup hp
    exact hnext p hmem hpage hrun

/-- Nothing is left when the deletion has returned. -/
theorem Left.exact (h : Left m r singles bigs d xs ys) (hdone : d.pc = .done) :
    Exact singles bigs d.log := by
  have hat := h.point
  rw [hdone] at hat
  obtain ⟨rfl, rfl⟩ := hat
  have hlog := h.log
  rw [List.map_nil, List.map_nil, List.append_nil, List.append_nil] at hlog
  rw [Exact, ← hlog]
  exact (List.reverse_perm _).symm

/-- **A deletion that is not disturbed puts the right pages on lists.** -/
theorem exact_of_undisturbed {s₀ : State} (hstart : s₀.deletion = ⟨.start, []⟩)
    (howns : Owns s₀.mem r singles bigs) (run : Run (step r) (Undisturbed r singles bigs) s₀ s)
    (hdone : s.deletion.pc = .done) : Exact singles bigs s.deletion.log := by
  obtain ⟨xs, ys, hleft⟩ : ∃ xs ys, Left s.mem r singles bigs s.deletion xs ys := by
    refine run.invariant (I := fun s => ∃ xs ys, Left s.mem r singles bigs s.deletion xs ys)
      ⟨singles, bigs, ?_⟩ ?_
    · rw [hstart]
      exact left_start howns
    · rintro s label s' ⟨xs, ys, hleft⟩ hok hstep
      exact hleft.step howns.nodup hok hstep
  exact hleft.exact hdone

/-! ## A deletion that is alone -/

/-- The deletion as a system of its own. -/
def alone (r : ℕ) (x : Mem × Deletion) (l : ℕ) : Option (Mem × Deletion) :=
  deleteStep r x.1 x.2 l

/-- The region is a root, or it is on the list of its parent, whose lock is free. -/
def Linked (m : Mem) (r : ℕ) : Prop :=
  ∀ q, (m.header r).parent = some q → q ≠ r ∧ (m.header q).lock = false ∧
    ∃ kids, Chain (fun c => (m.header c).sibling) (m.header q).children kids ∧ r ∈ kids

/-- A step of a deletion that is alone. -/
theorem alone_step (h : deleteStep r m d 0 = some (m', d')) :
    Reach (alone r) (m, d) (m', d') :=
  Run.refl.tail trivial h

/-- `unlink_region` finds the region on the list, and takes it off. -/
theorem alone_scan (log : List Event) {kids : List ℕ} {x : Field}
    (hchain : Chain (fun c => (m.header c).sibling) (m.load x) kids) (hr : r ∈ kids)
    (hx : x ≠ .children r) :
    ∃ x', x' ≠ .children r ∧ Reach (alone r) (m, ⟨.scan x, log⟩)
      (m.write (m.header r).sibling x', ⟨.nochildren, .read :: log⟩) := by
  induction kids generalizing x with
  | nil => cases hr
  | cons c kids ih =>
    obtain ⟨hload, hnext⟩ := hchain
    rcases eq_or_ne c r with rfl | hc
    · refine ⟨x, hx, alone_step ?_⟩
      rw [deleteStep]
      dsimp only
      rw [hload, Option.map_some, if_pos rfl]
    · have hr' := (List.mem_cons.mp hr).resolve_left hc.symm
      obtain ⟨x', hx', hrun⟩ := ih (x := .sibling c) hnext hr' Field.noConfusion
      refine ⟨x', hx', (alone_step ?_).trans hrun⟩
      rw [deleteStep]
      dsimp only
      rw [hload, Option.map_some, if_neg hc]

/-- Up to the loops. -/
theorem alone_early (hlinked : Linked m r) (hchildren : (m.header r).children = none) :
    ∃ m' log, Reach (alone r) (m, ⟨.start, []⟩) (m', ⟨.singles (m.header r).pages, log⟩) ∧
      SameLists m m' := by
  have hend : ∀ (m₁ : Mem) (log : List Event), (m₁.header r).children = none → SameLists m m₁ →
      ∃ m' log', Reach (alone r) (m₁, ⟨.nochildren, log⟩)
        (m', ⟨.singles (m.header r).pages, log'⟩) ∧ SameLists m m' := by
    intro m₁ log hnone hsame
    have hread : deleteStep r m₁ ⟨.nochildren, log⟩ 0 = some (m₁, ⟨.pages, .read :: log⟩) :=
      if_pos hnone
    rw [← hsame.pages]
    exact ⟨m₁, _, (alone_step hread).trans (alone_step rfl), hsame⟩
  cases hparent : (m.header r).parent with
  | none =>
    obtain ⟨m', log, hrun, hsame⟩ := hend m [.read] hchildren (.refl m)
    refine ⟨m', log, (alone_step ?_).trans hrun, hsame⟩
    rw [deleteStep]
    dsimp only
    rw [if_pos hparent]
  | some q =>
    obtain ⟨hq, hlock, kids, hchain, hr⟩ := hlinked q hparent
    set m₁ := m.modify q fun h => { h with lock := true } with hm₁
    have hother : ∀ c, c ≠ q → m₁.header c = m.header c := fun c hc =>
      Mem.header_modify_of_ne m hc fun h => { h with lock := true }
    have hself : m₁.header q = { m.header q with lock := true } :=
      Mem.header_modify_self m q fun h => { h with lock := true }
    have hsame : SameLists m m₁ :=
      sameLists_modify m q (fun h => { h with lock := true }) (fun _ => rfl) fun _ => rfl
    have hsibling : (fun c => (m₁.header c).sibling) = fun c => (m.header c).sibling := by
      funext c
      rcases eq_or_ne c q with rfl | hc
      · rw [hself]
      · rw [hother c hc]
    have hkids : Chain (fun c => (m₁.header c).sibling) (m₁.load (.children q)) kids := by
      rw [hsibling, Mem.load, hself]
      exact hchain
    obtain ⟨x', hx', hscan⟩ := alone_scan [.read, .read, .read] hkids hr
      fun heq => hq (Field.children.inj heq)
    have hnone : ((m₁.write (m₁.header r).sibling x').header r).children = none := by
      have hr₁ : (m₁.header r).children = none := by
        rw [hother r hq.symm]
        exact hchildren
      cases x' with
      | children c =>
        have hc : r ≠ c := fun h => hx' (congrArg Field.children h.symm)
        rw [Mem.write, Mem.header_modify_of_ne m₁ hc]
        exact hr₁
      | sibling c =>
        rw [Mem.write]
        rcases eq_or_ne r c with rfl | hc
        · rw [Mem.header_modify_self]
          exact hr₁
        · rw [Mem.header_modify_of_ne m₁ hc]
          exact hr₁
    obtain ⟨m', log, hrun, hsame'⟩ :=
      hend _ [.read, .read, .read, .read] hnone (hsame.trans (sameLists_write m₁ _ x'))
    have hstart : deleteStep r m ⟨.start, []⟩ 0 = some (m, ⟨.acquire, [.read]⟩) := by
      rw [deleteStep]
      dsimp only
      rw [if_neg (hparent ▸ Option.some_ne_none q)]
    have hacquire : deleteStep r m ⟨.acquire, [.read]⟩ 0 =
        some (m₁, ⟨.unlink, [.read, .read]⟩) := by
      rw [deleteStep]
      dsimp only
      rw [hparent, Option.bind_some, Mem.acquire, hlock, if_neg Bool.false_ne_true]
      rfl
    have hunlink : deleteStep r m₁ ⟨.unlink, [.read, .read]⟩ 0 =
        some (m₁, ⟨.scan (.children q), [.read, .read, .read]⟩) := by
      rw [deleteStep]
      dsimp only
      rw [hother r hq.symm, hparent, Option.map_some]
    have hlock_run := (alone_step hstart).trans (alone_step hacquire)
    exact ⟨m', log, ((hlock_run.trans (alone_step hunlink)).trans hscan).trans hrun, hsame'⟩

/-- The first loop of `free_all_pages`. -/
theorem alone_singles (log : List Event) {p : Option ℕ} (hchain : Chain m.store.next p xs)
    (hnodup : xs.Nodup) :
    ∃ m' log', Reach (alone r) (m, ⟨.singles p, log⟩) (m', ⟨.bigpages, log'⟩) ∧
      m'.header = m.header ∧ ∀ q, q ∉ xs → m'.store.next q = m.store.next q := by
  induction xs generalizing m p log with
  | nil =>
    cases hchain
    exact ⟨m, log, alone_step rfl, rfl, fun q _ => rfl⟩
  | cons a xs ih =>
    obtain ⟨rfl, hnext⟩ := hchain
    obtain ⟨ha, hxs⟩ := List.nodup_cons.mp hnodup
    have hother : ∀ q, q ≠ a → (m.store.freeSinglePage a 0).next q = m.store.next q := by
      intro q hq
      rw [next_freeSinglePage, Function.update_of_ne hq]
    obtain ⟨m', log', hrun, hheader, hsame⟩ :=
      ih (m := { m with store := m.store.freeSinglePage a 0 }) (.freePage a :: log)
        (hnext.congr fun q hq => hother q fun h => ha (h ▸ hq)) hxs
    refine ⟨m', log', ((alone_step rfl).trans (alone_step rfl)).trans hrun, hheader, ?_⟩
    intro q hq
    rw [List.mem_cons, not_or] at hq
    exact (hsame q hq.2).trans (hother q hq.1)

/-- The second loop. -/
theorem alone_runs (log : List Event) {p : Option ℕ} (hchain : Chain m.store.next p ys)
    (hnodup : ys.Nodup) :
    ∃ m' log', Reach (alone r) (m, ⟨.runs p, log⟩) (m', ⟨.final, log'⟩) := by
  induction ys generalizing m p log with
  | nil =>
    cases hchain
    exact ⟨m, log, alone_step rfl⟩
  | cons a ys ih =>
    obtain ⟨rfl, hnext⟩ := hchain
    obtain ⟨ha, hys⟩ := List.nodup_cons.mp hnodup
    have hother : ∀ q, q ≠ a → (m.store.freePages a 0).next q = m.store.next q := by
      intro q hq
      rw [next_freePages, Function.update_of_ne hq]
    obtain ⟨m', log', hrun⟩ :=
      ih (m := { m with store := m.store.freePages a 0 }) (.freeRun a :: log)
        (hnext.congr fun q hq => hother q fun h => ha (h ▸ hq)) hys
    exact ⟨m', log', ((alone_step rfl).trans (alone_step rfl)).trans hrun⟩

/-- What a deletion that is alone leaves to do. -/
theorem left_alone (howns : Owns m r singles bigs)
    (run : Reach (alone r) (m, ⟨.start, []⟩) (m', d')) :
    ∃ xs ys, Left m' r singles bigs d' xs ys := by
  refine run.invariant (I := fun x => ∃ xs ys, Left x.1 r singles bigs x.2 xs ys)
    ⟨singles, bigs, left_start howns⟩ ?_
  rintro x l y ⟨xs, ys, hleft⟩ _ hstep
  exact hleft.deleteStep hstep

/-- A deletion that is alone returns. -/
theorem exact_alone (howns : Owns m r singles bigs) (hlinked : Linked m r)
    (hchildren : (m.header r).children = none) :
    ∃ m' d', Reach (alone r) (m, ⟨.start, []⟩) (m', d') ∧ d'.pc = .done ∧
      Exact singles bigs d'.log := by
  obtain ⟨m₁, log₁, hearly, hsame⟩ := alone_early hlinked hchildren
  obtain ⟨hxs, hys, hapart⟩ := List.nodup_append'.mp howns.nodup
  have hpages : Chain m₁.store.next (m.header r).pages singles := by
    rw [hsame.store]
    exact howns.pages
  obtain ⟨m₂, log₂, hsingles, hheader, hother⟩ := alone_singles (r := r) log₁ hpages hxs
  have hbigpages : Chain m₂.store.next (m₂.header r).bigpages bigs := by
    rw [hheader, hsame.bigpages]
    refine howns.bigpages.congr fun q hq => ?_
    rw [hother q fun h => hapart h hq, hsame.store]
  obtain ⟨m₃, log₃, hruns⟩ := alone_runs (r := r) (.read :: log₂) hbigpages hys
  have hloops := ((hearly.trans hsingles).trans (alone_step rfl)).trans hruns
  have hdone : ∃ m' d', Reach (alone r) (m₃, ⟨.final, log₃⟩) (m', d') ∧ d'.pc = .done := by
    cases hparent : (m₃.header r).parent with
    | none =>
      refine ⟨m₃, ⟨.done, .read :: log₃⟩, alone_step ?_, rfl⟩
      rw [deleteStep]
      dsimp only
      rw [if_pos hparent]
    | some q =>
      have hfinal : deleteStep r m₃ ⟨.final, log₃⟩ 0 = some (m₃, ⟨.release, .read :: log₃⟩) := by
        rw [deleteStep]
        dsimp only
        rw [if_neg (hparent ▸ Option.some_ne_none q)]
      refine ⟨m₃.release q, ⟨.done, .read :: .read :: log₃⟩,
        (alone_step hfinal).trans (alone_step ?_), rfl⟩
      rw [deleteStep]
      dsimp only
      rw [hparent, Option.map_some]
  obtain ⟨m', d', hrun, hpc⟩ := hdone
  have hall := hloops.trans hrun
  obtain ⟨xs, ys, hleft⟩ := left_alone howns hall
  exact ⟨m', d', hall, hpc, hleft.exact hpc⟩

/-- A deletion that is alone is a run of all together. -/
theorem run_of_alone {x : Mem × Deletion} (run : Reach (alone r) (s.mem, s.deletion) x) :
    ∃ s', Run (step r) (fun _ label => ∃ l, label = .delete l) s s' ∧
      s'.mem = x.1 ∧ s'.deletion = x.2 := by
  induction run with
  | refl => exact ⟨s, .refl, rfl, rfl⟩
  | @tail y z l _ _ hstep ih =>
    obtain ⟨s', hrun, hmem, hdeletion⟩ := ih
    rw [alone, ← hmem, ← hdeletion] at hstep
    exact ⟨_, hrun.tail ⟨l, rfl⟩ (congrArg (Option.map _) hstep), rfl, rfl⟩

/-- **A deletion that is alone returns**, with the right pages on the lists. -/
theorem deleteregion_alone (hstart : s.deletion = ⟨.start, []⟩)
    (howns : Owns s.mem r singles bigs) (hlinked : Linked s.mem r)
    (hchildren : (s.mem.header r).children = none) :
    ∃ s', Run (step r) (fun _ label => ∃ l, label = .delete l) s s' ∧
      s'.deletion.pc = .done ∧ Exact singles bigs s'.deletion.log := by
  obtain ⟨m', d', hrun, hdone, hexact⟩ := exact_alone howns hlinked hchildren
  rw [← hstart] at hrun
  obtain ⟨s', hrun', -, hdeletion⟩ := run_of_alone hrun
  refine ⟨s', hrun', ?_, ?_⟩
  · rw [hdeletion]
    exact hdone
  · rw [hdeletion]
    exact hexact

end Delete
end Region
end Partee
