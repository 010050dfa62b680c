import Partee.Runtime.State

/-!
# The dependence analysis as a function

As long as no sibling is released, the analysis of a task depends on the lookup
table of its parent and on the metadata elements only: every owner is still at most
executed, and no push is refused.  Then all of `create_dependencies` is a function
of these data.

* `View`: what the analysis of one task reads and writes.
* `View.visit`: one iteration of the loop of `create_dependency`.
* `View.handle`: `handle_argument`, with the address of the new element given.
* `View.process`: `create_dependencies`, for arguments with their elements.
* `View.handle_induct`: what the visits keep, `handle` keeps.
-/

namespace Partee

/-- What the analysis of a task reads and writes: the elements, the lookup table of
the parent, `deps_last` of the task, and the tasks it has been pushed on, newest
first. -/
structure View where
  elem : ElemId → MetadataElement
  node : ℕ → Option ElemId
  last : Option TaskId
  pushed : List TaskId

namespace View

variable (gridT : BitVec 64) (c : TaskId) (v : View) (e f : ElemId) (x : TaskId) (j : ℕ)

/-- The element is that of an OUT or INOUT argument. -/
def IsOut : Bool := isOutType (v.elem f).type

/-- The owner of the `dependent_metadata` of `f`. -/
def writer : Option TaskId := (v.elem f).dependentMetadata.map fun d => (v.elem d).owner

/-! ## Updates -/

/-- A push on the stack of `x`. -/
@[simps] def push : View := { v with last := some x, pushed := x :: v.pushed }

/-- A push on the stack of `x`, unless it is `c` itself or has just been pushed
on. -/
def notify : View := if c = x ∨ v.last = some x then v else v.push x

/-- The loop over the readers. -/
def notifyAll : View → List TaskId → View
  | v, [] => v
  | v, x :: xs => notifyAll (v.notify c x) xs

/-- `set_node`. -/
@[simps] def setNode : View := { v with node := Function.update v.node j (some e) }

/-- `insert_front` on the readers of `f`. -/
@[simps node last pushed] def insertFront : View :=
  { v with elem := Function.update v.elem f { v.elem f with readers := c :: (v.elem f).readers } }

/-- Store to `dependent_metadata` of `e`. -/
@[simps node last pushed] def setDependent : View :=
  { v with elem := Function.update v.elem e { v.elem e with dependentMetadata := some f } }

/-- A new element at `e`. -/
@[simps node last pushed] def newElement (type : BitVec 32) : View :=
  { v with elem := Function.update v.elem e ⟨type, [], c, none⟩ }

/-! ## The loops -/

/-- Read-after-write at the element `f`. -/
def readAfterWrite : View :=
  if c = (v.elem f).owner ∨ v.last = some (v.elem f).owner then v
  else (v.push (v.elem f).owner).setDependent e f

/-- Read-after-read at the element `f`. -/
def readAfterRead : View :=
  match (v.elem f).dependentMetadata with
  | none => v.insertFront c f
  | some d =>
      if c ≠ (v.elem f).owner ∧ v.last ≠ some (v.elem f).owner then
        (v.insertFront c f).push (v.elem d).owner
      else v.insertFront c f

/-- One iteration of the loop of `create_dependency`, with `new_metadata = e`. -/
def visit (out : Bool) : View :=
  match v.node j with
  | none => v.setNode e j
  | some f =>
      if out then
        if v.IsOut f then (v.setNode e j).notify c (v.elem f).owner
        else notifyAll c (v.setNode e j) (v.elem f).readers
      else if v.IsOut f then (v.setNode e j).readAfterWrite c e f
      else v.readAfterRead c f

/-- The loop of `create_dependency`. -/
def visitAll (out : Bool) (v : View) (blocks : List ℕ) : View :=
  blocks.foldl (fun v j => v.visit c e j out) v

/-- `create_dependency`, on the blocks of its range. -/
def createDependency (out : Bool) (v : View) (blocks : List ℕ) : View :=
  visitAll c e out (if out then v else v.insertFront c e) blocks

/-- `handle_argument` for an argument that is not safe. -/
def handle (a : Argument) : View :=
  (handleArgument gridT a).1.foldl (createDependency c e a.isOut) (v.newElement c e a.type)

/-- The loop of `create_dependencies`, the next free address being `n`. -/
def handleAll : View × ElemId → List Argument → View × ElemId
  | m, [] => m
  | (v, n), a :: args =>
      handleAll (if a.isSafe then (v, n) else (v.handle gridT c n a, n + 1)) args

/-- The loop of `create_dependencies`, with the elements of the arguments given. -/
def process (v : View) (l : List (ElemId × Argument)) : View :=
  l.foldl (fun v p => v.handle gridT c p.1 p.2) v

/-- The arguments that are not safe, with the elements made for them from `n` on. -/
def named : ElemId → List Argument → List (ElemId × Argument)
  | _, [] => []
  | n, a :: args => if a.isSafe then named n args else (n, a) :: named (n + 1) args

theorem handleAll_eq (n : ElemId) (args : List Argument) :
    handleAll gridT c (v, n) args =
      (v.process gridT c (named n args), n + (named n args).length) := by
  induction args generalizing v n with
  | nil => rfl
  | cons a args ih =>
    simp only [handleAll, named]
    split
    · exact ih v n
    · rw [ih, process, process, List.foldl_cons, List.length_cons, Nat.add_assoc, Nat.add_comm 1]

/-! ## What the updates leave alone -/

variable {c v e f x j} {d : ElemId} {out : Bool} {i : ℕ}

theorem readAfterRead_none (h : (v.elem f).dependentMetadata = none) :
    v.readAfterRead c f = v.insertFront c f := by
  simp [readAfterRead, h]

theorem readAfterRead_push (h : (v.elem f).dependentMetadata = some d)
    (hne : c ≠ (v.elem f).owner ∧ v.last ≠ some (v.elem f).owner) :
    v.readAfterRead c f = (v.insertFront c f).push (v.elem d).owner := by
  simp [readAfterRead, h, hne]

theorem readAfterRead_skip (h : (v.elem f).dependentMetadata = some d)
    (hskip : ¬ (c ≠ (v.elem f).owner ∧ v.last ≠ some (v.elem f).owner)) :
    v.readAfterRead c f = v.insertFront c f := by
  simp [readAfterRead, h, if_neg hskip]

@[simp] theorem notify_elem : (v.notify c x).elem = v.elem := by
  unfold notify
  split <;> rfl

@[simp] theorem notify_node : (v.notify c x).node = v.node := by
  unfold notify
  split <;> rfl

@[simp] theorem notifyAll_elem {xs : List TaskId} : (notifyAll c v xs).elem = v.elem := by
  induction xs generalizing v with
  | nil => rfl
  | cons x xs ih => rw [notifyAll, ih, notify_elem]

@[simp] theorem notifyAll_node {xs : List TaskId} : (notifyAll c v xs).node = v.node := by
  induction xs generalizing v with
  | nil => rfl
  | cons x xs ih => rw [notifyAll, ih, notify_node]

@[simp] theorem insertFront_type : ((v.insertFront c f).elem d).type = (v.elem d).type := by
  rcases eq_or_ne d f with rfl | h <;> simp [insertFront, *]

@[simp] theorem insertFront_isOut : (v.insertFront c f).IsOut d = v.IsOut d := by
  rw [IsOut, IsOut, insertFront_type]

@[simp] theorem insertFront_owner : ((v.insertFront c f).elem d).owner = (v.elem d).owner := by
  rcases eq_or_ne d f with rfl | h <;> simp [insertFront, *]

@[simp] theorem insertFront_dependent :
    ((v.insertFront c f).elem d).dependentMetadata = (v.elem d).dependentMetadata := by
  rcases eq_or_ne d f with rfl | h <;> simp [insertFront, *]

theorem insertFront_readers : ((v.insertFront c f).elem d).readers =
    if d = f then c :: (v.elem d).readers else (v.elem d).readers := by
  rcases eq_or_ne d f with rfl | h <;> simp [insertFront, *]

@[simp] theorem setDependent_type : ((v.setDependent e f).elem d).type = (v.elem d).type := by
  rcases eq_or_ne d e with rfl | h <;> simp [setDependent, *]

@[simp] theorem setDependent_isOut : (v.setDependent e f).IsOut d = v.IsOut d := by
  rw [IsOut, IsOut, setDependent_type]

@[simp] theorem setDependent_owner : ((v.setDependent e f).elem d).owner = (v.elem d).owner := by
  rcases eq_or_ne d e with rfl | h <;> simp [setDependent, *]

@[simp] theorem setDependent_readers :
    ((v.setDependent e f).elem d).readers = (v.elem d).readers := by
  rcases eq_or_ne d e with rfl | h <;> simp [setDependent, *]

theorem setDependent_dependent : ((v.setDependent e f).elem d).dependentMetadata =
    if d = e then some f else (v.elem d).dependentMetadata := by
  rcases eq_or_ne d e with rfl | h <;> simp [setDependent, *]

theorem newElement_self {type : BitVec 32} :
    (v.newElement c e type).elem e = ⟨type, [], c, none⟩ := by
  simp [newElement]

theorem newElement_of_ne {type : BitVec 32} (h : d ≠ e) :
    (v.newElement c e type).elem d = v.elem d := by
  simp [newElement, h]

@[simp] theorem readAfterWrite_type :
    ((v.readAfterWrite c e f).elem d).type = (v.elem d).type := by
  unfold readAfterWrite
  split <;> simp

@[simp] theorem readAfterWrite_owner :
    ((v.readAfterWrite c e f).elem d).owner = (v.elem d).owner := by
  unfold readAfterWrite
  split <;> simp

@[simp] theorem readAfterWrite_readers :
    ((v.readAfterWrite c e f).elem d).readers = (v.elem d).readers := by
  unfold readAfterWrite
  split <;> simp

@[simp] theorem readAfterWrite_node : (v.readAfterWrite c e f).node = v.node := by
  unfold readAfterWrite
  split <;> rfl

theorem readAfterWrite_dependent (h : d ≠ e) :
    ((v.readAfterWrite c e f).elem d).dependentMetadata = (v.elem d).dependentMetadata := by
  unfold readAfterWrite
  split
  · rfl
  · rw [setDependent_dependent, if_neg h, push_elem]

@[simp] theorem readAfterRead_elem : (v.readAfterRead c f).elem = (v.insertFront c f).elem := by
  unfold readAfterRead
  split
  · rfl
  · split <;> rfl

@[simp] theorem readAfterRead_node : (v.readAfterRead c f).node = v.node := by
  unfold readAfterRead
  split
  · rfl
  · split <;> rfl

@[simp] theorem visit_type : ((v.visit c e j out).elem d).type = (v.elem d).type := by
  unfold visit
  repeat' split
  all_goals simp

@[simp] theorem visit_isOut : (v.visit c e j out).IsOut d = v.IsOut d := by
  rw [IsOut, IsOut, visit_type]

@[simp] theorem visit_owner : ((v.visit c e j out).elem d).owner = (v.elem d).owner := by
  unfold visit
  repeat' split
  all_goals simp

theorem visit_dependent (h : d ≠ e) :
    ((v.visit c e j out).elem d).dependentMetadata = (v.elem d).dependentMetadata := by
  unfold visit
  repeat' split
  all_goals simp [readAfterWrite_dependent h]

theorem mem_visit_readers (h : x ≠ c) :
    x ∈ ((v.visit c e j out).elem d).readers ↔ x ∈ (v.elem d).readers := by
  unfold visit
  repeat' split
  all_goals simp [insertFront_readers]
  split <;> simp [h]

theorem visit_node_of_ne (h : i ≠ j) : (v.visit c e j out).node i = v.node i := by
  unfold visit
  repeat' split
  all_goals simp [h]

/-! ## The pushes -/

/-- The task that has just been pushed on has been pushed on. -/
def LastOk (v : View) : Prop := ∀ x, v.last = some x → x ∈ v.pushed

theorem LastOk.push : (v.push x).LastOk := by
  intro y hy
  cases hy
  exact List.mem_cons_self

theorem LastOk.notify (h : v.LastOk) : (v.notify c x).LastOk := by
  unfold View.notify
  split
  · exact h
  · exact .push

theorem LastOk.notifyAll {xs : List TaskId} (h : v.LastOk) : (notifyAll c v xs).LastOk := by
  induction xs generalizing v with
  | nil => exact h
  | cons x xs ih => exact ih h.notify

/-- A notification pushes the task on `x`, which has been done already if it does
not. -/
theorem mem_pushed_notify (h : v.LastOk) {y : TaskId} :
    y ∈ (v.notify c x).pushed ↔ y ∈ v.pushed ∨ y = x ∧ c ≠ x := by
  unfold notify
  split
  · rename_i hskip
    constructor
    · exact .inl
    · rintro (hy | ⟨rfl, hne⟩)
      · exact hy
      · exact h y (hskip.resolve_left hne)
  · rename_i hne
    rw [not_or] at hne
    rw [push_pushed, List.mem_cons]
    constructor
    · rintro (rfl | hy)
      · exact .inr ⟨rfl, hne.1⟩
      · exact .inl hy
    · rintro (hy | ⟨rfl, -⟩)
      · exact .inr hy
      · exact .inl rfl

theorem mem_pushed_notifyAll (h : v.LastOk) {xs : List TaskId} {y : TaskId} :
    y ∈ (notifyAll c v xs).pushed ↔ y ∈ v.pushed ∨ y ∈ xs ∧ c ≠ y := by
  induction xs generalizing v with
  | nil => simp [notifyAll]
  | cons x xs ih =>
    rw [notifyAll, ih h.notify, mem_pushed_notify h, List.mem_cons]
    constructor
    · rintro ((hy | ⟨rfl, hne⟩) | ⟨hy, hne⟩)
      · exact .inl hy
      · exact .inr ⟨.inl rfl, hne⟩
      · exact .inr ⟨.inr hy, hne⟩
    · rintro (hy | ⟨rfl | hy, hne⟩)
      · exact .inl (.inl hy)
      · exact .inl (.inr ⟨rfl, hne⟩)
      · exact .inr ⟨hy, hne⟩

theorem LastOk.readAfterWrite (h : v.LastOk) : (v.readAfterWrite c e f).LastOk := by
  unfold View.readAfterWrite
  split
  · exact h
  · exact LastOk.push

theorem mem_pushed_readAfterWrite (h : v.LastOk) {y : TaskId} :
    y ∈ (v.readAfterWrite c e f).pushed ↔
      y ∈ v.pushed ∨ y = (v.elem f).owner ∧ c ≠ (v.elem f).owner := by
  have hpushed : (v.readAfterWrite c e f).pushed = (v.notify c (v.elem f).owner).pushed := by
    unfold readAfterWrite notify
    split <;> rfl
  rw [hpushed, mem_pushed_notify h]

theorem LastOk.readAfterRead (h : v.LastOk) : (v.readAfterRead c f).LastOk := by
  unfold View.readAfterRead
  split
  · exact h
  · split
    · exact .push
    · exact h

theorem LastOk.visit (h : v.LastOk) : (v.visit c e j out).LastOk := by
  unfold View.visit
  split
  · exact h
  · split
    · split
      · exact LastOk.notify (v := v.setNode e j) h
      · exact LastOk.notifyAll (v := v.setNode e j) h
    · split
      · exact LastOk.readAfterWrite (v := v.setNode e j) h
      · exact h.readAfterRead

theorem subset_pushed_notify : v.pushed ⊆ (v.notify c x).pushed := by
  unfold notify
  split
  · exact List.Subset.refl _
  · exact List.subset_cons_self _ _

theorem subset_pushed_notifyAll {xs : List TaskId} : v.pushed ⊆ (notifyAll c v xs).pushed := by
  induction xs generalizing v with
  | nil => exact List.Subset.refl _
  | cons x xs ih => exact List.Subset.trans subset_pushed_notify ih

theorem subset_pushed_visit : v.pushed ⊆ (v.visit c e j out).pushed := by
  unfold visit
  split
  · exact List.Subset.refl _
  · split
    · split
      · exact subset_pushed_notify (v := v.setNode e j)
      · exact subset_pushed_notifyAll (v := v.setNode e j)
    · split
      · unfold readAfterWrite
        split
        · exact List.Subset.refl _
        · exact List.subset_cons_self _ _
      · unfold readAfterRead
        split
        · exact List.Subset.refl _
        · split
          · exact List.subset_cons_self _ _
          · exact List.Subset.refl _

/-! ## The induction over the visits -/

/-- **What the visits keep, `handle_argument` keeps**, for two analyses of the same
argument at a time.  The list is that of the blocks visited so far. -/
theorem handle_induct₂ (v v' : View) (e e' : ElemId) {a : Argument} {P : List ℕ → View → View → Prop}
    (hs : a.isSafe = false) (h0 : P [] (v.newElement c e a.type) (v'.newElement c e' a.type))
    (hjoin : a.isOut = false → ∀ l w w', P l w w' → P l (w.insertFront c e) (w'.insertFront c e'))
    (hvisit : ∀ l j w w', j ∈ a.blocks gridT → P l w w' →
      P (j :: l) (w.visit c e j a.isOut) (w'.visit c e' j a.isOut)) :
    P (a.blocks gridT).reverse (v.handle gridT c e a) (v'.handle gridT c e' a) := by
  have hflat : a.blocks gridT = (handleArgument gridT a).1.flatten := by
    rw [Argument.blocks, if_neg (by simp [hs])]
  have hblocks : ∀ (blocks : List ℕ) l w w', blocks ⊆ a.blocks gridT → P l w w' →
      P (blocks.reverse ++ l) (visitAll c e a.isOut w blocks)
        (visitAll c e' a.isOut w' blocks) := by
    intro blocks
    induction blocks with
    | nil => exact fun l w w' _ h => h
    | cons j blocks ih =>
      intro l w w' hsub h
      obtain ⟨hj, hsub⟩ := List.cons_subset.1 hsub
      rw [List.reverse_cons, List.append_assoc]
      exact ih _ _ _ hsub (hvisit l j w w' hj h)
  have hpieces : ∀ (pieces : List (List ℕ)) l w w', pieces.flatten ⊆ a.blocks gridT →
      P l w w' → P (pieces.flatten.reverse ++ l) (pieces.foldl (createDependency c e a.isOut) w)
        (pieces.foldl (createDependency c e' a.isOut) w') := by
    intro pieces
    induction pieces with
    | nil => exact fun l w w' _ h => h
    | cons piece pieces ih =>
      intro l w w' hsub h
      rw [List.flatten_cons] at hsub ⊢
      obtain ⟨hpiece, hsub⟩ := List.append_subset.1 hsub
      rw [List.reverse_append, List.append_assoc]
      refine ih _ _ _ hsub (hblocks piece l _ _ hpiece ?_)
      split
      · exact h
      · rename_i hout
        exact hjoin (by simpa using hout) l w w' h
  have hall := hpieces _ [] _ _ (by rw [hflat]; exact List.Subset.refl _) h0
  rwa [List.append_nil, ← hflat] at hall

/-- The same for one analysis. -/
theorem handle_induct {a : Argument} {P : List ℕ → View → Prop} (hs : a.isSafe = false)
    (h0 : P [] (v.newElement c e a.type))
    (hjoin : a.isOut = false → ∀ l w, P l w → P l (w.insertFront c e))
    (hvisit : ∀ l j w, j ∈ a.blocks gridT → P l w → P (j :: l) (w.visit c e j a.isOut)) :
    P (a.blocks gridT).reverse (v.handle gridT c e a) :=
  handle_induct₂ gridT v v e e (P := fun l w _ => P l w) hs h0
    (fun hout l w _ h => hjoin hout l w h) fun l j w _ hj h => hvisit l j w hj h

end View

end Partee
