import Partee.Runtime.State

/-!
# The dependence analysis, one access at a time

`tpc_call` and the functions of `deps.c` below it.  The lookup table of the
parent, the metadata elements and `deps_last` belong to the thread that is
running the parent; reading and writing them is folded into the neighbouring
access of shared data.  The shared accesses are the increment of the parent's
counter, the pushes on the `to_notify` stacks of siblings, the load of an
owner's status in the read-after-read case, and the stores of `waitfor` and
`status`.
-/

namespace Partee

variable {ω : Type*}

/-- `stack_push(t, &s->to_notify)`: `none` if the stack is locked, and the push
is refused. -/
def stackPush (r : Runtime ω) (t s : TaskId) : Option (Runtime ω) :=
  (r.task s).toNotify.map fun l => r.pushed t s l

/-- One iteration of the loop of `create_dependency`, at block `j` of the lookup
table of `p`, up to its first shared access.  The four cases at an existing
element are write-after-write, write-after-read, read-after-write and
read-after-read. -/
def createDependency (d : Analysis) (c p : TaskId) (k : Walk) (j : ℕ) : CallPc × Analysis :=
  if k.out then
    let d' := (d.setNode p j k.elem).visit c true j
    match d.metadata p j with
    | none => (.walk k, d')
    | some e =>
        if isOutType (d.elem e).type then (.push k e false, d')
        else (.readers k (d.elem e).readers, d')
  else
    match d.metadata p j with
    | none => (.walk k, (d.setNode p j k.elem).visit c false j)
    | some e =>
        if isOutType (d.elem e).type then
          (.push k e true, (d.setNode p j k.elem).visit c false j)
        else (.ownerStatus k e j, d)

/-- The loops around it: the next block of the current range, the next call of
`create_dependency` for the current argument, the next argument, and the two
ways `create_dependencies` ends. -/
def createDependencies (gridT : BitVec 64) (d : Analysis) (c p : TaskId) (k : Walk) :
    CallPc × Analysis :=
  match k.blocks, k.pieces, k.args with
  | j :: blocks, _, _ => createDependency d c p { k with blocks := blocks } j
  | [], piece :: pieces, _ =>
      (.walk { k with pieces := pieces, blocks := piece },
        if k.out then d else d.insertFront c k.elem)
  | [], [], a :: args =>
      if a.isSafe then (.walk { k with args := args }, d)
      else
        (.walk { k with
            args := args
            elem := d.nextElem
            out := a.isOut
            pieces := (handleArgument gridT a).1 },
          d.newElement a.type c)
  | [], [], [] =>
      if k.waitfor = 0 then (.storeCreated 0, d) else (.storeWaitfor k.waitfor, d)

/-- The push on the stack of the owner of `e`; when it is read-after-write the
new element remembers `e`. -/
def notifyOwner (s : State ω) (c : TaskId) (k : Walk) (e : ElemId) (raw : Bool) :
    CallPc × State ω :=
  let owner := (s.dep.elem e).owner
  if c = owner ∨ s.dep.depsLast c = some owner then (.walk k, s)
  else
    match stackPush s.rt c owner with
    | none => (.walk k, s)
    | some r =>
        let d := s.dep.setDepsLast c owner
        (.walk { k with waitfor := k.waitfor + 1 },
          ⟨r, if raw then d.setDependent k.elem e else d⟩)

/-- The loop over the readers of the element found. -/
def notifyReaders (s : State ω) (c : TaskId) (k : Walk) : List TaskId → CallPc × State ω
  | [] => (.walk k, s)
  | reader :: rest =>
      if c ≠ reader ∧ s.dep.depsLast c ≠ some reader then
        match stackPush s.rt c reader with
        | none => (.readers k rest, s)
        | some r =>
            (.readers { k with waitfor := k.waitfor + 1 } rest,
              ⟨r, s.dep.setDepsLast c reader⟩)
      else (.readers k rest, s)

/-- The read-after-read case at block `j`, with the status of the owner of `e`
loaded. -/
def readAfterRead (s : State ω) (c p : TaskId) (k : Walk) (e : ElemId) (j : ℕ) :
    CallPc × State ω :=
  let metadata := s.dep.elem e
  if (s.rt.task metadata.owner).status.code ≤ Status.executed.code then
    let s' := { s with dep := (s.dep.insertFront c e).visit c false j }
    match metadata.dependentMetadata with
    | none => (.walk k, s')
    | some d =>
        if c ≠ metadata.owner ∧ s.dep.depsLast c ≠ some metadata.owner then
          (.pushDependent k d, s')
        else (.walk k, s')
  else
    (.walk k, { s with dep := (s.dep.setNode p j k.elem).visit c false j })

/-- The push on the stack of the last writer, in the read-after-read case. -/
def notifyDependent (s : State ω) (c : TaskId) (k : Walk) (d : ElemId) : CallPc × State ω :=
  let owner := (s.dep.elem d).owner
  match stackPush s.rt c owner with
  | none => (.walk k, s)
  | some r => (.walk { k with waitfor := k.waitfor + 1 }, ⟨r, s.dep.setDepsLast c owner⟩)

/-- The walk with which `create_dependencies` starts. -/
def Walk.start (args : List Argument) : Walk where
  args := args
  elem := 0
  out := false
  pieces := []
  blocks := []
  waitfor := 0

/-- One access of `tpc_call(c)`, up to the store of `CREATED_TASK`; `none` if a
null `parent` would be dereferenced. -/
def tpcCall (gridT : BitVec 64) (s : State ω) (c : TaskId) : CallPc → Option (CallPc × State ω)
  | .incr =>
      match (s.rt.task c).parent with
      | none => some (.creating, s)
      | some p => some (.creating, { s with rt := s.rt.incrChildren c p })
  | .creating =>
      some (.walk (.start (s.rt.task c).args), { s with rt := s.rt.setStatus c .creating })
  | .walk k => (s.rt.task c).parent.map fun p =>
      let (pc, d) := createDependencies gridT s.dep c p k
      (pc, { s with dep := d })
  | .push k e raw => some (notifyOwner s c k e raw)
  | .readers k rest => some (notifyReaders s c k rest)
  | .ownerStatus k e j => (s.rt.task c).parent.map fun p => readAfterRead s c p k e j
  | .pushDependent k d => some (notifyDependent s c k d)
  | .storeWaitfor n =>
      some (.storeCreated n, { s with rt := s.rt.modify c fun d => { d with waitfor := n } })
  | .storeCreated _ => none

end Partee
