import Partee.Runtime.Argument
import Mathlib.Tactic.Simps.Basic

/-!
# Task descriptors and metadata elements

A descriptor is named by its address, a number below the count of descriptors
allocated so far; addresses are not reused, and whether the memory behind one has
been given back is recorded as `regionDeleted` of the parent, whose region holds
the descriptor.  The fields are those of `struct _tpc_task_descriptor` that the
runtime reads or writes and that other threads may look at.  Two fields,
`metadata` and `deps_last`, are only ever touched by the thread that is running
the parent, as are the metadata elements; they are kept in `Analysis`, next to
the elements.

The counters are natural numbers here, and a list of readers is as long as what was
inserted in it.  Those of the source are 32 bits wide: `Runtime.Width` has the system with
`waitfor`, `fired` and the `total_entries` of a list of that width, and says up to where
the two agree.  For `number_of_children` the bound is an assumption: fewer than `2 ^ 31`
children of a task are counted at a time.
-/

namespace Partee

/-- The address of a task descriptor. -/
abbrev TaskId := ℕ

/-- The address of a metadata element. -/
abbrev ElemId := ℕ

/-- The task status of `partee.h`. -/
inductive Status where
  | creating
  | created
  | scheduled
  | executed
  | releasing
  | complete
  deriving DecidableEq, Repr

/-- The numerical value of a status; the source compares statuses by it. -/
def Status.code : Status → ℕ
  | .creating => 0
  | .created => 1
  | .scheduled => 2
  | .executed => 3
  | .releasing => 4
  | .complete => 5

/-- The shared part of `struct _tpc_task_descriptor`. -/
structure Descriptor where
  args : List Argument
  parent : Option TaskId
  numberOfChildren : ℕ
  status : Status
  waitfor : ℕ
  fired : ℕ
  /-- the stack `to_notify`, newest first; `none` once it is `STACK_LOCKED` -/
  toNotify : Option (List TaskId)
  /-- `task_region` has been deleted -/
  regionDeleted : Bool

/-- The descriptor `tpc_task_descriptor_alloc` returns, zeroed and with a new
region, after the caller has filled in its arguments and its parent. -/
@[simps] def Descriptor.new (args : List Argument) (parent : Option TaskId) : Descriptor where
  args := args
  parent := parent
  numberOfChildren := 0
  status := .creating
  waitfor := 0
  fired := 0
  toNotify := some []
  regionDeleted := false

/-- `struct Metadata_element`. -/
structure MetadataElement where
  type : BitVec 32
  readers : List TaskId
  owner : TaskId
  dependentMetadata : Option ElemId

/-- `main_task_desc`. -/
def mainTask : TaskId := 0

end Partee
