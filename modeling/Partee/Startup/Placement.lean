import Mathlib.Algebra.Group.Nat.Defs
import Mathlib.Data.Nat.ModEq
import Mathlib.Tactic.Common
import Mathlib.Tactic.NormNum

/-!
# The cores of the workers

The core that `worker_thread` computes for itself.  With libnuma the workers go around
the nodes: worker `id` goes to node `id % total_nodes`, as the `id / total_nodes`-th
worker there.  Its place within the node is that number, after `spread` has sent the
lower half to the even places and the upper half to the odd ones.

`spread` keeps the first and the last place fixed, and the two halves meet in the
middle in the same way for nodes of odd and of even size: `spread_eq` gives it in
closed form, from which it is a bijection of the places of a node.

Which node a core belongs to is up to the machine.  `NumberedByNode` is what the
computation relies on: cores are numbered node after node, `system_proc / total_nodes`
of them on each.
-/

namespace Partee
namespace Startup

/-! ## The computation -/

/-- The interleaving of `pad` within a node of `node` cores, on `uint32_t`. -/
def spread (node pad : ℕ) : ℕ :=
  if pad ≠ 0 ∧ pad ≠ (node + 2 ^ 32 - 1) % 2 ^ 32 then
    if pad < node / 2 then (0 + pad * 2) % 2 ^ 32 else (1 + (pad - node / 2) * 2) % 2 ^ 32
  else pad

/-- `phys_core` of the worker with this argument; `numa` is `numa_available() != -1`. -/
def physCore (numa : Bool) (totalNodes systemProc arg : ℕ) : ℕ :=
  let id := arg % 2 ^ 32
  if numa then
    let node := systemProc / totalNodes
    let physCore := id * node % 2 ^ 64 % systemProc % 2 ^ 32
    let pad := id * node % 2 ^ 64 / systemProc % 2 ^ 32
    (physCore + spread node pad) % 2 ^ 32 % systemProc
  else
    -- round-robin pinning threads
    id % systemProc % 2 ^ 32

/-- The core to which `tpc_init` pins the main thread. -/
def mainCore : ℕ := 0

/-- The machine numbers its cores node after node: two of them are on the same node if and
only if they are in the same run of `system_proc / total_nodes` cores. -/
def NumberedByNode (totalNodes systemProc : ℕ) (nodeOf : ℕ → ℕ) : Prop :=
  ∀ c < systemProc, ∀ c' < systemProc,
    nodeOf c = nodeOf c' ↔ c / (systemProc / totalNodes) = c' / (systemProc / totalNodes)

/-! ## The places within a node -/

/-- `spread` without the wrapping: nothing wraps on the places of a node. -/
theorem spread_eq {node pad : ℕ} (hnode : node < 2 ^ 32) (hpad : pad < node) :
    spread node pad =
      if pad = 0 ∨ pad + 1 = node then pad
      else if pad < node / 2 then 2 * pad else 2 * (pad - node / 2) + 1 := by
  have hlast : (node + 2 ^ 32 - 1) % 2 ^ 32 = node - 1 := by omega
  rw [spread, hlast]
  split_ifs <;> omega

theorem spread_zero (node : ℕ) : spread node 0 = 0 := by
  rw [spread, if_neg fun h => h.1 rfl]

theorem spread_lt {node pad : ℕ} (hnode : node < 2 ^ 32) (hpad : pad < node) :
    spread node pad < node := by
  rw [spread_eq hnode hpad]
  split_ifs <;> omega

/-- Two workers of a node have different places. -/
theorem spread_injective {node pad pad' : ℕ} (hnode : node < 2 ^ 32) (hpad : pad < node)
    (hpad' : pad' < node) (h : spread node pad = spread node pad') : pad = pad' := by
  rw [spread_eq hnode hpad, spread_eq hnode hpad'] at h
  split_ifs at h <;> omega

/-! ## The workers -/

section Numa

variable {node totalNodes : ℕ} {id : ℕ}

/-- A core of some node. -/
theorem core_lt (hid : id < totalNodes * node) {place : ℕ} (hplace : place < node) :
    id % totalNodes * node + place < totalNodes * node := by
  have hpos : 0 < totalNodes := Nat.pos_of_ne_zero fun h => by
    rw [h, Nat.zero_mul] at hid
    exact absurd hid (Nat.not_lt_zero _)
  calc id % totalNodes * node + place
      < id % totalNodes * node + node := Nat.add_lt_add_left hplace _
    _ = (id % totalNodes + 1) * node := (Nat.succ_mul _ _).symm
    _ ≤ totalNodes * node := Nat.mul_le_mul_right _ (Nat.mod_lt _ hpos)

/-- Round-robin over the nodes, and `spread` within a node. -/
theorem physCore_eq (hproc : totalNodes * node < 2 ^ 32) (hid : id < totalNodes * node) :
    physCore true totalNodes (totalNodes * node) id =
      id % totalNodes * node + spread node (id / totalNodes) := by
  have hpos : 0 < totalNodes := Nat.pos_of_ne_zero fun h => by
    rw [h, Nat.zero_mul] at hid
    exact absurd hid (Nat.not_lt_zero _)
  have hnode : 0 < node := Nat.pos_of_ne_zero fun h => by
    rw [h, Nat.mul_zero] at hid
    exact absurd hid (Nat.not_lt_zero _)
  have hnode_le : node ≤ totalNodes * node := Nat.le_mul_of_pos_left node hpos
  have hpad : id / totalNodes < node := Nat.div_lt_of_lt_mul hid
  have hcore := core_lt hid (spread_lt (Nat.lt_of_le_of_lt hnode_le hproc) hpad)
  have hstride : id * node < 2 ^ 64 := by
    calc id * node < 2 ^ 32 * 2 ^ 32 := Nat.mul_lt_mul'' (by omega) (by omega)
      _ = 2 ^ 64 := by norm_num
  rw [physCore, if_pos rfl, Nat.mul_div_cancel_left node hpos]
  dsimp only
  rw [Nat.mod_eq_of_lt (by omega : id < 2 ^ 32), Nat.mod_eq_of_lt hstride,
    Nat.mul_mod_mul_right, Nat.mul_div_mul_right _ _ hnode,
    Nat.mod_eq_of_lt (by omega : id % totalNodes * node < 2 ^ 32),
    Nat.mod_eq_of_lt (by omega : id / totalNodes < 2 ^ 32),
    Nat.mod_eq_of_lt (Nat.lt_trans hcore hproc), Nat.mod_eq_of_lt hcore]

/-- A core has its node and its place in it. -/
theorem div_node {n place : ℕ} (hplace : place < node) : (n * node + place) / node = n := by
  rw [Nat.mul_comm, Nat.mul_add_div (by omega), Nat.div_eq_of_lt hplace, Nat.add_zero]

end Numa

/-- **Every worker has its own core.**  The workers `0, …, system_proc - 1` are sent to
different cores, worker 0 to the core of the main thread, and workers that are less
than `total_nodes` apart to different nodes, if cores are numbered node after node. -/
theorem physCore_injective {totalNodes systemProc : ℕ} (hproc : systemProc < 2 ^ 32)
    (hnodes : 1 ≤ totalNodes) (hdvd : totalNodes ∣ systemProc) :
    (∀ id < systemProc, physCore true totalNodes systemProc id < systemProc) ∧
    (∀ id < systemProc, ∀ id' < systemProc,
      physCore true totalNodes systemProc id = physCore true totalNodes systemProc id' →
        id = id') ∧
    (0 < systemProc → physCore true totalNodes systemProc 0 = mainCore) ∧
    ∀ nodeOf : ℕ → ℕ, NumberedByNode totalNodes systemProc nodeOf →
      ∀ id < systemProc, ∀ id' < systemProc, id < id' → id' - id < totalNodes →
        nodeOf (physCore true totalNodes systemProc id) ≠
          nodeOf (physCore true totalNodes systemProc id') := by
  obtain ⟨node, rfl⟩ := hdvd
  have hnode : node < 2 ^ 32 := Nat.lt_of_le_of_lt (Nat.le_mul_of_pos_left node hnodes) hproc
  have hspread : ∀ id < totalNodes * node, spread node (id / totalNodes) < node :=
    fun id hid => spread_lt hnode (Nat.div_lt_of_lt_mul hid)
  have hcore : ∀ id < totalNodes * node,
      physCore true totalNodes (totalNodes * node) id < totalNodes * node := by
    intro id hid
    rw [physCore_eq hproc hid]
    exact core_lt hid (hspread id hid)
  have hquot : ∀ id < totalNodes * node,
      physCore true totalNodes (totalNodes * node) id / node = id % totalNodes := by
    intro id hid
    rw [physCore_eq hproc hid, div_node (hspread id hid)]
  refine ⟨hcore, fun id hid id' hid' h => ?_, fun hpos => ?_,
    fun nodeOf hnumbered id hid id' hid' hlt hclose h => ?_⟩
  · have hmod : id % totalNodes = id' % totalNodes := by
      rw [← hquot id hid, ← hquot id' hid', h]
    rw [physCore_eq hproc hid, physCore_eq hproc hid', hmod] at h
    have hdiv : id / totalNodes = id' / totalNodes :=
      spread_injective hnode (Nat.div_lt_of_lt_mul hid) (Nat.div_lt_of_lt_mul hid')
        (Nat.add_left_cancel h)
    calc id = totalNodes * (id / totalNodes) + id % totalNodes := (Nat.div_add_mod _ _).symm
      _ = totalNodes * (id' / totalNodes) + id' % totalNodes := by rw [hdiv, hmod]
      _ = id' := Nat.div_add_mod _ _
  · rw [physCore_eq hproc hpos, Nat.zero_mod, Nat.zero_mul, Nat.zero_div, spread_zero]
    rfl
  · have hsame := (hnumbered _ (hcore id hid) _ (hcore id' hid')).mp h
    rw [Nat.mul_div_cancel_left node hnodes, hquot id hid, hquot id' hid'] at hsame
    -- congruent and less than `totalNodes` apart
    have hdvd : totalNodes ∣ id' - id := (Nat.modEq_iff_dvd' (Nat.le_of_lt hlt)).mp hsame
    exact absurd (Nat.le_of_dvd (Nat.sub_pos_of_lt hlt) hdvd) (Nat.not_le.mpr hclose)

/-- Four nodes of five cores: the nodes are of odd size. -/
theorem physCore_injective_example :
    (∀ id < 20, ∀ id' < 20, physCore true 4 20 id = physCore true 4 20 id' → id = id') ∧
      physCore true 4 20 0 = mainCore ∧
      ∀ id < 20, ∀ id' < 20, id < id' → id' - id < 4 →
        physCore true 4 20 id / 5 ≠ physCore true 4 20 id' / 5 := by
  have hproc : 20 < 2 ^ 32 := by decide
  have hnodes : 1 ≤ 4 := by decide
  have hdvd : 4 ∣ 20 := by decide
  obtain ⟨-, hinj, hmain, hapart⟩ := physCore_injective hproc hnodes hdvd
  exact ⟨hinj, hmain (by decide), hapart (fun core => core / 5) fun _ _ _ _ => Iff.rfl⟩

/-- Without libnuma the workers are pinned in the order of their ids. -/
theorem physCore_roundRobin (totalNodes : ℕ) {systemProc id : ℕ} (hproc : systemProc < 2 ^ 32)
    (hid : id < systemProc) : physCore false totalNodes systemProc id = id := by
  rw [physCore, if_neg Bool.false_ne_true, Nat.mod_eq_of_lt (by omega : id < 2 ^ 32),
    Nat.mod_eq_of_lt hid, Nat.mod_eq_of_lt (by omega)]

end Startup
end Partee
