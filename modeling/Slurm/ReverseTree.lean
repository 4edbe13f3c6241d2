import Slurm.Lib.CString
import Slurm.Lib.CompleteTree

/-!
# The reverse tree

The `slurmstepd` processes of a step report to each other along a tree, whose nodes are numbered
in preorder. Each of them finds its place by itself, from its rank, the number of nodes, and the
width of the tree: its parent by a search from the root (`searchTree`), and its children from its
depth (`reverseTreeDirectChildren`).

The numbers are of type `int`, and their sums and products wrap around (`CString.toInt`). Two of
the functions need not return then, and take the number of their steps (`fuel`).
-/

namespace Slurm

open CString

/-! ## Numbers -/

/-- The loop of `int_pow`. -/
def intPowLoop (num : ℤ) : ℕ → ℤ → ℤ
  | 0, res => res
  | i + 1, res => intPowLoop num i (toInt (res * num))

/-- `int_pow`. -/
def intPow (num power : ℤ) : ℤ := if power = 0 then 1 else intPowLoop num (power.toNat - 1) num

/-- `geometric_series`. -/
def geometricSeries (width depth : ℤ) : ℤ :=
  if width = 1 then 1
  else toInt ((toInt (1 - intPow width (depth + 1))).tdiv (1 - width))

/-- The loop of `dep`. -/
def depLoop (total width : ℤ) : ℕ → ℤ → ℤ → Option ℤ
  | 0, _, _ => none
  | fuel + 1, i, x =>
    if x < total - 1 then depLoop total width fuel (i + 1) (toInt (x + intPow width i))
    else some (i - 1)

/-- `dep`. -/
def dep (fuel : ℕ) (total width : ℤ) : Option ℤ := depLoop total width fuel 1 0

/-! ## Places -/

/-- What the loop of `search_tree` finds: a child, the subtree of a child, or nothing. -/
inductive SearchStep
  | child
  | within (current : ℤ)
  | missing
  deriving DecidableEq

/-- The loop of `search_tree`. -/
def scanChildren (id nextChildren : ℤ) : ℕ → ℤ → SearchStep
  | 0, _ => .missing
  | i + 1, current =>
    let next := toInt (current + nextChildren + 1)
    if id = next then .child
    else if current < id ∧ id < next then .within current
    else scanChildren id nextChildren i next

/-- What `search_tree` finds: the parent, the descendants of the node in a complete tree, and the
    depth. -/
structure SearchResult where
  parentId : ℤ
  nextMaxChildren : ℤ
  depth : ℤ
  deriving DecidableEq

/-- `search_tree`. -/
def searchTree (id width : ℤ) : ℕ → ℤ → ℤ → ℤ → Option SearchResult
  | 0, _, _, _ => none
  | fuel + 1, node, maxChildren, depth =>
    let nextChildren := maxChildren.tdiv width - 1
    if id = node + 1 then some ⟨node, nextChildren, depth + 1⟩
    else
      match scanChildren id nextChildren width.toNat (node + 1) with
      | .child => some ⟨node, nextChildren, depth + 1⟩
      | .within current => searchTree id width fuel current nextChildren (depth + 1)
      | .missing => some ⟨-1, -1, depth + 1⟩

/-- What `reverse_tree_info` finds. -/
structure TreeInfo where
  parent : ℤ
  numChildren : ℤ
  depth : ℤ
  maxDepth : ℤ
  deriving DecidableEq

/-- `reverse_tree_info`. -/
def reverseTreeInfo (fuel : ℕ) (rank numNodes width : ℤ) : Option TreeInfo :=
  if numNodes ≤ rank then some ⟨-1, -1, -1, -1⟩
  else do
    let maxDepth ← dep fuel numNodes width
    if rank = 0 then return ⟨-1, numNodes - 1, 0, maxDepth⟩
    let found ← searchTree rank width fuel 0 (geometricSeries width maxDepth) 0
    let c := if numNodes ≤ toInt (rank + found.nextMaxChildren) then numNodes - rank - 1
      else found.nextMaxChildren
    return ⟨found.parentId, c, found.depth, maxDepth⟩

/-- The loop of `reverse_tree_direct_children`. -/
def directChildren (numNodes childDistance : ℤ) : ℕ → ℤ → List ℤ
  | 0, _ => []
  | i + 1, current =>
    if current < numNodes then
      current :: directChildren numNodes childDistance i (toInt (current + childDistance))
    else []

/-- `reverse_tree_direct_children`. -/
def reverseTreeDirectChildren (fuel : ℕ) (rank numNodes width depth : ℤ) : Option (List ℤ) := do
  let maxDepth ← dep fuel numNodes width
  let subDepth := maxDepth - depth
  if subDepth = 0 then return []
  let childDistance := (geometricSeries width subDepth).tdiv width
  return directChildren numNodes childDistance width.toNat (rank + 1)

end Slurm
