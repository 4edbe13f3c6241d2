import Mathlib.Algebra.Order.Field.Basic

/-!
# Fair Tree

The Fair Tree algorithm (`fair_tree.c`) ranks the users of all accounts. Every association
has a number `level_fs`, its shares over its usage among its siblings, and the tree
of associations is walked from the root, siblings with a higher number first. Users get their
rank in the order in which they are met, where those that are tied get the same rank.

Numbers are exact: those of the source are floating point numbers of high precision, which are
taken as elements of an ordered field, and infinity. The first step is to compute `level_fs` in
the whole tree (`Assoc.levelled`). It does not depend on ranks, so that nothing changes by
doing it first. What is walked is then a tree with these numbers (`FsTree`).

The siblings are sorted by `qsort`, which may put those that compare equal in any order. The
sort is an argument, of which `FsTree.Sorts` says what is known.
-/

namespace Slurm

open List

/-- A tree of associations, with their `level_fs`. An association is a user or an account. -/
inductive FsTree (Λ : Type*)
  | user (id : ℕ) (levelFs : Λ)
  | account (levelFs : Λ) (childrenList : List (FsTree Λ))

namespace FsTree

section

variable {Λ : Type*}

/-- The share of an association among its siblings. -/
def levelFs : FsTree Λ → Λ
  | user _ l => l
  | account l _ => l

/-- The association is that of a user. -/
def isUser : FsTree Λ → Bool
  | user _ _ => true
  | account _ _ => false

/-- The children of an association. -/
def childrenList : FsTree Λ → List (FsTree Λ)
  | user _ _ => []
  | account _ c => c

mutual

/-- The users below an association. -/
def ids : FsTree Λ → List ℕ
  | user i _ => [i]
  | account _ c => idsList c

/-- The users below some associations. -/
def idsList : List (FsTree Λ) → List ℕ
  | [] => []
  | a :: c => a.ids ++ idsList c

end

mutual

/-- How many levels there are below an association. -/
def depth : FsTree Λ → ℕ
  | user _ _ => 0
  | account _ c => depthList c + 1

/-- How many levels there are below some associations. -/
def depthList : List (FsTree Λ) → ℕ
  | [] => 0
  | a :: c => max a.depth (depthList c)

end

theorem depthList_le {n : ℕ} {L : List (FsTree Λ)} : depthList L ≤ n ↔ ∀ a ∈ L, a.depth ≤ n := by
  induction L with
  | nil => simp [depthList]
  | cons a L ih => simp [depthList, ih]

theorem idsList_eq (L : List (FsTree Λ)) : idsList L = L.flatMap ids := by
  induction L with
  | nil => rfl
  | cons a L ih => rw [idsList, flatMap_cons, ih]

/-- The children of some accounts (`_merge_accounts`). -/
def mergeAccounts (accounts : List (FsTree Λ)) : List (FsTree Λ) := accounts.flatMap childrenList

end

variable {Λ : Type*} [LinearOrder Λ] {L : List (FsTree Λ)}

/-- Compare siblings (`_cmp_level_fs`): higher numbers come first, and users before accounts. -/
def cmpLevelFs (a b : FsTree Λ) : ℤ :=
  if a.levelFs ≠ b.levelFs then if a.levelFs < b.levelFs then 1 else -1
  else if a.isUser = b.isUser then 0
  else if a.isUser then -1 else 1

/-- What is known of `qsort` with `_cmp_level_fs`. -/
structure Sorts (sort : List (FsTree Λ) → List (FsTree Λ)) : Prop where
  perm : ∀ L, (sort L).Perm L
  sorted : ∀ L, (sort L).Pairwise fun a b => cmpLevelFs a b ≤ 0

/-- The ranks that are left (`rank`, `rnt`), and those that were given. -/
structure Ranking where
  rank : ℕ
  rnt : ℕ
  fsFactor : ℕ → Option ℚ := fun _ => none

/-- The user `i` gets a rank, as a part of all ranks. -/
def Ranking.give (r : Ranking) (count i rank : ℕ) : Ranking where
  rank := rank
  rnt := r.rnt - 1
  fsFactor := Function.update r.fsFactor i (some ((rank : ℚ) / count))

/-- The number of accounts that are to be merged with the account `a`, among the siblings after
    it (`_count_tied_accounts`). -/
def countTiedAccounts (a : FsTree Λ) (rest : List (FsTree Λ)) : ℕ :=
  (rest.takeWhile fun b => b.isUser ∧ a.levelFs = b.levelFs).length

/-- The loop over sorted siblings. The next `skip` of them were merged already; `start` says that
    this is the first one, and that its parent was tied. -/
def siblingLoop (below : List (FsTree Λ) → Ranking → Bool → Option Ranking) (count : ℕ) :
    List (FsTree Λ) → ℕ → Bool → Λ → Ranking → Option Ranking
  | [], _, _, _, r => some r
  | _ :: rest, skip + 1, start, prev, r => siblingLoop below count rest skip start prev r
  | user i l :: rest, 0, start, prev, r =>
    siblingLoop below count rest 0 false l
      (r.give count i (if start ∨ prev = l then r.rank else r.rnt))
  | account l c :: rest, 0, start, prev, r =>
    let k := countTiedAccounts (account l c) rest
    (below (mergeAccounts (account l c :: rest.take k)) r (start ∨ prev = l)).bind fun r =>
      siblingLoop below count rest k false l r

/-- Rank the users below some siblings (`_calc_tree_fs`), for a tree with less than `fuel`
    levels. -/
def calcTreeFs (sort : List (FsTree Λ) → List (FsTree Λ)) (noVal : Λ) (count : ℕ) :
    ℕ → List (FsTree Λ) → Ranking → Bool → Option Ranking
  | 0, _, _, _ => none
  | fuel + 1, siblings, r, accountTied =>
    siblingLoop (calcTreeFs sort noVal count fuel) count (sort siblings) 0 accountTied noVal r

/-- Rank all users, where `children` are the children of the root (`_apply_priority_fs`). The
    number of users is what `g_user_assoc_count` counts. -/
def rankTree (sort : List (FsTree Λ) → List (FsTree Λ)) (noVal : Λ) (children : List (FsTree Λ)) :
    Option Ranking :=
  let count := (idsList children).length
  calcTreeFs sort noVal count (depthList children + 1) children { rank := count, rnt := count } false

end FsTree

/-! ## Shares and usage -/

section

variable {K : Type*} [Field K] [LinearOrder K]

/-- What `level_fs` is computed from. An association may have the shares of its parent
    (`SLURMDB_FS_USE_PARENT`). -/
structure AssocUsage (K : Type*) where
  useParent : Bool := false
  sharesNorm : K
  usageRaw : K

/-- A tree of associations. The children of an account are those whose `fs_assoc_ptr` it is. -/
inductive Assoc (K : Type*)
  | user (id : ℕ) (usage : AssocUsage K)
  | account (usage : AssocUsage K) (childrenList : List (Assoc K))

/-- `NO_VAL`, as a number. -/
def noValFs (K : Type*) [Field K] : WithTop K := ((4294967294 : K) : WithTop K)

/-- The part of the parent's usage that is due to an association
    (`_ft_set_assoc_usage_efctv`). -/
def usageEfctv (parent u : AssocUsage K) : K :=
  if parent.usageRaw = 0 then 0 else u.usageRaw / parent.usageRaw

/-- Shares over usage, of an association among its siblings (`_calc_assoc_fs`). -/
def calcAssocFs (parent : AssocUsage K) (isUser : Bool) (u : AssocUsage K) : WithTop K :=
  if u.useParent then if isUser then ⊤ else noValFs K
  else if u.sharesNorm = 0 then 0
  else if usageEfctv parent u = 0 then ⊤
  else ((u.sharesNorm / usageEfctv parent u : K) : WithTop K)

namespace Assoc

mutual

/-- The tree of an association, with the numbers computed. -/
def levelled (parent : AssocUsage K) : Assoc K → FsTree (WithTop K)
  | user i u => .user i (calcAssocFs parent true u)
  | account u c => .account (calcAssocFs parent false u) (levelledList u c)

/-- The trees of the children of an association. -/
def levelledList (parent : AssocUsage K) : List (Assoc K) → List (FsTree (WithTop K))
  | [] => []
  | a :: c => a.levelled parent :: levelledList parent c

end

end Assoc

/-- Rank all users below the root (`_apply_priority_fs`). -/
def applyPriorityFs (sort : List (FsTree (WithTop K)) → List (FsTree (WithTop K)))
    (root : AssocUsage K) (children : List (Assoc K)) : Option FsTree.Ranking :=
  FsTree.rankTree sort (noValFs K) (Assoc.levelledList root children)

end

end Slurm
