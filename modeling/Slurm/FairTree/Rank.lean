import Mathlib.Algebra.Order.Field.Rat
import Mathlib.Data.List.Sort
import Slurm.FairTree

/-!
# Every user is ranked

Whatever is tied in a tree, the ranks do not run out before all users have one
(`FsTree.calcTreeFs_serves`). The factor of a user is then more than 0 and at most 1
(`FsTree.rankTree_range`), also with the numbers that are computed from shares and usage
(`applyPriorityFs_range`).

Accounts that are tied are never merged, since `_count_tied_accounts` looks for users where it
should look for accounts (`FsTree.countTiedAccounts_eq_zero`). So the ranks in tied accounts
depend on which account is listed first, but not that there are ranks for all.
-/

namespace Slurm

namespace FsTree

open List

variable {Λ : Type*} {L L' : List (FsTree Λ)}

theorem idsList_perm (h : L.Perm L') : (idsList L).Perm (idsList L') := by
  simp only [idsList_eq]
  exact h.flatMap_right _

variable [LinearOrder Λ]

variable {a b : FsTree Λ} {rest : List (FsTree Λ)} {i : ℕ} {noVal : Λ}
  {sort : List (FsTree Λ) → List (FsTree Λ)}

/-! ## Sorted siblings -/

theorem cmp_le_iff : cmpLevelFs a b ≤ 0 ↔
    b.levelFs < a.levelFs ∨ (a.levelFs = b.levelFs ∧ (a.isUser ∨ b.isUser = false)) := by
  unfold cmpLevelFs
  rcases lt_trichotomy a.levelFs b.levelFs with h | h | h
  · simp [h.ne, h, h.not_gt]
  · cases ha : a.isUser <;> cases hb : b.isUser <;> simp [h]
  · simp [h.ne', h, h.not_gt]

/-- Accounts are never merged: the siblings after an account that are tied with it are not
    users. -/
theorem countTiedAccounts_eq_zero (h : ∀ b ∈ rest, cmpLevelFs a b ≤ 0) (ha : a.isUser = false) :
    countTiedAccounts a rest = 0 := by
  unfold countTiedAccounts
  cases rest with
  | nil => rfl
  | cons b rest =>
    have hb : ¬(b.isUser ∧ a.levelFs = b.levelFs) := by
      rintro ⟨hbu, heq⟩
      rcases cmp_le_iff.1 (h b mem_cons_self) with hlt | ⟨-, hor⟩
      · exact hlt.ne' heq
      · rw [ha, hbu] at hor
        simp at hor
    simp [hb]

/-- Insertion sort, as an instance of what is known of `qsort`. -/
theorem sorts_insertionSort :
    Sorts (List.insertionSort fun a b : FsTree Λ => cmpLevelFs a b ≤ 0) where
  perm L := perm_insertionSort _ L
  sorted L := by
    have htotal : Std.Total fun a b : FsTree Λ => cmpLevelFs a b ≤ 0 := by
      refine ⟨fun a b => ?_⟩
      rw [cmp_le_iff, cmp_le_iff]
      rcases lt_trichotomy a.levelFs b.levelFs with h | h | h
      · exact .inr (.inl h)
      · cases ha : a.isUser <;> cases hb : b.isUser <;> simp [h]
      · exact .inl (.inl h)
    have htrans : IsTrans (FsTree Λ) fun a b => cmpLevelFs a b ≤ 0 := by
      refine ⟨fun a b c hab hbc => ?_⟩
      rw [cmp_le_iff] at hab hbc ⊢
      rcases hab with hab | ⟨hab, hu⟩ <;> rcases hbc with hbc | ⟨hbc, hv⟩
      · exact .inl (hbc.trans hab)
      · exact .inl (hbc ▸ hab)
      · exact .inl (hab ▸ hbc)
      · refine .inr ⟨hab.trans hbc, ?_⟩
        cases hb : b.isUser
        · exact hu.imp_right fun _ => by simpa [hb] using hv
        · exact hu.imp_right fun h => by simp [hb] at h
    exact pairwise_insertionSort _ L

/-! ## The walk -/

section

variable {prev : Λ} {start : Bool} {r₀ r r' : Ranking} {count : ℕ}

/-- There are ranks for `n` more users, of `count` ranks. -/
def Ranking.Room (r : Ranking) (count n : ℕ) : Prop :=
  n ≤ r.rnt ∧ r.rnt ≤ r.rank ∧ r.rank ≤ count

/-- If there are ranks for the users `I`, they have got one each, and nobody else has. -/
def Serves (I : List ℕ) (count : ℕ) (r r' : Ranking) : Prop :=
  ∀ n, r.Room count (I.length + n) → r'.Room count n ∧
    (∀ i ∈ I, ∃ k : ℕ, 0 < k ∧ k ≤ count ∧ r'.fsFactor i = some ((k : ℚ) / count)) ∧
    ∀ i ∉ I, r'.fsFactor i = r.fsFactor i

theorem Serves.append {I J : List ℕ} (h : Serves I count r₀ r) (h' : Serves J count r r') :
    Serves (I ++ J) count r₀ r' := by
  intro n hn
  rw [length_append, Nat.add_assoc] at hn
  obtain ⟨hroom, hI, hother⟩ := h _ hn
  obtain ⟨hroom', hJ, hother'⟩ := h' n hroom
  refine ⟨hroom', fun i hi => ?_, fun i hi => ?_⟩
  · by_cases hiJ : i ∈ J
    · exact hJ i hiJ
    · rw [hother' i hiJ]
      exact hI i ((mem_append.1 hi).resolve_right hiJ)
  · rw [mem_append, not_or] at hi
    rw [hother' i hi.2, hother i hi.1]

theorem Serves.give {k : ℕ} (hk : k = r.rank ∨ k = r.rnt) :
    Serves [i] count r (r.give count i k) := by
  rintro n ⟨hn, hle, hcount⟩
  rw [length_singleton] at hn
  have hroom : (r.give count i k).Room count n := by
    simp only [Ranking.Room, Ranking.give]
    omega
  refine ⟨hroom, fun u hu => ⟨k, by omega, hroom.2.2, ?_⟩, fun u hu => ?_⟩
  · rw [mem_singleton.1 hu]
    exact Function.update_self ..
  · exact Function.update_of_ne (fun h => hu (mem_singleton.2 h)) _ _

theorem siblingLoop_serves {below : List (FsTree Λ) → Ranking → Bool → Option Ranking}
    (hbelow : ∀ l C, .account l C ∈ L → ∀ r tied,
      ∃ r', below C r tied = some r' ∧ Serves (idsList C) count r r')
    (hsort : L.Pairwise fun a b => cmpLevelFs a b ≤ 0) :
    ∃ r', siblingLoop below count L 0 start prev r = some r' ∧ Serves (idsList L) count r r' := by
  induction L generalizing start prev r with
  | nil => exact ⟨r, rfl, fun n hn => ⟨by simpa [idsList] using hn, nofun, fun _ _ => rfl⟩⟩
  | cons a L ih =>
    rw [pairwise_cons] at hsort
    have hrest := fun l C hC => hbelow l C (mem_cons_of_mem a hC)
    cases a with
    | user i l =>
      obtain ⟨r', hloop, h⟩ := @ih l false _ hrest hsort.2
      exact ⟨r', hloop, (Serves.give (ite_eq_or_eq ..)).append h⟩
    | account l C =>
      obtain ⟨r₁, hr₁, h⟩ := hbelow l C mem_cons_self r (start || prev = l)
      obtain ⟨r', hloop, h'⟩ := @ih l false r₁ hrest hsort.2
      refine ⟨r', ?_, h.append h'⟩
      -- nothing is merged with the account
      have hzero := countTiedAccounts_eq_zero hsort.1 rfl
      simpa [siblingLoop, hzero, mergeAccounts, childrenList, hr₁] using hloop

end

theorem calcTreeFs_serves (hsort : Sorts sort) (noVal : Λ) (count : ℕ) {fuel : ℕ}
    (hd : depthList L < fuel) (r : Ranking) (tied : Bool) :
    ∃ r', calcTreeFs sort noVal count fuel L r tied = some r' ∧ Serves (idsList L) count r r' := by
  induction fuel generalizing L r tied with
  | zero => omega
  | succ fuel ih =>
    have hdC {l C} (hC : .account l C ∈ sort L) : depthList C < fuel := by
      have hle := depthList_le.1 (Nat.le_of_lt_succ hd) _ ((hsort.perm L).mem_iff.1 hC)
      rwa [depth] at hle
    obtain ⟨r', hr', h⟩ := siblingLoop_serves (fun l C hC => ih (hdC hC)) (hsort.sorted L)
    refine ⟨r', hr', fun n hn => ?_⟩
    have hids := idsList_perm (hsort.perm L)
    simpa only [hids.mem_iff] using h n (by rwa [hids.length_eq])

/-! ## The factors -/

/-- All users get a factor, which is more than 0 and at most 1, and nobody else gets one. -/
theorem rankTree_range (hsort : Sorts sort) (noVal : Λ) (L : List (FsTree Λ)) :
    ∃ r, rankTree sort noVal L = some r ∧
      (∀ i ∈ idsList L, ∃ q, r.fsFactor i = some q ∧ 0 < q ∧ q ≤ 1) ∧
      ∀ i ∉ idsList L, r.fsFactor i = none := by
  obtain ⟨r, hr, h⟩ := calcTreeFs_serves hsort noVal _ (Nat.lt_succ_self (depthList L))
    { rank := (idsList L).length, rnt := (idsList L).length } false
  obtain ⟨-, hrank, hother⟩ := h 0 ⟨le_rfl, le_rfl, le_rfl⟩
  refine ⟨r, hr, fun i hi => ?_, hother⟩
  obtain ⟨k, hpos, hle, hk⟩ := hrank i hi
  have hn : (0 : ℚ) < (idsList L).length := by exact_mod_cast hpos.trans_le hle
  exact ⟨_, hk, div_pos (by exact_mod_cast hpos) hn, (div_le_one hn).2 (by exact_mod_cast hle)⟩

/-- The factor that a user gets. -/
def factor (sort : List (FsTree Λ) → List (FsTree Λ)) (noVal : Λ) (L : List (FsTree Λ)) (i : ℕ) :
    Option ℚ := (rankTree sort noVal L).bind (·.fsFactor i)

/-- In every tree, whatever is tied, all users get a factor, which is more than 0 and at most 1,
    and nobody else gets one. -/
theorem factor_range (hsort : Sorts sort) :
    (i ∈ idsList L → ∃ q, factor sort noVal L i = some q ∧ 0 < q ∧ q ≤ 1) ∧
      (i ∉ idsList L → factor sort noVal L i = none) := by
  obtain ⟨r, hr, hrank, hother⟩ := rankTree_range hsort noVal L
  rw [factor, hr, Option.bind_some]
  exact ⟨hrank i, hother i⟩

/-- Two accounts have half of the shares and half of the usage each. -/
def tiedAccounts : List (FsTree (WithTop ℚ)) :=
  Assoc.levelledList { sharesNorm := (1 : ℚ), usageRaw := 2 } [
    .account { sharesNorm := 1 / 2, usageRaw := 1 } [
      .user 1 { sharesNorm := 3 / 4, usageRaw := 1 / 4 },
      .user 3 { sharesNorm := 1 / 4, usageRaw := 3 / 4 }],
    .account { sharesNorm := 1 / 2, usageRaw := 1 } [.user 2 { sharesNorm := 1, usageRaw := 1 }]]

theorem factor_range_tiedAccounts :
    ∃ q, factor (List.insertionSort fun a b => cmpLevelFs a b ≤ 0) (noValFs ℚ) tiedAccounts 3 =
      some q ∧ 0 < q ∧ q ≤ 1 :=
  (factor_range sorts_insertionSort).1 (by decide +kernel)

end FsTree

/-- With the numbers of `_calc_assoc_fs`, all users below the root get a factor. -/
theorem applyPriorityFs_range {K : Type*} [Field K] [LinearOrder K]
    {sort : List (FsTree (WithTop K)) → List (FsTree (WithTop K))} (hsort : FsTree.Sorts sort)
    (root : AssocUsage K) (children : List (Assoc K)) :
    ∃ r, applyPriorityFs sort root children = some r ∧
      (∀ i ∈ FsTree.idsList (Assoc.levelledList root children),
        ∃ q, r.fsFactor i = some q ∧ 0 < q ∧ q ≤ 1) ∧
      ∀ i ∉ FsTree.idsList (Assoc.levelledList root children), r.fsFactor i = none :=
  FsTree.rankTree_range hsort _ _

end Slurm
