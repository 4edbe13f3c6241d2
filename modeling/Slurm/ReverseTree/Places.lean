import Mathlib.Data.Set.Card
import Mathlib.Order.Interval.Finset.Nat
import Slurm.ReverseTree

/-!
# The places in the reverse tree

The ranks are the first ones of a complete tree in preorder (`CompleteTree`). The search finds the
parent and the depth that a rank has in it (`searchTree_eq`), and the children are found at the
distances they have in it (`directChildren_eq`). So the two descriptions agree, and are those of a
tree (`describesTree_of_fits`).

For this the power of the width that the size of the complete tree is computed from has to be small
enough for an `int` (`Fits`). What happens otherwise is told in `Slurm.ReverseTree.Wrap`.
-/

namespace Slurm

open CString CompleteTree List Int Function

/-! ## Without wrap around -/

variable {w d e n fuel i k s : ℕ}

theorem intPowLoop_eq (num res : ℤ) (k : ℕ) :
    intPowLoop num k (toInt res) = toInt (res * num ^ k) := by
  induction k generalizing res with
  | zero => rw [intPowLoop, pow_zero, mul_one]
  | succ k ih => rw [intPowLoop, toInt_toInt_mul, ih, mul_assoc, ← pow_succ']

/-- A power is computed up to the wrap around. -/
theorem intPow_eq (hw : w < 2 ^ 31) (k : ℕ) : intPow w k = toInt (((w ^ k : ℕ) : ℤ)) := by
  cases k with
  | zero => simp [intPow, toInt]
  | succ k =>
    have hloop := intPowLoop_eq w w k
    rw [toInt_eq (by omega) (by omega), ← pow_succ'] at hloop
    rw [intPow, if_neg (by omega)]
    simpa using hloop

theorem size_lt_pow (hw : 2 ≤ w) (d : ℕ) : size w d < w ^ (d + 1) := by
  obtain ⟨v, rfl⟩ : ∃ v, w = v + 1 := ⟨w - 1, by omega⟩
  have hle : size (v + 1) d * 1 ≤ size (v + 1) d * v := Nat.mul_le_mul_left _ (by omega)
  have hpow := size_mul_pred_add_one v d
  omega

/-- The size of a complete tree is computed from a power, which may even be wrapped around by 1. -/
theorem geometricSeries_eq (hw : 2 ≤ w) (hw' : w < 2 ^ 31) (hmax : w ^ (d + 1) ≤ 2 ^ 31) :
    geometricSeries w d = size w d := by
  have hpow : intPow w ((d : ℤ) + 1) = toInt ((w ^ (d + 1) : ℕ) : ℤ) := by
    exact_mod_cast intPow_eq hw' (d + 1)
  have hsize := size_lt_pow hw d
  obtain ⟨v, rfl⟩ : ∃ v, w = v + 1 := ⟨w - 1, by omega⟩
  have hprod : (1 : ℤ) - (((v + 1) ^ (d + 1) : ℕ) : ℤ) =
      size (v + 1) d * (1 - ((v + 1 : ℕ) : ℤ)) := by
    rw [← size_mul_pred_add_one v d]
    push_cast
    ring
  have hinner : toInt (1 - toInt (((v + 1) ^ (d + 1) : ℕ) : ℤ)) =
      size (v + 1) d * (1 - ((v + 1 : ℕ) : ℤ)) := by
    rw [← hprod, toInt_sub_toInt]
    exact toInt_eq (by omega) (by omega)
  have hne : (1 : ℤ) - ((v + 1 : ℕ) : ℤ) ≠ 0 := by omega
  rw [geometricSeries, if_neg (by omega), hpow, hinner, mul_tdiv_cancel _ hne]
  exact toInt_eq (by omega) (by omega)

theorem size_succ_tdiv (hw : 2 ≤ w) (e : ℕ) : ((size w (e + 1) : ℕ) : ℤ).tdiv w = size w e := by
  have hdiv : size w (e + 1) / w = size w e := by
    rw [size, Nat.add_mul_div_left _ _ (by omega), Nat.div_eq_of_lt (by omega), Nat.zero_add]
  rw [← ofNat_tdiv, hdiv]

/-- The same for one less. -/
theorem size_succ_pred_tdiv (hw : 2 ≤ w) (e : ℕ) :
    (((size w (e + 1) : ℕ) : ℤ) - 1).tdiv w = size w e := by
  have hsize : ((size w (e + 1) : ℕ) : ℤ) - 1 = (size w e : ℤ) * w := by
    rw [size]
    push_cast
    ring
  rw [hsize, mul_tdiv_cancel _ (by omega)]

/-- The sum of `dep` is the number of nodes of the complete tree without its root, up to the wrap
    around. -/
theorem toInt_size_succ (hw : w < 2 ^ 31) (i : ℕ) :
    toInt (toInt ((size w i : ℤ) - 1) + intPow w ((i : ℤ) + 1)) =
      toInt ((size w (i + 1) : ℤ) - 1) := by
  have hpow : intPow w ((i : ℤ) + 1) = toInt ((w ^ (i + 1) : ℕ) : ℤ) := by
    exact_mod_cast intPow_eq hw (i + 1)
  rw [hpow, toInt_add_toInt, add_comm, toInt_add_toInt, size_succ]
  congr 1
  push_cast
  ring

/-- `dep` finds a depth at which the complete tree has as many nodes, if there is one before the
    sums wrap around. -/
theorem depLoop_eq (hw : 2 ≤ w) (hw' : w < 2 ^ 31) (hn : n ≤ size w d)
    (hmax : w ^ (d + 1) ≤ 2 ^ 31) (hi : i ≤ d) (hfuel : d < fuel + i) :
    ∃ k ≤ d, n ≤ size w k ∧
      depLoop n w fuel (i + 1) (toInt ((size w i : ℤ) - 1)) = some (k : ℤ) := by
  induction fuel generalizing i with
  | zero => omega
  | succ fuel ih =>
    have hsize := size_lt_pow hw i
    have hpow : w ^ (i + 1) ≤ w ^ (d + 1) := Nat.pow_le_pow_right (by omega) (by omega)
    have hx : toInt ((size w i : ℤ) - 1) = (size w i : ℤ) - 1 := toInt_eq (by omega) (by omega)
    rw [depLoop]
    split_ifs with hlt
    · have hid : i < d := by
        rcases Nat.lt_or_eq_of_le hi with h | rfl
        · exact h
        · omega
      rw [toInt_size_succ hw']
      exact_mod_cast ih hid (by omega)
    · exact ⟨i, hi, by omega, by simp⟩

theorem dep_eq (hw : 2 ≤ w) (hw' : w < 2 ^ 31) (hn : n ≤ size w d) (hmax : w ^ (d + 1) ≤ 2 ^ 31)
    (hfuel : d < fuel) : ∃ k ≤ d, n ≤ size w k ∧ dep fuel n w = some (k : ℤ) := by
  have hloop := depLoop_eq hw hw' hn hmax (Nat.zero_le d) (show d < fuel + 0 by omega)
  simpa [dep, size, toInt] using hloop

/-! ## The search -/

/-- The loop of the search: from the copy `m` on it finds the copy `i` of the smaller tree, or that
    the node is the root of it. -/
theorem scanChildren_eq (base : ℕ) {j m : ℕ} (hj : j < s) (hi : i < m + k ∨ i = m + k ∧ j = 0)
    (hm : m ≤ i) (hroot : m = i → j ≠ 0)
    (hmax : base + (1 + i * s + if j = 0 then 0 else s) < 2 ^ 31) :
    scanChildren ((base + (1 + i * s + j) : ℕ) : ℤ) ((s : ℤ) - 1) k ((base + 1 + m * s : ℕ) : ℤ) =
      if j = 0 then .child else .within ((base + 1 + i * s : ℕ) : ℤ) := by
  induction k generalizing m with
  | zero => omega
  | succ k ih =>
    have hsucc : (m + 1) * s = m * s + s := Nat.succ_mul m s
    have hnext : toInt (((base + 1 + m * s : ℕ) : ℤ) + ((s : ℤ) - 1) + 1) =
        ((base + 1 + (m + 1) * s : ℕ) : ℤ) := by
      rcases Nat.lt_or_eq_of_le hm with hlt | rfl
      · have hcopy : (m + 1) * s ≤ i * s := Nat.mul_le_mul_right _ hlt
        rw [toInt_eq (by omega) (by omega)]
        omega
      · rw [if_neg (hroot rfl)] at hmax
        rw [toInt_eq (by omega) (by omega)]
        omega
    rw [scanChildren, hnext]
    rcases Nat.lt_or_eq_of_le hm with hlt | rfl
    · have hcopy : (m + 1) * s ≤ i * s := Nat.mul_le_mul_right _ hlt
      by_cases hnow : i = m + 1 ∧ j = 0
      · obtain ⟨rfl, rfl⟩ := hnow
        rw [if_pos (by omega), if_pos rfl]
      · -- The node comes after this copy and the root of the next one.
        have hafter : base + 1 + (m + 1) * s < base + (1 + i * s + j) := by
          rcases Nat.lt_or_eq_of_le hlt with hlt' | heq
          · have hcopy' : (m + 1 + 1) * s ≤ i * s := Nat.mul_le_mul_right _ hlt'
            have hsucc' : (m + 1 + 1) * s = (m + 1) * s + s := Nat.succ_mul (m + 1) s
            omega
          · omega
        rw [if_neg (by omega), if_neg (by omega)]
        exact ih (by omega) hlt (by omega)
    · have hne := hroot rfl
      rw [if_neg (by omega), if_pos (by omega), if_neg hne]

/-- The search below a node, the root of a copy of the complete tree, finds what the complete tree
    says. -/
theorem searchTree_eq (hw : 2 ≤ w) (base : ℕ) (depth0 : ℤ) {r : ℕ} {maxChildren : ℤ}
    (hchildren : maxChildren.tdiv w = size w e) (h0 : 0 < r) (hr : r < size w (e + 1))
    (hmax : base + size w (e + 1) < 2 ^ 31) (hfuel : e < fuel) :
    searchTree ((base + r : ℕ) : ℤ) w fuel base maxChildren depth0 =
      some ⟨((base + parent w (e + 1) r : ℕ) : ℤ), (size w (e + 1 - depth w (e + 1) r) : ℤ) - 1,
        depth0 + depth w (e + 1) r⟩ := by
  induction fuel generalizing e base r maxChildren depth0 with
  | zero => omega
  | succ fuel ih =>
    obtain ⟨i, j, hi, hj, rfl⟩ := exists_copy h0 hr
    rw [searchTree, hchildren, parent_copy hj, depth_copy hj]
    have hrest : e + 1 - (1 + depth w e j) = e - depth w e j := by omega
    by_cases hfirst : i = 0 ∧ j = 0
    · obtain ⟨rfl, rfl⟩ := hfirst
      simp
    · have hend : 1 + i * size w e + size w e ≤ size w (e + 1) := by
        have hlast := copy_lt_size hi (Nat.sub_lt (size_pos w e) Nat.one_pos)
        omega
      have hscan := scanChildren_eq base (k := w) hj (by omega) (Nat.zero_le i)
        (by omega) (by split_ifs <;> omega)
      rw [Nat.zero_mul, Nat.add_zero] at hscan
      have hne : ((base + (1 + i * size w e + j) : ℕ) : ℤ) ≠ base + 1 := by
        intro heq
        rcases Nat.eq_zero_or_pos i with rfl | hpos
        · omega
        · have hmul := Nat.mul_pos hpos (size_pos w e)
          omega
      rw [if_neg hne, toNat_natCast, show (base : ℤ) + 1 = ((base + 1 : ℕ) : ℤ) by simp, hscan]
      by_cases hzero : j = 0
      · simp [hzero]
      · -- The node is within the copy, which is not a leaf then.
        obtain ⟨e, rfl⟩ : ∃ e', e = e' + 1 := by
          cases e with
          | zero =>
            rw [size] at hj
            omega
          | succ e => exact ⟨e, rfl⟩
        have hbelow := ih (base + 1 + i * size w (e + 1)) (depth0 + 1)
          (size_succ_pred_tdiv hw e) (Nat.pos_of_ne_zero hzero) hj (by omega) (by omega)
        rw [if_neg hzero, if_neg hzero, hrest]
        rw [show base + (1 + i * size w (e + 1) + j) = base + 1 + i * size w (e + 1) + j by omega]
        simp only [hbelow]
        congr 2
        · omega
        · omega

/-! ## The children -/

/-- The loop lists the places at equal distances that are there. -/
theorem directChildren_eq (first : ℕ) (hmax : first + k * s < 2 ^ 31) :
    directChildren n s k first =
      (((List.range k).map fun i => first + i * s).filter (· < n)).map (fun r : ℕ => (r : ℤ)) := by
  induction k generalizing first with
  | zero => rfl
  | succ k ih =>
    rw [Nat.succ_mul] at hmax
    have hshift : ((fun i => first + i * s) ∘ Nat.succ) = fun i => first + s + i * s := by
      funext i
      simp only [comp_apply, Nat.succ_mul]
      omega
    rw [directChildren, range_succ_eq_map, map_cons, map_map, Nat.zero_mul,
      Nat.add_zero, hshift, filter_cons]
    by_cases hlt : first < n
    · have hnext : toInt ((first : ℤ) + s) = ((first + s : ℕ) : ℤ) := by
        rw [toInt_eq (by omega) (by omega)]
        omega
      rw [if_pos (by omega), hnext, ih (first + s) (by omega)]
      simp [hlt]
    · -- The others are further away.
      have hnone : ((List.range k).map fun i => first + s + i * s).filter (· < n) = [] := by
        simp only [filter_eq_nil_iff, mem_map, decide_eq_true_eq]
        rintro _ ⟨i, -, rfl⟩
        omega
      rw [if_neg (by omega), hnone]
      simp [hlt]

/-! ## The tree -/

/-- The parent of a rank, as a rank. -/
def upward (fuel n w r : ℕ) : ℕ :=
  match reverseTreeInfo fuel r n w with
  | some t => t.parent.toNat
  | none => 0

/-- What is found for a rank is its place in a tree: its parent is before it, except for the root;
    the root is as many steps away as its depth; its descendants are as many as there are; and its
    children are those that have it as their parent, in order. -/
structure IsPlace (fuel n w r : ℕ) (t : TreeInfo) : Prop where
  parent : if r = 0 then t.parent = -1 else 0 ≤ t.parent ∧ t.parent < r
  depth : ∃ k : ℕ, t.depth = k ∧ (upward fuel n w)^[k] r = 0 ∧
    ∀ j < k, (upward fuel n w)^[j] r ≠ 0
  numChildren : t.numChildren =
    ({r' | r' < n ∧ r' ≠ r ∧ ∃ k, (upward fuel n w)^[k] r' = r} : Set ℕ).ncard
  children : reverseTreeDirectChildren fuel r n w t.depth =
    some (((List.range n).filter fun r' => 0 < r' ∧ upward fuel n w r' = r).map
      (fun r : ℕ => (r : ℤ)))

/-- Each rank finds its place in a tree. -/
def DescribesTree (fuel n w : ℕ) : Prop :=
  ∀ r < n, ∃ t, reverseTreeInfo fuel r n w = some t ∧ IsPlace fuel n w r t

/-- There is a complete tree with as many nodes, whose size can be computed. -/
def Fits (n w : ℕ) : Prop := ∃ d, n ≤ size w d ∧ w ^ (d + 1) ≤ 2 ^ 31

section Complete

variable {fuel : ℕ} (hw : 2 ≤ w) (hw' : w < 2 ^ 31) (hn : n ≤ size w d)
  (hmax : w ^ (d + 1) ≤ 2 ^ 31) (hfuel : d < fuel) (hdep : dep fuel n w = some (d : ℤ))
include hw hw' hn hmax hfuel hdep

section

variable {r : ℕ} (hr : r < n)

include hr

theorem reverseTreeInfo_eq :
    reverseTreeInfo fuel r n w = some ⟨if r = 0 then -1 else (parent w d r : ℤ),
        ((min (size w (d - depth w d r)) (n - r) : ℕ) : ℤ) - 1,
        depth w d r, d⟩ := by
  have hpow := size_lt_pow hw d
  rw [reverseTreeInfo, if_neg (by omega), hdep]
  rcases Nat.eq_zero_or_pos r with rfl | h0
  · simp [hn]
  · obtain ⟨e, rfl⟩ : ∃ e, d = e + 1 := by
      cases d with
      | zero =>
        rw [size] at hn
        omega
      | succ e => exact ⟨e, rfl⟩
    have hchildren : (geometricSeries w ((e + 1 : ℕ) : ℤ)).tdiv w = size w e := by
      rw [geometricSeries_eq hw hw' hmax, size_succ_tdiv hw]
    have hsearch := searchTree_eq hw 0 0 hchildren h0 (by omega : r < size w (e + 1)) (by omega)
      (by omega : e < fuel)
    simp only [zero_add, Nat.cast_zero] at hsearch
    have hwithin := add_size_le (by omega : r < size w (e + 1))
    have hc : (if (n : ℤ) ≤ toInt ((r : ℤ) +
          ((size w (e + 1 - depth w (e + 1) r) : ℤ) - 1)) then (n : ℤ) - r - 1
        else (size w (e + 1 - depth w (e + 1) r) : ℤ) - 1) =
        ((min (size w (e + 1 - depth w (e + 1) r)) (n - r) : ℕ) : ℤ) - 1 := by
      rw [toInt_eq (by omega) (by omega)]
      split_ifs <;> omega
    have hr0 : (r : ℤ) ≠ 0 := by omega
    simp only [bind, Option.bind, hsearch, pure, hr0, if_false, hc, h0.ne']

theorem upward_eq : upward fuel n w r = parent w d r := by
  rw [upward, reverseTreeInfo_eq hw hw' hn hmax hfuel hdep hr]
  rcases Nat.eq_zero_or_pos r with rfl | h0
  · simp
  · simp [h0.ne']

theorem iterate_upward_eq (k : ℕ) :
    (upward fuel n w)^[k] r = (parent w d)^[k] r := by
  induction k generalizing r with
  | zero => rfl
  | succ k ih =>
    rw [iterate_succ_apply, iterate_succ_apply, upward_eq hw hw' hn hmax hfuel hdep hr,
      ih (parent_lt_of_lt hn hr)]

/-- The descendants of a rank are an interval. -/
theorem ncard_descendants :
    ({r' | r' < n ∧ r' ≠ r ∧ ∃ k, (upward fuel n w)^[k] r' = r} : Set ℕ).ncard =
      min (size w (d - depth w d r)) (n - r) - 1 := by
  have hset : {r' | r' < n ∧ r' ≠ r ∧ ∃ k, (upward fuel n w)^[k] r' = r} =
      (Finset.Ioo r (r + min (size w (d - depth w d r)) (n - r)) : Set ℕ) := by
    ext r'
    simp only [Set.mem_ofPred_eq, Finset.coe_Ioo, Set.mem_Ioo]
    by_cases hr' : r' < n
    · simp only [iterate_upward_eq hw hw' hn hmax hfuel hdep hr']
      rw [and_iff_right hr', below_iff (hr'.trans_le hn) (hr.trans_le hn)]
      omega
    · omega
  rw [hset, Set.ncard_coe_finset, Nat.card_Ioo]
  omega

/-- The children that are listed are those whose parent the search finds. -/
theorem children_eq :
    reverseTreeDirectChildren fuel r n w (depth w d r) =
      some (((List.range n).filter fun r' => 0 < r' ∧ upward fuel n w r' = r).map
        (fun r : ℕ => (r : ℤ))) := by
  have hle := depth_le w d r
  have hmem : ∀ r', (r' ∈ (List.range n).filter fun r' => 0 < r' ∧ upward fuel n w r' = r) ↔
      r' < n ∧ depth w d r < d ∧ ∃ i < w, r' = r + 1 + i * size w (d - depth w d r - 1) := by
    intro r'
    simp only [mem_filter, mem_range, decide_eq_true_eq, and_congr_right_iff]
    intro hr'
    rw [upward_eq hw hw' hn hmax hfuel hdep hr']
    constructor
    · rintro ⟨h0, hpar⟩
      exact (parent_eq_iff h0 (hr'.trans_le hn) (hr.trans_le hn)).1 hpar
    · rintro ⟨hlt, i, hi, heq⟩
      have h0 : 0 < r' := by omega
      exact ⟨h0, (parent_eq_iff h0 (hr'.trans_le hn) (hr.trans_le hn)).2 ⟨hlt, i, hi, heq⟩⟩
  rw [reverseTreeDirectChildren, hdep]
  rcases Nat.eq_or_lt_of_le hle with hleaf | hinner
  · -- A node at the lowest level has no children.
    have hnil : ((List.range n).filter fun r' => 0 < r' ∧ upward fuel n w r' = r) = [] := by
      rw [eq_nil_iff_forall_not_mem]
      intro r' hr'
      exact absurd ((hmem r').1 hr').2.1 (by omega)
    rw [hnil]
    simp [hleaf]
  · obtain ⟨e, he⟩ : ∃ e, d - depth w d r = e + 1 := ⟨d - depth w d r - 1, by omega⟩
    have hsub : (d : ℤ) - depth w d r = ((e + 1 : ℕ) : ℤ) := by omega
    have hpow : w ^ (e + 1 + 1) ≤ w ^ (d + 1) := Nat.pow_le_pow_right (by omega) (by omega)
    have hdist : (geometricSeries w ((e + 1 : ℕ) : ℤ)).tdiv w = size w e := by
      rw [geometricSeries_eq hw hw' (hpow.trans hmax), size_succ_tdiv hw]
    have hsize := size_lt_pow hw d
    have hwithin := add_size_le (hr.trans_le hn)
    rw [he, size] at hwithin
    have hlist := directChildren_eq (n := n) (r + 1) (k := w) (s := size w e) (by omega)
    have hne : ((e + 1 : ℕ) : ℤ) ≠ 0 := by omega
    simp only [bind, Option.bind, hsub, hne, if_false, hdist, toNat_natCast, pure]
    rw [show (r : ℤ) + 1 = ((r + 1 : ℕ) : ℤ) by simp, hlist]
    refine congrArg some (congrArg (List.map _) ?_)
    -- Both lists are in order and have the same members.
    refine List.Pairwise.eq_of_mem_iff (r := (· < ·)) ?_ ?_ fun r' => ?_
    · refine List.Pairwise.filter _ (pairwise_map.2 (pairwise_lt_range.imp ?_))
      intro a b hab
      exact Nat.add_lt_add_left (Nat.mul_lt_mul_of_pos_right hab (size_pos w e)) _
    · exact pairwise_lt_range.filter _
    · rw [hmem, he, Nat.add_sub_cancel]
      simp only [mem_filter, mem_map, mem_range, decide_eq_true_eq]
      constructor
      · rintro ⟨⟨i, hi, rfl⟩, hlt⟩
        exact ⟨hlt, hinner, i, hi, rfl⟩
      · rintro ⟨hlt, -, i, hi, rfl⟩
        exact ⟨⟨i, hi, rfl⟩, hlt⟩

theorem isPlace_complete :
    ∃ t, reverseTreeInfo fuel r n w = some t ∧ IsPlace fuel n w r t := by
  refine ⟨_, reverseTreeInfo_eq hw hw' hn hmax hfuel hdep hr, ?_, ?_, ?_, ?_⟩
  · split_ifs with h0
    · rfl
    · have hlt := parent_lt (Nat.pos_of_ne_zero h0) (hr.trans_le hn)
      simp only
      omega
  · refine ⟨depth w d r, rfl, ?_, fun j hj => ?_⟩
    · rw [iterate_upward_eq hw hw' hn hmax hfuel hdep hr,
        iterate_parent_eq_zero_iff (hr.trans_le hn)]
    · rw [iterate_upward_eq hw hw' hn hmax hfuel hdep hr, Ne,
        iterate_parent_eq_zero_iff (hr.trans_le hn)]
      omega
  · rw [ncard_descendants hw hw' hn hmax hfuel hdep hr]
    have hpos := size_pos w (d - depth w d r)
    simp only
    omega
  · exact children_eq hw hw' hn hmax hfuel hdep hr

end

end Complete

/-- If the size of a complete tree with as many nodes can be computed, each rank finds its place. -/
theorem describesTree_of_fits (hw : 2 ≤ w) (hw' : w < 2 ^ 31) (hfits : Fits n w)
    (hfuel : 31 ≤ fuel) : DescribesTree fuel n w := by
  obtain ⟨d, hn, hmax⟩ := hfits
  have hd : d < 31 := by
    by_contra hge
    have hpow : 2 ^ 32 ≤ w ^ (d + 1) :=
      (Nat.pow_le_pow_right (by omega) (by omega)).trans (Nat.pow_le_pow_left hw _)
    omega
  obtain ⟨k, hk, hn', hdep⟩ := dep_eq hw hw' hn hmax (show d < fuel by omega)
  have hpow : w ^ (k + 1) ≤ w ^ (d + 1) := Nat.pow_le_pow_right (by omega) (by omega)
  exact fun r hr => isPlace_complete hw hw' hn' (hpow.trans hmax) (by omega) hdep hr

end Slurm
