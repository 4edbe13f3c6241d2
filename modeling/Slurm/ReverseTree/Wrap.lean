import Mathlib.Data.Nat.Prime.Basic
import Slurm.ReverseTree.Places

/-!
# Widths for which the reverse tree is one

When the size of the complete tree wraps around, what is computed is smaller, and with it the
distances of the children. Then the search finds one child more than a node can have, or a rank
with less than no descendants: it goes down along the first children, and only the sizes of
complete trees can be divided to the end (`exists_size_of_visits`). So the ranks do not find places
in a tree then (`describesTree_iff`).

For a width of 65535 it is already so with two nodes (`wide_tree`).
-/

namespace Slurm

open CString CompleteTree Option List Int

variable {w n fuel r first s i m k d : ℕ} {maxDepth a : ℤ}

/-! ## What is always so -/

theorem length_directChildren_le (n s : ℤ) (k : ℕ) (first : ℤ) :
    (directChildren n s k first).length ≤ k := by
  induction k generalizing first with
  | zero => rfl
  | succ k ih =>
    rw [directChildren]
    split_ifs
    · exact Nat.succ_le_succ (ih _)
    · exact Nat.zero_le _

/-- A node has no more children than the width. -/
theorem not_extra_child (h : DescribesTree fuel n w) (hr : r < n) (hs : 0 < s)
    (hfirst : 0 < first) (hlast : first + w * s < n) :
    ¬ ∀ i ≤ w, upward fuel n w (first + i * s) = r := by
  intro hup
  obtain ⟨t, -, hplace⟩ := h r hr
  have hlist := hplace.children
  rw [reverseTreeDirectChildren] at hlist
  obtain hnone | ⟨maxDepth, hdep⟩ := eq_none_or_eq_some (dep fuel n w)
  · simp [hnone] at hlist
  -- The list is not longer than the width, and has these ranks in it.
  have hlength : ((List.range n).filter fun r' => 0 < r' ∧ upward fuel n w r' = r).length ≤ w := by
    simp only [hdep, bind, Option.bind, pure] at hlist
    split_ifs at hlist
    · have hnil := congrArg List.length (some.inj hlist)
      rw [length_map] at hnil
      exact hnil ▸ Nat.zero_le w
    · have hlen := congrArg List.length (some.inj hlist)
      rw [length_map] at hlen
      rw [← hlen]
      exact length_directChildren_le _ _ _ _
  have hsub : (List.range (w + 1)).map (fun i => first + i * s) ⊆
      (List.range n).filter fun r' => 0 < r' ∧ upward fuel n w r' = r := by
    intro r' hr'
    obtain ⟨i, hi, rfl⟩ := mem_map.1 hr'
    have hle : i ≤ w := Nat.le_of_lt_succ (mem_range.1 hi)
    have hmul : i * s ≤ w * s := Nat.mul_le_mul_right _ hle
    simp only [mem_filter, mem_range, decide_eq_true_eq]
    exact ⟨by omega, by omega, hup i hle⟩
  have hnodup : ((List.range (w + 1)).map (fun i => first + i * s)).Nodup := by
    refine List.Nodup.map (fun a b hab => ?_) nodup_range
    exact Nat.eq_of_mul_eq_mul_right hs (Nat.add_left_cancel hab)
  have hle := (hnodup.subperm hsub).length_le
  rw [length_map, length_range] at hle
  omega

/-- What is found for a rank other than the root. -/
theorem reverseTreeInfo_search (hdep : dep fuel n w = some maxDepth)
    (h0 : 0 < r) (hr : r < n) {t : SearchResult}
    (hsearch : searchTree r w fuel 0 (geometricSeries w maxDepth) 0 = some t) :
    reverseTreeInfo fuel r n w = some ⟨t.parentId,
      if (n : ℤ) ≤ toInt (r + t.nextMaxChildren) then (n : ℤ) - r - 1 else t.nextMaxChildren,
      t.depth, maxDepth⟩ := by
  have hr0 : (r : ℤ) ≠ 0 := by omega
  rw [reverseTreeInfo, if_neg (by omega), hdep]
  simp only [bind, Option.bind, hr0, if_false, hsearch, pure]

theorem isSome_searchTree (h : DescribesTree fuel n w)
    (hdep : dep fuel n w = some maxDepth) (h0 : 0 < r) (hr : r < n) :
    (searchTree r w fuel 0 (geometricSeries w maxDepth) 0).isSome := by
  obtain ⟨t, ht, -⟩ := h r hr
  obtain hnone | ⟨f, hf⟩ := eq_none_or_eq_some
    (searchTree r w fuel 0 (geometricSeries w maxDepth) 0)
  · rw [reverseTreeInfo, if_neg (by omega), hdep] at ht
    simp [hnone] at ht
    omega
  · simp [hf]

/-! ## Down along the first children -/

/-- The search for a rank after `m` and before `b` comes to the node `m`, with `maxChildren`. -/
def Visits (fuel w : ℕ) (root : ℤ) (m b : ℕ) (maxChildren : ℤ) : Prop :=
  ∀ id : ℕ, m < id → id < b → ∃ fuel' depth,
    searchTree id w fuel 0 root 0 = searchTree id w fuel' m maxChildren depth

section Down

variable (h : DescribesTree fuel n w) {maxDepth : ℤ} (hdep : dep fuel n w = some maxDepth)
  {m b : ℕ} {maxChildren : ℤ}
  (hvisits : Visits fuel w (geometricSeries w maxDepth) m b maxChildren) (hb : b ≤ n)
include h hdep hvisits hb

/-- The search for a rank it comes to the node `m` for goes on from there. -/
theorem searchTree_visited {id : ℕ} (hid : m < id) (hid' : id < b) : ∃ fuel' depth,
    searchTree id w fuel 0 (geometricSeries w maxDepth) 0 =
      searchTree id w (fuel' + 1) m maxChildren depth := by
  obtain ⟨fuel', depth, heq⟩ := hvisits id hid hid'
  have hsome := isSome_searchTree h hdep (by omega) (show id < n by omega)
  rw [heq] at hsome
  cases fuel' with
  | zero => simp [searchTree] at hsome
  | succ fuel' => exact ⟨fuel', depth, heq⟩

/-- The rank after `m` is its first child, and has as many descendants as there is room for. -/
theorem one_le_tdiv (hm : m + 1 < b) (hmax : -2 ^ 30 ≤ maxChildren.tdiv w) (hn : n < 2 ^ 31) :
    1 ≤ maxChildren.tdiv w := by
  obtain ⟨fuel', depth, heq⟩ := searchTree_visited h hdep hvisits hb (Nat.lt_succ_self m) hm
  rw [searchTree, if_pos (by simp)] at heq
  have hinfo := reverseTreeInfo_search hdep (Nat.succ_pos m) (show m + 1 < n by omega) heq
  obtain ⟨t, ht, hplace⟩ := h (m + 1) (by omega)
  obtain rfl := some.inj (hinfo.symm.trans ht)
  have hcount := hplace.numChildren
  by_contra hneg
  simp only at hcount
  rw [if_neg] at hcount
  · omega
  · rw [toInt_eq (by push_cast; omega) (by push_cast; omega)]
    omega

/-- The ranks at the distances are children of `m`, so there are not more of them than `w`. -/
theorem le_mul_tdiv {q : ℕ} (hq : maxChildren.tdiv w = q) (hpos : 0 < q) (hmb : m + 1 < b)
    (hn : n < 2 ^ 31) : b ≤ m + 1 + w * q := by
  by_contra hlt
  refine not_extra_child h (show m < n by omega) hpos (Nat.succ_pos m)
    (show m + 1 + w * q < n by omega) fun i hi => ?_
  have hmul : i * q ≤ w * q := Nat.mul_le_mul_right _ hi
  obtain ⟨fuel', depth, heq⟩ := searchTree_visited h hdep hvisits hb
    (show m < m + 1 + i * q by omega) (by omega)
  have hfound : searchTree ((m + 1 + i * q : ℕ) : ℤ) w (fuel' + 1) m maxChildren depth =
      some ⟨m, (q : ℤ) - 1, depth + 1⟩ := by
    rw [searchTree, hq]
    rcases Nat.eq_zero_or_pos i with rfl | hi0
    · simp
    · have hne : ((m + 1 + i * q : ℕ) : ℤ) ≠ (m : ℤ) + 1 := by
        have hprod := Nat.mul_pos hi0 hpos
        omega
      have hscan := scanChildren_eq m (k := w) hpos
        (show i < 0 + w ∨ i = 0 + w ∧ 0 = 0 by omega) hi0.le (by omega)
        (show m + (1 + i * q + 0) < 2 ^ 31 by omega)
      rw [Nat.zero_mul, Nat.add_zero, Nat.add_zero, ← Nat.add_assoc, if_pos rfl] at hscan
      rw [if_neg hne, toNat_natCast, show (m : ℤ) + 1 = ((m + 1 : ℕ) : ℤ) by simp, hscan]
  rw [upward, reverseTreeInfo_search hdep (by omega) (by omega) (heq.trans hfound)]
  exact toNat_natCast m

/-- The search for what is below the first child comes to it. -/
theorem visits_first {q b' : ℕ} (hq : maxChildren.tdiv w = q) (hw : 0 < w) (hb' : b' ≤ b)
    (hbq : b' ≤ m + 1 + q) (hmax : m + 1 + q < 2 ^ 31) :
    Visits fuel w (geometricSeries w maxDepth) (m + 1) b' ((q : ℤ) - 1) := by
  intro id hid hid'
  obtain ⟨fuel', depth, heq⟩ := searchTree_visited h hdep hvisits hb (show m < id by omega)
    (show id < b by omega)
  refine ⟨fuel', depth + 1, heq.trans ?_⟩
  obtain ⟨j, rfl⟩ : ∃ j, id = m + (1 + 0 * q + j) := ⟨id - (m + 1), by omega⟩
  have hj : j ≠ 0 := by omega
  have hscan := scanChildren_eq m (s := q) (k := w) (show j < q by omega) (.inl (by omega))
    le_rfl (fun _ => hj) (show m + (1 + 0 * q + if j = 0 then 0 else q) < 2 ^ 31 by
      rw [if_neg hj]
      omega)
  rw [Nat.zero_mul, Nat.add_zero, if_neg hj] at hscan
  rw [Nat.zero_mul, searchTree, hq, if_neg (by omega), toNat_natCast,
    show (m : ℤ) + 1 = ((m + 1 : ℕ) : ℤ) by simp, hscan]

end Down

/-- If the search comes to a node for all that is below it, its size is that of a complete tree. -/
theorem exists_size_of_visits (h : DescribesTree fuel n w) (hw : 2 ≤ w)
    (hdep : dep fuel n w = some maxDepth) (hn : n < 2 ^ 31) (hs : 0 < s)
    (hvisits : Visits fuel w (geometricSeries w maxDepth) m (m + s) ((s : ℤ) - 1))
    (hb : m + s ≤ n) : ∃ j, s = size w j := by
  induction s using Nat.strong_induction_on generalizing m with
  | _ s ih =>
    obtain ⟨s, rfl⟩ : ∃ s', s = s' + 1 := ⟨s - 1, by omega⟩
    rcases Nat.eq_zero_or_pos s with rfl | hpos
    · exact ⟨0, rfl⟩
    have hq : ((s + 1 : ℕ) : ℤ) - 1 = s := by omega
    rw [hq] at hvisits
    have hdiv : (s : ℤ).tdiv w = ((s / w : ℕ) : ℤ) := (ofNat_tdiv s w).symm
    have hq1 : 1 ≤ s / w := by
      have hroom : (-2 ^ 30 : ℤ) ≤ (s : ℤ).tdiv w := by
        have hnonneg : (0 : ℤ) ≤ ((s / w : ℕ) : ℤ) := natCast_nonneg _
        omega
      have hone := one_le_tdiv h hdep hvisits hb (by omega) hroom hn
      omega
    have hle := le_mul_tdiv h hdep hvisits hb hdiv hq1 (by omega) hn
    -- The division leaves no rest, and the first child is smaller.
    have hmul : w * (s / w) = s := le_antisymm (Nat.mul_div_le s w) (by omega)
    have hlt : s / w < s := Nat.div_lt_self hpos hw
    have hfirst := visits_first h hdep hvisits hb hdiv (by omega)
      (show m + 1 + s / w ≤ m + (s + 1) by omega) le_rfl (by omega)
    obtain ⟨j, hj⟩ := ih (s / w) (by omega) hq1 hfirst (by omega)
    exact ⟨j + 1, by rw [size, ← hj, hmul, Nat.add_comm]⟩

/-! ## Sizes that wrap around -/

/-- `dep` returns the first depth at which the sum, wrapped around, is large enough. -/
theorem depLoop_some (hw : w < 2 ^ 31)
    (hdep : depLoop n w fuel (i + 1) (toInt ((size w i : ℤ) - 1)) = some maxDepth) :
    ∃ k : ℕ, maxDepth = k ∧ (n : ℤ) - 1 ≤ toInt ((size w k : ℤ) - 1) ∧
      ∀ j, i ≤ j → j < k → toInt ((size w j : ℤ) - 1) < (n : ℤ) - 1 := by
  induction fuel generalizing i with
  | zero => simp [depLoop] at hdep
  | succ fuel ih =>
    rw [depLoop] at hdep
    split_ifs at hdep with hlt
    · rw [toInt_size_succ hw] at hdep
      obtain ⟨k, rfl, hk, hbefore⟩ := ih (by exact_mod_cast hdep)
      refine ⟨k, rfl, hk, fun j hij hjk => ?_⟩
      rcases Nat.eq_or_lt_of_le hij with rfl | hij
      · exact hlt
      · exact hbefore j hij hjk
    · exact ⟨i, by simpa using hdep.symm, not_lt.1 hlt, fun j hij hjk => by omega⟩

theorem dep_some (hw : w < 2 ^ 31) (hdep : dep fuel n w = some maxDepth) :
    ∃ k : ℕ, maxDepth = k ∧ (n : ℤ) - 1 ≤ toInt ((size w k : ℤ) - 1) ∧
      ∀ j < k, toInt ((size w j : ℤ) - 1) < (n : ℤ) - 1 := by
  obtain ⟨k, hk, hsum, hbefore⟩ := depLoop_some (i := 0) hw (by simpa [dep, size, toInt] using hdep)
  exact ⟨k, hk, hsum, fun j hj => hbefore j (Nat.zero_le j) hj⟩

/-- `2 ^ 31 + 1` is divisible by 3, but not by 9. -/
theorem pow_ne_two_pow_add_one (w d : ℕ) : w ^ (d + 2) ≠ 2 ^ 31 + 1 := by
  intro heq
  have hthree : 3 ∣ w := by
    refine Nat.Prime.dvd_of_dvd_pow Nat.prime_three (n := d + 2) ?_
    rw [heq]
    decide
  have hnine : 3 ^ 2 ∣ w ^ (d + 2) := (pow_dvd_pow_of_dvd hthree 2).trans (pow_dvd_pow w (by omega))
  rw [heq] at hnine
  revert hnine
  decide

theorem tdiv_lt {b : ℤ} {c : ℕ} (hb : 0 < b) (hc : 0 < c) (h : a < b * c) : a.tdiv b < c := by
  rcases le_or_gt 0 a with ha | ha
  · rw [tdiv_eq_ediv_of_nonneg ha]
    exact Int.ediv_lt_of_lt_mul hb (by rwa [mul_comm])
  · have hle : 0 ≤ (-a).tdiv b := Int.tdiv_nonneg (by omega) hb.le
    rw [Int.neg_tdiv] at hle
    omega

/-- A size that wraps around is too small. -/
theorem geometricSeries_lt (hw : 2 ≤ w) (hw' : w < 2 ^ 31) (hlarge : 2 ^ 31 < w ^ (d + 2)) :
    geometricSeries w ((d + 1 : ℕ) : ℤ) < (w : ℤ) * size w d := by
  have hpow : intPow w (((d + 1 : ℕ) : ℤ) + 1) = toInt ((w ^ (d + 2) : ℕ) : ℤ) := by
    exact_mod_cast intPow_eq hw' (d + 2)
  rw [geometricSeries, if_neg (by omega), hpow, toInt_sub_toInt]
  obtain ⟨k, hk⟩ := toInt_eq_add (1 - ((w ^ (d + 2) : ℕ) : ℤ))
  obtain ⟨hlow, hhigh⟩ := toInt_bounds (1 - ((w ^ (d + 2) : ℕ) : ℤ))
  generalize toInt (1 - ((w ^ (d + 2) : ℕ) : ℤ)) = a at hk hlow hhigh ⊢
  have hsize : 0 < (w : ℤ) * size w d := by
    have hpos := Nat.mul_pos (show 0 < w by omega) (size_pos w d)
    exact_mod_cast hpos
  have hsum : (w : ℤ) * size w d * (w - 1) = ((w ^ (d + 2) : ℕ) : ℤ) - w := by
    obtain ⟨v, rfl⟩ : ∃ v, w = v + 1 := ⟨w - 1, by omega⟩
    rw [pow_succ, ← size_mul_pred_add_one]
    push_cast
    ring
  rcases le_or_gt 0 a with ha | ha
  · have hneg : a.tdiv (1 - w) ≤ 0 := Int.tdiv_nonpos_of_nonneg_of_nonpos ha (by omega)
    have hle : -a ≤ a.tdiv (1 - w) := by
      have hself := tdiv_le_self (w - 1 : ℤ) ha
      rw [show (1 : ℤ) - w = -(w - 1) by omega, Int.tdiv_neg]
      omega
    rw [toInt_eq (by omega) (by omega)]
    omega
  · -- The quotient is that of the absolute values.
    have hquot : a.tdiv (1 - w) = (-a) / (w - 1) := by
      rw [show (1 : ℤ) - w = -(w - 1) by omega, Int.tdiv_neg, ← Int.neg_tdiv,
        tdiv_eq_ediv_of_nonneg (by omega)]
    have hmul := Int.ediv_mul_le (-a) (show (w : ℤ) - 1 ≠ 0 by omega)
    have hnonneg : 0 ≤ (-a) / ((w : ℤ) - 1) := ediv_nonneg (by omega) (by omega)
    have hself : (-a) / ((w : ℤ) - 1) ≤ -a := ediv_le_self _ (by omega)
    rw [hquot]
    generalize (-a) / ((w : ℤ) - 1) = t at hmul hnonneg hself ⊢
    have hcut : toInt t ≤ t := by
      unfold toInt
      omega
    by_contra hge
    have hprod : (w : ℤ) * size w d * (w - 1) ≤ t * (w - 1) :=
      mul_le_mul_of_nonneg_right (by omega) (by omega)
    have hne := pow_ne_two_pow_add_one w d
    omega

/-- The distance of the children of the root is too small. -/
theorem tdiv_geometricSeries_lt (hw : 2 ≤ w) (hw' : w < 2 ^ 31) (hn : n < 2 ^ 31)
    (hd : n ≤ size w (d + 1)) (hlarge : 2 ^ 31 < w ^ (d + 2)) (hd' : size w d < n)
    (hdep : dep fuel n w = some maxDepth) :
    (geometricSeries w maxDepth).tdiv w < size w d := by
  obtain ⟨k, rfl, hsum, hbefore⟩ := dep_some hw' hdep
  refine tdiv_lt (by omega) (size_pos w d) ?_
  have hmono := size_strictMono (show 0 < w by omega)
  -- Before `d + 1` the sums are too small, without wrap around.
  have hdk : d < k := by
    by_contra hle
    have hsize : size w k ≤ size w d := hmono.monotone (by omega)
    rw [toInt_eq (by omega) (by omega)] at hsum
    omega
  rcases Nat.eq_or_lt_of_le hdk with rfl | hlt
  · exact geometricSeries_lt hw hw' hlarge
  · -- The sum for `d + 1` was large enough, but for the wrap around.
    have hwrap := hbefore (d + 1) hlt
    have hbig : 2 ^ 31 ≤ (size w (d + 1) : ℤ) - 1 := by
      by_contra hsmall
      rw [toInt_eq (by omega) (by omega)] at hwrap
      omega
    have hprod : (size w (d + 1) : ℤ) - 1 = (w : ℤ) * size w d := by
      rw [size]
      push_cast
      ring
    have hint : geometricSeries w k < 2 ^ 31 := by
      rw [geometricSeries, if_neg (by omega)]
      exact (toInt_bounds _).2
    omega

theorem neg_le_tdiv (hw : 2 ≤ w) (ha : -2 ^ 31 ≤ a) : -2 ^ 30 ≤ a.tdiv w := by
  rcases le_or_gt 0 a with hpos | hneg
  · have hle : 0 ≤ a.tdiv w := Int.tdiv_nonneg hpos (by omega)
    omega
  · have hquot : a.tdiv w = -((-a) / w) := by
      rw [← Int.tdiv_eq_ediv_of_nonneg (by omega), Int.neg_tdiv, neg_neg]
    have hmul := Int.ediv_mul_le (-a) (show (w : ℤ) ≠ 0 by omega)
    have hnonneg : 0 ≤ (-a) / (w : ℤ) := ediv_nonneg (by omega) (by omega)
    have htwo : (-a) / (w : ℤ) * 2 ≤ (-a) / (w : ℤ) * w :=
      mul_le_mul_of_nonneg_left (by omega) hnonneg
    omega

/-- If the size of no complete tree with as many nodes can be computed, some rank does not find a
    place. -/
theorem fits_of_describesTree (hw : 2 ≤ w) (hw' : w < 2 ^ 31) (hn : n < 2 ^ 31)
    (h : DescribesTree fuel n w) : Fits n w := by
  by_contra hfits
  have hlarge : ∀ d, n ≤ size w d → 2 ^ 31 < w ^ (d + 1) := fun d hd =>
    not_le.1 fun hle => hfits ⟨d, hd, hle⟩
  have hmono := size_strictMono (show 0 < w by omega)
  -- The least depth at which there are enough nodes is not 0.
  obtain ⟨d, hd, hd'⟩ : ∃ d, n ≤ size w (d + 1) ∧ size w d < n := by
    have hex : ∃ d, n ≤ size w d := ⟨n, hmono.le_apply⟩
    cases hfind : Nat.find hex with
    | zero =>
      have hroot := hlarge 0 (hfind ▸ Nat.find_spec hex)
      rw [Nat.zero_add, pow_one] at hroot
      omega
    | succ d => exact ⟨d, hfind ▸ Nat.find_spec hex, not_le.1 (Nat.find_min hex (by omega))⟩
  have hpos := size_pos w d
  obtain ⟨maxDepth, hdep⟩ : ∃ maxDepth, dep fuel n w = some maxDepth := by
    obtain ⟨t, ht, -⟩ := h 0 (by omega)
    obtain hnone | hsome := eq_none_or_eq_some (dep fuel n w)
    · rw [reverseTreeInfo, if_neg (by simp; omega), hnone] at ht
      simp at ht
    · exact hsome
  have hsmall := tdiv_geometricSeries_lt hw hw' hn hd (hlarge _ hd) hd' hdep
  have hvisits : Visits fuel w (geometricSeries w maxDepth) 0 n (geometricSeries w maxDepth) :=
    fun id _ _ => ⟨fuel, 0, rfl⟩
  have hint : -2 ^ 31 ≤ geometricSeries w maxDepth := by
    rw [geometricSeries, if_neg (by omega)]
    exact (toInt_bounds _).1
  have hone := one_le_tdiv h hdep hvisits le_rfl (by omega) (neg_le_tdiv hw hint) hn
  obtain ⟨q, hq⟩ := eq_ofNat_of_zero_le (show 0 ≤ (geometricSeries w maxDepth).tdiv w by omega)
  have hroom := le_mul_tdiv h hdep hvisits le_rfl hq (by omega) (by omega) hn
  have hfirst := visits_first h hdep hvisits le_rfl hq (by omega) (show 0 + 1 + q ≤ n by omega)
    le_rfl (by omega)
  obtain ⟨j, rfl⟩ := exists_size_of_visits h hw hdep hn (by omega) hfirst (by omega)
  -- The size of the first child is between those of two complete trees.
  cases d with
  | zero =>
    rw [size] at hsmall
    omega
  | succ d =>
    have hlow : size w d < size w j := by
      rw [show size w (d + 1) = 1 + w * size w d from rfl] at hd'
      exact Nat.lt_of_mul_lt_mul_left (a := w) (by omega)
    have hhigh : size w j < size w (d + 1) := by omega
    have hdj := hmono.lt_iff_lt.1 hlow
    have hjd := hmono.lt_iff_lt.1 hhigh
    omega

/-- The ranks find places in a tree just if the size of a complete tree with as many nodes can be
    computed. -/
theorem describesTree_iff (n w fuel : ℕ) (hn : n < 2 ^ 31) (hw : 2 ≤ w) (hw' : w ≤ 65535)
    (hfuel : 31 ≤ fuel) : DescribesTree fuel n w ↔ Fits n w :=
  ⟨fits_of_describesTree hw (by omega) hn,
    fun hfits => describesTree_of_fits hw (by omega) hfits hfuel⟩

/-- For a thousand nodes and a width of 50 it is a tree. -/
theorem describesTree_fifty : DescribesTree 31 1000 50 :=
  (describesTree_iff 1000 50 31 (by omega) (by omega) (by omega) le_rfl).2 ⟨2, by decide, by decide⟩

/-- For two nodes and the largest width, rank 1 has -1 descendants. -/
theorem wide_tree :
    reverseTreeInfo 31 1 2 65535 = some ⟨0, -1, 1, 1⟩ ∧ ¬ DescribesTree 31 2 65535 := by
  have hinfo : reverseTreeInfo 31 1 2 65535 = some ⟨0, -1, 1, 1⟩ := by decide
  refine ⟨hinfo, fun h => ?_⟩
  obtain ⟨t, ht, hplace⟩ := h 1 (by omega)
  obtain rfl := some.inj (hinfo.symm.trans ht)
  have hcount := hplace.numChildren
  simp only at hcount
  omega

end Slurm
