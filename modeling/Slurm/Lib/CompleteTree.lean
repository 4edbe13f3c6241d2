import Mathlib.Tactic.Ring

/-!
# Complete trees in preorder

The nodes of the complete tree of width `w` and depth `d` are numbered in preorder: the root is 0,
and then come its `w` subtrees, one after the other, each a copy of the complete tree of depth
`d - 1`. A number other than 0 is thus `1 + i * size w (d - 1) + j`, for the node `j` of the copy
`i` (`exists_copy`), and parents and depths are found by going to the copy (`parent_copy`,
`depth_copy`).

A node comes after its parent (`parent_lt`) and is one level deeper (`depth_parent`), so that the
root is reached in as many steps as its depth (`iterate_parent_depth`). What is below a node is an
interval of numbers (`below_iff`), and its children are at equal distances in it
(`parent_eq_iff`).
-/

namespace CompleteTree

open Function Nat

/-- How many nodes the tree of width `w` and depth `d` has. -/
def size (w : ℕ) : ℕ → ℕ
  | 0 => 1
  | d + 1 => 1 + w * size w d

/-- The parent of a node. The root is its own. -/
def parent (w : ℕ) : ℕ → ℕ → ℕ
  | 0, _ => 0
  | d + 1, r =>
    if (r - 1) % size w d = 0 then 0
    else 1 + (r - 1) / size w d * size w d + parent w d ((r - 1) % size w d)

/-- The depth of a node. -/
def depth (w : ℕ) : ℕ → ℕ → ℕ
  | 0, _ => 0
  | d + 1, r => if r = 0 then 0 else 1 + depth w d ((r - 1) % size w d)

variable {w d r r' i i' j j' k : ℕ}

theorem size_pos (w d : ℕ) : 0 < size w d := by
  cases d with
  | zero => exact one_pos
  | succ d => exact Nat.lt_add_right _ Nat.one_pos

/-- A deeper tree has one more level. -/
theorem size_succ (w d : ℕ) : size w (d + 1) = size w d + w ^ (d + 1) := by
  induction d with
  | zero => simp [size]
  | succ d ih =>
    calc size w (d + 1 + 1) = 1 + w * (size w d + w ^ (d + 1)) := by rw [← ih]; rfl
      _ = 1 + w * size w d + w ^ (d + 1 + 1) := by ring

theorem size_strictMono (hw : 0 < w) : StrictMono (size w) :=
  strictMono_nat_of_lt_succ fun d => by
    rw [size_succ]
    exact Nat.lt_add_of_pos_right (Nat.pow_pos hw)

theorem size_mul_pred_add_one (w d : ℕ) : size (w + 1) d * w + 1 = (w + 1) ^ (d + 1) := by
  induction d with
  | zero => simp [size]
  | succ d ih =>
    rw [size_succ, add_mul, pow_succ _ (d + 1), ← ih]
    ring

@[simp] theorem parent_zero (w d : ℕ) : parent w d 0 = 0 := by cases d <;> simp [parent]

@[simp] theorem depth_zero (w d : ℕ) : depth w d 0 = 0 := by cases d <;> simp [depth]

/-! ## Copies -/

theorem exists_copy (h0 : 0 < r) (hr : r < size w (d + 1)) :
    ∃ i j, i < w ∧ j < size w d ∧ r = 1 + i * size w d + j := by
  have hr' : r - 1 < size w d * w := by
    rw [size, mul_comm] at hr
    omega
  refine ⟨(r - 1) / size w d, (r - 1) % size w d, Nat.div_lt_of_lt_mul hr',
    mod_lt _ (size_pos w d), ?_⟩
  have hdiv := div_add_mod' (r - 1) (size w d)
  omega

theorem copy_div (hj : j < size w d) : (1 + i * size w d + j - 1) / size w d = i := by
  rw [show 1 + i * size w d + j - 1 = j + i * size w d by omega,
    add_mul_div_right _ _ (size_pos w d), div_eq_of_lt hj, zero_add]

theorem copy_mod (hj : j < size w d) : (1 + i * size w d + j - 1) % size w d = j := by
  rw [show 1 + i * size w d + j - 1 = j + i * size w d by omega, add_mul_mod_self_right,
    mod_eq_of_lt hj]

theorem copy_inj (hj : j < size w d) (hj' : j' < size w d)
    (h : 1 + i * size w d + j = 1 + i' * size w d + j') : i = i' ∧ j = j' := by
  have hi : i = i' := by
    have hdiv := congrArg (fun r => (r - 1) / size w d) h
    rwa [copy_div hj, copy_div hj'] at hdiv
  subst hi
  exact ⟨rfl, by omega⟩

theorem copy_lt_size (hi : i < w) (hj : j < size w d) :
    1 + i * size w d + j < size w (d + 1) := by
  -- a copy comes before the next one
  have hstep : (i + 1) * size w d ≤ w * size w d := mul_le_mul_right _ hi
  rw [add_mul, one_mul] at hstep
  rw [size]
  omega

theorem parent_copy (hj : j < size w d) :
    parent w (d + 1) (1 + i * size w d + j) =
      if j = 0 then 0 else 1 + i * size w d + parent w d j := by
  rw [parent, copy_mod hj, copy_div hj]

theorem depth_copy (hj : j < size w d) :
    depth w (d + 1) (1 + i * size w d + j) = 1 + depth w d j := by
  rw [depth, if_neg (by omega), copy_mod hj]

/-! ## Parents and depths -/

theorem depth_le (w d r : ℕ) : depth w d r ≤ d := by
  induction d generalizing r with
  | zero => exact le_refl 0
  | succ d ih =>
    rw [depth]
    have hle := ih ((r - 1) % size w d)
    split <;> omega

theorem parent_lt (h0 : 0 < r) (hr : r < size w d) : parent w d r < r := by
  induction d generalizing r with
  | zero => exact h0
  | succ d ih =>
    obtain ⟨i, j, -, hj, rfl⟩ := exists_copy h0 hr
    rw [parent_copy hj]
    split_ifs with hzero
    · exact h0
    · exact Nat.add_lt_add_left (ih (Nat.pos_of_ne_zero hzero) hj) _

/-- The first numbers are closed under parents. -/
theorem parent_lt_of_lt {n : ℕ} (hn : n ≤ size w d) (hr : r < n) : parent w d r < n := by
  rcases Nat.eq_zero_or_pos r with rfl | h0
  · rwa [parent_zero]
  · exact (parent_lt h0 (hr.trans_le hn)).trans hr

theorem parent_lt_size (hr : r < size w d) : parent w d r < size w d := parent_lt_of_lt le_rfl hr

theorem depth_parent (h0 : 0 < r) (hr : r < size w d) :
    depth w d (parent w d r) + 1 = depth w d r := by
  induction d generalizing r with
  | zero =>
    rw [size] at hr
    omega
  | succ d ih =>
    obtain ⟨i, j, -, hj, rfl⟩ := exists_copy h0 hr
    rw [parent_copy hj, depth_copy hj]
    split_ifs with hzero
    · simp [hzero]
    · rw [depth_copy (parent_lt_size hj), ← ih (pos_of_ne_zero hzero) hj]
      omega

theorem depth_pos (h0 : 0 < r) (hr : r < size w d) : 0 < depth w d r := by
  rw [← depth_parent h0 hr]
  exact succ_pos _

/-- The subtree of a node is within the tree. -/
theorem add_size_le (hr : r < size w d) : r + size w (d - depth w d r) ≤ size w d := by
  induction d generalizing r with
  | zero =>
    rw [size] at hr ⊢
    simp only [depth, Nat.sub_zero, size]
    omega
  | succ d ih =>
    rcases Nat.eq_zero_or_pos r with rfl | h0
    · simp
    · obtain ⟨i, j, hi, hj, rfl⟩ := exists_copy h0 hr
      rw [depth_copy hj, show d + 1 - (1 + depth w d j) = d - depth w d j by omega]
      -- The copy ends before the tree does.
      have hcopy : 1 + i * size w d + (size w d - 1) < size w (d + 1) :=
        copy_lt_size hi (Nat.sub_lt (size_pos w d) Nat.one_pos)
      have hle := ih hj
      omega

/-- A node is in the subtree of another one just if its parent is, that one included. -/
theorem between_parent (h0 : 0 < r') (hr' : r' < size w d) (hr : r < size w d) :
    (r < r' ∧ r' < r + size w (d - depth w d r)) ↔
      (r ≤ parent w d r' ∧ parent w d r' < r + size w (d - depth w d r)) := by
  induction d generalizing r r' with
  | zero =>
    rw [size] at hr'
    omega
  | succ d ih =>
    rcases Nat.eq_zero_or_pos r with rfl | hpos
    · have hp := parent_lt_size hr'
      simp only [depth_zero, Nat.sub_zero, Nat.zero_add]
      omega
    obtain ⟨i, a, hi, ha, rfl⟩ := exists_copy hpos hr
    obtain ⟨i', j, hi', hj, rfl⟩ := exists_copy h0 hr'
    have hfits := add_size_le ha
    rw [depth_copy ha, show d + 1 - (1 + depth w d a) = d - depth w d a by omega, parent_copy hj]
    have hp := parent_lt_size hj
    rcases Nat.lt_trichotomy i i' with hlt | rfl | hgt
    · -- The copy of `r'` comes after that of `r`, with its subtree.
      have hstep : (i + 1) * size w d ≤ i' * size w d := Nat.mul_le_mul_right _ hlt
      rw [Nat.add_mul, Nat.one_mul] at hstep
      split_ifs <;> omega
    · -- In the same copy.
      rcases Nat.eq_zero_or_pos j with rfl | hjpos
      · simp only [if_true]
        omega
      · have hcopy := ih hjpos hj ha
        rw [if_neg hjpos.ne']
        omega
    · have hstep : (i' + 1) * size w d ≤ i * size w d := Nat.mul_le_mul_right _ hgt
      rw [Nat.add_mul, Nat.one_mul] at hstep
      split_ifs <;> omega

/-- The children of a node: those of a leaf are none, and those of another one are at the distance
    of the size of their subtrees. -/
theorem parent_eq_iff (h0 : 0 < r') (hr' : r' < size w d) (hr : r < size w d) :
    parent w d r' = r ↔
      depth w d r < d ∧ ∃ i < w, r' = r + 1 + i * size w (d - depth w d r - 1) := by
  induction d generalizing r r' with
  | zero =>
    rw [size] at hr'
    omega
  | succ d ih =>
    obtain ⟨i', j, hi', hj, rfl⟩ := exists_copy h0 hr'
    rw [parent_copy hj]
    rcases Nat.eq_zero_or_pos r with rfl | hpos
    · simp only [depth_zero, Nat.succ_pos, Nat.sub_zero, Nat.add_sub_cancel, Nat.zero_add, true_and]
      constructor
      · intro h
        split_ifs at h with hzero
        · exact ⟨i', hi', by omega⟩
        · omega
      · rintro ⟨i, -, heq⟩
        rw [if_pos (copy_inj hj (size_pos w d) heq).2]
    · obtain ⟨i, a, hi, ha, rfl⟩ := exists_copy hpos hr
      have hfits := add_size_le ha
      rw [depth_copy ha, show d + 1 - (1 + depth w d a) - 1 = d - depth w d a - 1 by omega]
      constructor
      · intro h
        split_ifs at h with hzero
        · omega
        · obtain ⟨rfl, hpar⟩ := copy_inj (parent_lt_size hj) ha h
          obtain ⟨hlt, l, hl, hj'⟩ := (ih (Nat.pos_of_ne_zero hzero) hj ha).1 hpar
          exact ⟨by omega, l, hl, by omega⟩
      · rintro ⟨hlt, l, hl, heq⟩
        -- The child is in the copy of its parent, as the whole subtree is.
        obtain ⟨e, he⟩ : ∃ e, d - depth w d a = e + 1 := ⟨d - depth w d a - 1, by omega⟩
        have hin : a + 1 + l * size w e < size w d := by
          have hlast := copy_lt_size hl (size_pos w e)
          rw [he] at hfits
          omega
        rw [he, Nat.add_sub_cancel] at heq
        obtain ⟨rfl, rfl⟩ := copy_inj hj hin
          (heq.trans (show _ = 1 + i * size w d + (a + 1 + l * size w e) by omega))
        rw [if_neg (by omega)]
        have hpar := (ih (by omega) hj ha).2 ⟨by omega, l, hl, by rw [he, Nat.add_sub_cancel]⟩
        omega

/-! ## Ancestors -/

theorem iterate_parent_lt_size (hr : r < size w d) (k : ℕ) : (parent w d)^[k] r < size w d := by
  induction k with
  | zero => exact hr
  | succ k ih =>
    rw [iterate_succ_apply']
    exact parent_lt_size ih

theorem depth_iterate_parent (hr : r < size w d) (hk : k ≤ depth w d r) :
    depth w d ((parent w d)^[k] r) + k = depth w d r := by
  induction k with
  | zero => rfl
  | succ k ih =>
    have hprev := ih (by omega)
    rw [iterate_succ_apply']
    have hpos : 0 < (parent w d)^[k] r := by
      rcases Nat.eq_zero_or_pos ((parent w d)^[k] r) with hz | hz
      · rw [hz, depth_zero] at hprev
        omega
      · exact hz
    have hstep := depth_parent hpos (iterate_parent_lt_size hr k)
    omega

/-- The root is reached in as many steps as the depth, and not before. -/
theorem iterate_parent_eq_zero_iff (hr : r < size w d) :
    (parent w d)^[k] r = 0 ↔ depth w d r ≤ k := by
  constructor
  · intro h
    by_contra hlt
    have hdepth := depth_iterate_parent hr (Nat.le_of_not_le hlt)
    rw [h, depth_zero] at hdepth
    omega
  · intro h
    -- At its depth the node is at depth 0, and stays there.
    have hroot : (parent w d)^[depth w d r] r = 0 := by
      by_contra hne
      have hpos := depth_pos (pos_of_ne_zero hne) (iterate_parent_lt_size hr _)
      have hdepth := depth_iterate_parent hr (le_refl _)
      omega
    obtain ⟨m, rfl⟩ := Nat.exists_eq_add_of_le' h
    rw [iterate_add_apply, hroot]
    exact iterate_fixed (parent_zero w d) m

/-- The nodes below another one are those of the interval of its subtree. -/
theorem below_iff (hr' : r' < size w d) (hr : r < size w d) :
    (r' ≠ r ∧ ∃ k, (parent w d)^[k] r' = r) ↔ r < r' ∧ r' < r + size w (d - depth w d r) := by
  induction r' using Nat.strong_induction_on with
  | _ r' ih =>
    rcases Nat.eq_zero_or_pos r' with rfl | h0
    · have hfix : ∀ k, (parent w d)^[k] 0 = 0 := iterate_fixed (parent_zero w d)
      simp only [hfix, not_lt_zero, false_and, iff_false]
      exact fun ⟨hne, _, hk⟩ => hne hk
    have hlt := parent_lt h0 hr'
    rw [between_parent h0 hr' hr]
    have hpar := ih _ hlt (parent_lt_size hr')
    constructor
    · rintro ⟨hne, k, heq⟩
      cases k with
      | zero => exact absurd heq hne
      | succ k =>
        by_cases hself : parent w d r' = r
        · have hpos := size_pos w (d - depth w d r)
          omega
        · have hbelow := hpar.1 ⟨hself, k, heq⟩
          omega
    · intro h
      rcases eq_or_lt_of_le h.1 with heq | hlt'
      · exact ⟨by omega, 1, heq.symm⟩
      · obtain ⟨-, k, hiter⟩ := hpar.2 ⟨hlt', h.2⟩
        exact ⟨by omega, k + 1, by rwa [iterate_succ_apply]⟩

end CompleteTree
