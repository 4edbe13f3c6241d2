import Mathlib.Data.List.Nodup
import Mathlib.Data.List.Range

/-!
# Trees numbered like a heap

The tree on the numbers below `n` in which the parent of a number `c > 0` is `(c - 1) / w`, so that
each number has up to `w` children, and those of `r` are the numbers from `r * w + 1` on. Parents
have smaller numbers. The tree is walked by `preorder`, each number before its children and these in
order: from the root, the walk meets each number below `n` once (`preorder_perm`).
-/

namespace HeapTree

open List

variable (w n : ℕ)

def parent (c : ℕ) : ℕ := (c - 1) / w

/-- How many of the numbers of the children of `r` are below `n`. -/
def numChildren (r : ℕ) : ℕ := min n (r * w + w + 1) - min n (r * w + 1)

def children (r : ℕ) : List ℕ := List.range' (r * w + 1) (numChildren w n r)

/-- The walk from `r` on, down to a depth. -/
def preorderAux : ℕ → ℕ → List ℕ
  | 0, _ => []
  | fuel + 1, r => r :: (children w n r).flatMap (preorderAux fuel)

/-- The numbers in the subtree of `r`. -/
def preorder (r : ℕ) : List ℕ := preorderAux w n (n - r) r

variable {w n} {r c m : ℕ}

theorem mem_children (hw : 0 < w) :
    c ∈ children w n r ↔ 0 < c ∧ c < n ∧ parent w c = r := by
  have hdiv : parent w c = r ↔ r * w ≤ c - 1 ∧ c - 1 < r * w + w := by
    rw [parent, Nat.div_eq_iff hw]
    omega
  rw [children, mem_range'_1, hdiv, numChildren]
  omega

theorem parent_lt (hc : 0 < c) : parent w c < c :=
  lt_of_le_of_lt (Nat.div_le_self _ _) (by omega)

theorem lt_of_mem_children (h : c ∈ children w n r) : r < c ∧ c < n := by
  rw [children, mem_range'_1, numChildren] at h
  rcases Nat.eq_zero_or_pos w with rfl | hw
  · omega
  · have hle : r ≤ r * w := Nat.le_mul_of_pos_right r hw
    omega

theorem nodup_children (r : ℕ) : (children w n r).Nodup := nodup_range'

/-- The walk does not depend on the depth it is allowed, if this is enough. -/
theorem preorderAux_eq {fuel fuel' : ℕ} (hr : r < n) (hfuel : n - r ≤ fuel)
    (hfuel' : n - r ≤ fuel') : preorderAux w n fuel r = preorderAux w n fuel' r := by
  induction fuel generalizing fuel' r with
  | zero => omega
  | succ fuel ih =>
    obtain ⟨fuel', rfl⟩ := Nat.exists_eq_succ_of_ne_zero (by omega : fuel' ≠ 0)
    rw [preorderAux, preorderAux]
    congr 1
    refine flatMap_congr fun c hc => ?_
    obtain ⟨hrc, hcn⟩ := lt_of_mem_children hc
    exact ih hcn (by omega) (by omega)

theorem preorder_eq (hr : r < n) :
    preorder w n r = r :: (children w n r).flatMap (preorder w n) := by
  obtain ⟨depth, hdepth⟩ := Nat.exists_eq_succ_of_ne_zero (by omega : n - r ≠ 0)
  rw [preorder, hdepth, preorderAux]
  congr 1
  refine flatMap_congr fun c hc => ?_
  obtain ⟨hrc, hcn⟩ := lt_of_mem_children hc
  exact preorderAux_eq hcn (by omega) le_rfl

variable (w) in
/-- Induction from the children up. -/
@[elab_as_elim]
theorem induction_up {motive : ∀ r, r < n → Prop} (step : ∀ r (hr : r < n),
      (∀ c (hc : c ∈ children w n r), motive c (lt_of_mem_children hc).2) → motive r hr)
    (r : ℕ) (hr : r < n) : motive r hr := by
  induction hd : n - r using Nat.strong_induction_on generalizing r with
  | _ d ih =>
    refine step r hr fun c hc => ?_
    obtain ⟨hrc, hcn⟩ := lt_of_mem_children hc
    exact ih (n - c) (by omega) c hcn rfl

theorem bounds_of_mem_preorder (hr : r < n) (h : m ∈ preorder w n r) : r ≤ m ∧ m < n := by
  induction r, hr using induction_up w with
  | step r hr ih =>
    rw [preorder_eq hr, mem_cons, mem_flatMap] at h
    rcases h with rfl | ⟨c, hc, hm⟩
    · exact ⟨le_rfl, hr⟩
    · have hlt := lt_of_mem_children hc
      have hbounds := ih c hc hm
      omega

theorem mem_preorder_self (hr : r < n) : r ∈ preorder w n r := by
  rw [preorder_eq hr]
  exact mem_cons_self

/-- What is in a subtree is there with its children. -/
theorem mem_preorder_child (hr : r < n) (hm : m ∈ preorder w n r)
    (hc : c ∈ children w n m) : c ∈ preorder w n r := by
  induction r, hr using induction_up w with
  | step r hr ih =>
    rw [preorder_eq hr, mem_cons, mem_flatMap] at hm ⊢
    rcases hm with rfl | ⟨d, hd, hm⟩
    · exact .inr ⟨c, hc, mem_preorder_self (lt_of_mem_children hc).2⟩
    · exact .inr ⟨d, hd, ih d hd hm⟩

/-- What is in a subtree, but for its root, is there with its parent. -/
theorem mem_preorder_parent (hw : 0 < w) (hr : r < n) (hm : m ∈ preorder w n r) :
    m = r ∨ parent w m ∈ preorder w n r := by
  induction r, hr using induction_up w with
  | step r hr ih =>
    rw [preorder_eq hr, mem_cons, mem_flatMap] at hm
    rcases hm with rfl | ⟨c, hc, hm⟩
    · exact .inl rfl
    · rw [preorder_eq hr, mem_cons, mem_flatMap]
      rcases ih c hc hm with rfl | hparent
      · exact .inr (.inl ((mem_children hw).1 hc).2.2)
      · exact .inr (.inr ⟨c, hc, hparent⟩)

/-- The subtrees of two children have nothing in common. -/
theorem disjoint_preorder {d : ℕ} (hw : 0 < w) (hc : c ∈ children w n r)
    (hd : d ∈ children w n r) (hne : c ≠ d) : (preorder w n c).Disjoint (preorder w n d) := by
  obtain ⟨hrc, hcn⟩ := lt_of_mem_children hc
  obtain ⟨hrd, hdn⟩ := lt_of_mem_children hd
  intro m
  induction m using Nat.strong_induction_on with
  | _ m ih =>
    intro hmc hmd
    have hcm := (bounds_of_mem_preorder hcn hmc).1
    rcases mem_preorder_parent hw hcn hmc with rfl | hpc
    · -- The root of one subtree is in the other only with its parent, which is above both.
      rcases mem_preorder_parent hw hdn hmd with heq | hpd
      · exact hne heq
      · rw [((mem_children hw).1 hc).2.2] at hpd
        have hle := (bounds_of_mem_preorder hdn hpd).1
        omega
    · rcases mem_preorder_parent hw hdn hmd with rfl | hpd
      · rw [((mem_children hw).1 hd).2.2] at hpc
        have hle := (bounds_of_mem_preorder hcn hpc).1
        omega
      · exact ih (parent w m) (parent_lt (by omega)) hpc hpd

theorem nodup_preorder (hw : 0 < w) (hr : r < n) : (preorder w n r).Nodup := by
  induction r, hr using induction_up w with
  | step r hr ih =>
    rw [preorder_eq hr, nodup_cons, mem_flatMap, nodup_flatMap]
    refine ⟨?_, ih, ?_⟩
    · rintro ⟨c, hc, hmem⟩
      obtain ⟨hrc, hcn⟩ := lt_of_mem_children hc
      have hle := (bounds_of_mem_preorder hcn hmem).1
      omega
    · refine (nodup_children r).imp_of_mem fun hc hd hne => ?_
      exact disjoint_preorder hw hc hd hne

/-- The walk from the root meets each number once. -/
theorem preorder_perm (hw : 0 < w) (hn : 0 < n) : (preorder w n 0).Perm (List.range n) := by
  rw [perm_ext_iff_of_nodup (nodup_preorder hw hn) nodup_range]
  intro m
  rw [mem_range]
  refine ⟨fun hm => (bounds_of_mem_preorder hn hm).2, fun hm => ?_⟩
  induction m using Nat.strong_induction_on with
  | _ m ih =>
    rcases Nat.eq_zero_or_pos m with rfl | hpos
    · exact mem_preorder_self hn
    · have hlt := parent_lt (w := w) hpos
      exact mem_preorder_child hn (ih (parent w m) hlt (by omega))
        ((mem_children hw).2 ⟨hpos, hm, rfl⟩)

end HeapTree
