import Mathlib.Data.Set.Card

/-!
# Trees given by parents

The nodes of a tree are the numbers below `n`, with the root at `0`, and each node but the root has
a parent with a smaller number (`IsTree`). A node is `Below` another if this is found by going from
parent to parent. What is below a node is below one of its children (`IsTree.exists_child`), and
below no other (`IsTree.child_unique`), so the numbers of descendants add up
(`IsTree.ncard_descendants`). What holds of a node if it holds of its children holds of all
(`IsTree.induction_up`).
-/

namespace Rooted

open Finset Function

variable (parent : ℕ → ℕ) (n : ℕ)

/-- Each node but the root has a parent before it. -/
structure IsTree : Prop where
  root : parent 0 = 0
  parent_lt : ∀ c, 0 < c → c < n → parent c < c

/-- A node, or one of its descendants. -/
def Below (c r : ℕ) : Prop := ∃ k, parent^[k] c = r

def children (r : ℕ) : List ℕ := (List.range n).filter fun c => 0 < c ∧ parent c = r

def descendants (r : ℕ) : Set ℕ := {c | c < n ∧ c ≠ r ∧ Below parent c r}

variable {parent n} {c d r : ℕ}

theorem mem_children : c ∈ children parent n r ↔ 0 < c ∧ c < n ∧ parent c = r := by
  rw [children, List.mem_filter, List.mem_range, decide_eq_true_eq]
  tauto

theorem nodup_children : (children parent n r).Nodup := List.nodup_range.filter _

theorem below_refl (c : ℕ) : Below parent c c := ⟨0, rfl⟩

theorem below_parent (c : ℕ) : Below parent c (parent c) := ⟨1, rfl⟩

theorem Below.trans (h : Below parent c d) (h' : Below parent d r) : Below parent c r := by
  obtain ⟨k, rfl⟩ := h
  obtain ⟨j, rfl⟩ := h'
  exact ⟨j + k, iterate_add_apply ..⟩

theorem Below.cases (h : Below parent c r) : c = r ∨ Below parent (parent c) r := by
  obtain ⟨_ | k, hk⟩ := h
  · exact .inl hk
  · exact .inr ⟨k, hk⟩

/-- Of two nodes on the way to the root, one is below the other. -/
theorem Below.total (h : Below parent c d) (h' : Below parent c r) :
    Below parent d r ∨ Below parent r d := by
  obtain ⟨k, rfl⟩ := h
  obtain ⟨j, rfl⟩ := h'
  rcases Nat.le_total k j with hle | hle
  · exact .inl ⟨j - k, by rw [← iterate_add_apply, Nat.sub_add_cancel hle]⟩
  · exact .inr ⟨k - j, by rw [← iterate_add_apply, Nat.sub_add_cancel hle]⟩

namespace IsTree

variable (h : IsTree parent n)
include h

theorem lt_of_mem_children (hc : c ∈ children parent n r) : r < c := by
  obtain ⟨hpos, hlt, rfl⟩ := mem_children.1 hc
  exact h.parent_lt c hpos hlt

theorem parent_le (hc : c < n) : parent c ≤ c := by
  rcases Nat.eq_zero_or_pos c with rfl | hpos
  · exact h.root.le
  · exact (h.parent_lt c hpos hc).le

theorem le_of_below (hc : c < n) (hbelow : Below parent c r) : r ≤ c := by
  obtain ⟨k, rfl⟩ := hbelow
  induction k generalizing c with
  | zero => exact le_rfl
  | succ k ih =>
    have hle := h.parent_le hc
    exact (ih (hle.trans_lt hc)).trans hle

theorem below_root (hc : c < n) : Below parent c 0 := by
  induction c using Nat.strong_induction_on with
  | _ c ih =>
    rcases Nat.eq_zero_or_pos c with rfl | hpos
    · exact below_refl 0
    · have hlt := h.parent_lt c hpos hc
      exact (below_parent c).trans (ih _ hlt (hlt.trans hc))

/-- What is below a node and not the node is below a child. -/
theorem exists_child (hc : c < n) (hne : c ≠ r) (hbelow : Below parent c r) :
    ∃ d ∈ children parent n r, Below parent c d := by
  induction c using Nat.strong_induction_on with
  | _ c ih =>
    rcases Nat.eq_zero_or_pos c with rfl | hpos
    · exact absurd (Nat.le_zero.1 (h.le_of_below hc hbelow)).symm hne
    have hlt := h.parent_lt c hpos hc
    by_cases hparent : parent c = r
    · exact ⟨c, mem_children.2 ⟨hpos, hc, hparent⟩, below_refl c⟩
    · obtain ⟨d, hd, hcd⟩ := ih _ hlt (hlt.trans hc) hparent (hbelow.cases.resolve_left hne)
      exact ⟨d, hd, (below_parent c).trans hcd⟩

/-- The children of a node are not below each other. -/
theorem child_unique {e : ℕ} (hd : d ∈ children parent n r) (he : e ∈ children parent n r)
    (hcd : Below parent c d) (hce : Below parent c e) : d = e := by
  -- A child that is below another one has their parent below it too.
  have hside : ∀ {d e : ℕ}, d ∈ children parent n r → e ∈ children parent n r →
      Below parent d e → d = e := by
    intro d e hd he hbelow
    have hdn := (mem_children.1 hd).2.1
    rcases hbelow.cases with heq | hr
    · exact heq
    · rw [(mem_children.1 hd).2.2] at hr
      have hre := h.lt_of_mem_children he
      exact absurd (h.le_of_below ((h.lt_of_mem_children hd).trans hdn) hr) (Nat.not_le.2 hre)
  rcases hcd.total hce with hde | hed
  · exact hside hd he hde
  · exact (hside he hd hed).symm

/-- The descendants of a node are its children and their descendants. -/
theorem ncard_descendants : (descendants parent n r).ncard =
    ((children parent n r).map fun c => (descendants parent n c).ncard + 1).sum := by
  classical
  let part (d : ℕ) : Finset ℕ := (Finset.range n).filter fun c => Below parent c d
  have hpart : ∀ d ∈ children parent n r, (part d).card = (descendants parent n d).ncard + 1 := by
    intro d hd
    have hset : descendants parent n d = ((part d).erase d : Finset ℕ) := by
      ext c
      simp only [descendants, Set.mem_ofPred_eq, coe_erase, Set.mem_sdiff, mem_coe,
        Set.mem_singleton_iff, part, mem_filter, mem_range]
      tauto
    have hself : d ∈ part d := mem_filter.2 ⟨mem_range.2 (mem_children.1 hd).2.1, below_refl d⟩
    rw [hset, Set.ncard_coe_finset, card_erase_add_one hself]
  have hunion : descendants parent n r = ((children parent n r).toFinset.biUnion part : Finset ℕ) := by
    ext c
    simp only [descendants, Set.mem_ofPred_eq, coe_biUnion, List.coe_toFinset, Set.mem_iUnion,
      mem_coe, part, mem_filter, mem_range, exists_prop]
    constructor
    · rintro ⟨hc, hne, hbelow⟩
      obtain ⟨d, hd, hcd⟩ := h.exists_child hc hne hbelow
      exact ⟨d, hd, hc, hcd⟩
    · rintro ⟨d, hd, hc, hcd⟩
      have hrd := h.lt_of_mem_children hd
      have hdc := h.le_of_below hc hcd
      refine ⟨hc, by omega, hcd.trans ?_⟩
      rw [← (mem_children.1 hd).2.2]
      exact below_parent d
  rw [hunion, Set.ncard_coe_finset, card_biUnion, ← List.sum_toFinset _ nodup_children]
  · refine sum_congr rfl fun d hd => hpart d (List.mem_toFinset.1 hd)
  · intro d hd e he hne
    refine disjoint_left.2 fun c hcd hce => hne ?_
    exact h.child_unique (List.mem_toFinset.1 hd) (List.mem_toFinset.1 he)
      (mem_filter.1 hcd).2 (mem_filter.1 hce).2

omit h in
/-- Induction from the children up. -/
@[elab_as_elim]
theorem induction_up {motive : ∀ r, r < n → Prop} (h : IsTree parent n)
    (step : ∀ r (hr : r < n), (∀ c (hc : c ∈ children parent n r),
      motive c (mem_children.1 hc).2.1) → motive r hr) (r : ℕ) (hr : r < n) : motive r hr := by
  induction hd : n - r using Nat.strong_induction_on generalizing r with
  | _ d ih =>
    refine step r hr fun c hc => ?_
    have hrc := h.lt_of_mem_children hc
    have hcn := (mem_children.1 hc).2.1
    exact ih (n - c) (by omega) c hcn rfl

end IsTree

end Rooted
