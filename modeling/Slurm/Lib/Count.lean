import Mathlib.Algebra.Order.Group.Int.Sum

/-!
# Sums and counts over a list in which one entry changes

A table keeps a number that is to be the sum of something over the entries of a
list, or the count of those with a property. When one entry changes, the number
changes by the difference (`sum_map_change`, `countP_change`).
-/

namespace Count

open List

variable {α : Type*}

theorem countP_eq_sum (P : α → Prop) [DecidablePred P] (l : List α) :
    l.countP P = (l.map fun b => if P b then 1 else 0).sum := by
  induction l with
  | nil => rfl
  | cons b l ih =>
    rw [countP_cons, ih, map_cons, sum_cons, add_comm]
    simp

variable [DecidableEq α] {l : List α} {a : α}

theorem sum_map_change {f g : α → ℕ} (hl : l.Nodup) (ha : a ∈ l)
    (h : ∀ b ∈ l, b ≠ a → g b = f b) : (l.map g).sum + f a = (l.map f).sum + g a := by
  have hrest : (l.erase a).map g = (l.erase a).map f := by
    refine map_congr_left fun b hb => ?_
    rw [hl.mem_erase_iff] at hb
    exact h b hb.2 hb.1
  have hf := sum_map_erase f ha
  have hg := sum_map_erase g ha
  rw [hrest] at hg
  omega

theorem countP_change {P Q : α → Prop} [DecidablePred P] [DecidablePred Q] (hl : l.Nodup)
    (ha : a ∈ l) (h : ∀ b ∈ l, b ≠ a → (Q b ↔ P b)) :
    l.countP Q + (if P a then 1 else 0) = l.countP P + if Q a then 1 else 0 := by
  have hsum := sum_map_change (f := fun b => if P b then 1 else 0)
    (g := fun b => if Q b then 1 else 0) hl ha fun b hb hba => by simp [h b hb hba]
  rwa [← countP_eq_sum, ← countP_eq_sum] at hsum

end Count
