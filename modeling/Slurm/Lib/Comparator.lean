import Mathlib.Algebra.Order.Group.Int

/-!
# Functions that compare

A function for sorting returns a number that is below, equal to or above zero. `IsOrder` is what a
sort needs of it. Comparisons by one thing and then by another have it (`IsOrder.andThen`).
-/

namespace Comparator

variable {α β : Type*} {cmp cmp' : α → α → ℤ}

/-- The function compares by a total preorder: its sign changes when its arguments are swapped,
    and it is transitive. -/
structure IsOrder (cmp : α → α → ℤ) : Prop where
  swap : ∀ a b, cmp a b < 0 ↔ 0 < cmp b a
  trans : ∀ a b c, cmp a b ≤ 0 → cmp b c ≤ 0 → cmp a c ≤ 0

theorem isOrder_sub (f : α → ℤ) : IsOrder fun a b => f a - f b :=
  ⟨fun a b => by omega, fun a b c hab hbc => by omega⟩

namespace IsOrder

theorem on (h : IsOrder cmp) (f : β → α) : IsOrder fun a b => cmp (f a) (f b) :=
  ⟨fun a b => h.swap (f a) (f b), fun a b c => h.trans (f a) (f b) (f c)⟩

/-- Only the signs matter. -/
theorem congr (h : IsOrder cmp)
    (hsign : ∀ a b, (cmp' a b < 0 ↔ cmp a b < 0) ∧ (0 < cmp' a b ↔ 0 < cmp a b)) :
    IsOrder cmp' where
  swap a b := by rw [(hsign a b).1, h.swap, (hsign b a).2]
  trans a b c := by
    simp only [← not_lt, hsign]
    simpa only [not_lt] using h.trans a b c

/-- A second comparison decides where the first one does not. -/
theorem andThen (h : IsOrder cmp) (h' : IsOrder cmp') :
    IsOrder fun a b => if cmp a b = 0 then cmp' a b else cmp a b where
  swap a b := by
    have hab := h.swap a b
    have hba := h.swap b a
    have hab' := h'.swap a b
    split_ifs <;> omega
  trans a b c := by
    have hab := h.swap a b
    have hbc := h.swap b c
    have hac := h.swap a c
    have habc := h.trans a b c
    have hbca := h.trans b c a
    have hcab := h.trans c a b
    have habc' := h'.trans a b c
    split_ifs <;> omega

end IsOrder

end Comparator
