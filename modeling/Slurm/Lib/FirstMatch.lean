import Mathlib.Data.List.Basic

/-!
# The first record with a key

A table that is a list: a record is looked up by walking the list to the first one that has the
key, and changed in place (`modifyFirst`). What the lookup finds afterwards, and after records
were dropped or rewritten one by one, is given by the lemmas here.
-/

namespace List

variable {α : Type*} {p q : α → Bool} {f : α → α} {a b : α} {l : List α}

/-- The list with its first element that has `p` changed. -/
def modifyFirst (p : α → Bool) (f : α → α) : List α → List α
  | [] => []
  | a :: l => if p a then f a :: l else a :: modifyFirst p f l

theorem find?_modifyFirst_self (h : l.find? p = some a) (hf : p (f a)) :
    (l.modifyFirst p f).find? p = some (f a) := by
  induction l with
  | nil => simp at h
  | cons b l ih =>
    by_cases hb : p b
    · obtain rfl : b = a := by simpa [hb] using h
      simp [modifyFirst, hb, hf]
    · simp only [find?_cons_of_neg hb] at h
      simp [modifyFirst, hb, ih h]

/-- Other lookups find what they did. -/
theorem find?_modifyFirst_of_ne (hq : ∀ a, p a → q a = false ∧ q (f a) = false) :
    (l.modifyFirst p f).find? q = l.find? q := by
  induction l with
  | nil => rfl
  | cons b l ih =>
    by_cases hb : p b
    · simp [modifyFirst, hb, hq b hb]
    · simp [modifyFirst, hb, find?_cons, ih]

/-- What was found is found again if it is rewritten, not dropped, and no record changes its
    key. -/
theorem find?_filterMap_of_find? {g : α → Option α} (hg : ∀ a b, g a = some b → p b = p a)
    (h : l.find? p = some a) (hb : g a = some b) : (l.filterMap g).find? p = some b := by
  induction l with
  | nil => simp at h
  | cons c l ih =>
    by_cases hc : p c
    · obtain rfl : c = a := by simpa [hc] using h
      simp [hb, hg _ _ hb, hc]
    · simp only [find?_cons_of_neg hc] at h
      -- The records before it are not the one that is looked for, whatever becomes of them.
      obtain hnone | ⟨c', hc'⟩ := Option.eq_none_or_eq_some (g c)
      · simpa [filterMap_cons_none hnone] using ih h
      · have hne : p c' = false := by simpa [hg _ _ hc'] using hc
        simpa [filterMap_cons_some hc', hne] using ih h

theorem find?_filter_of_find? (h : l.find? p = some a) (ha : q a) :
    (l.filter q).find? p = some a := by
  rw [← filterMap_eq_filter]
  refine find?_filterMap_of_find? (fun a b hab => ?_) h (Option.guard_eq_some_iff.2 ⟨rfl, ha⟩)
  rw [(Option.guard_eq_some_iff.1 hab).1]

end List
