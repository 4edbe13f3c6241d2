import Mathlib.Data.Finset.Union

/-!
# Items that share a bin

An item takes some places of a bin (`foot`), and items may share a bin when no place is taken
twice (`Apart`). What the items of a bin take together is `cover`. An item can be added if
it takes none of that (`Apart.concat`), and when an item is taken out just its places
become free (`Apart.cover_erase`).
-/

namespace Packing

open List

variable {ι β : Type*} [DecidableEq β] (foot : ι → Finset β)

/-- The places that the items take. -/
def cover (l : List ι) : Finset β := l.foldr (fun x s => foot x ∪ s) ∅

/-- No place is taken twice. -/
def Apart (l : List ι) : Prop := l.Pairwise fun x y => Disjoint (foot x) (foot y)

instance (l : List ι) : Decidable (Apart foot l) := inferInstanceAs (Decidable (l.Pairwise _))

variable {foot} {l l' : List ι} {x : ι}

@[simp] theorem cover_nil : cover foot [] = ∅ := rfl

@[simp] theorem cover_cons : cover foot (x :: l) = foot x ∪ cover foot l := rfl

theorem cover_append : cover foot (l ++ l') = cover foot l ∪ cover foot l' := by
  induction l with
  | nil => simp
  | cons y l ih => simp [ih]

theorem cover_concat : cover foot (l ++ [x]) = cover foot l ∪ foot x := by
  rw [cover_append, cover_cons, cover_nil, Finset.union_empty]

theorem disjoint_cover {s : Finset β} :
    Disjoint s (cover foot l) ↔ ∀ x ∈ l, Disjoint s (foot x) := by
  induction l with
  | nil => simp
  | cons y l ih => simp [ih, Finset.disjoint_union_right]

theorem Apart.concat (h : Apart foot l) (hx : Disjoint (foot x) (cover foot l)) :
    Apart foot (l ++ [x]) := by
  refine pairwise_append.2 ⟨h, pairwise_singleton _ _, fun y hy z hz => ?_⟩
  rw [mem_singleton.1 hz]
  exact (disjoint_cover.1 hx y hy).symm

variable [DecidableEq ι]

omit [DecidableEq β] in
theorem Apart.erase (h : Apart foot l) (x : ι) : Apart foot (l.erase x) :=
  List.Pairwise.sublist erase_sublist h

/-- When an item is taken out, the places it has become free, and no other. -/
theorem Apart.cover_erase (h : Apart foot l) (hx : x ∈ l) :
    cover foot (l.erase x) = cover foot l \ foot x := by
  induction l with
  | nil => exact absurd hx not_mem_nil
  | cons y l ih =>
    have hy : Disjoint (foot y) (cover foot l) := disjoint_cover.2 (pairwise_cons.1 h).1
    by_cases hyx : y = x
    · subst hyx
      rw [erase_cons_head, cover_cons, Finset.union_sdiff_cancel_left hy]
    · have hmem : x ∈ l := (mem_cons.1 hx).resolve_left fun h => hyx h.symm
      have hyx' : Disjoint (foot y) (foot x) := disjoint_cover.1 hy x hmem
      rw [erase_cons_tail (by simpa using hyx), cover_cons, cover_cons,
        ih (pairwise_cons.1 h).2 hmem, Finset.union_sdiff_distrib,
        Finset.sdiff_eq_self_of_disjoint hyx']

end Packing
