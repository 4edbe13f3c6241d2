import Mathlib.Algebra.Order.Group.Int.Sum
import Mathlib.Data.Set.Finite.Lemmas

/-!
# Who waits for whom

Parties hold things and each may want one more. If each party that holds something wants something
of a higher rank than all that it holds, then there is one that wants what nobody holds
(`exists_free`). What all parties contribute to a number changes by what one of them does
(`sum_update`).
-/

namespace Waiting

open Finset

variable {T ι σ : Type*}

/-- The one that wants what has the highest rank wants what is free. -/
theorem exists_free [Finite T] (rank : ι → ℕ) (wants : T → Option ι) (holds : T → ι → Prop)
    (hordered : ∀ t i, holds t i → ∃ j, wants t = some j ∧ rank i < rank j)
    (hwants : ∃ t j, wants t = some j) :
    ∃ t j, wants t = some j ∧ ∀ u i, holds u i → rank i ≠ rank j := by
  obtain ⟨t0, j0, h0⟩ := hwants
  obtain ⟨t, ht, hmax⟩ := Set.exists_max_image {t | (wants t).isSome}
    (fun t => ((wants t).map rank).getD 0) (Set.toFinite _)
    ⟨t0, by rw [Set.mem_ofPred_eq, h0]; rfl⟩
  obtain ⟨j, hj⟩ := Option.isSome_iff_exists.1 ht
  refine ⟨t, j, hj, fun u i hu heq => ?_⟩
  obtain ⟨j', hj', hlt⟩ := hordered u i hu
  have hle := hmax u (by rw [Set.mem_ofPred_eq, hj']; rfl)
  rw [hj, hj'] at hle
  simp only [Option.map_some, Option.getD_some] at hle
  omega

variable [Fintype T] [DecidableEq T] {f : T → ℤ}

theorem sum_update (f : σ → ℤ) (g : T → σ) (t : T) (x : σ) :
    ∑ u, f (Function.update g t x u) = ∑ u, f (g u) - f (g t) + f x := by
  rw [← add_sum_erase _ _ (mem_univ t),
    ← add_sum_erase _ (fun u => f (g u)) (mem_univ t), Function.update_self]
  have hrest : ∑ u ∈ Finset.univ.erase t, f (Function.update g t x u) =
      ∑ u ∈ Finset.univ.erase t, f (g u) := by
    refine sum_congr rfl fun u hu => ?_
    rw [Function.update_of_ne (ne_of_mem_erase hu)]
  rw [hrest]
  omega

omit [DecidableEq T] in
theorem le_sum (hf : ∀ t, 0 ≤ f t) (t : T) : f t ≤ ∑ u, f u :=
  single_le_sum (fun u _ => hf u) (mem_univ t)

/-- Two of them contribute no more than all. -/
theorem add_le_sum (hf : ∀ t, 0 ≤ f t) {t u : T} (hne : t ≠ u) :
    f t + f u ≤ ∑ v, f v := by
  rw [← add_sum_erase _ _ (mem_univ t)]
  have hle := single_le_sum (fun v _ => hf v) (mem_erase.2 ⟨hne.symm, mem_univ u⟩)
  omega

end Waiting
