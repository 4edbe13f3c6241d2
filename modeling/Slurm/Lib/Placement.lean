import Mathlib.Data.Finset.Basic

/-!
# Things in places

Places, listed in `l`, hold things: `f i` are those in the place `i`. Things are
*placed* when none is in two places, and all that are to be kept are in one
(`Placed`). Then each of them is in exactly one place.

The rules are those of moving things around: a new place is filled with new
things, a place is divided with a new one, things are taken out of a place, and
a place is given up with all that is in it.
-/

namespace Placement

open Finset

variable {ι α : Type*} {l : List ι} {f f' : ι → Finset α} {kept : Finset α} {p q : ι}

/-- No thing is in two places, and the things that are kept are in one. -/
structure Placed (l : List ι) (f : ι → Finset α) (kept : Finset α) : Prop where
  apart : ∀ i ∈ l, ∀ j ∈ l, ∀ x, x ∈ f i → x ∈ f j → i = j
  somewhere : ∀ x ∈ kept, ∃ i ∈ l, x ∈ f i

namespace Placed

theorem congr (h : Placed l f kept) (hf : ∀ i ∈ l, f' i = f i) : Placed l f' kept := by
  refine ⟨fun i hi j hj x hxi hxj => ?_, fun x hx => ?_⟩
  · rw [hf i hi] at hxi
    rw [hf j hj] at hxj
    exact h.apart i hi j hj x hxi hxj
  · obtain ⟨i, hi, hxi⟩ := h.somewhere x hx
    exact ⟨i, hi, by rwa [hf i hi]⟩

variable [DecidableEq α]

/-- A new place with things that are nowhere yet. -/
theorem add (h : Placed l f kept) (hf : ∀ i ∈ l, f' i = f i)
    (hnew : ∀ i ∈ l, Disjoint (f i) (f' q)) : Placed (l ++ [q]) f' (kept ∪ f' q) := by
  have hapart (i : ι) (hi : i ∈ l) (x : α) (hxi : x ∈ f' i) : x ∉ f' q := by
    rw [hf i hi] at hxi
    exact disjoint_left.1 (hnew i hi) hxi
  have hold := h.congr hf
  refine ⟨fun i hi j hj x hxi hxj => ?_, fun x hx => ?_⟩
  · rw [List.mem_append, List.mem_singleton] at hi hj
    rcases hi with hi | rfl <;> rcases hj with hj | rfl
    · exact hold.apart i hi j hj x hxi hxj
    · exact absurd hxj (hapart i hi x hxi)
    · exact absurd hxi (hapart j hj x hxj)
    · rfl
  · rcases mem_union.1 hx with hx | hx
    · obtain ⟨i, hi, hxi⟩ := hold.somewhere x hx
      exact ⟨i, List.mem_append_left _ hi, hxi⟩
    · exact ⟨q, by simp, hx⟩

/-- The things of one place are divided between it and a new one. -/
theorem divide (h : Placed l f kept) (hp : p ∈ l) (hf : ∀ i ∈ l, i ≠ p → f' i = f i)
    (hdisjoint : Disjoint (f' p) (f' q)) (hunion : f' p ∪ f' q = f p) :
    Placed (l ++ [q]) f' kept := by
  -- Where a thing is now, traced back to where it was.
  have hsub (i : ι) (hi : i ∈ l) : f' i ⊆ f i := by
    rcases eq_or_ne i p with rfl | hip
    · exact hunion ▸ subset_union_left
    · exact (hf i hi hip).subset
  have hq (i : ι) (hi : i ∈ l) (x : α) (hxi : x ∈ f' i) (hxq : x ∈ f' q) : False := by
    have hxp : x ∈ f p := hunion ▸ mem_union_right _ hxq
    obtain rfl : i = p := h.apart i hi p hp x (hsub i hi hxi) hxp
    exact disjoint_left.1 hdisjoint hxi hxq
  refine ⟨fun i hi j hj x hxi hxj => ?_, fun x hx => ?_⟩
  · rw [List.mem_append, List.mem_singleton] at hi hj
    rcases hi with hi | rfl <;> rcases hj with hj | rfl
    · exact h.apart i hi j hj x (hsub i hi hxi) (hsub j hj hxj)
    · exact (hq i hi x hxi hxj).elim
    · exact (hq j hj x hxj hxi).elim
    · rfl
  · obtain ⟨i, hi, hxi⟩ := h.somewhere x hx
    rcases eq_or_ne i p with rfl | hip
    · rcases mem_union.1 (hunion ▸ hxi) with hxi | hxi
      · exact ⟨i, List.mem_append_left _ hi, hxi⟩
      · exact ⟨q, by simp, hxi⟩
    · exact ⟨i, List.mem_append_left _ hi, by rwa [hf i hi hip]⟩

/-- Things are taken out of a place, and are not kept. -/
theorem takeOut (h : Placed l f kept) {out : Finset α} (hf : ∀ i ∈ l, i ≠ p → f' i = f i)
    (hp : f' p = f p \ out) : Placed l f' (kept \ out) := by
  have hsub (i : ι) (hi : i ∈ l) : f' i ⊆ f i := by
    rcases eq_or_ne i p with rfl | hip
    · exact hp ▸ sdiff_subset
    · exact (hf i hi hip).subset
  refine ⟨fun i hi j hj x hxi hxj => h.apart i hi j hj x (hsub i hi hxi) (hsub j hj hxj),
    fun x hx => ?_⟩
  obtain ⟨hx, hout⟩ := mem_sdiff.1 hx
  obtain ⟨i, hi, hxi⟩ := h.somewhere x hx
  refine ⟨i, hi, ?_⟩
  rcases eq_or_ne i p with rfl | hip
  · exact hp ▸ mem_sdiff.2 ⟨hxi, hout⟩
  · rwa [hf i hi hip]

/-- A place is given up, with the things that are in it. -/
theorem giveUp [DecidableEq ι] (h : Placed l f kept) (hl : l.Nodup)
    (hf : ∀ i ∈ l, i ≠ p → f' i = f i) : Placed (l.erase p) f' (kept \ f p) := by
  have hmem (i : ι) (hi : i ∈ l.erase p) : i ∈ l ∧ f' i = f i := by
    rw [hl.mem_erase_iff] at hi
    exact ⟨hi.2, hf i hi.2 hi.1⟩
  refine ⟨fun i hi j hj x hxi hxj => ?_, fun x hx => ?_⟩
  · obtain ⟨hil, hfi⟩ := hmem i hi
    obtain ⟨hjl, hfj⟩ := hmem j hj
    exact h.apart i hil j hjl x (hfi ▸ hxi) (hfj ▸ hxj)
  · obtain ⟨hx, hout⟩ := mem_sdiff.1 hx
    obtain ⟨i, hi, hxi⟩ := h.somewhere x hx
    have hip : i ≠ p := by
      rintro rfl
      exact hout hxi
    exact ⟨i, hl.mem_erase_iff.2 ⟨hip, hi⟩, by rwa [hf i hi hip]⟩

end Placed

end Placement
