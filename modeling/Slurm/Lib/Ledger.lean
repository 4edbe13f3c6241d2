import Mathlib.Data.Set.Lattice
import Mathlib.Order.CompletePartialOrder

/-!
# Exclusive ownership

A *ledger* says what each of a number of holders owns, and nothing is owned
twice (`Ledger`). A holder acquires what nobody owns (`acquire`), and releases
everything it owns (`release`).

This is what a table of reservations is for. The table itself does not know the
holders: it only shows what is owned at all (`owned`). The lemmas say how that
changes, so that a table which is updated in the same way goes on showing it.
-/

/-- What each holder owns; nothing is owned by two of them. -/
structure Ledger (H X : Type*) where
  own : H → Set X
  exclusive : Pairwise fun h h' => Disjoint (own h) (own h')

namespace Ledger

open Function Set

variable {H X : Type*} (l : Ledger H X) {h h' : H} {S : Set X} {x : X}

/-- What is owned, by whomever. -/
def owned : Set X := ⋃ h, l.own h

variable {l}

theorem mem_owned : x ∈ l.owned ↔ ∃ h, x ∈ l.own h := mem_iUnion

/-- Two holders of the same thing are the same. -/
theorem eq_of_mem_own (hx : x ∈ l.own h) (hx' : x ∈ l.own h') : h = h' := by
  by_contra hne
  exact disjoint_left.1 (l.exclusive hne) hx hx'

/-- What is owned has exactly one owner. -/
theorem mem_owned_iff_existsUnique : x ∈ l.owned ↔ ∃! h, x ∈ l.own h :=
  ⟨fun hx => (mem_owned.1 hx).imp fun _ hh => ⟨hh, fun _ hh' => eq_of_mem_own hh' hh⟩,
    fun hx => mem_owned.2 hx.exists⟩

section

variable [DecidableEq H]

/-- Nobody owns anything yet. -/
def empty : Ledger H X := ⟨fun _ => ∅, fun _ _ _ => disjoint_empty _⟩

variable (l h S)

/-- The holder `h` acquires `S`, which nobody owns. -/
def acquire (hS : Disjoint S l.owned) : Ledger H X where
  own := Function.update l.own h (l.own h ∪ S)
  exclusive := by
    -- Only the share of `h` grows, by things which are in no share.
    have hfree : ∀ k, Disjoint S (l.own k) := fun k =>
      hS.mono_right (subset_iUnion l.own k)
    intro k k' hne
    by_cases hk : k = h
    · subst hk
      rw [update_self, update_of_ne hne.symm]
      exact disjoint_union_left.2 ⟨l.exclusive hne, hfree k'⟩
    · rw [update_of_ne hk]
      by_cases hk' : k' = h
      · subst hk'
        rw [update_self]
        exact disjoint_union_right.2 ⟨l.exclusive hne, (hfree k).symm⟩
      · rw [update_of_ne hk']
        exact l.exclusive hne

/-- The holder `h` releases all it owns. -/
def release : Ledger H X where
  own := Function.update l.own h ∅
  exclusive := by
    have hsub : ∀ k, Function.update l.own h ∅ k ⊆ l.own k := by
      intro k
      by_cases hk : k = h
      · subst hk
        rw [update_self]
        exact empty_subset _
      · rw [update_of_ne hk]
    exact fun k k' hne => (l.exclusive hne).mono (hsub k) (hsub k')

variable {l h S}

@[simp] theorem acquire_own_self (hS : Disjoint S l.owned) :
    (l.acquire h S hS).own h = l.own h ∪ S := update_self ..

@[simp] theorem acquire_own_of_ne (hS : Disjoint S l.owned) (hne : h' ≠ h) :
    (l.acquire h S hS).own h' = l.own h' := update_of_ne hne ..

@[simp] theorem release_own_self : (l.release h).own h = ∅ := update_self ..

@[simp] theorem release_own_of_ne (hne : h' ≠ h) : (l.release h).own h' = l.own h' :=
  update_of_ne hne ..

/-- Acquiring adds to what is owned. -/
theorem owned_acquire (hS : Disjoint S l.owned) : (l.acquire h S hS).owned = l.owned ∪ S := by
  ext x
  simp only [mem_union, mem_owned]
  constructor
  · rintro ⟨k, hk⟩
    by_cases hkh : k = h
    · subst hkh
      rw [acquire_own_self] at hk
      exact hk.imp (fun hx => ⟨k, hx⟩) id
    · rw [acquire_own_of_ne hS hkh] at hk
      exact .inl ⟨k, hk⟩
  · rintro (⟨k, hk⟩ | hx)
    · refine ⟨k, ?_⟩
      by_cases hkh : k = h
      · subst hkh
        rw [acquire_own_self]
        exact .inl hk
      · rwa [acquire_own_of_ne hS hkh]
    · exact ⟨h, by rw [acquire_own_self]; exact .inr hx⟩

/-- Releasing takes the share of the holder from what is owned, and nothing else. -/
theorem owned_release : (l.release h).owned = l.owned \ l.own h := by
  ext x
  simp only [mem_sdiff, mem_owned]
  constructor
  · rintro ⟨k, hk⟩
    by_cases hkh : k = h
    · subst hkh
      rw [release_own_self] at hk
      exact absurd hk (notMem_empty x)
    · rw [release_own_of_ne hkh] at hk
      exact ⟨⟨k, hk⟩, fun hx => hkh (eq_of_mem_own hk hx)⟩
  · rintro ⟨⟨k, hk⟩, hx⟩
    have hkh : k ≠ h := by rintro rfl; exact hx hk
    exact ⟨k, by rwa [release_own_of_ne hkh]⟩

variable (l)

/-- What a system of holders can do: acquire what is free, while owning nothing;
    release; or leave things as they are. -/
inductive Step : Ledger H X → Prop
  | stay : Step l
  | acquire (h : H) (S : Set X) (hS : Disjoint S l.owned) (h0 : l.own h = ∅) :
      Step (l.acquire h S hS)
  | release (h : H) : Step (l.release h)

end

end Ledger
