import Mathlib.Algebra.Order.Group.Int.Sum

/-!
# Counters of what is held

A counter starts at some value, is raised by what a holder takes, and lowered by it when the
holder gives it back. It is a *tally* when it is the start and what all the holders have
(`Tally`). Then a holder can give back what it has (`Tally.le`), and when nobody holds
anything the counter is where it started (`Tally.eq_base`).
-/

variable {ι : Type*} {base v : ℕ} {live : Finset ι} {w : ι → ℕ} {i : ι}

/-- The counter `v` is `base`, and what the holders `live` have. -/
def Tally (base : ℕ) (live : Finset ι) (w : ι → ℕ) (v : ℕ) : Prop := v = base + ∑ k ∈ live, w k
  deriving Decidable

namespace Tally

theorem empty (base : ℕ) (w : ι → ℕ) : Tally base ∅ w base := by simp [Tally]

theorem eq_base (h : Tally base ∅ w v) : v = base := by simpa [Tally] using h

/-- What a holder has is in the counter. -/
theorem le (h : Tally base live w v) (hi : i ∈ live) : w i ≤ v := by
  have hle : w i ≤ ∑ k ∈ live, w k := Finset.single_le_sum (fun _ _ => Nat.zero_le _) hi
  unfold Tally at h
  omega

variable [DecidableEq ι]

/-- There is a new holder, and the others have what they had. -/
theorem insert (h : Tally base live w v) (w' : ι → ℕ) (hi : i ∉ live)
    (hw : ∀ k ∈ live, w' k = w k) :
    Tally base (insert i live) w' (v + w' i) := by
  have hsame : ∑ k ∈ live, w' k = ∑ k ∈ live, w k := Finset.sum_congr rfl hw
  unfold Tally at h ⊢
  rw [Finset.sum_insert hi, hsame]
  omega

/-- The counter when there is a new holder. -/
theorem insert_iff (h : Tally base live w v) (hi : i ∉ live) {v' : ℕ} :
    Tally base (Insert.insert i live) w v' ↔ v' = v + w i := by
  have hnew := h.insert w hi fun _ _ => rfl
  unfold Tally at hnew ⊢
  rw [hnew]

/-- A holder gives back what it has. -/
theorem erase (h : Tally base live w v) (hi : i ∈ live) :
    Tally base (live.erase i) w (v - w i) := by
  unfold Tally at h ⊢
  have hsum := Finset.add_sum_erase live w hi
  omega

/-- The counter when a holder is gone. -/
theorem erase_iff (h : Tally base live w v) (hi : i ∈ live) {v' : ℕ} :
    Tally base (live.erase i) w v' ↔ v' = v - w i := by
  have hnew := h.erase hi
  unfold Tally at hnew ⊢
  rw [hnew]

end Tally
