import Mathlib.Order.Bounds.Basic
import Mathlib.Order.WellFounded

/-!
# The first run of positions

A search for `n` good positions in a row walks over the positions once and counts how many good ones
it has just passed (`firstRun`). It may give up at a position that is not good. What it finds is
the least of the runs that it could find at all (`firstRun_isLeast`).
-/

namespace Runs

/-- The starts of `n` good positions in a row before `size`. -/
def runs (good : ℕ → Bool) (n size : ℕ) : Set ℕ := {p | p + n ≤ size ∧ ∀ i < n, good (p + i)}

/-- The first run of `n` positions among the next ones from `k` on, of which `cnt` were passed
    already. The search ends at a position with `quit` that is not good. -/
def firstRun (good quit : ℕ → Bool) (n : ℕ) : (left k cnt : ℕ) → Option ℕ
  | 0, _, _ => none
  | left + 1, k, cnt =>
    if good k then
      if n ≤ cnt + 1 then some (k - cnt) else firstRun good quit n left (k + 1) (cnt + 1)
    else if quit k then none
    else firstRun good quit n left (k + 1) 0

variable {good quit : ℕ → Bool} {n left k cnt p m size : ℕ} {s : Set ℕ} {o : Option ℕ}

/-- A search has found the least element of `s`, or nothing because there is none. -/
def Finds (o : Option ℕ) (s : Set ℕ) : Prop := (∀ p, o = some p → IsLeast s p) ∧ (o = none → s = ∅)

theorem Finds.eq_some (h : Finds o s) (hp : IsLeast s p) : o = some p := by
  cases o with
  | none => exact absurd hp.1 (by simp [h.2 rfl])
  | some q => rw [(h.1 q rfl).unique hp]

theorem Finds.eq_none_iff (h : Finds o s) : o = none ↔ s = ∅ := by
  refine ⟨h.2, fun hs => ?_⟩
  cases o with
  | none => rfl
  | some p => exact absurd (h.1 p rfl).1 (by simp [hs])

/-- The first run before `m` is the first one before `size`, if that ends before `m`. -/
theorem Finds.widen_iff (h : Finds o (runs good n m)) (hm : m ≤ size) :
    Finds o (runs good n size) ↔ ∀ p, IsLeast (runs good n size) p → p + n ≤ m := by
  constructor
  · intro hwide p hp
    exact (h.1 p (hwide.eq_some hp)).1.1
  · intro hends
    refine ⟨fun p hp => ?_, fun hnone => ?_⟩
    · obtain ⟨⟨hle, hrun⟩, hleast⟩ := h.1 p hp
      refine ⟨⟨hle.trans hm, hrun⟩, fun q hq => ?_⟩
      by_contra hlt
      exact hlt (hleast ⟨by omega, hq.2⟩)
    · by_contra hne
      obtain ⟨p, hp, hmin⟩ := wellFounded_lt.has_min _ (Set.nonempty_iff_ne_empty.2 hne)
      have hin : p ∈ runs good n m := ⟨hends p ⟨hp, fun q hq => not_lt.1 (hmin q hq)⟩, hp.2⟩
      rwa [h.2 hnone] at hin

/-- The runs that a search can still find. -/
def reach (good quit : ℕ → Bool) (n left k cnt : ℕ) : Set ℕ :=
  {p | p ∈ runs good n (k + left) ∧ k - cnt ≤ p ∧ ∀ j, k ≤ j → j < p → good j ∨ quit j = false}

theorem firstRun_isLeast (hcnt : cnt < n) (hk : cnt ≤ k) (hpast : ∀ i < cnt, good (k - cnt + i)) :
    Finds (firstRun good quit n left k cnt) (reach good quit n left k cnt) := by
  induction left generalizing k cnt with
  | zero =>
    refine ⟨by simp [firstRun], fun _ => Set.eq_empty_of_forall_notMem ?_⟩
    rintro p ⟨⟨hp, -⟩, hle, -⟩
    omega
  | succ left ih =>
    have hpast' (hgood : good k) (i : ℕ) (hi : i < cnt + 1) : good (k - cnt + i) := by
      rcases Nat.lt_or_ge i cnt with hi' | hi'
      · exact hpast i hi'
      · rwa [show k - cnt + i = k by omega]
    -- A run that has not ended before `k` and does not start after it has `k` in it.
    have hin {p : ℕ} (hrun : ∀ i < n, good (p + i)) (hle : k - cnt ≤ p) (hp : p ≤ k) : good k := by
      have hgood := hrun (k - p) (by omega)
      rwa [Nat.add_sub_cancel' hp] at hgood
    rw [firstRun]
    split_ifs with hgood hlast hquit
    · refine ⟨?_, by simp⟩
      rintro _ ⟨⟩
      exact ⟨⟨⟨by omega, fun i hi => hpast' hgood i (by omega)⟩, le_rfl, fun j _ _ => by omega⟩,
        fun p hp => hp.2.1⟩
    · convert @ih (k + 1) (cnt + 1) (by omega) (by omega)
        (by simpa using hpast' hgood) using 1
      ext p
      simp only [reach, runs, Set.mem_ofPred_eq]
      grind
    · refine ⟨by simp, fun _ => Set.eq_empty_of_forall_notMem ?_⟩
      rintro p ⟨⟨-, hrun⟩, hle, hstop⟩
      rcases Nat.lt_or_ge k p with hp | hp
      · exact absurd (hstop k le_rfl hp) (by simp [hgood, hquit])
      · exact hgood (hin hrun hle hp)
    · convert @ih (k + 1) 0 (by omega) (by omega) (by simp) using 1
      ext p
      simp only [reach, runs, Set.mem_ofPred_eq]
      grind

/-- A search that does not give up finds the first run from `k` on. -/
theorem finds_firstRun_from (good : ℕ → Bool) (hn : 0 < n) (k size : ℕ) :
    Finds (firstRun good (fun _ => false) n (size - k) k 0) {p ∈ runs good n size | k ≤ p} := by
  convert firstRun_isLeast hn (Nat.zero_le k) (by simp) using 1
  ext p
  simp only [reach, runs, Set.mem_ofPred_eq]
  grind

theorem finds_firstRun (good : ℕ → Bool) (hn : 0 < n) (size : ℕ) :
    Finds (firstRun good (fun _ => false) n size 0 0) (runs good n size) := by
  simpa using finds_firstRun_from good hn 0 size

/-- A search that gives up from `k` on finds the first run, if there is none from `k` on. -/
theorem finds_firstRun_until (hn : 0 < n) (hnone : {p ∈ runs good n size | k ≤ p} = ∅) :
    Finds (firstRun good (fun i => decide (k ≤ i)) n size 0 0) (runs good n size) := by
  convert firstRun_isLeast hn (Nat.zero_le 0) (by simp) using 1
  ext p
  simp only [reach, Set.mem_ofPred_eq, Nat.zero_add]
  refine ⟨fun hp => ⟨hp, by omega, fun j _ hj => .inr ?_⟩, And.left⟩
  have hlt : ¬k ≤ p := fun hk => Set.eq_empty_iff_forall_notMem.1 hnone p ⟨hp, hk⟩
  exact decide_eq_false (by omega)

end Runs
