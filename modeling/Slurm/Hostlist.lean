import Mathlib.Data.Nat.Log
import Slurm.Lib.CString
import Slurm.Lib.Comparator
import Slurm.Record

/-!
# The order of host ranges

`hostlist_sort` sorts ranges of hosts with `hostrange_cmp`. It compares the suffixes of two ranges
if their widths are equivalent, which it then makes equal, and the widths otherwise. In both cases
the shorter name is first, and of names of the same length the one with the smaller suffix
(`widthEquiv_spec`); and no name gets another length. So in every run of comparisons, the ranges
are compared by one order (`hostrangeCmp_isOrder`).
-/

namespace Slurm

open CString Comparator Function

/-- `struct hostrange_components`, without the end of the range. Suffixes are below `2 ^ 31`, and
    widths are lengths in an `int`. -/
structure HostRange where
  pre : CStr
  lo : Fin (2 ^ 31)
  width : Fin (2 ^ 31)
  singlehost : Bool

/-- The loop of `_zero_padded`. -/
def countDigits (num n : ℕ) : ℕ := if num / 10 = 0 then n else countDigits (num / 10) (n + 1)

/-- `_zero_padded`. -/
def zeroPadded (num width : ℕ) : ℕ := width - countDigits num 1

/-- `_width_equiv`, and the widths after it. -/
def widthEquiv (n : ℕ) (wn : Fin (2 ^ 31)) (m : ℕ) (wm : Fin (2 ^ 31)) :
    Bool × Fin (2 ^ 31) × Fin (2 ^ 31) :=
  if wn = wm then (true, wn, wm)
  else if zeroPadded n wn ≠ zeroPadded n wm ∧ zeroPadded m wm ≠ zeroPadded m wn then
    (false, wn, wm)
  else if zeroPadded n wn ≠ zeroPadded n wm then (true, wn, wn)
  else (true, wm, wm)

section

variable (strnatcmp : CStr → CStr → ℤ)

/-- `hostrange_prefix_cmp`. -/
def hostrangePrefixCmp (h1 h2 : HostRange) : ℤ :=
  if strnatcmp h1.pre h2.pre = 0 then h2.singlehost.toInt - h1.singlehost.toInt
  else strnatcmp h1.pre h2.pre

/-- `hostrange_cmp` of the ranges at two addresses. -/
def hostrangeCmp (hr : Ptr → HostRange) (p q : Ptr) : ℤ × (Ptr → HostRange) :=
  let (h1, h2) := (hr p, hr q)
  if hostrangePrefixCmp strnatcmp h1 h2 = 0 then
    let w := widthEquiv h1.lo h1.width h2.lo h2.width
    (toInt (bif w.1 then (h1.lo : ℤ) - h2.lo else (w.2.1 : ℤ) - w.2.2),
      update (update hr p { h1 with width := w.2.1 }) q { h2 with width := w.2.2 })
  else (hostrangePrefixCmp strnatcmp h1 h2, hr)

end

theorem countDigits_eq (num n : ℕ) : countDigits num n = n + Nat.log 10 num := by
  fun_induction countDigits num n with
  | case1 num n h =>
    rw [Nat.log_of_lt (by omega), Nat.add_zero]
  | case2 num n h ih =>
    rw [ih, Nat.log_of_one_lt_of_le (n := num) (by decide) (by omega), Nat.add_assoc, Nat.add_comm 1]

namespace HostRange

/-- How many characters the first suffix is printed with. -/
def length (h : HostRange) : ℕ := max h.width (countDigits h.lo 1)

/-- Ranges with the same prefix are ordered by the lengths of their suffixes, and then by these. -/
def rank (h : HostRange) : ℤ := h.length * 2 ^ 31 + h.lo

/-- What comparisons depend on and do not change. -/
def key (h : HostRange) : CStr × Bool × Fin (2 ^ 31) × ℕ := (h.pre, h.singlehost, h.lo, h.length)

end HostRange

/-- The comparison is by the ranks, which the changes of the widths keep. -/
theorem widthEquiv_spec (h1 h2 : HostRange) :
    let w := widthEquiv h1.lo h1.width h2.lo h2.width
    let r := toInt (bif w.1 then (h1.lo : ℤ) - h2.lo else (w.2.1 : ℤ) - w.2.2)
    { h1 with width := w.2.1 }.length = h1.length ∧ { h2 with width := w.2.2 }.length = h2.length ∧
      (r < 0 ↔ h1.rank - h2.rank < 0) ∧ (0 < r ↔ 0 < h1.rank - h2.rank) := by
  have hdigits {n m : ℕ} (h : n ≤ m) : countDigits n 1 ≤ countDigits m 1 := by
    simp only [countDigits_eq]
    exact Nat.add_le_add_left (Nat.log_mono_right h) 1
  obtain ⟨_, ⟨n, hn⟩, ⟨wn, hwn⟩, _⟩ := h1
  obtain ⟨_, ⟨m, hm⟩, ⟨wm, hwm⟩, _⟩ := h2
  have hnm := @hdigits n m
  have hmn := @hdigits m n
  simp only [HostRange.rank, HostRange.length]
  unfold widthEquiv zeroPadded toInt
  dsimp only
  split_ifs <;> simp only [Fin.mk.injEq, cond_true, cond_false, true_and] at * <;> omega

section

variable {strnatcmp : CStr → CStr → ℤ} (hr : Ptr → HostRange) (p q : Ptr)

theorem hostrangeCmp_key (r : Ptr) :
    ((hostrangeCmp strnatcmp hr p q).2 r).key = (hr r).key := by
  obtain ⟨hp, hq, -⟩ := widthEquiv_spec (hr p) (hr q)
  simp only [hostrangeCmp]
  split_ifs
  · dsimp only
    rcases eq_or_ne r q with rfl | hrq
    · rw [update_self, HostRange.key, hq, HostRange.key]
    · rw [update_of_ne hrq]
      rcases eq_or_ne r p with rfl | hrp
      · rw [update_self, HostRange.key, hp, HostRange.key]
      · rw [update_of_ne hrp]
  · rfl

/-- Whatever was compared before, two ranges are compared in the same way. -/
theorem hostrangeCmp_sign (before : List (Ptr × Ptr)) :
    let r := (hostrangeCmp strnatcmp
      (before.foldl (fun hr c => (hostrangeCmp strnatcmp hr c.1 c.2).2) hr) p q).1
    let order := if hostrangePrefixCmp strnatcmp (hr p) (hr q) = 0 then (hr p).rank - (hr q).rank
      else hostrangePrefixCmp strnatcmp (hr p) (hr q)
    (r < 0 ↔ order < 0) ∧ (0 < r ↔ 0 < order) := by
  have hkeys : ∀ r, ((before.foldl (fun hr c => (hostrangeCmp strnatcmp hr c.1 c.2).2) hr) r).key =
      (hr r).key :=
    List.foldlRecOn before _ (motive := fun hr' => ∀ r, (hr' r).key = (hr r).key) (fun _ => rfl)
      fun hr' ih c _ r => (hostrangeCmp_key hr' c.1 c.2 r).trans (ih r)
  generalize before.foldl _ hr = hr' at *
  simp only [HostRange.key, Prod.mk.injEq] at hkeys
  obtain ⟨-, -, hneg, hpos⟩ := widthEquiv_spec (hr' p) (hr' q)
  have hrank (r : Ptr) : (hr' r).rank = (hr r).rank := by
    rw [HostRange.rank, (hkeys r).2.2.1, (hkeys r).2.2.2, HostRange.rank]
  have hcmp : hostrangePrefixCmp strnatcmp (hr' p) (hr' q) =
      hostrangePrefixCmp strnatcmp (hr p) (hr q) := by
    simp only [hostrangePrefixCmp, hkeys]
  simp only [hostrangeCmp, hcmp, ← hrank]
  split_ifs
  · exact ⟨hneg, hpos⟩
  · exact ⟨Iff.rfl, Iff.rfl⟩

end

/-- A pair of ranges is compared after any comparisons, others for each pair. -/
theorem hostrangeCmp_isOrder {strnatcmp : CStr → CStr → ℤ} (h : IsOrder strnatcmp)
    (hr : Ptr → HostRange) (before : Ptr → Ptr → List (Ptr × Ptr)) :
    IsOrder fun p q => (hostrangeCmp strnatcmp
      ((before p q).foldl (fun hr c => (hostrangeCmp strnatcmp hr c.1 c.2).2) hr) p q).1 := by
  have hpre : IsOrder fun p q => hostrangePrefixCmp strnatcmp (hr p) (hr q) := by
    have hsingle := isOrder_sub fun p => -(hr p).singlehost.toInt
    simp only [neg_sub_neg] at hsingle
    exact (h.on fun p => (hr p).pre).andThen hsingle
  exact (hpre.andThen (isOrder_sub fun p => (hr p).rank)).congr
    fun p q => hostrangeCmp_sign hr p q (before p q)

/-- The suffixes 5 and 03, of different widths, and 10 with both of them. -/
theorem hostrangeCmp_isOrder_padded : IsOrder fun p q => (hostrangeCmp (fun _ _ => 0)
    ([(0, 2), (2, 1)].foldl (fun hr c => (hostrangeCmp (fun _ _ => 0) hr c.1 c.2).2)
      fun p => if p = 0 then ⟨[], 5, 1, false⟩ else if p = 1 then ⟨[], 3, 2, false⟩
        else ⟨[], 10, 2, false⟩) p q).1 :=
  hostrangeCmp_isOrder ⟨by simp, by simp⟩ _ fun _ _ => [(0, 2), (2, 1)]

end Slurm
