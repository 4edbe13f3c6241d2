import Mathlib.Algebra.Order.Group.Nat

/-!
# Bits in words

A list of words of `w` bits is a sequence of bits: bit `i` is in the word `i / w`, at the place
`i % w` (`bit`). Bits outside of the list are not set. A list of words is known from its length and
its bits (`ext`), and each change of words is given by what it does to the bits.
-/

namespace Words

open Nat List

variable {w : ℕ} {xs ys : List (BitVec w)} {i : ℕ}

/-- Bit `i` of a list of words. -/
def bit (ws : List (BitVec w)) (i : ℕ) : Bool := (ws[i / w]?.getD 0).getLsbD (i % w)

/-- Bits after the last word are not set. -/
theorem bit_of_le (hw : 0 < w) (hi : xs.length * w ≤ i) : bit xs i = false := by
  have hlen : xs.length ≤ i / w := (le_div_iff_mul_le hw).2 hi
  rw [bit, getElem?_eq_none hlen, Option.getD_none]
  exact BitVec.getLsbD_zero

/-- What replaces a word is read in its place. -/
theorem bit_set (k : ℕ) (x : BitVec w) :
    bit (xs.set k x) i = if i / w = k ∧ k < xs.length then x.getLsbD (i % w) else bit xs i := by
  rw [bit, getElem?_set]
  by_cases hk : i / w = k
  · subst hk
    by_cases hlen : i / w < xs.length
    · rw [if_pos rfl, if_pos hlen, if_pos ⟨rfl, hlen⟩, Option.getD_some]
    · rw [if_pos rfl, if_neg hlen, if_neg fun h => hlen h.2, bit, getElem?_eq_none (not_lt.1 hlen)]
  · rw [if_neg (Ne.symm hk), if_neg fun h => hk h.1, bit]

theorem bit_replicate (n : ℕ) : bit (List.replicate n (0 : BitVec w)) i = false := by
  rw [bit, getElem?_replicate]
  split_ifs <;> exact BitVec.getLsbD_zero

/-- An operation that works bit by bit, on words that are there on both sides. -/
theorem bit_zipWith {f : BitVec w → BitVec w → BitVec w} {g : Bool → Bool → Bool}
    (hf : ∀ x y k, k < w → (f x y).getLsbD k = g (x.getLsbD k) (y.getLsbD k))
    (hlen : xs.length = ys.length) (hi : i / w < xs.length) (hw : 0 < w) :
    bit (List.zipWith f xs ys) i = g (bit xs i) (bit ys i) := by
  rw [bit, bit, bit, getElem?_zipWith, getElem?_eq_getElem hi, getElem?_eq_getElem (hlen ▸ hi)]
  exact hf _ _ _ (mod_lt _ hw)

theorem bit_map_not (hi : i / w < xs.length) (hw : 0 < w) :
    bit (xs.map (~~~ ·)) i = !bit xs i := by
  rw [bit, bit, getElem?_map, getElem?_eq_getElem hi]
  simp [mod_lt i hw]

/-- Words that come after others are read after their bits. -/
theorem bit_append_replicate (n : ℕ) : bit (xs ++ List.replicate n 0) i = bit xs i := by
  by_cases hi : i / w < xs.length
  · rw [bit, bit, getElem?_append_left hi]
  · have hle := not_lt.1 hi
    rw [bit, bit, getElem?_append_right hle, getElem?_replicate, getElem?_eq_none hle]
    split_ifs <;> rfl

theorem bit_take {m : ℕ} (hi : i / w < m) : bit (xs.take m) i = bit xs i := by
  rw [bit, bit, getElem?_take_of_lt hi]

/-- Words are known from their bits. -/
theorem ext (hlen : xs.length = ys.length) (h : ∀ i, i / w < xs.length → bit xs i = bit ys i) :
    xs = ys := by
  refine ext_getElem hlen fun k hx hy => ?_
  refine BitVec.eq_of_getLsbD_eq fun j hj => ?_
  have hw : 0 < w := lt_of_le_of_lt (zero_le j) hj
  -- Bit `j` of word `k` is bit `k * w + j` of the list.
  have hdiv : (k * w + j) / w = k := by
    rw [add_comm, add_mul_div_right _ _ hw, div_eq_of_lt hj, zero_add]
  have hmod : (k * w + j) % w = j := by
    rw [add_comm, add_mul_mod_self_right, mod_eq_of_lt hj]
  have hbit := h (k * w + j) (by rwa [hdiv])
  simpa [bit, hdiv, hmod, hx, hy] using hbit

end Words
