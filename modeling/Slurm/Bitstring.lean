import Slurm.Lib.Words

/-!
# Bitmaps

A bitmap is an array of words of 64 bits, as many as its size needs (`Bitstring`). The functions
that change one bit take a position below the size, and stop the program otherwise: their assertions
are in every build, because `assert.h` is included before `config.h` may turn them off. A function
that stops the program has no result here.

Ranges of bits are changed byte by byte, except for the bits of the first and of the last byte, and
two bitmaps are combined or compared word by word. Where the size is not a multiple of 64, the words
have more bits than the bitmap.

`bit_assign`, `bit_fill` and the lemmas after them say what each function does to the bits, those
after the last one included.
-/

namespace Slurm

open BitVec Nat

/-- `bitstr_t`. -/
@[ext]
structure Bitstring where
  bits : ℕ
  words : List (BitVec 64)
  length_words : words.length = (bits + 63) / 64
deriving DecidableEq

namespace Bitstring

/-- What `_assert_valid_size` allows. -/
def maxBits : ℕ := 0x40000000

/-- `_bit_mask`. -/
def bitMask (i : ℕ) : BitVec 64 := 1#64 <<< (i % 64)

variable (b c : Bitstring)

/-- The word that a bit is in. -/
def word (i : ℕ) : BitVec 64 := b.words[i / 64]?.getD 0

/-- A bit of the words. -/
def bit (i : ℕ) : Bool := b.word i &&& bitMask i != 0

/-- Replace a word. -/
def setWord (k : ℕ) (x : BitVec 64) : Bitstring :=
  ⟨b.bits, b.words.set k x, by rw [List.length_set, b.length_words]⟩

/-! ## Single bits -/

/-- `bit_alloc`. -/
def bitAlloc (n : ℕ) : Option Bitstring :=
  if n ≤ maxBits then some ⟨n, List.replicate ((n + 63) / 64) 0, List.length_replicate⟩ else none

/-- `bit_test`. -/
def bitTest (i : ℕ) : Option Bool := if i < b.bits then some (b.bit i) else none

/-- What `bit_set` and `bit_clear` do to a word. -/
def assign (v : Bool) (i : ℕ) : Bitstring :=
  b.setWord (i / 64) (if v then b.word i ||| bitMask i else b.word i &&& ~~~bitMask i)

/-- `bit_set`. -/
def bitSet (i : ℕ) : Option Bitstring := if i < b.bits then some (b.assign true i) else none

/-- `bit_clear`. -/
def bitClear (i : ℕ) : Option Bitstring := if i < b.bits then some (b.assign false i) else none

/-! ## Ranges -/

/-- Bits are assigned up to the first byte that begins in the range, of `n` bits from `start` on.
    What is left of the range is returned. -/
def fillHead (v : Bool) (b : Bitstring) (start : ℕ) : ℕ → Bitstring × ℕ × ℕ
  | 0 => (b, start, 0)
  | n + 1 =>
    if start % 8 > 0 then fillHead v (b.assign v start) (start + 1) n else (b, start, n + 1)

/-- Bits are assigned down to the last byte that ends in the range. -/
def fillTail (v : Bool) (b : Bitstring) (start : ℕ) : ℕ → Bitstring × ℕ
  | 0 => (b, 0)
  | n + 1 =>
    if (start + n + 1) % 8 > 0 then fillTail v (b.assign v (start + n)) start n else (b, n + 1)

/-- Byte `k` of the words. The lowest bits come first. -/
def setByte (k : ℕ) (x : BitVec 64) : Bitstring :=
  b.setWord (k / 8)
    (b.words[k / 8]?.getD 0 &&& ~~~(0xff#64 <<< (8 * (k % 8))) ||| x <<< (8 * (k % 8)))

/-- `memset` of `n` bytes. -/
def memset (x : BitVec 64) (b : Bitstring) (k : ℕ) : ℕ → Bitstring
  | 0 => b
  | n + 1 => memset x (b.setByte k x) (k + 1) n

/-- What `bit_nset` and `bit_nclear` do to `n` bits from `start` on. -/
def fill (v : Bool) (x : BitVec 64) (start n : ℕ) : Bitstring :=
  let (b, start, n) := fillHead v b start n
  let (b, n) := fillTail v b start n
  if n > 1 then memset x b (start / 8) (n / 8) else b

/-- `bit_nset`. -/
def bitNset (start stop : ℕ) : Option Bitstring :=
  if start < b.bits ∧ stop < b.bits then some (b.fill true 0xff start (stop + 1 - start)) else none

/-- `bit_nclear`, of the bits before `stop1`. -/
def bitNclear1 (start stop1 : ℕ) : Option Bitstring :=
  if start < b.bits ∧ 0 < stop1 ∧ stop1 - 1 < b.bits then
    some (b.fill false 0 start (stop1 - start))
  else none

/-- `bit_nclear`. -/
def bitNclear (start stop : ℕ) : Option Bitstring := b.bitNclear1 start (stop + 1)

/-! ## Words -/

theorem length_zipWith (f : BitVec 64 → BitVec 64 → BitVec 64) (h : b.bits = c.bits) :
    (List.zipWith f b.words c.words).length = (b.bits + 63) / 64 := by
  rw [List.length_zipWith, b.length_words, c.length_words, h, min_self]

/-- A loop over the words of two bitmaps of the same size. -/
def combine (f : BitVec 64 → BitVec 64 → BitVec 64) : Option Bitstring :=
  if h : b.bits = c.bits then some ⟨b.bits, List.zipWith f b.words c.words, b.length_zipWith c f h⟩
  else none

/-- `bit_and`. -/
def bitAnd : Option Bitstring := b.combine c (· &&& ·)

/-- `bit_and_not`. -/
def bitAndNot : Option Bitstring := b.combine c (· &&& ~~~ ·)

/-- `bit_or`. -/
def bitOr : Option Bitstring := b.combine c (· ||| ·)

/-- `bit_not`. -/
def bitNot : Bitstring :=
  ⟨b.bits, b.words.map (~~~ ·), by rw [List.length_map, b.length_words]⟩

/-- `bit_copy`. -/
def bitCopy : Option Bitstring := (bitAlloc b.bits).map fun _ => b

/-- `bit_realloc`. New words are zero. -/
def bitRealloc (n : ℕ) : Option Bitstring :=
  if n ≤ maxBits then
    some
      { bits := n
        words := (b.words ++ List.replicate ((n + 63) / 64) 0).take ((n + 63) / 64)
        length_words := by
          rw [List.length_take, List.length_append, List.length_replicate]
          exact min_eq_left (le_add_left _ _) }
  else none

/-- `bit_equal`. -/
def bitEqual : Bool := b.bits == c.bits && b.words == c.words

/-- `bit_super_set`. -/
def bitSuperSet : Option Bool :=
  if b.bits = c.bits then
    some ((List.zipWith (fun x y => x == x &&& y) b.words c.words).all id)
  else none

/-! ## Bits after each function -/

section

variable {b c} {i : ℕ}

theorem bit_eq (b : Bitstring) (i : ℕ) : b.bit i = Words.bit b.words i := by
  have hi : i % 64 < 64 := mod_lt _ (by decide)
  rw [bit, bitMask, word, Words.bit, ← twoPow_eq, and_twoPow]
  have hne : BitVec.twoPow 64 (i % 64) ≠ 0 := by
    intro h
    have hbit := congrArg (fun x => x.getLsbD (i % 64)) h
    simp [hi] at hbit
  cases BitVec.getLsbD (b.words[i / 64]?.getD 0) (i % 64) with
  | false => rfl
  | true => simpa using hne

/-- The position of a bit of the bitmap is in one of its words. -/
theorem div_lt (hi : i < b.bits) : i / 64 < b.words.length := by
  rw [b.length_words]
  omega

@[simp] theorem bits_assign (v : Bool) : (b.assign v i).bits = b.bits := rfl

theorem bit_assign (hi : i < b.bits) (v : Bool) (j : ℕ) :
    (b.assign v i).bit j = if j = i then v else b.bit j := by
  have hmod : i % 64 < 64 := mod_lt _ (by decide)
  rw [bit_eq, bit_eq, assign, setWord, Words.bit_set]
  by_cases hdiv : j / 64 = i / 64
  · -- The same word: only one of its bits is changed.
    have hsame : j % 64 = i % 64 ↔ j = i := by omega
    rw [if_pos ⟨hdiv, div_lt hi⟩, word, bitMask, ← twoPow_eq, Words.bit, hdiv]
    by_cases hji : j = i
    · subst hji
      cases v <;> simp [hmod]
    · have hne : j % 64 ≠ i % 64 := fun h => hji (hsame.1 h)
      cases v <;> simp [hji, hne, mod_lt j (by decide : 0 < 64)]
  · rw [if_neg fun h => hdiv h.1, if_neg fun h => hdiv (congrArg (· / 64) h)]

@[simp] theorem bits_setByte (k : ℕ) (x : BitVec 64) : (b.setByte k x).bits = b.bits := rfl

@[simp] theorem bits_memset (x : BitVec 64) (k n : ℕ) : (memset x b k n).bits = b.bits := by
  induction n generalizing b k with
  | zero => rfl
  | succ n ih => rw [memset, ih, bits_setByte]

/-- A byte of ones, or of zeros. -/
def byte (v : Bool) : BitVec 64 := if v then 0xff else 0

theorem getLsbD_ff (j : ℕ) : (0xff#64).getLsbD j = decide (j < 8) := by
  rw [getLsbD_ofNat, show (0xff : ℕ) = 2 ^ 8 - 1 from rfl, testBit_two_pow_sub_one]
  by_cases hj : j < 8
  · simp [hj, show j < 64 by omega]
  · simp [hj]

theorem getLsbD_byte (v : Bool) (j : ℕ) : (byte v).getLsbD j = (decide (j < 8) && v) := by
  cases v with
  | false => rw [Bool.and_false]; exact getLsbD_zero
  | true => rw [Bool.and_true]; exact getLsbD_ff j

theorem bit_setByte {k : ℕ} (hk : k / 8 < b.words.length) (v : Bool) :
    (b.setByte k (byte v)).bit i = if i / 8 = k then v else b.bit i := by
  rw [bit_eq, bit_eq, setByte, setWord, Words.bit_set]
  by_cases hdiv : i / 64 = k / 8
  · -- The same word: the byte is told by the place of the bit in it.
    have hmod : i % 64 < 64 := mod_lt _ (by decide)
    rw [if_pos ⟨hdiv, hk⟩, getLsbD_or, getLsbD_and, getLsbD_not,
      getLsbD_shiftLeft, getLsbD_shiftLeft, getLsbD_ff, getLsbD_byte, Words.bit, hdiv]
    by_cases hbyte : i / 8 = k
    · have h1 : ¬i % 64 < 8 * (k % 8) := by omega
      have h2 : i % 64 - 8 * (k % 8) < 8 := by omega
      simp [hbyte, h1, h2, hmod]
    · have h3 : i % 64 < 8 * (k % 8) ∨ ¬i % 64 - 8 * (k % 8) < 8 := by omega
      rcases h3 with h3 | h3 <;> simp [hbyte, h3, hmod]
  · rw [if_neg fun h => hdiv h.1, if_neg (by omega)]

theorem bit_memset (v : Bool) {k n : ℕ} (hk : k + n ≤ b.words.length * 8) :
    (memset (byte v) b k n).bit i = if k ≤ i / 8 ∧ i / 8 < k + n then v else b.bit i := by
  induction n generalizing b k with
  | zero => rw [memset, if_neg (by omega)]
  | succ n ih =>
    have hlen : (b.setByte k (byte v)).words.length = b.words.length := List.length_set
    rw [memset, ih (by rw [hlen]; omega), bit_setByte (by omega)]
    by_cases hfirst : i / 8 = k
    · rw [if_neg (by omega), if_pos hfirst, if_pos (by omega)]
    · rw [if_neg hfirst]
      exact if_congr (by omega) rfl rfl

section

variable (v : Bool) {start n : ℕ} (h : start + n ≤ b.bits)

include v h

/-- The bits before the first whole byte of a range. -/
theorem fillHead_spec :
    ∃ b' s' n', fillHead v b start n = (b', s', n') ∧ b'.bits = b.bits ∧ start ≤ s' ∧
      s' + n' = start + n ∧ (n' = 0 ∨ s' % 8 = 0) ∧
      ∀ i, b'.bit i = if start ≤ i ∧ i < s' then v else b.bit i := by
  induction n generalizing b start with
  | zero => exact ⟨b, start, 0, rfl, rfl, le_rfl, rfl, .inl rfl, fun i => by rw [if_neg (by omega)]⟩
  | succ n ih =>
    rw [fillHead]
    split_ifs with hmod
    · obtain ⟨b', s', n', heq, hbits, hle, hsum, hdone, hbit⟩ :=
        ih (b := b.assign v start) (by rw [bits_assign]; omega : start + 1 + n ≤ _)
      refine ⟨b', s', n', heq, hbits, by omega, by omega, hdone, fun i => ?_⟩
      rw [hbit, bit_assign (by omega)]
      by_cases hi : i = start
      · rw [if_neg (by omega), if_pos hi, if_pos (by omega)]
      · rw [if_neg hi]
        exact if_congr (by omega) rfl rfl
    · exact ⟨b, start, n + 1, rfl, rfl, le_rfl, rfl, .inr (by omega),
        fun i => by rw [if_neg (by omega)]⟩

/-- The bits after the last whole byte of a range. -/
theorem fillTail_spec :
    ∃ b' n', fillTail v b start n = (b', n') ∧ b'.bits = b.bits ∧ n' ≤ n ∧
      (n' = 0 ∨ (start + n') % 8 = 0) ∧
      ∀ i, b'.bit i = if start + n' ≤ i ∧ i < start + n then v else b.bit i := by
  induction n generalizing b with
  | zero => exact ⟨b, 0, rfl, rfl, le_rfl, .inl rfl, fun i => by rw [if_neg (by omega)]⟩
  | succ n ih =>
    rw [fillTail]
    split_ifs with hmod
    · obtain ⟨b', n', heq, hbits, hle, hdone, hbit⟩ :=
        ih (b := b.assign v (start + n)) (by rw [bits_assign]; omega)
      refine ⟨b', n', heq, hbits, by omega, hdone, fun i => ?_⟩
      rw [hbit, bit_assign (by omega)]
      by_cases hi : i = start + n
      · rw [if_neg (by omega), if_pos hi, if_pos (by omega)]
      · rw [if_neg hi]
        exact if_congr (by omega) rfl rfl
    · exact ⟨b, n + 1, rfl, rfl, le_rfl, .inr (by omega), fun i => by rw [if_neg (by omega)]⟩

/-- A range is filled, and nothing else is changed. -/
theorem fill_spec :
    (b.fill v (byte v) start n).bits = b.bits ∧ ∀ i, (b.fill v (byte v) start n).bit i =
        if start ≤ i ∧ i < start + n then v else b.bit i := by
  obtain ⟨b1, s1, n1, heq1, hbits1, hle1, hsum1, hdone1, hbit1⟩ := fillHead_spec v h
  obtain ⟨b2, n2, heq2, hbits2, hle2, hdone2, hbit2⟩ :=
    fillTail_spec v (show s1 + n1 ≤ b1.bits by omega)
  simp only [fill, heq1, heq2]
  have hlen : b2.words.length = (b.bits + 63) / 64 := by rw [b2.length_words, hbits2, hbits1]
  have hout (i : ℕ) (hmid : ¬(s1 ≤ i ∧ i < s1 + n2)) :
      b2.bit i = if start ≤ i ∧ i < start + n then v else b.bit i := by
    rw [hbit2, hbit1]
    by_cases htail : s1 + n2 ≤ i ∧ i < s1 + n1
    · rw [if_pos htail, if_pos (by omega)]
    · rw [if_neg htail]
      exact if_congr (by omega) rfl rfl
  split_ifs with hmore
  · -- The range that is left has whole bytes.
    refine ⟨by rw [bits_memset, hbits2, hbits1], fun i => ?_⟩
    rw [bit_memset v (by omega)]
    by_cases hmid : s1 ≤ i ∧ i < s1 + n2
    · rw [if_pos (by omega), if_pos (by omega)]
    · rw [if_neg (by omega), hout i hmid]
  · exact ⟨hbits2.trans hbits1, fun i => hout i (by omega)⟩

end

end

end Bitstring

end Slurm
