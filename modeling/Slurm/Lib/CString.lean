import Mathlib.Algebra.Order.Ring.Int

/-!
# Strings and numbers of C

The functions of the C library on strings that parsers use, on the list of the
characters of a string. A function of C that returns a pointer into its string
returns here the rest of the string from there on.

`strtol` reads a number as `strtol(s, &end, 10)` does: it skips blanks, takes a
sign, reads as many digits as there are, and stays within a `long` of 64 bits.
Without a digit it reads nothing, and its rest is the whole string. A `long` is
then cut down to the type it is assigned to (`toInt`, `toUInt`). A number that
`%u` prints is read back as it was (`strtol_fmtU`).
-/

namespace CString

/-- `isspace`. -/
def isSpace (c : Char) : Bool := c = ' ' || (0x09 ≤ c.toNat && c.toNat ≤ 0x0d)

/-- The value of a sequence of digits. -/
def digitsVal (s : List Char) : ℕ := s.foldl (fun v c => 10 * v + (c.toNat - '0'.toNat)) 0

/-- A value within the range of a `long`. -/
def clampLong (v : ℤ) : ℤ := max (-2 ^ 63) (min v (2 ^ 63 - 1))

/-- The digits at the front of `s` as a number, negated if `neg`; if there are
    none, zero and the string `whole` the call was made on. -/
def strtolDigits (whole : List Char) (neg : Bool) (s : List Char) : ℤ × List Char :=
  match s.takeWhile Char.isDigit with
  | [] => (0, whole)
  | ds => (clampLong (if neg then -digitsVal ds else digitsVal ds), s.dropWhile Char.isDigit)

/-- `strtol(s, &end, 10)`: the number, and the string from `end` on. -/
def strtol (s : List Char) : ℤ × List Char :=
  match s.dropWhile isSpace with
  | '-' :: t => strtolDigits s true t
  | '+' :: t => strtolDigits s false t
  | t => strtolDigits s false t

variable {s rest t : List Char} {c : Char} {n : ℕ}

/-- A `long` assigned to an `int`. -/
def toInt (v : ℤ) : ℤ := (v + 2 ^ 31) % 2 ^ 32 - 2 ^ 31

/-- A number in the range of an `int` is as it was. -/
theorem toInt_eq {v : ℤ} (hle : -2 ^ 31 ≤ v) (hlt : v < 2 ^ 31) : toInt v = v := by
  unfold toInt
  omega

theorem toInt_bounds (v : ℤ) : -2 ^ 31 ≤ toInt v ∧ toInt v < 2 ^ 31 := by
  unfold toInt
  omega

/-- It differs from the number by a multiple of `2 ^ 32`. -/
theorem toInt_eq_add (v : ℤ) : ∃ k, toInt v = v + 2 ^ 32 * k :=
  ⟨-((v + 2 ^ 31) / 2 ^ 32), by unfold toInt; omega⟩

theorem toInt_add_mul (v k : ℤ) : toInt (v + 2 ^ 32 * k) = toInt v := by
  unfold toInt
  omega

/-- A sum that is cut down twice is cut down once. -/
theorem toInt_add_toInt (a b : ℤ) : toInt (a + toInt b) = toInt (a + b) := by
  obtain ⟨k, hk⟩ := toInt_eq_add b
  rw [hk, ← Int.add_assoc, toInt_add_mul]

theorem toInt_sub_toInt (a b : ℤ) : toInt (a - toInt b) = toInt (a - b) := by
  obtain ⟨k, hk⟩ := toInt_eq_add b
  rw [hk, show a - (b + 2 ^ 32 * k) = a - b + 2 ^ 32 * (-k) by omega, toInt_add_mul]

theorem toInt_toInt_mul (a b : ℤ) : toInt (toInt a * b) = toInt (a * b) := by
  obtain ⟨k, hk⟩ := toInt_eq_add a
  rw [hk, Int.add_mul, Int.mul_assoc, toInt_add_mul]

/-- A `long` assigned to a `uint32_t`. -/
def toUInt (v : ℤ) : ℕ := (v % 2 ^ 32).toNat

/-- `atoi`. -/
def atoi (s : List Char) : ℤ := toInt (strtol s).1

/-- `strstr(s, t)`: the string from the first occurrence of `t` on. -/
def strstr : List Char → List Char → Option (List Char)
  | [], t => if t.isEmpty then some [] else none
  | c :: s, t => if t.isPrefixOf (c :: s) then some (c :: s) else strstr s t

/-- The tokens `strtok_r` finds: what stands between separators and is not empty. -/
def strtok (sep : Char) (s : List Char) : List (List Char) :=
  (s.splitOn sep).filter fun t => !t.isEmpty

/-- `strncasecmp(s, w, strlen(w)) == 0`, for a word `w` in lower case. -/
def startsWith (s w : List Char) : Bool := w.isPrefixOf (s.map Char.toLower)

/-- A number as `%u` prints it. -/
def fmtU (n : ℕ) : List Char := Nat.toDigits 10 n

/-- A number of 32 bits as `%d` prints it. -/
def fmtD (n : ℕ) : List Char :=
  if toInt n < 0 then '-' :: fmtU (toInt n).natAbs else fmtU (toInt n).natAbs

/-! ## Numbers that were printed -/

theorem digitsVal_concat (s : List Char) (c : Char) :
    digitsVal (s ++ [c]) = 10 * digitsVal s + (c.toNat - '0'.toNat) := by
  rw [digitsVal, List.foldl_append]
  rfl

theorem digitsVal_fmtU (n : ℕ) : digitsVal (fmtU n) = n := by
  induction n using Nat.strong_induction_on with
  | _ n ih =>
    rw [fmtU, Nat.toDigits_eq_if (by decide)]
    split_ifs with hn
    · have hdigit := Nat.toNat_digitChar_sub_48_of_lt_ten hn
      simpa [digitsVal] using hdigit
    · have hdigit := Nat.toNat_digitChar_sub_48_of_lt_ten (Nat.mod_lt n (by decide : 0 < 10))
      have hdiv := ih (n / 10) (Nat.div_lt_self (by omega) (by decide))
      rw [fmtU] at hdiv
      rw [digitsVal_concat, hdiv]
      have hzero : '0'.toNat = 48 := rfl
      omega

theorem isDigit_of_mem_fmtU (h : c ∈ fmtU n) : c.isDigit :=
  Nat.isDigit_of_mem_toDigits (by decide) (by decide) h

theorem fmtU_ne_nil (n : ℕ) : fmtU n ≠ [] := List.ne_nil_of_length_pos Nat.length_toDigits_pos

theorem length_fmtU_pos (n : ℕ) : 0 < (fmtU n).length := List.length_pos_iff.2 (fmtU_ne_nil n)

/-- A string that does not go on with a digit. -/
def EndsDigits (rest : List Char) : Prop := ∀ c ∈ rest.head?, c.isDigit = false

theorem EndsDigits.takeWhile (h : EndsDigits rest) :
    rest.takeWhile Char.isDigit = [] ∧ rest.dropWhile Char.isDigit = rest := by
  cases rest with
  | nil => exact ⟨rfl, rfl⟩
  | cons c rest =>
    have hc : c.isDigit = false := h c rfl
    simp [hc]

theorem toNat_of_isDigit (h : c.isDigit) : 48 ≤ c.val.toNat ∧ c.val.toNat ≤ 57 := by
  simp only [Char.isDigit, Bool.and_eq_true, decide_eq_true_eq, ge_iff_le,
    UInt32.le_iff_toNat_le] at h
  exact h

/-- A digit is neither a blank nor a sign. -/
theorem isSpace_of_isDigit (h : c.isDigit) :
    isSpace c = false ∧ c ≠ '-' ∧ c ≠ '+' := by
  have hrange : 48 ≤ c.toNat ∧ c.toNat ≤ 57 := toNat_of_isDigit h
  refine ⟨?_, ?_, ?_⟩
  · have hblank : c ≠ ' ' := by
      rintro rfl
      exact absurd hrange.1 (by decide)
    simp only [isSpace, hblank, decide_false, Bool.false_or, Bool.and_eq_false_imp,
      decide_eq_true_eq, decide_eq_false_iff_not]
    omega
  · rintro rfl
    exact absurd hrange.1 (by decide)
  · rintro rfl
    exact absurd hrange.1 (by decide)

/-- A number that was printed is read back. -/
theorem EndsDigits.fmtU_append (h : EndsDigits rest) (n : ℕ) :
    (fmtU n ++ rest).takeWhile Char.isDigit = fmtU n ∧
      (fmtU n ++ rest).dropWhile Char.isDigit = rest := by
  have hall : ∀ c ∈ fmtU n, c.isDigit := fun c hc => isDigit_of_mem_fmtU hc
  rw [List.takeWhile_append_of_pos hall, List.dropWhile_append_of_pos hall, h.takeWhile.1,
    h.takeWhile.2, List.append_nil]
  exact ⟨rfl, rfl⟩

theorem strtol_fmtU (hn : n < 2 ^ 63) (h : EndsDigits rest) :
    strtol (fmtU n ++ rest) = ((n : ℤ), rest) := by
  obtain ⟨htake, hdrop⟩ := h.fmtU_append n
  have hval := digitsVal_fmtU n
  obtain ⟨d, ds, hd⟩ := List.exists_cons_of_ne_nil (fmtU_ne_nil n)
  have hdigit : d.isDigit := isDigit_of_mem_fmtU (by rw [hd]; exact List.mem_cons_self)
  obtain ⟨hspace, hminus, hplus⟩ := isSpace_of_isDigit hdigit
  have hread : strtolDigits (fmtU n ++ rest) false (fmtU n ++ rest) = ((n : ℤ), rest) := by
    have hclamp : clampLong n = n := by
      unfold clampLong
      omega
    rw [strtolDigits, htake, hdrop]
    split
    · rename_i hnil
      exact absurd hnil (fmtU_ne_nil n)
    · rw [hval, if_neg (by simp), hclamp]
  rw [strtol]
  have hskip : (fmtU n ++ rest).dropWhile isSpace = d :: (ds ++ rest) := by
    rw [hd, List.cons_append, List.dropWhile_cons_of_neg (by simp [hspace])]
  rw [hskip]
  split
  · rename_i heq
    exact absurd (List.cons.inj heq).1 hminus
  · rename_i heq
    exact absurd (List.cons.inj heq).1 hplus
  · rw [← List.cons_append, ← hd, hread]

theorem atoi_fmtU (hn : n < 2 ^ 31) (rest : List Char) (h : EndsDigits rest) :
    atoi (fmtU n ++ rest) = n := by
  rw [atoi, strtol_fmtU (by omega) h, toInt_eq (by omega) (by omega)]

theorem toLower_of_isDigit (h : c.isDigit) : c.toLower = c := by
  have hrange := toNat_of_isDigit h
  unfold Char.toLower
  rw [dif_neg]
  simp only [ge_iff_le, UInt32.le_iff_toNat_le]
  have hA : 'A'.val.toNat = 65 := rfl
  omega

/-- A string that starts with a digit does not start with a word. -/
theorem not_startsWith_of_isDigit {a : Char} (h : c.isDigit) (ha : a.isDigit = false)
    (s w : List Char) : startsWith (c :: s) (a :: w) = false := by
  have hne : a ≠ c := by
    rintro rfl
    rw [h] at ha
    cases ha
  simp [startsWith, List.isPrefixOf, toLower_of_isDigit h, hne]

theorem toUInt_natCast (hn : n < 2 ^ 32) : toUInt n = n := by
  unfold toUInt
  omega

theorem toUInt_lt (v : ℤ) : toUInt v < 2 ^ 32 := by
  unfold toUInt
  omega

/-- A string in which a character of `t` is missing does not hold `t`. -/
theorem strstr_eq_none (hc : c ∈ t) (hs : c ∉ s) :
    strstr s t = none := by
  induction s with
  | nil =>
    have hne : t ≠ [] := List.ne_nil_of_mem hc
    simp [strstr, hne]
  | cons a s ih =>
    have hpre : ¬t.isPrefixOf (a :: s) := fun h =>
      hs ((List.isPrefixOf_iff_prefix.1 h).subset hc)
    rw [strstr, if_neg hpre, ih fun h => hs (List.mem_cons_of_mem a h)]

/-- What `strstr` finds is an occurrence. -/
theorem strstr_eq_some (h : strstr s t = some rest) :
    ∃ pre post, s = pre ++ (t ++ post) ∧ rest = t ++ post := by
  induction s with
  | nil =>
    simp only [strstr, List.isEmpty_iff, Option.ite_none_right_eq_some, Option.some.injEq] at h
    exact ⟨[], [], by simp [h.1], by simp [h.1, ← h.2]⟩
  | cons c s ih =>
    rw [strstr] at h
    split_ifs at h with hpre
    · obtain ⟨post, hpost⟩ := List.isPrefixOf_iff_prefix.1 hpre
      cases h
      exact ⟨[], post, hpost.symm, hpost.symm⟩
    · obtain ⟨pre, post, hs, hrest⟩ := ih h
      exact ⟨c :: pre, post, by rw [hs]; rfl, hrest⟩

end CString
