import Slurm.Wire.Grow
import Slurm.Wire.Unpack

/-!
# Escaped strings

The daemon of the database unpacks strings with a backslash before each quote and backslash
(`escape_block`). No quote is left without one, and the string can be read back
(`unpackstrXmallocEscaped_exact`).
-/

namespace Slurm.Buf

open List BigEndian

/-- A byte of a string, escaped. -/
def escapeByte (x : UInt8) : List UInt8 := if x = backslash ∨ x = quote then [backslash, x] else [x]

/-- The string that an escaped one stands for, if no quote is without a backslash. -/
def unescape : (escaped : Bool) → List UInt8 → Option (List UInt8)
  | escaped, [] => if escaped then none else some []
  | true, x :: l => (unescape false l).map (x :: ·)
  | false, x :: l =>
    if x = quote then none
    else if x = backslash then unescape true l
    else (unescape false l).map (x :: ·)

variable {b : Buf} {s bytes tail : List UInt8} {size : ℕ}

theorem escape_block (hs : 0 ∉ s) : escape (s ++ [0]) = s.flatMap escapeByte := by
  induction s with
  | nil => rfl
  | cons x s ih =>
    rw [mem_cons, not_or] at hs
    rw [cons_append, escape, if_neg (Ne.symm hs.1), ih hs.2, flatMap_cons, escapeByte]
    split_ifs <;> rfl

theorem unescape_flatMap (s : List UInt8) : unescape false (s.flatMap escapeByte) = some s := by
  induction s with
  | nil => rfl
  | cons x s ih =>
    rw [flatMap_cons, escapeByte]
    split_ifs with hx
    · simp [unescape, ih, show backslash ≠ quote by decide]
    · rw [not_or] at hx
      simp [unescape, ih, hx]

theorem escapedSize_block (hs : 0 ∉ s) (hsize : size + s.length < 2 ^ 32) :
    escapedSize (s ++ [0]) size + s.length = size + (s.flatMap escapeByte).length := by
  induction s generalizing size with
  | nil => rfl
  | cons x s ih =>
    rw [mem_cons, not_or] at hs
    rw [length_cons] at hsize ⊢
    rw [cons_append, escapedSize, if_neg (Ne.symm hs.1), flatMap_cons, escapeByte, length_append]
    split_ifs
    · have hrest := @ih (size + 1) hs.2 (by omega)
      rw [Nat.mod_eq_of_lt (by omega), length_cons, length_singleton]
      omega
    · have hrest := @ih size hs.2 (by omega)
      rw [length_singleton]
      omega

theorem Good.read_append (h : b.Good) (hrest : b.rest = bytes ++ tail) :
    bytes.length ≤ b.remaining ∧ b.read bytes.length = some bytes ∧
      (b.advance bytes.length).Good ∧ (b.advance bytes.length).rest = tail ∧
      (b.advance bytes.length).processed = b.processed + bytes.length := by
  have hle : bytes.length ≤ b.remaining := by
    rw [h.remaining_eq, size, ← length_drop, ← rest, hrest, length_append]
    omega
  obtain ⟨hgood, hp⟩ := h.advance hle
  have hdrop : (b.advance bytes.length).rest = b.rest.drop bytes.length := rest_eq rfl hp
  refine ⟨hle, ?_, hgood, ?_, hp⟩
  · rw [h.read hle, hrest, take_left]
  · rw [hdrop, hrest, drop_left]

theorem Good.getBlock_eq (h : b.Good) (hne : bytes ≠ []) (hlen : bytes.length ≤ maxPackMemLen)
    (hrest : b.rest = blockBytes bytes ++ tail) : b.getBlock =
      some (some (some bytes), { b with processed := b.processed + (blockBytes bytes).length }) := by
  rw [blockBytes, append_assoc] at hrest
  obtain ⟨hle4, hread4, hgood4, hrest4, hp4⟩ := h.read_append hrest
  obtain ⟨hle, hread, -, -, hp⟩ := hgood4.read_append hrest4
  have hv : ofBytes (lengthBytes bytes.length) = bytes.length := by
    rw [lengthBytes, ofBytes_toBytes]
    exact Nat.mod_eq_of_lt (hlen.trans_lt (by decide))
  rw [length_lengthBytes] at *
  have hpos : 0 < bytes.length := length_pos_iff.2 hne
  simp only [getBlock, get, if_neg (not_lt.2 hle4), hread4, Option.map_some, andThen,
    Option.bind_some, hv, if_neg (not_lt.2 hlen), if_pos hpos, if_neg (not_lt.2 hle), hread]
  rw [blockBytes, length_append, length_lengthBytes, ← Nat.add_assoc, ← hp4, ← hp]
  rfl

/-- A string that was packed (`packstr`) is unpacked with a backslash more before each quote and
    backslash, and its size with the byte after it. -/
theorem unpackstrXmallocEscaped_exact (h : b.Good) (hs : 0 ∉ s)
    (hlen : s.length + 1 ≤ maxPackMemLen) (hrest : b.rest = blockBytes (s ++ [0]) ++ tail) :
    let text := s.flatMap escapeByte
    let b' : Buf := { b with processed := b.processed + (blockBytes (s ++ [0])).length }
    b.unpackstrXmallocEscaped = some (some (some (text ++ [0]), (text ++ [0]).length), b') ∧
      unescape false text = some s := by
  have hblock := h.getBlock_eq (by simp) (by simpa using hlen) hrest
  have hsize := @escapedSize_block s (s.length + 1) hs (by rw [maxPackMemLen] at hlen; omega)
  have hlength : escapedSize (s ++ [0]) (s ++ [0]).length =
      (s.flatMap escapeByte ++ [0]).length := by
    rw [length_append, length_append, length_singleton]
    omega
  refine ⟨?_, unescape_flatMap s⟩
  simp only [unpackstrXmallocEscaped, hblock, andThen, Option.bind_some, Option.map_some,
    escape_block hs, Option.elim_some, hlength]

/-- A string with a quote and a backslash at its end. -/
theorem unpackstrXmallocEscaped_exact_quote :
    let b : Buf := { head := [0, 0, 0, 4, 65, 39, 92, 0] }
    b.unpackstrXmallocEscaped =
      some (some (some [65, 92, 39, 92, 92, 0], 6), { b with processed := 8 }) := by
  exact (@unpackstrXmallocEscaped_exact _ [65, 39, 92] [] ⟨by decide, by decide⟩ (by decide)
    (by decide) (by decide)).1

end Slurm.Buf
