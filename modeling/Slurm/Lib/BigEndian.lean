import Mathlib.Tactic.Ring

/-!
# Numbers in network byte order

A number is written with the most significant byte first (`toBytes`), and read from its bytes
(`ofBytes`). What is read back is the number, as far as the bytes have room for it
(`ofBytes_toBytes`).
-/

namespace BigEndian

/-- The last `n` bytes of a number, the most significant first. -/
def toBytes : ℕ → ℕ → List UInt8
  | 0, _ => []
  | n + 1, v => UInt8.ofNat (v / 256 ^ n) :: toBytes n v

/-- The number that bytes stand for. -/
def ofBytes : List UInt8 → ℕ
  | [] => 0
  | x :: l => x.toNat * 256 ^ l.length + ofBytes l

@[simp] theorem length_toBytes (n v : ℕ) : (toBytes n v).length = n := by
  induction n with
  | zero => rfl
  | succ n ih => rw [toBytes, List.length_cons, ih]

theorem ofBytes_lt (l : List UInt8) : ofBytes l < 256 ^ l.length := by
  induction l with
  | nil => exact Nat.one_pos
  | cons x l ih =>
    have hx : x.toNat + 1 ≤ 256 := x.toNat_lt
    calc x.toNat * 256 ^ l.length + ofBytes l
        < x.toNat * 256 ^ l.length + 256 ^ l.length := by omega
      _ = (x.toNat + 1) * 256 ^ l.length := by ring
      _ ≤ 256 * 256 ^ l.length := Nat.mul_le_mul_right _ hx
      _ = 256 ^ (l.length + 1) := by ring

theorem ofBytes_toBytes (n v : ℕ) : ofBytes (toBytes n v) = v % 256 ^ n := by
  induction n with
  | zero => exact (Nat.mod_one v).symm
  | succ n ih =>
    rw [toBytes, ofBytes, ih, length_toBytes, Nat.mod_pow_succ, UInt8.toNat_ofNat']
    ring

end BigEndian
