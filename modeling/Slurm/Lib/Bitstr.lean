import Mathlib.Data.Finset.Card

/-!
# Bit strings of C

A bit string has a fixed size, and the bits that are set in it are below this size
(`Bitstr`). The functions on it keep that: a bit outside is not set (`Bitstr.set`).
-/

/-- The bits that are set in a bit string of a given size. -/
@[ext]
structure Bitstr where
  size : ℕ
  bits : Finset ℕ := ∅
  lt_size : ∀ i ∈ bits, i < size := by decide
  deriving DecidableEq

namespace Bitstr

open Finset

variable (b c : Bitstr) (i : ℕ)

/-- A bit string in which nothing is set (`bit_alloc`). -/
def alloc (n : ℕ) : Bitstr := { size := n, lt_size := fun _ h => absurd h (notMem_empty _) }

/-- Set a bit (`bit_set`). -/
def set : Bitstr where
  size := b.size
  bits := if i < b.size then insert i b.bits else b.bits
  lt_size k hk := by
    split at hk
    · next hi =>
      rcases mem_insert.1 hk with rfl | hk
      · exact hi
      · exact b.lt_size k hk
    · exact b.lt_size k hk

/-- Clear a bit (`bit_clear`). -/
def clear : Bitstr where
  size := b.size
  bits := b.bits.erase i
  lt_size k hk := b.lt_size k (mem_of_mem_erase hk)

/-- Change the size (`bit_realloc`). -/
def realloc (n : ℕ) : Bitstr where
  size := n
  bits := b.bits.filter (· < n)
  lt_size _ hk := (mem_filter.1 hk).2

/-- Set the bits of another bit string as well (`bit_or`). -/
def or : Bitstr where
  size := b.size
  bits := b.bits ∪ c.bits.filter (· < b.size)
  lt_size k hk := (mem_union.1 hk).elim (b.lt_size k) fun hk => (mem_filter.1 hk).2

/-- Keep the bits of another bit string only (`bit_and`). -/
def and : Bitstr where
  size := b.size
  bits := b.bits ∩ c.bits
  lt_size k hk := b.lt_size k (mem_inter.1 hk).1

/-- Clear the bits of another bit string (`bit_and_not`). -/
def andNot : Bitstr where
  size := b.size
  bits := b.bits \ c.bits
  lt_size k hk := b.lt_size k (mem_sdiff.1 hk).1

/-- The bits that are not set (`bit_not`). -/
def compl : Bitstr where
  size := b.size
  bits := Finset.range b.size \ b.bits
  lt_size _ hk := mem_range.1 (mem_sdiff.1 hk).1

/-- Set or clear the bits from `start` to `stop` (`bit_nset`, `bit_nclear`). -/
def fill (v : Bool) (start stop : ℕ) : Bitstr where
  size := b.size
  bits := (Finset.range b.size).filter fun i =>
    if start ≤ i ∧ i ≤ stop then v = true else i ∈ b.bits
  lt_size _ hk := mem_range.1 (mem_filter.1 hk).1

/-- The bits below a size that satisfy a test. -/
def ofTest (n : ℕ) (p : ℕ → Bool) : Bitstr where
  size := n
  bits := (Finset.range n).filter fun i => p i = true
  lt_size _ hk := mem_range.1 (mem_filter.1 hk).1

/-- The number of bits that are set in both (`bit_overlap`). -/
def overlap : ℕ := (b.bits ∩ c.bits).card

@[simp] theorem alloc_bits (n : ℕ) : (alloc n).bits = ∅ := rfl

@[simp] theorem clear_bits : (b.clear i).bits = b.bits.erase i := rfl

variable {b i} in
theorem set_bits (h : i < b.size) : (b.set i).bits = insert i b.bits := if_pos h

variable {b} in
/-- Nothing is lost by growing. -/
theorem realloc_bits {n : ℕ} (h : b.size ≤ n) : (b.realloc n).bits = b.bits :=
  filter_true_of_mem fun k hk => (b.lt_size k hk).trans_le h

@[simp] theorem mem_ofTest {n : ℕ} {p : ℕ → Bool} : i ∈ (ofTest n p).bits ↔ i < n ∧ p i = true := by
  rw [ofTest, mem_filter, mem_range]

@[simp] theorem mem_or : i ∈ (b.or c).bits ↔ i ∈ b.bits ∨ i ∈ c.bits ∧ i < b.size := by
  rw [or, mem_union, mem_filter]

@[simp] theorem mem_and : i ∈ (b.and c).bits ↔ i ∈ b.bits ∧ i ∈ c.bits := mem_inter

@[simp] theorem mem_andNot : i ∈ (b.andNot c).bits ↔ i ∈ b.bits ∧ i ∉ c.bits := mem_sdiff

end Bitstr
