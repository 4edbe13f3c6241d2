import Slurm.Bitstring
import Slurm.Lib.CString
import Slurm.Lib.Runs

/-!
# Searches for runs of bits

Three functions look for `n` set or clear bits in a row. `bit_nffs` stops where the last run could
start, but its loop is at the end of a run when it finds it: it misses a run that ends later
(`bitNffs_exact_iff`). `bit_noc` starts at a seed, and then once more at the first bit.
It finds a run if there is one (`bitNoc_exact`).
-/

namespace Slurm.Bitstring

open CString Runs

variable (b : Bitstring) (n seed : ℕ)

/-- Whether a bit is clear. -/
def clear (i : ℕ) : Bool := !b.bit i

/-- `bit_nffc`. There is no position where the source returns -1. -/
def bitNffc : Option (Option ℕ) :=
  if 0 < n ∧ n < b.bits then some (firstRun b.clear (fun _ => false) n b.bits 0 0) else none

/-- `bit_nffs`. -/
def bitNffs : Option (Option ℕ) :=
  if 0 < n ∧ n ≤ b.bits then some (firstRun b.bit (fun _ => false) n (b.bits - n + 1) 0 0)
  else none

/-- Where the search of `bit_noc` starts. The sum has 32 bits. -/
def nocSeed : ℕ := if (b.bits : ℤ) ≤ toInt (seed + n) then b.bits else seed

/-- `bit_noc`. The second search ends at the first bit from the seed on that is set. -/
def bitNoc : Option (Option ℕ) :=
  let seed := b.nocSeed n seed
  if 0 < n ∧ n ≤ b.bits then
    some ((firstRun b.clear (fun _ => false) n (b.bits - seed) seed 0).or
      (firstRun b.clear (fun i => decide (seed ≤ i)) n b.bits 0 0))
  else none

variable {b n seed}

/-- `bit_nffc` finds the first run, and `bit_nffs` does if the first run ends before the last
    position that it looks at. -/
theorem bitNffs_exact_iff (hn : 0 < n) (hle : n ≤ b.bits) :
    ((∃ o, b.bitNffs n = some o ∧ Finds o (runs b.bit n b.bits)) ∧
      (n < b.bits → ∃ o, b.bitNffc n = some o ∧ Finds o (runs b.clear n b.bits))) ↔
      ∀ p, IsLeast (runs b.bit n b.bits) p → p + n - 1 ≤ b.bits - n := by
  have hclear (hlt : n < b.bits) :
      ∃ o, b.bitNffc n = some o ∧ Finds o (runs b.clear n b.bits) :=
    ⟨_, if_pos ⟨hn, hlt⟩, finds_firstRun b.clear hn b.bits⟩
  simp only [bitNffs, if_pos (And.intro hn hle), Option.some.injEq, exists_eq_left',
    and_iff_left hclear]
  rw [(finds_firstRun b.bit hn _).widen_iff (by omega)]
  refine forall₂_congr fun p _ => ?_
  omega

theorem bitNffs_exact_iff_four :
    ∃ o, Bitstring.bitNffs ⟨4, [6], rfl⟩ 2 = some o ∧ Finds o (runs (bit ⟨4, [6], rfl⟩) 2 4) := by
  refine ((bitNffs_exact_iff (by decide) (by decide)).2 fun p hp => ?_).1
  have hle : p ≤ 1 := hp.2 ⟨by decide, by decide⟩
  dsimp only
  omega

/-- Two bits that are set are not found as a run of two. -/
theorem bitNffs_misses : ¬∀ (b : Bitstring) (n : ℕ), 0 < n → n ≤ b.bits →
    (∃ o, b.bitNffs n = some o ∧ Finds o (runs b.bit n b.bits)) ∧
      (n < b.bits → ∃ o, b.bitNffc n = some o ∧ Finds o (runs b.clear n b.bits)) := by
  intro h
  obtain ⟨⟨o, ho, hfinds⟩, -⟩ := h ⟨2, [3], rfl⟩ 2 (by decide) (by decide)
  obtain rfl : none = o := Option.some.inj ho
  have hrun : 0 ∈ runs (Bitstring.bit ⟨2, [3], rfl⟩) 2 2 := ⟨le_rfl, by decide⟩
  rwa [hfinds.2 rfl] at hrun

/-- `bit_noc` finds a run just if there is one, the first from the seed on if one is there. -/
theorem bitNoc_exact (hn : 0 < n) (hle : n ≤ b.bits) (hbits : b.bits ≤ maxBits) :
    ∃ o, b.bitNoc n seed = some o ∧ (o = none ↔ runs b.clear n b.bits = ∅) ∧
      (∀ p, o = some p → p ∈ runs b.clear n b.bits) ∧ (seed + n < b.bits → ∀ p,
        IsLeast {p ∈ runs b.clear n b.bits | seed ≤ p} p → o = some p) := by
  have hseed (hlt : seed + n < b.bits) : b.nocSeed n seed = seed := by
    rw [maxBits] at hbits
    rw [nocSeed, toInt_eq (by omega) (by omega), if_neg (by omega)]
  rw [bitNoc, if_pos ⟨hn, hle⟩]
  generalize b.nocSeed n seed = start at *
  have hfirst := finds_firstRun_from b.clear hn start b.bits
  refine ⟨_, rfl, ?_⟩
  cases hpass : firstRun b.clear (fun _ => false) n (b.bits - start) start 0 with
  | some p =>
    rw [hpass] at hfirst
    have hrun := (hfirst.1 p rfl).1.1
    refine ⟨iff_of_false (by simp) fun hempty => ?_, fun q hq => ?_, fun hlt q hq => ?_⟩
    · rwa [hempty] at hrun
    · rwa [← Option.some.inj hq]
    · rw [← hseed hlt] at hq
      exact hfirst.eq_some hq
  | none =>
    have hnone := hfirst.2 hpass
    have hsecond := finds_firstRun_until hn hnone
    refine ⟨hsecond.eq_none_iff, fun p hp => (hsecond.1 p hp).1, fun hlt p hp => ?_⟩
    rw [← hseed hlt, hnone] at hp
    exact absurd hp.1 (Set.notMem_empty p)

theorem bitNoc_exact_four : ∃ o, Bitstring.bitNoc ⟨4, [9], rfl⟩ 2 0 = some o ∧
    (o = none ↔ runs (clear ⟨4, [9], rfl⟩) 2 4 = ∅) := by
  obtain ⟨o, ho, hnone, -⟩ := @bitNoc_exact ⟨4, [9], rfl⟩ 2 0
    (by decide) (by decide) (by decide)
  exact ⟨o, ho, hnone⟩

end Slurm.Bitstring
