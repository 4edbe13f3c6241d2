import Slurm.Bitstring
import Slurm.Lib.Bitstr
import Slurm.Lib.Run

/-!
# Bitmaps as sets of positions

A program has some bitmaps, and changes them one after the other (`BitOp`, `exec`). Each of them
stands for the set of the positions below its size that are set (`Bitstring.toBitstr`), and so the
program with bitmaps follows one with sets, where the same operations are made (`Bitstr.change`,
`Bitstr.combine`).

The bits after the last one of a bitmap should be clear (`Bitstring.Clean`): `bit_equal` and
`bit_super_set` compare them, and they come into the bitmap when it grows. `bit_not` sets them, and
they are left over when a bitmap shrinks within a word. As long as neither happens (`Keeps`), the
observers tell what the sets are (`bitmaps_are_sets`).
-/

namespace Slurm

open Option BitVec Bitstr Words

/-! ## Programs with bitmaps -/

/-- A change of one bitmap. -/
inductive BitChange
  | set (i : ℕ)
  | clear (i : ℕ)
  | nset (start stop : ℕ)
  | nclear (start stop : ℕ)
  | not
  | realloc (n : ℕ)
deriving DecidableEq

/-- A change of one bitmap by another. -/
inductive BitCombine
  | and
  | or
  | andNot
deriving DecidableEq

/-- What it does to a bit. -/
def BitCombine.onBit : BitCombine → Bool → Bool → Bool
  | .and, x, y => x && y
  | .or, x, y => x || y
  | .andNot, x, y => x && !y

/-- An operation of a program on its bitmaps, which are numbered. -/
inductive BitOp
  | alloc (n : ℕ)
  | change (k : ℕ) (c : BitChange)
  | combine (k l : ℕ) (c : BitCombine)
  | copy (k : ℕ)
deriving DecidableEq

/-- What has to be known of bitmaps, or of what they stand for, to run a program. -/
structure BitFns (α : Type*) where
  alloc : ℕ → Option α
  change : α → BitChange → Option α
  combine : α → α → BitCombine → Option α
  copy : α → Option α

namespace BitFns

variable {α β : Type*} (F : BitFns α) (G : BitFns β)

/-- Replace one of the bitmaps, if there is what replaces it. -/
def update (pool : List α) (k : ℕ) (f : α → Option α) : List α :=
  match pool[k]?.bind f with
  | some b => pool.set k b
  | none => pool

/-- An operation. One that stops the program changes nothing here. -/
def exec (pool : List α) : BitOp → List α
  | .alloc n => pool ++ (F.alloc n).toList
  | .change k c => update pool k fun b => F.change b c
  | .combine k l c => update pool k fun b => pool[l]?.bind fun b' => F.combine b b' c
  | .copy k => pool ++ (pool[k]?.bind F.copy).toList

variable {F G} {f : α → Option α} {pool : List α}

theorem forall_update {P : α → Prop} (h : ∀ b ∈ pool, P b) {k : ℕ}
    (hf : ∀ b b', pool[k]? = some b → f b = some b' → P b') :
    ∀ b ∈ update pool k f, P b := by
  rw [update]
  cases hk : pool[k]? with
  | none => exact h
  | some b =>
    dsimp only [bind_some]
    cases hb : f b with
    | none => exact h
    | some b' =>
      intro c hc
      rcases List.mem_or_eq_of_mem_set hc with hc | rfl
      · exact h c hc
      · exact hf b c hk hb

theorem map_update {φ : α → β} {k : ℕ} {g : β → Option β}
    (hfg : ∀ b, pool[k]? = some b → (f b).map φ = g (φ b)) :
    (update pool k f).map φ = update (pool.map φ) k g := by
  rw [update, update, List.getElem?_map]
  cases hk : pool[k]? with
  | none => rfl
  | some b =>
    dsimp only [map_some, bind_some]
    rw [← hfg b hk]
    cases f b with
    | none => rfl
    | some b' => exact List.map_set

end BitFns

namespace Bitstring

/-- A change of one bitmap. -/
def change (b : Bitstring) : BitChange → Option Bitstring
  | .set i => b.bitSet i
  | .clear i => b.bitClear i
  | .nset start stop => b.bitNset start stop
  | .nclear start stop => b.bitNclear start stop
  | .not => some b.bitNot
  | .realloc n => b.bitRealloc n

/-- A change of one bitmap by another. -/
def combineBy (b c : Bitstring) : BitCombine → Option Bitstring
  | .and => b.bitAnd c
  | .or => b.bitOr c
  | .andNot => b.bitAndNot c

def fns : BitFns Bitstring where
  alloc := bitAlloc
  change := change
  combine := combineBy
  copy := bitCopy

/-- The positions that are set. -/
def toBitstr (b : Bitstring) : Bitstr := Bitstr.ofTest b.bits b.bit

end Bitstring

namespace Positions

/-- What a change does to a set. -/
def change (b : Bitstr) : BitChange → Option Bitstr
  | .set i => if i < b.size then some (b.set i) else none
  | .clear i => if i < b.size then some (b.clear i) else none
  | .nset start stop =>
    if start < b.size ∧ stop < b.size then some (b.fill true start stop) else none
  | .nclear start stop =>
    if start < b.size ∧ stop < b.size then some (b.fill false start stop) else none
  | .not => some b.compl
  | .realloc n => if n ≤ Bitstring.maxBits then some (b.realloc n) else none

/-- What a way to combine bitmaps does to sets. -/
def combineSets (b c : Bitstr) : BitCombine → Bitstr
  | .and => b.and c
  | .or => b.or c
  | .andNot => b.andNot c

def combineBy (b c : Bitstr) (op : BitCombine) : Option Bitstr :=
  if b.size = c.size then some (combineSets b c op) else none

def alloc (n : ℕ) : Option Bitstr := if n ≤ Bitstring.maxBits then some (Bitstr.alloc n) else none

def copy (b : Bitstr) : Option Bitstr := if b.size ≤ Bitstring.maxBits then some b else none

def fns : BitFns Bitstr where
  alloc := alloc
  change := change
  combine := combineBy
  copy := copy

end Positions

/-! ## Bits after the last one -/

namespace Bitstring

variable {b b' c : Bitstring} {i n start stop : ℕ} {pool : List Bitstring} {op : BitCombine}

/-- The bits after the last one are clear. -/
def Clean (b : Bitstring) : Prop := ∀ i, b.bits ≤ i → b.bit i = false

theorem bitAlloc_eq_some (h : bitAlloc n = some b) :
    n ≤ maxBits ∧ b.bits = n ∧ ∀ i, b.bit i = false := by
  rw [bitAlloc] at h
  split_ifs at h with hn
  cases h
  exact ⟨hn, rfl, fun i => by rw [bit_eq]; exact bit_replicate _⟩

/-- After the words of a bitmap, nothing is set. -/
theorem bit_of_words_le (hi : b.words.length ≤ i / 64) : b.bit i = false := by
  rw [bit_eq]
  exact bit_of_le (by decide) (by omega)

theorem bit_bitNot (hi : i / 64 < b.words.length) : b.bitNot.bit i = !b.bit i := by
  rw [bit_eq, bit_eq, bitNot]
  exact bit_map_not hi (by decide)

theorem bitRealloc_eq_some (h : b.bitRealloc n = some b') :
    n ≤ maxBits ∧ b'.bits = n ∧
      ∀ i, b'.bit i = if i / 64 < (n + 63) / 64 then b.bit i else false := by
  rw [bitRealloc] at h
  split_ifs at h with hn
  cases h
  refine ⟨hn, rfl, fun i => ?_⟩
  split_ifs with hi
  · rw [bit_eq, bit_eq, bit_take hi, bit_append_replicate]
  · refine bit_of_words_le ?_
    rw [length_words]
    exact not_lt.1 hi

/-- An operation that works bit by bit, and leaves bits clear that are clear on both sides. -/
theorem combine_eq_some {f : BitVec 64 → BitVec 64 → BitVec 64} {g : Bool → Bool → Bool}
    (hf : ∀ x y k, k < 64 → (f x y).getLsbD k = g (x.getLsbD k) (y.getLsbD k))
    (hg : g false false = false) (h : b.combine c f = some b') :
    b.bits = c.bits ∧ b'.bits = b.bits ∧ ∀ i, b'.bit i = g (b.bit i) (c.bit i) := by
  rw [combine] at h
  split_ifs at h with hbits
  cases h
  have hlen : b.words.length = c.words.length := by rw [length_words, length_words, hbits]
  refine ⟨hbits, rfl, fun i => ?_⟩
  by_cases hi : i / 64 < b.words.length
  · rw [bit_eq, bit_eq, bit_eq]
    exact bit_zipWith hf hlen hi (by decide)
  · have hle := not_lt.1 hi
    have hb : b.bit i = false := bit_of_words_le hle
    have hc : c.bit i = false := bit_of_words_le (hlen ▸ hle)
    rw [hb, hc, hg]
    refine bit_of_words_le ?_
    rw [length_words, ← b.length_words]
    exact hle

theorem combineBy_eq_some (h : b.combineBy c op = some b') :
    b.bits = c.bits ∧ b'.bits = b.bits ∧ ∀ i, b'.bit i = op.onBit (b.bit i) (c.bit i) := by
  cases op with
  | and => exact combine_eq_some (fun x y k _ => getLsbD_and) rfl h
  | or => exact combine_eq_some (fun x y k _ => getLsbD_or) rfl h
  | andNot =>
    refine combine_eq_some (fun x y k hk => ?_) rfl h
    simp [hk, BitCombine.onBit]

/-- A range is filled. -/
theorem bitNfill_spec {v : Bool} (hstart : start < b.bits) (hstop : stop < b.bits) :
    (b.fill v (byte v) start (stop + 1 - start)).bits = b.bits ∧
      ∀ i, (b.fill v (byte v) start (stop + 1 - start)).bit i =
        if start ≤ i ∧ i ≤ stop then v else b.bit i := by
  obtain ⟨hbits, hbit⟩ := fill_spec v (show start + (stop + 1 - start) ≤ b.bits by omega)
  refine ⟨hbits, fun i => ?_⟩
  rw [hbit]
  exact if_congr (by omega) rfl rfl

/-! ### Each function follows the one on sets -/

@[simp] theorem size_toBitstr (b : Bitstring) : b.toBitstr.size = b.bits := rfl

theorem toBitstr_eq {x : Bitstr} (hsize : b.bits = x.size)
    (hbits : ∀ i < b.bits, b.bit i = true ↔ i ∈ x.bits) : b.toBitstr = x := by
  refine Bitstr.ext hsize (Finset.ext fun i => ?_)
  rw [toBitstr, mem_ofTest]
  constructor
  · rintro ⟨hi, hbit⟩
    exact (hbits i hi).1 hbit
  · intro hi
    have hlt : i < b.bits := hsize ▸ x.lt_size i hi
    exact ⟨hlt, (hbits i hlt).2 hi⟩

theorem mem_toBitstr : i ∈ b.toBitstr.bits ↔ i < b.bits ∧ b.bit i = true := mem_ofTest _

theorem toBitstr_assign (v : Bool) (hi : i < b.bits) :
    (b.assign v i).toBitstr = if v then b.toBitstr.set i else b.toBitstr.clear i := by
  refine toBitstr_eq (by cases v <;> rfl) fun j hj => ?_
  rw [bits_assign] at hj
  rw [bit_assign hi]
  by_cases hji : j = i
  · cases v <;> simp [hji, set_bits (b := b.toBitstr) hi]
  · cases v <;> simp [hji, set_bits (b := b.toBitstr) hi, mem_toBitstr, hj]

theorem toBitstr_fill (v : Bool) (hstart : start < b.bits) (hstop : stop < b.bits) :
    (b.fill v (byte v) start (stop + 1 - start)).toBitstr = b.toBitstr.fill v start stop := by
  obtain ⟨hbits, hbit⟩ := bitNfill_spec hstart hstop
  refine toBitstr_eq hbits fun i hi => ?_
  rw [hbits] at hi
  rw [hbit, Bitstr.fill, Finset.mem_filter, Finset.mem_range, size_toBitstr, mem_toBitstr]
  split_ifs <;> simp [hi]

theorem toBitstr_bitNot : b.bitNot.toBitstr = b.toBitstr.compl := by
  refine toBitstr_eq rfl fun i hi => ?_
  have hi' : i < b.bits := hi
  rw [bit_bitNot (div_lt hi'), Bitstr.compl, Finset.mem_sdiff, Finset.mem_range,
    size_toBitstr, mem_toBitstr]
  cases b.bit i <;> simp [hi']

theorem toBitstr_bitRealloc (hclean : b.Clean) :
    (b.bitRealloc n).map toBitstr = if n ≤ maxBits then some (b.toBitstr.realloc n) else none := by
  by_cases hn : n ≤ maxBits
  · obtain ⟨b', h⟩ : ∃ b', b.bitRealloc n = some b' := ⟨_, if_pos hn⟩
    obtain ⟨-, hbits, hbit⟩ := bitRealloc_eq_some h
    rw [h, if_pos hn, map_some]
    refine congrArg some (toBitstr_eq hbits fun i hi => ?_)
    rw [hbit, if_pos (by omega), Bitstr.realloc, Finset.mem_filter, mem_toBitstr]
    refine ⟨fun hset => ⟨⟨?_, hset⟩, hbits ▸ hi⟩, fun h => h.1.2⟩
    -- What is set is below the old size.
    by_contra hle
    rw [hclean i (not_lt.1 hle)] at hset
    cases hset
  · rw [if_neg hn, bitRealloc, if_neg hn]
    rfl

/-- Bitmaps whose bits after the last one are clear change as sets do. -/
theorem toBitstr_change (hclean : b.Clean) (ch : BitChange) :
    (b.change ch).map toBitstr = Positions.change b.toBitstr ch := by
  cases ch with
  | set i =>
    rw [change, Positions.change, bitSet, size_toBitstr]
    split_ifs with hi
    · exact congrArg some (toBitstr_assign true hi)
    · rfl
  | clear i =>
    rw [change, Positions.change, bitClear, size_toBitstr]
    split_ifs with hi
    · exact congrArg some (toBitstr_assign false hi)
    · rfl
  | nset start stop =>
    rw [change, Positions.change, bitNset, size_toBitstr]
    split_ifs with h
    · exact congrArg some (toBitstr_fill true h.1 h.2)
    · rfl
  | nclear start stop =>
    rw [change, Positions.change, bitNclear, bitNclear1, size_toBitstr]
    by_cases h : start < b.bits ∧ stop < b.bits
    · rw [if_pos h, if_pos (by omega)]
      exact congrArg some (toBitstr_fill false h.1 h.2)
    · rw [if_neg h, if_neg (by omega)]
      rfl
  | not => exact congrArg some toBitstr_bitNot
  | realloc n => exact toBitstr_bitRealloc hclean

theorem toBitstr_combineBy (op : BitCombine) :
    (b.combineBy c op).map toBitstr = Positions.combineBy b.toBitstr c.toBitstr op := by
  by_cases hbits : b.bits = c.bits
  · obtain ⟨b', h⟩ : ∃ b', b.combineBy c op = some b' := by
      cases op <;> exact ⟨_, dif_pos hbits⟩
    obtain ⟨-, hbits', hbit⟩ := combineBy_eq_some h
    have hsize : b'.bits = (Positions.combineSets b.toBitstr c.toBitstr op).size := by
      cases op <;> exact hbits'
    rw [h, Positions.combineBy, size_toBitstr, size_toBitstr, if_pos hbits]
    refine congrArg some (toBitstr_eq hsize fun i hi => ?_)
    rw [hbits'] at hi
    cases op <;>
      simp [hbit, BitCombine.onBit, Positions.combineSets, mem_toBitstr, hi, ← hbits]
  · have hnone : b.combineBy c op = none := by cases op <;> exact dif_neg hbits
    rw [hnone, Positions.combineBy, size_toBitstr, size_toBitstr, if_neg hbits]
    rfl

theorem toBitstr_bitAlloc (n : ℕ) : (bitAlloc n).map toBitstr = Positions.alloc n := by
  by_cases hn : n ≤ maxBits
  · obtain ⟨b, h⟩ : ∃ b, bitAlloc n = some b := ⟨_, if_pos hn⟩
    obtain ⟨-, hbits, hbit⟩ := bitAlloc_eq_some h
    rw [h, Positions.alloc, if_pos hn]
    refine congrArg some (toBitstr_eq hbits fun i _ => ?_)
    simp [hbit]
  · rw [bitAlloc, Positions.alloc, if_neg hn, if_neg hn]
    rfl

theorem toBitstr_bitCopy (b : Bitstring) : b.bitCopy.map toBitstr = Positions.copy b.toBitstr := by
  rw [bitCopy, map_map, bitAlloc, Positions.copy, size_toBitstr]
  split_ifs <;> rfl

/-! ### Which changes keep the bits after the last one clear -/

/-- A change after which the bits after the last one are clear: a bitmap is complemented only if it
    fills its words, and it shrinks only if the bits that stay in its last word are clear. -/
def Keeps (b : Bitstring) : BitChange → Prop
  | .not => b.bits % 64 = 0
  | .realloc n => ∀ i < b.bits, n ≤ i → i / 64 < (n + 63) / 64 → b.bitTest i = some false
  | _ => True

instance (b : Bitstring) : DecidablePred b.Keeps
  | .set _ | .clear _ | .nset _ _ | .nclear _ _ => .isTrue trivial
  | .not => inferInstanceAs (Decidable (b.bits % 64 = 0))
  | .realloc n => inferInstanceAs (Decidable (∀ i < b.bits, n ≤ i → i / 64 < (n + 63) / 64 →
      b.bitTest i = some false))

theorem Clean.of_bitCopy (hclean : b.Clean) (h : b.bitCopy = some b') : b'.Clean := by
  rw [bitCopy, map_eq_some_iff] at h
  obtain ⟨-, -, rfl⟩ := h
  exact hclean

theorem Clean.assign (hclean : b.Clean) (v : Bool) (hi : i < b.bits) : (b.assign v i).Clean := by
  intro j hj
  rw [bits_assign] at hj
  rw [bit_assign hi, if_neg (by omega), hclean j hj]

theorem Clean.fill (hclean : b.Clean) (v : Bool) (hstart : start < b.bits)
    (hstop : stop < b.bits) : (b.fill v (byte v) start (stop + 1 - start)).Clean := by
  obtain ⟨hbits, hbit⟩ := bitNfill_spec hstart hstop
  intro j hj
  rw [hbits] at hj
  rw [hbit, if_neg (by omega), hclean j hj]

theorem Clean.bitNot (hbits : b.bits % 64 = 0) : b.bitNot.Clean := by
  intro j hj
  have hj' : b.bits ≤ j := hj
  refine bit_of_words_le ?_
  rw [length_words]
  change (b.bits + 63) / 64 ≤ j / 64
  omega

theorem Clean.bitRealloc (hclean : b.Clean) (hkeeps : b.Keeps (.realloc n))
    (h : b.bitRealloc n = some b') : b'.Clean := by
  obtain ⟨-, hbits, hbit⟩ := bitRealloc_eq_some h
  intro j hj
  rw [hbit]
  split_ifs with hword
  · by_cases hold : j < b.bits
    · have htest := hkeeps j hold (hbits ▸ hj) hword
      rw [bitTest, if_pos hold] at htest
      exact some.inj htest
    · exact hclean j (not_lt.1 hold)
  · rfl

theorem Clean.change (hclean : b.Clean) {ch : BitChange} (hkeeps : b.Keeps ch)
    (h : b.change ch = some b') : b'.Clean := by
  cases ch with
  | set i =>
    rw [Bitstring.change, bitSet] at h
    split_ifs at h with hi
    cases h
    exact hclean.assign true hi
  | clear i =>
    rw [Bitstring.change, bitClear] at h
    split_ifs at h with hi
    cases h
    exact hclean.assign false hi
  | nset start stop =>
    rw [Bitstring.change, bitNset] at h
    split_ifs at h with hi
    cases h
    exact hclean.fill true hi.1 hi.2
  | nclear start stop =>
    rw [Bitstring.change, bitNclear, bitNclear1] at h
    split_ifs at h with hi
    cases h
    exact hclean.fill false hi.1 hi.2.2
  | not =>
    cases h
    exact Clean.bitNot hkeeps
  | realloc n => exact hclean.bitRealloc hkeeps h

theorem Clean.combineBy (hb : b.Clean) (hc : c.Clean)
    (h : b.combineBy c op = some b') : b'.Clean := by
  obtain ⟨hbits, hbits', hbit⟩ := combineBy_eq_some h
  intro j hj
  rw [hbits'] at hj
  rw [hbit, hb j hj, hc j (hbits ▸ hj)]
  cases op <;> rfl

/-! ### Observers -/

theorem bitEqual_iff (hb : b.Clean) (hc : c.Clean) :
    b.bitEqual c = true ↔ b.bits = c.bits ∧ ∀ i < b.bits, b.bitTest i = c.bitTest i := by
  rw [bitEqual, Bool.and_eq_true, beq_iff_eq, beq_iff_eq]
  refine and_congr_right fun hbits => ⟨fun hwords i _ => ?_, fun h => ?_⟩
  · rw [bitTest, bitTest, bit_eq, bit_eq, hbits, hwords]
  · refine ext (by rw [length_words, length_words, hbits]) fun i _ => ?_
    rw [← bit_eq, ← bit_eq]
    by_cases hi : i < b.bits
    · have htest := h i hi
      rw [bitTest, bitTest, if_pos hi, if_pos (hbits ▸ hi)] at htest
      exact some.inj htest
    · rw [hb i (not_lt.1 hi), hc i (hbits ▸ not_lt.1 hi)]

/-- The words that `bit_super_set` compares are all equal if one bitmap combined with the other is
    the same bitmap. -/
theorem all_zipWith_and {xs ys : List (BitVec 64)} (hlen : xs.length = ys.length) :
    (List.zipWith (fun x y => x == x &&& y) xs ys).all id = true ↔
      xs = List.zipWith (· &&& ·) xs ys := by
  induction xs generalizing ys with
  | nil => simp
  | cons x xs ih =>
    cases ys with
    | nil => cases hlen
    | cons y ys => simp [ih (Nat.succ.inj hlen)]

theorem bitSuperSet_iff (hb : b.Clean) (hbits : b.bits = c.bits) :
    b.bitSuperSet c = some true ↔
      ∀ i < b.bits, b.bitTest i = some true → c.bitTest i = some true := by
  have hlen : b.words.length = c.words.length := by rw [length_words, length_words, hbits]
  have hand : ∀ i, i / 64 < b.words.length →
      Words.bit (List.zipWith (· &&& ·) b.words c.words) i = (b.bit i && c.bit i) := by
    intro i hi
    rw [bit_eq, bit_eq]
    exact bit_zipWith (fun x y k _ => getLsbD_and) hlen hi (by decide)
  rw [bitSuperSet, if_pos hbits, some_inj, all_zipWith_and hlen]
  constructor
  · intro heq i hi htest
    rw [bitTest, if_pos hi, some_inj] at htest
    rw [bitTest, if_pos (hbits ▸ hi), some_inj]
    have hbit := hand i (div_lt hi)
    rw [← heq, ← bit_eq, htest, Bool.true_and] at hbit
    exact hbit.symm
  · intro h
    refine ext (by rw [List.length_zipWith, ← hlen, Nat.min_self]) fun i hi => ?_
    rw [hand i hi, ← bit_eq]
    cases hset : b.bit i with
    | false => rfl
    | true =>
      have hlt : i < b.bits := by
        by_contra hle
        rw [hb i (not_lt.1 hle)] at hset
        cases hset
      have htest := h i hlt (by rw [bitTest, if_pos hlt, hset])
      rw [bitTest, if_pos (hbits ▸ hlt), some_inj] at htest
      rw [htest]
      rfl

/-- What comes into a bitmap that grows is clear. -/
theorem bitTest_bitRealloc (hb : b.Clean) (h : b.bitRealloc n = some b') (hi : b.bits ≤ i)
    (hin : i < n) : b'.bitTest i = some false := by
  obtain ⟨-, hbits, hbit⟩ := bitRealloc_eq_some h
  rw [bitTest, if_pos (hbits ▸ hin), hbit, if_pos (by omega), hb i hi]

/-! ## Runs -/

/-- An operation that keeps the bits after the last one clear in all bitmaps. -/
def KeepsAll (pool : List Bitstring) : BitOp → Prop
  | .change k ch => ∀ b ∈ pool[k]?, b.Keeps ch
  | _ => True

instance (pool : List Bitstring) : DecidablePred (KeepsAll pool)
  | .change k ch => inferInstanceAs (Decidable (∀ b ∈ pool[k]?, b.Keeps ch))
  | .alloc _ | .combine _ _ _ | .copy _ => .isTrue trivial

theorem clean_exec (h : ∀ b ∈ pool, b.Clean) {op : BitOp}
    (hop : KeepsAll pool op) : ∀ b ∈ fns.exec pool op, b.Clean := by
  cases op with
  | alloc n =>
    intro b hb
    rcases List.mem_append.1 hb with hb | hb
    · exact h b hb
    · exact fun i _ => (bitAlloc_eq_some (mem_toList.1 hb)).2.2 i
  | change k ch =>
    exact BitFns.forall_update h fun b b' hk hb' =>
      (h b (List.mem_of_getElem? hk)).change (hop b hk) hb'
  | combine k l op =>
    refine BitFns.forall_update h fun b b' hk hb' => ?_
    obtain ⟨c, hc, hb'⟩ := bind_eq_some_iff.1 hb'
    exact (h b (List.mem_of_getElem? hk)).combineBy (h c (List.mem_of_getElem? hc)) hb'
  | copy k =>
    intro b hb
    rcases List.mem_append.1 hb with hb | hb
    · exact h b hb
    · obtain ⟨c, hc, hb'⟩ := bind_eq_some_iff.1 (mem_toList.1 hb)
      exact (h c (List.mem_of_getElem? hc)).of_bitCopy hb'

/-- One operation on bitmaps follows the same operation on sets. -/
theorem map_exec (h : ∀ b ∈ pool, b.Clean) (op : BitOp) :
    (fns.exec pool op).map toBitstr = Positions.fns.exec (pool.map toBitstr) op := by
  cases op with
  | alloc n =>
    rw [BitFns.exec, BitFns.exec, List.map_append, ← toList_map]
    exact congrArg (_ ++ Option.toList ·) (toBitstr_bitAlloc n)
  | change k ch =>
    exact BitFns.map_update fun b hk => toBitstr_change (h b (List.mem_of_getElem? hk)) ch
  | combine k l op =>
    refine BitFns.map_update fun b _ => ?_
    rw [List.getElem?_map]
    cases pool[l]? with
    | none => rfl
    | some c => exact toBitstr_combineBy op
  | copy k =>
    rw [BitFns.exec, BitFns.exec, List.map_append, ← toList_map, List.getElem?_map]
    refine congrArg (_ ++ Option.toList ·) ?_
    cases pool[k]? with
    | none => rfl
    | some c => exact toBitstr_bitCopy c

/-- In every run, along which bitmaps are complemented only if they fill their words and shrink only
    if the bits left over are clear, the bitmaps are those that the same run has with sets of
    positions. `bit_equal` and `bit_super_set` then compare these sets, and what a bitmap gains when
    it grows is clear. -/
theorem bitmaps_are_sets (ops : List BitOp) (hops : Run.Admissible fns.exec KeepsAll [] ops) :
    let pool := Run.run fns.exec [] ops
    pool.map toBitstr = Run.run Positions.fns.exec [] ops ∧
      (∀ a ∈ pool, ∀ b ∈ pool, a.bitEqual b = true ↔
        a.bits = b.bits ∧ ∀ i < a.bits, a.bitTest i = b.bitTest i) ∧
      (∀ a ∈ pool, ∀ b ∈ pool, a.bits = b.bits → (a.bitSuperSet b = some true ↔
        ∀ i < a.bits, a.bitTest i = some true → b.bitTest i = some true)) ∧
      ∀ b ∈ pool, ∀ n b', b.bitRealloc n = some b' →
        ∀ i, b.bits ≤ i → i < n → b'.bitTest i = some false := by
  intro pool
  have h0 : ∀ b ∈ ([] : List Bitstring), b.Clean := fun _ hb => absurd hb List.not_mem_nil
  have hclean : ∀ b ∈ pool, b.Clean :=
    Run.invariant_run (I := fun pool => ∀ b ∈ pool, b.Clean) (fun _ _ h hop => clean_exec h hop)
      h0 hops
  refine ⟨?_, fun a ha b hb => bitEqual_iff (hclean a ha) (hclean b hb),
    fun a ha b _ hbits => bitSuperSet_iff (hclean a ha) hbits,
    fun b hb n b' h i hi hin => bitTest_bitRealloc (hclean b hb) h hi hin⟩
  exact Run.map_run (φ := List.map toBitstr) (fun _ _ h hop => clean_exec h hop)
    (fun _ op h _ => map_exec h op) h0 hops

/-- A bitmap of ten bits grows to 70 bits, and is compared with its copy. -/
theorem bitmaps_are_sets_ten :
    let ops : List BitOp := [.alloc 10, .change 0 (.nset 3 9), .change 0 (.realloc 70), .copy 0]
    Run.Admissible fns.exec KeepsAll [] ops ∧
      ((Run.run fns.exec [] ops).map toBitstr).length = 2 ∧
      ∀ a ∈ Run.run fns.exec [] ops, ∀ b ∈ Run.run fns.exec [] ops, a.bitEqual b = true ↔
        a.bits = b.bits ∧ ∀ i < a.bits, a.bitTest i = b.bitTest i := by
  have hops : Run.Admissible fns.exec KeepsAll []
    [.alloc 10, .change 0 (.nset 3 9), .change 0 (.realloc 70), .copy 0] := by decide
  exact ⟨hops, by decide, (bitmaps_are_sets _ hops).2.1⟩

/-- The complement of an empty bitmap of ten bits, and a bitmap of ten bits where all are set, agree
    at every position, and are not equal; one is not found to be a superset of the other; and the
    complement grows by bits that are set. -/
theorem complement_not_equal :
    let pool := Run.run fns.exec []
      [.alloc 10, .change 0 .not, .alloc 10, .change 1 (.nset 0 9), .copy 0,
        .change 2 (.realloc 12)]
    ∃ a b c, pool = [a, b, c] ∧ a.bits = 10 ∧ b.bits = 10 ∧
      (∀ i < 10, a.bitTest i = some true ∧ b.bitTest i = some true) ∧
      a.bitEqual b = false ∧ a.bitSuperSet b = some false ∧ c.bitTest 10 = some true := by
  refine ⟨_, _, _, rfl, rfl, rfl, ?_⟩
  decide

end Bitstring

end Slurm
