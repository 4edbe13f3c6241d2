import Slurm.Lib.Run
import Slurm.Wire

/-!
# How buffers grow

Numbers are packed into a good buffer without harm: they need a few bytes, and the buffer grows by a
constant that is far less than what the limit leaves below `2 ^ 32`.

The size that is needed for a block may exceed `2 ^ 32`, where it is counted modulo `2 ^ 32`. If it
then seems to be within the limit, the buffer gets smaller instead of larger, and bytes are written
after its end. Otherwise (`FitsMem`) a block is packed as a whole or not at all. So a run of packing
functions is right just if none of its steps meets such a size (`pack_right`).
-/

namespace Slurm

open List Option Nat Buf BigEndian

/-! ## Operations -/

/-- A call of a function that packs. -/
inductive PackOp
  | pack8 (v : UInt8)
  | pack16 (v : UInt16)
  | pack32 (v : UInt32)
  | pack64 (v : UInt64)
  | packTime (v : Int64)
  | packmem (data : List32 UInt8)
  | packstr (s : Option (List UInt8))
  | packstrArray (l : List32 (Option (List UInt8)))
  | packmemArray (data : List32 UInt8)
  | pack16Array (l : List32 UInt16)
  | pack32Array (l : List32 UInt32)
  | pack64Array (l : List32 UInt64)
  | pack64ArrayAs32 (l : List32 UInt64)

namespace Buf

variable {b b' : Buf} {need len n : ℕ} {src : List UInt8}

def pack (b : Buf) : PackOp → Option Buf
  | .pack8 v => b.pack8 v
  | .pack16 v => b.pack16 v
  | .pack32 v => b.pack32 v
  | .pack64 v => b.pack64 v
  | .packTime v => b.packTime v
  | .packmem data => b.packmem data
  | .packstr s => b.packstr s
  | .packstrArray l => b.packstrArray l
  | .packmemArray data => b.packmemArray data
  | .pack16Array l => b.pack16Array l
  | .pack32Array l => b.pack32Array l
  | .pack64Array l => b.pack64Array l
  | .pack64ArrayAs32 l => b.pack64ArrayAs32 l

/-- The bytes of a block, after its length. -/
def blockBytes (data : List UInt8) : List UInt8 := lengthBytes data.length ++ data

/-- Bytes have been packed after all others, or nothing has been done. -/
def Appends (bytes : List UInt8) (b b' : Buf) : Prop :=
  b' = b ∨ b'.contents = b.contents ++ bytes

/-- Blocks are packed as a whole or not at all, in arrays of strings too. -/
def Exact (b b' : Buf) : PackOp → Prop
  | .packmem data => Appends (blockBytes data.1) b b'
  | .packstr s => Appends (blockBytes (strBlock s).1) b b'
  | .packmemArray data => Appends data.1 b b'
  | .packstrArray l =>
    b' = b ∨ ∃ kept : List (Option (List UInt8)), kept.Sublist l.1 ∧ b'.contents =
      b.contents ++ (lengthBytes l.1.length ++ kept.flatMap fun s => blockBytes (strBlock s).1)
  | _ => True

/-- If the buffer has to grow, its new size is less than `2 ^ 32`, or found to exceed the limit. -/
def FitsMem (need len : ℕ) (b : Buf) : Prop :=
  b.remaining < need →
    b.size + len + bufSize < 2 ^ 32 ∨ (b.size + len + bufSize) % 2 ^ 32 > maxBufSize
  deriving Decidable

/-- The same, for a block that is not too large anyway. -/
def FitsBlock (data : List UInt8) (b : Buf) : Prop :=
  data.length ≤ maxPackMemLen → FitsMem (4 + data.length) data.length b
  deriving Decidable

/-- The same, for strings one after the other. -/
def FitsStrs : List (Option (List UInt8)) → Buf → Prop
  | [], _ => True
  | s :: l, b => FitsBlock (strBlock s).1 b ∧ ∀ b' ∈ b.packstr s, FitsStrs l b'

/-- A call that meets no size that has been counted modulo `2 ^ 32` and seems to be right. -/
def Fits (b : Buf) : PackOp → Prop
  | .packmem data => FitsBlock data.1 b
  | .packstr s => FitsBlock (strBlock s).1 b
  | .packmemArray data => FitsMem data.1.length data.1.length b
  | .packstrArray l => ∀ b' ∈ b.pack32 (UInt32.ofNat l.1.length), b' ≠ b → FitsStrs l.1 b'
  | _ => True

instance FitsStrs.decidable : ∀ l b, Decidable (FitsStrs l b)
  | [], _ => .isTrue trivial
  | s :: l, b =>
    have := FitsStrs.decidable l
    inferInstanceAs (Decidable (FitsBlock (strBlock s).1 b ∧ ∀ b' ∈ b.packstr s, FitsStrs l b'))

instance (b : Buf) : DecidablePred b.Fits
  | .packmem data => inferInstanceAs (Decidable (FitsBlock data.1 b))
  | .packstr s => inferInstanceAs (Decidable (FitsBlock (strBlock s).1 b))
  | .packmemArray data => inferInstanceAs (Decidable (FitsMem data.1.length data.1.length b))
  | .packstrArray l => inferInstanceAs (Decidable (∀ b' ∈ b.pack32 (UInt32.ofNat l.1.length),
      b' ≠ b → FitsStrs l.1 b'))
  | .pack8 _ | .pack16 _ | .pack32 _ | .pack64 _ | .packTime _ | .pack16Array _ | .pack32Array _
  | .pack64Array _ | .pack64ArrayAs32 _ => .isTrue trivial

/-! ## Writing -/

theorem write_eq_none (h : b.size < b.processed + src.length) : b.write src = none :=
  if_neg (not_le.2 h)

/-- What is written comes after all that has been packed. -/
theorem Good.write (h : b.Good) (hle : b.processed + src.length ≤ b.size) :
    ∃ b', b.write src = some b' ∧ b'.Good ∧ b'.size = b.size ∧
      b'.processed = b.processed + src.length ∧ b'.contents = b.contents ++ src := by
  have hsize := h.size_le
  simp only [maxBufSize] at hsize
  have hmod : (b.processed + src.length) % 2 ^ 32 = b.processed + src.length :=
    mod_eq_of_lt (by omega)
  have hlen : (b.head.take b.processed).length = b.processed := by
    rw [length_take]
    exact min_eq_left h.processed_le
  have hsize' : (b.head.take b.processed ++ src ++ b.head.drop (b.processed + src.length)).length =
      b.size := by
    rw [length_append, length_append, hlen, length_drop, ← size]
    omega
  refine ⟨_, if_pos hle, ⟨?_, ?_⟩, hsize', hmod, ?_⟩
  · rw [size, hsize']
    exact hmod.trans_le hle
  · rw [size, hsize']
    exact h.size_le
  · have hlen' : (b.head.take b.processed ++ src).length = b.processed + src.length := by
      rw [length_append, hlen]
    rw [contents, hmod]
    exact take_left' hlen'

@[simp] theorem processed_grow (n : ℕ) : (b.grow n).processed = b.processed := rfl

theorem size_grow (n : ℕ) (h : b.size + n < 2 ^ 32) : (b.grow n).size = b.size + n := by
  rw [size, grow, length_take, length_append, length_replicate, ← size, mod_eq_of_lt h, min_self]

/-- Growing leaves what has been packed. -/
theorem Good.grow (h : b.Good) (hn : b.size + n ≤ maxBufSize) :
    (b.grow n).Good ∧ (b.grow n).contents = b.contents := by
  have hlt : b.size + n < 2 ^ 32 := hn.trans_lt (by decide)
  have hsize := size_grow n hlt
  have hle := h.processed_le
  refine ⟨⟨?_, hsize ▸ hn⟩, ?_⟩
  · rw [hsize]
    exact hle.trans (le_add_right _ _)
  · rw [contents, processed_grow, Buf.grow, mod_eq_of_lt hlt, take_take,
      min_eq_left (hle.trans (le_add_right _ _)), take_append_of_le_length hle, contents]

/-- Bytes that are reserved are there, and nothing else has changed. -/
theorem Good.reserve (h : b.Good) (hneed : need ≤ len + bufSize) (hfits : FitsMem need len b) :
    b.reserve need len = none ∨ ∃ b', b.reserve need len = some b' ∧ b'.Good ∧
      b'.contents = b.contents ∧ b'.processed = b.processed ∧ b.processed + need ≤ b'.size := by
  have hle := h.processed_le
  rw [Buf.reserve]
  split_ifs with hrem hmax
  · exact .inl rfl
  · right
    have hlt := (hfits hrem).resolve_right hmax
    have hmax' : b.size + (len + bufSize) ≤ maxBufSize := by
      omega
    obtain ⟨hgood, hcontents⟩ := h.grow hmax'
    refine ⟨_, rfl, hgood, hcontents, processed_grow _, ?_⟩
    rw [size_grow _ (by omega)]
    omega
  · right
    rw [h.remaining_eq] at hrem
    exact ⟨b, rfl, h, rfl, rfl, by omega⟩

/-- If the new size is miscounted, the bytes that are reserved are not there. -/
theorem Good.reserve_short (h : b.Good) (hlen : len ≤ need) (hlt : len < 2 ^ 32)
    (hfits : ¬FitsMem need len b) :
    ∃ b', b.reserve need len = some b' ∧ b'.processed = b.processed ∧
      b'.size < b.processed + need ∧ b'.size < 2 ^ 32 := by
  rw [FitsMem, Classical.not_imp, not_or, h.remaining_eq] at hfits
  obtain ⟨hrem, hwrap, hmax⟩ := hfits
  rw [Buf.reserve, h.remaining_eq, if_pos hrem, if_neg hmax]
  refine ⟨_, rfl, processed_grow _, ?_⟩
  have hgrow : (b.grow (len + bufSize)).size ≤ (b.size + len + bufSize) % 2 ^ 32 := by
    rw [size, Buf.grow, length_take, ← add_assoc]
    exact min_le_left _ _
  simp only [bufSize, maxBufSize] at *
  omega

/-! ## Numbers -/

theorem fitsMem_zero (h : b.Good) (need : ℕ) : FitsMem need 0 b := by
  have hsize := h.size_le
  intro _
  simp only [bufSize, maxBufSize] at *
  omega

/-- What is written to a buffer that was grown for it is appended, or nothing is. -/
theorem Good.reserve_write (h : b.Good) (hneed : need ≤ len + bufSize) (hfits : FitsMem need len b)
    {write : Buf → Option Buf} {bytes : List UInt8}
    (hwrite : ∀ b1 : Buf, b1.Good → b1.processed + need ≤ b1.size →
      ∃ b2, write b1 = some b2 ∧ b2.Good ∧ b2.contents = b1.contents ++ bytes) :
    ∃ b', (b.reserve need len).elim (some b) write = some b' ∧ b'.Good ∧ Appends bytes b b' := by
  rcases h.reserve hneed hfits with hnone | ⟨b1, hsome, hgood, hcontents, hp, hroom⟩
  · rw [hnone, elim_none]
    exact ⟨b, rfl, h, .inl rfl⟩
  · rw [hsome, elim_some]
    obtain ⟨b2, hb2, hgood2, hcontents2⟩ := hwrite b1 hgood (hp ▸ hroom)
    exact ⟨b2, hb2, hgood2, .inr (by rw [hcontents2, hcontents])⟩

theorem Good.put (h : b.Good) {bytes : List UInt8} (hlen : bytes.length ≤ bufSize) :
    ∃ b', b.put bytes = some b' ∧ b'.Good ∧ Appends bytes b b' := by
  refine h.reserve_write (by omega) (fitsMem_zero h bytes.length) fun b1 hgood hroom => ?_
  obtain ⟨b2, hwrite, hgood2, -, -, hcontents⟩ := hgood.write hroom
  exact ⟨b2, hwrite, hgood2, hcontents⟩

/-- The bytes of a number are packed, or nothing is. -/
theorem Good.put_toBytes (h : b.Good) (hn : n ≤ 8) (v : ℕ) :
    ∃ b', b.put (toBytes n v) = some b' ∧ b'.Good ∧
      Appends (toBytes n v) b b' := by
  refine h.put ?_
  rw [length_toBytes]
  exact hn.trans (by decide)

section

variable {α : Type*} {pack : Buf → α → Option Buf}
  (hpack : ∀ b x, b.Good → ∃ b', pack b x = some b' ∧ b'.Good) (h : b.Good)

include hpack h

theorem Good.packEach (l : List α) :
    ∃ b', Buf.packEach pack b l = some b' ∧ b'.Good := by
  induction l generalizing b with
  | nil => exact ⟨b, rfl, h⟩
  | cons x l ih =>
    obtain ⟨b1, hb1, hgood⟩ := hpack b x h
    obtain ⟨b2, hb2, hgood2⟩ := ih hgood
    exact ⟨b2, by rw [packEach, hb1, bind_some, hb2], hgood2⟩

theorem Good.packArray (l : List32 α) :
    ∃ b', b.packArray pack l = some b' ∧ b'.Good := by
  obtain ⟨b1, hb1, hgood, -⟩ := h.put_toBytes (n := 4) (by decide) (UInt32.ofNat l.1.length).toNat
  obtain ⟨b2, hb2, hgood2⟩ := hgood.packEach hpack l.1
  exact ⟨b2, by rw [Buf.packArray, pack32, hb1, bind_some, hb2], hgood2⟩

end

/-! ## Blocks -/

theorem length_lengthBytes (n : ℕ) : (lengthBytes n).length = 4 := length_toBytes 4 n

/-- A block is written where there are bytes for it. -/
theorem Good.write_block (h : b.Good) {data : List UInt8}
    (hroom : b.processed + (4 + data.length) ≤ b.size) :
    ∃ b', ((b.write (lengthBytes data.length)).bind fun b =>
        if data.length = 0 then some b else b.write data) = some b' ∧
      b'.Good ∧ b'.contents = b.contents ++ blockBytes data := by
  obtain ⟨b1, hwrite, hgood, hsize, hp, hcontents⟩ :=
    h.write (show b.processed + (lengthBytes data.length).length ≤ b.size by
      rw [length_lengthBytes]; omega)
  rw [length_lengthBytes] at hp
  rw [hwrite, bind_some]
  split_ifs with hzero
  · refine ⟨b1, rfl, hgood, ?_⟩
    rw [hcontents, blockBytes, length_eq_zero_iff.1 hzero, append_nil]
  · obtain ⟨b2, hwrite2, hgood2, -, -, hcontents2⟩ :=
      hgood.write (show b1.processed + data.length ≤ b1.size by omega)
    refine ⟨b2, hwrite2, hgood2, ?_⟩
    rw [hcontents2, hcontents, blockBytes, append_assoc]

variable {data : List32 UInt8} {l : List (Option (List UInt8))}

/-- A block that fits is packed as a whole, or not at all. -/
theorem Good.packmem (h : b.Good) (hfits : FitsBlock data.1 b) :
    ∃ b', b.packmem data = some b' ∧ b'.Good ∧ Appends (blockBytes data.1) b b' := by
  rw [Buf.packmem]
  by_cases hmax : data.1.length > maxPackMemLen
  · rw [if_pos hmax]
    exact ⟨b, rfl, h, .inl rfl⟩
  · rw [if_neg hmax]
    exact h.reserve_write (by rw [bufSize]; omega) (hfits (not_lt.1 hmax)) fun b1 hgood hroom =>
      hgood.write_block hroom

/-- Two parts that do not fit together are not both written. -/
theorem write_bind_eq_none {s₁ s₂ : List UInt8} (hsize : b.size < 2 ^ 32)
    (h : b.size < b.processed + (s₁.length + s₂.length)) (hs₂ : s₂ ≠ []) :
    ((b.write s₁).bind fun b => if s₂.length = 0 then some b else b.write s₂) = none := by
  by_cases hle : b.processed + s₁.length ≤ b.size
  · rw [write, if_pos hle, bind_some, if_neg (mt length_eq_zero_iff.1 hs₂)]
    refine write_eq_none ?_
    have hmod : (b.processed + s₁.length) % 2 ^ 32 = b.processed + s₁.length :=
      mod_eq_of_lt (by omega)
    dsimp only [size]
    rw [hmod, length_append, length_append, length_take, length_drop, ← size]
    omega
  · rw [write, if_neg hle, bind_none]

/-- A block whose size is miscounted is written after the end of the buffer. -/
theorem Good.packmem_eq_none (h : b.Good) (hfits : ¬FitsBlock data.1 b) :
    b.packmem data = none := by
  rw [FitsBlock, Classical.not_imp] at hfits
  obtain ⟨b1, hsome, hp, hshort, hlt⟩ := h.reserve_short (le_add_left _ _) data.2 hfits.2
  have hne : data.1 ≠ [] := by
    intro hnil
    refine hfits.2 ?_
    rw [hnil]
    exact fitsMem_zero h _
  rw [Buf.packmem, if_neg (not_lt.2 hfits.1), hsome, elim_some]
  rw [write_bind_eq_none hlt (by rw [hp, length_lengthBytes]; exact hshort) hne]

theorem Good.packmemArray (h : b.Good) (hfits : FitsMem data.1.length data.1.length b) :
    ∃ b', b.packmemArray data = some b' ∧ b'.Good ∧ Appends data.1 b b' := by
  refine h.reserve_write (le_add_right _ _) hfits fun b1 hgood hroom => ?_
  obtain ⟨b2, hwrite, hgood2, -, -, hcontents⟩ := hgood.write hroom
  exact ⟨b2, hwrite, hgood2, hcontents⟩

theorem Good.packmemArray_eq_none (h : b.Good)
    (hfits : ¬FitsMem data.1.length data.1.length b) : b.packmemArray data = none := by
  obtain ⟨b1, hsome, hp, hshort, -⟩ := h.reserve_short le_rfl data.2 hfits
  rw [Buf.packmemArray, hsome, elim_some]
  exact write_eq_none (by rw [hp]; exact hshort)

/-! ## Arrays of strings -/

/-- The strings that are packed are some of those that should be. -/
theorem Good.packEach_packstr (h : b.Good) (hfits : FitsStrs l b) :
    ∃ b', Buf.packEach packstr b l = some b' ∧ b'.Good ∧
      ∃ kept : List (Option (List UInt8)), kept.Sublist l ∧
        b'.contents = b.contents ++ kept.flatMap fun s => blockBytes (strBlock s).1 := by
  induction l generalizing b with
  | nil => exact ⟨b, rfl, h, [], .slnil, by rw [flatMap_nil, append_nil]⟩
  | cons s l ih =>
    obtain ⟨b1, hb1, hgood, happ⟩ := h.packmem hfits.1
    obtain ⟨b2, hb2, hgood2, kept, hsub, hcontents⟩ := ih hgood (hfits.2 b1 hb1)
    have hsome : Buf.packEach packstr b (s :: l) = some b2 := by
      rw [Buf.packEach, packstr, hb1, bind_some, hb2]
    rcases happ with rfl | happ
    · exact ⟨b2, hsome, hgood2, kept, hsub.cons s, hcontents⟩
    · refine ⟨b2, hsome, hgood2, s :: kept, hsub.cons_cons s, ?_⟩
      rw [hcontents, happ, flatMap_cons, append_assoc]

theorem Good.packEach_packstr_eq_none (h : b.Good)
    (hfits : ¬FitsStrs l b) : Buf.packEach packstr b l = none := by
  induction l generalizing b with
  | nil => exact absurd trivial hfits
  | cons s l ih =>
    rw [Buf.packEach, packstr]
    by_cases hs : FitsBlock (strBlock s).1 b
    · obtain ⟨b1, hb1, hgood, -⟩ := h.packmem hs
      rw [hb1, bind_some]
      refine ih hgood fun hl => hfits ⟨hs, fun b' hb' => ?_⟩
      cases hb1.symm.trans hb'
      exact hl
    · rw [h.packmem_eq_none hs]
      rfl

/-- The length of an array is packed and its strings follow, or nothing is packed. -/
theorem Good.packstrArray_cases (h : b.Good) (l : List32 (Option (List UInt8))) :
    (b.packstrArray l = some b ∧ b.pack32 (UInt32.ofNat l.1.length) = some b) ∨
    ∃ b₁, b₁ ≠ b ∧ b.pack32 (UInt32.ofNat l.1.length) = some b₁ ∧ b₁.Good ∧
      b₁.contents = b.contents ++ lengthBytes l.1.length ∧
      b.packstrArray l = Buf.packEach packstr b₁ l.1 := by
  have hlen : (UInt32.ofNat l.1.length).toNat = l.1.length := UInt32.toNat_ofNat_of_lt' l.2
  rw [pack32, Buf.put, Buf.packstrArray, hlen, length_toBytes]
  rcases h.reserve (by decide) (fitsMem_zero h 4) with
    hnone | ⟨b₁, hsome, hgood, hcontents, hp, hroom⟩
  · rw [hnone, elim_none]
    exact .inl ⟨rfl, rfl⟩
  · rw [hsome, elim_some]
    obtain ⟨b2, hwrite, hgood2, -, hp2, hcontents2⟩ :=
      hgood.write (show b₁.processed + (lengthBytes l.1.length).length ≤ b₁.size by
        rw [length_lengthBytes]; omega)
    rw [length_lengthBytes] at hp2
    refine .inr ⟨b2, ?_, hwrite, hgood2, by rw [hcontents2, hcontents], ?_⟩
    · rintro rfl
      omega
    · rw [hwrite, bind_some]

/-! ## Runs -/

/-- The buffer after a call, if nothing has been written after its end. -/
def exec (s : Option Buf) (op : PackOp) : Option Buf := s.bind fun b => b.pack op

/-- A call writes nothing after the end of the buffer, leaves a good one, and packs blocks as a whole
    or not at all. -/
def Right (s : Option Buf) (op : PackOp) : Prop :=
  ∃ b b', s = some b ∧ b.pack op = some b' ∧ b'.Good ∧ Exact b b' op

/-- A call in a buffer that it fits. -/
def FitsIn (s : Option Buf) (op : PackOp) : Prop := ∀ b ∈ s, b.Fits op
  deriving Decidable

theorem Good.pack (h : b.Good) {op : PackOp} (hfits : b.Fits op) :
    ∃ b', b.pack op = some b' ∧ b'.Good ∧ Exact b b' op := by
  have hput : ∀ (b : Buf) (n v : ℕ), n ≤ 8 → b.Good →
      ∃ b', b.put (toBytes n v) = some b' ∧ b'.Good :=
    fun b n v hn h => (h.put_toBytes hn v).imp fun _ hb => ⟨hb.1, hb.2.1⟩
  have htrivial : ∀ r : Option Buf, (∃ b', r = some b' ∧ b'.Good) →
      ∃ b', r = some b' ∧ b'.Good ∧ True :=
    fun r hr => hr.imp fun _ hb => ⟨hb.1, hb.2, trivial⟩
  cases op with
  | pack8 v => exact htrivial _ (hput b 1 _ (by decide) h)
  | pack16 v => exact htrivial _ (hput b 2 _ (by decide) h)
  | pack32 v => exact htrivial _ (hput b 4 _ (by decide) h)
  | pack64 v => exact htrivial _ (hput b 8 _ (by decide) h)
  | packTime v => exact htrivial _ (hput b 8 _ (by decide) h)
  | packmem data => exact h.packmem hfits
  | packstr s => exact h.packmem hfits
  | packmemArray data => exact h.packmemArray hfits
  | pack16Array l =>
    exact htrivial _ (h.packArray (fun b _ => hput b 2 _ (by decide)) l)
  | pack32Array l =>
    exact htrivial _ (h.packArray (fun b _ => hput b 4 _ (by decide)) l)
  | pack64Array l =>
    exact htrivial _ (h.packArray (fun b _ => hput b 8 _ (by decide)) l)
  | pack64ArrayAs32 l =>
    exact htrivial _ (h.packArray (fun b _ => hput b 4 _ (by decide)) l)
  | packstrArray l =>
    rcases h.packstrArray_cases l with ⟨hsame, -⟩ | ⟨b1, hne, hb1, hgood, hcontents, heq⟩
    · exact ⟨b, hsame, h, .inl rfl⟩
    · obtain ⟨b2, hb2, hgood2, kept, hsub, hcontents2⟩ := hgood.packEach_packstr (hfits b1 hb1 hne)
      refine ⟨b2, heq.trans hb2, hgood2, .inr ⟨kept, hsub, ?_⟩⟩
      rw [hcontents2, hcontents, append_assoc]

/-- A call that does not fit writes after the end of the buffer. -/
theorem Good.pack_eq_none (h : b.Good) {op : PackOp} (hfits : ¬b.Fits op) : b.pack op = none := by
  cases op with
  | packmem data => exact h.packmem_eq_none hfits
  | packstr s => exact h.packmem_eq_none hfits
  | packmemArray data => exact h.packmemArray_eq_none hfits
  | packstrArray l =>
    rcases h.packstrArray_cases l with ⟨-, hsame⟩ | ⟨b1, hne, hb1, hgood, -, heq⟩
    · refine absurd (fun b' hb' hne => ?_) hfits
      cases hsame.symm.trans hb'
      exact absurd rfl hne
    · refine heq.trans (hgood.packEach_packstr_eq_none fun hl => hfits fun b' hb' _ => ?_)
      cases hb1.symm.trans hb'
      exact hl
  | _ => exact absurd trivial hfits

theorem good_init (h : Buf.init n = some b) : b.Good := by
  rw [init] at h
  split_ifs at h with hn hzero
  · cases h
    exact ⟨zero_le _, by rw [size, length_replicate]; decide⟩
  · cases h
    exact ⟨zero_le _, by rw [size, length_replicate]; exact not_lt.1 hn⟩

/-- From a new buffer on, every call writes within the buffer, leaves a good one, and packs blocks as
    a whole or not at all, just if none of the calls meets a size of `2 ^ 32` or more that seems to be
    within the limit. -/
theorem pack_right (n : ℕ) (b : Buf) (hb : Buf.init n = some b) (ops : List PackOp) :
    b.Good ∧ (Run.Admissible exec Right (some b) ops ↔ Run.Admissible exec FitsIn (some b) ops) := by
  have hgood := good_init hb
  refine ⟨hgood, Run.admissible_iff (I := fun s => ∃ b, s = some b ∧ b.Good) ?_ ?_ ⟨b, rfl, hgood⟩⟩
  · rintro s op ⟨b, rfl, h⟩
    constructor
    · rintro ⟨_, b', hs, hb', -⟩ _ hb
      cases hs
      cases hb
      by_contra hfits
      rw [h.pack_eq_none hfits] at hb'
      cases hb'
    · intro hfits
      obtain ⟨b', hb', hgood', hexact⟩ := h.pack (hfits b rfl)
      exact ⟨b, b', rfl, hb', hgood', hexact⟩
  · rintro s op ⟨b, rfl, h⟩ ⟨_, b', hs, hb', hgood', -⟩
    cases hs
    exact ⟨b', hb', hgood'⟩

/-- A number and a string are packed into a buffer of two bytes, which grows for the string. -/
theorem pack_right_strings :
    let b : Buf := { head := [0, 0] }
    let ops : List PackOp := [.pack8 7, .packstr (some [65])]
    Buf.init 2 = some b ∧ (∀ b' ∈ Run.run exec (some b) ops, b'.size = 2 + 2 + bufSize) ∧
      Run.Admissible exec FitsIn (some b) ops ∧ Run.Admissible exec Right (some b) ops := by
  have hfits : Run.Admissible exec FitsIn (some { head := [0, 0] })
    [.pack8 7, .packstr (some [65])] := by decide
  exact ⟨rfl, by decide +kernel, hfits, (pack_right 2 _ rfl _).2.2 hfits⟩

/-- A buffer of one byte shrinks to no bytes at all, when a block is packed that has
    `2 ^ 32 - 2 ^ 14 - 1` bytes, and all of them are written after its end. -/
theorem packmemArray_overrun :
    ∃ b op, Buf.init 1 = some b ∧ Run.run exec (some b) [op] = none ∧
      ¬Run.Admissible exec Right (some b) [op] := by
  obtain ⟨data, hlen⟩ : ∃ data : List32 UInt8, data.1.length = 0xffffbfff :=
    ⟨⟨List.replicate 0xffffbfff 0, by rw [length_replicate]; decide⟩, length_replicate⟩
  have hnone : ({ head := [0] } : Buf).packmemArray data = none := by
    refine Good.packmemArray_eq_none ⟨by decide, by decide⟩ ?_
    rw [hlen]
    decide
  refine ⟨{ head := [0] }, .packmemArray data, rfl, hnone, ?_⟩
  rintro ⟨⟨_, b', hs, hb', -⟩, -⟩
  cases hs
  rw [pack, hnone] at hb'
  cases hb'

end Buf

end Slurm
