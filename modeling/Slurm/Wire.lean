import Slurm.Lib.BigEndian

/-!
# Buffers for messages

Values are packed into a buffer one after the other, and unpacked from it in the same order. A
buffer has some bytes (`Buf.head`), of which the first ones have been written or read
(`Buf.processed`); its size is the number of its bytes. Sizes are counted modulo `2 ^ 32`. A
function that packs a value gets more bytes for the buffer if it needs them, and packs nothing if
this would exceed a limit (`Buf.reserve`). A function that unpacks a value returns an error if the
bytes it needs are not there.

A function that reads or writes a byte after the last one of the buffer has no result here: the
outer `none` of `Option Buf` and of `Option (Option α × Buf)`. The inner `none` is `SLURM_ERROR`.
New bytes are zero here, although `xrealloc_nz` leaves open what they are.
-/

namespace Slurm

/-- `BUF_SIZE`. -/
def bufSize : ℕ := 16 * 1024

/-- `MAX_BUF_SIZE`. -/
def maxBufSize : ℕ := 0xffff0000

/-- `MAX_PACK_ARRAY_LEN`. -/
def maxPackArrayLen : ℕ := 128 * 1024

/-- `MAX_PACK_MEM_LEN`. -/
def maxPackMemLen : ℕ := 1024 * 1024 * 1024

/-- `struct slurm_buf`. -/
structure Buf where
  head : List UInt8
  processed : ℕ := 0
deriving DecidableEq

/-- Bytes in memory, or other values in an array, that are counted with 32 bits. -/
abbrev List32 (α : Type*) := {l : List α // l.length < 2 ^ 32}

namespace Buf

variable (b : Buf)

/-- `size_buf`. -/
def size : ℕ := b.head.length

/-- `remaining_buf`. -/
def remaining : ℕ := (b.size + 2 ^ 32 - b.processed) % 2 ^ 32

/-- The bytes that have been packed. -/
def contents : List UInt8 := b.head.take b.processed

/-- The bytes that have not been unpacked. -/
def rest : List UInt8 := b.head.drop b.processed

/-- `init_buf`. -/
def init (size : ℕ) : Option Buf :=
  if size > maxBufSize then none
  else some { head := List.replicate (if size = 0 then bufSize else size) 0 }

/-- `create_buf`. -/
def create (data : List UInt8) : Option Buf :=
  if data.length > maxBufSize then none else some { head := data }

/-- A good buffer: what has been packed or unpacked is in it, and its size is within the limit. -/
structure Good : Prop where
  processed_le : b.processed ≤ b.size
  size_le : b.size ≤ maxBufSize

variable {b} in
theorem Good.remaining_eq (h : b.Good) : b.remaining = b.size - b.processed := by
  have hle := h.processed_le
  have hsize := h.size_le
  simp only [maxBufSize] at hsize
  rw [remaining]
  omega

/-! ## Packing -/

/-- `xrealloc_nz` of the bytes, after `n` has been added to the size. -/
def grow (n : ℕ) : Buf :=
  { b with head := (b.head ++ List.replicate n 0).take ((b.size + n) % 2 ^ 32) }

/-- Get `need` bytes, where a value has `len` bytes that are counted for the new size. -/
def reserve (need len : ℕ) : Option Buf :=
  if b.remaining < need then
    if (b.size + len + bufSize) % 2 ^ 32 > maxBufSize then none else some (b.grow (len + bufSize))
  else some b

/-- `memcpy` into the buffer. -/
def write (src : List UInt8) : Option Buf :=
  if b.processed + src.length ≤ b.size then
    some
      { head := b.head.take b.processed ++ src ++ b.head.drop (b.processed + src.length)
        processed := (b.processed + src.length) % 2 ^ 32 }
  else none

/-- Pack bytes of a number. -/
def put (bytes : List UInt8) : Option Buf :=
  (b.reserve bytes.length 0).elim (some b) fun b => b.write bytes

/-- `pack8`. -/
def pack8 (v : UInt8) : Option Buf := b.put (BigEndian.toBytes 1 v.toNat)

/-- `pack16`. -/
def pack16 (v : UInt16) : Option Buf := b.put (BigEndian.toBytes 2 v.toNat)

/-- `pack32`. -/
def pack32 (v : UInt32) : Option Buf := b.put (BigEndian.toBytes 4 v.toNat)

/-- `pack64`. -/
def pack64 (v : UInt64) : Option Buf := b.put (BigEndian.toBytes 8 v.toNat)

/-- `pack_time`. -/
def packTime (v : Int64) : Option Buf := b.put (BigEndian.toBytes 8 v.toUInt64.toNat)

/-- The bytes before a block: its length. -/
def lengthBytes (n : ℕ) : List UInt8 := BigEndian.toBytes 4 n

/-- `packmem`. -/
def packmem (data : List32 UInt8) : Option Buf :=
  if data.1.length > maxPackMemLen then some b
  else
    (b.reserve (4 + data.1.length) data.1.length).elim (some b) fun b =>
      (b.write (lengthBytes data.1.length)).bind fun b =>
        if data.1.length = 0 then some b else b.write data.1

/-- `packmem_array`. -/
def packmemArray (data : List32 UInt8) : Option Buf :=
  (b.reserve data.1.length data.1.length).elim (some b) fun b => b.write data.1

/-- What `packstr` takes for the block of a string: the string with the byte after it, where the
    length is counted with 32 bits. -/
def strBlock : Option (List UInt8) → List32 UInt8
  | none => ⟨[], by decide⟩
  | some s =>
    ⟨(s ++ [0]).take ((s.length + 1) % 2 ^ 32), by
      rw [List.length_take]
      exact (Nat.min_le_left _ _).trans_lt (Nat.mod_lt _ (by decide))⟩

/-- `packstr`. -/
def packstr (s : Option (List UInt8)) : Option Buf := b.packmem (strBlock s)

/-- Pack values one after the other. -/
def packEach {α : Type*} (pack : Buf → α → Option Buf) : Buf → List α → Option Buf
  | b, [] => some b
  | b, x :: l => (pack b x).bind fun b => packEach pack b l

/-- `packstr_array`. -/
def packstrArray (l : List32 (Option (List UInt8))) : Option Buf :=
  (b.reserve 4 0).elim (some b) fun b =>
    (b.write (lengthBytes l.1.length)).bind fun b => packEach packstr b l.1

/-- An array of numbers, after its length. -/
def packArray {α : Type*} (pack : Buf → α → Option Buf) (l : List32 α) : Option Buf :=
  (b.pack32 (UInt32.ofNat l.1.length)).bind fun b => packEach pack b l.1

/-- `pack16_array`. -/
def pack16Array (l : List32 UInt16) : Option Buf := b.packArray pack16 l

/-- `pack32_array`. -/
def pack32Array (l : List32 UInt32) : Option Buf := b.packArray pack32 l

/-- `pack64_array`. -/
def pack64Array (l : List32 UInt64) : Option Buf := b.packArray pack64 l

/-- `pack64_array_as_32`. -/
def pack64ArrayAs32 (l : List32 UInt64) : Option Buf :=
  b.packArray (fun b v => b.pack32 v.toUInt32) l

/-! ## Unpacking -/

/-- Bytes at the place where the buffer is read. -/
def read (n : ℕ) : Option (List UInt8) :=
  if b.processed + n ≤ b.size then some (b.rest.take n) else none

/-- The buffer after bytes have been read. -/
def advance (n : ℕ) : Buf := { b with processed := (b.processed + n) % 2 ^ 32 }

/-- Read a number of `n` bytes. -/
def get (n : ℕ) : Option (Option ℕ × Buf) :=
  if b.remaining < n then some (none, b)
  else (b.read n).map fun bytes => (some (BigEndian.ofBytes bytes), b.advance n)

/-- Go on with what has been unpacked, unless it was an error. -/
def andThen {α β : Type*} (r : Option (Option α × Buf)) (f : α → Buf → Option (Option β × Buf)) :
    Option (Option β × Buf) :=
  r.bind fun
    | (none, b) => some (none, b)
    | (some x, b) => f x b

/-- `unpack8`. -/
def unpack8 : Option (Option UInt8 × Buf) := andThen (b.get 1) fun v b => some (UInt8.ofNat v, b)

/-- `unpack16`. -/
def unpack16 : Option (Option UInt16 × Buf) := andThen (b.get 2) fun v b => some (UInt16.ofNat v, b)

/-- `unpack32`. -/
def unpack32 : Option (Option UInt32 × Buf) := andThen (b.get 4) fun v b => some (UInt32.ofNat v, b)

/-- `unpack64`. -/
def unpack64 : Option (Option UInt64 × Buf) := andThen (b.get 8) fun v b => some (UInt64.ofNat v, b)

/-- `unpack_time`. -/
def unpackTime : Option (Option Int64 × Buf) :=
  andThen (b.get 8) fun v b => some ((UInt64.ofNat v).toInt64, b)

/-- The length of a block, and its bytes. There is no memory for a block without bytes. -/
def getBlock : Option (Option (Option (List UInt8)) × Buf) :=
  andThen (b.get 4) fun n b =>
    if n > maxPackMemLen then some (none, b)
    else if n > 0 then
      if b.remaining < n then some (none, b)
      else (b.read n).map fun bytes => (some (some bytes), b.advance n)
    else some (some none, b)

/-- `unpackmem_ptr`. -/
def unpackmemPtr : Option (Option (Option (List UInt8)) × Buf) := b.getBlock

/-- `unpackmem_xmalloc`. -/
def unpackmemXmalloc : Option (Option (Option (List UInt8)) × Buf) := b.getBlock

/-- `unpackmem`. The first byte of the memory is cleared if the block has no bytes. -/
def unpackmem : Option (Option (List UInt8) × Buf) :=
  andThen b.getBlock fun data b => some (some (data.getD [0]), b)

/-- A backslash. -/
def backslash : UInt8 := 92

/-- A single quote. -/
def quote : UInt8 := 39

/-- The bytes of a string, with a backslash before each quote and backslash. -/
def escape : List UInt8 → List UInt8
  | [] => []
  | x :: l =>
    if x = 0 then []
    else if x = backslash ∨ x = quote then backslash :: x :: escape l
    else x :: escape l

/-- `*size_valp` after the loop of `unpackstr_xmalloc_escaped` over some bytes. -/
def escapedSize : List UInt8 → ℕ → ℕ
  | [], size => size
  | x :: l, size =>
    if x = 0 then size
    else escapedSize l (if x = backslash ∨ x = quote then (size + 1) % 2 ^ 32 else size)

/-- `unpackstr_xmalloc_escaped`: the string, and `*size_valp`. -/
def unpackstrXmallocEscaped : Option (Option (Option (List UInt8) × ℕ) × Buf) :=
  andThen b.getBlock fun data b => some (some (data.map fun s => escape s ++ [0],
    data.elim 0 fun s => escapedSize s s.length), b)

/-- Unpack values one after the other. -/
def unpackEach {α : Type*} (unpack : Buf → Option (Option α × Buf)) :
    ℕ → Buf → Option (Option (List α) × Buf)
  | 0, b => some (some [], b)
  | n + 1, b =>
    andThen (unpack b) fun x b =>
      andThen (unpackEach unpack n b) fun l b => some (some (x :: l), b)

/-- An array of numbers, after its length. -/
def unpackArray {α : Type*} (unpack : Buf → Option (Option α × Buf)) :
    Option (Option (List α) × Buf) :=
  andThen b.unpack32 fun n b => unpackEach unpack n.toNat b

/-- `unpack16_array`. -/
def unpack16Array : Option (Option (List UInt16) × Buf) := b.unpackArray unpack16

/-- `unpack32_array`. -/
def unpack32Array : Option (Option (List UInt32) × Buf) := b.unpackArray unpack32

/-- `unpack64_array`. -/
def unpack64Array : Option (Option (List UInt64) × Buf) := b.unpackArray unpack64

/-- `unpack64_array_from_32`. -/
def unpack64ArrayFrom32 : Option (Option (List UInt64) × Buf) :=
  b.unpackArray fun b => andThen b.unpack32 fun v b => some (some v.toUInt64, b)

/-- `unpackstr_array`. -/
def unpackstrArray : Option (Option (List (Option (List UInt8))) × Buf) :=
  andThen (b.get 4) fun n b =>
    if n > maxPackArrayLen then some (none, b) else unpackEach unpackmemXmalloc n b

/-- `unpackmem_array`. -/
def unpackmemArray (n : ℕ) : Option (Option (List UInt8) × Buf) :=
  if b.remaining ≥ n then (b.read n).map fun bytes => (some bytes, b.advance n) else some (none, b)

end Buf

end Slurm
