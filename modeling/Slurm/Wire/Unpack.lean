import Slurm.Lib.Run
import Slurm.Wire

/-!
# Unpacking is safe

Whatever bytes a buffer has, a function that unpacks a value reads only bytes of the buffer, and does
not go back. This holds for a number because what is left is compared with its width, and for a block
because it is also compared with the length that has been read (`Reads.get`, `Reads.getBlock`). What
unpacks several values in turn has it from them (`Reads.andThen`, `Reads.unpackEach`).

If a value is returned, the bytes that have been read are those that the lengths in the buffer
announce (`announced`, `unpack_safe`).
-/

namespace Slurm

/-! ## Operations -/

/-- A call of a function that unpacks. -/
inductive UnpackOp
  | unpack8
  | unpack16
  | unpack32
  | unpack64
  | unpackTime
  | unpackmem
  | unpackmemPtr
  | unpackmemXmalloc
  | unpackstrXmallocEscaped
  | unpack16Array
  | unpack32Array
  | unpack64Array
  | unpack64ArrayFrom32
  | unpackstrArray
  | unpackmemArray (n : ℕ)
deriving DecidableEq

namespace Buf

/-- Whether a call returns `SLURM_SUCCESS`, and the buffer after it. -/
def unpack (b : Buf) : UnpackOp → Option (Bool × Buf)
  | .unpack8 => b.unpack8.map (Prod.map Option.isSome id)
  | .unpack16 => b.unpack16.map (Prod.map Option.isSome id)
  | .unpack32 => b.unpack32.map (Prod.map Option.isSome id)
  | .unpack64 => b.unpack64.map (Prod.map Option.isSome id)
  | .unpackTime => b.unpackTime.map (Prod.map Option.isSome id)
  | .unpackmem => b.unpackmem.map (Prod.map Option.isSome id)
  | .unpackmemPtr => b.unpackmemPtr.map (Prod.map Option.isSome id)
  | .unpackmemXmalloc => b.unpackmemXmalloc.map (Prod.map Option.isSome id)
  | .unpackstrXmallocEscaped => b.unpackstrXmallocEscaped.map (Prod.map Option.isSome id)
  | .unpack16Array => b.unpack16Array.map (Prod.map Option.isSome id)
  | .unpack32Array => b.unpack32Array.map (Prod.map Option.isSome id)
  | .unpack64Array => b.unpack64Array.map (Prod.map Option.isSome id)
  | .unpack64ArrayFrom32 => b.unpack64ArrayFrom32.map (Prod.map Option.isSome id)
  | .unpackstrArray => b.unpackstrArray.map (Prod.map Option.isSome id)
  | .unpackmemArray n => (b.unpackmemArray n).map (Prod.map Option.isSome id)

/-! ## What lengths announce -/

/-- The length at the beginning of bytes. -/
def lengthAt (bytes : List UInt8) : ℕ := BigEndian.ofBytes (bytes.take 4)

/-- The bytes of a block, with its length. -/
def announcedBlock (bytes : List UInt8) : ℕ := 4 + lengthAt bytes

/-- The bytes of values, each of which announces its own. -/
def announcedEach (one : List UInt8 → ℕ) : ℕ → List UInt8 → ℕ
  | 0, _ => 0
  | n + 1, bytes => one bytes + announcedEach one n (bytes.drop (one bytes))

/-- The bytes that a call is to read. -/
def announced : UnpackOp → List UInt8 → ℕ
  | .unpack8, _ => 1
  | .unpack16, _ => 2
  | .unpack32, _ => 4
  | .unpack64, _ => 8
  | .unpackTime, _ => 8
  | .unpackmem, bytes => announcedBlock bytes
  | .unpackmemPtr, bytes => announcedBlock bytes
  | .unpackmemXmalloc, bytes => announcedBlock bytes
  | .unpackstrXmallocEscaped, bytes => announcedBlock bytes
  | .unpack16Array, bytes => 4 + 2 * lengthAt bytes
  | .unpack32Array, bytes => 4 + 4 * lengthAt bytes
  | .unpack64Array, bytes => 4 + 8 * lengthAt bytes
  | .unpack64ArrayFrom32, bytes => 4 + 4 * lengthAt bytes
  | .unpackstrArray, bytes => 4 + announcedEach announcedBlock (lengthAt bytes) (bytes.drop 4)
  | .unpackmemArray n, _ => n

/-! ## Reading -/

section

variable {α β : Type*} {b b' : Buf} {r : Option (Option α × Buf)}
  {f : α → Buf → Option (Option β × Buf)} {unpack : Buf → Option (Option α × Buf)} {n : ℕ}

/-- A function reads bytes of the buffer only and does not go back. If it returns a value, it has
    read `n` bytes. -/
def Reads (n : ℕ) (b : Buf) (r : Option (Option α × Buf)) : Prop :=
  ∃ x b', r = some (x, b') ∧ b'.head = b.head ∧ b.processed ≤ b'.processed ∧ b'.Good ∧
    (x.isSome → b'.processed = b.processed + n)

theorem Good.advance (h : b.Good) (hn : n ≤ b.remaining) :
    (b.advance n).Good ∧ (b.advance n).processed = b.processed + n := by
  have hle := h.processed_le
  have hsize := h.size_le
  rw [h.remaining_eq] at hn
  have hmod : (b.processed + n) % 2 ^ 32 = b.processed + n := by
    refine Nat.mod_eq_of_lt ?_
    simp only [maxBufSize] at hsize
    omega
  exact ⟨⟨hmod.trans_le (show b.processed + n ≤ b.size by omega), hsize⟩, hmod⟩

theorem Good.read (h : b.Good) (hn : n ≤ b.remaining) :
    b.read n = some (b.rest.take n) := by
  have hle := h.processed_le
  rw [h.remaining_eq] at hn
  exact if_pos (by omega)

/-- Bytes that are there are read. -/
theorem Good.reads_bytes (h : b.Good) (hn : n ≤ b.remaining) (f : List UInt8 → Option α) :
    Reads n b ((b.read n).map fun bytes => (f bytes, b.advance n)) := by
  obtain ⟨hgood, hp⟩ := h.advance hn
  refine ⟨f (b.rest.take n), b.advance n, by rw [h.read hn]; rfl, rfl, ?_, hgood, fun _ => hp⟩
  rw [hp]
  exact Nat.le_add_right _ _

theorem Good.reads_error (h : b.Good) (n : ℕ) : Reads n b (some ((none : Option α), b)) :=
  ⟨none, b, rfl, rfl, le_rfl, h, nofun⟩

theorem Good.reads_get (h : b.Good) (n : ℕ) : Reads n b (b.get n) := by
  rw [get]
  split_ifs with hn
  · exact h.reads_error n
  · exact h.reads_bytes (not_lt.1 hn) _

/-- A number that has been read is the one that its bytes stand for. -/
theorem get_eq_some {v : ℕ} (h : b.get n = some (some v, b')) :
    v = BigEndian.ofBytes (b.rest.take n) := by
  rw [get] at h
  split_ifs at h with hn
  · cases h
  · rw [Buf.read] at h
    split_ifs at h
    · cases h
      rfl
    · cases h

/-- What is left after some bytes have been read. -/
theorem rest_eq (hhead : b'.head = b.head) (hp : b'.processed = b.processed + n) :
    b'.rest = b.rest.drop n := by
  rw [rest, rest, hhead, hp, List.drop_drop]

/-- What is unpacked in turn. -/
theorem Reads.andThen {m : ℕ} (hr : Reads n b r)
    (hf : ∀ x b', r = some (some x, b') → b'.Good → b'.rest = b.rest.drop n → Reads m b' (f x b')) :
    Reads (n + m) b (Buf.andThen r f) := by
  obtain ⟨x, b', rfl, hhead, hle, hgood, hx⟩ := hr
  cases x with
  | none => exact ⟨none, b', rfl, hhead, hle, hgood, nofun⟩
  | some x =>
    have hp := hx rfl
    obtain ⟨y, b'', hy, hhead', hle', hgood', hlast⟩ := hf x b' rfl hgood (rest_eq hhead hp)
    refine ⟨y, b'', hy, hhead'.trans hhead, hle.trans hle', hgood', fun hsome => ?_⟩
    rw [hlast hsome, hp, Nat.add_assoc]

/-- What is made of a value that has been unpacked. -/
theorem Reads.map (hr : Reads n b r) (f : α → β) :
    Reads n b (Buf.andThen r fun x b => some (some (f x), b)) :=
  hr.andThen (m := 0) fun _ _ _ hgood _ => ⟨_, _, rfl, rfl, le_rfl, hgood, fun _ => rfl⟩

theorem Good.reads_getBlock (h : b.Good) : Reads (announcedBlock b.rest) b b.getBlock := by
  refine (h.reads_get 4).andThen fun n b' hn hgood _ => ?_
  rw [get_eq_some hn, ← lengthAt]
  split_ifs with hmax hpos hrem
  · exact hgood.reads_error _
  · exact hgood.reads_error _
  · exact hgood.reads_bytes (not_lt.1 hrem) _
  · have hzero : lengthAt b.rest = 0 := Nat.eq_zero_of_not_pos hpos
    rw [hzero]
    exact ⟨_, _, rfl, rfl, le_rfl, hgood, fun _ => rfl⟩

/-- Values in turn, each of which reads what it announces. -/
theorem Good.reads_unpackEach {one : List UInt8 → ℕ}
    (hone : ∀ b, b.Good → Reads (one b.rest) b (unpack b)) (h : b.Good) (n : ℕ) :
    Reads (announcedEach one n b.rest) b (Buf.unpackEach unpack n b) := by
  induction n generalizing b with
  | zero => exact ⟨_, _, rfl, rfl, le_rfl, h, fun _ => rfl⟩
  | succ n ih =>
    refine (hone b h).andThen fun x b' _ hgood hrest => ?_
    rw [← hrest]
    exact (ih hgood).map _

theorem announcedEach_const (w n : ℕ) (bytes : List UInt8) :
    announcedEach (fun _ => w) n bytes = w * n := by
  induction n generalizing bytes with
  | zero => rfl
  | succ n ih => rw [announcedEach, ih, Nat.mul_succ, Nat.add_comm]

theorem lengthAt_lt (bytes : List UInt8) : lengthAt bytes < 2 ^ 32 := by
  have hle : (bytes.take 4).length ≤ 4 := by
    rw [List.length_take]
    exact Nat.min_le_left _ _
  exact (BigEndian.ofBytes_lt _).trans_le (Nat.pow_le_pow_right (by decide) hle)

theorem andThen_eq_some {y : β} (h : Buf.andThen r f = some (some y, b')) :
    ∃ x b₁, r = some (some x, b₁) ∧ f x b₁ = some (some y, b') := by
  obtain ⟨⟨x, b₁⟩, hr, hf⟩ := Option.bind_eq_some_iff.1 h
  cases x with
  | none => cases hf
  | some x => exact ⟨x, b₁, hr, hf⟩

theorem unpack32_eq_some {n : UInt32} (h : b.unpack32 = some (some n, b')) :
    n.toNat = lengthAt b.rest := by
  obtain ⟨v, b1, hv, hn⟩ := andThen_eq_some h
  cases hn
  rw [get_eq_some hv]
  exact UInt32.toNat_ofNat_of_lt' (lengthAt_lt _)

theorem Good.reads_unpackArray {w : ℕ} (hone : ∀ b, b.Good → Reads w b (unpack b)) (h : b.Good) :
    Reads (4 + w * lengthAt b.rest) b (b.unpackArray unpack) := by
  refine ((h.reads_get 4).map _).andThen fun n b' hn hgood _ => ?_
  rw [unpack32_eq_some hn, ← announcedEach_const w _ b'.rest]
  exact hgood.reads_unpackEach hone _

theorem Good.reads_unpackstrArray (h : b.Good) :
    Reads (4 + announcedEach announcedBlock (lengthAt b.rest) (b.rest.drop 4)) b
      b.unpackstrArray := by
  refine (h.reads_get 4).andThen fun n b' hn hgood hrest => ?_
  rw [get_eq_some hn, ← lengthAt, ← hrest]
  split_ifs with hmax
  · exact hgood.reads_error _
  · exact hgood.reads_unpackEach (fun _ h => h.reads_getBlock) _

theorem Good.reads_unpackmemArray (h : b.Good) (n : ℕ) : Reads n b (b.unpackmemArray n) := by
  rw [unpackmemArray]
  split_ifs with hn
  · exact h.reads_bytes hn _
  · exact h.reads_error n

end

/-! ## Runs -/

variable {b : Buf}

/-- The buffer after a call, if nothing has been read after its end. -/
def execUnpack (s : Option Buf) (op : UnpackOp) : Option Buf :=
  s.bind fun b => (b.unpack op).map Prod.snd

/-- A call reads bytes of the buffer only, and does not go back. If it returns `SLURM_SUCCESS`, it
    has read what the lengths announce. -/
def Safe (s : Option Buf) (op : UnpackOp) : Prop :=
  ∃ b ok b', s = some b ∧ b.unpack op = some (ok, b') ∧ b'.head = b.head ∧
    b.processed ≤ b'.processed ∧ b'.processed ≤ b'.size ∧
    (ok = true → b'.processed = b.processed + announced op b.rest)

/-- What a call reads, told without the value that it returns. -/
theorem Reads.status {α : Type*} {n : ℕ} {r : Option (Option α × Buf)} (h : Reads n b r) :
    ∃ ok b', r.map (Prod.map Option.isSome id) = some (ok, b') ∧ b'.head = b.head ∧
      b.processed ≤ b'.processed ∧ b'.Good ∧ (ok = true → b'.processed = b.processed + n) := by
  obtain ⟨x, b', rfl, h⟩ := h
  exact ⟨x.isSome, b', rfl, h⟩

theorem Good.unpack (h : b.Good) (op : UnpackOp) :
    ∃ ok b', b.unpack op = some (ok, b') ∧ b'.head = b.head ∧ b.processed ≤ b'.processed ∧
      b'.Good ∧ (ok = true → b'.processed = b.processed + announced op b.rest) := by
  cases op with
  | unpack8 => exact ((h.reads_get 1).map _).status
  | unpack16 => exact ((h.reads_get 2).map _).status
  | unpack32 => exact ((h.reads_get 4).map _).status
  | unpack64 => exact ((h.reads_get 8).map _).status
  | unpackTime => exact ((h.reads_get 8).map _).status
  | unpackmem => exact (h.reads_getBlock.map _).status
  | unpackmemPtr => exact h.reads_getBlock.status
  | unpackmemXmalloc => exact h.reads_getBlock.status
  | unpackstrXmallocEscaped => exact (h.reads_getBlock.map _).status
  | unpack16Array => exact (h.reads_unpackArray fun _ h => (h.reads_get 2).map _).status
  | unpack32Array => exact (h.reads_unpackArray fun _ h => (h.reads_get 4).map _).status
  | unpack64Array => exact (h.reads_unpackArray fun _ h => (h.reads_get 8).map _).status
  | unpack64ArrayFrom32 =>
    exact (h.reads_unpackArray fun _ h => ((h.reads_get 4).map _).map _).status
  | unpackstrArray => exact h.reads_unpackstrArray.status
  | unpackmemArray n => exact (h.reads_unpackmemArray n).status

theorem good_create {data : List UInt8} (h : Buf.create data = some b) : b.Good := by
  rw [create] at h
  split_ifs at h with hlen
  cases h
  exact ⟨Nat.zero_le _, not_lt.1 hlen⟩

/-- Whatever bytes a buffer is created from, every call of a function that unpacks is safe. -/
theorem unpack_safe (data : List UInt8) (b : Buf) (hb : Buf.create data = some b)
    (ops : List UnpackOp) : Run.Admissible execUnpack Safe (some b) ops := by
  refine Run.admissible_of_invariant (I := fun s => ∃ b, s = some b ∧ b.Good) ?_
    ⟨b, rfl, good_create hb⟩ (Run.admissible_true _ _)
  rintro s op ⟨b, rfl, h⟩ -
  obtain ⟨ok, b', hb', hhead, hle, hgood, hok⟩ := h.unpack op
  refine ⟨⟨b', ?_, hgood⟩, b, ok, b', rfl, hb', hhead, hle, hgood.processed_le, hok⟩
  rw [execUnpack, Option.bind_some, hb']
  rfl

/-- An array of strings that announces more than there is, and a byte after it. -/
theorem unpack_safe_short :
    let data : List UInt8 := [0, 0, 0, 2, 0, 0, 0, 1, 65, 0, 0, 1, 0, 66]
    Buf.create data = some { head := data } ∧
      (Buf.unpack { head := data } .unpackstrArray).map Prod.fst = some false ∧
      Run.Admissible execUnpack Safe (some { head := data }) [.unpackstrArray, .unpack8] :=
  ⟨rfl, by decide, unpack_safe [0, 0, 0, 2, 0, 0, 0, 1, 65, 0, 0, 1, 0, 66] _ rfl _⟩

end Buf

end Slurm
