import Slurm.Lib.Run
import Slurm.Wire

/-!
# The temporary key-value space

What the tasks of a node put and what its children in the tree send is collected in one
buffer until a fence is complete (`kvs.c`). A call with more bytes than there is room for
first makes the buffer larger: by as many for a message of a child, but by a fixed number
for a pair and for the header of the message, which is not enough for every one.

The buffer is not overrun in a run whose calls all have room (`tempKvs_inBounds`).
-/

namespace Slurm

/-- The buffer (`temp_kvs_buf`): how many of its bytes are used (`temp_kvs_cnt`), and how many
    there are (`temp_kvs_size`). -/
structure TempKvs where
  cnt : ℕ := 0
  size : ℕ := 0
  deriving DecidableEq

/-- The calls. -/
inductive TempKvsOp
  /-- `temp_kvs_init`. The daemon of a step puts its node into the header, `srun` has none. -/
  | init (kvsSeq : UInt32) (node : Option (UInt32 × Option (List UInt8) × UInt32))
  /-- `temp_kvs_add`. -/
  | add (key val : Option (List UInt8))
  /-- `temp_kvs_merge` of a buffer in which `size` bytes remain. -/
  | merge (size : UInt32)

namespace TempKvs

/-- `TEMP_KVS_SIZE_INC`. -/
def sizeInc : ℕ := 2048

/-- What a message starts with: the command and, from the daemon of a step, the number and the
    name of its node and the number of its children. -/
def header (kvsSeq : UInt32) (node : Option (UInt32 × Option (List UInt8) × UInt32)) :
    Option Buf := do
  let b ← Buf.init 1024
  match node with
  | some (nodeid, thisNode, numChildren) =>
    let b ← b.pack16 0
    let b ← b.pack32 nodeid
    let b ← b.packstr thisNode
    let b ← b.pack32 numChildren
    b.pack32 kvsSeq
  | none => (← b.pack16 1).pack32 kvsSeq

/-- A key and its value. -/
def pair (key val : List UInt8) : Option Buf := do
  let b ← Buf.init (64 + 1024 + 2 * 4)
  (← b.packstr key).packstr val

/-- Copy `n` bytes behind those that are used. If there seems to be no room for them, the buffer
    first grows by `inc`. The sums have 32 bits, and the program stops at a size that is negative
    as an `int`. -/
def append (k : TempKvs) (inc n : ℕ) : Option TempKvs :=
  let size := if k.size < (k.cnt + n) % 2 ^ 32 then (k.size + inc) % 2 ^ 32 else k.size
  if size < 2 ^ 31 then some { cnt := k.cnt + n, size } else none

/-- Carry out a call, unless the program stops. -/
def exec (k : TempKvs) : TempKvsOp → Option TempKvs
  | .init kvsSeq node =>
    (header kvsSeq node).bind fun b => append { size := sizeInc } sizeInc b.processed
  | .add (some key) (some val) => (pair key val).bind fun b => k.append sizeInc b.processed
  | .add _ _ => k
  | .merge size => if size = 0 then k else k.append size.toNat size.toNat

/-- There is room for `n` bytes, if need be after the buffer has grown by `inc`. -/
def HasRoom (inc n : ℕ) (k : TempKvs) : Prop :=
  k.cnt + n ≤ k.size ∨ k.cnt + n ≤ k.size + inc ∧ k.size + inc < 2 ^ 32
  deriving Decidable

/-- There is room for the header, for the pair or for the message. -/
def Fits (k : TempKvs) : TempKvsOp → Prop
  | .init kvsSeq node => ∀ b ∈ header kvsSeq node, HasRoom sizeInc b.processed { size := sizeInc }
  | .add (some key) (some val) => ∀ b ∈ pair key val, k.HasRoom sizeInc b.processed
  | .add _ _ => True
  | .merge size => k.HasRoom size.toNat size.toNat

instance (k : TempKvs) : ∀ o, Decidable (k.Fits o)
  | .init .. | .add (some _) (some _) => inferInstanceAs (Decidable (∀ b ∈ _, _))
  | .add none _ | .add (some _) none => .isTrue trivial
  | .merge _ => inferInstanceAs (Decidable (_ ∨ _))

/-- No byte behind the buffer is used. The last one written to is the last one used. -/
def InBounds (k : TempKvs) : Prop := k.cnt ≤ k.size
  deriving Decidable

/-- The size is not negative either. -/
def Sound (k : TempKvs) : Prop := k.InBounds ∧ k.size < 2 ^ 31

variable {k k' : TempKvs} {inc n : ℕ} {o : TempKvsOp}

theorem Sound.append (hk : k.size < 2 ^ 31) (h : k.HasRoom inc n) (hk' : k.append inc n = some k') :
    k'.Sound := by
  simp only [TempKvs.append] at hk'
  simp only [HasRoom] at h
  split_ifs at hk' <;> cases hk' <;> simp only [Sound, InBounds] <;> omega

/-- Where there is room, and the size stays that of an `int`, the bytes are written. -/
theorem exists_append (hk : k.Sound)
    (h : k.cnt + n ≤ k.size ∨ k.cnt + n ≤ k.size + inc ∧ k.size + inc < 2 ^ 31) :
    ∃ k', k.append inc n = some k' ∧ k'.Sound := by
  have hroom : k.HasRoom inc n := h.imp_right fun h => ⟨h.1, by omega⟩
  have hsize : (if k.size < (k.cnt + n) % 2 ^ 32 then (k.size + inc) % 2 ^ 32 else k.size) <
      2 ^ 31 := by
    have := hk.2
    split_ifs <;> omega
  refine ⟨_, if_pos hsize, .append hk.2 hroom (if_pos hsize)⟩

theorem Sound.exec (h : k.Sound) (hfits : k.Fits o) (hk' : k.exec o = some k') : k'.Sound := by
  match o with
  | .init kvsSeq node =>
    obtain ⟨b, hb, hk'⟩ := Option.bind_eq_some_iff.1 hk'
    exact .append (by decide) (hfits b hb) hk'
  | .add (some key) (some val) =>
    obtain ⟨b, hb, hk'⟩ := Option.bind_eq_some_iff.1 hk'
    exact .append h.2 (hfits b hb) hk'
  | .add none _ | .add (some _) none =>
    cases hk'
    exact h
  | .merge size =>
    simp only [TempKvs.exec] at hk'
    split_ifs at hk'
    · cases hk'
      exact h
    · exact .append h.2 hfits hk'

end TempKvs

open TempKvs

/-- In every run whose calls have room, the buffer is not overrun at any time. -/
theorem tempKvs_inBounds (os : List TempKvsOp)
    (hrun : Run.Admissible (fun k o => k.bind (exec · o)) (fun k o => ∀ t ∈ k, TempKvs.Fits t o)
      (some {}) os) :
    Run.Always (fun k o => k.bind (exec · o)) (fun k => ∀ t ∈ k, InBounds t) (some {}) os := by
  have hstep (k : Option TempKvs) (o : TempKvsOp) (h : ∀ t ∈ k, Sound t)
      (hfits : ∀ t ∈ k, t.Fits o) : ∀ t ∈ k.bind (exec · o), Sound t := by
    intro t ht
    obtain ⟨t0, ht0, ht⟩ := Option.bind_eq_some_iff.1 ht
    exact (h t0 ht0).exec (hfits t0 ht0) ht
  have hstart : ∀ t ∈ some ({} : TempKvs), Sound t := by
    rintro _ ⟨⟩
    exact ⟨le_rfl, by decide⟩
  exact (Run.always_of_invariant hstep hstart hrun).mono fun _ h t ht => (h t ht).1

/-- A pair and a message that fit. -/
theorem tempKvs_inBounds_pair :
    let os : List TempKvsOp := [.init 1 none, .add (some [107]) (some [118]), .merge 3000]
    Run.run (fun k o => k.bind (exec · o)) (some {}) os = some ⟨3018, 5048⟩ ∧
      Run.Always (fun k o => k.bind (exec · o)) (fun k => ∀ t ∈ k, InBounds t) (some {}) os :=
  ⟨by decide +kernel, tempKvs_inBounds _ (by decide +kernel)⟩

/-- A value of 4096 bytes is more than there is room for after the buffer has grown. -/
theorem tempKvs_overrun : ¬∀ os, Run.Always (fun k o => k.bind (exec · o))
    (fun k => ∀ t ∈ k, InBounds t) (some {}) os := by
  intro h
  have hend (o o' : TempKvsOp) : ∀ t ∈ (exec {} o).bind (exec · o'), InBounds t := (h [o, o']).2.2
  exact absurd (hend (.init 1 none) (.add (some [107]) (some (List.replicate 4096 118))))
    (by decide +kernel)

end Slurm
