import Mathlib.Data.List.TakeWhile
import Slurm.Lib.CString

/-!
# Exporting an environment for a pack group

`env_array_set_environment` of `env.c` sets, for every entry `NAME=value` of an
array, the variable `NAME_PACK_GROUP_g` of the process. It splits the entry into
two buffers, joins them with the suffix in a third one, and hands that one to
`_env_array_putenv`, which splits it once more. The splitter checks what it
copies against the size of its buffers; the `sprintf` that joins checks nothing,
and its buffer is as large as that of the value alone.

* `exportEntry_eq`: what becomes of one entry;
* `foldlM_exportEntry`: what becomes of an array.
-/

namespace Slurm.EnvArray

open CString Function List

/-- The environment of a process. -/
abbrev Environ := List Char → Option (List Char)

/-- `ENV_BUFSIZE`. -/
def envBufSize : ℕ := 256 * 1024

/-- The size of the buffers for names. -/
def nameSize : ℕ := 256

/-- A string and its terminator, written to a buffer. Nothing if the buffer ends before. -/
def store (size : ℕ) (s : List Char) : Option (List Char) :=
  if s.length < size then some s else none

/-- What stands before the first `=` of an entry. -/
def nameOf (entry : List Char) : List Char := entry.takeWhile (· ≠ '=')

/-- What stands after the first `=` of an entry. -/
def valueOf (entry : List Char) : List Char := (entry.dropWhile (· ≠ '=')).tail

/-- `_env_array_entry_splitter`. The lengths are not cut to an `int`: entries of `2 ^ 31` bytes or
    more are not meant. -/
def envArrayEntrySplitter (entry : List Char) (nameLen valueLen : ℕ) :
    Option (Option (List Char × List Char)) :=
  if '=' ∉ entry then some none
  else if nameLen ≤ (nameOf entry).length then some none
  else do
    let name ← store nameLen (nameOf entry)
    if valueLen ≤ (valueOf entry).length then some none
    else do
      let value ← store valueLen (valueOf entry)
      return some (name, value)

/-- `setenv(name, value, 1)`. -/
def setenv (e : Environ) (name value : List Char) : Option Environ :=
  if name = [] ∨ '=' ∈ name then none else some (update e name (some value))

/-- `_env_array_putenv`. -/
def envArrayPutenv (e : Environ) (string : List Char) : Option (Option Environ) := do
  match ← envArrayEntrySplitter string nameSize envBufSize with
  | none => return none
  | some (name, value) => return setenv e name value

/-- The name of a variable for a pack group. -/
def packName (group : ℕ) (name : List Char) : List Char :=
  name ++ "_PACK_GROUP_".toList ++ fmtD group

/-- `sprintf(str, "%s_PACK_GROUP_%d=%s", name, group_number, value)`. -/
def packEntry (group : ℕ) (name value : List Char) : List Char :=
  packName group name ++ '=' :: value

/-- The body of the loop of `env_array_set_environment` for a pack group. -/
def exportEntry (group : ℕ) (e : Environ) (entry : List Char) : Option Environ := do
  match ← envArrayEntrySplitter entry nameSize envBufSize with
  | none => return e
  | some (name, value) =>
    let str ← store envBufSize (packEntry group name value)
    return (← envArrayPutenv e str).getD e

/-- `env_array_set_environment`, with the group as the `uint32_t` it is. -/
def envArraySetEnvironment (envArray : Option (List (List Char))) (groupNumber : ℕ) (e : Environ) :
    Option Environ :=
  match envArray with
  | none => some e
  | some entries =>
    if groupNumber = 2 ^ 32 - 1 then
      entries.foldlM (fun e s => (envArrayPutenv e s).map (·.getD e)) e
    else entries.foldlM (exportEntry groupNumber) e

/-! ## One entry -/

/-- An entry that the splitter takes apart. -/
def Splits (entry : List Char) : Prop :=
  '=' ∈ entry ∧ (nameOf entry).length < nameSize ∧ (valueOf entry).length < envBufSize
  deriving Decidable

theorem envArrayEntrySplitter_eq (entry : List Char) :
    envArrayEntrySplitter entry nameSize envBufSize =
      some (if Splits entry then some (nameOf entry, valueOf entry) else none) := by
  unfold envArrayEntrySplitter store Splits
  split_ifs <;> grind

variable (group : ℕ) (entry : List Char)

theorem not_mem_packName : '=' ∉ packName group (nameOf entry) := by
  have hname : '=' ∉ nameOf entry := fun h => by simpa using mem_takeWhile_imp h
  have hdigits : ∀ n, '=' ∉ fmtU n := fun n h => by simpa using isDigit_of_mem_fmtU h
  simp only [packName, fmtD, mem_append, not_or]
  refine ⟨⟨hname, by decide⟩, ?_⟩
  split_ifs <;> simp [hdigits]

/-- The first `=` of what is joined is the one put there. -/
theorem packEntry_parts (value : List Char) :
    nameOf (packEntry group (nameOf entry) value) = packName group (nameOf entry) ∧
      valueOf (packEntry group (nameOf entry) value) = value := by
  have hne : ∀ c ∈ packName group (nameOf entry), decide (c ≠ '=') := by
    simpa using fun c hc => ne_of_mem_of_not_mem hc (not_mem_packName group entry)
  rw [nameOf, valueOf, packEntry, takeWhile_append_of_pos hne, dropWhile_append_of_pos hne]
  simp

/-- The name of an entry fits a buffer for names with its suffix, and its value one for values. -/
def Fits : Prop :=
  '=' ∈ entry ∧ (packName group (nameOf entry)).length < nameSize ∧
    (valueOf entry).length < envBufSize
  deriving Decidable

/-- An entry that fits sets its variable, and another one does nothing. -/
def exported (e : Environ) : Environ :=
  if Fits group entry then update e (packName group (nameOf entry)) (some (valueOf entry)) else e

/-- What becomes of an entry: `sprintf` is the one call that can leave its buffer. -/
theorem exportEntry_eq (e : Environ) :
    exportEntry group e entry =
      if Splits entry → (packEntry group (nameOf entry) (valueOf entry)).length < envBufSize
      then some (exported group entry e) else none := by
  by_cases hsplits : Splits entry
  · obtain ⟨hname, hvalue⟩ := packEntry_parts group entry (valueOf entry)
    have hmem := not_mem_packName group entry
    have hset : packName group (nameOf entry) ≠ [] := by simp [packName]
    -- The joined string always has a name and a value; `Fits` says whether they are too long.
    have hagain : Splits (packEntry group (nameOf entry) (valueOf entry)) ↔ Fits group entry := by
      rw [Splits, Fits, hname, hvalue]
      simp [packEntry, hsplits.1]
    simp only [exportEntry, envArrayPutenv, envArrayEntrySplitter_eq, hsplits, store, exported,
      setenv, Option.bind_eq_bind, Option.bind_some, forall_const, if_true]
    split_ifs <;> simp_all
  · have hfits : ¬Fits group entry := by
      rintro ⟨heq, hlt, hvalue⟩
      rw [packName, append_assoc, length_append] at hlt
      exact hsplits ⟨heq, by omega, hvalue⟩
    simp [exportEntry, envArrayEntrySplitter_eq, exported, hsplits, hfits]

/-! ## The whole array -/

theorem foldlM_exportEntry (entries : List (List Char)) (e : Environ) :
    entries.foldlM (exportEntry group) e = if ∀ entry ∈ entries, Splits entry →
          (packEntry group (nameOf entry) (valueOf entry)).length < envBufSize
      then some (entries.foldl (fun e entry => exported group entry e) e) else none := by
  induction entries generalizing e with
  | nil => simp
  | cons entry entries ih =>
    rw [foldlM_cons, exportEntry_eq]
    split_ifs <;> simp_all

/-- An array is exported in bounds, and every entry that fits sets its variable, exactly if what
    is joined for each entry that splits is shorter than the buffer. -/
theorem envArraySetEnvironment_iff (entries : List (List Char)) (g : Fin (2 ^ 31)) (e : Environ) :
    envArraySetEnvironment (some entries) g e =
        some (entries.foldl (fun e entry => exported g entry e) e) ↔
      ∀ entry ∈ entries, Splits entry →
        (packEntry g (nameOf entry) (valueOf entry)).length < envBufSize := by
  have hgroup : (g : ℕ) ≠ 4294967295 := by omega
  simp [envArraySetEnvironment, hgroup, foldlM_exportEntry]

/-- The largest value there is room for, under a name of one letter. -/
theorem envArraySetEnvironment_overruns :
    let entry := 'A' :: '=' :: List.replicate (envBufSize - 1) 'x'
    Fits 0 entry ∧ envArraySetEnvironment (some [entry]) 0 (fun _ => none) = none := by
  intro entry
  have hname : nameOf entry = ['A'] := by simp [entry, nameOf]
  have hvalue : valueOf entry = replicate (envBufSize - 1) 'x' := by simp [entry, valueOf]
  have hpack : packName 0 ['A'] = "A_PACK_GROUP_0".toList := by decide
  have heq : '=' ∈ entry := by simp [entry]
  have hlt : (valueOf entry).length < envBufSize := by
    rw [hvalue, length_replicate]
    decide
  refine ⟨⟨heq, by rw [hname, hpack]; decide, hlt⟩, ?_⟩
  rw [envArraySetEnvironment, if_neg (by decide), foldlM_exportEntry, if_neg]
  intro hshort
  have hjoined := hshort entry mem_cons_self ⟨heq, by rw [hname]; decide, hlt⟩
  rw [hname, hvalue, packEntry, hpack, length_append, length_cons, length_replicate] at hjoined
  omega

end Slurm.EnvArray
