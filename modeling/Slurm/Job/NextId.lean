import Slurm.Lib.RoundRobin

/-!
# New job ids

`get_next_job_id` goes once around the ids from `FirstJobId` to `MaxJobId`, from the last one that
it gave on, to the first one that is not in use. This is a round-robin search
(`nextIdLoop_eq_find`), which starts outside of the table if `MaxJobId` was lowered. It gives a free
id if there is one (`getNextJobId_fresh`).
-/

namespace Slurm

open RoundRobin List

/-- What `get_next_job_id` reads. -/
structure IdTable where
  firstJobId : ℕ
  maxJobId : ℕ
  fedMgrGetJobId : ℕ → ℕ
  findJobRecord : ℕ → Bool
  dupJobFileTest : ℕ → Bool

namespace IdTable

variable (t : IdTable)

def maxJobs : ℕ := t.maxJobId - t.firstJobId

/-- A job has the id with the local part `l`, or has left files. -/
def inUse (l : ℕ) : Bool :=
  t.findJobRecord (t.fedMgrGetJobId l) || t.dupJobFileTest (t.fedMgrGetJobId l)

/-- The loop of `get_next_job_id`. Its counter is compared as a number without a sign. -/
def nextIdLoop : (left seq : ℕ) → Option ℕ
  | 0, _ => none
  | left + 1, seq =>
    let seq := (seq + 1) % 2 ^ 32
    let seq := if seq ≥ t.maxJobId then t.firstJobId else seq
    if t.inUse seq then nextIdLoop left seq else some seq

/-- `get_next_job_id`: the id, or `none` for `SLURM_ERROR`, and `job_id_sequence`. -/
def getNextJobId (seq : ℕ) (testOnly : Bool) : Option ℕ × ℕ :=
  match t.nextIdLoop t.maxJobs (max seq t.firstJobId) with
  | none => (none, seq)
  | some l => (some (t.fedMgrGetJobId l), if testOnly then seq else l)

variable {t} {seq : ℕ}

theorem nextIdLoop_eq_find (hmax : t.maxJobId < 2 ^ 32) (hfirst : t.firstJobId ≤ seq)
    (hseq : seq < 2 ^ 32 - 1) (left : ℕ) : t.nextIdLoop left seq =
      ((visits t.maxJobs left (seq - t.firstJobId)).map (t.firstJobId + ·)).find? (!t.inUse ·) := by
  induction left generalizing seq with
  | zero => rfl
  | succ left ih =>
    have hnext : (if (seq + 1) % 2 ^ 32 ≥ t.maxJobId then t.firstJobId else (seq + 1) % 2 ^ 32) =
        t.firstJobId + next t.maxJobs (seq - t.firstJobId) := by
      rw [RoundRobin.next, maxJobs]
      split_ifs <;> omega
    have hlt : t.firstJobId + next t.maxJobs (seq - t.firstJobId) < 2 ^ 32 - 1 := by
      rw [← hnext]
      split_ifs <;> omega
    simp only [nextIdLoop, hnext, visits, map_cons, find?_cons]
    rw [ih (Nat.le_add_right ..) hlt, Nat.add_sub_cancel_left]
    split_ifs with huse <;> simp [huse]

/-- The id is not in use, and there is none only if all are in use. A test gives the same id. -/
theorem getNextJobId_fresh (hseq : seq < 2 ^ 32 - 1) (hfirst : t.firstJobId < t.maxJobId)
    (hmax : t.maxJobId < 2 ^ 32) :
    (∀ id l, t.getNextJobId seq false = (some id, l) →
      (t.firstJobId ≤ l ∧ l < t.maxJobId) ∧ id = t.fedMgrGetJobId l ∧ t.inUse l = false) ∧
    ((t.getNextJobId seq false).1 = none → ∀ l, t.firstJobId ≤ l ∧ l < t.maxJobId → t.inUse l) ∧
    t.getNextJobId seq true = ((t.getNextJobId seq false).1, seq) := by
  have hfind := nextIdLoop_eq_find hmax (le_max_right seq t.firstJobId) (by omega) t.maxJobs
  have hvisit (l : ℕ) : l ∈ (visits t.maxJobs t.maxJobs (max seq t.firstJobId - t.firstJobId)).map
      (t.firstJobId + ·) ↔ t.firstJobId ≤ l ∧ l < t.maxJobId := by
    simp only [mem_map, visits_perm.mem_iff, mem_range, maxJobs]
    refine ⟨?_, fun hl => ⟨l - t.firstJobId, by omega, by omega⟩⟩
    rintro ⟨i, hi, rfl⟩
    omega
  simp only [getNextJobId]
  cases hloop : t.nextIdLoop t.maxJobs (max seq t.firstJobId) with
  | none =>
    refine ⟨nofun, fun _ l hl => ?_, rfl⟩
    rw [hfind, find?_eq_none] at hloop
    simpa using hloop l ((hvisit l).2 hl)
  | some l =>
    refine ⟨fun id l' heq => ?_, nofun, rfl⟩
    obtain ⟨rfl, rfl⟩ : t.fedMgrGetJobId l = id ∧ l = l' := by simpa using heq
    rw [hfind] at hloop
    exact ⟨(hvisit l).1 (mem_of_find?_eq_some hloop), rfl, by simpa using find?_some hloop⟩

/-- The last id is above the limit, and the first one is in use. -/
theorem getNextJobId_fresh_wraps :
    getNextJobId ⟨1, 4, id, (· = 1), fun _ => false⟩ 9 true = (some 2, 9) := by
  rw [(getNextJobId_fresh (by decide) (by decide) (by decide)).2.2]
  rfl

end IdTable

end Slurm
