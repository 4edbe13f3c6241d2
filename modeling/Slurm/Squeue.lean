import Slurm.Lib.CString
import Slurm.Lib.Comparator
import Slurm.Record

/-!
# The order of job packs in `squeue`

`squeue` can sort jobs by their packs, with a function that compares the id of a leader with the
one that a member names. It does not see which of its arguments is which, and gives the same sign
when they are swapped (`sort_eq`): it is an order just if it never tells two jobs apart
(`sortJobByDependencyJobpack_isOrder_iff`).
-/

namespace Slurm

open CString Comparator

/-- `strcmp`, of which only the sign is known. -/
def strcmp (s t : CStr) : ℤ := if s = t then 0 else if s < t then -1 else 1

/-- What a dependency says of a job: it leads a pack, or is a member of the pack of a leader. -/
inductive PackRole
  | leader
  | member (packmbrLdr : CStr)
  | other

/-- What is read of a `job_info_t`. -/
structure JobInfo where
  jobId : UInt32
  dependency : Option CStr

def packRole (dependency : CStr) : PackRole :=
  if "packleader:".toList.isPrefixOf dependency then .leader
  else if "pack packleader=".toList.isPrefixOf dependency then .member (dependency.drop 16)
  else .other

/-- `packldr` and `packmbr_ldr` after a job was looked at. -/
def JobInfo.names (j : JobInfo) (old : CStr × CStr) : PackRole → CStr × CStr
  | .leader => (fmtU j.jobId.toNat, old.2)
  | .member packmbrLdr => (old.1, packmbrLdr)
  | .other => old

/-- `_sort_job_by_dependency_jobpack`. -/
def sortJobByDependencyJobpack (reverseOrder : Bool) (job1 job2 : JobInfo) : ℤ :=
  match job1.dependency, job2.dependency with
  | some d1, some d2 =>
    let names := job2.names (job1.names ([], []) (packRole d1)) (packRole d2)
    if names.1 = [] ∨ names.2 = [] then 0
    else if reverseOrder then -strcmp names.1 names.2
    else strcmp names.1 names.2
  | _, _ => 0

def JobInfo.role (j : JobInfo) : PackRole := j.dependency.elim .other packRole

/-- The result for a leader and a member that names `packmbrLdr`, in either order. -/
def sortLeader (reverse : Bool) (l : JobInfo) (packmbrLdr : CStr) : ℤ :=
  if packmbrLdr = [] then 0
  else if reverse then -strcmp (fmtU l.jobId.toNat) packmbrLdr
  else strcmp (fmtU l.jobId.toNat) packmbrLdr

theorem strcmp_eq_zero (s t : CStr) : strcmp s t = 0 ↔ s = t := by
  unfold strcmp
  split_ifs with heq <;> simp [heq]

theorem sortLeader_eq_zero (reverse : Bool) (l : JobInfo) (name : CStr) :
    sortLeader reverse l name = 0 ↔ name = [] ∨ name = fmtU l.jobId.toNat := by
  unfold sortLeader
  split_ifs with hname
  · simp [hname]
  · rw [neg_eq_zero, strcmp_eq_zero, or_iff_right hname, eq_comm]
  · rw [strcmp_eq_zero, or_iff_right hname, eq_comm]

theorem sort_eq (reverse : Bool) (a b : JobInfo) : sortJobByDependencyJobpack reverse a b =
    match a.role, b.role with
    | .leader, .member name => sortLeader reverse a name
    | .member name, .leader => sortLeader reverse b name
    | _, _ => 0 := by
  unfold sortJobByDependencyJobpack JobInfo.role
  cases a.dependency with
  | none => cases b.dependency <;> rfl
  | some d1 =>
    cases b.dependency with
    | none =>
      simp only [Option.elim_some, Option.elim_none]
      cases packRole d1 <;> rfl
    | some d2 =>
      simp only [Option.elim_some]
      cases packRole d1 <;> cases packRole d2 <;> simp [JobInfo.names, sortLeader, fmtU_ne_nil]

/-- The function is an order on some jobs just if each member among them names all the leaders
    among them, or nothing. -/
theorem sortJobByDependencyJobpack_isOrder_iff (reverse : Bool) (jobs : Set JobInfo) :
    let cmp (a b : jobs) := sortJobByDependencyJobpack reverse a b
    (IsOrder cmp ∧ ∀ a b c, cmp a b = 0 → cmp b c = 0 → cmp a c = 0) ↔
      ∀ l ∈ jobs, ∀ m ∈ jobs, l.role = .leader → ∀ name, m.role = .member name →
        name = [] ∨ name = fmtU l.jobId.toNat := by
  intro cmp
  constructor
  · rintro ⟨h, -⟩ l hl m hm hlead name hname
    have hswap := h.swap ⟨l, hl⟩ ⟨m, hm⟩
    simp only [cmp, sort_eq, hlead, hname] at hswap
    exact (sortLeader_eq_zero reverse l name).1 (by omega)
  · intro h
    have hzero (a b : jobs) : cmp a b = 0 := by
      simp only [cmp, sort_eq]
      split
      · exact (sortLeader_eq_zero ..).2 (h a a.2 b b.2 ‹_› _ ‹_›)
      · exact (sortLeader_eq_zero ..).2 (h b b.2 a a.2 ‹_› _ ‹_›)
      · rfl
    simp only [hzero, implies_true, and_true]
    exact ⟨fun _ _ => by simp [hzero], fun _ _ _ _ _ => (hzero ..).le⟩

/-- The leader 5 is before a member of the pack of 7, which is before the leader. -/
theorem sortJobByDependencyJobpack_not_isOrder :
    ¬IsOrder (sortJobByDependencyJobpack false) := by
  intro h
  have hswap := h.swap ⟨5, some "packleader:6".toList⟩ ⟨8, some "pack packleader=7".toList⟩
  exact absurd (hswap.1 (by decide)) (by decide)

end Slurm
