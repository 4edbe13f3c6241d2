import Slurm.Record

/-!
# The cores of a job

The cores that a job has are in two bitmaps (`job_resources_t`): that of its nodes, and
one of the cores of these nodes, in which the cores of the nodes follow each other. The
functions of `job_resources.c` here compare them with a bitmap of all cores of the
cluster, in which the cores of each node start at a fixed place.

All of them go over the same cores (`JobResources.coreBits`), and are what they should
be in terms of the set of these (`JobResources.cores`): `jobFitsIntoCores_iff`,
`addJobToCores_eq` and `removeJobFromCores_eq`. Which these are is said by the two
layouts (`JobResources.mem_cores`).
-/

namespace Slurm

open Finset

/-- Where the cores of each node are in a bitmap of all cores (`cr_node_cores_offset`), and
    how many there are (`bits_per_node`). -/
structure CoreMap where
  nodeRecordCount : ℕ
  nodeCoresOffset : ℕ → ℕ
  bitsPerNode : ℕ → ℕ

/-- The resources of a job (`job_resources_t`). -/
structure JobResources where
  nodeBitmap : Bitmap := ∅
  coreBitmap : Bitmap := ∅
  wholeNode : ℕ := 0
  deriving DecidableEq

namespace JobResources

variable (m : CoreMap) (r : JobResources)

/-- The bits of a bitmap of all cores that are those of the job, from the nodes `nodes` on.
    The cores of these start at `jobBit` in the bitmap of the job. -/
def bitsFrom : List ℕ → ℕ → List ℕ
  | [], _ => []
  | n :: nodes, jobBit =>
    ((List.range (m.bitsPerNode n)).filter fun i => r.wholeNode = 1 ∨ jobBit + i ∈ r.coreBitmap).map
        (m.nodeCoresOffset n + ·) ++
      bitsFrom nodes (jobBit + m.bitsPerNode n)

/-- The bits of a bitmap of all cores that are those of the job. -/
def coreBits : List ℕ :=
  r.bitsFrom m ((List.range m.nodeRecordCount).filter (· ∈ r.nodeBitmap)) 0

/-- The cores of a job, among all cores. -/
def cores : Bitmap := (r.coreBits m).toFinset

/-- The bit `b` of a bitmap of all cores is that of a core of the job: core `i` of its node
    `n`, if it has all of these or if the bit is set that is `i` after those of its nodes
    before `n`. -/
def HasCore (b : ℕ) : Prop :=
  ∃ n < m.nodeRecordCount, n ∈ r.nodeBitmap ∧ ∃ i < m.bitsPerNode n,
    (r.wholeNode = 1 ∨ (∑ k ∈ range n with k ∈ r.nodeBitmap, m.bitsPerNode k) + i ∈ r.coreBitmap) ∧
      m.nodeCoresOffset n + i = b

theorem bitsFrom_append (nodes nodes' : List ℕ) (jobBit : ℕ) :
    r.bitsFrom m (nodes ++ nodes') jobBit = r.bitsFrom m nodes jobBit ++
      r.bitsFrom m nodes' (jobBit + (nodes.map m.bitsPerNode).sum) := by
  induction nodes generalizing jobBit with
  | nil => simp [bitsFrom]
  | cons n nodes ih => simp [bitsFrom, ih, add_assoc]

/-- Both offsets are those of the layout. -/
theorem mem_cores (b : ℕ) : b ∈ r.cores m ↔ r.HasCore m b := by
  -- By induction on the number of nodes, of which the last comes last in the bitmaps.
  have hnodes (N : ℕ) : b ∈ r.bitsFrom m ((List.range N).filter (· ∈ r.nodeBitmap)) 0 ↔
      r.HasCore { m with nodeRecordCount := N } b := by
    induction N with
    | zero => simp [bitsFrom, HasCore]
    | succ N ih =>
      have hsum : (((List.range N).filter (· ∈ r.nodeBitmap)).map m.bitsPerNode).sum =
          ∑ k ∈ range N with k ∈ r.nodeBitmap, m.bitsPerNode k := rfl
      rw [List.range_succ, List.filter_append, bitsFrom_append, List.mem_append, ih, hsum]
      refine Iff.trans (or_congr Iff.rfl ?_) Nat.exists_lt_succ_right.symm
      by_cases hN : N ∈ r.nodeBitmap <;> simp [bitsFrom, hN, and_assoc]
  exact List.mem_toFinset.trans (hnodes m.nodeRecordCount)

end JobResources

section

variable (m : CoreMap) (r : JobResources) (full : Option Bitmap)

/-- No core of the job is in the bitmap (`job_fits_into_cores`). -/
def jobFitsIntoCores : Bool :=
  match full with
  | none => true
  | some b => (r.coreBits m).all (· ∉ b)

/-- Add the cores of the job to the bitmap (`add_job_to_cores`). -/
def addJobToCores : Bitmap := (r.coreBits m).foldl (fun b i => insert i b) (full.getD ∅)

/-- Take the cores of the job out of the bitmap (`remove_job_from_cores`). -/
def removeJobFromCores : Bitmap := (r.coreBits m).foldl (fun b i => b.erase i) (full.getD ∅)

theorem jobFitsIntoCores_iff :
    jobFitsIntoCores m r full ↔ Disjoint (r.cores m) (full.getD ∅) := by
  cases full with
  | none => simp [jobFitsIntoCores]
  | some b => simp [jobFitsIntoCores, JobResources.cores, disjoint_left]

theorem addJobToCores_eq : addJobToCores m r full = full.getD ∅ ∪ r.cores m := by
  have hfold (l : List ℕ) (b : Bitmap) : l.foldl (fun b i => insert i b) b = b ∪ l.toFinset := by
    induction l generalizing b with
    | nil => simp
    | cons i l ih =>
      rw [List.foldl_cons, ih, List.toFinset_cons, insert_union, union_insert]
  exact hfold _ _

theorem removeJobFromCores_eq : removeJobFromCores m r full = full.getD ∅ \ r.cores m := by
  have hfold (l : List ℕ) (b : Bitmap) : l.foldl (fun b i => b.erase i) b = b \ l.toFinset := by
    induction l generalizing b with
    | nil => simp
    | cons i l ih =>
      rw [List.foldl_cons, ih, List.toFinset_cons, erase_sdiff_comm, ← sdiff_insert]
  exact hfold _ _

/-- A job fits if and only if none of its cores is set. If it does, these are what is set when
    it is added, and no more than these is cleared when it is removed again. -/
theorem jobFitsIntoCores_add_remove :
    (jobFitsIntoCores m r full ↔ ∀ b, r.HasCore m b → b ∉ full.getD ∅) ∧
    (jobFitsIntoCores m r full →
      (∀ b, b ∈ addJobToCores m r full ↔ b ∈ full.getD ∅ ∨ r.HasCore m b) ∧
      removeJobFromCores m r (addJobToCores m r full) = full.getD ∅) := by
  simp_rw [← JobResources.mem_cores]
  refine ⟨(jobFitsIntoCores_iff m r full).trans disjoint_left, fun hfits => ⟨fun b => ?_, ?_⟩⟩
  · rw [addJobToCores_eq, mem_union]
  · rw [removeJobFromCores_eq, Option.getD_some, addJobToCores_eq]
    exact union_sdiff_cancel_right ((jobFitsIntoCores_iff m r full).1 hfits).symm

end

end Slurm
