import Slurm.Record

/-!
# The CPUs of a job with repetitions

The CPUs of a job on each of its nodes are kept twice (`job_resources_t`): one count for
each node (`cpus`), and each count with the number of nodes in a row that have it
(`cpu_array_value` and `cpu_array_reps`). The functions of `job_resources.c` here build
each form from the other.

The second one takes the counts out of the array that it fills, and not out of those with
repetitions, so that all of them are 0 (`buildJobResourcesCpusArray_eq`).
-/

namespace Slurm

open List

/-- The CPUs of a job on each of its nodes (`nhosts` of them), in both forms. -/
structure JobCpus where
  cpus : List UInt16
  cpuArray : List (UInt16 × ℕ) := []

namespace JobCpus

/-- One more node with `n` CPUs. The count compared with (`last_cpu_cnt`) is that of the last
    node, and before the first one `NO_VAL`, which no count is. -/
def addNode (runs : List (UInt16 × ℕ)) (n : UInt16) : List (UInt16 × ℕ) :=
  match runs.getLast? with
  | some (last, reps) => if n = last then runs.dropLast ++ [(last, reps + 1)] else runs ++ [(n, 1)]
  | none => [(n, 1)]

/-- The form with repetitions, and the number of all CPUs
    (`build_job_resources_cpu_array`). -/
def buildJobResourcesCpuArray (r : JobCpus) : JobCpus × Int32 :=
  if r.cpus = [] then (r, 0)
  else ({ r with cpuArray := r.cpus.foldl addNode [] },
    r.cpus.foldl (fun cpuCount n => cpuCount + .ofNat n.toNat) 0)

/-- Fill the array `cpus` from `cpuInx` on: the counts of the runs `runs`, of which each is
    there for every node that has it, are read in `cpus` itself. -/
def fillCpus (cpus : List UInt16) (cpuInx : ℕ) (cpuCount : Int32) :
    List ℕ → Option (List UInt16 × Int32)
  | [] => some (cpus, if cpuInx < cpus.length then -1 else cpuCount)
  | i :: runs =>
    if cpus.length ≤ cpuInx then some (cpus, -1)
    else cpus[i]?.bind fun n =>
      fillCpus (cpus.set cpuInx n) (cpuInx + 1) (cpuCount + .ofNat n.toNat) runs

/-- For each node, the run it is in. -/
def runInx (runs : List (UInt16 × ℕ)) : List ℕ :=
  runs.zipIdx.flatMap fun x => replicate x.1.2 x.2

/-- The form without repetitions, and the number of all CPUs or -1
    (`build_job_resources_cpus_array`). -/
def buildJobResourcesCpusArray (r : JobCpus) : Option (JobCpus × Int32) :=
  if r.cpus = [] then some (r, 0)
  else if r.cpuArray = [] then some (r, -1)
  else (fillCpus (replicate r.cpus.length 0) 0 0 (runInx r.cpuArray)).map fun x =>
    ({ r with cpus := x.1 }, x.2)

theorem addNode_reps (runs : List (UInt16 × ℕ)) (n : UInt16) :
    ((addNode runs n).map (·.2)).sum = (runs.map (·.2)).sum + 1 ∧
      (addNode runs n).length ≤ runs.length + 1 := by
  rcases eq_nil_or_concat runs with rfl | ⟨init, last, rfl⟩
  · exact ⟨rfl, Nat.le_refl _⟩
  · simp only [addNode, concat_eq_append, getLast?_concat]
    split_ifs <;> simp [Nat.add_assoc]

/-- The runs are those of all nodes, and no more of them than nodes. -/
theorem foldl_addNode (cpus : List UInt16) :
    ((cpus.foldl addNode []).map (·.2)).sum = cpus.length ∧
      (cpus.foldl addNode []).length ≤ cpus.length := by
  induction cpus using reverseRecOn with
  | nil => exact ⟨rfl, Nat.le_refl _⟩
  | append_singleton cpus n ih =>
    have hadd := addNode_reps (cpus.foldl addNode []) n
    rw [foldl_concat, length_append, length_singleton]
    omega

theorem length_runInx (runs : List (UInt16 × ℕ)) :
    (runInx runs).length = (runs.map (·.2)).sum := by
  have hruns : runs.zipIdx.map (·.1.2) = runs.map (·.2) :=
    map_map.symm.trans (congrArg (map (·.2)) (zipIdx_map_fst 0 runs))
  simp [runInx, length_flatMap, hruns]

/-- What is read in an array of zeros and written to it changes nothing. -/
theorem fillCpus_zeros {size : ℕ} (runs : List ℕ) (cpuInx : ℕ) (hruns : ∀ i ∈ runs, i < size)
    (hinx : cpuInx + runs.length = size) :
    fillCpus (replicate size 0) cpuInx 0 runs = some (replicate size 0, 0) := by
  induction runs generalizing cpuInx with
  | nil => simp_all [fillCpus]
  | cons i runs ih =>
    have hi : (replicate size (0 : UInt16))[i]? = some 0 := by simp [hruns i mem_cons_self]
    have hlt : ¬size ≤ cpuInx := by simp at hinx; omega
    rw [fillCpus, length_replicate, if_neg hlt, hi, Option.bind_some, set_replicate_self]
    exact ih _ (fun i hi => hruns i (mem_cons_of_mem _ hi)) (by simp at hinx; omega)

/-- The form without repetitions has only zeros. -/
theorem buildJobResourcesCpusArray_eq (r : JobCpus) (h : r.cpus ≠ []) :
    buildJobResourcesCpusArray r.buildJobResourcesCpuArray.1 =
      some ({ cpus := replicate r.cpus.length 0, cpuArray := r.cpus.foldl addNode [] }, 0) := by
  obtain ⟨hreps, hlength⟩ := foldl_addNode r.cpus
  have hruns : r.cpus.foldl addNode [] ≠ [] := by
    intro hnil
    rw [hnil] at hreps
    exact h (length_eq_zero_iff.1 hreps.symm)
  have hinx (i : ℕ) (hi : i ∈ runInx (r.cpus.foldl addNode [])) : i < r.cpus.length := by
    simp only [runInx, mem_flatMap, mem_replicate] at hi
    obtain ⟨x, hx, -, rfl⟩ := hi
    have := (mem_zipIdx hx).2.1
    omega
  have hfill := fillCpus_zeros _ 0 hinx (by rw [length_runInx, hreps, Nat.zero_add])
  simp [buildJobResourcesCpusArray, buildJobResourcesCpuArray, h, hruns, hfill]

/-- One form built after the other is as it was, and both functions return the sum of it, if
    and only if the job has no CPU. -/
theorem buildJobResourcesCpusArray_iff (r : JobCpus) :
    (∃ r' n, buildJobResourcesCpusArray r.buildJobResourcesCpuArray.1 = some (r', n) ∧
      r'.cpus = r.cpus ∧ r.buildJobResourcesCpuArray.2.toInt = (r.cpus.map UInt16.toNat).sum ∧
      n.toInt = (r.cpus.map UInt16.toNat).sum) ↔ ∀ n ∈ r.cpus, n = 0 := by
  by_cases h : r.cpus = []
  · simp [buildJobResourcesCpusArray, buildJobResourcesCpuArray, h]
  · rw [buildJobResourcesCpusArray_eq r h]
    constructor
    · rintro ⟨r', n, heq, hcpus, -⟩
      cases heq
      exact (eq_replicate_iff.1 hcpus.symm).2
    · intro hzero
      have hcpus := eq_replicate_iff.2 ⟨rfl, hzero⟩
      have hsum : (r.cpus.map UInt16.toNat).sum = 0 := by rw [hcpus]; simp
      refine ⟨_, _, rfl, hcpus.symm, ?_, by rw [hsum]; rfl⟩
      have hcount (k : ℕ) : (replicate k (0 : UInt16)).foldl
          (fun cpuCount n => cpuCount + Int32.ofNat n.toNat) 0 = 0 := by
        induction k with
        | zero => rfl
        | succ k ih => exact ih
      rw [hsum, buildJobResourcesCpuArray, if_neg h, hcpus]
      exact congrArg Int32.toInt (hcount _)

theorem buildJobResourcesCpusArray_loses : ∃ r : JobCpus, r.cpus ≠ [] ∧
    ¬∃ r' n, buildJobResourcesCpusArray r.buildJobResourcesCpuArray.1 = some (r', n) ∧
      r'.cpus = r.cpus ∧ r.buildJobResourcesCpuArray.2.toInt = (r.cpus.map UInt16.toNat).sum ∧
      n.toInt = (r.cpus.map UInt16.toNat).sum := by
  refine ⟨{ cpus := [1] }, by decide, ?_⟩
  rintro ⟨r', n, heq, hcpus, -⟩
  cases heq
  exact absurd hcpus (by decide)

end JobCpus

end Slurm
