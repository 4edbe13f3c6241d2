import Slurm.JobResources

/-!
# Rows of cores

The plugin `select/cons_res` keeps, for each partition, a number of rows. The jobs in a
row have different cores, and a bitmap tells all the cores of the row. A job is put into the first
row that has room for it. When a job leaves, all jobs of the partition are put into rows anew,
to have as few rows in use as possible (`buildRowBitmaps`); if this does not work out the
jobs stay where they are.

The jobs that are put into rows anew are ordered by `qsort` with a function that compares them,
but never tells that one is smaller (`_compare_support`). So nothing can be said about their
order, and `sort` stands for any rearrangement.
-/

namespace Slurm.ConsRes

/-- A row of a partition (`part_row_data`): its cores in use, and its jobs. -/
structure PartRowData where
  rowBitmap : Option Bitmap := none
  jobList : List ℕ := []
  deriving DecidableEq

/-- The rows of a partition (`part_res_record`). They are there once there was a job. -/
structure PartResRecord where
  numRows : ℕ
  row : Option (List PartRowData) := none
  deriving DecidableEq

namespace PartRowData

variable (r : PartRowData)

/-- Clear the bitmap, if there is one. -/
def clear : PartRowData := { r with rowBitmap := r.rowBitmap.map fun _ => ∅ }

/-- The number of cores in use. -/
def setCount : ℕ := (r.rowBitmap.getD ∅).card

end PartRowData

/-- One round of the loop of `cr_sort_part_rows`: the row in front is exchanged with each of the
    others that has more cores in use. -/
def sweepRows (front : PartRowData) : List PartRowData → PartRowData × List PartRowData
  | [] => (front, [])
  | r :: rows =>
    if front.setCount < r.setCount then
      ((sweepRows r rows).1, front :: (sweepRows r rows).2)
    else ((sweepRows front rows).1, r :: (sweepRows front rows).2)

/-- The rounds of `cr_sort_part_rows`. -/
def sortRows : ℕ → List PartRowData → List PartRowData
  | n + 1, front :: rows => (sweepRows front rows).1 :: sortRows n (sweepRows front rows).2
  | _, rows => rows

/-- Sort the rows by their cores in use (`cr_sort_part_rows`). -/
def crSortPartRows (rows : List PartRowData) : List PartRowData := sortRows rows.length rows

section

variable (m : CoreMap) (res : ℕ → JobResources) (sort : List ℕ → List ℕ)

/-- The cores of a job. -/
def jobCores (job : ℕ) : Bitmap := (res job).cores m

/-- Whether a row has room for a job (`_can_job_fit_in_row`). -/
def canJobFitInRow (job : ℕ) (r : PartRowData) : Bool :=
  r.jobList.isEmpty || r.rowBitmap.isNone || jobFitsIntoCores m (res job) r.rowBitmap

/-- Put a job into a row (`_add_job_to_row`). The bitmap of a row without jobs is cleared. -/
def addJobToRow (job : ℕ) (r : PartRowData) : PartRowData :=
  let r := if r.jobList.isEmpty then r.clear else r
  { rowBitmap := some (addJobToCores m (res job) r.rowBitmap)
    jobList := r.jobList ++ [job] }

/-- Put a job into the first row that has room for it, if there is one. -/
def addToFirstRow (job : ℕ) : List PartRowData → Option (List PartRowData)
  | [] => none
  | r :: rows =>
    if canJobFitInRow m res job r then some (addJobToRow m res job r :: rows)
    else (addToFirstRow job rows).map (r :: ·)

/-- Take a job out of the first row it is in, if there is one. -/
def takeFromRows (job : ℕ) : List PartRowData → Option (List PartRowData)
  | [] => none
  | r :: rows =>
    if job ∈ r.jobList then some ({ r with jobList := r.jobList.erase job } :: rows)
    else (takeFromRows job rows).map (r :: ·)

/-- Put the next of all jobs into a row, and sort the rows. The second component tells
    whether there was room for all jobs so far. -/
def placeJob (p : List PartRowData × Bool) (job : ℕ) : List PartRowData × Bool :=
  match addToFirstRow m res job p.1 with
  | none => (crSortPartRows p.1, false)
  | some rows => (crSortPartRows rows, p.2)

/-- Make the bitmap of a row from its jobs. -/
def rebuildRow (r : PartRowData) : PartRowData :=
  { r with
    rowBitmap := r.jobList.foldl (fun b job => some (addJobToCores m (res job) b))
      r.clear.rowBitmap }

/-- Make the bitmaps of a partition anew, without a job that left (`_build_row_bitmaps`). -/
def buildRowBitmaps (job : Option ℕ) (rows : List PartRowData) : List PartRowData :=
  match rows with
  | [r] =>
    if r.jobList.isEmpty then [r.clear]
    else
      match job with
      | some job => [{ r with rowBitmap := some (removeJobFromCores m (res job) r.rowBitmap) }]
      | none => [rebuildRow m res r]
  | rows =>
    if rows.all (·.jobList.isEmpty) then rows.map (·.clear)
    else
      let p := (sort (rows.flatMap (·.jobList))).foldl (placeJob m res)
        (rows.map fun r => { r.clear with jobList := [] }, true)
      -- the jobs stay in their rows if there is no room for one of them
      if p.2 then p.1 else rows.map (rebuildRow m res)

end

end Slurm.ConsRes
