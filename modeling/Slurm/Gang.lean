import Slurm.JobResources

/-!
# Gang scheduling

The gang scheduler (`gang.c`) lets jobs share resources in time. Every partition has
a list of its jobs and a row of those that run now, the active row; the others are
suspended. A time slice later, the jobs that ran go to the back of the list, and a
new row is built from the front (`cycleJobList`). A job that runs in a partition
casts a shadow on all partitions of a lower priority (`castShadow`), and the row of
a partition is built beside the shadows on it.

The model is that of cores as resources (`GS_CORE`), and of jobs that are preempted by
being suspended. Suspending and resuming a job is assumed to work, and shows in
`sigState` only. The partitions are sorted by `qsort` at several places, so that the
order of those with one priority is not known: it is given to the operations.

What the scheduler does for one partition is in the relation `Acts`: it changes
the jobs of this partition, and their shadows, and nothing else.
-/

namespace Slurm

open Function

/-- Whether a job was last suspended or resumed (`GS_SUSPEND`, `GS_RESUME`). -/
inductive SigState
  | suspend
  | resume
  deriving DecidableEq

/-- The place of a job in the active row (`GS_ACTIVE`, `GS_NO_ACTIVE`, `GS_FILLER`). -/
inductive RowState
  | active
  | noActive
  | filler
  deriving DecidableEq

/-- What the gang scheduler reads of the record of a job. -/
structure GangJob where
  jobId : ℕ
  jobState : JobState
  partName : CStr
  priority : ℕ
  jobResrcs : JobResources

/-- A job of the gang scheduler (`struct gs_job`), with what it reads of its record. -/
structure GsJob where
  jobId : ℕ := 0
  jobResrcs : JobResources := {}
  priority : ℕ := 0
  sigState : SigState := .suspend
  rowState : RowState := .noActive

/-- A partition of the gang scheduler (`struct gs_part`). -/
structure GsPart where
  partName : CStr := []
  priority : ℕ := 0
  jobList : List Ptr := []
  shadow : List Ptr := []
  jobsActive : ℕ := 0
  activeResmap : Option Bitmap := none

/-- The data of the gang scheduler. -/
structure Gang where
  job : Ptr → GsJob := fun _ => {}
  part : Ptr → GsPart := fun _ => {}
  gsPartList : List Ptr := []

namespace Gang

/-- Change the job `j`. -/
def modJob (g : Gang) (j : Ptr) (f : GsJob → GsJob) : Gang :=
  { g with job := update g.job j (f (g.job j)) }

/-- Change the partition `p`. -/
def modPart (g : Gang) (p : Ptr) (f : GsPart → GsPart) : Gang :=
  { g with part := update g.part p (f (g.part p)) }

/-- Change all partitions in the list. -/
def modParts (g : Gang) (f : GsPart → GsPart) : Gang :=
  { g with part := fun p => if p ∈ g.gsPartList then f (g.part p) else g.part p }

/-- The partition with a name (`_find_gs_part`). -/
def findGsPart (g : Gang) (name : CStr) : Option Ptr :=
  g.gsPartList.find? fun p => (g.part p).partName = name

/-- The job of a partition with an id (`_find_job_index`). -/
def findJob (g : Gang) (p : Ptr) (jobId : ℕ) : Option Ptr :=
  (g.part p).jobList.find? fun j => (g.job j).jobId = jobId

/-- The cores of a job. -/
def cores (m : CoreMap) (g : Gang) (j : Ptr) : Bitmap := (g.job j).jobResrcs.cores m

/-! ## Rows and shadows -/

/-- The job `j` fits in the active row (`_job_fits_in_active_row`). -/
def fits (m : CoreMap) (g : Gang) (p j : Ptr) : Prop :=
  (g.part p).activeResmap = none ∨ (g.part p).jobsActive = 0 ∨
    jobFitsIntoCores m (g.job j).jobResrcs (g.part p).activeResmap
  deriving Decidable

/-- Add the job `j` to the active row (`_add_job_to_active`). -/
def addJobToActive (m : CoreMap) (g : Gang) (p j : Ptr) : Gang :=
  g.modPart p fun t =>
    { t with
      activeResmap := some (addJobToCores m (g.job j).jobResrcs
        (if t.jobsActive = 0 then t.activeResmap.map fun _ => ∅ else t.activeResmap))
      jobsActive := t.jobsActive + 1 }

/-- Add the job `j` as a shadow to the partitions below a priority (`_cast_shadow`). -/
def castShadow (g : Gang) (j : Ptr) (priority : ℕ) : Gang :=
  g.modParts fun t =>
    if priority ≤ t.priority ∨ j ∈ t.shadow then t else { t with shadow := t.shadow ++ [j] }

/-- Take the shadow of the job `j` off all partitions (`_clear_shadow`). -/
def clearShadow (g : Gang) (j : Ptr) : Gang :=
  g.modParts fun t => { t with shadow := t.shadow.erase j }

/-- A job that is in the row already stays there, or is preempted by a shadow. -/
def keepJob (m : CoreMap) (p : Ptr) (want : RowState) (g : Gang) (j : Ptr) : Gang :=
  if (g.job j).rowState ≠ want then g
  else if g.fits m p j then (g.addJobToActive m p j).castShadow j (g.part p).priority
  else
    let g :=
      if (g.job j).sigState ≠ .suspend then
        (g.modJob j fun k => { k with sigState := .suspend }).clearShadow j
      else g
    g.modJob j fun k => { k with rowState := .noActive }

/-- A job that waits is added to the row, if it fits. -/
def fillJob (m : CoreMap) (p : Ptr) (g : Gang) (j : Ptr) : Gang :=
  if (g.job j).rowState ≠ .noActive ∨ (g.job j).priority = 0 then g
  else if g.fits m p j then
    let g := (g.addJobToActive m p j).castShadow j (g.part p).priority
    g.modJob j fun k => { k with rowState := .filler, sigState := .resume }
  else g

/-- Empty the active row, and add the shadows to it. -/
def addShadows (m : CoreMap) (g : Gang) (p : Ptr) : Gang :=
  (g.part p).shadow.foldl (fun g j => g.addJobToActive m p j)
    (g.modPart p fun t => { t with jobsActive := 0 })

/-- Build the active row anew, with the jobs in the order they have
    (`_update_active_row`). -/
def updateActiveRow (m : CoreMap) (g : Gang) (p : Ptr) (addNewJobs : Bool) : Gang :=
  let g := g.addShadows m p
  let g := (g.part p).jobList.foldl (keepJob m p .active) g
  let g := (g.part p).jobList.foldl (keepJob m p .filler) g
  if addNewJobs then (g.part p).jobList.foldl (fillJob m p) g else g

/-- Build the active rows of all partitions anew, in the order `order`
    (`_update_all_active_rows`). -/
def updateAllActiveRows (m : CoreMap) (g : Gang) (order : List Ptr) : Gang :=
  order.foldl (fun g p => g.updateActiveRow m p true) { g with gsPartList := order }

/-! ## Jobs that come and go -/

/-- Take a job out of a partition (`_remove_job_from_part`). -/
def removeJobFromPart (g : Gang) (jobId : ℕ) (p : Ptr) : Gang :=
  if jobId = 0 then g
  else
    match g.findJob p jobId with
    | none => g
    | some j => (g.clearShadow j).modPart p fun t => { t with jobList := t.jobList.erase j }

/-- What `_add_job_to_part` does first: an old record of the job goes. -/
def cleared (m : CoreMap) (g : Gang) (p : Ptr) (job : GangJob) : Gang :=
  match g.findJob p job.jobId with
  | none => g
  | some _ => (g.removeJobFromPart job.jobId p).updateActiveRow m p false

/-- Add a job to a partition, at the address `j` (`_add_job_to_part`). It runs if it fits,
    and is suspended otherwise. -/
def addJobToPart (m : CoreMap) (g : Gang) (p : Ptr) (job : GangJob) (j : Ptr) : SigState × Gang :=
  let g := g.cleared m p job
  let g := g.modJob j fun _ =>
    { jobId := job.jobId, jobResrcs := job.jobResrcs, priority := job.priority, sigState := .resume }
  let g := g.modPart p fun t => { t with jobList := t.jobList ++ [j] }
  if ¬job.jobState.isSuspended ∧ g.fits m p j then
    let g := (g.addJobToActive m p j).modJob j fun k => { k with rowState := .filler }
    (.resume, g.castShadow j (g.part p).priority)
  else (.suspend, g.modJob j fun k => { k with sigState := .suspend })

/-- A job has started (`gs_job_start`). -/
def gsJobStart (m : CoreMap) (g : Gang) (job : GangJob) (j : Ptr) (order : List Ptr) : Gang :=
  match g.findGsPart job.partName with
  | none => g
  | some p =>
    let (sig, g) := g.addJobToPart m p job j
    if sig = .resume then g.updateAllActiveRows m order else g

/-- A job has ended (`gs_job_fini`). -/
def gsJobFini (m : CoreMap) (g : Gang) (job : GangJob) (order : List Ptr) : Gang :=
  match g.findGsPart job.partName with
  | none => g
  | some p => (g.removeJobFromPart job.jobId p).updateAllActiveRows m order

/-- One job in the list of all jobs is looked at; a new one gets the address `j`. -/
def scanJob (m : CoreMap) (g : Gang) (job : GangJob) (j : Ptr) : Gang :=
  if job.jobState.isPending ∨ (job.jobState.isSuspended ∧ job.priority = 0) then g
  else
    match g.findGsPart job.partName with
    | none => g
    | some p =>
      if job.jobState.isSuspended ∨ job.jobState.isRunning then
        if (g.findJob p job.jobId).isSome then g else (g.addJobToPart m p job j).2
      else g.removeJobFromPart job.jobId p

/-- All jobs are looked at (`gs_job_scan`). -/
def gsJobScan (m : CoreMap) (g : Gang) (jobs : List (GangJob × Ptr)) (order : List Ptr) : Gang :=
  (jobs.foldl (fun g x => g.scanJob m x.1 x.2) g).updateAllActiveRows m order

end Gang

/-! ## Time slices -/

/-- The loop that moves the jobs which ran to the back of the list. The list is `front`, up to
    the index of the loop, and `rest` from there on. -/
structure CycleLoop where
  job : Ptr → GsJob
  front : List Ptr
  rest : List Ptr

/-- One round of the loop: the job at the index goes to the back, or the index goes up. -/
def CycleLoop.step (s : CycleLoop) : CycleLoop :=
  match s.rest with
  | [] => s
  | j :: rest =>
    match (s.job j).rowState with
    | .active =>
      { s with
        job := update s.job j { s.job j with rowState := .noActive }
        rest := rest ++ [j] }
    | .filler =>
      { job := update s.job j { s.job j with rowState := .noActive }
        front := s.front ++ [j]
        rest := rest }
    | .noActive => { s with front := s.front ++ [j], rest := rest }

namespace Gang

/-- The loop over the jobs of `p`, after two rounds for each of them. -/
def cycleLoop (g : Gang) (p : Ptr) : CycleLoop :=
  CycleLoop.step^[2 * (g.part p).jobList.length] ⟨g.job, [], (g.part p).jobList⟩

/-- A job is added to a row that is built anew, if it fits. -/
def activateJob (m : CoreMap) (p : Ptr) (g : Gang) (j : Ptr) : Gang :=
  if (g.job j).priority = 0 then g
  else if g.fits m p j then
    (g.addJobToActive m p j).modJob j fun k => { k with rowState := .active }
  else g

/-- Build the active row from the list of jobs (`_build_active_row`). -/
def buildActiveRow (m : CoreMap) (g : Gang) (p : Ptr) : Gang :=
  if (g.part p).jobList = [] then g.modPart p fun t => { t with jobsActive := 0 }
  else
    let g := g.addShadows m p
    (g.part p).jobList.foldl (activateJob m p) g

/-- A job that runs and is not in the row is suspended. -/
def suspendIdle (g : Gang) (j : Ptr) : Gang :=
  if (g.job j).rowState = .noActive ∧ (g.job j).sigState = .resume then
    (g.modJob j fun k => { k with sigState := .suspend }).clearShadow j
  else g

/-- A job that is suspended and in the row is resumed. -/
def resumeActive (p : Ptr) (g : Gang) (j : Ptr) : Gang :=
  if (g.job j).rowState = .active ∧ (g.job j).sigState = .suspend ∧ (g.job j).priority ≠ 0 then
    (g.modJob j fun k => { k with sigState := .resume }).castShadow j (g.part p).priority
  else g

/-- The jobs of a partition take turns (`_cycle_job_list`). -/
def cycleJobList (m : CoreMap) (g : Gang) (p : Ptr) : Gang :=
  let s := g.cycleLoop p
  let g := Gang.modPart { g with job := s.job } p fun t => { t with jobList := s.front ++ s.rest }
  let g := g.buildActiveRow m p
  let g := (g.part p).jobList.foldl suspendIdle g
  (g.part p).jobList.foldl (resumeActive p) g

/-- The jobs of a partition take turns, if there seem to be some that wait. -/
def slicePart (m : CoreMap) (g : Gang) (p : Ptr) : Gang :=
  if (g.part p).jobsActive < (g.part p).jobList.length + (g.part p).shadow.length then
    g.cycleJobList m p
  else g

/-- A time slice is over (`_timeslicer_thread`). -/
def timeSlice (m : CoreMap) (g : Gang) (order : List Ptr) : Gang :=
  order.foldl (slicePart m) { g with gsPartList := order }

end Gang

end Slurm
