import Slurm.Lib.Run
import Slurm.ConsRes.Rows
import Slurm.ConsRes.Tables

/-!
# Jobs in rows

Jobs are started, suspended, resumed and ended, in any order that makes sense for each of
them. Whether some row could take the job when it was started or resumed last is kept beside
the tables (`JobLife`).

In every state that is reached the rows are exact, and each job that is running is
in just one row of its partition, once, if a row could take it, and in none
otherwise (`CrRun.rows_exact`). All other jobs are in no row.
-/

namespace Slurm.ConsRes

open Packing Function Option List CrState PartResRecord

/-- A job is not there, or it runs, or it is suspended. For one that runs it is known whether a
    row could take it when it was started or resumed last. -/
inductive JobLife
  | off
  | running (placed : Bool)
  | suspended
  deriving DecidableEq

/-- The tables, all jobs, where these are in their lives, and those that are there. -/
structure CrRun where
  state : CrState
  jobs : ℕ → CrJob
  life : ℕ → JobLife := fun _ => .off
  started : Finset ℕ := ∅

/-- What happens to a job: `_add_job_to_res` when it is started, `select_p_job_suspend` and
    `select_p_job_resume` with `indf_susp`, and `select_p_job_fini`. -/
inductive CrOp
  | start (job : ℕ)
  | suspend (job : ℕ)
  | resume (job : ℕ)
  | fini (job : ℕ)

/-- The rows of a partition. -/
def CrState.rowsAt (s : CrState) (part : ℕ) : Option (List PartRowData) :=
  (s.parts part).map (·.rows)

section

variable (cfg : CrConfig) (jobs : ℕ → CrJob) (life : ℕ → JobLife) (part : ℕ)
  (rows : List PartRowData)

/-- There is a row in which no job has one of the cores of this one. -/
def FitsIn (job : ℕ) : Prop :=
  ∃ r ∈ rows, ∀ k ∈ r.jobList,
    Disjoint (jobCores cfg.cores (resOf jobs) job) (jobCores cfg.cores (resOf jobs) k)
  deriving Decidable

/-- The rows of a partition are those of its jobs: each of them is exact, and a job that runs and
    was placed is in them once. No other job is in the rows. -/
structure PartExact : Prop where
  exact : ∀ r ∈ rows, RowExact cfg.cores (resOf jobs) r
  count : ∀ job, (rowJobs rows).count job =
    if life job = .running true ∧ (jobs job).partPtr = some part then 1 else 0

end

namespace CrRun

variable (cfg : CrConfig) (s : CrRun)

/-- Some row of the partition of the job could take it. -/
def rowFree (job : ℕ) : Bool :=
  (s.jobs job).resrcs.isSome &&
    (((s.jobs job).partPtr.bind s.state.rowsAt).any fun rows => FitsIn cfg s.jobs rows job)

/-- A job is started or resumed. -/
def add (job : ℕ) (act : ResAction) : CrRun where
  state := (addJobToRes cfg s.jobs job act s.state).1
  jobs := (addJobToRes cfg s.jobs job act s.state).2
  life := update s.life job (.running (s.rowFree cfg job))
  started := insert job s.started

/-- A job is suspended or ended. -/
def remove (job : ℕ) (act : ResAction) (life : JobLife) : CrRun where
  state := rmJobFromRes cfg s.jobs job act s.state
  jobs := s.jobs
  life := update s.life job life
  started := if life = .off then s.started.erase job else s.started

/-- One step. -/
def exec : CrOp → CrRun
  | .start job => s.add cfg job .all
  | .suspend job => s.remove cfg job .cores .suspended
  | .resume job => s.add cfg job .cores
  | .fini job => s.remove cfg job .all .off

/-- The job runs. -/
def IsRunning (job : ℕ) : Prop := s.life job = .running true ∨ s.life job = .running false
  deriving Decidable

/-- A job that is not there is started, one that runs is suspended, one that is suspended is
    resumed, and any of these two is ended. -/
def Valid : CrOp → Prop
  | .start job => s.life job = .off
  | .suspend job => s.IsRunning job
  | .resume job => s.life job = .suspended
  | .fini job => s.life job ≠ .off

instance : ∀ o, Decidable (s.Valid o)
  | .start _ | .resume _ => inferInstanceAs (Decidable (_ = _))
  | .suspend _ => inferInstanceAs (Decidable (IsRunning _ _))
  | .fini _ => inferInstanceAs (Decidable (_ ≠ _))

/-- The rows of all partitions are those of the jobs. A job that was placed has resources. -/
structure RowsExact : Prop where
  placed : ∀ job, s.life job = .running true → (s.jobs job).resrcs.isSome
  parts : ∀ part rows, s.state.rowsAt part = some rows → PartExact cfg s.jobs s.life part rows

end CrRun

/-! ## What becomes of the rows -/

section

variable {cfg : CrConfig} {s : CrState} {jobs : ℕ → CrJob} {job : ℕ} {act : ResAction}
  {r : CrResources}

@[simp] theorem CrState.onUse_parts (i : ℕ) (f : NodeUse → NodeUse) :
    (s.onUse i f).parts = s.parts := rfl

@[simp] theorem CrState.setGres_parts (i : ℕ) (gres : Option GresNodeList) :
    (s.setGres i gres).parts = s.parts := by
  unfold setGres
  split <;> rfl

variable (cfg r act) in
theorem foldl_addNode_parts (j : CrJob) (l : List (ℕ × ℕ)) (p : CrState × Option GresJobList) :
    (l.foldl (addNode cfg j r act) p).1.parts = p.1.parts := by
  induction l generalizing p with
  | nil => rfl
  | cons e l ih =>
    rw [foldl_cons, ih]
    unfold addNode
    dsimp only
    split_ifs <;> simp

variable (cfg r act) in
theorem foldl_rmNode_parts (j : CrJob) (l : List (ℕ × ℕ)) (s : CrState) :
    (l.foldl (rmNode cfg j r act) s).parts = s.parts := by
  induction l generalizing s with
  | nil => rfl
  | cons e l ih =>
    rw [foldl_cons, ih]
    unfold rmNode
    split_ifs <;> simp

variable (cfg jobs job act s) in
/-- Only the generic resources of the job are changed. -/
theorem addJobToRes_jobs (k : ℕ) :
    ∃ gres, (addJobToRes cfg jobs job act s).2 k = { jobs k with gresList := gres } := by
  unfold addJobToRes
  cases (jobs job).resrcs with
  | none => exact ⟨(jobs k).gresList, rfl⟩
  | some r =>
    by_cases hk : k = job
    · exact ⟨_, by rw [hk]; exact update_self ..⟩
    · exact ⟨(jobs k).gresList, update_of_ne hk ..⟩

theorem addJobToRes_resOf : resOf (addJobToRes cfg jobs job act s).2 = resOf jobs := by
  funext k
  obtain ⟨gres, hk⟩ := addJobToRes_jobs cfg s jobs job act k
  rw [resOf, hk, resOf]

theorem addJobToRes_resrcs (k : ℕ) :
    ((addJobToRes cfg jobs job act s).2 k).resrcs = (jobs k).resrcs := by
  obtain ⟨gres, hk⟩ := addJobToRes_jobs cfg s jobs job act k
  rw [hk]

theorem addJobToRes_partPtr (k : ℕ) :
    ((addJobToRes cfg jobs job act s).2 k).partPtr = (jobs k).partPtr := by
  obtain ⟨gres, hk⟩ := addJobToRes_jobs cfg s jobs job act k
  rw [hk]

variable {parts : ℕ → Option PartResRecord} {p : PartResRecord}

theorem findPart_eq_none {j : CrJob} :
    findPart parts j = none ↔ j.partPtr.bind parts = none := by
  cases hptr : j.partPtr <;> simp [findPart, hptr]

theorem findPart_eq_some {j : CrJob} {part : ℕ} :
    findPart parts j = some (part, p) ↔ j.partPtr = some part ∧ parts part = some p := by
  cases hptr : j.partPtr with
  | none => simp [findPart, hptr]
  | some part' =>
    simp only [findPart, hptr, bind_some, map_eq_some_iff, Prod.mk.injEq, some_inj]
    constructor
    · rintro ⟨p', hp', rfl, rfl⟩
      exact ⟨rfl, hp'⟩
    · rintro ⟨rfl, hp⟩
      exact ⟨p, hp, rfl, rfl⟩

/-- Either the partition of the job is not known, or the job is put into the first row that has
    room. -/
theorem addToPart_cases (cfg : CrConfig) (jobs : ℕ → CrJob) (job : ℕ) (r : CrResources)
    (s : CrState) :
    ((jobs job).partPtr.bind s.parts = none ∧ addToPart cfg jobs job r s = s) ∨
      ∃ part p, (jobs job).partPtr = some part ∧ s.parts part = some p ∧
        addToPart cfg jobs job r s = { s with
            parts := update s.parts part (some { p with
              row := some ((addToFirstRow cfg.cores (resOf jobs) job p.rows).getD p.rows) })
            usage := raiseStates cfg r s.usage } := by
  unfold addToPart
  cases hfind : findPart s.parts (jobs job) with
  | none => exact .inl ⟨findPart_eq_none.1 hfind, rfl⟩
  | some q =>
    obtain ⟨hptr, hp⟩ := findPart_eq_some.1 hfind
    exact .inr ⟨q.1, q.2, hptr, hp, rfl⟩

/-- Rows that were never made have no job in them. -/
theorem PartResRecord.row_bind_takeFromRows (p : PartResRecord) :
    p.row.bind (takeFromRows job) = takeFromRows job p.rows := by
  cases hrow : p.row with
  | none =>
    have hnone : takeFromRows job (List.replicate p.numRows {}) = none := by
      refine takeFromRows_none.2 fun hmem => ?_
      obtain ⟨r, hr, hjob⟩ := mem_rowJobs.1 hmem
      rw [(mem_replicate.1 hr).2] at hjob
      exact absurd hjob not_mem_nil
    rw [rows, hrow, getD_none, hnone, bind_none]
  | some rows => rw [PartResRecord.rows, hrow, getD_some, bind_some]

/-- Either the job is in no row of its partition, or it is taken out of its row and the rows
    are made anew. -/
theorem rmFromPart_cases (cfg : CrConfig) (jobs : ℕ → CrJob) (job : ℕ) (r : CrResources)
    (s : CrState) :
    ((∀ part rows, (jobs job).partPtr = some part → s.rowsAt part = some rows →
        takeFromRows job rows = none) ∧ rmFromPart cfg jobs job r s = s) ∨
      ∃ part p rows, (jobs job).partPtr = some part ∧ s.parts part = some p ∧
        takeFromRows job p.rows = some rows ∧ rmFromPart cfg jobs job r s = { s with
            parts := update s.parts part (some { p with
              row := some (buildRowBitmaps cfg.cores (resOf jobs) cfg.sort (some job) rows) })
            usage := lowerStates cfg r s.usage } := by
  unfold rmFromPart
  cases hfind : findPart s.parts (jobs job) with
  | none =>
    refine .inl ⟨fun part rows hptr hrows => ?_, rfl⟩
    have hnone := findPart_eq_none.1 hfind
    rw [hptr, bind_some] at hnone
    simp [rowsAt, hnone] at hrows
  | some q =>
    obtain ⟨hptr, hp⟩ := findPart_eq_some.1 hfind
    dsimp only
    rw [row_bind_takeFromRows]
    cases htake : takeFromRows job q.2.rows with
    | none =>
      refine .inl ⟨fun part rows hptr' hrows => ?_, rfl⟩
      rw [hptr, some_inj] at hptr'
      rw [← hptr', rowsAt, hp, map_some, some_inj] at hrows
      rw [← hrows, htake]
    | some rows => exact .inr ⟨q.1, q.2, rows, hptr, hp, htake, rfl⟩

theorem CrState.rowsAt_update
    (rows : List PartRowData) {part part' : ℕ} (h : s.parts = update parts part
      (some { p with row := some rows })) :
    s.rowsAt part' = if part' = part then some rows else (parts part').map (·.rows) := by
  rw [rowsAt, h]
  split_ifs with heq
  · rw [heq, update_self]
    rfl
  · rw [update_of_ne heq]

/-- The job is put into the first row of its partition that has room. -/
theorem addToPart_rowsAt (part : ℕ) :
    (addToPart cfg jobs job r s).rowsAt part = if (jobs job).partPtr = some part then
        (s.rowsAt part).map fun rows => (addToFirstRow cfg.cores (resOf jobs) job rows).getD rows
      else s.rowsAt part := by
  obtain ⟨hnone, heq⟩ | ⟨part', p, hptr, hp, heq⟩ := addToPart_cases cfg jobs job r s
  · rw [heq]
    split_ifs with hpart
    · rw [hpart, bind_some] at hnone
      simp [rowsAt, hnone]
    · rfl
  · rw [heq, rowsAt_update _ rfl, hptr]
    by_cases hpart : part = part'
    · subst hpart
      rw [if_pos rfl, if_pos rfl, rowsAt, hp]
      rfl
    · rw [if_neg hpart, if_neg fun h => hpart (some_inj.1 h).symm]
      rfl

/-- The job is taken out of its row, if it is in one, and the rows are made anew. -/
theorem rmFromPart_rowsAt (part : ℕ) :
    (rmFromPart cfg jobs job r s).rowsAt part = if (jobs job).partPtr = some part then
        (s.rowsAt part).map fun rows => ((takeFromRows job rows).map
            (buildRowBitmaps cfg.cores (resOf jobs) cfg.sort (some job))).getD rows
      else s.rowsAt part := by
  obtain ⟨hnone, heq⟩ | ⟨part', p, rows, hptr, hp, htake, heq⟩ := rmFromPart_cases cfg jobs job r s
  · rw [heq]
    split_ifs with hpart
    · cases hrows : s.rowsAt part with
      | none => rfl
      | some rows => rw [map_some, hnone part rows hpart hrows]; rfl
    · rfl
  · rw [heq, rowsAt_update _ rfl, hptr]
    by_cases hpart : part = part'
    · subst hpart
      rw [if_pos rfl, if_pos rfl, rowsAt, hp, map_some, map_some, htake]
      rfl
    · rw [if_neg hpart, if_neg fun h => hpart (some_inj.1 h).symm]
      rfl

/-- What is done node by node does not matter to the rows. -/
theorem addJobToRes_rowsAt (s : CrState) (hr : (jobs job).resrcs = some r) (hact : act ≠ .memory)
    (part : ℕ) :
    (addJobToRes cfg jobs job act s).1.rowsAt part = (addToPart cfg jobs job r s).rowsAt part := by
  unfold addJobToRes
  rw [hr]
  dsimp only
  rw [if_neg hact, addToPart_rowsAt, addToPart_rowsAt, rowsAt, foldl_addNode_parts]
  rfl

@[inherit_doc addJobToRes_rowsAt]
theorem rmJobFromRes_rowsAt (s : CrState) (hr : (jobs job).resrcs = some r) (hact : act ≠ .memory)
    (part : ℕ) :
    (rmJobFromRes cfg jobs job act s).rowsAt part = (rmFromPart cfg jobs job r s).rowsAt part := by
  unfold rmJobFromRes
  rw [hr]
  dsimp only
  rw [if_neg hact, rmFromPart_rowsAt, rmFromPart_rowsAt, rowsAt, foldl_rmNode_parts]
  rfl

end

/-! ## The rows of one partition -/

namespace PartExact

variable {cfg : CrConfig} {jobs jobs' : ℕ → CrJob} {life : ℕ → JobLife} {part job : ℕ}
  {rows : List PartRowData}

section

variable (h : PartExact cfg jobs life part rows) {life' : JobLife}

include h

/-- The rows can take a job just when there is a first row that has room. -/
theorem fitsIn_iff :
    FitsIn cfg jobs rows job ↔ (addToFirstRow cfg.cores (resOf jobs) job rows).isSome := by
  rw [isSome_iff_ne_none, ne_eq, addToFirstRow_none, not_forall]
  refine exists_congr fun r => ?_
  rw [Classical.not_imp, Classical.not_not]
  exact and_congr_right fun hr => (canJobFitInRow_iff (h.exact r hr)).symm

theorem congr (hres : resOf jobs' = resOf jobs)
    (hptr : ∀ k, (jobs' k).partPtr = (jobs k).partPtr) : PartExact cfg jobs' life part rows where
  exact := by
    rw [hres]
    exact h.exact
  count k := by
    rw [hptr]
    exact h.count k

/-- A job that is not in the rows, and is not put into them. -/
theorem keep (hold : ¬(life job = .running true ∧ (jobs job).partPtr = some part))
    (hnew : ¬(life' = .running true ∧ (jobs job).partPtr = some part)) :
    PartExact cfg jobs (update life job life') part rows where
  exact := h.exact
  count k := by
    by_cases hk : k = job
    · subst hk
      rw [h.count, update_self, if_neg hold, if_neg hnew]
    · rw [h.count, update_of_ne hk]

/-- A job that is not in the rows is put into the first row that has room. -/
theorem add (hlife : life job ≠ .running true) (hptr : (jobs job).partPtr = some part) :
    PartExact cfg jobs (update life job (.running (FitsIn cfg jobs rows job))) part
      ((addToFirstRow cfg.cores (resOf jobs) job rows).getD rows) := by
  cases hadd : addToFirstRow cfg.cores (resOf jobs) job rows with
  | none =>
    have hfits : ¬FitsIn cfg jobs rows job := by simp [h.fitsIn_iff, hadd]
    exact h.keep (fun hor => hlife hor.1) (by simp [hfits])
  | some rows' =>
    have hfits : FitsIn cfg jobs rows job := by simp [h.fitsIn_iff, hadd]
    obtain ⟨hexact, hperm⟩ := addToFirstRow_some h.exact hadd
    refine ⟨hexact, fun k => ?_⟩
    rw [getD_some, hperm.count_eq, count_cons, h.count]
    by_cases hk : k = job
    · subst hk
      simp [hlife, hptr, hfits]
    · simp [hk, Ne.symm hk]

/-- A job is taken out of its row, if it is in one. -/
theorem remove (hlife' : life' ≠ .running true) :
    PartExact cfg jobs (update life job life') part (((takeFromRows job rows).map
        (buildRowBitmaps cfg.cores (resOf jobs) cfg.sort (some job))).getD rows) := by
  cases htake : takeFromRows job rows with
  | none =>
    have hcount := h.count job
    rw [count_eq_zero.2 (takeFromRows_none.1 htake)] at hcount
    refine h.keep (fun hor => ?_) fun hor => hlife' hor.1
    rw [if_pos hor] at hcount
    exact absurd hcount (by decide)
  | some rows' =>
    obtain ⟨hexact, hperm⟩ := buildRowBitmaps_take cfg.sort_perm h.exact htake
    refine ⟨hexact, fun k => ?_⟩
    rw [map_some, getD_some, hperm.count_eq]
    by_cases hk : k = job
    · subst hk
      -- it was there once
      have hnew : ¬(life' = .running true ∧ (jobs k).partPtr = some part) := fun hor => hlife' hor.1
      rw [count_erase_self, h.count, update_self, if_neg hnew]
      split_ifs <;> rfl
    · rw [count_erase_of_ne hk, h.count, update_of_ne hk]

end

end PartExact

namespace CrRun

variable {cfg : CrConfig} {s : CrRun} {job : ℕ} {act : ResAction}

/-! ## One step -/

variable (cfg) in
theorem isSome_of_rowFree (h : s.rowFree cfg job) : (s.jobs job).resrcs.isSome := by
  rw [rowFree, Bool.and_eq_true] at h
  exact h.1

/-- A job that is not in a row is started or resumed. -/
theorem RowsExact.add (h : s.RowsExact cfg) (hlife : s.life job ≠ .running true)
    (hact : act ≠ .memory) : (s.add cfg job act).RowsExact cfg where
  placed k hk := by
    rw [show ((s.add cfg job act).jobs k).resrcs = _ from addJobToRes_resrcs k]
    by_cases heq : k = job
    · subst heq
      exact isSome_of_rowFree cfg (by simpa [CrRun.add] using hk)
    · exact h.placed k (by simpa [CrRun.add, heq] using hk)
  parts part rows' hrows' := by
    refine PartExact.congr ?_ addJobToRes_resOf addJobToRes_partPtr
    cases hsome : (s.jobs job).resrcs with
    | none =>
      have hstate : (s.add cfg job act).state = s.state := by
        simp [CrRun.add, addJobToRes, hsome]
      rw [hstate] at hrows'
      refine (h.parts part rows' hrows').keep (fun hor => hlife hor.1) fun hor => ?_
      simp [rowFree, hsome] at hor
    | some r =>
      have hrows : some rows' = _ := hrows'.symm.trans (addJobToRes_rowsAt s.state hsome hact part)
      rw [addToPart_rowsAt] at hrows
      by_cases hptr : (s.jobs job).partPtr = some part
      · rw [if_pos hptr] at hrows
        obtain ⟨rows, hold, rfl⟩ := map_eq_some_iff.1 hrows.symm
        have hfree : s.rowFree cfg job = decide (FitsIn cfg s.jobs rows job) := by
          simp [rowFree, hsome, hptr, hold]
        rw [CrRun.add, hfree]
        exact (h.parts part rows hold).add hlife hptr
      · rw [if_neg hptr] at hrows
        exact (h.parts part rows' hrows.symm).keep (fun hor => hptr hor.2) fun hor => hptr hor.2

/-- A job is suspended or ended. -/
theorem RowsExact.remove (h : s.RowsExact cfg) {life : JobLife} (hlife : life ≠ .running true)
    (hact : act ≠ .memory) : (s.remove cfg job act life).RowsExact cfg where
  placed k hk := by
    refine h.placed k ?_
    by_cases heq : k = job
    · subst heq
      exact absurd (by simpa [CrRun.remove] using hk) hlife
    · simpa [CrRun.remove, heq] using hk
  parts part rows' hrows' := by
    cases hsome : (s.jobs job).resrcs with
    | none =>
      have hstate : (s.remove cfg job act life).state = s.state := by
        simp [CrRun.remove, rmJobFromRes, hsome]
      rw [hstate] at hrows'
      refine (h.parts part rows' hrows').keep (fun hor => ?_) fun hor => hlife hor.1
      have hplaced := h.placed job hor.1
      rw [hsome] at hplaced
      exact absurd hplaced (by simp)
    | some r =>
      have hrows : some rows' = _ := hrows'.symm.trans (rmJobFromRes_rowsAt s.state hsome hact part)
      rw [rmFromPart_rowsAt] at hrows
      by_cases hptr : (s.jobs job).partPtr = some part
      · rw [if_pos hptr] at hrows
        obtain ⟨rows, hold, rfl⟩ := map_eq_some_iff.1 hrows.symm
        exact (h.parts part rows hold).remove hlife
      · rw [if_neg hptr] at hrows
        exact (h.parts part rows' hrows.symm).keep (fun hor => hptr hor.2) fun hor => hptr hor.2

theorem RowsExact.exec (h : s.RowsExact cfg) {o : CrOp} (hvalid : s.Valid o) :
    (s.exec cfg o).RowsExact cfg := by
  cases o with
  | start job =>
    have hoff : s.life job = .off := hvalid
    exact h.add (by simp [hoff]) (by decide)
  | suspend job => exact h.remove (by simp) (by decide)
  | resume job =>
    have hsusp : s.life job = .suspended := hvalid
    exact h.add (by simp [hsusp]) (by decide)
  | fini job => exact h.remove (by simp) (by decide)

/-! A step leaves all partitions in place. -/

theorem isSome_parts_add (hact : act ≠ .memory) (part : ℕ) :
    ((s.add cfg job act).state.parts part).isSome = (s.state.parts part).isSome := by
  have hrows : ((addJobToRes cfg s.jobs job act s.state).1.rowsAt part).isSome =
      (s.state.rowsAt part).isSome := by
    cases hr : (s.jobs job).resrcs with
    | none => simp [addJobToRes, hr]
    | some r =>
      rw [addJobToRes_rowsAt s.state hr hact, addToPart_rowsAt]
      split_ifs <;> simp
  rwa [rowsAt, rowsAt, isSome_map, isSome_map] at hrows

theorem isSome_parts_remove (hact : act ≠ .memory) (life : JobLife) (part : ℕ) :
    ((s.remove cfg job act life).state.parts part).isSome = (s.state.parts part).isSome := by
  have hrows : ((rmJobFromRes cfg s.jobs job act s.state).rowsAt part).isSome =
      (s.state.rowsAt part).isSome := by
    cases hr : (s.jobs job).resrcs with
    | none => simp [rmJobFromRes, hr]
    | some r =>
      rw [rmJobFromRes_rowsAt s.state hr hact, rmFromPart_rowsAt]
      split_ifs <;> simp
  rwa [rowsAt, rowsAt, isSome_map, isSome_map] at hrows

theorem isSome_parts_exec (s : CrRun) (o : CrOp) (part : ℕ) :
    ((s.exec cfg o).state.parts part).isSome = (s.state.parts part).isSome := by
  cases o with
  | start job => exact isSome_parts_add (by decide) part
  | suspend job => exact isSome_parts_remove (by decide) _ part
  | resume job => exact isSome_parts_add (by decide) part
  | fini job => exact isSome_parts_remove (by decide) _ part

/-! ## Whole runs -/

theorem run_rowsAt_isSome (s : CrRun) (os : List CrOp) (part : ℕ) :
    ((Run.run (exec cfg) s os).state.rowsAt part).isSome = (s.state.rowsAt part).isSome := by
  rw [rowsAt, rowsAt, isSome_map, isSome_map]
  induction os generalizing s with
  | nil => rfl
  | cons o os ih => exact (ih _).trans (isSome_parts_exec s o part)

/-- There are no jobs, and the rows of the partitions were not made yet. -/
structure Fresh (s : CrRun) : Prop where
  life : ∀ job, s.life job = .off
  started : s.started = ∅
  parts : ∀ part p, s.state.parts part = some p → p.row = none

theorem Fresh.rowsExact (h : s.Fresh) : s.RowsExact cfg where
  placed job hjob := absurd hjob (by simp [h.life])
  parts part rows hrows := by
    obtain ⟨p, hp, rfl⟩ := map_eq_some_iff.1 hrows
    rw [rows, h.parts part p hp, getD_none]
    constructor
    · intro r hr
      rw [(mem_replicate.1 hr).2]
      exact .empty
    · intro job
      have hjobs : job ∉ rowJobs (List.replicate p.numRows {}) := by
        intro hmem
        obtain ⟨r, hr, hjob⟩ := mem_rowJobs.1 hmem
        rw [(mem_replicate.1 hr).2] at hjob
        exact absurd hjob not_mem_nil
      simp [count_eq_zero.2 hjobs, h.life]

/-- In every state that is reached there are the partitions of the start, the rows are exact, and
    the jobs that run and were placed are each in one row of their partition. -/
theorem rows_exact {os : List CrOp} (h : s.Fresh) (hrun : Run.Admissible (exec cfg) Valid s os) :
    (Run.run (exec cfg) s os).RowsExact cfg ∧
      ∀ part, ((Run.run (exec cfg) s os).state.rowsAt part).isSome =
        (s.state.rowsAt part).isSome :=
  ⟨Run.invariant_run (fun _ _ hinv hvalid => hinv.exec hvalid) h.rowsExact hrun,
    run_rowsAt_isSome s os⟩

/-- One node with two cores. -/
def twoCores : CrConfig where
  cores := { nodeRecordCount := 1, nodeCoresOffset := fun _ => 0, bitsPerNode := fun _ => 2 }
  sort := id
  sort_perm := .refl

/-- A job that has one of the cores. -/
def coreJob (core nodeReq : ℕ) : CrJob where
  resrcs := some
    { nodeBitmap := {0}
      coreBitmap := {core}
      coreSize := 2
      nhosts := 1
      cpus := fun _ => 1
      memoryAllocated := fun _ => 10
      nodeReq
      sockCoreRep := [(1, 2, 1)] }
  partPtr := some 0

/-- A partition with so many rows. -/
def rowsOnly (numRows : ℕ) : CrState where
  parts part := if part = 0 then some { numRows } else none

/-- Jobs 0 and 2 have the same core. -/
theorem rows_exact_jobs :
    let s := Run.run (exec twoCores) { state := rowsOnly 2, jobs := fun k => coreJob (k % 2) 0 }
      [.start 0, .start 1, .start 2, .suspend 0, .resume 0, .fini 2]
    s.RowsExact twoCores ∧ (s.state.rowsAt 0).isSome := by
  have hfresh : Fresh { state := rowsOnly 2, jobs := fun k => coreJob (k % 2) 0 } := by
    refine ⟨fun _ => rfl, rfl, fun part p hp => ?_⟩
    obtain ⟨-, rfl⟩ : part = 0 ∧ { numRows := 2 } = p := by simpa [rowsOnly] using hp
    rfl
  have hexact := rows_exact hfresh (show Run.Admissible (exec twoCores) Valid _
    [.start 0, .start 1, .start 2, .suspend 0, .resume 0, .fini 2] by decide)
  exact ⟨hexact.1, hexact.2 0⟩

end CrRun

end Slurm.ConsRes
