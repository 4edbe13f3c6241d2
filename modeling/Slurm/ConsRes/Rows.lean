import Slurm.Lib.Packing
import Slurm.ConsRes

/-!
# The bitmaps of rows are exact

A row is *exact* when its jobs have different cores and its bitmap is that of all their cores
(`RowExact`). A job fits into such a row just when no job of the row has one of its
cores (`canJobFitInRow_iff`).

* A job that is added is in the rows once more, and they stay exact (`addToFirstRow_some`). If it
  is not added no row has room for it (`addToFirstRow_none`).
* The rows are exact again after a job was taken out of them and they were made anew, and they
  have the same jobs as before but for this one (`buildRowBitmaps_take`).
-/

namespace Slurm.ConsRes

open Packing List Option PartRowData

variable {m : CoreMap} {res : ℕ → JobResources} {job : ℕ} {r : PartRowData}
  {rows rows' : List PartRowData}

/-- The jobs of a partition, row by row. -/
def rowJobs (rows : List PartRowData) : List ℕ := rows.flatMap (·.jobList)

@[simp] theorem rowJobs_nil : rowJobs [] = [] := rfl

@[simp] theorem rowJobs_cons : rowJobs (r :: rows) = r.jobList ++ rowJobs rows := rfl

theorem mem_rowJobs : job ∈ rowJobs rows ↔ ∃ r ∈ rows, job ∈ r.jobList := mem_flatMap

variable (m res) in
/-- The jobs of a row have different cores, and the bitmap is that of their cores. There is a
    bitmap if there are jobs. -/
structure RowExact (r : PartRowData) : Prop where
  apart : Apart (jobCores m res) r.jobList
  bitmap : r.rowBitmap.getD ∅ = cover (jobCores m res) r.jobList
  exists_bitmap : r.jobList ≠ [] → r.rowBitmap.isSome

theorem RowExact.empty : RowExact m res {} :=
  ⟨List.Pairwise.nil, rfl, fun h => absurd rfl h⟩

/-! ## A job is added -/

theorem canJobFitInRow_iff (h : RowExact m res r) :
    canJobFitInRow m res job r ↔ ∀ k ∈ r.jobList, Disjoint (jobCores m res job)
      (jobCores m res k) := by
  rw [← disjoint_cover, ← h.bitmap]
  cases hb : r.rowBitmap with
  | none => simp [canJobFitInRow, hb]
  | some b =>
    have hfits := jobFitsIntoCores_iff m (res job) (some b)
    simp only [canJobFitInRow, hb, isNone_some, Bool.or_false, Bool.or_eq_true, hfits]
    refine ⟨fun hor => hor.elim (fun hnil => ?_) id, .inr⟩
    -- without jobs the bitmap is empty
    have hcover := h.bitmap
    rw [hb, isEmpty_iff.1 hnil, cover_nil] at hcover
    rw [hcover]
    exact Finset.disjoint_empty_right _

theorem RowExact.clear (h : RowExact m res r) (hnil : r.jobList = []) :
    RowExact m res r.clear := by
  refine ⟨h.apart, ?_, fun hne => absurd hnil hne⟩
  rw [show r.clear.jobList = [] from hnil, cover_nil]
  cases hb : r.rowBitmap <;> simp [PartRowData.clear, hb]

theorem addJobToRow_exact (h : RowExact m res r) (hfit : canJobFitInRow m res job r) :
    RowExact m res (addJobToRow m res job r) := by
  have hdis := disjoint_cover.2 ((canJobFitInRow_iff h).1 hfit)
  unfold addJobToRow
  by_cases hnil : r.jobList.isEmpty
  · have hclear := h.clear (isEmpty_iff.1 hnil)
    have hlist : r.clear.jobList = r.jobList := rfl
    rw [if_pos hnil]
    refine ⟨hclear.apart.concat (hlist ▸ hdis), ?_, fun _ => rfl⟩
    rw [getD_some, addJobToCores_eq, hclear.bitmap, cover_concat]
    rfl
  · rw [if_neg hnil]
    refine ⟨h.apart.concat hdis, ?_, fun _ => rfl⟩
    rw [getD_some, addJobToCores_eq, h.bitmap, cover_concat]
    rfl

theorem jobList_addJobToRow : (addJobToRow m res job r).jobList = r.jobList ++ [job] := by
  unfold addJobToRow
  split <;> rfl

/-- No row has room for the job. -/
theorem addToFirstRow_none :
    addToFirstRow m res job rows = none ↔ ∀ r ∈ rows, ¬canJobFitInRow m res job r := by
  induction rows with
  | nil => simp [addToFirstRow]
  | cons r rows ih =>
    by_cases hfit : canJobFitInRow m res job r <;> simp [addToFirstRow, hfit, ih]

/-- A row has room, and the job is one of its jobs now. -/
theorem addToFirstRow_some (hrows : ∀ r ∈ rows, RowExact m res r)
    (h : addToFirstRow m res job rows = some rows') :
    (∀ r ∈ rows', RowExact m res r) ∧ (rowJobs rows').Perm (job :: rowJobs rows) := by
  induction rows generalizing rows' with
  | nil => exact absurd h (by simp [addToFirstRow])
  | cons r rows ih =>
    obtain ⟨hr, htail⟩ := forall_mem_cons.1 hrows
    unfold addToFirstRow at h
    by_cases hfit : canJobFitInRow m res job r
    · rw [if_pos hfit] at h
      cases h
      refine ⟨forall_mem_cons.2 ⟨addJobToRow_exact hr hfit, htail⟩, ?_⟩
      rw [rowJobs_cons, rowJobs_cons, jobList_addJobToRow, append_assoc]
      exact perm_middle
    · rw [if_neg hfit] at h
      obtain ⟨rows1, h1, rfl⟩ := map_eq_some_iff.1 h
      obtain ⟨hexact, hperm⟩ := ih htail h1
      refine ⟨forall_mem_cons.2 ⟨hr, hexact⟩, ?_⟩
      exact (hperm.append_left r.jobList).trans perm_middle

/-! ## The rows are made anew -/

theorem sweepRows_perm (front : PartRowData) (rows : List PartRowData) :
    ((sweepRows front rows).1 :: (sweepRows front rows).2).Perm (front :: rows) := by
  induction rows generalizing front with
  | nil => exact .refl _
  | cons r rows ih =>
    unfold sweepRows
    split
    · exact (List.Perm.swap _ _ _).trans ((ih r).cons front)
    · exact (List.Perm.swap _ _ _).trans (((ih front).cons r).trans (List.Perm.swap _ _ _))

theorem sortRows_perm (n : ℕ) (rows : List PartRowData) : (sortRows n rows).Perm rows := by
  induction n generalizing rows with
  | zero => exact .refl _
  | succ n ih =>
    cases rows with
    | nil => exact .refl _
    | cons front rows => exact ((ih _).cons _).trans (sweepRows_perm ..)

theorem crSortPartRows_perm (rows : List PartRowData) : (crSortPartRows rows).Perm rows :=
  sortRows_perm _ rows

/-- Placing jobs keeps the rows exact. If there is room for all of them, they are in the
    rows. -/
theorem foldl_placeJob (jobs : List ℕ) (p : List PartRowData × Bool)
    (hp : ∀ r ∈ p.1, RowExact m res r) :
    (∀ r ∈ (jobs.foldl (placeJob m res) p).1, RowExact m res r) ∧
      ((jobs.foldl (placeJob m res) p).2 → p.2 ∧
        (rowJobs (jobs.foldl (placeJob m res) p).1).Perm (jobs ++ rowJobs p.1)) := by
  induction jobs generalizing p with
  | nil => exact ⟨hp, fun h => ⟨h, .refl _⟩⟩
  | cons job jobs ih =>
    rw [foldl_cons]
    cases hadd : addToFirstRow m res job p.1 with
    | none =>
      have hsort := crSortPartRows_perm p.1
      have hplace : placeJob m res p job = (crSortPartRows p.1, false) := by
        simp [placeJob, hadd]
      rw [hplace]
      have hih := ih (crSortPartRows p.1, false) fun r hr => hp r (hsort.mem_iff.1 hr)
      exact ⟨hih.1, fun h => absurd (hih.2 h).1 (by simp)⟩
    | some rows =>
      obtain ⟨hexact, hperm⟩ := addToFirstRow_some hp hadd
      have hsort := crSortPartRows_perm rows
      have hplace : placeJob m res p job = (crSortPartRows rows, p.2) := by
        simp [placeJob, hadd]
      rw [hplace]
      have hih := ih (crSortPartRows rows, p.2) fun r hr => hexact r (hsort.mem_iff.1 hr)
      refine ⟨hih.1, fun h => ⟨(hih.2 h).1, (hih.2 h).2.trans ?_⟩⟩
      have hjobs := (hsort.flatMap_right _).trans hperm
      exact (hjobs.append_left jobs).trans perm_middle

theorem rebuildRow_exact (happart : Apart (jobCores m res) r.jobList) :
    RowExact m res (rebuildRow m res r) := by
  have hfold (jobs : List ℕ) (b : Option Bitmap) :
      (jobs.foldl (fun b job => some (addJobToCores m (res job) b)) b).getD ∅ =
        b.getD ∅ ∪ cover (jobCores m res) jobs := by
    induction jobs generalizing b with
    | nil => simp
    | cons job jobs ih =>
      rw [foldl_cons, ih, getD_some, addJobToCores_eq, cover_cons, Finset.union_assoc]
      rfl
  refine ⟨happart, ?_, fun hne => ?_⟩
  · have hclear : r.clear.rowBitmap.getD ∅ = ∅ := by
      cases hb : r.rowBitmap <;> simp [clear, hb]
    have h := hfold r.jobList r.clear.rowBitmap
    rwa [hclear, Finset.empty_union] at h
  · -- the last job leaves a bitmap behind
    obtain ⟨jobs, last, hlast⟩ := (eq_nil_or_concat' r.jobList).resolve_left hne
    change Option.isSome (r.jobList.foldl (fun b job => some (addJobToCores m (res job) b))
      r.clear.rowBitmap) = true
    rw [hlast, foldl_append]
    rfl

/-- The jobs of the rows, when all of them are taken out. -/
theorem rowJobs_map_clear (rows : List PartRowData) :
    rowJobs (rows.map fun r => { r.clear with jobList := [] }) = [] := by
  induction rows with
  | nil => rfl
  | cons r rows ih => rw [map_cons, rowJobs_cons, ih]; rfl

variable {sort : List ℕ → List ℕ}

/-- Several rows are exact after they were made anew, whatever their bitmaps were. -/
theorem buildRowBitmaps_rows (hsort : ∀ l, (sort l).Perm l) (hlen : rows.length ≠ 1)
    (hrows : ∀ r ∈ rows, Apart (jobCores m res) r.jobList) (job : Option ℕ) :
    (∀ r ∈ buildRowBitmaps m res sort job rows, RowExact m res r) ∧
      (rowJobs (buildRowBitmaps m res sort job rows)).Perm (rowJobs rows) := by
  have hclear (r : PartRowData) : RowExact m res { r.clear with jobList := [] } := by
    refine ⟨List.Pairwise.nil, ?_, fun h => absurd rfl h⟩
    cases hb : r.rowBitmap <;> simp [clear, hb]
  have hbuild : buildRowBitmaps m res sort job rows =
      if rows.all (·.jobList.isEmpty) then rows.map (·.clear)
      else
        let p := (sort (rowJobs rows)).foldl (placeJob m res)
          (rows.map fun r => { r.clear with jobList := [] }, true)
        if p.2 then p.1 else rows.map (rebuildRow m res) := by
    unfold buildRowBitmaps
    split
    · exact absurd rfl hlen
    · rfl
  rw [hbuild]
  split
  · rename_i hall
    have hnil : ∀ r ∈ rows, r.jobList = [] := fun r hr =>
      isEmpty_iff.1 (all_eq_true.1 hall r hr)
    constructor
    · intro r hr
      obtain ⟨r0, hr0, rfl⟩ := mem_map.1 hr
      have h := hclear r0
      rwa [← hnil r0 hr0] at h
    · rw [rowJobs, flatMap_map]
      exact .refl _
  · have hempty : ∀ r ∈ rows.map fun r => { r.clear with jobList := [] }, RowExact m res r := by
      intro r hr
      obtain ⟨r0, -, rfl⟩ := mem_map.1 hr
      exact hclear r0
    have hplace := foldl_placeJob (sort (rowJobs rows)) (_, true) hempty
    dsimp only
    split
    · rename_i hall
      refine ⟨hplace.1, (hplace.2 hall).2.trans ?_⟩
      rw [rowJobs_map_clear, append_nil]
      exact hsort _
    · refine ⟨fun r hr => ?_, ?_⟩
      · obtain ⟨r0, hr0, rfl⟩ := mem_map.1 hr
        exact rebuildRow_exact (hrows r0 hr0)
      · rw [rowJobs, flatMap_map]
        rfl

/-! ## A job is taken out -/

theorem takeFromRows_none : takeFromRows job rows = none ↔ job ∉ rowJobs rows := by
  induction rows with
  | nil => simp [takeFromRows]
  | cons r rows ih =>
    by_cases hmem : job ∈ r.jobList <;> simp [takeFromRows, hmem, ih]

/-- The job is not in the rows any more, and nothing else is different. -/
theorem takeFromRows_some (h : takeFromRows job rows = some rows') :
    job ∈ rowJobs rows ∧ rowJobs rows' = (rowJobs rows).erase job ∧ rows'.length = rows.length ∧
      ∀ r' ∈ rows', ∃ r ∈ rows, r'.rowBitmap = r.rowBitmap ∧
        (r'.jobList = r.jobList ∨ job ∈ r.jobList ∧ r'.jobList = r.jobList.erase job) := by
  induction rows generalizing rows' with
  | nil => exact absurd h (by simp [takeFromRows])
  | cons r rows ih =>
    unfold takeFromRows at h
    by_cases hmem : job ∈ r.jobList
    · rw [if_pos hmem] at h
      cases h
      refine ⟨by simp [hmem], ?_, rfl, forall_mem_cons.2 ⟨?_, fun r' hr' => ?_⟩⟩
      · rw [rowJobs_cons, rowJobs_cons, erase_append_left _ hmem]
      · exact ⟨r, mem_cons_self, rfl, .inr ⟨hmem, rfl⟩⟩
      · exact ⟨r', mem_cons_of_mem _ hr', rfl, .inl rfl⟩
    · rw [if_neg hmem] at h
      obtain ⟨rows1, h1, rfl⟩ := map_eq_some_iff.1 h
      obtain ⟨hin, herase, hlen, hfrom⟩ := ih h1
      refine ⟨by simp [hin], ?_, by simp [hlen], forall_mem_cons.2 ⟨?_, fun r' hr' => ?_⟩⟩
      · rw [rowJobs_cons, rowJobs_cons, erase_append_right _ hmem, herase]
      · exact ⟨r, mem_cons_self, rfl, .inl rfl⟩
      · obtain ⟨r0, hr0, hr0'⟩ := hfrom r' hr'
        exact ⟨r0, mem_cons_of_mem _ hr0, hr0'⟩

theorem takeFromRows_apart (hrows : ∀ r ∈ rows, RowExact m res r)
    (h : takeFromRows job rows = some rows') :
    ∀ r ∈ rows', Apart (jobCores m res) r.jobList := by
  intro r' hr'
  obtain ⟨r, hr, -, hlist | ⟨-, hlist⟩⟩ := (takeFromRows_some h).2.2.2 r' hr'
  · rw [hlist]
    exact (hrows r hr).apart
  · rw [hlist]
    exact (hrows r hr).apart.erase job

/-- The rows are exact when a job was taken out of them and their bitmaps were made anew. -/
theorem buildRowBitmaps_take (hsort : ∀ l, (sort l).Perm l)
    (hrows : ∀ r ∈ rows, RowExact m res r) (h : takeFromRows job rows = some rows') :
    (∀ r ∈ buildRowBitmaps m res sort (some job) rows', RowExact m res r) ∧
      (rowJobs (buildRowBitmaps m res sort (some job) rows')).Perm ((rowJobs rows).erase job) := by
  obtain ⟨hin, herase, hlen, hfrom⟩ := takeFromRows_some h
  by_cases hone : rows'.length = 1
  · -- a single row: only the cores of the job are cleared
    obtain ⟨r', rfl⟩ := length_eq_one_iff.1 hone
    obtain ⟨r, rfl⟩ := length_eq_one_iff.1 (hlen ▸ hone)
    have hr : RowExact m res r := hrows r mem_cons_self
    have hmem : job ∈ r.jobList := by simpa using hin
    have hlist : r'.jobList = r.jobList.erase job := by simpa using herase
    have hbitmap : r'.rowBitmap = r.rowBitmap := by
      obtain ⟨r0, hr0, hb, -⟩ := hfrom r' mem_cons_self
      rw [hb, mem_singleton.1 hr0]
    have hcover := hr.apart.cover_erase hmem
    by_cases hnil : r'.jobList.isEmpty
    · have hbuild : buildRowBitmaps m res sort (some job) [r'] = [r'.clear] := by
        simp [buildRowBitmaps, hnil]
      have hlist' := isEmpty_iff.1 hnil
      rw [hbuild, ← herase]
      refine ⟨forall_mem_singleton.2 ⟨?_, ?_, fun hne => absurd hlist' hne⟩, .refl _⟩
      · rw [show r'.clear.jobList = [] from hlist']
        exact List.Pairwise.nil
      · rw [show r'.clear.jobList = [] from hlist']
        cases hb : r'.rowBitmap <;> simp [clear, hb]
    · have hbuild : buildRowBitmaps m res sort (some job) [r'] =
          [{ r' with rowBitmap := some (removeJobFromCores m (res job) r'.rowBitmap) }] := by
        simp [buildRowBitmaps, hnil]
      rw [hbuild, ← herase]
      refine ⟨forall_mem_singleton.2 ⟨?_, ?_, fun _ => rfl⟩, .refl _⟩
      · rw [hlist]
        exact hr.apart.erase job
      · rw [getD_some, removeJobFromCores_eq, hbitmap, hr.bitmap, hlist, hcover]
        rfl
  · have hrows' := buildRowBitmaps_rows hsort hone (takeFromRows_apart hrows h) (some job)
    rwa [herase] at hrows'

end Slurm.ConsRes
