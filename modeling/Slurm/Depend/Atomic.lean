import Slurm.Depend

/-!
# Updates of dependencies that fail

An update of the dependencies of a job that is refused should leave all jobs as
they were. `updateJobDependency_atomic_iff` says when it does. The function edits
before it has seen the whole request: the id of the job to expand is reset, an
`expand` clause takes over the generic resources of its job at once, and the
members of a job pack are told their leader one by one, before the search for a
circle and even after a clause that was wrong. So a request keeps the jobs if it
is well formed (`AcceptsDepend`), or if none of these edits changes something
(`InertDepend`).
-/

namespace Slurm

open JobRecord Option

/-- What the update of dependencies writes, but for lists of generic resources. -/
def JobRecord.dependFields (j : JobRecord) :
    Option (Option (List DependSpec) × Option CStr × ℕ) × ℕ × Option CStr × Option CStr :=
  (j.details.map fun d => (d.dependList, d.dependency, d.expandingJobid),
    j.packLeader, j.gres, j.tresReqStr)

/-- The dependencies of all jobs, their packs and what they ask for are the same. -/
def Ctld.SameDepend (c c' : Ctld) : Prop :=
  ∀ q, (c'.job q).dependFields = (c.job q).dependFields

/-! ## The members of a pack -/

/-- The members that a list of dependencies names. -/
def packEntries (deps : List DependSpec) : List DependSpec :=
  deps.filter (·.dependType = .packleader)

theorem packEntries_cons {d : DependSpec} (h : d.dependType = .packleader)
    (deps : List DependSpec) : packEntries (d :: deps) = d :: packEntries deps :=
  List.filter_cons_of_pos (by simpa using h)

theorem packEntries_cons_of_ne {d : DependSpec} (h : d.dependType ≠ .packleader)
    (deps : List DependSpec) : packEntries (d :: deps) = packEntries deps :=
  List.filter_cons_of_neg (by simpa using h)

/-- The job of a dependency can become a member of a pack. -/
def Ctld.canJoin (c : Ctld) (d : DependSpec) : Prop :=
  ∃ q ∈ c.findJobRecord d.jobId, d.jobPtr = some q ∧ (c.job q).isDashPack

section

variable (leader : ℕ) (c : Ctld)

theorem JobRecord.not_isDashPack_joinPack (j : JobRecord) : ¬(j.joinPack leader).isDashPack := by
  cases h : j.details with
  | none => simp [isDashPack, joinPack, h]
  | some d =>
    simp only [isDashPack, joinPack, h, map_some, bind_some, some.injEq]
    intro heq
    have := congrArg (List.drop 5) heq
    simp at this

variable {c} {d : DependSpec}

theorem canJoin_congr {c' : Ctld} (h : c'.sansDepend = c.sansDepend)
    (hdash : ∀ q ∈ d.jobPtr, (c'.job q).isDashPack ↔ (c.job q).isDashPack) :
    c'.canJoin d ↔ c.canJoin d := by
  have hfind : c'.sansDepend.findJobRecord d.jobId = c.sansDepend.findJobRecord d.jobId := by rw [h]
  change c'.findJobRecord d.jobId = c.findJobRecord d.jobId at hfind
  simp only [Ctld.canJoin, hfind]
  refine exists_congr fun q => and_congr_right fun _ => and_congr_right fun hq => hdash q hq

/-- A job that has become a member cannot become one again. -/
theorem canJoin_joinPack (q : Ptr) (d : DependSpec) :
    (c.modJob q (·.joinPack leader)).canJoin d ↔ c.canJoin d ∧ d.jobPtr ≠ some q := by
  have hsans : (c.modJob q (·.joinPack leader)).sansDepend = c.sansDepend :=
    Ctld.modJob_sansDepend _ _ fun _ => sansDepend_joinPack ..
  by_cases hd : d.jobPtr = some q
  · refine iff_of_false ?_ fun h => h.2 hd
    rintro ⟨q', -, hq', hdash⟩
    obtain rfl : q = q' := some.inj (hd.symm.trans hq')
    rw [Ctld.modJob_job_self] at hdash
    exact (c.job q).not_isDashPack_joinPack leader hdash
  · rw [canJoin_congr hsans, and_iff_left hd]
    intro q' hq'
    rw [Ctld.modJob_job_of_ne]
    rintro rfl
    exact hd hq'

variable (c) {deps : List DependSpec}

/-- What the loop over the members does with a dependency. -/
theorem xrefMembers_cons (d : DependSpec) (deps : List DependSpec) :
    (d.dependType ≠ .packleader ∧ xrefMembers leader (d :: deps) c = xrefMembers leader deps c) ∨
      (d.dependType = .packleader ∧ ¬c.canJoin d ∧ xrefMembers leader (d :: deps) c = (false, c)) ∨
      (d.dependType = .packleader ∧ c.canJoin d ∧ ∃ q, d.jobPtr = some q ∧ (c.job q).isDashPack ∧
        xrefMembers leader (d :: deps) c =
          xrefMembers leader deps (c.modJob q (·.joinPack leader))) := by
  rw [xrefMembers]
  by_cases htype : d.dependType = .packleader
  · rw [if_pos htype]
    cases hfind : c.findJobRecord d.jobId with
    | none => exact .inr (.inl ⟨htype, by simp [Ctld.canJoin, hfind], rfl⟩)
    | some q =>
      by_cases hjoin : d.jobPtr = some q ∧ (c.job q).isDashPack
      · refine .inr (.inr ⟨htype, ⟨q, hfind, hjoin⟩, q, hjoin.1, hjoin.2, ?_⟩)
        simp [hjoin]
      · refine .inr (.inl ⟨htype, ?_, ?_⟩)
        · simpa [Ctld.canJoin, hfind] using hjoin
        · simp only
          rw [if_pos]
          tauto
  · rw [if_neg htype]
    exact .inl ⟨htype, rfl⟩

/-- All members are told their leader if each of them can join, and is named once. -/
theorem xrefMembers_ok_iff (deps : List DependSpec) :
    (xrefMembers leader deps c).1 = true ↔
      (∀ d ∈ packEntries deps, c.canJoin d) ∧ ((packEntries deps).map (·.jobPtr)).Nodup := by
  induction deps generalizing c with
  | nil => simp [xrefMembers, packEntries]
  | cons d deps ih =>
    obtain ⟨htype, heq⟩ | ⟨htype, hjoin, heq⟩ | ⟨htype, hjoin, q, hq, -, heq⟩ :=
      xrefMembers_cons leader c d deps
    · rw [heq, ih c, packEntries_cons_of_ne htype]
    · rw [heq, packEntries_cons htype]
      simp [hjoin]
    · rw [heq, ih, packEntries_cons htype]
      simp only [canJoin_joinPack, List.mem_cons, forall_eq_or_imp, List.map_cons, List.nodup_cons,
        List.mem_map, hq]
      constructor
      · rintro ⟨hall, hnodup⟩
        refine ⟨⟨hjoin, fun d hd => (hall d hd).1⟩, ?_, hnodup⟩
        rintro ⟨d, hd, hdq⟩
        exact (hall d hd).2 hdq
      · rintro ⟨⟨-, hall⟩, hnot, hnodup⟩
        exact ⟨fun d hd => ⟨hall d hd, fun hdq => hnot ⟨d, hd, hdq⟩⟩, hnodup⟩

/-- If the first member cannot join, nobody is told anything. -/
theorem xrefMembers_of_not_canJoin
    (h : ∀ d ∈ (packEntries deps).head?, ¬c.canJoin d) : (xrefMembers leader deps c).2 = c := by
  induction deps with
  | nil => rfl
  | cons d deps ih =>
    obtain ⟨htype, heq⟩ | ⟨-, -, heq⟩ | ⟨htype, hjoin, -⟩ := xrefMembers_cons leader c d deps
    · rw [packEntries_cons_of_ne htype] at h
      rw [heq, ih h]
    · rw [heq]
    · rw [packEntries_cons htype] at h
      exact absurd hjoin (h d rfl)

theorem isDashPack_of_xrefMembers (deps : List DependSpec) (q : Ptr)
    (h : ((xrefMembers leader deps c).2.job q).isDashPack) : (c.job q).isDashPack := by
  induction deps generalizing c with
  | nil => exact h
  | cons d deps ih =>
    obtain ⟨-, heq⟩ | ⟨-, -, heq⟩ | ⟨-, -, q', -, hdash, heq⟩ := xrefMembers_cons leader c d deps
    · rw [heq] at h
      exact ih c h
    · rwa [heq] at h
    · rw [heq] at h
      rcases eq_or_ne q q' with rfl | hne
      · exact hdash
      · simpa [hne] using ih _ h

/-- If the first member can join, a job is a member afterwards that was not one before. -/
theorem xrefMembers_of_canJoin (hd : d ∈ (packEntries deps).head?) (h : c.canJoin d) :
    ∃ q, (c.job q).isDashPack ∧ ¬((xrefMembers leader deps c).2.job q).isDashPack := by
  induction deps with
  | nil => simp [packEntries] at hd
  | cons e deps ih =>
    obtain ⟨htype, heq⟩ | ⟨htype, hjoin, -⟩ | ⟨-, -, q, -, hdash, heq⟩ :=
      xrefMembers_cons leader c e deps
    · rw [packEntries_cons_of_ne htype] at hd
      rw [heq]
      exact ih hd
    · rw [packEntries_cons htype] at hd
      obtain rfl : e = d := by simpa using hd
      exact absurd h hjoin
    · refine ⟨q, hdash, fun hafter => ?_⟩
      rw [heq] at hafter
      have := isDashPack_of_xrefMembers leader _ deps q hafter
      rw [Ctld.modJob_job_self] at this
      exact (c.job q).not_isDashPack_joinPack leader this

end

/-! ## The update -/

namespace Ctld

/-- The generic resources of the job `q`, after those of `p` were freed. -/
def gresLeft (c : Ctld) (p q : Ptr) : Option CStr := if q = p then none else (c.job q).gres

section

variable (env : Env) (now : ℤ) (c : Ctld) (p : Ptr)

/-- The string is well formed, and all members it names can join the pack, each of them once. -/
@[mk_iff]
structure WellFormedDepend (s : CStr) : Prop where
  read : (c.readDepend env now p s).1 = .success
  pack : (c.readDepend env now p s).2.dependType = some .packleader →
    (∀ d ∈ packEntries (c.readDepend env now p s).2.dependList, c.canJoin d) ∧
      ((packEntries (c.readDepend env now p s).2.dependList).map (·.jobPtr)).Nodup

/-- The string is well formed, and the job does not come to depend on itself. -/
@[mk_iff]
structure AcceptsDepend (s : CStr) : Prop extends WellFormedDepend env now c p s where
  acyclic : c.isCircular env p (c.readDepend env now p s).2.dependList = false

/-- What the string makes the update edit at once is as it was: the job to expand, what it
    asks for, and the leader of its pack, of which no member is found. -/
@[mk_iff]
structure InertDepend (s : CStr) : Prop where
  expanding : ∀ d ∈ (c.job p).details,
    d.expandingJobid = (c.readDepend env now p s).2.expand.elim 0 (·.1)
  gres : ∀ e ∈ (c.readDepend env now p s).2.expand,
    ((c.job p).setGres env (c.gresLeft p e.2)).gres = (c.job p).gres ∧
      ((c.job p).setGres env (c.gresLeft p e.2)).tresReqStr = (c.job p).tresReqStr
  pack : (c.readDepend env now p s).2.dependType = some .packleader →
    (c.job p).packLeader = (c.job p).jobId ∧
      ∀ d ∈ (packEntries (c.readDepend env now p s).2.dependList).head?, ¬c.canJoin d

/-- The controller when the string has been read. -/
def afterRead (target : Option (ℕ × Ptr)) : Ctld :=
  (c.modJob p (·.setExpandingJobid 0)).expandJob env p target

variable (target : Option (ℕ × Ptr))

theorem sansDepend_afterRead : (c.afterRead env p target).sansDepend = c.sansDepend :=
  (sansDepend_expandJob ..).trans (modJob_sansDepend _ _ fun _ => by simp)

theorem afterRead_job_of_ne {q : Ptr} (h : q ≠ p) : (c.afterRead env p target).job q = c.job q := by
  rcases target with _ | ⟨jobId, q'⟩ <;> simp [afterRead, expandJob, h]

theorem afterRead_dependFields :
    ((c.afterRead env p target).job p).dependFields =
      ((c.job p).details.map fun d => (d.dependList, d.dependency, target.elim 0 (·.1)),
        (c.job p).packLeader,
        target.elim (c.job p).gres fun e => ((c.job p).setGres env (c.gresLeft p e.2)).gres,
        target.elim (c.job p).tresReqStr fun e =>
          ((c.job p).setGres env (c.gresLeft p e.2)).tresReqStr) := by
  rcases target with _ | ⟨jobId, q⟩
  · cases h : (c.job p).details <;>
      simp [afterRead, expandJob, dependFields, setExpandingJobid, h]
  · have hgres : (((c.modJob p (·.setExpandingJobid 0)).modJob p fun j =>
        (j.setExpandingJobid jobId).freeGres).job q).gres = c.gresLeft p q := by
      rcases eq_or_ne q p with rfl | hq
      · simp [gresLeft, freeGres]
      · simp [gresLeft, hq]
    simp only [afterRead, expandJob, hgres]
    cases h : (c.job p).details <;>
      simp [dependFields, setExpandingJobid, freeGres, setGres, h]

theorem afterRead_isDashPack (q : Ptr) :
    ((c.afterRead env p target).job q).isDashPack ↔ (c.job q).isDashPack := by
  rcases eq_or_ne q p with rfl | hq
  · have h := congrArg (fun f => f.1.bind (·.2.1)) (c.afterRead_dependFields env q target)
    simp only [dependFields, bind_map, Function.comp_def] at h
    rw [isDashPack, h, isDashPack]
  · rw [afterRead_job_of_ne _ _ _ _ hq]

theorem afterRead_canJoin (d : DependSpec) :
    (((c.afterRead env p target).modJob p leadPack).canJoin d) ↔ c.canJoin d := by
  refine canJoin_congr ?_ fun q _ => ?_
  · exact (modJob_sansDepend _ _ fun _ => by simp).trans (c.sansDepend_afterRead ..)
  · rw [← c.afterRead_isDashPack env p target q]
    exact Iff.of_eq (modJob_part _ isDashPack rfl q)

/-- The pack of the job is set up, if it comes to this, when all members can join. -/
theorem linkPack_afterRead_success (rc : Rc) (l : DependLoop) :
    ((c.afterRead env p target).linkPack p rc l).1 = .success ↔
      rc = .success ∧ (l.dependType = some .packleader →
        (∀ d ∈ packEntries l.dependList, c.canJoin d) ∧
          ((packEntries l.dependList).map (·.jobPtr)).Nodup) := by
  simp only [linkPack, xrefPackleader]
  by_cases htype : l.dependType = some .packleader
  · simp only [htype, if_true, true_imp_iff]
    have hok := xrefMembers_ok_iff (((c.afterRead env p target).job p).jobId)
      ((c.afterRead env p target).modJob p leadPack) l.dependList
    simp only [afterRead_canJoin] at hok
    rw [← hok]
    split_ifs with h
    · simp [h]
    · simp [h]
  · simp [htype]

/-- The fields of the job are as before if what has been read does not change them. -/
theorem sameDepend_afterRead_iff {d : JobDetails} (hd : (c.job p).details = some d) :
    c.SameDepend (c.afterRead env p target) ↔ d.expandingJobid = target.elim 0 (·.1) ∧
        ∀ e ∈ target, ((c.job p).setGres env (c.gresLeft p e.2)).gres = (c.job p).gres ∧
          ((c.job p).setGres env (c.gresLeft p e.2)).tresReqStr = (c.job p).tresReqStr := by
  have hother : c.SameDepend (c.afterRead env p target) ↔
      ((c.afterRead env p target).job p).dependFields = (c.job p).dependFields := by
    refine ⟨fun h => h p, fun h q => ?_⟩
    rcases eq_or_ne q p with rfl | hq
    · exact h
    · rw [afterRead_job_of_ne _ _ _ _ hq]
  rw [hother, afterRead_dependFields, dependFields, hd]
  rcases target with _ | e
  · simp [eq_comm]
  · simp [eq_comm]

theorem SameDepend.isDashPack_iff {c c' : Ctld} (h : c.SameDepend c') (q : Ptr) :
    (c'.job q).isDashPack ↔ (c.job q).isDashPack := by
  have hq := congrArg (fun f => f.1.bind (·.2.1)) (h q)
  simp only [dependFields, bind_map, Function.comp_def] at hq
  rw [isDashPack, hq, isDashPack]

/-- To lead a pack changes the leader of the job and no more. -/
theorem sameDepend_leadPack_iff :
    c.SameDepend ((c.afterRead env p target).modJob p leadPack) ↔
      c.SameDepend (c.afterRead env p target) ∧ (c.job p).packLeader = (c.job p).jobId := by
  have hid : ((c.afterRead env p target).sansDepend.job p).jobId = (c.sansDepend.job p).jobId := by
    rw [sansDepend_afterRead]
  change ((c.afterRead env p target).job p).jobId = (c.job p).jobId at hid
  have hpack : ((c.afterRead env p target).job p).packLeader = (c.job p).packLeader :=
    congrArg (·.2.1) (c.afterRead_dependFields env p target)
  constructor
  · intro h
    have hp := h p
    rw [modJob_job_self] at hp
    simp only [dependFields, leadPack, Prod.mk.injEq, hid] at hp
    refine ⟨fun q => ?_, hp.2.1.symm⟩
    rcases eq_or_ne q p with rfl | hq
    · simp only [dependFields, Prod.mk.injEq]
      exact ⟨hp.1, hpack, hp.2.2⟩
    · have := h q
      rwa [modJob_job_of_ne _ _ hq] at this
  · rintro ⟨h, hleads⟩ q
    rcases eq_or_ne q p with rfl | hq
    · have hp := h q
      simp only [dependFields, Prod.mk.injEq] at hp
      rw [modJob_job_self]
      simp only [dependFields, leadPack, Prod.mk.injEq, hid]
      exact ⟨hp.1, hleads.symm, hp.2.2⟩
    · rw [modJob_job_of_ne _ _ hq]
      exact h q

/-- What the update has edited when it refuses a string is as before, or not. -/
theorem sameDepend_linkPack_iff {s : CStr} (hd : (c.job p).details ≠ none) (rc : Rc) :
    c.SameDepend ((c.afterRead env p (c.readDepend env now p s).2.expand).linkPack p rc
      (c.readDepend env now p s).2).2 ↔ c.InertDepend env now p s := by
  obtain ⟨d, hd⟩ := ne_none_iff_exists'.1 hd
  rw [inertDepend_iff]
  generalize (c.readDepend env now p s).2 = l
  simp only [hd, mem_some_iff, forall_eq']
  rw [← and_assoc, ← c.sameDepend_afterRead_iff env p l.expand hd]
  simp only [linkPack, xrefPackleader]
  by_cases htype : l.dependType = some .packleader
  · simp only [htype, if_true, true_imp_iff]
    by_cases hhead : ∀ d ∈ (packEntries l.dependList).head?, ¬c.canJoin d
    · rw [xrefMembers_of_not_canJoin, sameDepend_leadPack_iff]
      · rw [and_iff_left hhead]
      · simpa [afterRead_canJoin] using hhead
    · refine iff_of_false (fun hsame => ?_) fun h => hhead h.2.2
      push Not at hhead
      obtain ⟨m, hm, hjoin⟩ := hhead
      rw [← c.afterRead_canJoin env p l.expand] at hjoin
      obtain ⟨q, hbefore, hafter⟩ := xrefMembers_of_canJoin
        ((c.afterRead env p l.expand).job p).jobId _ hm hjoin
      rw [hsame.isDashPack_iff, ← c.afterRead_isDashPack env p l.expand] at hafter
      refine hafter ?_
      rcases eq_or_ne q p with rfl | hq
      · rwa [modJob_job_self] at hbefore
      · rwa [modJob_job_of_ne _ _ hq] at hbefore
  · simp [htype]

theorem afterRead_packLeader (target : Option (ℕ × Ptr)) (q : Ptr) :
    ((c.afterRead env p target).job q).packLeader = (c.job q).packLeader := by
  rcases eq_or_ne q p with rfl | hq
  · exact congrArg (·.2.1) (c.afterRead_dependFields ..)
  · rw [afterRead_job_of_ne _ _ _ _ hq]

/-- The controller when a string has been read and the pack was set up. -/
def afterLink (s : CStr) : Ctld :=
  ((c.afterRead env p (c.readDepend env now p s).2.expand).linkPack p
    (c.readDepend env now p s).1 (c.readDepend env now p s).2).2

/-- A string is refused when it has been read and the pack was set up, or it is accepted
    and the job waits for the jobs it names. -/
theorem setNewDepend_cases (s : CStr) :
    let r := (c.modJob p (·.setExpandingJobid 0)).setNewDepend env now p s
    (c.AcceptsDepend env now p s ∧ r.1 = .success ∧
        r.2 = (c.afterLink env now p s).modJob p (setDepend
          (c.readDepend env now p s).2.dependList (c.readDepend env now p s).2.orFlag)) ∨
      (¬c.AcceptsDepend env now p s ∧ r.1 ≠ .success ∧ r.2 = c.afterLink env now p s) := by
  have hsans : (c.modJob p (·.setExpandingJobid 0)).sansDepend = c.sansDepend :=
    modJob_sansDepend _ _ fun _ => by simp
  simp only [setNewDepend, readDepend_congr env now p hsans, afterLink, acceptsDepend_iff,
    wellFormedDepend_iff]
  obtain ⟨rc, l⟩ := c.readDepend env now p s
  dsimp only
  rw [← afterRead, ← c.linkPack_afterRead_success env p l.expand rc l]
  have hcirc : ((c.afterRead env p l.expand).linkPack p rc l).2.isCircular env p l.dependList =
      c.isCircular env p l.dependList :=
    isCircular_congr _ _ ((sansDepend_linkPack ..).trans (sansDepend_afterRead ..)) _
  generalize (c.afterRead env p l.expand).linkPack p rc l = r at *
  obtain ⟨rc, c'⟩ := r
  rw [hcirc]
  by_cases hrc : rc = .success
  · cases c.isCircular env p l.dependList with
    | false => exact .inl ⟨by simp [hrc], by simp [hrc], by simp [hrc]⟩
    | true => exact .inr ⟨by simp, by simp [hrc], by simp [hrc]⟩
  · exact .inr ⟨by simp [hrc], by simp [hrc], by simp [hrc]⟩

/-- An update is refused for a job without details, clears the dependencies, or reads a string
    that names some. -/
theorem updateJobDependency_cases (newDepend : Option CStr) :
    ((c.job p).details = none ∧ updateJobDependency env now c p newDepend = (.einval, c)) ∨
      ((c.job p).details ≠ none ∧ (∀ s ∈ newDepend, s = [] ∨ s = "0".toList) ∧
        updateJobDependency env now c p newDepend =
          (.success, (c.modJob p (·.setExpandingJobid 0)).modJob p clearDepend)) ∨
      ∃ s, newDepend = some s ∧ s ≠ [] ∧ s ≠ "0".toList ∧ (c.job p).details ≠ none ∧
        updateJobDependency env now c p newDepend =
          (c.modJob p (·.setExpandingJobid 0)).setNewDepend env now p s := by
  by_cases hdetails : (c.job p).details = none
  · exact .inl ⟨hdetails, if_pos hdetails⟩
  cases newDepend with
  | none => exact .inr (.inl ⟨hdetails, by simp, if_neg hdetails⟩)
  | some s =>
    by_cases hclear : s = [] ∨ s = "0".toList
    · exact .inr (.inl ⟨hdetails, by simpa using hclear, (if_neg hdetails).trans (if_pos hclear)⟩)
    · obtain ⟨hne, hzero⟩ := not_or.1 hclear
      exact .inr (.inr ⟨s, rfl, hne, hzero, hdetails, (if_neg hdetails).trans (if_neg hclear)⟩)

end

end Ctld

/-- An update of dependencies that fails leaves the dependencies, the packs and what is asked
    for of all jobs alone, exactly if it edits nothing at once, or does not fail. -/
theorem updateJobDependency_atomic_iff (env : Env) (now : ℤ) (c : Ctld) (p : Ptr)
    (newDepend : Option CStr) :
    ((updateJobDependency env now c p newDepend).1 ≠ .success →
        c.SameDepend (updateJobDependency env now c p newDepend).2) ↔
      ∀ s ∈ newDepend, s ≠ [] → s ≠ "0".toList → (c.job p).details ≠ none →
        c.AcceptsDepend env now p s ∨ c.InertDepend env now p s := by
  obtain ⟨hdetails, h⟩ | ⟨-, hclear, h⟩ | ⟨s, rfl, hne, hzero, hdetails, h⟩ :=
    c.updateJobDependency_cases env now p newDepend
  · rw [h]
    exact iff_of_true (fun _ _ => rfl) fun _ _ _ _ hd => absurd hdetails hd
  · rw [h]
    exact iff_of_true (fun h => absurd rfl h) fun s hs h1 h2 => absurd (hclear s hs) (by tauto)
  · rw [h]
    simp only [mem_some_iff, forall_eq', hne, hzero, ne_eq, hdetails, not_false_iff, true_imp_iff]
    obtain ⟨hacc, hrc, -⟩ | ⟨hacc, hrc, hstate⟩ := c.setNewDepend_cases env now p s
    · exact iff_of_true (fun h => absurd hrc h) (.inl hacc)
    · rw [hstate, Ctld.afterLink, c.sameDepend_linkPack_iff env now p hdetails]
      simp [hacc, hrc]

/-- A controller with the jobs 10, which waits for a leader of its pack, and 11. -/
def memberAndLeader : Ctld where
  job p :=
    if p = 1 then { jobId := 10, details := some { dependency := some "pack ".toList } }
    else { jobId := 11, details := some {} }
  jobList := [1, 2]

/-- The second clause for job 11 has no meaning and the request is refused, but job 10 is a
    member of its pack then. -/
theorem updateJobDependency_not_atomic :
    let r := updateJobDependency {} 5 memberAndLeader 2 (some "packleader:10,nonsense".toList)
    r.1 = .dependency ∧ (r.2.job 1).packLeader = 11 ∧ ¬memberAndLeader.SameDepend r.2 := by
  refine ⟨by decide, by decide, fun h => ?_⟩
  exact absurd (congrArg (·.2.1) (h 1)) (by decide)

end Slurm
