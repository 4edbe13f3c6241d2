import Slurm.Depend.Atomic

/-!
# The links of a job pack

A job that waits as the leader of a pack leads a pack of its own, and the members that
its dependencies name have it as their leader (`Ctld.Linked`).
`updateJobDependency_linked_iff` says when an update of dependencies leaves the links
so. The members are told their leader only if the last clause with a name is
`packleader` (`afterLink_linked_iff`): a clause of another kind behind it, such as
`singleton`, makes for a leader whose members do not know it
(`updateJobDependency_not_linked`).
-/

namespace Slurm

open JobRecord Option

section

variable (leader : ℕ) (c : Ctld)

/-- The leaders of packs, when members have been told theirs: a job has a new one if it is named. -/
theorem xrefMembers_packLeader_eq {deps : List DependSpec} (h : (xrefMembers leader deps c).1 = true)
    (q : Ptr) : ((xrefMembers leader deps c).2.job q).packLeader =
      if some q ∈ (packEntries deps).map (·.jobPtr) then leader else (c.job q).packLeader := by
  induction deps generalizing c with
  | nil => rfl
  | cons d deps ih =>
    obtain ⟨htype, heq⟩ | ⟨-, -, heq⟩ | ⟨htype, -, r, hr, -, heq⟩ := xrefMembers_cons leader c d deps
    · rw [heq] at h ⊢
      rw [ih c h, packEntries_cons_of_ne htype]
    · rw [heq] at h
      exact absurd h Bool.false_ne_true
    · rw [heq] at h ⊢
      rw [ih _ h, packEntries_cons htype]
      rcases eq_or_ne q r with rfl | hq
      · simp [hr, joinPack]
      · simp [hr, hq]

end

namespace Ctld

variable (env : Env) (now : ℤ) (c : Ctld) (p : Ptr) {s : CStr}

/-- The links of the pack of `p` are right: it leads its own pack, and the jobs that its dependencies
    name as members have it as their leader. -/
def Linked (deps : List DependSpec) : Prop :=
  ∀ d ∈ packEntries deps, (c.job p).packLeader = (c.job p).jobId ∧
    ∀ q, d.jobPtr = some q → (c.job q).packLeader = (c.job p).jobId

theorem afterRead_jobId (target : Option (ℕ × Ptr)) (q : Ptr) :
    ((c.afterRead env p target).job q).jobId = (c.job q).jobId := by
  have hid : ((c.afterRead env p target).sansDepend.job q).jobId = (c.sansDepend.job q).jobId := by
    rw [sansDepend_afterRead]
  exact hid

theorem afterLink_jobId (s : CStr) (q : Ptr) :
    ((c.afterLink env now p s).job q).jobId = (c.job q).jobId := by
  have hsans : (c.afterLink env now p s).sansDepend = c.sansDepend :=
    (sansDepend_linkPack ..).trans (sansDepend_afterRead ..)
  have hid : ((c.afterLink env now p s).sansDepend.job q).jobId = (c.sansDepend.job q).jobId := by
    rw [hsans]
  exact hid

/-- Whether the links are right depends on the leaders of the packs only. -/
theorem linked_congr {c c' : Ctld} (hpack : ∀ q, (c'.job q).packLeader = (c.job q).packLeader)
    (hid : (c'.job p).jobId = (c.job p).jobId) {deps deps' : List DependSpec}
    (hdeps : (packEntries deps').map (·.jobPtr) = (packEntries deps).map (·.jobPtr)) :
    c'.Linked p deps' ↔ c.Linked p deps := by
  have hptrs (c : Ctld) (deps : List DependSpec) : c.Linked p deps ↔
      ∀ r ∈ (packEntries deps).map (·.jobPtr), (c.job p).packLeader = (c.job p).jobId ∧
        ∀ q, r = some q → (c.job q).packLeader = (c.job p).jobId := by
    simp [Linked]
  rw [hptrs, hptrs, hdeps]
  simp [hpack, hid]

theorem packEntries_dependList2str (setOrFlag : Bool) (sep : CStr) (leader1 : Bool)
    (deps : List DependSpec) :
    (packEntries (dependList2str setOrFlag sep leader1 deps).2).map (·.jobPtr) =
      (packEntries deps).map (·.jobPtr) := by
  have hpairs := dependList2str_map (f := fun d => (d.dependType, d.jobPtr)) (fun _ => rfl)
    setOrFlag sep leader1 deps
  have hfilter (l : List DependSpec) : (packEntries l).map (·.jobPtr) =
      ((l.map fun d => (d.dependType, d.jobPtr)).filter (·.1 = .packleader)).map (·.2) := by
    rw [packEntries, List.filter_map, List.map_map]
    rfl
  rw [hfilter, hfilter, hpairs]

/-- The links after a string was accepted: those of its members, if the last of its clauses with a
    name is for the leader of a pack, and those from before otherwise. -/
theorem afterLink_linked_iff (hacc : c.AcceptsDepend env now p s) :
    (c.afterLink env now p s).Linked p (c.readDepend env now p s).2.dependList ↔
      (c.readDepend env now p s).2.dependType = some .packleader ∨
        c.Linked p (c.readDepend env now p s).2.dependList := by
  have hid := c.afterLink_jobId env now p s p
  have hok := (c.linkPack_afterRead_success env p (c.readDepend env now p s).2.expand
    (c.readDepend env now p s).1 (c.readDepend env now p s).2).2 ⟨hacc.read, hacc.pack⟩
  have hleader := c.afterRead_packLeader env p (c.readDepend env now p s).2.expand
  have hjob := c.afterRead_jobId env p (c.readDepend env now p s).2.expand
  rw [afterLink] at hid ⊢
  generalize (c.readDepend env now p s).2 = l at *
  generalize c.afterRead env p l.expand = c1 at *
  by_cases htype : l.dependType = some .packleader
  · refine iff_of_true ?_ (.inl htype)
    simp only [linkPack, htype, if_true] at hok hid ⊢
    have hall : (c1.xrefPackleader p l.dependList).1 = true := by
      by_contra hnot
      simp [hnot] at hok
    have hpack := xrefMembers_packLeader_eq _ _ hall
    rw [xrefPackleader] at hid ⊢
    intro d hd
    have hmem (q : Ptr) (hq : d.jobPtr = some q) :
        some q ∈ (packEntries l.dependList).map (·.jobPtr) := hq ▸ List.mem_map_of_mem hd
    refine ⟨?_, fun q hq => ?_⟩
    · rw [hpack, hid]
      split_ifs
      · exact hjob p
      · rw [modJob_job_self]
        exact hjob p
    · rw [hpack, if_pos (hmem q hq), hid, hjob]
  · simp only [linkPack, htype, if_false, false_or]
    exact linked_congr p hleader (hjob p) rfl

theorem afterLink_details (s : CStr) (h : (c.job p).details ≠ none) :
    ((c.afterLink env now p s).job p).details ≠ none := by
  have hsans : (c.afterLink env now p s).sansDepend = c.sansDepend :=
    (sansDepend_linkPack ..).trans (sansDepend_afterRead ..)
  have hsome : ((c.afterLink env now p s).sansDepend.job p).details.isSome =
      (c.sansDepend.job p).details.isSome := by rw [hsans]
  simp only [sansDepend, JobRecord.sansDepend, isSome_map] at hsome
  rw [← isSome_iff_ne_none] at h ⊢
  rw [hsome, h]

variable {c p} in
/-- The update of dependencies for a string that names some. -/
theorem updateJobDependency_some (hd : (c.job p).details ≠ none) (hs : s ≠ [])
    (hzero : s ≠ "0".toList) :
    ((updateJobDependency env now c p (some s)).1 = .success ↔ c.AcceptsDepend env now p s) ∧
      (c.AcceptsDepend env now p s → let l := (c.readDepend env now p s).2
        let j := (updateJobDependency env now c p (some s)).2.job p
        j.deps = some (dependList2str l.orFlag [] false l.dependList).2 ∧
          j.details.bind (·.dependency) = (if l.dependList = [] then none
            else some (dependList2str l.orFlag [] false l.dependList).1) ∧
          j.jobId = (c.job p).jobId) := by
  have hnew : updateJobDependency env now c p (some s) =
      (c.modJob p (·.setExpandingJobid 0)).setNewDepend env now p s :=
    (if_neg hd).trans (if_neg (not_or.2 ⟨hs, hzero⟩))
  rw [hnew]
  obtain ⟨hacc, hrc, hstate⟩ | ⟨hacc, hrc, -⟩ := c.setNewDepend_cases env now p s
  · refine ⟨iff_of_true hrc hacc, fun _ => ?_⟩
    obtain ⟨t, ht⟩ := ne_none_iff_exists'.1 (c.afterLink_details env now p s hd)
    have hid := c.afterLink_jobId env now p s p
    rw [hstate, modJob_job_self]
    refine ⟨?_, ?_, hid⟩
    · simp [JobRecord.deps, setDepend, ht]
    · simp [setDepend, ht, dependList2str_snd]
  · exact ⟨iff_of_false hrc hacc, fun h => absurd h hacc⟩

variable {c}

/-- The list that a job gets names the same members. -/
theorem setDepend_linked_iff (hdetails : (c.job p).details ≠ none) (deps : List DependSpec)
    (orFlag : Bool) :
    (∀ deps', ((c.modJob p (setDepend deps orFlag)).job p).deps = some deps' →
        (c.modJob p (setDepend deps orFlag)).Linked p deps') ↔ c.Linked p deps := by
  have hdeps : ((c.modJob p (setDepend deps orFlag)).job p).deps =
      some (dependList2str orFlag [] false deps).2 := by
    obtain ⟨t, ht⟩ := ne_none_iff_exists'.1 hdetails
    rw [modJob_job_self, JobRecord.deps, setDepend]
    simp [ht]
  have hkeep (q : Ptr) : ((c.modJob p (setDepend deps orFlag)).job q).packLeader =
        (c.job q).packLeader ∧
      ((c.modJob p (setDepend deps orFlag)).job q).jobId = (c.job q).jobId := by
    rcases eq_or_ne q p with rfl | hq
    · rw [modJob_job_self]
      exact ⟨rfl, rfl⟩
    · rw [modJob_job_of_ne _ _ hq]
      exact ⟨rfl, rfl⟩
  simp only [hdeps, some.injEq, forall_eq']
  exact linked_congr p (fun q => (hkeep q).1) (hkeep p).2
    (packEntries_dependList2str orFlag [] false deps)

end Ctld

/-- An update of the dependencies of a job that succeeds leaves the links of its pack right,
    exactly if the last clause with a name is for the leader of a pack, or the links were right
    before. -/
theorem updateJobDependency_linked_iff (env : Env) (now : ℤ) (c : Ctld) (p : Ptr)
    (newDepend : Option CStr) :
    ((updateJobDependency env now c p newDepend).1 = .success →
        ∀ deps, ((updateJobDependency env now c p newDepend).2.job p).deps = some deps →
          (updateJobDependency env now c p newDepend).2.Linked p deps) ↔
      ∀ s ∈ newDepend, s ≠ [] → s ≠ "0".toList → (c.job p).details ≠ none →
        c.AcceptsDepend env now p s → (c.readDepend env now p s).2.dependType = some .packleader ∨
            c.Linked p (c.readDepend env now p s).2.dependList := by
  obtain ⟨hdetails, h⟩ | ⟨-, hnone, h⟩ | ⟨s, rfl, hne, hzero, hdetails, h⟩ :=
    c.updateJobDependency_cases env now p newDepend
  · rw [h]
    exact iff_of_true (fun h => by simp at h) fun _ _ _ _ hd => absurd hdetails hd
  · have hclear (c : Ctld) (deps : List DependSpec) :
        ((c.modJob p clearDepend).job p).deps ≠ some deps := by
      rw [Ctld.modJob_job_self, JobRecord.deps, clearDepend]
      cases (c.job p).details <;> simp
    rw [h]
    exact iff_of_true (fun _ deps hdeps => absurd hdeps (hclear _ deps))
      fun s hs h1 h2 => absurd (hnone s hs) (by tauto)
  · rw [h]
    simp only [mem_some_iff, forall_eq', hne, hzero, ne_eq, hdetails, not_false_iff, true_imp_iff]
    obtain ⟨hacc, hrc, hstate⟩ | ⟨hacc, hrc, -⟩ := c.setNewDepend_cases env now p s
    · simp only [hacc, hrc, true_imp_iff]
      rw [hstate, ← c.afterLink_linked_iff env now p hacc]
      exact Ctld.setDepend_linked_iff p (c.afterLink_details env now p s hdetails) _ _
    · simp [hacc, hrc]

/-- A clause that follows keeps the members of job 11 from being told their leader. -/
theorem updateJobDependency_not_linked :
    let r := updateJobDependency {} 5 memberAndLeader 2 (some "packleader:10,singleton".toList)
    r.1 = .success ∧ (r.2.job 2).packLeader = 0 ∧ (r.2.job 1).packLeader = 0 ∧
      ∃ deps, (r.2.job 2).deps = some deps ∧ ¬r.2.Linked 2 deps := by
  refine ⟨by decide, by decide, by decide, _, rfl, fun h => ?_⟩
  exact absurd (h _ List.mem_cons_self).1 (by decide)

end Slurm
