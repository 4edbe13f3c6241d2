import Slurm.Fed

/-!
# The clusters a federated job goes to

A user may say which clusters a job may go to. The set of clusters that the job is submitted with
should have only these in it, or only the origin if none of them answers (`OnlyAsked`).

The list is read when the clusters are asked for the time they could start the job. There are two
ways around it. A job with a time to begin that is still to come is submitted to the whole
federation without asking (`later_job_everywhere`). And when a cluster can start the job now, it
is added to the bits the description of the job came with. `onlyAsked_iff` says that there is no
other way.
-/

namespace Slurm

open Finset List

variable (fed : Federation) (env : SubmitEnv) (desc : FedJobDesc) (names : ClusterNames)

/-- The user asked for a cluster. -/
def ClusterNames.Lists : ClusterNames → FedCluster → Prop
  | .all, _ => True
  | .names l, c => c.name ∈ l

instance : ∀ names c, Decidable (ClusterNames.Lists names c)
  | .all, _ => inferInstanceAs (Decidable True)
  | .names _, _ => inferInstanceAs (Decidable (_ ∈ _))

namespace Federation

/-- The clusters that the user asked for. -/
def askedFor : SiblingBits :=
  (fed.clusters.filter names.Lists).foldl (fun bits c => bits ∪ fedSiblingBit c.id) ∅

/-- A cluster is among those the user asked for. -/
def Asked (c : FedCluster) : Prop := c ∈ fed.clusters ∧ fedSiblingBit c.id ⊆ fed.askedFor names
  deriving Decidable

/-- No cluster that the user asked for answers when it could start the job: either nobody is
    asked, or there is no answer. -/
def NoAnswer : Prop :=
  desc.beginTime ≤ env.now → ∀ c ∈ fed.clusters, fed.Asked names c → env.willRun c = none
  deriving Decidable

end Federation

/-- The job is submitted to clusters that the user asked for only, or only to the origin if none
    of these answers. After failures it is left with such clusters, or with the origin. -/
def OnlyAsked (s : Submission) : Prop :=
  (s.submitted ⊆ fed.askedFor names ∨
    s.submitted = fedSiblingBit fed.self.id ∧ fed.NoAnswer env desc names) ∧
  (s.kept ⊆ fed.askedFor names ∨ s.kept = fedSiblingBit fed.self.id)
  deriving Decidable

/-- The list is read, or need not be: the job is held; it may begin now, and no cluster that the
    user asked for can start it now or the description came with no other clusters; or it begins
    later, and the user asked for the whole federation, or the origin is all there is. -/
def ListIsRead : Prop :=
  desc.priority = 0 ∨
  (desc.beginTime ≤ env.now ∧
    ((∀ c ∈ fed.clusters, fed.Asked names c → ∀ t ∈ env.willRun c, env.later < t) ∨
      desc.fedSiblings ⊆ fed.askedFor names)) ∨
  (env.now < desc.beginTime ∧
    (getAllSiblingBits fed ⊆ fed.askedFor names ∨
      getAllSiblingBits fed = fedSiblingBit fed.self.id))

/-! ## Bits of clusters -/

theorem inter_fedSiblingBit_nonempty {bits : SiblingBits} {id : ℕ} :
    (bits ∩ fedSiblingBit id).Nonempty ↔ fedSiblingBit id ⊆ bits := by
  simp [fedSiblingBit, Finset.Nonempty]

theorem foldl_fedSiblingBit (l : List FedCluster) (bits : SiblingBits) (b : Fin 64) :
    b ∈ l.foldl (fun bits c => bits ∪ fedSiblingBit c.id) bits ↔
      b ∈ bits ∨ ∃ c ∈ l, b ∈ fedSiblingBit c.id := by
  induction l generalizing bits with
  | nil => simp
  | cons c l ih => simp [ih, or_assoc]

variable {fed env desc names} {c : FedCluster}

theorem mem_askedFor {b : Fin 64} :
    b ∈ fed.askedFor names ↔ ∃ c ∈ fed.clusters, names.Lists c ∧ b ∈ fedSiblingBit c.id := by
  simp [Federation.askedFor, foldl_fedSiblingBit, and_assoc]

/-- A name is the name of one cluster of the federation at most. -/
theorem Federation.find_name_iff {name : CStr} :
    fed.clusters.find? (·.name = name) = some c ↔ c ∈ fed.clusters ∧ c.name = name := by
  constructor
  · intro h
    exact ⟨mem_of_find?_eq_some h, by simpa using find?_some h⟩
  · rintro ⟨hmem, rfl⟩
    obtain hnone | ⟨c', hc'⟩ := Option.eq_none_or_eq_some (fed.clusters.find? (·.name = c.name))
    · simpa using find?_eq_none.1 hnone c hmem
    · have hname : c'.name = c.name := by simpa using find?_some hc'
      rw [hc', inj_on_of_nodup_map fed.names_nodup (mem_of_find?_eq_some hc') hmem hname]

theorem mem_clusterNamesToIds_names {l : List CStr} {b : Fin 64} :
    b ∈ clusterNamesToIds fed (.names l) ↔
      ∃ c ∈ fed.clusters, c.name ∈ l ∧ b ∈ fedSiblingBit c.id := by
  simp only [clusterNamesToIds]
  refine Iff.trans ?_ (or_iff_right (notMem_empty b))
  -- the clusters of the rest of the list are added to any set
  generalize (∅ : SiblingBits) = ids
  induction l generalizing ids with
  | nil => simp
  | cons name l ih =>
    obtain hnone | ⟨c, hc⟩ := Option.eq_none_or_eq_some (fed.clusters.find? (·.name = name))
    · grind
    · have honly : ∀ c' ∈ fed.clusters, c'.name = name → c' = c := fun c' h' hn => by
        simpa [Federation.find_name_iff.2 ⟨h', hn⟩] using hc
      grind

/-- The clusters that are asked are those the user asked for. -/
theorem clusterNamesToIds_iff (hc : c ∈ fed.clusters) :
    (clusterNamesToIds fed names ∩ fedSiblingBit c.id).Nonempty ↔ fed.Asked names c := by
  rw [inter_fedSiblingBit_nonempty, Federation.Asked, and_iff_right hc]
  cases names with
  | all =>
    refine iff_of_true (subset_univ _) fun b hb => mem_askedFor.2 ⟨c, hc, trivial, hb⟩
  | names l =>
    have heq : clusterNamesToIds fed (.names l) = fed.askedFor (.names l) := by
      ext b
      rw [mem_clusterNamesToIds_names, mem_askedFor]
      rfl
    rw [heq]

theorem mem_getSibWillRuns (hdesc : desc.clusters = some names) {w : SibWillRun} :
    w ∈ getSibWillRuns fed env desc ↔ ∃ c, fed.Asked names c ∧ w = ⟨c, env.willRun c⟩ := by
  simp only [getSibWillRuns, hdesc, List.mem_map, List.mem_filter, decide_eq_true_eq]
  constructor
  · rintro ⟨c, ⟨hc, hbit⟩, rfl⟩
    exact ⟨c, (clusterNamesToIds_iff hc).1 hbit, rfl⟩
  · rintro ⟨c, hc, rfl⟩
    exact ⟨c, ⟨hc.1, (clusterNamesToIds_iff hc.1).2 hc⟩, rfl⟩

/-! ## Who can start the job now -/

section

variable {now : ℕ} {ws : List SibWillRun}

/-- Nobody can start the job now just if the start times of all the answers are still to come. -/
theorem findStartNow_eq_none :
    (findStartNow now ws).2 = none ↔ ∀ w ∈ ws, ∀ t ∈ w.resp, now < t := by
  induction ws with
  | nil => simp [findStartNow]
  | cons w ws ih =>
    obtain hnone | ⟨t, ht⟩ := Option.eq_none_or_eq_some w.resp
    · simp [findStartNow, hnone, ih]
    · by_cases hle : t ≤ now
      · simp [findStartNow, ht, hle]
      · simp [findStartNow, ht, hle, ih, Nat.lt_of_not_le hle]

theorem findStartNow_eq_some {c : FedCluster}
    (h : (findStartNow now ws).2 = some c) : ∃ w ∈ ws, w.sibling = c := by
  induction ws with
  | nil => simp [findStartNow] at h
  | cons w ws ih =>
    obtain hnone | ⟨t, ht⟩ := Option.eq_none_or_eq_some w.resp
    · simp only [findStartNow, hnone] at h
      obtain ⟨w', hmem, hw'⟩ := ih h
      exact ⟨w', mem_cons_of_mem _ hmem, hw'⟩
    · by_cases hle : t ≤ now
      · simp only [findStartNow, ht, hle, if_true, Option.some.injEq] at h
        exact ⟨w, mem_cons_self, h⟩
      · simp only [findStartNow, ht, hle, if_false] at h
        obtain ⟨w', hmem, hw'⟩ := ih h
        exact ⟨w', mem_cons_of_mem _ hmem, hw'⟩

/-- The clusters that are available are some that answered. -/
theorem mem_findStartNow {b : Fin 64}
    (hb : b ∈ (findStartNow now ws).1) : ∃ w ∈ ws, b ∈ fedSiblingBit w.sibling.id := by
  induction ws with
  | nil => simp [findStartNow] at hb
  | cons w ws ih =>
    simp only [List.mem_cons, exists_eq_or_imp]
    obtain hnone | ⟨t, ht⟩ := Option.eq_none_or_eq_some w.resp
    · simp only [findStartNow, hnone] at hb
      exact .inr (ih hb)
    · by_cases hle : t ≤ now
      · simp only [findStartNow, ht, hle, if_true] at hb
        exact .inl hb
      · simp only [findStartNow, ht, hle, if_false, mem_union] at hb
        exact hb.imp id ih

/-- There are none only if nobody answered. -/
theorem findStartNow_eq_empty (h : (findStartNow now ws).1 = ∅) : ∀ w ∈ ws, w.resp = none := by
  induction ws with
  | nil => simp
  | cons w ws ih =>
    obtain hnone | ⟨t, ht⟩ := Option.eq_none_or_eq_some w.resp
    · simp only [findStartNow, hnone] at h
      simpa [hnone] using ih h
    · by_cases hle : t ≤ now
      · simp [findStartNow, ht, hle, fedSiblingBit] at h
      · simp [findStartNow, ht, hle, fedSiblingBit] at h

end

section FindStartNowSib

variable (hdesc : desc.clusters = some names)
include hdesc

theorem mem_sorted {w : SibWillRun} :
    w ∈ env.sortSibWillRuns (getSibWillRuns fed env desc) ↔
      ∃ c, fed.Asked names c ∧ w = ⟨c, env.willRun c⟩ := by
  rw [(env.sort_perm _).mem_iff, mem_getSibWillRuns hdesc]

theorem findStartNowSib_eq_none :
    (findStartNowSib fed env desc).2 = none ↔
      ∀ c ∈ fed.clusters, fed.Asked names c → ∀ t ∈ env.willRun c, env.later < t := by
  rw [findStartNowSib, findStartNow_eq_none]
  constructor
  · intro h c _ hc
    exact h _ ((mem_sorted hdesc).2 ⟨c, hc, rfl⟩)
  · intro h w hw
    obtain ⟨c, hc, rfl⟩ := (mem_sorted hdesc).1 hw
    exact h c hc.1 hc

theorem findStartNowSib_eq_some {c : FedCluster}
    (h : (findStartNowSib fed env desc).2 = some c) : fed.Asked names c := by
  obtain ⟨w, hw, rfl⟩ := findStartNow_eq_some h
  obtain ⟨c, hc, rfl⟩ := (mem_sorted hdesc).1 hw
  exact hc

theorem findStartNowSib_subset :
    (findStartNowSib fed env desc).1 ⊆ fed.askedFor names := by
  intro b hb
  obtain ⟨w, hw, hbit⟩ := mem_findStartNow hb
  obtain ⟨c, hc, rfl⟩ := (mem_sorted hdesc).1 hw
  exact hc.2 hbit

theorem noAnswer_of_empty (h : (findStartNowSib fed env desc).1 = ∅) :
    fed.NoAnswer env desc names := by
  intro _ c _ hc
  exact findStartNow_eq_empty h _ ((mem_sorted hdesc).2 ⟨c, hc, rfl⟩)

end FindStartNowSib

/-! ## The set that is chosen -/

/-- What is left after failures is part of the set that was submitted. -/
theorem submitSiblingJobs_subset (siblings : SiblingBits) :
    submitSiblingJobs fed env siblings ⊆ siblings := by
  have hfold : ∀ (l : List FedCluster) (bits : SiblingBits),
      l.foldl (fun bits sibling => bits \ fedSiblingBit sibling.id) bits ⊆ bits := by
    intro l
    induction l with
    | nil => simp
    | cons c l ih => exact fun bits => (ih _).trans sdiff_subset
  exact hfold _ _

theorem submitted_fedMgrJobAllocate :
    (fedMgrJobAllocate fed env desc).submitted = chooseSiblings fed env desc := by
  simp only [fedMgrJobAllocate]
  split_ifs <;> rfl

variable (fed env desc) in
/-- The set the job is left with, after failures or without. -/
theorem kept_fedMgrJobAllocate :
    (fedMgrJobAllocate fed env desc).kept ⊆ chooseSiblings fed env desc ∨
      (fedMgrJobAllocate fed env desc).kept = fedSiblingBit fed.self.id := by
  simp only [fedMgrJobAllocate]
  split_ifs
  · exact .inl subset_rfl
  · exact .inl subset_rfl
  · exact .inr rfl
  · exact .inl (submitSiblingJobs_subset _)

theorem subset_fedSiblingBit {bits : SiblingBits} {id : ℕ} (h : bits ⊆ fedSiblingBit id) :
    bits = ∅ ∨ bits = fedSiblingBit id :=
  subset_singleton_iff.1 h

/-- The set the job is left with is right if the one it is submitted with is. -/
theorem onlyAsked_allocate_iff :
    OnlyAsked fed env desc names (fedMgrJobAllocate fed env desc) ↔
      chooseSiblings fed env desc ⊆ fed.askedFor names ∨
        chooseSiblings fed env desc = fedSiblingBit fed.self.id ∧ fed.NoAnswer env desc names := by
  rw [OnlyAsked, submitted_fedMgrJobAllocate, and_iff_left_iff_imp]
  intro h
  obtain hkept | hkept := kept_fedMgrJobAllocate fed env desc
  · rcases h with h | ⟨h, -⟩
    · exact .inl (hkept.trans h)
    · rw [h] at hkept
      exact (subset_fedSiblingBit hkept).imp (fun h => h.le.trans (empty_subset _)) id
  · exact .inr hkept

variable (fed env desc names) in
/-- A job with a list of clusters goes to clusters on it only, or to the origin if none of them
    answers, just if the list is read. -/
theorem onlyAsked_iff (hdesc : desc.clusters = some names) :
    OnlyAsked fed env desc names (fedMgrJobAllocate fed env desc) ↔
      ListIsRead fed env desc names := by
  rw [onlyAsked_allocate_iff, ListIsRead]
  by_cases hheld : desc.priority = 0
  · simp [chooseSiblings, hheld]
  rcases Nat.lt_or_ge env.now desc.beginTime with hlater | hnow
  · -- Nobody is asked, so nobody answers.
    have hno : fed.NoAnswer env desc names := fun h => absurd h (Nat.not_le.2 hlater)
    simp [chooseSiblings, hheld, hno, hlater, Nat.not_le.2 hlater]
  · have hsub : (findStartNowSib fed env desc).1 ⊆ fed.askedFor names :=
      findStartNowSib_subset hdesc
    rw [← findStartNowSib_eq_none hdesc]
    obtain hnone | ⟨c, hsome⟩ := Option.eq_none_or_eq_some (findStartNowSib fed env desc).2
    · -- Those that answered, or the origin.
      simp only [chooseSiblings, ne_eq, hheld, not_false_eq_true, hnow, and_self, if_true,
        if_false, hnone]
      split_ifs with hempty
      · simp [noAnswer_of_empty hdesc hempty]
      · simp [hsub]
    · -- A cluster that can start the job is on the list; the other bits need not be.
      have hc := findStartNowSib_eq_some hdesc hsome
      simp only [chooseSiblings, ne_eq, hheld, not_false_eq_true, hnow, and_self, if_true,
        if_false, hsome, union_subset_iff, Nat.not_lt.2 hnow, reduceCtorEq, false_or, true_and,
        false_and, or_false]
      constructor
      · rintro (h | ⟨h, -⟩)
        · exact h.1
        · have hself : fedSiblingBit c.id = fedSiblingBit fed.self.id :=
            (subset_fedSiblingBit (union_subset_iff.1 h.le).2).resolve_left (singleton_ne_empty _)
          exact (union_subset_iff.1 h.le).1.trans (hself ▸ hc.2)
      · exact fun h => .inl ⟨h, hc.2⟩

/-! ## A job that begins later -/

/-- A federation of two clusters. -/
def twoClusters : Federation where
  clusters := [⟨['a'], 1⟩, ⟨['b'], 2⟩]
  self := ⟨['a'], 1⟩
  self_mem := by decide
  names_nodup := by decide

/-- An hour is to pass before any cluster could start a job, and all goes well. -/
def quietEnv : SubmitEnv where
  now := 100
  later := 100
  willRun _ := some 3700
  sortSibWillRuns := id
  sort_perm _ := .refl _
  jobAllocated := true
  submitFails _ := false

/-- A job for cluster `b`. -/
def jobForB (beginTime : ℕ) : FedJobDesc where
  clusters := some (.names [['b']])
  priority := 1
  beginTime := beginTime

/-- A job that is to begin now goes to the cluster it is for. -/
theorem onlyAsked_jobForB :
    OnlyAsked twoClusters quietEnv (jobForB 0) (.names [['b']])
      (fedMgrJobAllocate twoClusters quietEnv (jobForB 0)) :=
  (onlyAsked_iff twoClusters quietEnv (jobForB 0) (.names [['b']]) rfl).2
    (.inr (.inl ⟨by decide, .inr (by decide)⟩))

/-- One that is to begin later goes to both clusters. -/
theorem later_job_everywhere :
    (fedMgrJobAllocate twoClusters quietEnv (jobForB 200)).submitted =
        fedSiblingBit 1 ∪ fedSiblingBit 2 ∧
      ¬ OnlyAsked twoClusters quietEnv (jobForB 200) (.names [['b']])
        (fedMgrJobAllocate twoClusters quietEnv (jobForB 200)) := by
  decide

end Slurm
