import Slurm.Lib.Run
import Slurm.Fed

/-!
# One cluster holds a federated job

Clusters ask the origin of a job for its lock, start the job, and give the lock back, and the set
of siblings of the job changes in between. A cluster *holds* the job from the success of its lock
request to the success of an unlock request (`FedJob.holders`, a ghost). There should be one holder
at most; requests should succeed for siblings only; and after a start, no other cluster should
start the job before the siblings change (`FedJob.OneHolder`, `FedJob.Grants`).

None of this is so for all requests. The only sibling gets the lock without its being written
down, so that another cluster can have it as soon as there are other siblings
(`FedJob.two_holders`); and the lock is given to clusters that are not siblings. It is so in the
runs in which requests come from siblings or are refused, and the siblings of a job that is held
change only so that its holder stays one of them, and has the lock or is the only one
(`FedJob.one_holder`).
-/

namespace Slurm

open Finset JobFedDetails

/-- A federated job at its origin, with the clusters that hold it and the one that started it since
    its siblings last changed. -/
structure FedJob where
  details : JobFedDetails
  holders : Finset ℕ := ∅
  started : Option ℕ := none

/-- What happens to a federated job at its origin. -/
inductive FedOp
  | lock (c : ℕ)
  | unlock (c : ℕ)
  | start (c : ℕ)
  | siblings (s : SiblingBits)

namespace FedJob

/-- A cluster is one of the siblings. Ids are the numbers from 1 to 64. -/
def Sibling (s : SiblingBits) (c : ℕ) : Prop := 1 ≤ c ∧ c ≤ 64 ∧ fedSiblingBit c ⊆ s
  deriving Decidable

variable (selfId : ℕ)

/-- What an operation does. -/
def exec (j : FedJob) : FedOp → FedJob
  | .lock c =>
    let id := JobFedDetails.clusterId selfId c
    let (details, ok) := j.details.fedMgrJobLock id
    { j with details := details, holders := if ok then insert id j.holders else j.holders }
  | .unlock c =>
    let id := JobFedDetails.clusterId selfId c
    let (details, ok) := j.details.fedMgrJobUnlock id
    { j with details := details, holders := if ok then j.holders.erase id else j.holders }
  | .start c =>
    let id := JobFedDetails.clusterId selfId c
    let (details, ok) := j.details.fedMgrJobStart id
    { j with details := details, started := if ok then some id else j.started }
  | .siblings s => { j with details := j.details.setJobFedDetails s, started := none }

/-- At most one cluster holds the job. -/
def OneHolder (j : FedJob) : Prop := ∀ c ∈ j.holders, ∀ c' ∈ j.holders, c = c'

/-- A request succeeds for siblings only, and one to start the job for the cluster that started it
    only, if there is one. -/
def Grants (j : FedJob) : FedOp → Prop
  | .lock c =>
    let id := JobFedDetails.clusterId selfId c
    (j.details.fedMgrJobLock id).2 = true → fedSiblingBit id ⊆ j.details.siblings
  | .unlock c =>
    let id := JobFedDetails.clusterId selfId c
    (j.details.fedMgrJobUnlock id).2 = true → fedSiblingBit id ⊆ j.details.siblings
  | .start c =>
    let id := JobFedDetails.clusterId selfId c
    (j.details.fedMgrJobStart id).2 = true →
      fedSiblingBit id ⊆ j.details.siblings ∧ ∀ c' ∈ j.started, c' = id
  | .siblings _ => True

/-- A request comes from a sibling, or from a cluster that has not the lock while another one
    has. -/
def Fair (j : FedJob) (id : ℕ) : Prop :=
  Sibling j.details.siblings id ∨
    (j.details.clusterLock ≠ 0 ∧ j.details.clusterLock ≠ id ∧ ¬ j.details.OnlySibling id)
  deriving Decidable

/-- Requests are fair, and siblings change only so that a holder of the job stays one of them, and
    has the lock or is the only one. -/
def Orderly (j : FedJob) : FedOp → Prop
  | .lock c | .unlock c | .start c => j.Fair (JobFedDetails.clusterId selfId c)
  | .siblings s =>
    ∀ h ∈ j.holders, Sibling s h ∧ (j.details.clusterLock = h ∨ s = fedSiblingBit h)

instance (j : FedJob) : ∀ o, Decidable (j.Orderly selfId o)
  | .lock _ | .unlock _ | .start _ => inferInstanceAs (Decidable (Fair _ _))
  | .siblings _ => inferInstanceAs (Decidable (∀ h ∈ j.holders, _))

/-! ## Siblings -/

variable {selfId} {d : JobFedDetails} {j : FedJob} {c c' h : ℕ} {s : SiblingBits}

/-- The ids of siblings have different bits. -/
theorem fedSiblingBit_inj (hc : 1 ≤ c ∧ c ≤ 64) (hc' : 1 ≤ c' ∧ c' ≤ 64)
    (heq : fedSiblingBit c = fedSiblingBit c') : c = c' := by
  have hval : (c + 63) % 64 = (c' + 63) % 64 := by
    simpa [fedSiblingBit, Fin.ext_iff, Fin.ofNat] using heq
  omega

theorem onlySibling_iff : d.OnlySibling c ↔ d.siblings = fedSiblingBit c := by
  simp only [JobFedDetails.OnlySibling, fedSiblingBit, sdiff_eq_empty_iff_subset,
    subset_singleton_iff]
  constructor
  · rintro ⟨hne, hempty | hone⟩
    · simp [hempty] at hne
    · exact hone
  · intro h
    simp [h]

/-- When there is one sibling, a cluster that is one is this one. -/
theorem Sibling.eq (hc : Sibling s c) (hh : 1 ≤ h ∧ h ≤ 64) (hs : s = fedSiblingBit h) :
    c = h := by
  subst hs
  refine fedSiblingBit_inj ⟨hc.1, hc.2.1⟩ hh ?_
  exact (subset_singleton_iff.1 hc.2.2).resolve_left (singleton_ne_empty _)

theorem Sibling.ne_zero (hc : Sibling s c) : c ≠ 0 := Nat.one_le_iff_ne_zero.1 hc.1

/-! ## What a request does -/

/-- A request to lock or to unlock a job: it succeeds for the only sibling, without a trace; it is
    refused; or it succeeds because nobody else has the lock, which is `x` then. -/
theorem setLock_cases {x : ℕ} {r : JobFedDetails × Bool} (hr : r = if d.OnlySibling c then (d, true)
      else if d.clusterLock ≠ 0 ∧ d.clusterLock ≠ c then (d, false)
      else ({ d with clusterLock := x }, true)) :
    (d.siblings = fedSiblingBit c ∧ r = (d, true)) ∨ r = (d, false) ∨
      ((d.clusterLock = 0 ∨ d.clusterLock = c) ∧ r = ({ d with clusterLock := x }, true)) := by
  rw [hr]
  simp only [onlySibling_iff]
  split_ifs with honly hlock
  · exact .inl ⟨honly, rfl⟩
  · exact .inr (.inl rfl)
  · exact .inr (.inr ⟨by tauto, rfl⟩)

/-- A start: it succeeds for the only sibling, and for the one that has the lock. -/
theorem fedMgrJobStart_cases (d : JobFedDetails) (c : ℕ) :
    ((d.siblings = fedSiblingBit c ∨ (d.clusterLock ≠ 0 ∧ d.clusterLock = c)) ∧
      d.fedMgrJobStart c = (⟨fedSiblingBit c, c⟩, true)) ∨
    (d.siblings ≠ fedSiblingBit c ∧ (d.clusterLock = 0 ∨ d.clusterLock ≠ c) ∧
      d.fedMgrJobStart c = (d, false)) := by
  simp only [fedMgrJobStart, onlySibling_iff]
  split_ifs with honly hfree hother
  · exact .inl ⟨.inl honly, rfl⟩
  · exact .inr ⟨honly, .inl hfree, rfl⟩
  · exact .inr ⟨honly, .inr hother, rfl⟩
  · have hlock : d.clusterLock = c := not_not.1 hother
    exact .inl ⟨.inr ⟨hfree, hlock⟩, by rw [hlock]⟩

/-! ## The holder -/

/-- What holds of a job in an orderly run: a holder is a sibling, and has the lock or is the only
    sibling; there is one at most; and a cluster that started the job is the only sibling. -/
structure Held (j : FedJob) : Prop where
  sibling : ∀ h ∈ j.holders, Sibling j.details.siblings h
  locks : ∀ h ∈ j.holders, j.details.clusterLock = h ∨ j.details.siblings = fedSiblingBit h
  one : j.OneHolder
  started : ∀ c ∈ j.started, 1 ≤ c ∧ c ≤ 64 ∧ j.details.siblings = fedSiblingBit c

/-- The cluster is the only sibling, or the lock is free or its own. -/
def MayLock (d : JobFedDetails) (c : ℕ) : Prop :=
  d.siblings = fedSiblingBit c ∨ d.clusterLock = 0 ∨ d.clusterLock = c

/-- A fair request that is not refused comes from a sibling. -/
theorem Fair.sibling (hfair : j.Fair c) (hok : MayLock j.details c) :
    Sibling j.details.siblings c := by
  rcases hfair with hsib | ⟨hne, hother, honly⟩
  · exact hsib
  · rw [onlySibling_iff] at honly
    rw [MayLock] at hok
    tauto

theorem Held.of_holder (hsib : Sibling j.details.siblings c) (hholder : ∀ h ∈ j.holders, h = c)
    (hlock : j.details.clusterLock = c ∨ j.details.siblings = fedSiblingBit c)
    (hstarted : ∀ c ∈ j.started, 1 ≤ c ∧ c ≤ 64 ∧ j.details.siblings = fedSiblingBit c) : j.Held where
  sibling h hh := hholder h hh ▸ hsib
  locks h hh := hholder h hh ▸ hlock
  one a ha b hb := (hholder a ha).trans (hholder b hb).symm
  started := hstarted

/-- A sibling whose request is not refused is the holder, if there is one. -/
theorem Held.holder_eq (hj : j.Held) (hc : Sibling j.details.siblings c)
    (hok : MayLock j.details c) (hh : h ∈ j.holders) : h = c := by
  have hsib := hj.sibling h hh
  rcases hj.locks h hh with hlock | honly
  · rcases hok with hok | hok | hok
    · exact hsib.eq ⟨hc.1, hc.2.1⟩ hok
    · exact absurd (hlock.symm.trans hok) hsib.ne_zero
    · exact hlock.symm.trans hok
  · exact (hc.eq ⟨hsib.1, hsib.2.1⟩ honly).symm

section

variable (hj : j.Held) (hfair : j.Fair (JobFedDetails.clusterId selfId c))

include hj hfair

theorem Held.lock :
    (exec selfId j (.lock c)).Held ∧ j.Grants selfId (.lock c) := by
  set id := clusterId selfId c with hid
  have hholder (hok : MayLock j.details id) : ∀ h ∈ insert id j.holders, h = id := fun h hh =>
    (mem_insert.1 hh).elim (fun h => h) (hj.holder_eq (hfair.sibling hok) hok)
  obtain ⟨honly, heq⟩ | heq | ⟨hfree, heq⟩ := setLock_cases (r := j.details.fedMgrJobLock id) rfl
  · -- The only sibling: the state is as it was, but for the holder.
    have hsib := hfair.sibling (.inl honly)
    refine ⟨?_, fun _ => hsib.2.2⟩
    simp only [exec, ← hid, heq, if_true]
    exact .of_holder hsib (hholder (.inl honly)) (.inr honly) hj.started
  · refine ⟨?_, fun hok => ?_⟩
    · simp only [exec, ← hid, heq]
      exact hj
    · simp [← hid, heq] at hok
  · -- The lock is free, or the cluster has it already.
    have hsib := hfair.sibling (.inr hfree)
    refine ⟨?_, fun _ => hsib.2.2⟩
    simp only [exec, ← hid, heq, if_true]
    exact .of_holder hsib (hholder (.inr hfree)) (.inl rfl) hj.started

theorem Held.unlock :
    (exec selfId j (.unlock c)).Held ∧ j.Grants selfId (.unlock c) := by
  set id := clusterId selfId c with hid
  -- Whoever may unlock the job is its holder, if there is one, so that there is none afterwards.
  have hempty (hok : MayLock j.details id) : j.holders.erase id = ∅ := by
    refine eq_empty_of_forall_notMem fun h hh => ?_
    exact ne_of_mem_erase hh (hj.holder_eq (hfair.sibling hok) hok (mem_of_mem_erase hh))
  obtain ⟨honly, heq⟩ | heq | ⟨hfree, heq⟩ := setLock_cases (r := j.details.fedMgrJobUnlock id) rfl
  · refine ⟨?_, fun _ => (hfair.sibling (.inl honly)).2.2⟩
    simp only [exec, ← hid, heq, if_true, hempty (.inl honly)]
    exact ⟨by simp, by simp, by simp [OneHolder], hj.started⟩
  · refine ⟨?_, fun hok => ?_⟩
    · simp only [exec, ← hid, heq]
      exact hj
    · simp [← hid, heq] at hok
  · refine ⟨?_, fun _ => (hfair.sibling (.inr hfree)).2.2⟩
    simp only [exec, ← hid, heq, if_true, hempty (.inr hfree)]
    exact ⟨by simp, by simp, by simp [OneHolder], hj.started⟩

theorem Held.start :
    (exec selfId j (.start c)).Held ∧ j.Grants selfId (.start c) := by
  set id := clusterId selfId c with hid
  obtain ⟨hok, heq⟩ | ⟨-, -, heq⟩ := fedMgrJobStart_cases j.details id
  · have hok' : MayLock j.details id := hok.imp_right fun h => .inr h.2
    have hsib := hfair.sibling hok'
    have hself : Sibling (fedSiblingBit id) id := ⟨hsib.1, hsib.2.1, subset_rfl⟩
    refine ⟨?_, fun _ => ⟨hsib.2.2, fun c' hc' => ?_⟩⟩
    · simp only [exec, ← hid, heq, if_true]
      exact .of_holder hself (fun _ => hj.holder_eq hsib hok') (.inl rfl)
        (by simp [hsib.1, hsib.2.1])
    · -- The cluster that started the job is the only sibling since.
      obtain ⟨h1, h64, honly⟩ := hj.started c' hc'
      exact (hsib.eq ⟨h1, h64⟩ honly).symm
  · refine ⟨?_, fun hok => ?_⟩
    · simp only [exec, ← hid, heq]
      exact hj
    · simp [← hid, heq] at hok

end

/-- What an orderly operation does. -/
theorem Held.exec (hj : j.Held) {o : FedOp} (ho : j.Orderly selfId o) :
    (exec selfId j o).Held ∧ j.Grants selfId o := by
  cases o with
  | lock c => exact hj.lock ho
  | unlock c => exact hj.unlock ho
  | start c => exact hj.start ho
  | siblings s =>
    exact ⟨⟨fun h hh => (ho h hh).1, fun h hh => (ho h hh).2, hj.one, by simp [FedJob.exec]⟩,
      trivial⟩

variable (selfId) in
/-- In an orderly run from a job nobody has the lock of, one cluster holds the job at most, and
    requests succeed for siblings and for the cluster that started the job only. -/
theorem one_holder (siblings : SiblingBits) (os : List FedOp)
    (hrun : Run.Admissible (exec selfId) (Orderly selfId) ⟨⟨siblings, 0⟩, ∅, none⟩ os) :
    Run.Always (exec selfId) OneHolder ⟨⟨siblings, 0⟩, ∅, none⟩ os ∧
      Run.Admissible (exec selfId) (Grants selfId) ⟨⟨siblings, 0⟩, ∅, none⟩ os := by
  have hheld : Held ⟨⟨siblings, 0⟩, ∅, none⟩ := ⟨by simp, by simp, by simp [OneHolder], by simp⟩
  refine ⟨?_, Run.admissible_of_invariant (fun _ _ hj ho => hj.exec ho) hheld hrun⟩
  exact (Run.always_of_invariant (fun _ _ hj ho => (hj.exec ho).1) hheld hrun).mono fun _ hj =>
    hj.one

/-- Two clusters take turns with the lock, and the second one starts the job. -/
theorem one_holder_two_clusters :
    Run.Admissible (exec 1) (Orderly 1) ⟨⟨fedSiblingBit 1 ∪ fedSiblingBit 2, 0⟩, ∅, none⟩
        [.lock 1, .lock 2, .unlock 1, .lock 2, .start 2, .siblings (fedSiblingBit 2)] ∧
      Run.Always (exec 1) OneHolder ⟨⟨fedSiblingBit 1 ∪ fedSiblingBit 2, 0⟩, ∅, none⟩
        [.lock 1, .lock 2, .unlock 1, .lock 2, .start 2, .siblings (fedSiblingBit 2)] := by
  have hrun : Run.Admissible (exec 1) (Orderly 1) ⟨⟨fedSiblingBit 1 ∪ fedSiblingBit 2, 0⟩, ∅, none⟩
      [.lock 1, .lock 2, .unlock 1, .lock 2, .start 2, .siblings (fedSiblingBit 2)] := by decide
  exact ⟨hrun, (one_holder 1 _ _ hrun).1⟩

/-- The only sibling gets the lock, and so does another cluster as soon as it is a sibling too.
    And a cluster that is no sibling gets the lock if it is free. -/
theorem two_holders :
    (Run.run (exec 1) ⟨⟨fedSiblingBit 1, 0⟩, ∅, none⟩
        [.lock 1, .siblings (fedSiblingBit 1 ∪ fedSiblingBit 2), .lock 2]).holders = {1, 2} ∧
      ¬ Run.Always (exec 1) OneHolder ⟨⟨fedSiblingBit 1, 0⟩, ∅, none⟩
        [.lock 1, .siblings (fedSiblingBit 1 ∪ fedSiblingBit 2), .lock 2] ∧
      ¬ Run.Admissible (exec 1) (Grants 1)
        ⟨⟨fedSiblingBit 1 ∪ fedSiblingBit 2, 0⟩, ∅, none⟩ [.lock 3] := by
  refine ⟨by decide, fun h => ?_, fun h => ?_⟩
  · have hone := h.2.2.2 1 (by decide) 2 (by decide)
    omega
  · exact absurd (h.1 (by decide)) (by decide)

end FedJob

end Slurm
