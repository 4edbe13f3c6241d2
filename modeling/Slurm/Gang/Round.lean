import Slurm.Gang.Cycle

/-!
# Rounds over the partitions

The scheduler takes the partitions in the order of their priority, the highest first
(`Gang.Ordered`), and each has its turn. What one turn makes true of its partition stays
true in the turns that follow, if it depends on the jobs of this partition and on the
shadows on it only: shadows come from partitions that had their turn before
(`Gang.foldl_turns`). An instance is that the cores of the jobs that run are disjoint
(`Gang.SafeAt`).
-/

namespace Slurm.Gang

open List

variable {m : CoreMap} {g h h' : Gang} {p q j k : Ptr} {todo done order : List Ptr}

/-- What holds between the operations. -/
structure Steady (g : Gang) : Prop where
  sound : Sound g
  rowed : ∀ p ∈ g.gsPartList, Rowed g p

/-- The partitions, sorted by their priority (`_sort_partitions`). -/
structure Ordered (g : Gang) (order : List Ptr) : Prop where
  perm : order.Perm g.gsPartList
  sorted : order.Pairwise fun p q => (g.part q).priority ≤ (g.part p).priority

instance (g : Gang) (order : List Ptr) : Decidable (g.Ordered order) :=
  decidable_of_iff (order.Perm g.gsPartList ∧
    order.Pairwise fun p q => (g.part q).priority ≤ (g.part p).priority)
    ⟨fun h => ⟨h.1, h.2⟩, fun h => ⟨h.1, h.2⟩⟩

theorem Steady.reorder (h : Steady g) (ho : order.Perm g.gsPartList) :
    Steady { g with gsPartList := order } where
  sound :=
    { parts := ho.nodup_iff.2 h.sound.parts
      jobs := fun p hp => h.sound.jobs p (ho.mem_iff.1 hp)
      apart := fun p hp q hq => h.sound.apart p (ho.mem_iff.1 hp) q (ho.mem_iff.1 hq)
      shadows := fun q hq => h.sound.shadows q (ho.mem_iff.1 hq)
      shadowed := fun q hq j => by
        simp only [ho.mem_iff]
        exact h.sound.shadowed q (ho.mem_iff.1 hq) j }
  rowed p hp := h.rowed p (ho.mem_iff.1 hp)

/-- A turn does not change the jobs of other partitions. -/
theorem Turn.job_other (ht : Turn p h h') (hs : Sound h) (hp : p ∈ h.gsPartList)
    (hq : q ∈ h.gsPartList) (hne : q ≠ p) (hj : j ∈ (h.part q).jobList) : h'.job j = h.job j := by
  refine ht.job j fun hjp => hne ?_
  exact hs.apart q hq p hp j hj hjp

theorem Turn.jobList_other (ht : Turn p h h') (hne : q ≠ p) :
    (h'.part q).jobList = (h.part q).jobList := of_lit (·.jobList) (ht.other q hne)

theorem Turn.steady (ht : Turn p h h') (hs : Steady h) (hp : p ∈ h.gsPartList)
    (hr : Rowed h' p) : Steady h' where
  sound := ht.sound
  rowed q hq := by
    rw [ht.gsPartList] at hq
    by_cases hne : q = p
    · rwa [hne]
    · intro j hj
      rw [ht.jobList_other hne] at hj
      rw [ht.job_other hs.sound hp hq hne hj]
      exact hs.rowed q hq j hj

/-! ## Turns in a row -/

/-- What the turns of the partitions `done` leave as it is. -/
structure Frame (done : List Ptr) (g h : Gang) : Prop where
  gsPartList : h.gsPartList = g.gsPartList
  priority : ∀ q, (h.part q).priority = (g.part q).priority
  jobLists : ∀ q, (h.part q).jobList.Perm (g.part q).jobList
  fixed : ∀ j, (h.job j).fixed = (g.job j).fixed
  lit : ∀ q, q ∉ done → (h.part q).lit = (g.part q).lit
  job : ∀ q ∈ g.gsPartList, q ∉ done → ∀ j ∈ (g.part q).jobList, h.job j = g.job j

namespace Frame

theorem refl (g : Gang) : Frame [] g g :=
  ⟨rfl, fun _ => rfl, fun _ => .refl _, fun _ => rfl, fun _ _ => rfl, fun _ _ _ _ _ => rfl⟩

theorem turn (hf : Frame done g h) (hs : Sound h) (hp : p ∈ h.gsPartList) (ht : Turn p h h') :
    Frame (p :: done) g h' where
  gsPartList := ht.gsPartList.trans hf.gsPartList
  priority q := (ht.priorities q).trans (hf.priority q)
  jobLists q := (ht.jobLists q).trans (hf.jobLists q)
  fixed j := (ht.fixed j).trans (hf.fixed j)
  lit q hq := by
    rw [mem_cons, not_or] at hq
    exact (ht.other q hq.1).trans (hf.lit q hq.2)
  job q hql hq j hj := by
    rw [mem_cons, not_or] at hq
    have hj' : j ∈ (h.part q).jobList := (hf.jobLists q).mem_iff.2 hj
    rw [ht.job_other hs hp (hf.gsPartList ▸ hql) hq.1 hj', hf.job q hql hq.2 j hj]

theorem cores (hf : Frame done g h) (j : Ptr) : h.cores m j = g.cores m j := by
  unfold Gang.cores
  rw [of_fixed (·.jobResrcs) (hf.fixed j)]

end Frame

/-- What a turn keeps, for the partitions that are not below the one whose turn it is. -/
def Lasting (Q : Gang → Ptr → Prop) : Prop :=
  ∀ h h' p q, Sound h → p ∈ h.gsPartList → q ∈ h.gsPartList → q ≠ p →
    (h.part p).priority ≤ (h.part q).priority → Turn p h h' → Q h q → Q h' q

variable {f : Gang → Ptr → Gang} {Q : Gang → Ptr → Prop}

/-- What every turn makes true of its partition is true of all partitions in the end. -/
theorem foldl_turns (hQ : Lasting Q)
    (hstep : ∀ h done, Frame done g h → Steady h → ∀ p ∈ h.gsPartList, p ∉ done →
      Turn p h (f h p) ∧ Rowed (f h p) p ∧ Q (f h p) p)
    (hf : Frame done g h) (hs : Steady h) (hmem : ∀ p ∈ todo ++ done, p ∈ g.gsPartList)
    (hnd : (todo ++ done).Nodup)
    (hsort : todo.Pairwise fun p q => (g.part q).priority ≤ (g.part p).priority)
    (hdone : ∀ q ∈ done, Q h q ∧ ∀ p ∈ todo, (g.part p).priority ≤ (g.part q).priority) :
    Frame (todo.reverse ++ done) g (todo.foldl f h) ∧ Steady (todo.foldl f h) ∧
      ∀ q ∈ todo ++ done, Q (todo.foldl f h) q := by
  induction todo generalizing h done with
  | nil => exact ⟨hf, hs, fun q hq => (hdone q hq).1⟩
  | cons p todo ih =>
    rw [cons_append, nodup_cons, mem_append, not_or] at hnd
    rw [pairwise_cons] at hsort
    have hp : p ∈ h.gsPartList := hf.gsPartList ▸ hmem p mem_cons_self
    obtain ⟨ht, hr, hq⟩ := hstep h done hf hs p hp hnd.1.2
    have hmem' : ∀ q ∈ todo ++ p :: done, q ∈ g.gsPartList := by
      intro q hq
      refine hmem q ?_
      simp only [mem_append, mem_cons] at hq ⊢
      tauto
    have hnd' : (todo ++ p :: done).Nodup := by
      refine (perm_middle.nodup_iff).2 (nodup_cons.2 ⟨?_, hnd.2⟩)
      rw [mem_append, not_or]
      exact hnd.1
    -- what holds of the partitions before outlasts this turn
    have hdone' : ∀ q ∈ p :: done, Q (f h p) q ∧
        ∀ r ∈ todo, (g.part r).priority ≤ (g.part q).priority := by
      intro q hqm
      rcases mem_cons.1 hqm with rfl | hqd
      · exact ⟨hq, hsort.1⟩
      · have hle : (h.part p).priority ≤ (h.part q).priority := by
          rw [hf.priority, hf.priority]
          exact (hdone q hqd).2 p mem_cons_self
        have hql : q ∈ h.gsPartList := hf.gsPartList ▸ hmem q (mem_append_right _ hqd)
        have hne : q ≠ p := by
          rintro rfl
          exact hnd.1.2 hqd
        exact ⟨hQ h _ p q hs.sound hp hql hne hle ht (hdone q hqd).1,
          fun r hr => (hdone q hqd).2 r (mem_cons_of_mem _ hr)⟩
    obtain ⟨hf', hs', hall⟩ := ih (hf.turn hs.sound hp ht) (ht.steady hs hp hr) hmem' hnd' hsort.2
      hdone'
    refine ⟨?_, hs', fun q hq => hall q ?_⟩
    · rw [reverse_cons, append_assoc]
      exact hf'
    · simp only [mem_append, mem_cons] at hq ⊢
      tauto

/-- A round over all partitions. -/
theorem round_turns (hQ : Lasting Q) (hs : Steady g) (ho : g.Ordered order)
    (hstep : ∀ h done, Frame done { g with gsPartList := order } h → Steady h →
      ∀ p ∈ h.gsPartList, p ∉ done → Turn p h (f h p) ∧ Rowed (f h p) p ∧ Q (f h p) p) :
    Frame order.reverse { g with gsPartList := order }
        (order.foldl f { g with gsPartList := order }) ∧
      Steady (order.foldl f { g with gsPartList := order }) ∧
      ∀ q ∈ order, Q (order.foldl f { g with gsPartList := order }) q := by
  have h := foldl_turns hQ hstep (Frame.refl _) (hs.reorder ho.perm)
    (by simp) (by simpa using ho.perm.nodup_iff.2 hs.sound.parts) ho.sorted (by simp)
  simpa using h

/-! ## Jobs that run together -/

/-- The job `j` of `p` runs. -/
def Runs (g : Gang) (p j : Ptr) : Prop :=
  j ∈ (g.part p).jobList ∧ (g.job j).sigState = .resume
  deriving Decidable

/-- The jobs of `p` that run have cores of their own, apart from each other and from the
    shadows on `p`. -/
structure SafeAt (m : CoreMap) (g : Gang) (p : Ptr) : Prop where
  inside : ∀ j k, g.Runs p j → g.Runs p k → j ≠ k → Disjoint (g.cores m j) (g.cores m k)
  above : ∀ j k, g.Runs p j → k ∈ (g.part p).shadow → Disjoint (g.cores m j) (g.cores m k)

theorem safeAt_lasting : Lasting (SafeAt m) := by
  intro h h' p q hs hp hq hne hle ht hsafe
  have hruns (j) (hj : h'.Runs q j) : h.Runs q j := by
    obtain ⟨hjl, hsig⟩ := hj
    rw [ht.jobList_other hne] at hjl
    rw [ht.job_other hs hp hq hne hjl] at hsig
    exact ⟨hjl, hsig⟩
  refine ⟨fun j k hj hk hjk => ?_, fun j k hj hk => ?_⟩
  · rw [ht.cores, ht.cores]
    exact hsafe.inside j k (hruns j hj) (hruns k hk) hjk
  · rw [ht.cores, ht.cores]
    exact hsafe.above j k (hruns j hj) ((ht.mem_shadow hs hp hq hle).1 hk)

/-- A row that is filled is safe. -/
theorem Filled.safeAt (hf : Filled m g p) (hs : Sound g) (hp : p ∈ g.gsPartList) :
    SafeAt m g p := by
  rcases hf.packed with ⟨hnil, -⟩ | ⟨placed, hpk, hfull⟩
  · have hno (j) : ¬g.Runs p j := by
      rintro ⟨hj, -⟩
      rw [hnil] at hj
      exact not_mem_nil hj
    exact ⟨fun j _ hj => absurd hj (hno j), fun j _ hj => absurd hj (hno j)⟩
  · have hin (j) (hj : g.Runs p j) : j ∈ placed := hfull j hj.1 ((hf.rowed j hj.1).2 hj.2)
    refine ⟨fun j k hj hk hjk => ?_, fun j k hj hk => ?_⟩
    · exact hpk.apart j (hin j hj) hj.1 k (hin k hk) hjk.symm
    · refine hpk.apart j (hin j hj) hj.1 k (hpk.shadow k hk) ?_
      rintro rfl
      exact hs.notMem_shadow hp hj.1 hk

end Slurm.Gang
