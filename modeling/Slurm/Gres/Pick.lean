import Slurm.Gres

/-!
# Which devices a job is given

A pass over the devices takes some that are free (`Picks`), and nothing else changes than the
bits of these and the counters (`pickPass_picks`). So do the three passes (`pickDevices_chosen`).

A device that is taken in one of the first two passes is next to a core of the job, and of the
type that the job asks for. If there are enough of these, the third pass has nothing to do.
-/

namespace Slurm

open Finset Bitstr

variable {p p' p'' : Picking} {D D' : Finset ℕ} {avail i : ℕ} (good : ℕ → Prop)
  (test : ℕ → Option Bitstr → Bool × Option Bitstr)

/-- The devices `D`, which were free, are taken. -/
structure Picks (p p' : Picking) (D : Finset ℕ) : Prop where
  free : Disjoint p.nodeBits.bits D
  nodeBits : p'.nodeBits.bits = p.nodeBits.bits ∪ D
  nodeSize : p'.nodeBits.size = p.nodeBits.size
  jobBits : p'.jobBits.bits = p.jobBits.bits ∪ D
  jobSize : p'.jobBits.size = p.jobBits.size
  cntAlloc : p'.cntAlloc = p.cntAlloc + D.card
  left : p'.left + D.card = p.left

namespace Picks

theorem refl (p : Picking) : Picks p p ∅ := by
  constructor <;> simp

/-- The cores that have a device do not matter. -/
theorem setCores (h : Picks p p' D) (cores : Option Bitstr) : Picks { p with cores } p' D :=
  ⟨h.free, h.nodeBits, h.nodeSize, h.jobBits, h.jobSize, h.cntAlloc, h.left⟩

theorem trans (h : Picks p p' D) (h' : Picks p' p'' D') : Picks p p'' (D ∪ D') := by
  have hfree := h'.free
  rw [h.nodeBits, disjoint_union_left] at hfree
  have hcard := card_union_of_disjoint hfree.2
  have hleft := h.left
  have hleft' := h'.left
  have hcnt := h.cntAlloc
  have hcnt' := h'.cntAlloc
  constructor
  · exact disjoint_union_right.2 ⟨h.free, hfree.1⟩
  · rw [h'.nodeBits, h.nodeBits, union_assoc]
  · rw [h'.nodeSize, h.nodeSize]
  · rw [h'.jobBits, h.jobBits, union_assoc]
  · rw [h'.jobSize, h.jobSize]
  · omega
  · omega

end Picks

/-- A free device is taken. -/
theorem Picks.take (hi : i < p.nodeBits.size ∧ i < p.jobBits.size)
    (hfree : ¬(p.left = 0 ∨ i ∈ p.nodeBits.bits)) (cores : Option Bitstr) :
    Picks p ⟨p.nodeBits.set i, p.jobBits.set i, p.cntAlloc + 1, p.left - 1, cores⟩ {i} := by
  rw [not_or] at hfree
  refine ⟨by simpa using hfree.2, ?_, rfl, ?_, rfl, by simp, ?_⟩
  · rw [set_bits hi.1, insert_eq, union_comm]
  · rw [set_bits hi.2, insert_eq, union_comm]
  · simp only [card_singleton]
    omega

/-- One step takes the device it looks at, or none. -/
theorem pickStep_picks (hi : i < p.nodeBits.size ∧ i < p.jobBits.size) :
    ∃ D ⊆ {i}, Picks p (pickStep test p i) D ∧ ∀ k ∈ D, (test k p.cores).1 := by
  unfold pickStep
  split
  · exact ⟨∅, empty_subset _, .refl p, by simp⟩
  · next hskip =>
    split
    · next htest => exact ⟨{i}, Finset.Subset.refl _, .take hi hskip _, by simpa using htest⟩
    · refine ⟨∅, empty_subset _, ?_, by simp⟩
      constructor <;> simp

/-- A pass takes devices that pass its test, which are among those it looks at. -/
theorem foldl_pickStep (hgood : ∀ k used, (test k used).1 → good k) {l : List ℕ}
    (hl : ∀ k ∈ l, k < p.nodeBits.size ∧ k < p.jobBits.size) :
    ∃ D, (∀ k ∈ D, k ∈ l ∧ good k) ∧ Picks p (l.foldl (pickStep test) p) D := by
  induction l generalizing p with
  | nil => exact ⟨∅, by simp, .refl p⟩
  | cons i l ih =>
    obtain ⟨hi, hl⟩ := List.forall_mem_cons.1 hl
    obtain ⟨D, hD, hpick, htest⟩ := pickStep_picks test hi
    obtain ⟨D', hD', hpick'⟩ := ih (by rwa [hpick.nodeSize, hpick.jobSize])
    refine ⟨D ∪ D', fun k hk => ?_, hpick.trans hpick'⟩
    rcases mem_union.1 hk with hk | hk
    · have heq : k = i := mem_singleton.1 (hD hk)
      exact ⟨heq ▸ List.mem_cons_self, hgood k _ (htest k hk)⟩
    · exact ⟨List.mem_cons_of_mem _ (hD' k hk).1, (hD' k hk).2⟩

theorem pickPass_picks (hgood : ∀ k used, (test k used).1 → good k)
    (hnode : avail ≤ p.nodeBits.size) (hjob : avail ≤ p.jobBits.size) :
    ∃ D ⊆ Finset.range avail, (∀ k ∈ D, good k) ∧ Picks p (pickPass avail test p) D := by
  obtain ⟨D, hD, hpick⟩ := foldl_pickStep good test (l := List.range avail) hgood fun k hk => by
    have hk := List.mem_range.1 hk
    exact ⟨hk.trans_le hnode, hk.trans_le hjob⟩
  exact ⟨D, fun k hk => mem_range.2 (List.mem_range.1 (hD k hk).1), fun k hk => (hD k hk).2, hpick⟩

section

variable (ok : ℕ → Bool) {l : List ℕ}

/-- The first good devices that are free, as many as are left to take. -/
def firstFree (l : List ℕ) (p : Picking) : Finset ℕ :=
  ((l.filter fun i => i ∉ p.nodeBits.bits ∧ ok i).take p.left).toFinset

/-- A pass that does not look at the cores takes the first good devices that are free. -/
theorem foldl_pickStep_first (hnodup : l.Nodup)
    (hl : ∀ k ∈ l, k < p.nodeBits.size ∧ k < p.jobBits.size) :
    Picks p (l.foldl (pickStep fun i used => (ok i, used)) p) (firstFree ok l p) := by
  induction l generalizing p with
  | nil => simpa [firstFree] using Picks.refl p
  | cons i l ih =>
    obtain ⟨hil, hnodup⟩ := List.nodup_cons.1 hnodup
    obtain ⟨hi, hl⟩ := List.forall_mem_cons.1 hl
    rw [List.foldl_cons, pickStep]
    split_ifs with hskip hok
    · have hrest := ih hnodup hl
      rcases hskip with hleft | hmem
      · simpa [firstFree, hleft] using hrest
      · simpa [firstFree, List.filter_cons, hmem] using hrest
    · have hrest := (Picks.take hi hskip p.cores).trans (ih hnodup hl)
      convert hrest using 1
      rw [not_or] at hskip
      obtain ⟨left, hleft⟩ := Nat.exists_eq_succ_of_ne_zero hskip.1
      -- the device is not in the rest of the list
      have hfilter : (l.filter fun k => k ∉ (p.nodeBits.set i).bits ∧ ok k) =
          l.filter fun k => k ∉ p.nodeBits.bits ∧ ok k := by
        refine List.filter_congr fun k hk => ?_
        have hki : k ≠ i := fun hki => hil (hki ▸ hk)
        simp [set_bits hi.1, hki]
      rw [firstFree, firstFree, hfilter, hleft]
      simp_all
    · have hrest := ih hnodup hl
      simp_all [firstFree]

theorem pickPass_first (hnode : avail ≤ p.nodeBits.size) (hjob : avail ≤ p.jobBits.size) :
    Picks p (pickPass avail (fun i used => (ok i, used)) p)
      (firstFree ok (List.range avail) p) :=
  foldl_pickStep_first ok List.nodup_range fun _ hk =>
    ⟨(List.mem_range.1 hk).trans_le hnode, (List.mem_range.1 hk).trans_le hjob⟩

/-- After such a pass, nothing is left to take or no good device is free. -/
theorem Picks.firstFree_eq (hnodup : l.Nodup) (h : Picks p p' (firstFree ok l p)) :
    firstFree ok l p' = ∅ := by
  have hleft := h.left
  rw [firstFree, List.toFinset_card_of_nodup (hnodup.filter _).take, List.length_take] at hleft
  rw [firstFree, List.toFinset_eq_empty_iff, List.take_eq_nil_iff]
  refine or_iff_not_imp_left.2 fun hne => List.filter_eq_nil_iff.2 fun k hk => ?_
  rw [h.nodeBits, firstFree, List.take_of_length_le (by omega)]
  simp only [hk, mem_union, List.mem_toFinset, List.mem_filter, decide_eq_true_iff]
  tauto

end

/-! ## Devices next to cores -/

section Cores

variable {wanted : Option CStr} {cores : Bitstr} {used : Option Bitstr} {topo : List GresTopo}
  {n : GresNode} {job : GresJob}

/-- A device that may be used when some cores have one already may be used anyway. -/
theorem coresOnTopo_none (h : (coresOnTopo wanted cores i used topo).1) :
    (coresOnTopo wanted cores i none topo).1 := by
  induction topo with
  | nil => exact h
  | cons t topo ih =>
    rw [coresOnTopo] at h ⊢
    split at h
    · next hskip =>
      rw [if_pos hskip]
      exact ih h
    · next hskip =>
      rw [if_neg hskip]
      split at h
      · rfl
      · split at h
        · exact absurd h (by simp)
        · next hsize =>
          rw [if_neg hsize]
          split at h
          · next hover =>
            rw [if_pos hover]
            exact ih h
          · next hover => rw [if_neg hover]

/-- It is in a topology record with the type that is asked for. -/
theorem mem_topo_of_coresOnTopo (h : (coresOnTopo wanted cores i used topo).1) :
    ∃ t ∈ topo, i ∈ t.gresBitmap.bits ∧ otherType wanted t.model = false := by
  induction topo with
  | nil => exact absurd h (by simp [coresOnTopo])
  | cons t topo ih =>
    rw [coresOnTopo] at h
    split at h
    · obtain ⟨t', ht', h'⟩ := ih h
      exact ⟨t', List.mem_cons_of_mem _ ht', h'⟩
    · next hskip =>
      simp only [not_or, not_not, Bool.not_eq_true] at hskip
      exact ⟨t, List.mem_cons_self, hskip.2⟩

/-- A job may use a device from its cores. -/
def GoodDevice (n : GresNode) (job : GresJob) (cores : Option Bitstr) (i : ℕ) : Prop :=
  (coresOnGres n job.typeModel cores i none).1
  deriving Decidable

/-- A device that is looked at together with the cores. -/
def Tested (n : GresNode) (job : GresJob) (cores : Option Bitstr) (i : ℕ) : Prop :=
  cores.isSome ∧ GoodDevice n job cores i
  deriving Decidable

theorem goodDevice_of_test {cores : Option Bitstr} {k : ℕ}
    (h : (coresOnGres n job.typeModel cores k used).1) : GoodDevice n job cores k := by
  unfold GoodDevice
  cases cores with
  | none => rfl
  | some cores =>
    simp only [coresOnGres] at h ⊢
    split at h
    · next hnil => rw [if_pos hnil]
    · next hnil =>
      rw [if_neg hnil]
      exact coresOnTopo_none h

end Cores

/-! ## The three passes -/

section Passes

variable (n : GresNode) (job : GresJob) (cores : Option Bitstr) (nodeBits : Bitstr)

/-- The devices that a job may use from its cores are enough for it. -/
def EnoughGood : Prop :=
  job.gresCntAlloc ≤ ((Finset.range n.gresCntAvail).filter fun i =>
    i ∉ nodeBits.bits ∧ GoodDevice n job cores i).card

/-- The choice of devices starts with a bit string that has room for all of them. -/
theorem realloc_spec (b : Bitstr) (n : ℕ) :
    n ≤ (if b.size < n then b.realloc n else b).size ∧
      (if b.size < n then b.realloc n else b).bits = b.bits := by
  split
  · next h => exact ⟨le_rfl, realloc_bits h.le⟩
  · next h => exact ⟨not_lt.1 h, rfl⟩

/-- A job is given the devices `p.jobBits`, which were free. -/
structure Chosen (n : GresNode) (nodeBits : Bitstr) (p : Picking) : Prop where
  free : Disjoint nodeBits.bits p.jobBits.bits
  nodeBits : p.nodeBits.bits = nodeBits.bits ∪ p.jobBits.bits
  jobSize : p.jobBits.size = n.gresCntAvail
  nodeSize : n.gresCntAvail ≤ p.nodeBits.size
  cntAlloc : p.cntAlloc = n.gresCntAlloc + p.jobBits.bits.card

/-- What the choice of devices starts with. -/
def picking : Picking where
  nodeBits := if nodeBits.size < n.gresCntAvail then nodeBits.realloc n.gresCntAvail else nodeBits
  jobBits := Bitstr.alloc n.gresCntAvail
  cntAlloc := n.gresCntAlloc
  left := job.gresCntAlloc
  cores := cores.map fun c => Bitstr.alloc c.size

theorem picking_nodeBits : (picking n job cores nodeBits).nodeBits.bits = nodeBits.bits :=
  (realloc_spec nodeBits n.gresCntAvail).2

/-- The free devices that are looked at together with the cores. -/
def freeTested : Finset ℕ :=
  (Finset.range n.gresCntAvail).filter fun i => i ∉ nodeBits.bits ∧ Tested n job cores i

/-- First, devices are taken that the job may use from its cores, all of them if they are not
    enough, and then the first of the others. -/
theorem pickDevices_passes : ∃ p, ∃ D ⊆ freeTested n job cores nodeBits,
    Picks (picking n job cores nodeBits) p D ∧ (p.left ≠ 0 → D = freeTested n job cores nodeBits) ∧
      Picks p (pickDevices n job cores nodeBits)
        (firstFree (fun _ => true) (List.range n.gresCntAvail) p) := by
  have hroom := (realloc_spec nodeBits n.gresCntAvail).1
  cases cores with
  | none =>
    -- each pass takes any device, and the first one leaves nothing to the others
    have hfirst := pickPass_first (fun _ => true) (p := picking n job none nodeBits) hroom le_rfl
    set p1 := pickPass n.gresCntAvail (fun _ used => (true, used)) (picking n job none nodeBits)
    have hnode1 : n.gresCntAvail ≤ p1.nodeBits.size := hroom.trans_eq hfirst.nodeSize.symm
    have hnext : Picks p1 _ (firstFree _ _ p1) := (pickPass_first (fun _ => true)
      (p := { p1 with cores := none }) hnode1 hfirst.jobSize.ge).setCores p1.cores
    have hlast := pickPass_first (fun _ => true) (hnode1.trans_eq hnext.nodeSize.symm)
      (hfirst.jobSize.ge.trans_eq hnext.jobSize.symm)
    rw [hnext.firstFree_eq _ List.nodup_range] at hlast
    rw [hfirst.firstFree_eq _ List.nodup_range] at hnext
    refine ⟨_, ∅, empty_subset _, .refl _, fun _ => by simp [freeTested, Tested], ?_⟩
    have hpick := hfirst.trans (hnext.trans hlast)
    rwa [union_empty, union_empty] at hpick
  | some cores =>
    obtain ⟨D1, hsub1, hgood1, hpick1⟩ := pickPass_picks (GoodDevice n job (some cores))
      (coresOnGres n job.typeModel (some cores)) (p := picking n job (some cores) nodeBits)
      (fun _ _ h => goodDevice_of_test h) hroom le_rfl
    set p1 := pickPass n.gresCntAvail (coresOnGres n job.typeModel (some cores))
      (picking n job (some cores) nodeBits)
    have hnode1 : n.gresCntAvail ≤ p1.nodeBits.size := hroom.trans_eq hpick1.nodeSize.symm
    let good (i : ℕ) := (coresOnGres n job.typeModel (some cores) i none).1
    have hpick2 : Picks p1 _ (firstFree good _ p1) := (pickPass_first good
      (p := { p1 with cores := none }) hnode1 hpick1.jobSize.ge).setCores p1.cores
    have hlast := pickPass_first (fun _ => true) (hnode1.trans_eq hpick2.nodeSize.symm)
      (hpick1.jobSize.ge.trans_eq hpick2.jobSize.symm)
    have hnone := hpick2.firstFree_eq _ List.nodup_range
    have hpick := hpick1.trans hpick2
    have hfree := hpick.free
    have hnodeBits := hpick.nodeBits
    rw [picking_nodeBits] at hfree hnodeBits
    have hsub : D1 ∪ firstFree good (List.range n.gresCntAvail) p1 ⊆
        freeTested n job (some cores) nodeBits := by
      intro k hk
      suffices hk : k ∈ Finset.range n.gresCntAvail ∧ GoodDevice n job (some cores) k from
        mem_filter.2 ⟨hk.1, disjoint_right.1 hfree ‹_›, rfl, hk.2⟩
      rcases mem_union.1 hk with hk | hk
      · exact ⟨hsub1 hk, hgood1 k hk⟩
      · have hmem := List.mem_filter.1 (List.mem_of_mem_take (List.mem_toFinset.1 hk))
        exact ⟨mem_range.2 (List.mem_range.1 hmem.1), (of_decide_eq_true hmem.2).2⟩
    refine ⟨_, _, hsub, hpick, fun hleft => hsub.antisymm fun k hk => ?_, hlast⟩
    obtain ⟨hk, hout, -, hgood⟩ := mem_filter.1 hk
    rw [firstFree, List.toFinset_eq_empty_iff, List.take_eq_nil_iff, List.filter_eq_nil_iff]
      at hnone
    by_contra hmem
    refine hnone.resolve_left hleft k (List.mem_range.2 (mem_range.1 hk))
      (decide_eq_true ⟨?_, hgood⟩)
    rw [hnodeBits, mem_union, not_or]
    exact ⟨hout, hmem⟩

/-- What a job is given: free devices, and only those it may use from its cores if there are
    enough of them. -/
theorem pickDevices_chosen :
    Chosen n nodeBits (pickDevices n job cores nodeBits) ∧ (EnoughGood n job cores nodeBits →
        ∀ k ∈ (pickDevices n job cores nodeBits).jobBits.bits, GoodDevice n job cores k) := by
  have hroom := (realloc_spec nodeBits n.gresCntAvail).1
  obtain ⟨p, D, hsub, hpick, hall, hlast⟩ := pickDevices_passes n job cores nodeBits
  have hpick' := hpick.trans hlast
  have hstart := picking_nodeBits n job cores nodeBits
  have hjobBits : (pickDevices n job cores nodeBits).jobBits.bits = D ∪ firstFree _ _ p :=
    hpick'.jobBits.trans (empty_union _)
  refine ⟨⟨?_, ?_, hpick'.jobSize, hroom.trans_eq hpick'.nodeSize.symm, ?_⟩, fun henough => ?_⟩
  · rw [← hstart, hjobBits]
    exact hpick'.free
  · rw [hpick'.nodeBits, hstart, hjobBits]
  · rw [hpick'.cntAlloc, hjobBits]
    rfl
  · cases cores with
    | none => exact fun _ _ => rfl
    | some cores =>
      -- nothing is left after the second pass
      have hleft : p.left = 0 := by
        by_contra hne
        have hcard : job.gresCntAlloc ≤ D.card := by
          simpa [hall hne, freeTested, Tested, EnoughGood] using henough
        have hcount : p.left + D.card = job.gresCntAlloc := hpick.left
        omega
      rw [hjobBits, firstFree, hleft, List.take_zero, List.toFinset_nil, union_empty]
      exact fun k hk => (mem_filter.1 (hsub hk)).2.2.2

end Passes

end Slurm
