import Slurm.Gres.Pick

/-!
# What the counters of a node are changed by

A job with some devices adds to the counters of topology records and types what it has of
their devices (`GresNode.topoPart`, `GresNode.typePart`). An allocation gives the job free
devices and raises the counters by these parts, if it is `Regular` (`jobAlloc_taken`). A
deallocation lowers them by the same, whatever the job asked for (`jobDealloc_freed`).

An allocation that is not regular raises other counters than those that are lowered later. A
job that asks for a type is not counted in records of other types, although it may have been
given devices of them. On a node without topology it is counted in the record of its type, which
is never lowered.
-/

namespace Slurm

open Function List GresNode

/-! ## Sums over topology records -/

section Shares

variable {models : List (Option CStr)} {l : List GresShare} {s : GresShare}

/-- What a topology record gets from these shares. -/
def shareTopo (l : List GresShare) (i : ℕ) : ℕ := ((l.filter (·.inx = i)).map (·.cnt)).sum

/-- What a type gets from these shares. -/
def shareType (models : List (Option CStr)) (l : List GresShare) (j : ℕ) : ℕ :=
  ((l.filter (namesType models ·.model j)).map (·.cnt)).sum

theorem shareTopo_cons (i : ℕ) :
    shareTopo (s :: l) i = (if s.inx = i then s.cnt else 0) + shareTopo l i := by
  unfold shareTopo
  by_cases h : s.inx = i <;> simp [h]

theorem shareType_cons (j : ℕ) : shareType models (s :: l) j =
    (if namesType models s.model j then s.cnt else 0) + shareType models l j := by
  unfold shareType
  by_cases h : namesType models s.model j <;> simp [h]

theorem foldl_raiseShare (models : List (Option CStr)) (l : List GresShare) (c : GresCounts) :
    (∀ i, (l.foldl (raiseShare models) c).topo i = c.topo i + shareTopo l i) ∧
      ∀ j, (l.foldl (raiseShare models) c).type j = c.type j + shareType models l j := by
  induction l generalizing c with
  | nil => exact ⟨fun _ => rfl, fun _ => rfl⟩
  | cons s l ih =>
    obtain ⟨htopo, htype⟩ := ih (raiseShare models c s)
    constructor
    · intro i
      rw [foldl_cons, htopo, shareTopo_cons, ← Nat.add_assoc]
      by_cases h : s.inx = i
      · subst h
        simp [raiseShare]
      · simp [raiseShare, h, update_of_ne (Ne.symm h)]
    · intro j
      rw [foldl_cons, htype, shareType_cons, ← Nat.add_assoc]
      by_cases h : namesType models s.model j <;> simp [raiseShare, h]

/-- When the counters are high enough they are lowered by the shares, without underflow. -/
theorem foldl_lowerShare (models : List (Option CStr)) (l : List GresShare) (c : GresCounts)
    (htopo : ∀ i, shareTopo l i ≤ c.topo i) (htype : ∀ j, shareType models l j ≤ c.type j) :
    (∀ i, (l.foldl (lowerShare models) c).topo i = c.topo i - shareTopo l i) ∧
      (∀ j, (l.foldl (lowerShare models) c).type j = c.type j - shareType models l j) ∧
      (l.foldl (lowerShare models) c).underflow = c.underflow := by
  induction l generalizing c with
  | nil => exact ⟨fun _ => rfl, fun _ => rfl, rfl⟩
  | cons s l ih =>
    have hstep (i : ℕ) :
        (lowerShare models c s).topo i = c.topo i - if s.inx = i then s.cnt else 0 := by
      by_cases h : s.inx = i
      · subst h
        simp [lowerShare]
      · simp [lowerShare, h, update_of_ne (Ne.symm h)]
    have hstep' (j : ℕ) : (lowerShare models c s).type j =
        c.type j - if namesType models s.model j then s.cnt else 0 := by
      by_cases h : namesType models s.model j <;> simp [lowerShare, h]
    obtain ⟨ht, hy, hu⟩ := ih (lowerShare models c s) (fun i => by
        have hle := htopo i
        rw [shareTopo_cons] at hle
        rw [hstep]
        omega)
      (fun j => by
        have hle := htype j
        rw [shareType_cons] at hle
        rw [hstep']
        omega)
    refine ⟨fun i => ?_, fun j => ?_, ?_⟩
    · rw [foldl_cons, ht, hstep, shareTopo_cons, Nat.sub_sub]
    · rw [foldl_cons, hy, hstep', shareType_cons, Nat.sub_sub]
    · rw [foldl_cons, hu]
      have hno : ¬ c.topo s.inx < s.cnt := by
        have hle := htopo s.inx
        rw [shareTopo_cons, if_pos rfl] at hle
        omega
      have hno' : ∀ j, namesType models s.model j → ¬ c.type j < s.cnt := by
        intro j hj
        have hle := htype j
        rw [shareType_cons, if_pos hj] at hle
        omega
      simp only [lowerShare, hno, decide_false, Bool.or_false, Bool.or_eq_left_iff_imp,
        any_eq_true, Bool.and_eq_true, decide_eq_true_eq]
      rintro ⟨j, -, hj, hlt⟩
      exact absurd hlt (hno' j hj)

variable {skip : GresTopo → Bool} {b : Bitstr} {topo : List (GresTopo × ℕ)} {t : GresTopo × ℕ}

theorem topoShares_cons_of_skip (h : skip t.1 ∨ b.size ≠ t.1.gresBitmap.size) :
    topoShares skip b (t :: topo) = topoShares skip b topo := by
  simp only [topoShares, filterMap_cons, if_pos h]

theorem topoShares_cons_of_take (hskip : skip t.1 = false)
    (hsize : b.size = t.1.gresBitmap.size) : topoShares skip b (t :: topo) =
      { inx := t.2, model := t.1.model, cnt := b.overlap t.1.gresBitmap } ::
        topoShares skip b topo := by
  have h : ¬ (skip t.1 ∨ b.size ≠ t.1.gresBitmap.size) := by simp [hskip, hsize]
  simp only [topoShares, filterMap_cons, if_neg h]

/-- Skipping records of which the job has nothing changes nothing. -/
theorem shares_skip (models : List (Option CStr)) (skip : GresTopo → Bool)
    (h : ∀ t ∈ topo, skip t.1 → b.overlap t.1.gresBitmap = 0) :
    (∀ i, shareTopo (topoShares skip b topo) i = shareTopo (topoShares (fun _ => false) b topo) i) ∧
      ∀ j, shareType models (topoShares skip b topo) j =
        shareType models (topoShares (fun _ => false) b topo) j := by
  induction topo with
  | nil => exact ⟨fun _ => rfl, fun _ => rfl⟩
  | cons t topo ih =>
    obtain ⟨htopo, htype⟩ := ih fun t' ht' => h t' (mem_cons_of_mem _ ht')
    by_cases hsize : b.size = t.1.gresBitmap.size
    · have htake : topoShares (fun _ => false) b (t :: topo) = _ :=
        topoShares_cons_of_take rfl hsize
      rw [htake]
      by_cases hskip : skip t.1
      · -- the share that is left out is zero
        have hzero := h t mem_cons_self hskip
        rw [topoShares_cons_of_skip (.inl hskip)]
        refine ⟨fun i => ?_, fun j => ?_⟩
        · rw [htopo, shareTopo_cons, hzero, ite_self, Nat.zero_add]
        · rw [htype, shareType_cons, hzero, ite_self, Nat.zero_add]
      · rw [topoShares_cons_of_take (by simpa using hskip) hsize]
        refine ⟨fun i => ?_, fun j => ?_⟩
        · rw [shareTopo_cons, shareTopo_cons, htopo]
        · rw [shareType_cons, shareType_cons, htype]
    · rw [topoShares_cons_of_skip (.inr hsize), topoShares_cons_of_skip (.inr hsize)]
      exact ⟨htopo, htype⟩

end Shares

/-! ## Single devices -/

section Devices

variable {n : GresNode} {l : List ℕ}

theorem topoModel_of_nil (h : n.topo = []) (i : ℕ) : n.topoModel i = none := by
  simp [topoModel, h]

theorem foldl_raiseDevice (b : Bitstr) (c : GresCounts) (h : n.topo = []) (hl : l.Nodup) :
    (∀ i, (l.foldl (raiseDevice n b) c).topo i = c.topo i + if i ∈ l ∧ i ∈ b.bits then 1 else 0) ∧
      (l.foldl (raiseDevice n b) c).type = c.type := by
  induction l generalizing c with
  | nil => simp
  | cons k l ih =>
    obtain ⟨hk, hl⟩ := nodup_cons.1 hl
    obtain ⟨htopo, htype⟩ := ih (raiseDevice n b c k) hl
    have hsame : (raiseDevice n b c k).type = c.type := by
      unfold raiseDevice
      split
      · rfl
      · simp [topoModel_of_nil h, namesType]
    refine ⟨fun i => ?_, by rw [foldl_cons, htype, hsame]⟩
    rw [foldl_cons, htopo]
    by_cases hi : i = k
    · subst hi
      by_cases hb : i ∈ b.bits <;> simp [raiseDevice, hk, hb]
    · by_cases hb : k ∈ b.bits <;> simp [raiseDevice, hb, hi]

theorem foldl_lowerDevice (b : Bitstr) (c : GresCounts) (h : n.topo = []) (hl : l.Nodup) :
    (∀ i, (l.foldl (lowerDevice n b) c).topo i = c.topo i - if i ∈ l ∧ i ∈ b.bits then 1 else 0) ∧
      (l.foldl (lowerDevice n b) c).type = c.type ∧
      (l.foldl (lowerDevice n b) c).underflow = c.underflow := by
  induction l generalizing c with
  | nil => simp
  | cons k l ih =>
    obtain ⟨hk, hl⟩ := nodup_cons.1 hl
    obtain ⟨htopo, htype, hunder⟩ := ih (lowerDevice n b c k) hl
    have hsame : (lowerDevice n b c k).type = c.type ∧
        (lowerDevice n b c k).underflow = c.underflow := by
      unfold lowerDevice
      split
      · exact ⟨rfl, rfl⟩
      · simp [topoModel_of_nil h, namesType]
    refine ⟨fun i => ?_, by rw [foldl_cons, htype, hsame.1], by rw [foldl_cons, hunder, hsame.2]⟩
    rw [foldl_cons, htopo]
    by_cases hi : i = k
    · subst hi
      by_cases hb : i ∈ b.bits
      · by_cases hz : c.topo i = 0 <;> simp [lowerDevice, hk, hb, hz]
      · simp [lowerDevice, hk, hb]
    · by_cases hb : k ∈ b.bits
      · by_cases hz : c.topo k = 0 <;> simp [lowerDevice, hb, hz, hi]
      · simp [lowerDevice, hb, hi]

end Devices

/-! ## The bits of a job -/

/-- The bits of a job are cleared among the devices `l`, and counted off. -/
theorem foldl_free {l : List ℕ} (hl : l.Nodup) (jobBits b : Bitstr) {k : ℕ} (u : Bool)
    (hk : l.countP (· ∈ jobBits.bits) ≤ k) :
    ∃ b', l.foldl (fun (b, k, underflow) i =>
        if i ∉ jobBits.bits then (b, k, underflow) else (b.clear i, k - 1, underflow || k = 0))
        (b, k, u) = (b', k - l.countP (· ∈ jobBits.bits), u) ∧
      b'.size = b.size ∧ ∀ i, i ∈ b'.bits ↔ i ∈ b.bits ∧ ¬ (i ∈ l ∧ i ∈ jobBits.bits) := by
  induction l generalizing b k with
  | nil => exact ⟨b, rfl, rfl, by simp⟩
  | cons d l ih =>
    obtain ⟨hd, hl⟩ := nodup_cons.1 hl
    rw [countP_cons] at hk ⊢
    rw [foldl_cons]
    by_cases hmem : d ∈ jobBits.bits
    · simp only [hmem, decide_true, if_true] at hk
      obtain ⟨b', heq, hsize, hbits⟩ := ih hl (b.clear d) (k := k - 1) (by omega)
      have hpos : k ≠ 0 := by omega
      refine ⟨b', ?_, hsize, fun i => ?_⟩
      · simp only [hmem, not_true, if_false, hpos, decide_false, Bool.or_false, decide_true,
          if_true, heq]
        congr 2
        omega
      · rw [hbits, Bitstr.clear_bits, Finset.mem_erase, mem_cons]
        by_cases hi : i = d
        · subst hi
          simp [hmem]
        · simp [hi]
    · simp only [hmem, decide_false, Bool.false_eq_true, if_false, Nat.add_zero] at hk ⊢
      obtain ⟨b', heq, hsize, hbits⟩ := ih hl b hk
      refine ⟨b', by simpa using heq, hsize, fun i => ?_⟩
      rw [hbits, mem_cons]
      by_cases hi : i = d
      · subst hi
        simp [hmem]
      · simp [hi]

theorem countP_range (b : Bitstr) : (List.range b.size).countP (· ∈ b.bits) = b.bits.card := by
  rw [countP_eq_length_filter, ← toFinset_card_of_nodup (nodup_range.filter _)]
  congr 1
  ext i
  simp only [mem_toFinset, mem_filter, mem_range, decide_eq_true_eq]
  exact ⟨fun h => h.2, fun h => ⟨b.lt_size i h, h⟩⟩

/-! ## Parts of the counters -/

namespace GresNode

variable (n : GresNode) (b : Bitstr)

/-- The counter of a topology record, or of a device if there are none. -/
def topoCnt (i : ℕ) : ℕ := n.topoGresCntAlloc.elim 0 fun cnt => cnt i

/-- What a job with the devices `b` has of this counter. -/
def topoPart (i : ℕ) : ℕ :=
  if n.topo.isEmpty then if i ∈ b.bits ∧ i < n.gresCntConfig then 1 else 0
  else shareTopo (topoShares (fun _ => false) b n.topo.zipIdx) i

/-- What a job with the devices `b` has of the counter of a type. -/
def typePart (j : ℕ) : ℕ :=
  if n.topo.isEmpty then 0
  else shareType n.typeModel (topoShares (fun _ => false) b n.topo.zipIdx) j

/-- What is not changed by jobs. -/
structure SameConfig (n n' : GresNode) : Prop where
  noConsume : n'.noConsume = n.noConsume
  gresCntConfig : n'.gresCntConfig = n.gresCntConfig
  gresCntAvail : n'.gresCntAvail = n.gresCntAvail
  topo : n'.topo = n.topo
  typeModel : n'.typeModel = n.typeModel

variable {n b} {n' n'' : GresNode}

theorem SameConfig.refl (n : GresNode) : SameConfig n n := ⟨rfl, rfl, rfl, rfl, rfl⟩

theorem SameConfig.trans (h : SameConfig n n') (h' : SameConfig n' n'') : SameConfig n n'' :=
  ⟨h'.1.trans h.1, h'.2.trans h.2, h'.3.trans h.3, h'.4.trans h.4, h'.5.trans h.5⟩

theorem SameConfig.topoPart (h : SameConfig n n') (i : ℕ) : n'.topoPart b i = n.topoPart b i := by
  simp [GresNode.topoPart, h.topo, h.gresCntConfig]

theorem SameConfig.typePart (h : SameConfig n n') (j : ℕ) : n'.typePart b j = n.typePart b j := by
  simp [GresNode.typePart, h.topo, h.typeModel]

end GresNode

/-- The devices `b`, which were free, are taken from the node. -/
structure Taken (n n' : GresNode) (b : Bitstr) : Prop where
  config : n.SameConfig n'
  size : b.size = n.gresCntAvail
  bits : ∀ nb, n.gresBitAlloc = some nb → ∃ nb', n'.gresBitAlloc = some nb' ∧
    Disjoint nb.bits b.bits ∧ nb'.bits = nb.bits ∪ b.bits ∧ n.gresCntAvail ≤ nb'.size
  cnt : n'.gresCntAlloc = n.gresCntAlloc + b.bits.card
  topo : ∀ i, n'.topoCnt i = n.topoCnt i + n.topoPart b i
  type : ∀ j, n'.typeCntAlloc j = n.typeCntAlloc j + n.typePart b j
  counted : n'.topoGresCntAlloc.isSome

/-- The devices `b` are given back to the node. -/
structure Freed (n n' : GresNode) (b : Bitstr) : Prop where
  config : n.SameConfig n'
  bits : ∀ nb, n.gresBitAlloc = some nb → ∃ nb', n'.gresBitAlloc = some nb' ∧
    nb'.bits = nb.bits \ b.bits ∧ nb'.size = nb.size
  cnt : n'.gresCntAlloc = n.gresCntAlloc - b.bits.card
  topo : ∀ i, n'.topoCnt i = n.topoCnt i - n.topoPart b i
  type : ∀ j, n'.typeCntAlloc j = n.typeCntAlloc j - n.typePart b j
  counted : n'.topoGresCntAlloc.isSome

/-! ## Raising and lowering -/

section

variable {n : GresNode} {job : GresJob} {b nb : Bitstr} {cores : Option Bitstr}

/-- The counters of a node are raised by the parts of the job. -/
def Raised (n : GresNode) (job : GresJob) (b : Bitstr) : Prop :=
  ∃ c : GresCounts, raiseCounts n job b =
      { n with topoGresCntAlloc := some c.topo, typeCntAlloc := c.type } ∧
    (∀ i, c.topo i = n.topoCnt i + n.topoPart b i) ∧
    ∀ j, c.type j = n.typeCntAlloc j + n.typePart b j

/-- The counters are raised, if no record that is skipped has a device of the job. -/
theorem raiseCounts_topo (htopo : n.topo ≠ []) (hcnt : n.topoGresCntAlloc.isSome)
    (hskip : ∀ t ∈ n.topo, otherType job.typeModel t.model → b.overlap t.gresBitmap = 0) :
    Raised n job b := by
  obtain ⟨cnt, hcnt⟩ := Option.isSome_iff_exists.1 hcnt
  obtain ⟨hraise, hraise'⟩ := foldl_raiseShare n.typeModel
    (topoShares (fun t => otherType job.typeModel t.model) b n.topo.zipIdx)
    { topo := cnt, type := n.typeCntAlloc }
  have hzero : ∀ t ∈ n.topo.zipIdx, otherType job.typeModel t.1.model →
      b.overlap t.1.gresBitmap = 0 := fun t ht => hskip t.1 (fst_mem_of_mem_zipIdx ht)
  obtain ⟨hshare, hshare'⟩ := shares_skip n.typeModel
    (fun t => otherType job.typeModel t.model) hzero
  have hne : n.topo.isEmpty = false := by simpa using htopo
  obtain ⟨t, topo, hcons⟩ := exists_cons_of_ne_nil htopo
  refine ⟨_, by rw [raiseCounts, hcons, hcnt], fun i => ?_, fun j => ?_⟩
  · rw [hcons] at hraise hshare
    rw [hraise, hshare, topoCnt, hcnt, topoPart, hne, hcons]
    rfl
  · rw [hcons] at hraise' hshare'
    rw [hraise', hshare', typePart, hne, hcons]
    rfl

/-- On a node without topology each device of the job is counted. -/
theorem raiseCounts_devices (htopo : n.topo = [])
    (htype : ∀ ch type, job.typeModel ≠ some (ch :: type))
    (hsize : n.topoGresCntAlloc = none → b.size ≤ n.gresCntConfig) : Raised n job b := by
  set len := n.topoGresCntAlloc.elim b.size fun _ => min b.size n.gresCntConfig with hlen
  let c0 : GresCounts := { topo := n.topoGresCntAlloc.getD fun _ => 0, type := n.typeCntAlloc }
  obtain ⟨hraise, hraise'⟩ := foldl_raiseDevice b c0 htopo (nodup_range)
  -- all devices of the job are looked at that are counted later
  have hmem (i : ℕ) : i ∈ List.range len ∧ i ∈ b.bits ↔ i ∈ b.bits ∧ i < n.gresCntConfig := by
    rw [mem_range]
    refine ⟨fun h => ⟨h.2, ?_⟩, fun h => ⟨?_, h.1⟩⟩
    · cases hcnt : n.topoGresCntAlloc with
      | none =>
        have hle := hsize hcnt
        rw [hlen, hcnt] at h
        exact h.1.trans_le hle
      | some cnt =>
        rw [hlen, hcnt] at h
        exact h.1.trans_le (min_le_right _ _)
    · have hlt := b.lt_size i h.1
      cases hcnt : n.topoGresCntAlloc with
      | none => rwa [hlen, hcnt]
      | some cnt =>
        rw [hlen, hcnt]
        exact lt_min hlt h.2
  refine ⟨(List.range len).foldl (raiseDevice n b) c0, ?_, fun i => ?_, fun j => ?_⟩
  · simp only [raiseCounts, htopo, ← hlen]
    rfl
  · have hval : c0.topo i = n.topoCnt i := by
      change (n.topoGresCntAlloc.getD fun _ => 0) i = _
      rw [topoCnt]
      cases n.topoGresCntAlloc <;> rfl
    rw [hraise, hval]
    simp only [hmem, topoPart, htopo, isEmpty_nil, if_true]
  · rw [hraise', typePart, htopo]
    rfl

/-- Counters that are high enough are lowered by the parts of the job, without underflow. -/
theorem lowerCounts_spec {cnt : ℕ → ℕ} (hcnt : n.topoGresCntAlloc = some cnt)
    (htopo : ∀ i, n.topoPart b i ≤ n.topoCnt i) (htype : ∀ j, n.typePart b j ≤ n.typeCntAlloc j) :
    ∃ c : GresCounts, lowerCounts n b cnt =
        ({ n with topoGresCntAlloc := some c.topo, typeCntAlloc := c.type }, false) ∧
      (∀ i, c.topo i = n.topoCnt i - n.topoPart b i) ∧
      ∀ j, c.type j = n.typeCntAlloc j - n.typePart b j := by
  have hval : n.topoCnt = cnt := by
    funext i
    rw [topoCnt, hcnt]
    rfl
  let c0 : GresCounts := { topo := cnt, type := n.typeCntAlloc }
  by_cases hnil : n.topo.isEmpty
  · have htopo' : n.topo = [] := by simpa using hnil
    obtain ⟨hlow, hlow', hu⟩ := foldl_lowerDevice b c0 htopo'
      (nodup_range)
    have hmem (i : ℕ) : i ∈ List.range (min n.gresCntConfig b.size) ∧ i ∈ b.bits ↔
        i ∈ b.bits ∧ i < n.gresCntConfig := by
      rw [mem_range, lt_min_iff]
      exact ⟨fun h => ⟨h.2, h.1.1⟩, fun h => ⟨⟨h.2, b.lt_size i h.1⟩, h.1⟩⟩
    refine ⟨(List.range (min n.gresCntConfig b.size)).foldl (lowerDevice n b) c0, ?_,
      fun i => ?_, fun j => ?_⟩
    · simp only [lowerCounts, hnil, if_true]
      rw [hu]
    · rw [hlow, hval]
      simp only [hmem, topoPart, hnil, if_true]
      rfl
    · rw [hlow', typePart, if_pos hnil]
      rfl
  · obtain ⟨hlow, hlow', hu⟩ := foldl_lowerShare n.typeModel
      (topoShares (fun _ => false) b n.topo.zipIdx) c0
      (fun i => by
        have hle := htopo i
        rwa [hval, topoPart, if_neg hnil] at hle)
      (fun j => by
        have hle := htype j
        rwa [typePart, if_neg hnil] at hle)
    refine ⟨(topoShares (fun _ => false) b n.topo.zipIdx).foldl (lowerShare n.typeModel) c0, ?_,
      fun i => ?_, fun j => ?_⟩
    · simp only [lowerCounts, hnil, Bool.false_eq_true, if_false]
      rw [hu]
    · rw [hlow, hval, topoPart, if_neg hnil]
    · rw [hlow', typePart, if_neg hnil]

/-! ## Allocation and deallocation -/

/-- No device is in a record of the type that is asked for, and in one of another type. -/
def SeparateTypes (n : GresNode) (wanted : Option CStr) : Prop :=
  ∀ t ∈ n.topo, ∀ t' ∈ n.topo, otherType wanted t.model → otherType wanted t'.model = false →
    Disjoint t.gresBitmap.bits t'.gresBitmap.bits
  deriving Decidable

/-- The allocation is counted as the deallocation will be. All records are of the type that the job
    asks for, which is so if it asks for none, or there are enough devices of it next to its cores.
    On a node without topology it asks for no type. -/
def Regular (n : GresNode) (job : GresJob) (cores : Option Bitstr) : Prop :=
  if n.topo.isEmpty then
    job.typeModel.all List.isEmpty ∧ (n.topoGresCntAlloc.isNone → n.gresCntAvail ≤ n.gresCntConfig)
  else
    (∀ t ∈ n.topo, otherType job.typeModel t.model = false) ∨
      cores.isSome ∧ SeparateTypes n job.typeModel ∧
        ∀ nb ∈ n.gresBitAlloc, EnoughGood n job cores nb

instance (n : GresNode) (job : GresJob) (cores : Option Bitstr) (nb : Bitstr) :
    Decidable (EnoughGood n job cores nb) := inferInstanceAs (Decidable (_ ≤ _))

instance (n : GresNode) (job : GresJob) (cores : Option Bitstr) :
    Decidable (Regular n job cores) := inferInstanceAs (Decidable (ite _ _ _))

/-- A job of a regular allocation has no devices of other types. -/
theorem overlap_otherType (htopo : n.topo ≠ [])
    (hcores : cores.isSome) (hsep : SeparateTypes n job.typeModel)
    (hgood : ∀ k ∈ b.bits, GoodDevice n job cores k) {t : GresTopo} (ht : t ∈ n.topo)
    (hother : otherType job.typeModel t.model) : b.overlap t.gresBitmap = 0 := by
  obtain ⟨cores, rfl⟩ := Option.isSome_iff_exists.1 hcores
  rw [Bitstr.overlap, Finset.card_eq_zero, ← Finset.disjoint_iff_inter_eq_empty,
    Finset.disjoint_left]
  intro k hk hkt
  have hk := hgood k hk
  rw [GoodDevice, coresOnGres, if_neg (by simpa using htopo)] at hk
  obtain ⟨t', ht', hkt', hsame⟩ := mem_topo_of_coresOnTopo hk
  exact Finset.disjoint_left.1 (hsep t ht t' ht' hother hsame) hkt hkt'

/-- The devices of the job are counted where they will be counted off. -/
def Counted (n : GresNode) (job : GresJob) (b : Bitstr) : Prop :=
  if n.topo.isEmpty then
    job.typeModel.all List.isEmpty ∧ (n.topoGresCntAlloc.isNone → b.size ≤ n.gresCntConfig)
  else
    n.topoGresCntAlloc.isSome ∧
      ∀ t ∈ n.topo, otherType job.typeModel t.model → b.overlap t.gresBitmap = 0

theorem Counted.raiseCounts (h : Counted n job b) : Raised n job b := by
  by_cases htopo : n.topo = []
  · rw [Counted, if_pos (by simpa using htopo)] at h
    refine raiseCounts_devices htopo (fun ch type htype => ?_) fun hnone => h.2 (by rw [hnone]; rfl)
    rw [htype] at h
    exact absurd h.1 (by simp)
  · rw [Counted, if_neg (by simpa using htopo)] at h
    exact raiseCounts_topo htopo h.1 h.2

theorem Regular.counted (h : Regular n job cores)
    (hcnt : n.topo ≠ [] → n.topoGresCntAlloc.isSome) (hnb : n.gresBitAlloc = some nb) :
    Counted n job (pickDevices n job cores nb).jobBits := by
  obtain ⟨hchosen, hgood⟩ := pickDevices_chosen n job cores nb
  unfold Counted
  unfold Regular at h
  split
  · next htopo =>
    rw [if_pos htopo] at h
    exact ⟨h.1, by rw [hchosen.jobSize]; exact h.2⟩
  · next htopo =>
    rw [if_neg htopo] at h
    have htopo : n.topo ≠ [] := by simpa using htopo
    refine ⟨hcnt htopo, fun t ht hother => ?_⟩
    rcases h with hsame | ⟨hcores, hsep, henough⟩
    · exact absurd hother (by simp [hsame t ht])
    · exact overlap_otherType htopo hcores hsep (hgood (henough nb hnb)) ht hother

/-- An allocation gives a job that has no devices yet those that are chosen, and counts them. If it
    is an error, nothing is done. -/
theorem jobAlloc_fresh {nodeCnt off : ℕ} (hno : n.noConsume = false)
    (hnb : n.gresBitAlloc = some nb) (hfresh : job.nodeCnt = 0 ∨ job.gresBitAlloc off = none)
    {n' : GresNode} {job' : GresJob} (h : jobAlloc n job nodeCnt off cores = some (n', job')) :
    ∃ job₁ : GresJob, job₁.typeModel = job.typeModel ∧ (off < nodeCnt → off < job₁.nodeCnt) ∧
      let p := pickDevices n job cores nb
      job' = { job₁ with gresBitAlloc := update job₁.gresBitAlloc off (some p.jobBits) } ∧
      n' = raiseCounts { n with gresBitAlloc := some p.nodeBits, gresCntAlloc := p.cntAlloc }
        job' p.jobBits := by
  rw [jobAlloc, if_neg (by simp [hno])] at h
  split at h
  · cases h
  · next herr =>
    -- the record of the job that devices are chosen for asks for the same, and has none yet
    set job₁ : GresJob :=
      if job.nodeCnt = 0 then { job with nodeCnt := nodeCnt, gresBitAlloc := fun _ => none }
      else job with hjob1
    obtain ⟨hfresh1, htype1, hask1, hoff1⟩ : job₁.gresBitAlloc off = none ∧
        job₁.typeModel = job.typeModel ∧ job₁.gresCntAlloc = job.gresCntAlloc ∧
        (off < nodeCnt → off < job₁.nodeCnt) := by
      rw [hjob1]
      split
      · exact ⟨rfl, rfl, rfl, id⟩
      · next hcnt => exact ⟨hfresh.resolve_left hcnt, rfl, rfl, by omega⟩
    have hpick : pickDevices n job₁ cores nb = pickDevices n job cores nb := by
      simp only [pickDevices, htype1, hask1]
    simp only [selectDevices, hfresh1, hnb, hpick, update_self] at h
    obtain ⟨hn', hjob'⟩ := Prod.mk.inj (Option.some.inj h)
    exact ⟨job₁, htype1, hoff1, hjob'.symm, hjob' ▸ hn'.symm⟩

/-- A regular allocation gives a job that has no devices yet some that are free, and counts them. -/
theorem jobAlloc_taken {nodeCnt off : ℕ}
    (hno : n.noConsume = false) (hnb : n.gresBitAlloc = some nb)
    (hcnt : n.topo ≠ [] → n.topoGresCntAlloc.isSome) (hfresh : job.gresBitAlloc off = none)
    (hoff : off < nodeCnt) (hreg : Regular n job cores) {n' : GresNode} {job' : GresJob}
    (h : jobAlloc n job nodeCnt off cores = some (n', job')) :
    off < job'.nodeCnt ∧ ∃ b, job'.gresBitAlloc off = some b ∧ Taken n n' b := by
  obtain ⟨job1, htype1, hoff1, rfl, rfl⟩ := jobAlloc_fresh hno hnb (.inr hfresh) h
  have hcounted := hreg.counted hcnt hnb
  set p := pickDevices n job cores nb with hp
  have hchosen : Chosen n nb p := (pickDevices_chosen n job cores nb).1
  rw [Counted, ← htype1] at hcounted
  have hcounted1 : Counted { n with gresBitAlloc := some p.nodeBits, gresCntAlloc := p.cntAlloc }
      { job1 with gresBitAlloc := update job1.gresBitAlloc off (some p.jobBits) }
      p.jobBits := hcounted
  obtain ⟨c, hraise, htopo, htype⟩ := hcounted1.raiseCounts
  rw [hraise]
  refine ⟨hoff1 hoff, p.jobBits, update_self _ _ _, ?_⟩
  refine ⟨⟨rfl, rfl, rfl, rfl, rfl⟩, hchosen.jobSize, fun nb' hnb' => ?_, hchosen.cntAlloc,
    htopo, htype, rfl⟩
  obtain rfl : nb = nb' := Option.some.inj (hnb.symm.trans hnb')
  exact ⟨p.nodeBits, rfl, hchosen.free, hchosen.nodeBits, hchosen.nodeSize⟩

/-- A job that has devices gives them back without underflow, if the counters are high enough. -/
theorem jobDealloc_freed {off : ℕ} (hno : n.noConsume = false)
    (hnb : n.gresBitAlloc = some nb) (hoff : off < job.nodeCnt)
    (hb : job.gresBitAlloc off = some b) (hsize : b.size ≤ nb.size)
    (hsome : n.topoGresCntAlloc.isSome) (hcnt : b.bits.card ≤ n.gresCntAlloc)
    (htopo : ∀ i, n.topoPart b i ≤ n.topoCnt i) (htype : ∀ j, n.typePart b j ≤ n.typeCntAlloc j) :
    ∃ n', jobDealloc n job off = some (n', false) ∧ Freed n n' b := by
  obtain ⟨cnt, hsome⟩ := Option.isSome_iff_exists.1 hsome
  obtain ⟨nb', hfold, hsize', hbits⟩ := foldl_free (nodup_range) b nb
    (k := n.gresCntAlloc) false (by rw [countP_range]; exact hcnt)
  have hfree : freeDevices n job off = ({ n with
          gresBitAlloc := some nb'
          gresCntAlloc := n.gresCntAlloc - b.bits.card }, false) := by
    rw [countP_range] at hfold
    simp only [freeDevices, hnb, hb, min_eq_left hsize, hfold]
  obtain ⟨c, hlower, htopo', htype'⟩ := lowerCounts_spec
    (n := { n with gresBitAlloc := some nb', gresCntAlloc := n.gresCntAlloc - b.bits.card })
    hsome htopo htype
  refine ⟨{ n with
      gresBitAlloc := some nb'
      gresCntAlloc := n.gresCntAlloc - b.bits.card
      topoGresCntAlloc := some c.topo
      typeCntAlloc := c.type }, ?_, ⟨rfl, rfl, rfl, rfl, rfl⟩,
    fun nb0 hnb0 => ⟨nb', rfl, ?_, ?_⟩, rfl, htopo', htype', rfl⟩
  · rw [jobDealloc, if_neg (by simp [hno]), if_neg (by omega)]
    simp only [hsome] at hlower
    simp [hfree, hb, hsome, hlower]
  · obtain rfl : nb = nb0 := Option.some.inj (hnb.symm.trans hnb0)
    ext i
    rw [hbits, Finset.mem_sdiff, mem_range]
    exact and_congr_right fun _ => not_congr ⟨fun h => h.2, fun h => ⟨b.lt_size i h, h⟩⟩
  · obtain rfl : nb = nb0 := Option.some.inj (hnb.symm.trans hnb0)
    exact hsize'

end

end Slurm
