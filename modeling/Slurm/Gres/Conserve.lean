import Slurm.Lib.Run
import Slurm.Lib.Tally
import Slurm.Gres.Counts

/-!
# Devices are conserved

Jobs are given devices of one node and give them back, each of them once. The devices in use
should be those of the jobs that have some, each of one job only, and the counters should be
where they started when all jobs are gone (`GresRun.Conserved`).

This holds in all runs in which the allocations are regular (`GresRun.gres_conserved`). It
fails for jobs that ask for a type of device (`GresRun.typed_devices`).
-/

namespace Slurm

open Function Finset Option

/-- A node, and the jobs that have devices of it. The node is number `offset` for each of
    these jobs. -/
structure GresRun where
  node : GresNode
  job : ℕ → GresJob := fun _ => { gresCntAlloc := 0 }
  offset : ℕ → ℕ := fun _ => 0
  live : Finset ℕ := ∅

/-- A job is given devices, or gives them back. -/
inductive GresOp
  | alloc (id : ℕ) (job : GresJob) (nodeCnt off : ℕ) (cores : Option Bitstr)
  | dealloc (id : ℕ)

namespace GresRun

variable (s : GresRun)

/-- One step. Nothing is done if there is an error. -/
def exec : GresOp → GresRun
  | .alloc id job nodeCnt off cores =>
    match jobAlloc s.node job nodeCnt off cores with
    | none => s
    | some (node, job) =>
      { node
        job := update s.job id job
        offset := update s.offset id off
        live := insert id s.live }
  | .dealloc id =>
    match jobDealloc s.node (s.job id) (s.offset id) with
    | none => s
    | some (node, _) => { s with node, live := s.live.erase id }

/-- The devices that a job has of the node. -/
def held (id : ℕ) : Option Bitstr := (s.job id).gresBitAlloc (s.offset id)

/-- The devices that a job has of the node, as a set. -/
def heldBits (id : ℕ) : Finset ℕ := (s.held id).elim ∅ (·.bits)

/-- A job is given devices if it has none yet, and if there are enough of them. It gives them
    back if it has some. -/
def Valid : GresOp → Prop
  | .alloc id job nodeCnt off _ => id ∉ s.live ∧ job.gresBitAlloc off = none ∧ off < nodeCnt ∧
      job.gresCntAlloc ≤ ((Finset.range s.node.gresCntAvail).filter fun i =>
        ∀ nb ∈ s.node.gresBitAlloc, i ∉ nb.bits).card
  | .dealloc id => id ∈ s.live

/-- Allocations are regular. -/
def IsRegular : GresOp → Prop
  | .alloc _ job _ _ cores => Regular s.node job cores
  | .dealloc _ => True

instance : ∀ o, Decidable (s.Valid o)
  | .alloc _ _ _ _ _ => inferInstanceAs (Decidable (_ ∧ _ ∧ _ ∧ _))
  | .dealloc _ => inferInstanceAs (Decidable (_ ∈ _))

instance : ∀ o, Decidable (s.IsRegular o)
  | .alloc _ _ _ _ _ => inferInstanceAs (Decidable (Regular _ _ _))
  | .dealloc _ => inferInstanceAs (Decidable True)

/-- The node as it is configured: it has a bit string, in which nothing is set. There are
    counters for topology records. -/
structure Fresh (n : GresNode) : Prop where
  bits : ∃ nb, n.gresBitAlloc = some nb ∧ nb.bits = ∅
  cnt : n.gresCntAlloc = 0
  counted : n.topo ≠ [] → n.topoGresCntAlloc.isSome

/-- The devices in use are counted, and each of them is that of one job. All jobs can give their
    devices back without underflow. The node is as it was in the beginning (`n₀`) if there are
    no jobs. -/
structure Conserved (n₀ : GresNode) : Prop where
  counted : ∃ nb, s.node.gresBitAlloc = some nb ∧ s.node.gresCntAlloc = nb.bits.card ∧
    ∀ d ∈ nb.bits, ∃! id, id ∈ s.live ∧ d ∈ s.heldBits id
  returns : ∀ id ∈ s.live, ∃ n, jobDealloc s.node (s.job id) (s.offset id) = some (n, false)
  restored : s.live = ∅ → s.node.gresBitAlloc.map (·.bits) = n₀.gresBitAlloc.map (·.bits) ∧
    s.node.gresCntAlloc = n₀.gresCntAlloc ∧ (∀ i, s.node.topoCnt i = n₀.topoCnt i) ∧
    ∀ j, s.node.typeCntAlloc j = n₀.typeCntAlloc j

/-! ## The invariant -/

/-- What a job has of the counters of topology records. -/
def topoHeld (i id : ℕ) : ℕ := (s.held id).elim 0 fun b => s.node.topoPart b i

/-- What a job has of the counters of types. -/
def typeHeld (j id : ℕ) : ℕ := (s.held id).elim 0 fun b => s.node.typePart b j

/-- All that the node has is due to the jobs. -/
structure Inv (n₀ : GresNode) : Prop where
  config : n₀.SameConfig s.node
  bits : ∃ nb, s.node.gresBitAlloc = some nb ∧ nb.bits = s.live.biUnion s.heldBits ∧
    ∀ id ∈ s.live, ∀ b, s.held id = some b → b.size = s.node.gresCntAvail ∧ b.size ≤ nb.size
  apart : ∀ id ∈ s.live, ∀ id' ∈ s.live, id ≠ id' → Disjoint (s.heldBits id) (s.heldBits id')
  cnt : Tally 0 s.live (fun id => (s.heldBits id).card) s.node.gresCntAlloc
  topo : ∀ i, Tally (n₀.topoCnt i) s.live (s.topoHeld i) (s.node.topoCnt i)
  type : ∀ j, Tally (n₀.typeCntAlloc j) s.live (s.typeHeld j) (s.node.typeCntAlloc j)
  jobs : s.node.noConsume = false → ∀ id ∈ s.live,
    (s.held id).isSome ∧ s.offset id < (s.job id).nodeCnt
  idle : s.node.noConsume → ∀ id ∈ s.live, s.held id = none
  array : s.node.topo ≠ [] ∨ (∃ id ∈ s.live, (s.held id).isSome) → s.node.topoGresCntAlloc.isSome

variable {s} {n₀ : GresNode} {id : ℕ}

theorem inv_init (h : Fresh n₀) : Inv { node := n₀ } n₀ where
  config := .refl n₀
  bits := by
    obtain ⟨nb, hnb, hempty⟩ := h.bits
    exact ⟨nb, hnb, by simp [hempty], by simp⟩
  apart := by simp
  cnt := by
    rw [h.cnt]
    exact .empty 0 _
  topo i := .empty _ _
  type j := .empty _ _
  jobs := by simp
  idle := by simp
  array := by
    rintro (h' | ⟨id, hid, -⟩)
    · exact h.counted h'
    · exact absurd hid (notMem_empty id)

/-- A job gives its devices back without underflow. -/
theorem Inv.dealloc (h : s.Inv n₀) (hid : id ∈ s.live) :
    (s.node.noConsume ∧ jobDealloc s.node (s.job id) (s.offset id) = some (s.node, false)) ∨
      ∃ n b, jobDealloc s.node (s.job id) (s.offset id) = some (n, false) ∧ s.held id = some b ∧
        Freed s.node n b := by
  cases hno : s.node.noConsume with
  | true => exact .inl ⟨rfl, by rw [jobDealloc, if_pos hno]⟩
  | false =>
    obtain ⟨hheld, hoff⟩ := h.jobs hno id hid
    obtain ⟨b, hb⟩ := isSome_iff_exists.1 hheld
    obtain ⟨nb, hnb, -, hsize⟩ := h.bits
    have hcnt : b.bits.card ≤ s.node.gresCntAlloc := by
      have hle := h.cnt.le hid
      simpa [heldBits, hb] using hle
    have htopo (i : ℕ) : s.node.topoPart b i ≤ s.node.topoCnt i := by
      have hle := (h.topo i).le hid
      simpa [topoHeld, hb] using hle
    have htype (j : ℕ) : s.node.typePart b j ≤ s.node.typeCntAlloc j := by
      have hle := (h.type j).le hid
      simpa [typeHeld, hb] using hle
    obtain ⟨n, hn, hfreed⟩ := jobDealloc_freed hno hnb hoff hb (hsize id hid b hb).2
      (h.array (.inr ⟨id, hid, hheld⟩)) hcnt htopo htype
    exact .inr ⟨n, b, hn, hb, hfreed⟩

/-- The invariant says that devices are conserved. -/
theorem Inv.conserved (h : s.Inv n₀) (hfresh : Fresh n₀) : s.Conserved n₀ where
  counted := by
    obtain ⟨nb, hnb, hbits, -⟩ := h.bits
    refine ⟨nb, hnb, ?_, fun d hd => ?_⟩
    · have hcnt : s.node.gresCntAlloc = 0 + ∑ id ∈ s.live, (s.heldBits id).card := h.cnt
      rw [hbits, card_biUnion h.apart, hcnt, Nat.zero_add]
    · rw [hbits] at hd
      obtain ⟨id, hid, hmem⟩ := mem_biUnion.1 hd
      refine ⟨id, ⟨hid, hmem⟩, fun id' h' => ?_⟩
      by_contra hne
      exact disjoint_left.1 (h.apart id' h'.1 id hid hne) h'.2 hmem
  returns id hid := by
    rcases h.dealloc hid with ⟨-, hd⟩ | ⟨n, b, hd, -, -⟩
    · exact ⟨_, hd⟩
    · exact ⟨n, hd⟩
  restored hlive := by
    obtain ⟨nb, hnb, hbits, -⟩ := h.bits
    obtain ⟨nb0, hnb0, hempty⟩ := hfresh.bits
    have hcnt := h.cnt
    rw [hlive] at hcnt hbits
    refine ⟨?_, by rw [hcnt.eq_base, hfresh.cnt], fun i => ?_, fun j => ?_⟩
    · rw [hnb, hnb0, map_some, map_some, hbits, hempty, biUnion_empty]
    · have htopo := h.topo i
      rw [hlive] at htopo
      exact htopo.eq_base
    · have htype := h.type j
      rw [hlive] at htype
      exact htype.eq_base

/-! ## Steps -/

/-- A job joins those that have devices. -/
def join (s : GresRun) (id : ℕ) (node : GresNode) (job : GresJob) (off : ℕ) : GresRun where
  node := node
  job := update s.job id job
  offset := update s.offset id off
  live := insert id s.live

section Join

variable {node : GresNode} {job : GresJob} {off k : ℕ}

theorem held_join_self : (s.join id node job off).held id = job.gresBitAlloc off := by
  simp [held, join]

theorem held_join_of_mem (hid : id ∉ s.live) (hk : k ∈ s.live) :
    (s.join id node job off).held k = s.held k ∧ (s.join id node job off).offset k = s.offset k ∧
      (s.join id node job off).job k = s.job k := by
  have hne : k ≠ id := fun heq => hid (heq ▸ hk)
  simp [held, join, hne]

theorem heldBits_join_of_mem (hid : id ∉ s.live) (hk : k ∈ s.live) :
    (s.join id node job off).heldBits k = s.heldBits k := by
  rw [heldBits, heldBits, (held_join_of_mem hid hk).1]

/-- The parts that the others have of the counters do not change. -/
theorem topoHeld_join (hid : id ∉ s.live) (hc : s.node.SameConfig node) (i : ℕ)
    (hk : k ∈ s.live) : (s.join id node job off).topoHeld i k = s.topoHeld i k := by
  rw [topoHeld, topoHeld, (held_join_of_mem hid hk).1]
  cases s.held k with
  | none => rfl
  | some b => exact hc.topoPart i

theorem typeHeld_join (hid : id ∉ s.live) (hc : s.node.SameConfig node) (j : ℕ)
    (hk : k ∈ s.live) : (s.join id node job off).typeHeld j k = s.typeHeld j k := by
  rw [typeHeld, typeHeld, (held_join_of_mem hid hk).1]
  cases s.held k with
  | none => rfl
  | some b => exact hc.typePart j

theorem biUnion_join (hid : id ∉ s.live) : (s.join id node job off).live.biUnion
    (s.join id node job off).heldBits =
      s.live.biUnion s.heldBits ∪ (s.join id node job off).heldBits id := by
  have hlive : (s.join id node job off).live = insert id s.live := rfl
  rw [hlive, biUnion_insert, union_comm]
  congr 1
  exact biUnion_congr rfl fun k hk => heldBits_join_of_mem hid hk

/-- A job joins with what was free, and the counters grow by what it has. -/
theorem Inv.join (h : s.Inv n₀) (hid : id ∉ s.live) (hc : s.node.SameConfig node)
    (hbits : ∃ nb, node.gresBitAlloc = some nb ∧
      nb.bits = s.live.biUnion s.heldBits ∪ (s.join id node job off).heldBits id ∧
      ∀ k ∈ insert id s.live, ∀ b, (s.join id node job off).held k = some b →
        b.size = s.node.gresCntAvail ∧ b.size ≤ nb.size)
    (hfree : Disjoint (s.live.biUnion s.heldBits) ((s.join id node job off).heldBits id))
    (hcnt : node.gresCntAlloc = s.node.gresCntAlloc + ((s.join id node job off).heldBits id).card)
    (htopo : ∀ i, node.topoCnt i = s.node.topoCnt i + (s.join id node job off).topoHeld i id)
    (htype : ∀ j, node.typeCntAlloc j =
      s.node.typeCntAlloc j + (s.join id node job off).typeHeld j id)
    (hjob : node.noConsume = false → (job.gresBitAlloc off).isSome ∧ off < job.nodeCnt)
    (hidle : node.noConsume → job.gresBitAlloc off = none)
    (harray : s.node.topoGresCntAlloc.isSome ∨ (job.gresBitAlloc off).isSome →
      node.topoGresCntAlloc.isSome) : (s.join id node job off).Inv n₀ where
  config := h.config.trans hc
  bits := by
    obtain ⟨nb, hnb, hunion, hsize⟩ := hbits
    refine ⟨nb, hnb, by rw [biUnion_join hid, hunion], fun k hk b hb => ?_⟩
    have havail : (s.join id node job off).node.gresCntAvail = s.node.gresCntAvail :=
      hc.gresCntAvail
    rw [havail]
    exact hsize k hk b hb
  apart k hk k' hk' hne := by
    rcases mem_insert.1 hk with heq | hk
    · rcases mem_insert.1 hk' with heq' | hk'
      · exact absurd (heq.trans heq'.symm) hne
      · rw [heq, heldBits_join_of_mem hid hk']
        exact (disjoint_biUnion_left _ _ _).1 hfree k' hk' |>.symm
    · rcases mem_insert.1 hk' with heq' | hk'
      · rw [heq', heldBits_join_of_mem hid hk]
        exact (disjoint_biUnion_left _ _ _).1 hfree k hk
      · rw [heldBits_join_of_mem hid hk, heldBits_join_of_mem hid hk']
        exact h.apart k hk k' hk' hne
  cnt := by
    have hins := h.cnt.insert (fun k => ((s.join id node job off).heldBits k).card) hid
      fun k hk => by rw [heldBits_join_of_mem hid hk]
    rw [← hcnt] at hins
    exact hins
  topo i := by
    have hins := (h.topo i).insert ((s.join id node job off).topoHeld i) hid
      fun k hk => topoHeld_join hid hc i hk
    rw [← htopo] at hins
    exact hins
  type j := by
    have hins := (h.type j).insert ((s.join id node job off).typeHeld j) hid
      fun k hk => typeHeld_join hid hc j hk
    rw [← htype] at hins
    exact hins
  jobs hno k hk := by
    rcases mem_insert.1 hk with heq | hk
    · rw [heq, held_join_self]
      simpa [GresRun.join] using hjob hno
    · obtain ⟨hheld, hoff, hrec⟩ : _ ∧ (s.join id node job off).offset k = _ ∧ _ :=
        held_join_of_mem hid hk
      rw [hheld, hoff, hrec]
      exact h.jobs (hc.noConsume.symm.trans hno) k hk
  idle hno k hk := by
    rcases mem_insert.1 hk with heq | hk
    · rw [heq, held_join_self]
      exact hidle hno
    · rw [(held_join_of_mem hid hk).1]
      exact h.idle (hc.noConsume.symm.trans hno) k hk
  array := by
    rintro (hne | ⟨k, hk, hsome⟩)
    · exact harray (.inl (h.array (.inl (hc.topo ▸ hne))))
    · rcases mem_insert.1 hk with heq | hk
      · rw [heq, held_join_self] at hsome
        exact harray (.inr hsome)
      · rw [(held_join_of_mem hid hk).1] at hsome
        exact harray (.inl (h.array (.inr ⟨k, hk, hsome⟩)))

/-- On a node whose devices are not counted, a job is given none. -/
theorem Inv.join_idle (h : s.Inv n₀) (hid : id ∉ s.live) (hnone : job.gresBitAlloc off = none)
    (hno : s.node.noConsume) : (s.join id s.node job off).Inv n₀ := by
  have hself : (s.join id s.node job off).held id = none := held_join_self.trans hnone
  have hbits : (s.join id s.node job off).heldBits id = ∅ := by
    rw [heldBits, hself]
    rfl
  obtain ⟨nb, hnb, hunion, hsize⟩ := h.bits
  refine h.join hid (.refl _) ⟨nb, hnb, ?_, fun k hk b hb => ?_⟩ ?_ ?_ (fun i => ?_) (fun j => ?_)
    (fun hno' => ?_) (fun _ => hnone) fun hsome => ?_
  · rw [hbits, union_empty, hunion]
  · rcases mem_insert.1 hk with rfl | hk
    · rw [hself] at hb
      cases hb
    · rw [(held_join_of_mem hid hk).1] at hb
      exact hsize k hk b hb
  · rw [hbits]
    exact disjoint_empty_right _
  · rw [hbits, card_empty, Nat.add_zero]
  · rw [topoHeld, hself, elim_none, Nat.add_zero]
  · rw [typeHeld, hself, elim_none, Nat.add_zero]
  · rw [hno] at hno'
    cases hno'
  · simpa [hnone] using hsome

/-- A job is given devices. -/
theorem Inv.join_taken {b : Bitstr} (h : s.Inv n₀) (hid : id ∉ s.live)
    (hno : s.node.noConsume = false) (hb : job.gresBitAlloc off = some b) (hoff : off < job.nodeCnt)
    (htaken : Taken s.node node b) : (s.join id node job off).Inv n₀ := by
  have hself : (s.join id node job off).held id = some b := held_join_self.trans hb
  have hbits : (s.join id node job off).heldBits id = b.bits := by
    rw [heldBits, hself]
    rfl
  obtain ⟨nb, hnb, hunion, hsize⟩ := h.bits
  obtain ⟨nb', hnb', hfree, hbits', hroom⟩ := htaken.bits nb hnb
  refine h.join hid htaken.config ⟨nb', hnb', ?_, fun k hk b' hb' => ?_⟩ ?_ ?_ (fun i => ?_)
    (fun j => ?_) (fun _ => ⟨?_, hoff⟩) (fun hyes => ?_) fun _ => htaken.counted
  · rw [hbits, hbits', hunion]
  · rcases mem_insert.1 hk with rfl | hk
    · obtain rfl : b = b' := some.inj (hself.symm.trans hb')
      exact ⟨htaken.size, htaken.size.trans_le hroom⟩
    · rw [(held_join_of_mem hid hk).1] at hb'
      have heq := (hsize k hk b' hb').1
      exact ⟨heq, heq.trans_le hroom⟩
  · rw [hbits, ← hunion]
    exact hfree
  · rw [hbits, htaken.cnt]
  · rw [htaken.topo, topoHeld, hself]
    exact congrArg _ (htaken.config.topoPart i).symm
  · rw [htaken.type, typeHeld, hself]
    exact congrArg _ (htaken.config.typePart j).symm
  · rw [hb]
    rfl
  · rw [htaken.config.noConsume, hno] at hyes
    cases hyes

end Join

/-- A job leaves with what it has, and the counters shrink by that. -/
theorem Inv.leave {node : GresNode} (h : s.Inv n₀) (hid : id ∈ s.live) (hc : s.node.SameConfig node)
    (hbits : ∀ nb, s.node.gresBitAlloc = some nb → ∃ nb', node.gresBitAlloc = some nb' ∧
      nb'.bits = nb.bits \ s.heldBits id ∧ nb'.size = nb.size)
    (hcnt : node.gresCntAlloc = s.node.gresCntAlloc - (s.heldBits id).card)
    (htopo : ∀ i, node.topoCnt i = s.node.topoCnt i - s.topoHeld i id)
    (htype : ∀ j, node.typeCntAlloc j = s.node.typeCntAlloc j - s.typeHeld j id)
    (harray : s.node.topoGresCntAlloc.isSome → node.topoGresCntAlloc.isSome) :
    Inv { s with node, live := s.live.erase id } n₀ where
  config := h.config.trans hc
  bits := by
    obtain ⟨nb, hnb, hunion, hsize⟩ := h.bits
    obtain ⟨nb', hnb', hbits', hsize'⟩ := hbits nb hnb
    refine ⟨nb', hnb', ?_, fun k hk b' hb' => ?_⟩
    · rw [hbits', hunion]
      ext d
      simp only [mem_sdiff, mem_biUnion, mem_erase]
      constructor
      · rintro ⟨⟨k, hk, hd⟩, hnot⟩
        exact ⟨k, ⟨fun heq => hnot (heq ▸ hd), hk⟩, hd⟩
      · rintro ⟨k, ⟨hne, hk⟩, hd⟩
        exact ⟨⟨k, hk, hd⟩, disjoint_left.1 (h.apart k hk id hid hne) hd⟩
    · obtain ⟨heq, hle⟩ := hsize k (mem_of_mem_erase hk) b' hb'
      exact ⟨heq.trans hc.gresCntAvail.symm, hle.trans hsize'.ge⟩
  apart k hk k' hk' := h.apart k (mem_of_mem_erase hk) k' (mem_of_mem_erase hk')
  cnt := by
    have herase := h.cnt.erase hid
    rw [← hcnt] at herase
    exact herase
  topo i := by
    -- the parts that jobs have of the counters do not change
    have hsame : topoHeld { s with node, live := s.live.erase id } i = s.topoHeld i := by
      funext k
      change (s.held k).elim 0 _ = (s.held k).elim 0 _
      cases s.held k with
      | none => rfl
      | some b => exact hc.topoPart i
    have herase := (h.topo i).erase hid
    rw [← htopo] at herase
    rw [hsame]
    exact herase
  type j := by
    have hsame : typeHeld { s with node, live := s.live.erase id } j = s.typeHeld j := by
      funext k
      change (s.held k).elim 0 _ = (s.held k).elim 0 _
      cases s.held k with
      | none => rfl
      | some b => exact hc.typePart j
    have herase := (h.type j).erase hid
    rw [← htype] at herase
    rw [hsame]
    exact herase
  jobs hno k hk := h.jobs (hc.noConsume.symm.trans hno) k (mem_of_mem_erase hk)
  idle hno k hk := h.idle (hc.noConsume.symm.trans hno) k (mem_of_mem_erase hk)
  array := by
    rintro (hne | ⟨k, hk, hsome⟩)
    · exact harray (h.array (.inl (hc.topo ▸ hne)))
    · exact harray (h.array (.inr ⟨k, mem_of_mem_erase hk, hsome⟩))

/-- On a node whose devices are not counted, a job has nothing to give back. -/
theorem Inv.leave_idle (h : s.Inv n₀) (hid : id ∈ s.live) (hno : s.node.noConsume) :
    Inv { s with live := s.live.erase id } n₀ := by
  have hb := h.idle hno id hid
  have hbits : s.heldBits id = ∅ := by
    rw [heldBits, hb]
    rfl
  refine h.leave hid (.refl _) (fun nb hnb => ⟨nb, hnb, ?_, rfl⟩) ?_ (fun i => ?_) (fun j => ?_)
    fun hsome => hsome
  · rw [hbits, sdiff_empty]
  · rw [hbits, card_empty, Nat.sub_zero]
  · rw [topoHeld, hb, elim_none, Nat.sub_zero]
  · rw [typeHeld, hb, elim_none, Nat.sub_zero]

/-- A job gives its devices back. -/
theorem Inv.leave_freed {node : GresNode} {b : Bitstr} (h : s.Inv n₀) (hid : id ∈ s.live)
    (hb : s.held id = some b) (hfreed : Freed s.node node b) :
    Inv { s with node, live := s.live.erase id } n₀ := by
  have hbits : s.heldBits id = b.bits := by
    rw [heldBits, hb]
    rfl
  refine h.leave hid hfreed.config (fun nb hnb => ?_) ?_ (fun i => ?_) (fun j => ?_)
    fun _ => hfreed.counted
  · rw [hbits]
    exact hfreed.bits nb hnb
  · rw [hbits]
    exact hfreed.cnt
  · rw [topoHeld, hb]
    exact hfreed.topo i
  · rw [typeHeld, hb]
    exact hfreed.type j

/-- Every step of a regular run keeps the invariant. -/
theorem Inv.exec (h : s.Inv n₀) {o : GresOp} (hvalid : s.Valid o) (hreg : s.IsRegular o) :
    (s.exec o).Inv n₀ := by
  cases o with
  | alloc id job nodeCnt off cores =>
    obtain ⟨hid, hfresh, hoff, -⟩ := hvalid
    simp only [GresRun.exec]
    cases hjob : jobAlloc s.node job nodeCnt off cores with
    | none => exact h
    | some r =>
      obtain ⟨node, job'⟩ := r
      cases hno : s.node.noConsume with
      | true =>
        rw [jobAlloc, if_pos hno] at hjob
        obtain ⟨rfl, rfl⟩ := Prod.mk.inj (some.inj hjob)
        exact h.join_idle hid hfresh hno
      | false =>
        obtain ⟨nb, hnb, -⟩ := h.bits
        obtain ⟨hoff', b, hb, htaken⟩ := jobAlloc_taken hno hnb (fun hne => h.array (.inl hne))
          hfresh hoff hreg hjob
        exact h.join_taken hid hno hb hoff' htaken
  | dealloc id =>
    simp only [GresRun.exec]
    rcases h.dealloc hvalid with ⟨hno, hd⟩ | ⟨node, b, hd, hb, hfreed⟩
    · rw [hd]
      exact h.leave_idle hvalid hno
    · rw [hd]
      exact h.leave_freed hvalid hb hfreed

/-! ## Runs -/

/-- Devices are conserved in every run in which all allocations are regular. -/
theorem gres_conserved {os : List GresOp} (hfresh : Fresh n₀)
    (hrun : Run.Admissible GresRun.exec (fun s o => s.Valid o ∧ s.IsRegular o) { node := n₀ } os) :
    Run.Always GresRun.exec (fun s => s.Conserved n₀) { node := n₀ } os := by
  have hinv : Run.Always GresRun.exec (fun s => s.Inv n₀) { node := n₀ } os :=
    Run.always_of_invariant (fun _ _ h hok => Inv.exec h hok.1 hok.2) (inv_init hfresh) hrun
  exact hinv.mono fun _ h => Inv.conserved h hfresh

/-- A node with a device of each of two types, both next to the only core. -/
def twoTypes : GresNode where
  gresCntConfig := 2
  gresCntAvail := 2
  gresBitAlloc := some (Bitstr.alloc 2)
  topo := [
    { cpusBitmap := some { size := 1, bits := {0} }
      gresBitmap := { size := 2, bits := {0} }
      model := some "kepler".toList },
    { cpusBitmap := some { size := 1, bits := {0} }
      gresBitmap := { size := 2, bits := {1} }
      model := some "tesla".toList }]
  topoGresCntAlloc := some fun _ => 0
  typeModel := [some "kepler".toList, some "tesla".toList]

/-- One job asks for a type, and another one for any device. They leave in the order in which they
    came. -/
theorem gres_conserved_two : Run.Always GresRun.exec (fun s => s.Conserved twoTypes)
    { node := twoTypes }
    [.alloc 1 { typeModel := some "tesla".toList, gresCntAlloc := 1 } 1 0
        (some { size := 1, bits := {0} }),
      .alloc 2 { gresCntAlloc := 1 } 1 0 none, .dealloc 1, .dealloc 2] :=
  gres_conserved ⟨⟨_, rfl, rfl⟩, rfl, fun _ => rfl⟩ (by decide +kernel)

/-- A job whose cores are not given asks for a type, and is given a device of the other one. It
    cannot give it back without underflow. Without topology, the count of the type stays when the
    job has given its device back. -/
theorem typed_devices :
    (∃ os, Run.Admissible GresRun.exec Valid { node := twoTypes } os ∧
      ¬ Run.Always GresRun.exec (fun s => s.Conserved twoTypes) { node := twoTypes } os) ∧
    ∃ os, Run.Admissible GresRun.exec Valid
        { node := { twoTypes with topo := [], topoGresCntAlloc := none } } os ∧
      ¬ Run.Always GresRun.exec
        (fun s => s.Conserved { twoTypes with topo := [], topoGresCntAlloc := none })
        { node := { twoTypes with topo := [], topoGresCntAlloc := none } } os := by
  constructor
  · refine ⟨[.alloc 1 { typeModel := some "tesla".toList, gresCntAlloc := 1 } 1 0 none],
      by decide +kernel, fun h => ?_⟩
    obtain ⟨n, hn⟩ := h.2.returns 1 (by decide +kernel)
    have hunder := congrArg (Option.map Prod.snd) hn
    simp only [map_some] at hunder
    exact absurd hunder (by decide +kernel)
  · refine ⟨[.alloc 1 { typeModel := some "tesla".toList, gresCntAlloc := 1 } 1 0 none,
      .dealloc 1], by decide +kernel, fun h => ?_⟩
    obtain ⟨-, -, -, htype⟩ := h.2.2.restored (by decide +kernel)
    exact absurd (htype 1) (by decide +kernel)

end GresRun

end Slurm
