import Slurm.Gres.Conserve

/-!
# Devices of the type that a job asks for

The type of a device is looked at together with the cores next to it. If too few devices pass that
test, or the cores are not known, the first of the others are taken (`untested`). A job gets only
devices of its type just if these are of that type (`jobAlloc_typed_iff`).
-/

namespace Slurm

open Finset GresRun

variable {n n' : GresNode} {job job' : GresJob} {cores : Option Bitstr} {nb : Bitstr} {type : CStr}
  {i nodeCnt off : ℕ}

/-- A device is in a topology record of a type. -/
def GresNode.Typed (n : GresNode) (type : CStr) (i : ℕ) : Prop :=
  ∃ t ∈ n.topo, i ∈ t.gresBitmap.bits ∧ t.model = some type
  deriving Decidable

section

variable (n job cores nb)

/-- The devices that are taken without a look at their type. -/
def untested : List ℕ :=
  ((List.range n.gresCntAvail).filter fun i => i ∉ nb.bits ∧ ¬Tested n job cores i).take
    (job.gresCntAlloc - (freeTested n job cores nb).card)

theorem pickDevices_untested : ∃ D : Finset ℕ, (∀ k ∈ D, Tested n job cores k) ∧
    (pickDevices n job cores nb).jobBits.bits = D ∪ (untested n job cores nb).toFinset := by
  obtain ⟨p, D, hsub, hpick, hall, hlast⟩ := pickDevices_passes n job cores nb
  have hcount : p.left + D.card = job.gresCntAlloc := hpick.left
  have hbits : (pickDevices n job cores nb).jobBits.bits = D ∪ firstFree _ _ p :=
    (hpick.trans hlast).jobBits.trans (empty_union _)
  refine ⟨D, fun k hk => (mem_filter.1 (hsub hk)).2.2, hbits.trans (congrArg (D ∪ ·) ?_)⟩
  rw [firstFree, untested]
  by_cases hleft : p.left = 0
  · have hcard := card_le_card hsub
    rw [hleft, Nat.sub_eq_zero_of_le (by omega), List.take_zero, List.take_zero]
  · rw [← hall hleft, ← hcount, Nat.add_sub_cancel]
    congr 2
    refine List.filter_congr fun k hk => ?_
    rw [decide_eq_decide, hpick.nodeBits, picking_nodeBits, hall hleft, mem_union, freeTested,
      mem_filter, mem_range]
    have hlt := List.mem_range.1 hk
    simp only [and_true]
    tauto

end

theorem Tested.typed (hask : job.typeModel = some type) (htopo : n.topo ≠ [])
    (h : Tested n job cores i) : n.Typed type i := by
  obtain ⟨hsome, hgood⟩ := h
  obtain ⟨cores, rfl⟩ := Option.isSome_iff_exists.1 hsome
  simp only [GoodDevice, coresOnGres, List.isEmpty_iff, htopo, if_false, hask] at hgood
  obtain ⟨t, ht, hmem, hmodel⟩ := mem_topo_of_coresOnTopo hgood
  exact ⟨t, ht, hmem, by simpa [otherType] using hmodel⟩

/-- The devices that are marked for a job are of the type it asks for just if those are that are
    taken without a look at it. None is marked if the node has no bit string, or the job has one. -/
theorem jobAlloc_typed_iff (htopo : n.topo ≠ []) (hask : job.typeModel = some type)
    (hno : n.noConsume = false) (hnb : n.gresBitAlloc = some nb)
    (hfresh : job.nodeCnt = 0 ∨ job.gresBitAlloc off = none)
    (h : jobAlloc n job nodeCnt off cores = some (n', job')) :
    (∀ b ∈ job'.gresBitAlloc off, ∀ k ∈ b.bits, n.Typed type k) ↔
      ∀ k ∈ untested n job cores nb, n.Typed type k := by
  obtain ⟨job1, -, -, rfl, -⟩ := jobAlloc_fresh hno hnb hfresh h
  obtain ⟨D, hD, hbits⟩ := pickDevices_untested n job cores nb
  simp only [Option.mem_some_iff, forall_eq', Function.update_self, hbits, mem_union,
    List.mem_toFinset]
  exact ⟨fun htyped k hk => htyped k (.inr hk), fun htyped k hk =>
    hk.elim (fun hk => (hD k hk).typed hask htopo) (htyped k)⟩

/-- A job that asks for the second type. -/
def teslaJob : GresJob := { typeModel := some "tesla".toList, gresCntAlloc := 1 }

theorem jobAlloc_typed_twoTypes : ∃ n' job',
    jobAlloc twoTypes teslaJob 1 0 (some { size := 1, bits := {0} }) = some (n', job') ∧
      ∀ b ∈ job'.gresBitAlloc 0, ∀ k ∈ b.bits, twoTypes.Typed "tesla".toList k := by
  obtain ⟨n', job', h⟩ : ∃ n' job', jobAlloc twoTypes teslaJob 1 0
    (some { size := 1, bits := {0} }) = some (n', job') := ⟨_, _, rfl⟩
  exact ⟨n', job', h, (jobAlloc_typed_iff (by decide) rfl rfl rfl (.inr rfl) h).2
    (by decide +kernel)⟩

/-- If the cores are not known, the job gets the first device, which is of the other type. -/
theorem jobAlloc_otherType :
    (twoTypes.topo.Pairwise fun t u => Disjoint t.gresBitmap.bits u.gresBitmap.bits) ∧
    (∀ k < twoTypes.gresCntAvail, ∃ t ∈ twoTypes.topo, k ∈ t.gresBitmap.bits) ∧
    (∀ nb ∈ twoTypes.gresBitAlloc, teslaJob.gresCntAlloc ≤ ((Finset.range
      twoTypes.gresCntAvail).filter fun i => i ∉ nb.bits ∧ twoTypes.Typed "tesla".toList i).card) ∧
    ∃ n' job', jobAlloc twoTypes teslaJob 1 0 none = some (n', job') ∧
      ∃ b ∈ job'.gresBitAlloc 0, ∃ k ∈ b.bits, ¬twoTypes.Typed "tesla".toList k :=
  ⟨by decide +kernel, by decide +kernel, by decide +kernel, _, _, rfl, _, rfl, 0,
    by decide +kernel, by decide +kernel⟩

end Slurm
