import Slurm.Port
import Slurm.Lib.Ledger
import Slurm.Lib.Run

/-!
# The table of ports is exact

The table of reserved ports stands for a ledger: each holder, a job step or a
job-pack job, owns its ports on its nodes, and nothing is owned by two holders.
The table only shows which port is owned on which node (`Refines`).

Whatever the holders do (`PortOp`), as long as each takes ports only while it
has none and keeps its nodes until it gives them back (`PortOp.Ok`), the
controller does on its table what they do in the ledger: it simulates it step
by step (`portExec_refines`). So, after any sequence of calls, the table shows
exactly what the holders have (`portResvTable_exact`).

The cursor of the steps must not be at `INT_MAX` when a step reserves. Each job that
finds too few ports brings it nearer (`step_faults`).
-/

namespace Slurm

open CString Function Ctld Set Ledger

/-- A holder of reserved ports: a job step, or a job of a job pack. -/
inductive Holder
  | step (p : Ptr)
  | job (p : Ptr)
  deriving DecidableEq

/-- What the manager of the ports sees of a holder. -/
structure Resv where
  nodes : Bitmap
  cnt : ℕ
  array : Option (List ℕ)

/-- The ports a holder has, on its nodes. -/
def Resv.owns (r : Resv) : Set (ℕ × ℕ) := {x | ∃ a, r.array = some a ∧ x.1 ∈ a ∧ x.2 ∈ r.nodes}

namespace Ctld

/-- The holders, as the manager of the ports sees them. -/
def resv (c : Ctld) : Holder → Resv
  | .step p => ⟨(c.step p).stepNodeBitmap, (c.step p).resvPortCnt, (c.step p).resvPortArray⟩
  | .job p => ⟨(c.job p).nodeSet, (c.job p).resvPortCnt, (c.job p).resvPortArray⟩

variable (c : Ctld) (p : Ptr)

theorem resv_setStep (s : StepRecord) : (c.setStep p s).resv =
    update c.resv (.step p) ⟨s.stepNodeBitmap, s.resvPortCnt, s.resvPortArray⟩ := by
  funext h
  cases h with
  | step q =>
    by_cases hq : q = p
    · subst hq
      simp [resv]
    · simp [resv, hq]
  | job q =>
    rfl

theorem resv_setJob (j : JobRecord) : (c.setJob p j).resv =
    update c.resv (.job p) ⟨j.nodeSet, j.resvPortCnt, j.resvPortArray⟩ := by
  funext h
  cases h with
  | step q =>
    rfl
  | job q =>
    by_cases hq : q = p
    · subst hq
      simp [resv]
    · simp [resv, hq]

end Ctld

/-! ## What a call does -/

/-- Reserve ports for a holder. -/
def portAlloc (env : Env) (c : Ctld) : Holder → Rc × Ctld
  | .step p => resvPortAlloc env c p
  | .job p => resvPortAllocJobpack env c p

/-- Release the ports of a holder. -/
def portFree (c : Ctld) : Holder → Ctld
  | .step p => resvPortFree c p
  | .job p => resvPortJobpackFree c p

/-- The nodes and the number of ports of a holder are set anew. -/
def portRebind (c : Ctld) (nodes : Bitmap) (cnt : ℕ) : Holder → Ctld
  | .step p => c.setStep p { c.step p with stepNodeBitmap := nodes, resvPortCnt := cnt }
  | .job p => c.setJob p { c.job p with nodeBitmap := some nodes, resvPortCnt := cnt }

section

variable {env : Env} {c : Ctld} {h : Holder}

/-- A reservation takes as many free rows as the holder wants, or changes
    neither the holders nor the table. -/
theorem portAlloc_cases (env : Env) (hcnt : 0 < (c.resv h).cnt) :
    ((portAlloc env c h).1 ≠ .success ∧ (portAlloc env c h).2.resv = c.resv ∧
        (portAlloc env c h).2.port.portResvTable = c.port.portResvTable) ∨
      ∃ rows : List ℕ, (portAlloc env c h).1 = .success ∧
        rows.Nodup ∧ rows.length = (c.resv h).cnt ∧ (∀ i ∈ rows, i < c.port.portResvCnt ∧
          Disjoint (c.resv h).nodes (c.port.portResvTable i)) ∧
        (portAlloc env c h).2.resv = update c.resv h
          { c.resv h with array := some (rows.map (· + c.port.portResvMin)) } ∧
        (portAlloc env c h).2.port.portResvTable =
          (c.port.reserve (c.resv h).nodes rows).portResvTable := by
  -- The search asks for at least one row, so it finds no more than it wants.
  have hlen : ∀ {m : PortMgr} {nodes : Bitmap} {last : ℕ},
      ¬(m.identify nodes (c.resv h).cnt last).1.length < (c.resv h).cnt →
        (m.identify nodes (c.resv h).cnt last).1.length = (c.resv h).cnt := by
    intro m nodes last hle
    rw [m.length_identify nodes last hcnt] at hle ⊢
    omega
  cases h with
  | step p =>
    simp only [portAlloc, resvPortAlloc]
    split_ifs with hinvalid hfault hbusy
    · exact .inl ⟨by simp, rfl, rfl⟩
    · exact .inl ⟨by simp, rfl, rfl⟩
    · exact .inl ⟨by simp, rfl, rfl⟩
    · have hspec := c.port.seedCursor.identify_spec (c.step p).stepNodeBitmap
        c.port.seedCursor.lastPortAlloc hcnt
      exact .inr ⟨_, rfl, hspec.1, hlen hbusy, hspec.2, resv_setStep .., rfl⟩
  | job p =>
    simp only [portAlloc]
    rcases resvPortAllocJobpack_cases env c p with ⟨-, heq⟩ | ⟨m, heq, -, htable, -, -⟩ |
      ⟨m, heq, -, htable, -, hlen'⟩ <;> rw [heq]
    · exact .inl ⟨by simp, rfl, rfl⟩
    · exact .inl ⟨by simp, rfl, htable⟩
    · have hspec := c.port.identify_spec (c.job p).nodeSet c.port.lastPortAllocJobpack hcnt
      exact .inr ⟨_, rfl, hspec.1, hlen (not_lt.2 hlen'), hspec.2, resv_setJob .., htable⟩

/-- A release clears the ports of the holder on its nodes, and takes them from it. -/
theorem portFree_cases :
    ((c.resv h).array = none ∧ portFree c h = c) ∨ ∃ ports, (c.resv h).array = some ports ∧
        (portFree c h).resv = update c.resv h { c.resv h with array := none } ∧
        (portFree c h).port.portResvTable =
          (c.port.release (c.resv h).nodes (ports.take (c.resv h).cnt)).portResvTable := by
  cases h with
  | step p =>
    simp only [portFree, resvPortFree]
    split
    case h_1 hnone => exact .inl ⟨hnone, rfl⟩
    case h_2 ports hsome => exact .inr ⟨ports, hsome, resv_setStep .., rfl⟩
  | job p =>
    simp only [portFree, resvPortJobpackFree]
    split
    case h_1 hnone => exact .inl ⟨hnone, rfl⟩
    case h_2 ports hsome => exact .inr ⟨ports, hsome, resv_setJob .., rfl⟩

/-- Setting a holder anew touches neither its ports nor the table. -/
theorem portRebind_spec (nodes : Bitmap) (cnt : ℕ) :
    (portRebind c nodes cnt h).resv = update c.resv h ⟨nodes, cnt, (c.resv h).array⟩ ∧
      (portRebind c nodes cnt h).port = c.port := by
  cases h with
  | step p => exact ⟨resv_setStep .., rfl⟩
  | job p => exact ⟨resv_setJob .., rfl⟩

theorem sameRange_portAlloc : SameRange c.port (portAlloc env c h).2.port := by
  cases h with
  | step p =>
    simp only [portAlloc, resvPortAlloc]
    split_ifs <;> exact ⟨rfl, rfl, rfl⟩
  | job p =>
    rcases resvPortAllocJobpack_cases env c p with ⟨-, heq⟩ | ⟨m, heq, -, -, hm, -⟩ |
      ⟨m, heq, -, -, hm, -⟩ <;> rw [portAlloc, heq]
    · exact .refl _
    · exact hm
    · exact hm

theorem sameRange_portFree : SameRange c.port (portFree c h).port := by
  cases h with
  | step p =>
    simp only [portFree, resvPortFree]
    split <;> exact ⟨rfl, rfl, rfl⟩
  | job p =>
    simp only [portFree, resvPortJobpackFree]
    split <;> exact ⟨rfl, rfl, rfl⟩

end

/-! ## The ledger behind the table -/

/-- The range of the ports and the number of rows agree; before any range is
    configured, all are zero. -/
def PortMgr.RangeOk (m : PortMgr) : Prop :=
  (m.portResvCnt = 0 ∧ m.portResvMin = 0 ∧ m.portResvMax = 0) ∨
    m.portResvMin + m.portResvCnt = m.portResvMax + 1

/-- The rows are those of ports of the range. -/
theorem PortMgr.RangeOk.le {m : PortMgr} (h : m.RangeOk) {i : ℕ} (hi : i < m.portResvCnt) :
    m.portResvMin + i ≤ m.portResvMax := by
  rcases h with ⟨h0, -, -⟩ | h
  · omega
  · omega

theorem SameRange.rangeOk {m m' : PortMgr} (h : SameRange m m') (hm : m.RangeOk) : m'.RangeOk := by
  unfold PortMgr.RangeOk
  rw [h.cnt, h.min, h.max]
  exact hm

/-- The table shows the ledger `l`: each holder owns its ports on its nodes, and
    a bit is set when somebody owns the port on the node. A holder has as many
    ports as it wanted, all different. -/
structure Refines (c : Ctld) (l : Ledger Holder (ℕ × ℕ)) : Prop where
  range : c.port.RangeOk
  own : ∀ h, l.own h = (c.resv h).owns
  table : ∀ i < c.port.portResvCnt, ∀ n,
    n ∈ c.port.portResvTable i ↔ (c.port.portResvMin + i, n) ∈ l.owned
  array : ∀ h a, (c.resv h).array = some a → a.Nodup ∧ a.length = (c.resv h).cnt

theorem Resv.owns_of_none {r : Resv} (h : r.array = none) : r.owns = ∅ := by
  simp [owns, h]

theorem Resv.owns_of_some {r : Resv} {a : List ℕ} (h : r.array = some a) :
    r.owns = {x | x.1 ∈ a ∧ x.2 ∈ r.nodes} := by
  simp [owns, h]

namespace Refines

variable {env : Env} {c c' : Ctld} {l : Ledger Holder (ℕ × ℕ)} {h : Holder}

/-- A call that changes neither the holders nor the table leaves the ledger as it is. -/
theorem stay (hr : Refines c l) (hrange : SameRange c.port c'.port) (hresv : c'.resv = c.resv)
    (htable : c'.port.portResvTable = c.port.portResvTable) : Refines c' l := by
  refine ⟨hrange.rangeOk hr.range, ?_, ?_, ?_⟩
  · rw [hresv]
    exact hr.own
  · rw [hrange.cnt, hrange.min, htable]
    exact hr.table
  · rw [hresv]
    exact hr.array

/-- A reservation acquires rows nobody owns, or leaves the ledger as it is. -/
theorem alloc (hr : Refines c l) (hnone : (c.resv h).array = none) (hcnt : 0 < (c.resv h).cnt) :
    ∃ l', l.Step l' ∧ Refines (portAlloc env c h).2 l' := by
  have hrange : SameRange c.port (portAlloc env c h).2.port := sameRange_portAlloc
  rcases portAlloc_cases env hcnt with
    ⟨-, hresv, htable⟩ | ⟨rows, -, hnodup, hlen, hfree, hresv, htable⟩
  · exact ⟨l, .stay, hr.stay hrange hresv htable⟩
  have hown : l.own h = ∅ := by rw [hr.own, Resv.owns_of_none hnone]
  let S : Set (ℕ × ℕ) := {x | x.1 ∈ rows.map (· + c.port.portResvMin) ∧ x.2 ∈ (c.resv h).nodes}
  have hS : Disjoint S l.owned := by
    rw [disjoint_left]
    rintro ⟨_, n⟩ ⟨hp, hn⟩ howned
    obtain ⟨i, hi, rfl⟩ := List.mem_map.1 hp
    obtain ⟨hlt, hdisj⟩ := hfree i hi
    rw [Nat.add_comm, ← hr.table i hlt] at howned
    exact Finset.disjoint_left.1 hdisj hn howned
  refine ⟨l.acquire h S hS, .acquire h S hS hown, hrange.rangeOk hr.range, fun k => ?_,
    fun i hi n => ?_, fun k a ha => ?_⟩
  · rw [hresv]
    by_cases hk : k = h
    · subst hk
      rw [acquire_own_self, hown, empty_union, update_self, Resv.owns_of_some rfl]
    · rw [acquire_own_of_ne hS hk, update_of_ne hk, hr.own]
  · rw [hrange.cnt] at hi
    rw [htable, hrange.min, PortMgr.mem_reserve, owned_acquire, hr.table i hi, mem_union]
    simp only [S, mem_ofPred_eq, List.mem_map]
    refine or_congr Iff.rfl (and_congr ⟨fun hi => ⟨i, hi, Nat.add_comm ..⟩, ?_⟩ Iff.rfl)
    rintro ⟨k, hk, hki⟩
    rwa [show i = k by omega]
  · rw [hresv] at ha ⊢
    by_cases hk : k = h
    · subst hk
      rw [update_self] at ha ⊢
      obtain rfl : rows.map (· + c.port.portResvMin) = a := Option.some_injective _ ha
      exact ⟨hnodup.map fun _ _ => Nat.add_right_cancel, by rw [List.length_map, hlen]⟩
    · rw [update_of_ne hk] at ha ⊢
      exact hr.array k a ha

/-- A release releases in the ledger. -/
theorem free (hr : Refines c l) : ∃ l', l.Step l' ∧ Refines (portFree c h) l' := by
  have hrange : SameRange c.port (portFree c h).port := sameRange_portFree
  rcases portFree_cases with ⟨-, heq⟩ | ⟨ports, hports, hresv, htable⟩
  · exact ⟨l, .stay, by rwa [heq]⟩
  have hlen : ports.take (c.resv h).cnt = ports :=
    List.take_of_length_le (hr.array h ports hports).2.le
  rw [hlen] at htable
  refine ⟨l.release h, .release h, hrange.rangeOk hr.range, fun k => ?_, fun i hi n => ?_,
    fun k a ha => ?_⟩
  · rw [hresv]
    by_cases hk : k = h
    · subst hk
      rw [release_own_self, update_self, Resv.owns_of_none rfl]
    · rw [release_own_of_ne hk, update_of_ne hk, hr.own]
  · rw [hrange.cnt] at hi
    have hmax : c.port.portResvMin + i ≤ c.port.portResvMax := hr.range.le hi
    rw [htable, hrange.min, PortMgr.mem_release, owned_release, hr.table i hi, hr.own,
      Resv.owns_of_some hports]
    simp only [mem_sdiff, mem_ofPred_eq]
    tauto
  · rw [hresv] at ha ⊢
    by_cases hk : k = h
    · subst hk
      simp at ha
    · rw [update_of_ne hk] at ha ⊢
      exact hr.array k a ha

/-- A holder without ports may be set anew. -/
theorem rebind (hr : Refines c l) (hnone : (c.resv h).array = none) (nodes : Bitmap) (cnt : ℕ) :
    Refines (portRebind c nodes cnt h) l := by
  obtain ⟨hresv, hport⟩ := portRebind_spec nodes cnt
  refine ⟨?_, fun k => ?_, ?_, fun k a ha => ?_⟩
  · rw [hport]
    exact hr.range
  · rw [hresv]
    by_cases hk : k = h
    · subst hk
      rw [update_self, hr.own, Resv.owns_of_none hnone]
      exact (Resv.owns_of_none (r := ⟨nodes, cnt, (c.resv k).array⟩) hnone).symm
    · rw [update_of_ne hk, hr.own]
  · rw [hport]
    exact hr.table
  · rw [hresv] at ha ⊢
    by_cases hk : k = h
    · subst hk
      simp [hnone] at ha
    · rw [update_of_ne hk] at ha ⊢
      exact hr.array k a ha

end Refines

/-! ## Sequences of calls -/

/-- What happens to the ports: a holder reserves, releases, or is set anew with
    other nodes and another number of ports. -/
inductive PortOp
  | alloc (h : Holder)
  | free (h : Holder)
  | rebind (h : Holder) (nodes : Bitmap) (cnt : ℕ)

/-- The state after an operation. -/
def portExec (env : Env) (c : Ctld) : PortOp → Ctld
  | .alloc h => (portAlloc env c h).2
  | .free h => portFree c h
  | .rebind h nodes cnt => portRebind c nodes cnt h

/-- A holder wants at least one port, reserves only while it has none, and keeps
    its nodes while it has some. -/
def PortOp.Ok (c : Ctld) : PortOp → Prop
  | .alloc h => (c.resv h).array = none ∧ 0 < (c.resv h).cnt
  | .free _ => True
  | .rebind h _ _ => (c.resv h).array = none

instance (c : Ctld) : ∀ o, Decidable (PortOp.Ok c o)
  | .alloc _ => inferInstanceAs (Decidable (_ ∧ _))
  | .free _ => inferInstanceAs (Decidable True)
  | .rebind _ _ _ => inferInstanceAs (Decidable (_ = _))

/-- A step reserves only while its cursor can be moved. -/
def PortOp.CursorOk (c : Ctld) : PortOp → Prop
  | .alloc (.step _) => ¬c.port.seedCursor.overflows
  | _ => True

instance (c : Ctld) : ∀ o, Decidable (PortOp.CursorOk c o)
  | .alloc (.step _) => inferInstanceAs (Decidable (¬_))
  | .alloc (.job _) | .free _ | .rebind _ _ _ => .isTrue trivial

/-- No row outside of the table is used. -/
def PortOp.Returns (env : Env) (c : Ctld) : PortOp → Prop
  | .alloc h => (portAlloc env c h).1 ≠ .fault
  | _ => True

section

variable {env : Env} {c : Ctld} {l : Ledger Holder (ℕ × ℕ)} {o : PortOp} {os : List PortOp}

theorem PortOp.CursorOk.returns (env : Env) (h : o.CursorOk c) : o.Returns env c := by
  cases o with
  | alloc k =>
    cases k with
    | step p =>
      have hcursor : ¬c.port.seedCursor.overflows := h
      simp only [Returns, portAlloc, resvPortAlloc, if_neg hcursor]
      split_ifs <;> simp
    | job p =>
      rcases resvPortAllocJobpack_cases env c p with ⟨-, heq⟩ | ⟨m, heq, -⟩ | ⟨m, heq, -⟩ <;>
        simp [Returns, portAlloc, heq]
  | free k => trivial
  | rebind k nodes cnt => trivial

/-- Every operation is one of the ledger. -/
theorem portExec_refines (env : Env) (hr : Refines c l) (ho : o.Ok c) :
    ∃ l', l.Step l' ∧ Refines (portExec env c o) l' := by
  cases o with
  | alloc h => exact hr.alloc ho.1 ho.2
  | free h => exact hr.free
  | rebind h nodes cnt => exact ⟨l, .stay, hr.rebind ho nodes cnt⟩

theorem sameRange_portExec (env : Env) (c : Ctld) (o : PortOp) :
    SameRange c.port (portExec env c o).port := by
  cases o with
  | alloc h => exact sameRange_portAlloc
  | free h => exact sameRange_portFree
  | rebind h nodes cnt =>
    rw [portExec, (portRebind_spec ..).2]
    exact .refl _

/-- The ports of all holders are in the range. -/
def PortsInRange (c : Ctld) : Prop := ∀ h a, (c.resv h).array = some a →
  ∀ p ∈ a, c.port.portResvMin ≤ p ∧ p ≤ c.port.portResvMax

/-- New ports are in the range. -/
theorem portsInRange_portExec (hr : Refines c l) (hin : PortsInRange c) (ho : o.Ok c) :
    PortsInRange (portExec env c o) := by
  obtain ⟨-, hmin, hmax⟩ := sameRange_portExec env c o
  intro k a ha
  rw [hmin, hmax]
  cases o with
  | alloc h =>
    rcases portAlloc_cases env ho.2 with ⟨-, hresv, -⟩ | ⟨rows, -, -, -, hfree, hresv, -⟩
    · exact hin k a (by rwa [portExec, hresv] at ha)
    · rw [portExec, hresv] at ha
      by_cases hk : k = h
      · subst hk
        rw [update_self] at ha
        obtain rfl : rows.map (· + c.port.portResvMin) = a := Option.some_injective _ ha
        intro p hp
        obtain ⟨i, hi, rfl⟩ := List.mem_map.1 hp
        have := hr.range.le (hfree i hi).1
        omega
      · exact hin k a (by rwa [update_of_ne hk] at ha)
  | free h =>
    rcases portFree_cases with ⟨-, heq⟩ | ⟨ports, -, hresv, -⟩
    · exact hin k a (by rwa [portExec, heq] at ha)
    · rw [portExec, hresv] at ha
      by_cases hk : k = h
      · subst hk
        simp at ha
      · exact hin k a (by rwa [update_of_ne hk] at ha)
  | rebind h nodes cnt =>
    rw [portExec, (portRebind_spec ..).1] at ha
    by_cases hk : k = h
    · subst hk
      exact hin k a (by rwa [update_self] at ha)
    · exact hin k a (by rwa [update_of_ne hk] at ha)

/-- From a clear table without holders, the table shows the empty ledger. -/
theorem refines_empty (hrange : c.port.RangeOk)
    (hclear : ∀ i < c.port.portResvCnt, c.port.portResvTable i = ∅)
    (hnone : ∀ h, (c.resv h).array = none) : Refines c .empty where
  range := hrange
  own h := (Resv.owns_of_none (hnone h)).symm
  table i hi n := by
    rw [hclear i hi, mem_owned]
    exact ⟨fun hn => absurd hn (Finset.notMem_empty n), fun ⟨_, hx⟩ => hx.elim⟩
  array h a ha := by simp [hnone h] at ha

/-- The ledger goes on behind the table, over any sequence of calls, with the
    ports of all holders in the range, which stays the same. -/
theorem refines_run (hr : Refines c l) (hos : Run.Admissible (portExec env) PortOp.Ok c os) :
    (∃ l', Refines (Run.run (portExec env) c os) l') ∧
      SameRange c.port (Run.run (portExec env) c os).port ∧
      (PortsInRange c → PortsInRange (Run.run (portExec env) c os)) := by
  refine Run.invariant_run (I := fun c' => (∃ l', Refines c' l') ∧ SameRange c.port c'.port ∧
    (PortsInRange c → PortsInRange c')) ?_ ⟨⟨l, hr⟩, .refl _, id⟩ hos
  rintro c' o ⟨⟨l', hr'⟩, hrange, hin⟩ ho
  obtain ⟨l'', -, hr''⟩ := portExec_refines env hr' ho
  exact ⟨⟨l'', hr''⟩, hrange.trans (sameRange_portExec ..),
    fun h => portsInRange_portExec hr' (hin h) ho⟩

/-- **The table is exact.** Over any sequence of calls from a clear table, in
    which every holder wants at least one port, reserves only while it has none
    and keeps its nodes until it releases: a bit is set exactly when one holder,
    and only one, has the port and the node; each holder has as many ports as it
    wants, all different and in the range; no two holders share a port on a
    common node; when all have released, the table is clear. A holder that reserves
    with success has ports, and one that releases has none. The cursor of the steps
    being in order, nothing outside of the table is used. -/
theorem portResvTable_exact (env : Env) (c : Ctld) (os : List PortOp)
    (hrange : c.port.portResvMin + c.port.portResvCnt = c.port.portResvMax + 1)
    (hclear : ∀ i < c.port.portResvCnt, c.port.portResvTable i = ∅)
    (hnone : ∀ h, (c.resv h).array = none)
    (hos : Run.Admissible (portExec env) (fun c o => o.Ok c ∧ o.CursorOk c) c os) :
    let c' := Run.run (portExec env) c os
    (∀ p n, c.port.portResvMin ≤ p → p ≤ c.port.portResvMax →
      (n ∈ c'.port.portResvTable (p - c.port.portResvMin) ↔
        ∃! h, ∃ a, (c'.resv h).array = some a ∧ p ∈ a ∧ n ∈ (c'.resv h).nodes)) ∧
    (∀ h a, (c'.resv h).array = some a → a.length = (c'.resv h).cnt ∧ a.Nodup ∧
      ∀ p ∈ a, c.port.portResvMin ≤ p ∧ p ≤ c.port.portResvMax) ∧
    (∀ h h' a a' p n, (c'.resv h).array = some a → (c'.resv h').array = some a' →
      p ∈ a → p ∈ a' → n ∈ (c'.resv h).nodes → n ∈ (c'.resv h').nodes → h = h') ∧
    ((∀ h, (c'.resv h).array = none) →
      ∀ i < c.port.portResvCnt, c'.port.portResvTable i = ∅) ∧
    (∀ h, 0 < (c'.resv h).cnt → (portAlloc env c' h).1 = .success →
      ((portAlloc env c' h).2.resv h).array ≠ none) ∧
    (∀ h, (portFree c' h).resv = update c'.resv h { c'.resv h with array := none }) ∧
    Run.Admissible (portExec env) (fun c o => o.Returns env c) c os := by
  intro c'
  have hok : Run.Admissible (portExec env) PortOp.Ok c os :=
    Run.admissible_of_invariant (I := fun _ => True) (fun _ _ _ ho => ⟨trivial, ho.1⟩) trivial hos
  have hin : PortsInRange c := fun h a ha => by simp [hnone h] at ha
  obtain ⟨⟨l, hr⟩, ⟨hcnt, hmin, hmax⟩, hin'⟩ :=
    refines_run (refines_empty (.inr hrange) hclear hnone) hok
  have hmem : ∀ h x, x ∈ l.own h ↔
      ∃ a, (c'.resv h).array = some a ∧ x.1 ∈ a ∧ x.2 ∈ (c'.resv h).nodes := fun h x => by
    rw [hr.own]; rfl
  refine ⟨fun p n hp hp' => ?_, fun h a ha => ?_, fun h h' a a' p n ha ha' hp hp' hn hn' => ?_,
    fun hfree i hi => ?_, fun h hcnt hrc => ?_, fun h => ?_, ?_⟩
  · have := hr.table (p - c.port.portResvMin) (by rw [hcnt]; omega) n
    rw [hmin, Nat.add_sub_cancel' hp, mem_owned_iff_existsUnique] at this
    exact this.trans (existsUnique_congr fun h => hmem h (p, n))
  · exact ⟨(hr.array h a ha).2, (hr.array h a ha).1, by rw [← hmin, ← hmax]; exact hin' hin h a ha⟩
  · exact eq_of_mem_own ((hmem h (p, n)).2 ⟨a, ha, hp, hn⟩) ((hmem h' (p, n)).2 ⟨a', ha', hp', hn'⟩)
  · ext n
    rw [hr.table i (by rwa [hcnt]) n, mem_owned]
    refine iff_of_false (fun ⟨h, hx⟩ => ?_) (Finset.notMem_empty n)
    rw [hr.own, Resv.owns_of_none (hfree h)] at hx
    exact hx
  · rcases portAlloc_cases env hcnt with ⟨hne, -⟩ | ⟨rows, -, -, -, -, hresv, -⟩
    · exact absurd hrc hne
    · simp [hresv]
  · rcases portFree_cases with ⟨hempty, heq⟩ | ⟨ports, -, hresv, -⟩
    · rw [heq, ← hempty, update_eq_self]
    · exact hresv
  · exact Run.admissible_of_invariant (I := fun _ => True)
      (fun _ _ _ ho => ⟨trivial, ho.2.returns env⟩) trivial hos

end

/-- Two ports, `10` and `11`, that steps want on node `0`, and jobs on the nodes
    `0` and `1`. -/
def twoPorts : Ctld where
  port := { portResvCnt := 2, portResvMin := 10, portResvMax := 11 }
  step _ := { stepNodeBitmap := {0}, resvPortCnt := 1 }
  job _ := { nodeBitmap := some {0, 1}, resvPortCnt := 1 }

theorem portResvTable_exact_twoPorts :
    let c' := Run.run (portExec {}) twoPorts [.alloc (.step 0), .alloc (.job 0), .free (.step 0)]
    0 ∈ c'.port.portResvTable 0 ∧
      ∃! h, ∃ a, (c'.resv h).array = some a ∧ 10 ∈ a ∧ 0 ∈ (c'.resv h).nodes :=
  have hset : 0 ∈ (Run.run (portExec {}) twoPorts
      [.alloc (.step 0), .alloc (.job 0), .free (.step 0)]).port.portResvTable 0 := by decide
  ⟨hset, ((portResvTable_exact {} twoPorts
    [.alloc (.step 0), .alloc (.job 0), .free (.step 0)] rfl (fun _ _ => rfl)
    (fun h => by cases h <;> rfl) (by decide)).1 10 0 (by decide) (by decide)).1 hset⟩

/-! ## The cursor of the steps -/

/-- A job that finds too few ports, time and again: all that changes is its cursor, and the
    counter, which counts the ports every time. -/
theorem run_busy (env : Env) {p : Ptr} {c : Ctld} {v : ℤ} (hnone : (c.job p).resvPortArray = none)
    (hle : (c.job p).resvPortCnt ≤ c.port.portResvCnt)
    (hbusy : (c.port.freeRows (c.job p).nodeSet).length < (c.job p).resvPortCnt)
    (hv : c.port.portResvCntJobpack = toInt v) (n : ℕ) :
    let os := List.replicate n (PortOp.alloc (.job p))
    Run.Admissible (portExec env) PortOp.Ok c os ∧
      ∃ last, Run.run (portExec env) c os = c.setPort { c.port with
        portResvCntJobpack := toInt (v + n * (c.job p).resvPortCnt)
        lastPortAllocJobpack := last } := by
  induction n generalizing c v with
  | zero =>
    refine ⟨trivial, c.port.lastPortAllocJobpack, ?_⟩
    rw [Nat.cast_zero, zero_mul, add_zero, ← hv]
    rfl
  | succ n ih =>
    obtain ⟨last, hexec⟩ : ∃ last, portExec env c (.alloc (.job p)) = c.setPort { c.port with
        portResvCntJobpack := toInt (v + (c.job p).resvPortCnt)
        lastPortAllocJobpack := last } := by
      have hshort := (c.port.length_identify_lt _ _ c.port.lastPortAllocJobpack).2 hbusy
      have hsum : toInt (c.port.portResvCntJobpack + (c.job p).resvPortCnt) =
          toInt (v + (c.job p).resvPortCnt) := by
        rw [hv, add_comm, toInt_add_toInt, add_comm]
      rw [← hsum]
      exact ⟨_, congrArg Prod.snd ((if_neg (not_lt.2 hle)).trans (if_pos hshort))⟩
    obtain ⟨hok, last', hrun⟩ := ih (c := portExec env c (.alloc (.job p)))
      (v := v + (c.job p).resvPortCnt) (by rw [hexec]; exact hnone) (by rw [hexec]; exact hle)
      (by rw [hexec]; exact hbusy) (by rw [hexec]; rfl)
    refine ⟨⟨⟨hnone, Nat.zero_lt_of_lt hbusy⟩, hok⟩, last', ?_⟩
    have hmul : v + ((n + 1 : ℕ) : ℤ) * (c.job p).resvPortCnt =
        v + (c.job p).resvPortCnt + n * (c.job p).resvPortCnt := by
      rw [Nat.cast_succ, Int.add_mul, one_mul]
      omega
    rw [List.replicate_succ, Run.run_cons, hrun, hexec, hmul]
    rfl

/-- A step reserves when the counter is `INT_MAX`. -/
theorem portAlloc_fault (env : Env) {c : Ctld} (p : Ptr) (hrows : 0 < c.port.portResvCnt)
    (hport : c.port.hport = 0) (hcnt : c.port.portResvCntJobpack = 2 ^ 31 - 1)
    (hleft : toInt ((c.step p).resvPortCnt + (2 ^ 31 - 1)) ≤ c.port.portResvCnt) :
    (portAlloc env c (.step p)).1 = .fault := by
  have hcursor : c.port.seedCursor.overflows := by
    simp [PortMgr.overflows, PortMgr.seedCursor, hrows, hport, hcnt]
  rw [← hcnt] at hleft
  exact congrArg Prod.fst ((if_neg (not_lt.2 hleft)).trans (if_pos hcursor))

/-- One port, which the job 1 has on node `0`, where the job 2 asks for it in vain. When it has done
    so `2 ^ 31 - 2` times, the counter is `INT_MAX`, and a step makes use of what is not in the
    table. -/
theorem step_faults :
    let c₀ : Ctld := { twoPorts with
      port := { portResvCnt := 1, portResvMin := 10, portResvMax := 10 } }
    let c₁ := portExec {} c₀ (.alloc (.job 1))
    let os := List.replicate (2 ^ 31 - 2) (PortOp.alloc (.job 2))
    let c₂ := Run.run (portExec {}) c₁ os
    Run.Admissible (portExec {}) PortOp.Ok c₀ (.alloc (.job 1) :: os) ∧
      PortOp.Ok c₂ (.alloc (.step 0)) ∧ (portAlloc {} c₂ (.step 0)).1 = .fault := by
  intro c₀ c₁ os c₂
  obtain ⟨hok, last, hrun⟩ := run_busy {} (p := 2) (c := c₁) (v := 1) (by decide) (by decide)
    (by decide) (by decide) (2 ^ 31 - 2)
  have hcount : toInt (1 + ((2 ^ 31 - 2 : ℕ) : ℤ) * (c₁.job 2).resvPortCnt) = 2 ^ 31 - 1 := by
    decide +kernel
  rw [hcount] at hrun
  have hleft : toInt ((c₁.step 0).resvPortCnt + (2 ^ 31 - 1)) ≤ c₁.port.portResvCnt := by
    decide +kernel
  refine ⟨⟨by decide, hok⟩, ?_, ?_⟩
  · rw [show c₂ = _ from hrun]
    exact ⟨rfl, Nat.one_pos⟩
  · rw [show c₂ = _ from hrun]
    exact portAlloc_fault {} 0 Nat.one_pos rfl rfl hleft

end Slurm
