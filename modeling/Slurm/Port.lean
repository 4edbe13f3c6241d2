import Slurm.Ctld
import Slurm.Lib.CString
import Slurm.Lib.RoundRobin

/-!
# Reserved ports

The manager of the ports reserved for MPI (`port_mgr.c`). A table has a row for
every port of a range, with the nodes on which this port is taken. Job steps
and job-pack jobs take a number of ports, each on all of their nodes, and give
them back when they end:

* `resvPortAlloc`, `resvPortFree` for a step;
* `resvPortAllocJobpack`, `resvPortJobpackFree` for a job of a job pack, with a
  counter of the ports of job packs, which the allocation of a step looks at.

The two kinds share the search for free rows and the updates of the table
(`identify`, `reserve`, `release`), but each has its own cursor and its own
bookkeeping around them. The cursor of the steps is set to the largest value that
was seen of the counter; from `INT_MAX` it is moved out of the table (`overflows`).
-/

namespace Slurm

open Function Finset

namespace PortMgr

variable (m : PortMgr)

/-- The port of row `i` is free on all of `nodes` (`!bit_overlap`). -/
def isFree (nodes : Bitmap) (i : ℕ) : Bool := (nodes ∩ m.portResvTable i).card = 0

/-- The cursor of the steps is moved past the largest number of ports that job
    packs have had. -/
def seedCursor : PortMgr :=
  let hport := max m.hport m.portResvCntJobpack.toNat
  { m with hport := hport, lastPortAlloc := if hport > 0 then hport else m.lastPortAlloc }

/-- `++last_port_alloc` is `INT_MIN`, and the table is read there. -/
def overflows : Prop := 0 < m.portResvCnt ∧ m.lastPortAlloc = 2 ^ 31 - 1
  deriving Decidable

/-- The loop *identify available ports*: one round over the rows, from the
    cursor `last`, until `want` free ones are found; with the cursor after it. -/
def identify (nodes : Bitmap) (want last : ℕ) : List ℕ × ℕ :=
  RoundRobin.scan (m.isFree nodes) m.portResvCnt want m.portResvCnt last []

/-- The loop *reserve selected ports*: `bit_or` the nodes into the rows. -/
def reserve (nodes : Bitmap) (rows : List ℕ) : PortMgr :=
  { m with
    portResvTable := rows.foldl (fun t i => update t i (t i ∪ nodes)) m.portResvTable }

/-- The loop that releases ports: `bit_and` the complement of the nodes into the
    row of every port of the range. -/
def release (nodes : Bitmap) (ports : List ℕ) : PortMgr :=
  { m with
    portResvTable := ports.foldl (fun t p =>
      if p < m.portResvMin ∨ p > m.portResvMax then t
      else update t (p - m.portResvMin) (t (p - m.portResvMin) \ nodes))
      m.portResvTable }

end PortMgr

/-- Reserve ports for a job step (`resv_port_alloc`). -/
def resvPortAlloc (env : Env) (c : Ctld) (p : Ptr) : Rc × Ctld :=
  let s := c.step p
  let m := c.port.seedCursor
  if CString.toInt (s.resvPortCnt + m.portResvCntJobpack) > m.portResvCnt then
    (.portsInvalid, c.setPort m)
  else if m.overflows then (.fault, c.setPort m)
  else
    let found := m.identify s.stepNodeBitmap s.resvPortCnt m.lastPortAlloc
    let m := { m with lastPortAlloc := found.2 }
    if found.1.length < s.resvPortCnt then (.portsBusy, c.setPort m)
    else
      let ports := found.1.map (· + m.portResvMin)
      (.success, (c.setPort (m.reserve s.stepNodeBitmap found.1)).setStep p
        { s with resvPorts := some (env.rangedPorts ports), resvPortArray := some ports })

/-- Release the ports of a job step (`resv_port_free`). -/
def resvPortFree (c : Ctld) (p : Ptr) : Ctld :=
  let s := c.step p
  match s.resvPortArray with
  | none => c
  | some ports =>
    (c.setPort (c.port.release s.stepNodeBitmap (ports.take s.resvPortCnt))).setStep p
      { s with resvPortArray := none }

/-- The nodes of a job, none if it has no bitmap. -/
def JobRecord.nodeSet (j : JobRecord) : Bitmap := j.nodeBitmap.getD ∅

/-- Reserve ports for a job of a job pack (`resv_port_alloc_jobpack`). -/
def resvPortAllocJobpack (env : Env) (c : Ctld) (p : Ptr) : Rc × Ctld :=
  let j := c.job p
  if j.resvPortCnt > c.port.portResvCnt then (.portsInvalid, c)
  else
    -- The counter is raised before it is known whether there are free ports.
    let m := { c.port with
      portResvCntJobpack := CString.toInt (c.port.portResvCntJobpack + j.resvPortCnt) }
    let found := m.identify j.nodeSet j.resvPortCnt m.lastPortAllocJobpack
    let m := { m with lastPortAllocJobpack := found.2 }
    if found.1.length < j.resvPortCnt then (.portsBusy, c.setPort m)
    else
      let ports := found.1.map (· + m.portResvMin)
      (.success, (c.setPort (m.reserve j.nodeSet found.1)).setJob p
        { j with resvPorts := some (env.rangedPorts ports), resvPortArray := some ports })

/-- Release the ports of a job of a job pack (`resv_port_jobpack_free`). -/
def resvPortJobpackFree (c : Ctld) (p : Ptr) : Ctld :=
  let j := c.job p
  match j.resvPortArray with
  | none => c
  | some ports =>
    let m := c.port.release j.nodeSet (ports.take j.resvPortCnt)
    (c.setPort { m with portResvCntJobpack := 0, lastPortAllocJobpack := 0 }).setJob p
      { j with resvPortArray := none }

/-! ## The table -/

namespace PortMgr

variable {m : PortMgr} {nodes : Bitmap} {n i want : ℕ}

theorem isFree_iff : m.isFree nodes i = true ↔ Disjoint nodes (m.portResvTable i) := by
  rw [isFree, decide_eq_true_iff, card_eq_zero, disjoint_iff_inter_eq_empty]

/-- Reserving adds the nodes to the given rows. -/
theorem mem_reserve {rows : List ℕ} :
    n ∈ (m.reserve nodes rows).portResvTable i ↔
      n ∈ m.portResvTable i ∨ (i ∈ rows ∧ n ∈ nodes) := by
  simp only [reserve]
  generalize m.portResvTable = t
  induction rows generalizing t with
  | nil => simp
  | cons r rows ih =>
    rw [List.foldl_cons, ih, List.mem_cons]
    by_cases hi : i = r
    · subst hi
      simp only [update_self, mem_union]
      tauto
    · rw [update_of_ne hi]
      tauto

/-- Releasing takes the nodes from the rows of the given ports. -/
theorem mem_release {ports : List ℕ} :
    n ∈ (m.release nodes ports).portResvTable i ↔ n ∈ m.portResvTable i ∧
        ¬(n ∈ nodes ∧ m.portResvMin + i ∈ ports ∧ m.portResvMin + i ≤ m.portResvMax) := by
  simp only [release]
  generalize m.portResvTable = t
  induction ports generalizing t with
  | nil => simp
  | cons p ports ih =>
    rw [List.foldl_cons, ih, List.mem_cons]
    split
    case isTrue hout =>
      -- `p` is out of the range: it is the port of no row.
      have hp : ¬(m.portResvMin + i = p ∧ m.portResvMin + i ≤ m.portResvMax) := by omega
      tauto
    case isFalse hin =>
      by_cases hi : i = p - m.portResvMin
      · have hp : m.portResvMin + i = p ∧ m.portResvMin + i ≤ m.portResvMax := by omega
        subst hi
        rw [update_self, mem_sdiff]
        tauto
      · have hp : m.portResvMin + i ≠ p := by omega
        rw [update_of_ne hi]
        tauto

/-- What the search finds: distinct rows of the table, free on all the nodes. -/
theorem identify_spec (m : PortMgr) (nodes : Bitmap) (last : ℕ) (hw : 0 < want) :
    (m.identify nodes want last).1.Nodup ∧ ∀ i ∈ (m.identify nodes want last).1,
        i < m.portResvCnt ∧ Disjoint nodes (m.portResvTable i) := by
  obtain ⟨hnodup, hfree⟩ := RoundRobin.scan_spec hw
  exact ⟨hnodup, fun i hi => (hfree i hi).imp id isFree_iff.1⟩

/-- The rows that are free on all the nodes. -/
def freeRows (m : PortMgr) (nodes : Bitmap) : List ℕ :=
  RoundRobin.freeSlots (m.isFree nodes) m.portResvCnt

/-- The search finds as many rows as it wants, or all that are free. -/
theorem length_identify (m : PortMgr) (nodes : Bitmap) (last : ℕ) (hw : 0 < want) :
    (m.identify nodes want last).1.length = min want (m.freeRows nodes).length :=
  RoundRobin.length_scan hw

/-- Wherever the cursor is, the search finds too few rows only if too few are free. -/
theorem length_identify_lt (m : PortMgr) (nodes : Bitmap) (want last : ℕ) :
    (m.identify nodes want last).1.length < want ↔ (m.freeRows nodes).length < want := by
  rcases Nat.eq_zero_or_pos want with rfl | hw
  · simp
  · rw [m.length_identify nodes last hw]
    omega

end PortMgr

/-- The range of ports is the same. -/
structure SameRange (m m' : PortMgr) : Prop where
  cnt : m'.portResvCnt = m.portResvCnt
  min : m'.portResvMin = m.portResvMin
  max : m'.portResvMax = m.portResvMax

theorem SameRange.refl (m : PortMgr) : SameRange m m := ⟨rfl, rfl, rfl⟩

theorem SameRange.trans {m m' m'' : PortMgr} (h : SameRange m m') (h' : SameRange m' m'') :
    SameRange m m'' := ⟨h'.cnt.trans h.cnt, h'.min.trans h.min, h'.max.trans h.max⟩

/-- What a reservation for a job does. The counter is raised unless the job wants
    more ports than there are; the search then finds too few of them, or the job
    gets what it found. -/
theorem resvPortAllocJobpack_cases (env : Env) (c : Ctld) (p : Ptr) :
    let j := c.job p
    let rows := (c.port.identify j.nodeSet j.resvPortCnt c.port.lastPortAllocJobpack).1
    (c.port.portResvCnt < j.resvPortCnt ∧ resvPortAllocJobpack env c p = (.portsInvalid, c)) ∨
    (∃ m : PortMgr, resvPortAllocJobpack env c p = (.portsBusy, c.setPort m) ∧
      m.portResvCntJobpack = CString.toInt (c.port.portResvCntJobpack + j.resvPortCnt) ∧
      m.portResvTable = c.port.portResvTable ∧ SameRange c.port m ∧
      rows.length < j.resvPortCnt ∧ j.resvPortCnt ≤ c.port.portResvCnt) ∨
    (∃ m : PortMgr, resvPortAllocJobpack env c p = (.success, (c.setPort m).setJob p
        { j with
          resvPorts := some (env.rangedPorts (rows.map (· + c.port.portResvMin)))
          resvPortArray := some (rows.map (· + c.port.portResvMin)) }) ∧
      m.portResvCntJobpack = CString.toInt (c.port.portResvCntJobpack + j.resvPortCnt) ∧
      m.portResvTable = (c.port.reserve j.nodeSet rows).portResvTable ∧ SameRange c.port m ∧
      j.resvPortCnt ≤ rows.length) := by
  intro j rows
  simp only [resvPortAllocJobpack]
  split_ifs with hinvalid hbusy
  · exact .inl ⟨hinvalid, rfl⟩
  · exact .inr (.inl ⟨_, rfl, rfl, rfl, ⟨rfl, rfl, rfl⟩, hbusy, not_lt.1 hinvalid⟩)
  · exact .inr (.inr ⟨_, rfl, rfl, rfl, ⟨rfl, rfl, rfl⟩, not_lt.1 hbusy⟩)

/-- What the release of the ports of a job does: the counter is set to zero. -/
theorem resvPortJobpackFree_cases (c : Ctld) (p : Ptr) :
    let j := c.job p
    (j.resvPortArray = none ∧ resvPortJobpackFree c p = c) ∨
    ∃ ports, j.resvPortArray = some ports ∧
      ∃ m : PortMgr, resvPortJobpackFree c p =
          (c.setPort m).setJob p { j with resvPortArray := none } ∧
        m.portResvCntJobpack = 0 ∧
        m.portResvTable =
          (c.port.release j.nodeSet (ports.take j.resvPortCnt)).portResvTable ∧
        SameRange c.port m := by
  intro j
  simp only [resvPortJobpackFree]
  split
  case h_1 hnone => exact .inl ⟨hnone, rfl⟩
  case h_2 ports hsome => exact .inr ⟨ports, hsome, _, rfl, rfl, rfl, rfl, rfl, rfl⟩

end Slurm
