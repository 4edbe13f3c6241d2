import Slurm.Lib.Bitstr
import Slurm.Lib.CString
import Slurm.Record

/-!
# Generic resources of a node

A node has devices (GRES), of which a bit string says which are in use. A job is given some of
them by `_job_alloc`, and `_job_dealloc` takes them back (`gres.c`). Besides the bit string there
are counters: of all devices in use, of those of each topology record, and of those of each
type. A topology record says which devices are next to which cores, and of which type they are.

A node whose devices have no topology uses the array of the topology counters for single devices,
and a node without a bit string only has the counters. Counters are natural numbers: they
count devices, of which there are few. The one that is lowered without a test in the source
wraps around as it does there (`decr64`).
-/

namespace Slurm

open Function

/-- A topology record (the arrays `topo_*` of `gres_node_state_t`). -/
structure GresTopo where
  cpusBitmap : Option Bitstr := none
  gresBitmap : Bitstr
  model : Option CStr := none

/-- The state of a node (`gres_node_state_t`). The arrays of counters are functions. That of
    topology records is missing until it is needed. -/
structure GresNode where
  noConsume : Bool := false
  gresCntConfig : ℕ
  gresCntAvail : ℕ
  gresCntAlloc : ℕ := 0
  gresBitAlloc : Option Bitstr := none
  topo : List GresTopo := []
  topoGresCntAlloc : Option (ℕ → ℕ) := none
  typeModel : List (Option CStr) := []
  typeCntAvail : ℕ → ℕ := fun _ => 0
  typeCntAlloc : ℕ → ℕ := fun _ => 0

/-- The state of a job (`gres_job_state_t`): what it asks for on each node, and
    the devices it has on each of its nodes. -/
structure GresJob where
  typeModel : Option CStr := none
  gresCntAlloc : ℕ
  nodeCnt : ℕ := 0
  gresBitAlloc : ℕ → Option Bitstr := fun _ => none

/-- A type is asked for, and this is another one, or none. -/
def otherType (wanted model : Option CStr) : Bool := wanted.isSome && model ≠ wanted

/-- The type of a topology record, if there is such a record. -/
def GresNode.topoModel (n : GresNode) (i : ℕ) : Option CStr := (n.topo[i]?).bind (·.model)

/-! ## Devices next to cores -/

/-- The loop of `_cores_on_gres` over topology records. `used` are the cores that
    have a device already, if that matters. -/
def coresOnTopo (wanted : Option CStr) (cores : Bitstr) (inx : ℕ) (used : Option Bitstr) :
    List GresTopo → Bool × Option Bitstr
  | [] => (false, used)
  | t :: topo =>
    if t.gresBitmap.size < inx ∨ inx ∉ t.gresBitmap.bits ∨ otherType wanted t.model then
      coresOnTopo wanted cores inx used topo
    else
      match t.cpusBitmap with
      | none => (true, used)
      | some cpus =>
        if cpus.size ≠ cores.size then (false, used)
        else if cpus.overlap cores = 0 then coresOnTopo wanted cores inx used topo
        else
          match used with
          | none => (true, used)
          | some u =>
            -- the difference is a number with a sign, and not zero if there are more in use
            if cpus.overlap cores = cpus.overlap u then coresOnTopo wanted cores inx used topo
            else (true, some (u.or cpus))

/-- Whether a device may be used from the cores of a job (`_cores_on_gres`), and the cores
    that have a device then. -/
def coresOnGres (n : GresNode) (wanted : Option CStr) (cores : Option Bitstr) (inx : ℕ)
    (used : Option Bitstr) : Bool × Option Bitstr :=
  match cores with
  | none => (true, used)
  | some cores => if n.topo.isEmpty then (true, used) else coresOnTopo wanted cores inx used n.topo

/-! ## The choice of devices -/

/-- What changes while devices are chosen. -/
structure Picking where
  nodeBits : Bitstr
  jobBits : Bitstr
  cntAlloc : ℕ
  left : ℕ
  cores : Option Bitstr := none

/-- Look at one device: it is taken if it is free, passes the test and is still needed. -/
def pickStep (test : ℕ → Option Bitstr → Bool × Option Bitstr) (p : Picking) (i : ℕ) : Picking :=
  if p.left = 0 ∨ i ∈ p.nodeBits.bits then p
  else if (test i p.cores).1 then
    { nodeBits := p.nodeBits.set i
      jobBits := p.jobBits.set i
      cntAlloc := p.cntAlloc + 1
      left := p.left - 1
      cores := (test i p.cores).2 }
  else { p with cores := (test i p.cores).2 }

/-- Look at all devices. -/
def pickPass (avail : ℕ) (test : ℕ → Option Bitstr → Bool × Option Bitstr) (p : Picking) :
    Picking := (List.range avail).foldl (pickStep test) p

/-- Choose devices for a job, in three passes: those next to cores that have no device yet,
    those next to any core of the job, and any at all. -/
def pickDevices (n : GresNode) (job : GresJob) (cores : Option Bitstr) (nodeBits : Bitstr) :
    Picking :=
  let avail := n.gresCntAvail
  let p : Picking :=
    { nodeBits := if nodeBits.size < avail then nodeBits.realloc avail else nodeBits
      jobBits := Bitstr.alloc avail
      cntAlloc := n.gresCntAlloc
      left := job.gresCntAlloc
      cores := cores.map fun c => Bitstr.alloc c.size }
  let p := pickPass avail (coresOnGres n job.typeModel cores) p
  let p := pickPass avail (fun i used => ((coresOnGres n job.typeModel cores i none).1, used))
    { p with cores := none }
  pickPass avail (fun _ used => (true, used)) p

/-- Set the bits of a job that is resumed, and has its devices already. -/
def resumeDevices (nodeBits jobBits : Bitstr) (cntAlloc : ℕ) : Bitstr × ℕ :=
  (List.range (min nodeBits.size jobBits.size)).foldl
    (fun (b, k) i => if i ∈ jobBits.bits ∧ i ∉ b.bits then (b.set i, k + 1) else (b, k))
    (nodeBits, cntAlloc)

/-- Select the devices for a job on its node number `off`. -/
def selectDevices (n : GresNode) (job : GresJob) (off : ℕ) (cores : Option Bitstr) :
    GresNode × GresJob :=
  match job.gresBitAlloc off, n.gresBitAlloc with
  | some jobBits, none =>
    ({ n with
        gresBitAlloc := some jobBits
        gresCntAlloc := n.gresCntAlloc + jobBits.bits.card }, job)
  | some jobBits, some nodeBits =>
    let (b, k) := resumeDevices nodeBits jobBits n.gresCntAlloc
    ({ n with gresBitAlloc := some b, gresCntAlloc := k }, job)
  | none, some nodeBits =>
    let p := pickDevices n job cores nodeBits
    ({ n with gresBitAlloc := some p.nodeBits, gresCntAlloc := p.cntAlloc },
      { job with gresBitAlloc := update job.gresBitAlloc off (some p.jobBits) })
  | none, none => ({ n with gresCntAlloc := n.gresCntAlloc + job.gresCntAlloc }, job)

/-! ## The counters of topology records and types -/

/-- The counters, and whether one of them was to be lowered below zero. -/
structure GresCounts where
  topo : ℕ → ℕ
  type : ℕ → ℕ
  underflow : Bool := false

/-- What a job has of the devices of a topology record. -/
structure GresShare where
  inx : ℕ
  model : Option CStr
  cnt : ℕ

/-- What a job with these devices has of each topology record that is not skipped. Those
    of another size are left out. -/
def topoShares (skip : GresTopo → Bool) (jobBits : Bitstr) (topo : List (GresTopo × ℕ)) :
    List GresShare :=
  topo.filterMap fun (t, i) =>
    if skip t ∨ jobBits.size ≠ t.gresBitmap.size then none
    else some { inx := i, model := t.model, cnt := jobBits.overlap t.gresBitmap }

/-- The type number `j` is this one. -/
def namesType (models : List (Option CStr)) (model : Option CStr) (j : ℕ) : Bool :=
  model.isSome && models[j]? = some model

/-- Raise the counters for one topology record. -/
def raiseShare (models : List (Option CStr)) (c : GresCounts) (s : GresShare) : GresCounts :=
  { c with
    topo := update c.topo s.inx (c.topo s.inx + s.cnt)
    type := fun j => if namesType models s.model j then c.type j + s.cnt else c.type j }

/-- Lower the counters for one topology record, not below zero. -/
def lowerShare (models : List (Option CStr)) (c : GresCounts) (s : GresShare) : GresCounts where
  topo := update c.topo s.inx (c.topo s.inx - s.cnt)
  type := fun j => if namesType models s.model j then c.type j - s.cnt else c.type j
  underflow := c.underflow || c.topo s.inx < s.cnt ||
    (List.range models.length).any fun j => namesType models s.model j && c.type j < s.cnt

/-- Raise the counters for one device, if the job has it. -/
def raiseDevice (n : GresNode) (jobBits : Bitstr) (c : GresCounts) (i : ℕ) : GresCounts :=
  if i ∉ jobBits.bits then c
  else
    { c with
      topo := update c.topo i (c.topo i + 1)
      type := fun j => if namesType n.typeModel (n.topoModel i) j then c.type j + 1 else c.type j }

/-- Lower a number of 64 bits by one, without a test. -/
def decr64 (k : ℕ) : ℕ := (k + (2 ^ 64 - 1)) % 2 ^ 64

/-- Lower the counters for one device, if the job has it and it is counted. -/
def lowerDevice (n : GresNode) (jobBits : Bitstr) (c : GresCounts) (i : ℕ) : GresCounts :=
  if i ∉ jobBits.bits ∨ c.topo i = 0 then c
  else
    { c with
      topo := update c.topo i (c.topo i - 1)
      type := fun j =>
        if namesType n.typeModel (n.topoModel i) j then decr64 (c.type j) else c.type j }

/-- Make a record of a type if there is none (`_add_gres_type` with no devices). -/
def addGresType (n : GresNode) (type : CStr) : GresNode :=
  if type.map Char.toLower = "no_consume".toList then { n with noConsume := true }
  else if some type ∈ n.typeModel then n
  else
    { n with
      typeCntAlloc := update n.typeCntAlloc n.typeModel.length 0
      typeCntAvail := update n.typeCntAvail n.typeModel.length 0
      typeModel := n.typeModel ++ [some type] }

/-- Add devices to the first record of a type. -/
def raiseType (n : GresNode) (type : CStr) (cnt : ℕ) : GresNode :=
  match n.typeModel.findIdx? (· = some type) with
  | none => n
  | some j => { n with typeCntAlloc := update n.typeCntAlloc j (n.typeCntAlloc j + cnt) }

/-- Spread devices of a type over its records, not above what they have. -/
def spreadTypes (n : GresNode) (type : CStr) (cnt : ℕ) : GresNode :=
  { n with
    typeCntAlloc := ((List.range n.typeModel.length).foldl (fun (alloc, left) j =>
      if n.typeModel[j]? ≠ some (some type) then (alloc, left)
      else
        -- counters have 64 bits, but `k` is an `int`; the minimum is one of unsigned numbers
        let k := CString.toInt ((n.typeCntAvail j : ℤ) - alloc j)
        let k := CString.toInt (min left (k % 2 ^ 64).toNat)
        (update alloc j ((alloc j + k) % 2 ^ 64).toNat, ((left - k) % 2 ^ 64).toNat))
      (n.typeCntAlloc, cnt)).1 }

/-- Take devices of a type from its records, as far as they are in use. -/
def gatherTypes (n : GresNode) (type : CStr) (cnt : ℕ) : GresNode :=
  { n with
    typeCntAlloc := ((List.range n.typeModel.length).foldl (fun (alloc, left) j =>
      if n.typeModel[j]? ≠ some (some type) then (alloc, left)
      else
        let k := min left (alloc j)
        (update alloc j (alloc j - k), left - k)) (n.typeCntAlloc, cnt)).1 }

/-- Raise the counters for a job with these devices. -/
def raiseCounts (n : GresNode) (job : GresJob) (jobBits : Bitstr) : GresNode :=
  match n.topo, n.topoGresCntAlloc with
  | _ :: _, some topoCnt =>
    let c := (topoShares (fun t => otherType job.typeModel t.model) jobBits n.topo.zipIdx).foldl
      (raiseShare n.typeModel) { topo := topoCnt, type := n.typeCntAlloc }
    { n with topoGresCntAlloc := some c.topo, typeCntAlloc := c.type }
  | _, topoCnt =>
    let len := topoCnt.elim jobBits.size fun _ => min jobBits.size n.gresCntConfig
    let c := (List.range len).foldl (raiseDevice n jobBits)
      { topo := topoCnt.getD fun _ => 0, type := n.typeCntAlloc }
    let n := { n with topoGresCntAlloc := some c.topo, typeCntAlloc := c.type }
    match job.typeModel with
    | some (ch :: type) => raiseType (addGresType n (ch :: type)) (ch :: type) job.gresCntAlloc
    | _ => n

/-- Lower the counters for a job with these devices. -/
def lowerCounts (n : GresNode) (jobBits : Bitstr) (topoCnt : ℕ → ℕ) : GresNode × Bool :=
  let c :=
    if n.topo.isEmpty then
      (List.range (min n.gresCntConfig jobBits.size)).foldl (lowerDevice n jobBits)
        { topo := topoCnt, type := n.typeCntAlloc }
    else
      (topoShares (fun _ => false) jobBits n.topo.zipIdx).foldl (lowerShare n.typeModel)
        { topo := topoCnt, type := n.typeCntAlloc }
  ({ n with topoGresCntAlloc := some c.topo, typeCntAlloc := c.type }, c.underflow)

/-! ## Allocation and deallocation -/

/-- Give a job devices of a node, which is number `off` of its `nodeCnt` nodes (`_job_alloc`);
    `none` if there is an error. -/
def jobAlloc (n : GresNode) (job : GresJob) (nodeCnt off : ℕ) (cores : Option Bitstr) :
    Option (GresNode × GresJob) :=
  if n.noConsume then some (n, job)
  else if job.nodeCnt ≠ 0 ∧ job.nodeCnt < nodeCnt ∧ job.nodeCnt ≤ off then none
  else
    let job :=
      if job.nodeCnt = 0 then { job with nodeCnt := nodeCnt, gresBitAlloc := fun _ => none } else job
    let (n, job) := selectDevices n job off cores
    match job.gresBitAlloc off, job.typeModel with
    | some jobBits, _ => some (raiseCounts n job jobBits, job)
    | none, some type => some (spreadTypes n type job.gresCntAlloc, job)
    | none, none => some (n, job)

/-- Clear the bits of a job, and lower the counter of all devices. The second component tells
    whether it was too low. -/
def freeDevices (n : GresNode) (job : GresJob) (off : ℕ) : GresNode × Bool :=
  match n.gresBitAlloc, job.gresBitAlloc off with
  | some nodeBits, some jobBits =>
    let (b, k, underflow) := (List.range (min jobBits.size nodeBits.size)).foldl
      (fun (b, k, underflow) i =>
        if i ∉ jobBits.bits then (b, k, underflow)
        else (b.clear i, k - 1, underflow || k = 0)) (nodeBits, n.gresCntAlloc, false)
    ({ n with gresBitAlloc := some b, gresCntAlloc := k }, underflow)
  | _, _ =>
    ({ n with gresCntAlloc := n.gresCntAlloc - job.gresCntAlloc },
      n.gresCntAlloc < job.gresCntAlloc)

/-- Take the devices of a job back (`_job_dealloc`), and whether a counter was too low;
    `none` if there is an error. -/
def jobDealloc (n : GresNode) (job : GresJob) (off : ℕ) : Option (GresNode × Bool) :=
  if n.noConsume then some (n, false)
  else if job.nodeCnt ≤ off then none
  else
    let (n, underflow) := freeDevices n job off
    match job.gresBitAlloc off, n.topoGresCntAlloc, job.typeModel with
    | some jobBits, some topoCnt, _ =>
      let (n, underflow') := lowerCounts n jobBits topoCnt
      some (n, underflow || underflow')
    | _, _, some type => some (gatherTypes n type job.gresCntAlloc, underflow)
    | _, _, none => some (n, underflow)

end Slurm
