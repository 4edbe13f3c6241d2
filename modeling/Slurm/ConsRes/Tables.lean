import Slurm.Lib.Posting
import Slurm.ConsRes
import Slurm.Gres

/-!
# The tables of resources in use

`_add_job_to_res` and `_rm_job_from_res` note that a job has its resources, or does not have
them any more: generic resources, memory and the power of its cores node by node, then its cores
in a row of its partition, and in the end the states of its nodes. Parts of this
are left out for a job that is suspended or resumed (`ResAction`).

They are given the tables of partitions and of nodes (`CrState.parts`, `CrState.usage`),
which may be copies. The generic resources of a node are in the table of nodes, but
those of the node itself (`CrState.nodeGres`) are used when there are none there. There is only
one layout of power (`CrState.layout`).

The model is that of the time after the tables were set up (`select_state_initializing` is
false), and return codes, which only tell of errors, are left out.
-/

namespace Slurm.ConsRes

open Function

/-- What part of the resources of a job are added or removed: all of them, memory and generic
    resources only (for the start or the end of a job that is suspended), or cores only (to
    resume or suspend it). The numbers of the source are 0, 1 and 2. -/
inductive ResAction
  | all
  | memory
  | cores
  deriving DecidableEq

/-- The resources of a job (`job_resources_t`), with all that these functions use. For nodes
    of the same kind in a row there is one entry in `sockCoreRep`: the numbers of sockets of
    a node, of cores of a socket, and of these nodes. -/
structure CrResources extends JobResources where
  coreSize : ℕ := 0
  nhosts : ℕ := 0
  cpus : ℕ → ℕ := fun _ => 0
  memoryAllocated : ℕ → ℕ := fun _ => 0
  nodeReq : ℕ := 0
  sockCoreRep : List (ℕ × ℕ × ℕ) := []

/-- The generic resources of a node, and those of a job, by plugin. -/
abbrev GresNodeList := List (ℕ × GresNode)

@[inherit_doc GresNodeList]
abbrev GresJobList := List (ℕ × GresJob)

/-- A node in the table of nodes (`node_use_record`). -/
structure NodeUse where
  allocMemory : ℕ := 0
  gresList : Option GresNodeList := none
  nodeState : ℕ := 0

/-- The power of a core in the layout. -/
structure CorePower where
  currentCorePower : ℕ := 0
  idleCoreWatts : ℕ := 0
  maxCoreWatts : ℕ := 0
  cpufreqWatts : ℕ → ℕ := fun _ => 0

/-- The cores of a node in the layout, and the frequencies it has. -/
structure NodePower where
  coresCount : ℕ := 0
  lastCore : ℕ := 0
  numFreqChoices : ℕ := 0
  cpufreq : ℕ → ℕ := fun _ => 0

/-- The layout of power. -/
structure PowerLayout where
  node : ℕ → NodePower := fun _ => {}
  core : ℕ → CorePower := fun _ => {}

/-- A job, as far as it matters here. Its resources are missing if there is no bitmap of
    cores. -/
structure CrJob where
  resrcs : Option CrResources := none
  partPtr : Option ℕ := none
  gresList : Option GresJobList := none
  cpuFreqMax : ℕ := 0

/-- What is given: the cores of the nodes, how jobs are rearranged before they are put into
    rows, the cap on power and the kind of layout, and the plugins for generic resources. -/
structure CrConfig where
  cores : CoreMap
  sort : List ℕ → List ℕ
  sort_perm : ∀ l, (sort l).Perm l
  powercap : ℕ := 0
  powerLayout : ℕ := 0
  gresContext : List ℕ := []

/-- The tables, and what is shared by all copies of them. -/
structure CrState where
  parts : ℕ → Option PartResRecord := fun _ => none
  usage : ℕ → NodeUse := fun _ => {}
  nodeGres : ℕ → Option GresNodeList := fun _ => none
  layout : PowerLayout := {}

/-- A number of so many bits. -/
def wrap (bits v : ℕ) : ℕ := v % 2 ^ bits

/-! ## The cores of a node -/

namespace CrResources

variable (r : CrResources)

/-- Where the cores of a node of the job start in its bitmap, and how many there are. -/
def findCores : List (ℕ × ℕ × ℕ) → ℕ → ℕ → ℕ × ℕ
  | [], _, bitInx => (bitInx, 0)
  | (sockets, cores, rep) :: l, nodeId, bitInx =>
    if rep ≤ nodeId then findCores l (nodeId - rep) (bitInx + sockets * cores * rep)
    else (bitInx + sockets * cores * nodeId, sockets * cores)

/-- The same, unless this is an error. -/
def nodeCores (nodeId : ℕ) : Option (ℕ × ℕ) :=
  let (bitInx, coreCnt) := findCores r.sockCoreRep nodeId 0
  if coreCnt < 1 ∨ r.coreSize < bitInx + coreCnt then none else some (bitInx, coreCnt)

/-- The bitmap of the cores of the job on a node (`copy_job_resources_node`). -/
def copyJobResourcesNode (nodeId : ℕ) : Option Bitstr :=
  (r.nodeCores nodeId).map fun (bitInx, coreCnt) =>
    { size := coreCnt
      bits := (Finset.range coreCnt).filter fun i => bitInx + i ∈ r.coreBitmap
      lt_size := fun _ hi => Finset.mem_range.1 (Finset.mem_filter.1 hi).1 }

/-- The nodes of the job that it did not lose, each with its number among the nodes of the job. -/
def usedNodes (m : CoreMap) : List (ℕ × ℕ) :=
  ((List.range m.nodeRecordCount).filter (· ∈ r.nodeBitmap)).zipIdx.filter fun e => r.cpus e.2 ≠ 0

end CrResources

/-! ## The power of cores -/

namespace PowerLayout

variable (l : PowerLayout)

/-- Set the power of a core. -/
def setPower (core watts : ℕ) : PowerLayout :=
  { l with core := update l.core core { l.core core with currentCorePower := watts } }

/-- The number of the first frequency of a node that is this one, or 0. -/
def freqIndex (node cpuFreqMax : ℕ) : ℕ :=
  if cpuFreqMax = 0 then 0
  else
    ((List.range (l.node node).numFreqChoices).find? fun i =>
      (l.node node).cpufreq (i + 1) = cpuFreqMax).elim 0 (· + 1)

end PowerLayout

/-- What the loop of `adapt_layouts` over the cores of a node changes: the layout, the cores
    without power, whether one core is in use by another job, and the power of the last core of
    others when it is idle. -/
structure Adapting where
  layout : PowerLayout
  desalloc : List ℕ := []
  activate : Bool := false
  idle : ℕ := 0

/-- One core in `adapt_layouts`, for a job that starts. -/
def raisePower (freq core : ℕ) (isJobs : Bool) (a : Adapting) : Adapting :=
  let c := a.layout.core core
  if isJobs then
    { a with
      layout := a.layout.setPower core (if freq = 0 then c.maxCoreWatts else c.cpufreqWatts freq) }
  else
    { a with
      layout := if c.currentCorePower = 0 then a.layout.setPower core c.idleCoreWatts else a.layout
      idle := c.idleCoreWatts }

/-- One core in `adapt_layouts`, for a job that ends. -/
def lowerPower (core : ℕ) (isJobs : Bool) (a : Adapting) : Adapting :=
  let c := a.layout.core core
  if isJobs then
    { a with layout := a.layout.setPower core 0, desalloc := a.desalloc ++ [core] }
  else if c.idleCoreWatts ≠ c.currentCorePower then
    { a with activate := true, idle := c.idleCoreWatts }
  else
    { a with
      layout := a.layout.setPower core 0
      desalloc := a.desalloc ++ [core]
      idle := c.idleCoreWatts }

/-- Change the power of the cores of a node, which is number `nodeId` of the job
    (`adapt_layouts`). -/
def adaptLayouts (r : CrResources) (cpuFreqMax nodeId node : ℕ) (newValue : Bool)
    (l : PowerLayout) : PowerLayout :=
  match r.nodeCores nodeId with
  | none => l
  | some (bitInx, coreCnt) =>
    let first := (l.node node).lastCore + 1 - (l.node node).coresCount
    let a := (List.range coreCnt).foldl (fun a i =>
      if newValue then
        raisePower (l.freqIndex node cpuFreqMax) (first + i) (bitInx + i ∈ r.coreBitmap) a
      else lowerPower (first + i) (bitInx + i ∈ r.coreBitmap) a) { layout := l }
    if a.activate then a.desalloc.foldl (·.setPower · a.idle) a.layout else a.layout

/-! ## Generic resources -/

/-- Change the generic resources of the first entry of a plugin. -/
def onGres (id : ℕ) (f : GresNode → GresNode) : GresNodeList → GresNodeList
  | [] => []
  | (k, n) :: l => if k = id then (k, f n) :: l else (k, n) :: onGres id f l

/-- The loop of `gres_plugin_job_alloc`. -/
def gresAllocEach (context : List ℕ) (nodeCnt off : ℕ) (cores : Option Bitstr) :
    GresJobList → GresNodeList → GresJobList × GresNodeList
  | [], nodes => ([], nodes)
  | (id, job) :: jobs, nodes =>
    let node := if id ∈ context then nodes.find? (·.1 = id) else none
    let (job, nodes) := match node.bind fun n => jobAlloc n.2 job nodeCnt off cores with
      | none => (job, nodes)
      | some (node, job) => (job, onGres id (fun _ => node) nodes)
    let (jobs, nodes) := gresAllocEach context nodeCnt off cores jobs nodes
    ((id, job) :: jobs, nodes)

/-- Give a job generic resources of a node (`gres_plugin_job_alloc`). -/
def gresPluginJobAlloc (context : List ℕ) (job : Option GresJobList) (node : Option GresNodeList)
    (nodeCnt off : ℕ) (cores : Option Bitstr) : Option GresJobList × Option GresNodeList :=
  match job, node with
  | some jobs, some nodes =>
    let (jobs, nodes) := gresAllocEach context nodeCnt off cores jobs nodes
    (some jobs, some nodes)
  | job, node => (job, node)

/-- Take the generic resources of a job on a node back (`gres_plugin_job_dealloc`). -/
def gresPluginJobDealloc (job : Option GresJobList) (node : Option GresNodeList) (off : ℕ) :
    Option GresNodeList :=
  match job, node with
  | some jobs, some nodes =>
    some (jobs.foldl (fun nodes (id, job) =>
      onGres id (fun n => ((jobDealloc n job off).map (·.1)).getD n) nodes) nodes)
  | _, node => node

/-! ## The tables -/

namespace CrState

variable (s : CrState)

/-- Change an entry of the table of nodes. -/
def onUse (i : ℕ) (f : NodeUse → NodeUse) : CrState :=
  { s with usage := update s.usage i (f (s.usage i)) }

/-- The generic resources that are used for a node: those of the table, or those of the node. -/
def gresOf (i : ℕ) : Option GresNodeList := (s.usage i).gresList.or (s.nodeGres i)

/-- Set the generic resources that are used for a node. -/
def setGres (i : ℕ) (gres : Option GresNodeList) : CrState :=
  if (s.usage i).gresList.isSome then s.onUse i ({ · with gresList := gres })
  else { s with nodeGres := update s.nodeGres i gres }

end CrState

variable (cfg : CrConfig)

/-- There is a cap on power, and the layout has the power of cores. -/
def CrConfig.Capped : Prop := cfg.powercap ≠ 0 ∧ cfg.powerLayout = 2
  deriving Decidable

/-- The resources of all jobs. -/
def resOf (jobs : ℕ → CrJob) (job : ℕ) : JobResources :=
  ((jobs job).resrcs.map (·.toJobResources)).getD {}

/-- One node in `_add_job_to_res`. The second component is the generic resources of the job. -/
def addNode (job : CrJob) (r : CrResources) (act : ResAction)
    (p : CrState × Option GresJobList) (e : ℕ × ℕ) : CrState × Option GresJobList :=
  let (i, n) := e
  let adapt (s : CrState) : CrState :=
    if cfg.Capped then { s with layout := adaptLayouts r job.cpuFreqMax n i true s.layout } else s
  if act = .cores then (adapt p.1, p.2)
  else
    let (jobGres, nodeGres) := gresPluginJobAlloc cfg.gresContext p.2 (p.1.gresOf i) r.nhosts n
      (r.copyJobResourcesNode n)
    let s := p.1.setGres i nodeGres
    -- a job without memory on the node is done with it here
    if r.memoryAllocated n = 0 then (s, jobGres)
    else
      let s := s.onUse i fun u =>
        { u with allocMemory := wrap 64 (u.allocMemory + r.memoryAllocated n) }
      (adapt s, jobGres)

/-- The rows of a partition, which are made when there are none yet. -/
def PartResRecord.rows (p : PartResRecord) : List PartRowData :=
  p.row.getD (List.replicate p.numRows {})

/-- Raise the states of the nodes of a job. -/
def raiseStates (r : CrResources) (usage : ℕ → NodeUse) : ℕ → NodeUse :=
  Posting.postAll (·.1) (fun _ u => { u with nodeState := wrap 16 (u.nodeState + r.nodeReq) })
    usage (r.usedNodes cfg.cores)

/-- Lower the states of the nodes of a job. One that is too low becomes `NODE_CR_AVAILABLE`,
    which is 0. -/
def lowerStates (r : CrResources) (usage : ℕ → NodeUse) : ℕ → NodeUse :=
  Posting.postAll (·.1) (fun _ u => { u with nodeState := u.nodeState - r.nodeReq })
    usage (r.usedNodes cfg.cores)

/-- The partition of a job, with its rows, if it is one of those in the table. -/
def findPart (parts : ℕ → Option PartResRecord) (job : CrJob) : Option (ℕ × PartResRecord) :=
  job.partPtr.bind fun part => (parts part).map (part, ·)

/-- The end of `_add_job_to_res`: put the job into a row of its partition, and raise the states
    of its nodes. These are raised even if no row has room for the job. -/
def addToPart (jobs : ℕ → CrJob) (job : ℕ) (r : CrResources) (s : CrState) : CrState :=
  match findPart s.parts (jobs job) with
  | none => s
  | some (part, p) =>
    let rows := (addToFirstRow cfg.cores (resOf jobs) job p.rows).getD p.rows
    { s with
      parts := update s.parts part (some { p with row := some rows })
      usage := raiseStates cfg r s.usage }

/-- A job has its resources now (`_add_job_to_res`). -/
def addJobToRes (jobs : ℕ → CrJob) (job : ℕ) (act : ResAction) (s : CrState) :
    CrState × (ℕ → CrJob) :=
  match (jobs job).resrcs with
  | none => (s, jobs)
  | some r =>
    let (s, gres) := (r.usedNodes cfg.cores).foldl (addNode cfg (jobs job) r act)
      (s, (jobs job).gresList)
    (if act = .memory then s else addToPart cfg jobs job r s,
      update jobs job { jobs job with gresList := gres })

/-- One node in `_rm_job_from_res`. Memory that is too low becomes 0. -/
def rmNode (job : CrJob) (r : CrResources) (act : ResAction) (s : CrState) (e : ℕ × ℕ) :
    CrState :=
  let (i, n) := e
  let s :=
    if act = .cores then s
    else
      (s.setGres i (gresPluginJobDealloc job.gresList (s.gresOf i) n)).onUse i fun u =>
        { u with allocMemory := u.allocMemory - r.memoryAllocated n }
  if cfg.Capped then { s with layout := adaptLayouts r job.cpuFreqMax n i false s.layout } else s

/-- The end of `_rm_job_from_res`: take the job out of its row, and lower the states of its
    nodes. These are lowered only if the job is in a row. -/
def rmFromPart (jobs : ℕ → CrJob) (job : ℕ) (r : CrResources) (s : CrState) : CrState :=
  match findPart s.parts (jobs job) with
  | none => s
  | some (part, p) =>
    match p.row.bind (takeFromRows job) with
    | none => s
    | some rows =>
      let rows := buildRowBitmaps cfg.cores (resOf jobs) cfg.sort (some job) rows
      { s with
        parts := update s.parts part (some { p with row := some rows })
        usage := lowerStates cfg r s.usage }

/-- A job does not have its resources any more (`_rm_job_from_res`). -/
def rmJobFromRes (jobs : ℕ → CrJob) (job : ℕ) (act : ResAction) (s : CrState) : CrState :=
  match (jobs job).resrcs with
  | none => s
  | some r =>
    let s := (r.usedNodes cfg.cores).foldl (rmNode cfg (jobs job) r act) s
    if act = .memory then s else rmFromPart cfg jobs job r s

end Slurm.ConsRes
