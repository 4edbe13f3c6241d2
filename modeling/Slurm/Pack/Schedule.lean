import Slurm.Port
import Slurm.Usage

/-!
# The scheduling of a job pack

How a job gets its nodes (`node_scheduler.c`). A job pack is scheduled through its
leader (`select_nodes`): its members are allocated one after the other, as if they
were to run at once (`_allocate_packmbrs`), then the leader. If one of these jobs
cannot be allocated, or the caller only wants to know whether the pack could run,
the members are backed out (`_deallocate_packmbrs`).

Which nodes a job gets, and whether it gets any, is decided by the partition, the
reservations, the plugins and what other jobs have. All this is outside of the
model: the outcome of each call of the allocator of one job (`select_nodes_pack`)
is given (`Pick`), and the model says what follows from it.
-/

namespace Slurm

open JobRecord

/-! ## One job -/

/-- A return code other than `SLURM_SUCCESS`. -/
abbrev Failure := { rc : Rc // rc ≠ .success }

/-- What has been chosen for a job: its nodes and their names, its time limit with the
    defaults of the partition, and its trackable resources. Nodes that are not up yet
    have to be powered up or configured first. -/
structure Grant where
  nodes : Bitmap := ∅
  nodeNames : Option CStr := none
  timeLimit : ℕ := 0
  tresAllocCnt : ℕ → UInt64 := fun _ => 0
  powerUp : Bool := false
  configuring : Bool := false

/-- The outcome of a call of the allocator: no nodes for the job, for some reason; or nodes
    that it cannot start on, because a plugin fails, and then it may be held; or nodes to
    start on. -/
inductive Pick
  | refuse (rc : Failure) (reason : StateReason)
  | hosed (rc : Failure) (g : Grant) (held : Bool)
  | grant (g : Grant)

namespace JobRecord

/-- The job goes on waiting. -/
def refused (reason : StateReason) (j : JobRecord) : JobRecord :=
  { j with stateReason := reason, stateDesc := none }

/-- The end of the job by its time limit (`job_end_time_reset`). -/
def endTimeReset (j : JobRecord) : JobRecord :=
  let limit : ℕ := if j.timeLimit = infinite then 365 * 24 * 60 * 60 else j.timeLimit * 60 % 2 ^ 32
  { j with endTime := j.startTime + limit, endTimeExp := j.startTime + limit }

/-- The job is placed on its nodes, in the place of those it may have had. -/
def placed (now : ℤ) (g : Grant) (j : JobRecord) : JobRecord :=
  { j with
    jobState := j.jobState.clear .powerUpNode
    nodeBitmap := some g.nodes
    nodes := none
    exitCode := 0
    startTime := now
    timeLastActive := now
    timeLimit := g.timeLimit }.endTimeReset

/-- The job cannot be started on its nodes, and loses them. -/
def unplaced (held : Bool) (j : JobRecord) : JobRecord :=
  { j with
    startTime := 0
    timeLastActive := 0
    endTime := 0
    nodeBitmap := none
    priority := if held then 0 else j.priority
    stateReason := if held then .waitHeld else j.stateReason }

/-- The job has nothing to wait for. -/
def assigned (g : Grant) (j : JobRecord) : JobRecord :=
  { j with stateReason := .waitNoReason, stateDesc := none, nodes := g.nodeNames }

/-- The job runs (`build_node_details`, `job_set_alloc_tres`). -/
def begun (g : Grant) (j : JobRecord) : JobRecord :=
  { j with
    nodeCnt := UInt32.ofNat g.nodes.card
    jobState := ⟨.running, ∅⟩
    tresAllocCnt := g.tresAllocCnt }

/-- The job waits for its nodes to be up. -/
def readied (g : Grant) (j : JobRecord) : JobRecord :=
  { j with
    jobState := ⟨.running,
      (if g.powerUp then {.powerUpNode} else ∅) ∪
        if g.configuring ∨ g.powerUp then {.configuring} else ∅⟩ }

/-- The job gets its ports together with its nodes: the prolog, which is run then, has to
    know them. -/
def portsWithNodes (env : Env) (j : JobRecord) : Prop :=
  env.prologAlloc ∧ j.packLeader ≠ 0 ∧ j.resvPortFlag ∧ j.resvPorts = none
  deriving Decidable

/-- As many ports are wanted as the job has nodes, in a field of 16 bits. -/
def wantPorts (j : JobRecord) : JobRecord := { j with resvPortCnt := j.nodeCnt.toUInt16.toNat }

end JobRecord

/-- The nodes of the job are allocated to it. -/
def Ctld.allocNodes (c : Ctld) (now : ℤ) (j : JobRecord) : Ctld :=
  { c with
    lastNodeUpdate := now
    node := fun i =>
      if i < c.nodeRecordCount ∧ i ∈ j.nodeSet then makeNodeAlloc j (c.node i) else c.node i }

/-- Allocate the nodes and the licenses of a job (`allocate_nodes`). -/
def allocateNodes (now : ℤ) (c : Ctld) (p : Ptr) : Ctld :=
  licenseJobGet (c.allocNodes now (c.job p)) p

/-- Reserve the ports of a job (`_resv_ports_jobpack`, `_set_resv_ports_jobpack`). -/
def resvPortsJobpack (env : Env) (c : Ctld) (p : Ptr) : Ctld :=
  (resvPortAllocJobpack env (c.modJob p wantPorts) p).2

/-- Charge the job for its nodes, and have it run. -/
def beginJob (env : Env) (now : ℤ) (c : Ctld) (p : Ptr) (g : Grant) : Ctld :=
  let c := allocateNodes now c p
  let c := c.modJob p (JobRecord.begun g)
  let c := acctPolicyJobBegin env c p
  c.modJob p (readied g)

/-- Start a job on the nodes chosen for it. -/
def startJob (env : Env) (now : ℤ) (c : Ctld) (p : Ptr) (g : Grant) : Ctld :=
  let c := c.modJob p fun j => (j.placed now g).assigned g
  let c := beginJob env now c p g
  if (c.job p).portsWithNodes env then resvPortsJobpack env c p else c

/-- Allocate one job (`select_nodes_pack`), or only test whether it could be. -/
def selectNodesPack (env : Env) (now : ℤ) (c : Ctld) (p : Ptr) (testOnly : Bool) : Pick → Rc × Ctld
  | .refuse rc reason => (rc, c.modJob p (JobRecord.refused reason))
  | .hosed rc g held =>
    if testOnly then (.success, c)
    else (rc, c.modJob p fun j => (j.placed now g).unplaced held)
  | .grant g => if testOnly then (.success, c) else (.success, startJob env now c p g)

/-! ## The members of a pack -/

namespace JobRecord

/-- Set the mark on a dependency that says that its job is allocated. -/
def setAlloc (k : ℕ) (alloc : Bool) (j : JobRecord) : JobRecord :=
  { j with
    details := j.details.map fun t =>
      { t with
        dependList := t.dependList.map fun deps =>
          deps.modify k fun (d : DependSpec) => { d with alloc := alloc } } }

/-- The job waits again for its pack. -/
def backedOut (j : JobRecord) : JobRecord :=
  { j with jobState := {}, stateReason := .waitDependency }

/-- The job has no pack any more. -/
def orphaned (j : JobRecord) : JobRecord := { j with packLeader := 0 }

/-- The list of the dependencies of the job is freed. -/
def freeDepends (j : JobRecord) : JobRecord :=
  { j with details := j.details.map fun (t : JobDetails) => { t with dependList := none } }

end JobRecord

/-- The nodes in `nodes` are left by the job, which has not run on them. -/
def Ctld.returnNodes (c : Ctld) (now : ℤ) (j : JobRecord) (nodes : Bitmap) : Ctld :=
  { c with
    lastNodeUpdate := now
    node := fun i => if i ∈ nodes then makeNodeComp j false true (c.node i) else c.node i }

/-- Back out a job of a pack (`_deallocate_jpck`). Its record keeps the bitmap of the nodes. -/
def deallocateJpck (now : ℤ) (c : Ctld) (p : Ptr) : Ctld :=
  let c := c.modJob p backedOut
  let nodes := (c.job p).nodeSet
  if nodes = ∅ then c
  else (c.returnNodes now (c.job p) nodes).modJob p fun j => { j with nodes := none }

/-- Back out the jobs of those dependencies of `p` that are marked as allocated; the first
    of the given ones is the one at place `k`. -/
def backOutEntries (now : ℤ) (p : Ptr) : ℕ → List DependSpec → Ctld → Ctld
  | _, [], c => c
  | k, d :: deps, c =>
    match d.jobPtr with
    | none => c
    | some q =>
      backOutEntries now p (k + 1) deps
        (if d.alloc then (deallocateJpck now c q).modJob p (setAlloc k false) else c)

/-- Back out the members of the pack of `p` (`_deallocate_packmbrs`). -/
def deallocatePackmbrs (now : ℤ) (c : Ctld) (p : Ptr) : Ctld :=
  match (c.job p).deps with
  | none => c
  | some deps => backOutEntries now p 0 deps c

/-- No node has a job, or is about to be left by one (`_is_cluster_idle`). -/
def Ctld.isClusterIdle (c : Ctld) : Prop :=
  ∀ i < c.nodeRecordCount, (c.node i).base ≠ .allocated ∧ (c.node i).base ≠ .mixed ∧
    (c.node i).completing = false

instance (c : Ctld) : Decidable c.isClusterIdle :=
  inferInstanceAs (Decidable (∀ i < _, _ ∧ _))

/-- The members of the pack of `p` have no leader any more (`_orphan_members`). -/
def orphanMembers (c : Ctld) (p : Ptr) : Ctld :=
  ((c.job p).deps.getD []).foldl (fun c d => d.jobPtr.elim c (c.modJob · orphaned)) c

/-- The pack of `p` can never run: it is dissolved. -/
def dissolvePack (c : Ctld) (p : Ptr) : Ctld :=
  (orphanMembers c p).modJob p freeDepends

/-- Allocate the members of the pack of `p` that the given dependencies name
    (`_allocate_packmbrs`); the first one is at place `k`, and `member k` is the outcome
    for it. -/
def allocatePackmbrs (env : Env) (now : ℤ) (member : ℕ → Pick) (p : Ptr) :
    ℕ → List DependSpec → Ctld → Rc × Ctld
  | _, [], c => (.success, c)
  | k, d :: deps, c =>
    match d.jobPtr with
    | none => (.packBadMember, c)
    | some q =>
      let (rc, c) := selectNodesPack env now c q false (member k)
      if rc = .success then
        allocatePackmbrs env now member p (k + 1) deps (c.modJob p (setAlloc k true))
      else
        let c := deallocatePackmbrs now c p
        if c.isClusterIdle then (.packNeverRun, dissolvePack c p) else (rc, c)

/-! ## The pack -/

/-- What the allocator does with each job of a pack. In the course of the allocation of the
    leader it may turn out that this cannot run beside its members (`_will_jpck_ldr_run`):
    `never` says whether this happens, and whether the pack is dissolved then. -/
structure Outcome where
  member : ℕ → Pick
  leader : Pick
  never : Option Bool := none

/-- The members are backed out if the leader cannot run beside them. -/
def willJpckLdrRun (now : ℤ) (c : Ctld) (p : Ptr) : Option Bool → Ctld
  | none => c
  | some orphan =>
    let c := deallocatePackmbrs now c p
    if orphan then dissolvePack c p else c

/-- Allocate the leader of a pack, whose members are allocated. -/
def selectLeader (env : Env) (now : ℤ) (c : Ctld) (p : Ptr) (testOnly : Bool) (o : Outcome) :
    Rc × Ctld :=
  let c := willJpckLdrRun now c p o.never
  let (rc, c) := selectNodesPack env now c p testOnly o.leader
  -- With this code, the members are taken to be backed out already.
  if rc = .packNeverRun then (rc, c)
  else if rc ≠ .success ∨ testOnly then (rc, deallocatePackmbrs now c p)
  else (rc, c)

/-- Allocate a job, with all of its pack if it is the leader of one (`select_nodes`). -/
def selectNodes (env : Env) (now : ℤ) (c : Ctld) (p : Ptr) (testOnly : Bool) (o : Outcome) :
    Rc × Ctld :=
  if (c.job p).packLeader = 0 then selectNodesPack env now c p testOnly o.leader
  else
    match (c.job p).deps with
    | none | some [] => (.packBadDependency, c)
    | some (d :: deps) =>
      match d.dependType with
      | .pack => selectNodesPack env now c p testOnly o.leader
      | .packleader =>
        let (rc, c) := allocatePackmbrs env now o.member p 0 (d :: deps) c
        if rc ≠ .success then (rc, deallocatePackmbrs now c p)
        else selectLeader env now c p testOnly o
      | _ => (.packBadDependency, c)

end Slurm
