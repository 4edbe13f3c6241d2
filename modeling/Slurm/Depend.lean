import Slurm.Ctld
import Slurm.Lib.CString

/-!
# Dependencies of a job

A job may wait for others: `update_job_dependency` in `job_scheduler.c` reads
the string that says so (`"afterok:12:13,singleton"`) and keeps it with the job,
as a list of dependencies and as a string in a form of its own. Job packs are
set up by dependencies too: the members depend on `"pack"`, and the leader, which
comes last, on `"packleader"` with the ids of the members. When the leader is
read, its members are told who it is (`_xref_packleader`).

The string is read clause by clause (`parseClause`) up to the first one that is
wrong. What the clauses edit in the record of the job, and what is told to the
members, stays when a later one is wrong.

Two loops of the source have a bound of fuel here, and it is never used up: each
clause of the string is at least one character, and the search for a circle finds
the same with more (`scanDepend_fuel`).
-/

namespace Slurm

open CString JobRecord List Nat

/-! ## Array expressions -/

/-- The tasks `first`, `tasks` of the array `jobId`, as dependencies on single tasks. -/
def taskTargets (jobId first : ℕ) (tasks : List ℕ) : CStr :=
  fmtU first ++ tasks.flatMap fun t => ':' :: fmtU jobId ++ '_' :: fmtU t

/-- Replace the array expressions in a string of dependencies by single tasks. `jobid` is
    the string from the digit on with which a job id may have started, and the first `skip`
    characters were read with what stands before them. -/
def xlateLoop (env : Env) : (skip : ℕ) → (jobid : Option CStr) → CStr → Option CStr
  | _, _, [] => some []
  | skip + 1, jobid, _ :: s => xlateLoop env skip jobid s
  | 0, jobid, ch :: s =>
    if ch.isDigit then (xlateLoop env 0 (jobid.or (some (ch :: s))) s).map (ch :: ·)
    else
      match jobid with
      | some digits =>
        if ch = '_' ∧ s.head? = some '[' then
          let expr := (s.drop 1).takeWhile (· ≠ ']')
          if ']' ∉ s.drop 1 then none
          else
            match (env.bitUnfmt env.maxArraySize expr).map fun bits =>
              (List.range env.maxArraySize).filter (· ∈ bits) with
            | some (first :: tasks) =>
              (xlateLoop env (expr.length + 2) none s).map fun out =>
                ch :: taskTargets (toUInt (strtol digits).1) first tasks ++ out
            | _ => none
        else (xlateLoop env 0 none s).map (ch :: ·)
      | none => (xlateLoop env 0 none s).map (ch :: ·)

/-- A string of dependencies without array expressions (`_xlate_array_dep`); `none` if
    there is none in it, or one that is wrong. -/
def xlateArrayDep (env : Env) (newDepend : CStr) : Option CStr :=
  (strstr newDepend "_[".toList).bind fun _ => xlateLoop env 0 none newDepend

/-! ## Clauses -/

/-- A job id, and the tasks of the array it is one of: `NO_VAL` if none are named, and
    `INFINITE` for all of them. What follows is the third part. -/
def parseTarget (s : CStr) : ℕ × ℕ × CStr :=
  let (jobId, rest) := strtol s
  match rest with
  | '_' :: '*' :: rest => (toUInt jobId, infinite, rest)
  | '_' :: rest =>
    let (taskId, rest) := strtol rest
    (toUInt jobId, toUInt taskId, rest)
  | rest => (toUInt jobId, noVal, rest)

/-- What has been read of a string of dependencies. A job that is to be expanded is kept
    as its id and its record: the edits of the job that expands it are made when the
    whole string has been read (`Ctld.expandJob`), as no clause reads what they change. -/
structure DependLoop where
  dependType : Option DependType := none
  dependList : List DependSpec := []
  expand : Option (ℕ × Ptr) := none
  orFlag : Bool := false
  deriving DecidableEq

/-- The type of the clause that is read. -/
def DependLoop.test (l : DependLoop) (type : DependType) : DependLoop :=
  { l with dependType := some type }

/-- A dependency more. -/
def DependLoop.append (l : DependLoop) (d : DependSpec) : DependLoop :=
  { l with dependList := l.dependList ++ [d] }

/-- The clauses are alternatives. -/
def DependLoop.setOr (l : DependLoop) : DependLoop := { l with orFlag := true }

/-- The job is to expand the job `jobId`. -/
def DependLoop.setExpand (l : DependLoop) (jobId : ℕ) (q : Ptr) : DependLoop :=
  { l with expand := some (jobId, q) }

/-- A clause of dependencies without jobs, of which `rest` is what follows its name. -/
def flagClause (d : DependSpec) (rest : CStr) (l : DependLoop) : Rc × Option CStr × DependLoop :=
  let l := (l.test d.dependType).append d
  match rest with
  | [] => (.success, none, l)
  | ',' :: tok => (.success, some tok, l)
  | _ => (.dependency, none, l)

/-- A type of dependencies on jobs. -/
def DependType.OnJob (type : DependType) : Prop := type ≠ .pack ∧ type ≠ .singleton
  deriving Decidable

/-- The type that a clause with a list of jobs names. -/
def dependTest (env : Env) (tok : CStr) : Option DependType :=
  if startsWith tok "afternotok".toList then some .afterNotOk
  else if startsWith tok "aftercorr".toList then some .afterCorrespond
  else if startsWith tok "afterany".toList then some .afterAny
  else if startsWith tok "afterok".toList then some .afterOk
  else if startsWith tok "after".toList then some .after
  else if startsWith tok "expand".toList then if env.jobExpandAllow then some .expand else none
  else if startsWith tok "packleader".toList then some .packleader
  else none

namespace Ctld

variable (env : Env) (now : ℤ) (c : Ctld) (p : Ptr)

/-- The job of an array is one record for many tasks, or a record for one of them. -/
def isArrayId (jobId : ℕ) (q : Ptr) : Prop :=
  (c.job q).arrayJobId = jobId ∧ ((c.job q).arrayTaskId ≠ noVal ∨ (c.job q).arrayRecs ≠ none)
  deriving Decidable

/-- The job that is named, with its tasks. -/
def dependTarget (jobId taskId : ℕ) : Option Ptr × ℕ :=
  if taskId = noVal then
    let q := (c.findJobRecord jobId).or (c.findJobArrayRec jobId infinite)
    (q, if q.any fun q => c.isArrayId jobId q then infinite else taskId)
  else (c.findJobArrayRec jobId taskId, taskId)

/-- The job may expand another: it runs, and both are of one QOS and in one partition. -/
def mayExpand (q : Ptr) : Prop :=
  (c.job q).jobState.isRunning ∧ (c.job q).qosId = (c.job p).qosId ∧
    (c.job q).partPtr ≠ none ∧ (c.job p).partPtr ≠ none ∧ (c.job q).partPtr = (c.job p).partPtr
  deriving Decidable

/-- The dependency on the job `q`. -/
def dependEntry (type : DependType) (q : Ptr) (taskId : ℕ) : DependSpec where
  arrayTaskId := taskId
  dependType := type
  jobId := if taskId = noVal then (c.job q).jobId else (c.job q).arrayJobId
  jobPtr := some q

/-- Add the dependency on a job, if there is one still. -/
def addTarget (type : DependType) (jobId : ℕ) (q : Option Ptr) (taskId : ℕ) (l : DependLoop) :
    DependLoop :=
  match q with
  | none => l
  | some q =>
    (if type = .expand then l.setExpand jobId q else l).append (c.dependEntry type q taskId)

/-- A job id alone, with no name of a test (the old format). -/
def plainClause (tok : CStr) (l : DependLoop) : Rc × Option CStr × DependLoop :=
  let (jobId, taskId, rest) := parseTarget tok
  if jobId = 0 ∨ jobId = (c.job p).jobId ∨ (rest ≠ [] ∧ rest.head? ≠ some ',') then
    (.dependency, none, l)
  else
    let (q, taskId) := c.dependTarget jobId taskId
    let l := c.addTarget .afterAny jobId q taskId l
    match rest with
    | ',' :: tok => (.success, some tok, l)
    | _ => (.success, none, l)

/-- What may follow a job in a list of jobs. -/
def endsTarget (rest : CStr) : Prop := rest = [] ∨ ∃ ch ∈ rest.head?, ch ∈ [',', '?', ':']

instance : ∀ rest, Decidable (endsTarget rest)
  | [] => .isTrue (.inl rfl)
  | ch :: _ => decidable_of_iff (ch ∈ [',', '?', ':']) (by simp [endsTarget])

/-- The jobs of a clause, and what follows them. The fuel is more than the length of the
    string. -/
def parseTargets (type : DependType) : (fuel : ℕ) → CStr → DependLoop → Rc × CStr × DependLoop
  | 0, s, l => (.error, s, l)
  | fuel + 1, s, l =>
    let (jobId, taskId, rest) := parseTarget s
    if jobId = 0 ∨ jobId = (c.job p).jobId ∨ ¬endsTarget rest then (.dependency, rest, l)
    else
      let (q, taskId) := c.dependTarget jobId taskId
      if type = .expand ∧ (l.expand ≠ none ∨ ¬q.any fun q => c.mayExpand p q) then
        (.dependency, rest, l)
      else
        let l := c.addTarget type jobId q taskId l
        match rest with
        | ':' :: s => parseTargets type fuel s l
        | rest => (.success, rest, l)

/-- A clause with a list of jobs, after its test. -/
def testClause (type : DependType) (s : CStr) (l : DependLoop) : Rc × Option CStr × DependLoop :=
  match c.parseTargets p type (s.length + 1) s (l.test type) with
  | (.success, ',' :: tok, l) => (.success, some tok, l)
  | (.success, '?' :: tok, l) => (.success, some tok, l.setOr)
  | (rc, _, l) => (rc, none, l)

/-- Read a clause. The second part is the string from the next clause on, if there is one. -/
def parseClause (tok : CStr) (l : DependLoop) : Rc × Option CStr × DependLoop :=
  if startsWith tok "pack".toList ∧ ¬startsWith tok "packl".toList then
    flagClause { dependType := .pack, submitTime := now } (tok.drop 4) l
  else if startsWith tok "singleton".toList then
    flagClause { dependType := .singleton } (tok.drop 9) l
  else if ':' ∉ tok then
    if tok.head?.any Char.isDigit then c.plainClause p tok l else (.dependency, none, l)
  else
    match dependTest env tok with
    | none => (.dependency, none, l)
    | some type => c.testClause p type ((tok.dropWhile (· ≠ ':')).drop 1) l

/-- Read a string of dependencies. The fuel is more than the length of the string. -/
def parseDepend : (fuel : ℕ) → CStr → DependLoop → Rc × DependLoop
  | 0, _, l => (.error, l)
  | fuel + 1, tok, l =>
    match c.parseClause env now p tok l with
    | (.success, some tok, l) => parseDepend fuel tok l
    | (rc, _, l) => (rc, l)

/-- Read a string of dependencies, array expressions included. -/
def readDepend (newDepend : CStr) : Rc × DependLoop :=
  let tok := (xlateArrayDep env newDepend).getD newDepend
  c.parseDepend env now p (tok.length + 1) tok {}

end Ctld

/-! ## The edits -/

namespace JobRecord

variable (j : JobRecord)

/-- The job that is expanded. -/
def setExpandingJobid (jobId : ℕ) : JobRecord :=
  { j with details := j.details.map fun d => { d with expandingJobid := jobId } }

/-- The job waits for no other. -/
def clearDepend : JobRecord :=
  { j with details := j.details.map fun d => { d with dependency := none, dependList := none } }

/-- The job asks for no generic resources. -/
def freeGres : JobRecord := { j with gres := none, gresList := none }

/-- The job asks for the generic resources `gres`. -/
def setGres (env : Env) (gres : Option CStr) : JobRecord :=
  let (gres, gresList) := env.gresValidate gres
  let tresReqCnt := env.gresTresCnt gresList (j.details.elim 0 (·.minNodes)) j.tresReqCnt
  { j with
    gres := gres
    gresList := gresList
    tresReqCnt := tresReqCnt
    tresReqStr := env.tresStr tresReqCnt }

/-- The job leads a job pack. -/
def leadPack : JobRecord := { j with packLeader := j.jobId }

/-- The job was submitted with `-dpack`, and has no leader yet. -/
def isDashPack : Prop := j.details.bind (·.dependency) = some "pack ".toList
  deriving Decidable

/-- The job is a member of the pack of `leader`. -/
def joinPack (leader : ℕ) : JobRecord :=
  { j with
    packLeader := leader
    details := j.details.map fun d =>
      { d with dependency := some ("pack packleader=".toList ++ fmtD leader) } }

end JobRecord

/-- The name of a type of dependencies. -/
def DependType.name : DependType → CStr
  | after => "after".toList
  | afterAny => "afterany".toList
  | afterNotOk => "afternotok".toList
  | afterOk => "afterok".toList
  | singleton => "singleton".toList
  | expand => "expand".toList
  | afterCorrespond => "aftercorr".toList
  | packleader => "packleader".toList
  | pack => "pack".toList

namespace DependSpec

variable (d : DependSpec)

/-- The dependency is one of several alternatives (`SLURM_FLAGS_OR`). -/
def isOr : Prop := d.dependFlags &&& 1 ≠ 0
  deriving Decidable

/-- Set `SLURM_FLAGS_OR`. -/
def setOr : DependSpec := { d with dependFlags := d.dependFlags ||| 1 }

/-- The text of a dependency; `leader1` is set after the first member of a pack. -/
def text (leader1 : Bool) : CStr :=
  if d.dependType = .singleton then d.dependType.name
  else if d.arrayTaskId = infinite then d.dependType.name ++ ':' :: fmtU d.jobId ++ "_*".toList
  else if d.arrayTaskId = noVal then d.dependType.name ++ ':' :: fmtU d.jobId
  else if d.dependType = .pack then d.dependType.name ++ " ".toList
  else if d.dependType = .packleader then
    if leader1 then fmtU d.jobId else d.dependType.name ++ ':' :: fmtU d.jobId
  else d.dependType.name ++ ':' :: fmtU d.jobId ++ '_' :: fmtU d.arrayTaskId

/-- The text of a dependency was that of a member of a pack, with no task. -/
def marksLeader : Prop :=
  d.dependType = .packleader ∧ d.arrayTaskId ≠ infinite ∧ d.arrayTaskId ≠ noVal
  deriving Decidable

end DependSpec

/-- A list of dependencies as a string, and its dependencies with their flags
    (`_depend_list2str`). -/
def dependList2str (setOrFlag : Bool) (sep : CStr) (leader1 : Bool) :
    List DependSpec → CStr × List DependSpec
  | [] => ([], [])
  | d :: ds =>
    let d' := if setOrFlag ∧ d.dependType ≠ .singleton then d.setOr else d
    let sep' := if d'.dependType ≠ .singleton ∧ d'.isOr then "?".toList else ",".toList
    let (str, ds) := dependList2str setOrFlag sep' (leader1 || d.marksLeader) ds
    (sep ++ d.text leader1 ++ str, d' :: ds)

/-- The dependencies have their flags afterwards, and are the same else. -/
theorem dependList2str_snd (setOrFlag : Bool) (sep : CStr) (leader1 : Bool)
    (deps : List DependSpec) : (dependList2str setOrFlag sep leader1 deps).2 =
      deps.map fun d => if setOrFlag ∧ d.dependType ≠ .singleton then d.setOr else d := by
  induction deps generalizing sep leader1 with
  | nil => rfl
  | cons d deps ih => simp [dependList2str, ih]

/-- What does not look at the flag is as before. -/
theorem dependList2str_map {α : Type} {f : DependSpec → α} (hf : ∀ d, f d.setOr = f d)
    (setOrFlag : Bool) (sep : CStr) (leader1 : Bool) (deps : List DependSpec) :
    (dependList2str setOrFlag sep leader1 deps).2.map f = deps.map f := by
  rw [dependList2str_snd, map_map]
  refine map_congr_left fun d _ => ?_
  rw [Function.comp_apply]
  split_ifs
  · exact hf d
  · rfl

/-- The job waits for the jobs of a list. -/
def JobRecord.setDepend (deps : List DependSpec) (orFlag : Bool) (j : JobRecord) : JobRecord :=
  let (str, deps) := dependList2str orFlag [] false deps
  { j with
    details := j.details.map fun d =>
      { d with dependList := some deps, dependency := if deps = [] then none else some str } }

/-! ## The update -/

/-- Tell the members of a job pack their leader, up to one that cannot be a member. -/
def xrefMembers (leader : ℕ) : List DependSpec → Ctld → Bool × Ctld
  | [], c => (true, c)
  | d :: ds, c =>
    if d.dependType = .packleader then
      match c.findJobRecord d.jobId with
      | none => (false, c)
      | some q =>
        if d.jobPtr ≠ some q ∨ ¬(c.job q).isDashPack then (false, c)
        else xrefMembers leader ds (c.modJob q (·.joinPack leader))
    else xrefMembers leader ds c

namespace Ctld

variable (env : Env) (now : ℤ) (c : Ctld) (p : Ptr)

/-- The job takes over what the job it is to expand asks for. -/
def expandJob : Option (ℕ × Ptr) → Ctld
  | none => c
  | some (jobId, q) =>
    let c := c.modJob p fun j => (j.setExpandingJobid jobId).freeGres
    c.modJob p (·.setGres env (c.job q).gres)

/-- Set up the job pack of the leader `p` (`_xref_packleader`). -/
def xrefPackleader (deps : List DependSpec) : Bool × Ctld :=
  xrefMembers (c.job p).jobId deps (c.modJob p leadPack)

/-- Set up the job pack of `p`, if the last of its clauses with a name was for this. -/
def linkPack (rc : Rc) (l : DependLoop) : Rc × Ctld :=
  if l.dependType = some .packleader then
    let (ok, c) := c.xrefPackleader p l.dependList
    (if ok then rc else .packBadDependency, c)
  else (rc, c)

/-- The dependencies of the job that a dependency is on, unless it has finished or was
    purged. -/
def nextDepends (d : DependSpec) : Option (List DependSpec) :=
  d.jobPtr.bind fun q =>
    if (c.job q).jobId = d.jobId ∧ q ∈ c.jobList ∧ ¬(c.job q).jobState.isFinished then
      (c.job q).details.bind (·.dependList)
    else none

/-- Look at a dependency, and at those of its job with `search`, unless the job `jobId` has
    been found. -/
def scanEntry (jobId : ℕ) (search : ℕ → List DependSpec → Bool × ℕ) (r : Bool × ℕ)
    (d : DependSpec) : Bool × ℕ :=
  if r.1 ∨ d.jobId = 0 then r
  else if d.jobId = jobId then (true, r.2)
  else
    match c.nextDepends d with
    | none => (false, r.2)
    | some deps => search r.2 deps

/-- Search for the job `jobId` along the dependencies `deps` (`_scan_depend`). `counter` is
    the number of the lists that have been searched. The depth of the search is less than
    this number, so that fuel for `max_depend_depth` lists and one more is enough. -/
def scanDepend (jobId : ℕ) : (fuel counter : ℕ) → List DependSpec → Bool × ℕ
  | 0, counter, _ => (false, counter + 1)
  | fuel + 1, counter, deps =>
    if env.maxDependDepth ≤ counter then (false, counter + 1)
    else
      deps.foldl (c.scanEntry jobId fun counter deps => scanDepend jobId fuel counter deps)
        (false, counter + 1)

/-- The job depends on itself along `deps`. -/
def isCircular (deps : List DependSpec) : Bool :=
  (c.scanDepend env (c.job p).jobId (env.maxDependDepth + 1) 0 deps).1

/-- Replace the dependencies of a job by those that a string names. -/
def setNewDepend (newDepend : CStr) : Rc × Ctld :=
  let (rc, l) := c.readDepend env now p newDepend
  let c := c.expandJob env p l.expand
  let (rc, c) := c.linkPack p rc l
  let rc := if rc = .success ∧ c.isCircular env p l.dependList then .circularDependency else rc
  if rc = .success then (rc, c.modJob p (setDepend l.dependList l.orFlag)) else (rc, c)

end Ctld

/-- Replace the dependencies of a job (`update_job_dependency`). -/
def updateJobDependency (env : Env) (now : ℤ) (c : Ctld) (p : Ptr) (newDepend : Option CStr) :
    Rc × Ctld :=
  if (c.job p).details = none then (.einval, c)
  else
    let c := c.modJob p (·.setExpandingJobid 0)
    match newDepend with
    | none => (.success, c.modJob p clearDepend)
    | some s =>
      if s = [] ∨ s = "0".toList then (.success, c.modJob p clearDepend)
      else c.setNewDepend env now p s

/-! ## What the reader of the string does not see -/

namespace JobRecord

/-- A job without what an update edits before the string is accepted. -/
def sansDepend (j : JobRecord) : JobRecord :=
  { j with
    packLeader := 0
    gres := none
    gresList := none
    tresReqCnt := fun _ => 0
    tresReqStr := none
    details := j.details.map fun d => { d with dependency := none, expandingJobid := 0 } }

variable (j : JobRecord)

@[simp] theorem sansDepend_setExpandingJobid (jobId : ℕ) :
    (j.setExpandingJobid jobId).sansDepend = j.sansDepend := by
  cases h : j.details <;> simp [setExpandingJobid, sansDepend, h]

@[simp] theorem sansDepend_freeGres : j.freeGres.sansDepend = j.sansDepend := rfl

@[simp] theorem sansDepend_setGres (env : Env) (gres : Option CStr) :
    (j.setGres env gres).sansDepend = j.sansDepend := rfl

@[simp] theorem sansDepend_leadPack : j.leadPack.sansDepend = j.sansDepend := rfl

@[simp] theorem sansDepend_joinPack (leader : ℕ) : (j.joinPack leader).sansDepend = j.sansDepend := by
  cases h : j.details <;> simp [joinPack, sansDepend, h]

end JobRecord

namespace Ctld

/-- The controller without what an update edits before the string is accepted. -/
def sansDepend (c : Ctld) : Ctld := { c with job := fun q => (c.job q).sansDepend }

variable (env : Env) (now : ℤ) (c : Ctld) (p : Ptr)

theorem modJob_sansDepend {f : JobRecord → JobRecord}
    (hf : ∀ j, (f j).sansDepend = j.sansDepend) : (c.modJob p f).sansDepend = c.sansDepend := by
  have hjob : (fun q => ((c.modJob p f).job q).sansDepend) = fun q => (c.job q).sansDepend :=
    funext (c.modJob_part _ (hf _))
  exact congrArg (fun job => ({ c with job := job } : Ctld)) hjob

theorem sansDepend_expandJob (target : Option (ℕ × Ptr)) :
    (c.expandJob env p target).sansDepend = c.sansDepend := by
  rcases target with _ | ⟨jobId, q⟩
  · rfl
  · simp only [expandJob]
    rw [modJob_sansDepend _ _ fun _ => sansDepend_setGres .., modJob_sansDepend]
    exact fun _ => by rw [sansDepend_freeGres, sansDepend_setExpandingJobid]

theorem sansDepend_xrefMembers (leader : ℕ) (deps : List DependSpec) :
    (xrefMembers leader deps c).2.sansDepend = c.sansDepend := by
  induction deps generalizing c with
  | nil => rfl
  | cons d deps ih =>
    simp only [xrefMembers]
    split
    · split
      · rfl
      · split_ifs
        · rfl
        · exact (ih _).trans (modJob_sansDepend _ _ fun _ => by simp)
    · exact ih c

theorem sansDepend_linkPack (rc : Rc) (l : DependLoop) :
    (c.linkPack p rc l).2.sansDepend = c.sansDepend := by
  simp only [linkPack]
  split
  · exact (sansDepend_xrefMembers _ _ _).trans (modJob_sansDepend _ _ fun _ => by simp)
  · rfl

theorem parseTargets_sansDepend (type : DependType) (fuel : ℕ) (s : CStr) (l : DependLoop) :
    c.sansDepend.parseTargets p type fuel s l = c.parseTargets p type fuel s l := by
  induction fuel generalizing s l with
  | zero => rfl
  | succ fuel ih =>
    simp only [parseTargets, ih]
    rfl

theorem parseClause_sansDepend (tok : CStr) (l : DependLoop) :
    c.sansDepend.parseClause env now p tok l = c.parseClause env now p tok l := by
  simp only [parseClause, testClause, parseTargets_sansDepend]
  rfl

theorem parseDepend_sansDepend (fuel : ℕ) (tok : CStr) (l : DependLoop) :
    c.sansDepend.parseDepend env now p fuel tok l = c.parseDepend env now p fuel tok l := by
  induction fuel generalizing tok l with
  | zero => rfl
  | succ fuel ih => simp [parseDepend, parseClause_sansDepend, ih]

theorem scanDepend_sansDepend (jobId fuel counter : ℕ) (deps : List DependSpec) :
    c.sansDepend.scanDepend env jobId fuel counter deps =
      c.scanDepend env jobId fuel counter deps := by
  have hnext (d : DependSpec) : c.sansDepend.nextDepends d = c.nextDepends d := by
    cases hq : d.jobPtr with
    | none => simp [nextDepends, hq]
    | some q =>
      cases h : (c.job q).details <;> simp [nextDepends, hq, sansDepend, JobRecord.sansDepend, h]
  induction fuel generalizing counter deps with
  | zero => rfl
  | succ fuel ih =>
    have hentry (search : ℕ → List DependSpec → Bool × ℕ) :
        c.sansDepend.scanEntry jobId search = c.scanEntry jobId search := by
      funext r d
      simp [scanEntry, hnext]
    simp [scanDepend, ih, hentry]

variable {c} {c' : Ctld} (h : c'.sansDepend = c.sansDepend)

include h

theorem readDepend_congr (s : CStr) : c'.readDepend env now p s = c.readDepend env now p s := by
  rw [readDepend, ← parseDepend_sansDepend, h, parseDepend_sansDepend, readDepend]

theorem isCircular_congr (deps : List DependSpec) :
    c'.isCircular env p deps = c.isCircular env p deps := by
  have hid : (c'.sansDepend.job p).jobId = (c.sansDepend.job p).jobId := by rw [h]
  change (c'.job p).jobId = (c.job p).jobId at hid
  rw [isCircular, ← scanDepend_sansDepend, h, scanDepend_sansDepend, hid, isCircular]

end Ctld

/-! ## The search for a circle ends -/

namespace Ctld

variable (env : Env) (now : ℤ) (c : Ctld) (p : Ptr) {s tok : CStr}

theorem counter_lt_scanDepend (jobId fuel counter : ℕ) (deps : List DependSpec) :
    counter < (c.scanDepend env jobId fuel counter deps).2 := by
  induction fuel generalizing counter deps with
  | zero => exact lt_succ_self counter
  | succ fuel ih =>
    simp only [scanDepend]
    split_ifs
    · exact lt_succ_self counter
    · refine List.foldlRecOn deps _ (motive := fun r : Bool × ℕ => counter < r.2)
        (lt_succ_self ..) fun r hr d _ => ?_
      unfold scanEntry
      split_ifs
      · exact hr
      · exact hr
      · split
        · exact hr
        · exact hr.trans (ih _ _)

/-- The fuel is enough: with more of it the search finds the same. -/
theorem scanDepend_fuel (jobId : ℕ) {m n counter : ℕ} (hm : env.maxDependDepth < m + counter)
    (hn : env.maxDependDepth < n + counter) (deps : List DependSpec) :
    c.scanDepend env jobId m counter deps = c.scanDepend env jobId n counter deps := by
  induction m generalizing n counter deps with
  | zero =>
    cases n with
    | zero => rfl
    | succ n => simp [scanDepend, (show env.maxDependDepth ≤ counter by omega)]
  | succ m ih =>
    cases n with
    | zero => simp [scanDepend, (show env.maxDependDepth ≤ counter by omega)]
    | succ n =>
      -- Both searches count the lists alike, and stay past the counter of this list.
      have hloop (r : Bool × ℕ) (hr : counter < r.2) :
          deps.foldl (c.scanEntry jobId fun k deps => c.scanDepend env jobId m k deps) r =
            deps.foldl (c.scanEntry jobId fun k deps => c.scanDepend env jobId n k deps) r := by
        induction deps generalizing r with
        | nil => rfl
        | cons d deps ihd =>
          simp only [foldl_cons, scanEntry]
          split_ifs
          · exact ihd _ hr
          · exact ihd _ hr
          · cases c.nextDepends d with
            | none => exact ihd _ hr
            | some next =>
              dsimp only
              rw [ih (n := n) (by omega) (by omega)]
              exact ihd _ (hr.trans (counter_lt_scanDepend ..))
      simp [scanDepend, hloop (false, counter + 1) (lt_succ_self ..)]

/-! ## The dependencies that are read -/

/-- A job id and the tasks, as they are read. -/
theorem parseTarget_lt (s : CStr) : (parseTarget s).1 < 2 ^ 32 ∧ (parseTarget s).2.1 < 2 ^ 32 := by
  unfold parseTarget
  dsimp only
  split
  · exact ⟨toUInt_lt _, by simp [infinite]⟩
  · exact ⟨toUInt_lt _, toUInt_lt _⟩
  · exact ⟨toUInt_lt _, by simp [noVal]⟩

theorem dependTest_onJob {type : DependType} (h : dependTest env tok = some type) :
    type.OnJob ∧ (type = .expand → env.jobExpandAllow) := by
  unfold dependTest at h
  split_ifs at h <;> cases h <;> simp_all [DependType.OnJob]

/-- A job that a dependency of `p` may name, and its tasks. -/
structure NamesJob (jobId taskId : ℕ) : Prop where
  ne_zero : jobId ≠ 0
  ne_self : jobId ≠ (c.job p).jobId
  jobId_lt : jobId < 2 ^ 32
  taskId_lt : taskId < 2 ^ 32

/-- What the reader keeps true of what it has read, whatever the clause. -/
structure KeptByReader (P : DependLoop → Prop) : Prop where
  start : P {}
  test : ∀ {l}, P l → ∀ type, P (l.test type)
  or : ∀ {l}, P l → P l.setOr
  pack : ∀ {l}, P l → P (l.append { dependType := .pack, submitTime := now })
  singleton : ∀ {l}, P l → P (l.append { dependType := .singleton })
  target : ∀ {l}, P l → ∀ {type jobId taskId q}, type.OnJob → c.NamesJob p jobId taskId →
    (c.dependTarget jobId taskId).1 = some q →
    (type = .expand → env.jobExpandAllow ∧ l.expand = none ∧ c.mayExpand p q) →
    P (c.addTarget type jobId (some q) (c.dependTarget jobId taskId).2 l)

section

variable {env now c p} {P : DependLoop → Prop} (hP : c.KeptByReader env now p P) {l : DependLoop}
  {type : DependType}

include hP

theorem KeptByReader.addTarget (h : P l) (htype : type.OnJob)
    {jobId taskId : ℕ} (hname : c.NamesJob p jobId taskId)
    (hexpand : type = .expand → env.jobExpandAllow ∧ l.expand = none ∧
      (c.dependTarget jobId taskId).1.any fun q => c.mayExpand p q) :
    P (c.addTarget type jobId (c.dependTarget jobId taskId).1
      (c.dependTarget jobId taskId).2 l) := by
  cases hq : (c.dependTarget jobId taskId).1 with
  | none => exact h
  | some q =>
    refine hP.target h htype hname hq fun hexp => ?_
    obtain ⟨hallow, hfirst, hmay⟩ := hexpand hexp
    exact ⟨hallow, hfirst, by simpa [hq] using hmay⟩

theorem KeptByReader.parseTargets
    (htype : type.OnJob ∧ (type = .expand → env.jobExpandAllow)) (fuel : ℕ) (s : CStr) (h : P l) :
    P (c.parseTargets p type fuel s l).2.2 := by
  induction fuel generalizing s l with
  | zero => exact h
  | succ fuel ih =>
    obtain ⟨hjob, htask⟩ := parseTarget_lt s
    simp only [Ctld.parseTargets]
    split_ifs with hbad hexpand
    · exact h
    · exact h
    · push Not at hbad
      have hadd := hP.addTarget h htype.1 ⟨hbad.1, hbad.2.1, hjob, htask⟩ fun hexp => by
        have hfree : ¬(l.expand ≠ none ∨ _) := fun hor => hexpand ⟨hexp, hor⟩
        push Not at hfree
        exact ⟨htype.2 hexp, hfree⟩
      split
      · exact ih _ hadd
      · exact hadd

theorem KeptByReader.flagClause {d : DependSpec} (hd : ∀ {l}, P l → P (l.append d))
    (h : P l) (rest : CStr) : P (flagClause d rest l).2.2 := by
  have hl : P ((l.test d.dependType).append d) := hd (hP.test h _)
  unfold Slurm.flagClause
  split <;> exact hl

theorem KeptByReader.parseClause (tok : CStr) (h : P l) :
    P (c.parseClause env now p tok l).2.2 := by
  unfold Ctld.parseClause
  split_ifs
  · exact hP.flagClause hP.pack h _
  · exact hP.flagClause hP.singleton h _
  · split
    · exact h
    · rename_i type htest
      have hlist := hP.parseTargets (dependTest_onJob env htest)
        (((tok.dropWhile (· ≠ ':')).drop 1).length + 1)
        ((tok.dropWhile (· ≠ ':')).drop 1) (hP.test h type)
      unfold testClause
      split
      · rename_i heq
        rwa [heq] at hlist
      · rename_i heq
        rw [heq] at hlist
        exact hP.or hlist
      · rename_i heq
        rwa [heq] at hlist
  · obtain ⟨hjob, htask⟩ := parseTarget_lt tok
    unfold plainClause
    dsimp only
    split_ifs with hbad
    · exact h
    · push Not at hbad
      have hadd := hP.addTarget h (show DependType.OnJob .afterAny by decide)
        ⟨hbad.1, hbad.2.1, hjob, htask⟩ (by simp)
      split <;> exact hadd
  · exact h

/-- What is true at the start and kept by every clause is true of all that is read. -/
theorem KeptByReader.readDepend (s : CStr) : P (c.readDepend env now p s).2 := by
  have hrun (fuel : ℕ) (tok : CStr) (l : DependLoop) (h : P l) :
      P (c.parseDepend env now p fuel tok l).2 := by
    induction fuel generalizing tok l with
    | zero => exact h
    | succ fuel ih =>
      have hclause := hP.parseClause tok h
      unfold parseDepend
      split
      · rename_i heq
        rw [heq] at hclause
        exact ih _ _ hclause
      · rename_i heq
        rwa [heq] at hclause
  exact hrun _ _ {} hP.start

end

/-- What holds for the clauses without jobs and for all jobs that are found holds for all
    dependencies that are read. -/
theorem forall_mem_readDepend {G : DependSpec → Prop}
    (hpack : G { dependType := .pack, submitTime := now })
    (hsingleton : G { dependType := .singleton })
    (htarget : ∀ type jobId taskId q, type.OnJob → c.NamesJob p jobId taskId →
      (c.dependTarget jobId taskId).1 = some q →
      G (c.dependEntry type q (c.dependTarget jobId taskId).2))
    (s : CStr) : ∀ d ∈ (c.readDepend env now p s).2.dependList, G d := by
  have happend {l : DependLoop} (h : ∀ d ∈ l.dependList, G d) {e : DependSpec} (he : G e) :
      ∀ d ∈ (l.append e).dependList, G d := by
    intro d hd
    rcases mem_append.1 hd with hd | hd
    · exact h d hd
    · rwa [mem_singleton.1 hd]
  have hkept : c.KeptByReader env now p fun l => ∀ d ∈ l.dependList, G d :=
    { start := by simp
      test := fun h _ => h
      or := fun h => h
      pack := fun h => happend h hpack
      singleton := fun h => happend h hsingleton
      target := fun h _ _ _ _ htype hname hq _ => by
        refine happend ?_ (htarget _ _ _ _ htype hname hq)
        split_ifs
        · exact h
        · exact h }
  exact hkept.readDepend s

section

variable {c : Ctld} {jobId taskId : ℕ} {q : Ptr}

theorem findJobRecord_mem (h : c.findJobRecord jobId = some q) :
    q ∈ c.jobList ∧ (c.job q).jobId = jobId :=
  ⟨mem_of_find?_eq_some h, by simpa using List.find?_some h⟩

theorem findJobArrayRec_mem (h : c.findJobArrayRec jobId taskId = some q) :
    q ∈ c.jobList ∨ q ∈ c.jobArrayHash := by
  have htasks {q : Ptr} (hq : q ∈ c.arrayTasks jobId) : q ∈ c.jobArrayHash := mem_of_mem_filter hq
  have hfilter {f : Ptr → Bool} {q : Ptr} (hq : (c.findJobRecord jobId).filter f = some q) :
      q ∈ c.jobList := (findJobRecord_mem (Option.filter_eq_some_iff.1 hq).1).1
  unfold findJobArrayRec at h
  split_ifs at h
  · exact .inl (findJobRecord_mem h).1
  · rcases Option.or_eq_some_iff.1 h with h | ⟨-, h⟩
    · exact .inl (hfilter h)
    · rcases Option.or_eq_some_iff.1 h with h | ⟨-, h⟩
      · exact .inr (htasks (mem_of_find?_eq_some h))
      · exact .inr (htasks (mem_of_getLast? h))
  · rcases Option.or_eq_some_iff.1 h with h | ⟨-, h⟩
    · exact .inr (htasks (mem_of_find?_eq_some h))
    · exact .inl (hfilter h)

theorem dependTarget_mem (h : (c.dependTarget jobId taskId).1 = some q) :
    q ∈ c.jobList ∨ q ∈ c.jobArrayHash := by
  unfold dependTarget at h
  split_ifs at h
  · rcases Option.or_eq_some_iff.1 h with h | ⟨-, h⟩
    · exact .inl (findJobRecord_mem h).1
    · exact findJobArrayRec_mem h
  · exact findJobArrayRec_mem h

/-- Every job that is named has a record. -/
theorem readDepend_mem (env : Env) (now : ℤ) (p : Ptr) (s : CStr) {d : DependSpec}
    (hd : d ∈ (c.readDepend env now p s).2.dependList) (hq : d.jobPtr = some q) :
    q ∈ c.jobList ∨ q ∈ c.jobArrayHash := by
  have hall := c.forall_mem_readDepend env now p
    (G := fun d => ∀ q, d.jobPtr = some q → q ∈ c.jobList ∨ q ∈ c.jobArrayHash)
    (by simp) (by simp)
    (fun type jobId taskId q' _ _ hq' q hq => by
      obtain rfl : q' = q := Option.some.inj hq
      exact dependTarget_mem hq') s
  exact hall d hd q hq

end

end Ctld

end Slurm
