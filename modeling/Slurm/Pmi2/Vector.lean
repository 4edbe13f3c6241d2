import Slurm.Pmi2

/-!
# Process mappings of PMI2

A process mapping tells an MPI program which of its ranks are on which nodes. It is a text: a list
of blocks of nodes with as many tasks on each (`vectorText`). For each step, `srun` makes it from
the layout of the step (`getProcMapping`). When the steps of a job pack are combined, the `srun` of
the first step gets the mappings of the others through pipes, adds to the number of the first node
of each block how many nodes there are in the steps before, and joins the texts
(`combineSrunJobInfo`). The others get the result through a pipe again (`procMapping`).

A text is an array of characters of a fixed size, and a number is replaced in place. Where a string
would have no end any more, or an array is too small, what happens is undefined, and there is no
result.
-/

namespace Slurm

open CString

/-! ## Mappings of steps -/

/-- `nodes` nodes with `tasks` tasks each, from the node `start` on. -/
structure MapBlock where
  start : ℕ
  nodes : ℕ
  tasks : ℕ
deriving DecidableEq, Repr

namespace MapBlock

variable (b : MapBlock)

/-- A block, as `,(%u,%u,%u)` prints it, from its first number on. -/
def numbers : List Char :=
  fmtU b.start ++ ',' :: (fmtU b.nodes ++ ',' :: (fmtU b.tasks ++ [')']))

def text : List Char := ',' :: '(' :: b.numbers

/-- The block with other nodes before it. -/
def shift (n : ℕ) : MapBlock := { b with start := b.start + n }

end MapBlock

/-- The head of a mapping. -/
def vectorHead : List Char := "(vector".toList

/-- The text of a mapping. -/
def vectorText (bs : List MapBlock) : List Char := vectorHead ++ (bs.flatMap (·.text) ++ [')'])

/-- How the tasks of a step are distributed, as far as it matters here. -/
inductive TaskDist where
  | cyclic
  | arbitrary
  | plane
  | block
deriving DecidableEq

/-- `slurm_step_layout_t`: for each node, the tasks on it. -/
structure MapLayout where
  taskDist : TaskDist
  taskCnt : ℕ
  tids : List (List ℕ)
  taskCnt_pos : 0 < taskCnt
  tids_ne : tids ≠ []

/-- How many tasks from `taskMapped` on are the next ones of a node. -/
def runLength : ℕ → List ℕ → ℕ
  | _, [] => 0
  | taskMapped, tid :: tids => if tid = taskMapped then runLength (taskMapped + 1) tids + 1 else 0

/-- A block of nodes that is being looked at, with its tasks for each of them. -/
structure OpenBlock where
  startId : ℕ
  block : ℕ

/-- What is printed for a block when its end is found. -/
def OpenBlock.close (endId : ℕ) (o : OpenBlock) : MapBlock :=
  ⟨o.startId, endId - o.startId, o.block⟩

/-- What is known in a pass over the nodes: the tasks mapped so far, and the blocks printed. -/
structure MapState where
  taskMapped : ℕ
  blocks : List MapBlock := []

/-- A pass over the nodes, from the node `nodeId` on. On each node the tasks that are not mapped yet
    are left. A block has `size` tasks on its first node, and ends before a node that has not as
    many of the next ones. -/
def mapPass (size : ℕ → List ℕ → ℕ) :
    ℕ → Option OpenBlock → MapState → List (List ℕ) → MapState × List (List ℕ)
  | nodeId, o, st, [] => ({ st with blocks := st.blocks ++ (o.map (·.close nodeId)).toList }, [])
  | nodeId, o, st, node :: nodes =>
    let n := size st.taskMapped node
    let step (o : Option OpenBlock) (printed : List MapBlock) :=
      let st' : MapState := ⟨st.taskMapped + n, st.blocks ++ printed⟩
      let (st', rest) := mapPass size (nodeId + 1) o st' nodes
      (st', node.drop n :: rest)
    match o with
    | none => if n = 0 then step none [] else step (some ⟨nodeId, n⟩) []
    | some o =>
      if n = o.block then step (some o) []
      else if n = 0 then step none [o.close nodeId]
      else step (some ⟨nodeId, n⟩) [o.close nodeId]

/-- Passes over the nodes until all tasks are mapped. Each maps a task, or there is no end. -/
def mapPasses (size : ℕ → List ℕ → ℕ) (taskCnt : ℕ) :
    ℕ → MapState → List (List ℕ) → Option (List MapBlock)
  | fuel, st, nodes =>
    if taskCnt ≤ st.taskMapped then some st.blocks
    else
      match fuel with
      | 0 => none
      | fuel + 1 =>
        let (st, nodes) := mapPass size 0 none st nodes
        mapPasses size taskCnt fuel st nodes

/-- The blocks of nodes with as many tasks as the node before, from the node `nodeId` on. -/
def blockMode (startId nodeTaskCnt : ℕ) : ℕ → List (List ℕ) → List MapBlock
  | nodeId, [] => [⟨startId, nodeId - startId, nodeTaskCnt⟩]
  | nodeId, node :: nodes =>
    if nodeTaskCnt = node.length then blockMode startId nodeTaskCnt (nodeId + 1) nodes
    else
      ⟨startId, nodeId - startId, nodeTaskCnt⟩ :: blockMode nodeId node.length (nodeId + 1) nodes

/-- `_get_proc_mapping`. -/
def getProcMapping (layout : MapLayout) : Option (List MapBlock) :=
  match layout.taskDist with
  | .cyclic =>
    -- At most one task is taken of each node in a pass.
    mapPasses (fun taskMapped node => min 1 (runLength taskMapped node)) layout.taskCnt
      layout.taskCnt ⟨0, []⟩ layout.tids
  | .arbitrary => some [⟨0, layout.taskCnt, 1⟩]
  | .plane => mapPasses runLength layout.taskCnt layout.taskCnt ⟨0, []⟩ layout.tids
  | .block =>
    match layout.tids with
    | [] => none
    | node :: nodes => some (blockMode 0 node.length 1 nodes)

/-! ## Mappings of job packs -/

/-- What the `srun` of a step knows: its mapping and the number of its nodes. -/
structure MapStep where
  layout : MapLayout
  blocks : List MapBlock
  produced : getProcMapping layout = some blocks

namespace MapStep

variable (s : MapStep)

def nnodes : ℕ := s.layout.tids.length

def procMapping : List Char := vectorText s.blocks

end MapStep

/-- `_replace`. The old number stands at the front of the string. The new one is written over it;
    what stood behind is saved and not written back, since the last `strcpy` has its arguments the
    wrong way round. A new number that is longer than the string takes its end away. -/
def replace (s new : List Char) : Option (List Char) :=
  if new.length ≤ s.length then some (new ++ s.drop new.length) else none

/-- The loop of `_adjust_vect_nodeidx`, from `sub` on. -/
def adjustLoop (curnodeidx : ℕ) : ℕ → List Char → Option (List Char)
  | 0, sub => some sub
  | fuel + 1, sub =>
    match strstr sub [',', '('] with
    | none => some sub
    | some rest =>
      let num := atoi ((rest.drop 2).takeWhile Char.isDigit)
      (replace (rest.drop 2) (fmtD (toUInt (num + curnodeidx)))).bind fun sub' =>
        (adjustLoop curnodeidx fuel sub').map fun text =>
          sub.take (sub.length - rest.length) ++ (',' :: '(' :: text)

/-- `_adjust_vect_nodeidx`. Each turn of the loop goes on by a mark of two characters at least. -/
def adjustVectNodeidx (vecstr : List Char) (curnodeidx : ℕ) : Option (List Char) :=
  adjustLoop curnodeidx vecstr.length vecstr

/-- `_combine_vect_lists`. -/
def combineVectLists (vectList1 vectList2 : List Char) : Option (List Char) :=
  (strstr vectList2 vectorHead).bind fun p =>
    (strstr vectList1 [')', ')']).map fun p1 =>
      vectList1.take (vectList1.length - p1.length) ++ (p1.take 1 ++ p.drop vectorHead.length)

/-- The loop of `_combine_srun_job_info` over the other steps, with the nodes of those before and
    the mapping so far. -/
def combineLoop (combSize : ℕ) : ℕ → List Char → List MapStep → Option (List Char)
  | _, procMapping, [] => some procMapping
  | curnodeidx, procMapping, s :: steps =>
    (inArray vectMaxSize s.procMapping).bind fun readbuffer =>
      (adjustVectNodeidx readbuffer curnodeidx).bind fun adjVectList =>
        (inArray combSize procMapping).bind fun combVectList =>
          ((combineVectLists combVectList adjVectList).bind (inArray combSize)).bind
            fun procMapping => combineLoop combSize (curnodeidx + s.nnodes) procMapping steps

/-- The steps of a job pack that are combined. The number of all nodes is an `int`. -/
structure MapPack where
  first : MapStep
  others : List MapStep
  nnodes_lt : ((first :: others).map (·.nnodes)).sum < 2 ^ 31

namespace MapPack

variable (pack : MapPack)

def steps : List MapStep := pack.first :: pack.others

/-- The mapping that `_combine_srun_job_info` makes in the `srun` of the first step. -/
def combineSrunJobInfo : Option (List Char) :=
  combineLoop (vectMaxSize * pack.steps.length) pack.first.nnodes pack.first.procMapping pack.others

/-- The mapping in the `srun` of a step in the end. -/
def procMapping (stepIdx : ℕ) : Option (List Char) :=
  if stepIdx = 0 then pack.combineSrunJobInfo
  else pack.combineSrunJobInfo.bind (inArray vectMaxSize)

end MapPack

/-! ## The meaning of a mapping -/

/-- A number at the front of a text. -/
def decodeNum (s : List Char) : Option (ℕ × List Char) :=
  match s.takeWhile Char.isDigit with
  | [] => none
  | ds => some (digitsVal ds, s.dropWhile Char.isDigit)

/-- A character at the front of a text. -/
def decodeChar (c : Char) : List Char → Option (List Char)
  | [] => none
  | a :: s => if a = c then some s else none

/-- A block, from its first number on. -/
def decodeBlock (s : List Char) : Option (MapBlock × List Char) := do
  let (start, s) ← decodeNum s
  let s ← decodeChar ',' s
  let (nodes, s) ← decodeNum s
  let s ← decodeChar ',' s
  let (tasks, s) ← decodeNum s
  let s ← decodeChar ')' s
  return (⟨start, nodes, tasks⟩, s)

def decodeBlocks : ℕ → List Char → Option (List MapBlock)
  | _, [')'] => some []
  | fuel + 1, ',' :: '(' :: s => do
    let (b, s) ← decodeBlock s
    let bs ← decodeBlocks fuel s
    return b :: bs
  | _, _ => none

/-- The blocks that a text lists. -/
def decodeVector (s : List Char) : Option (List MapBlock) :=
  if vectorHead.isPrefixOf s then decodeBlocks s.length (s.drop vectorHead.length) else none

/-- The blocks of steps one after the other, the nodes of each behind those of the steps before. -/
def concatBlocks : ℕ → List MapStep → List MapBlock
  | _, [] => []
  | n, s :: steps => s.blocks.map (·.shift n) ++ concatBlocks (n + s.nnodes) steps

/-- Each `srun` ends up with the concatenation of the mappings. -/
def MapPack.Combined (pack : MapPack) : Prop :=
  ∀ stepIdx < pack.steps.length,
    (pack.procMapping stepIdx).bind decodeVector = some (concatBlocks 0 pack.steps)

end Slurm
