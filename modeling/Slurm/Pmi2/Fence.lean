import Slurm.Lib.CString
import Slurm.Lib.Rooted
import Slurm.Pmi2.TempKvs

/-!
# The fence of PMI2

The tasks of a step put pairs of keys and values, and meet at a fence: none of them goes on before
all have entered it, and the pairs are on all nodes then. The `slurmstepd` of the nodes and `srun`
form a tree, with `srun` at the root, of rank `0`. Each of them collects pairs in a buffer, those of
its own tasks and those of the messages from its children: what it holds is the next message
(`temp`), and its size is known apart from it (`buf`). When all its tasks
have entered and its children stand for all nodes below, it sends the buffer to its parent
(`complete`). `srun` sends it to all nodes instead, where the pairs are stored and the tasks are
answered (`handleKvsFenceResp`).

A message that was sent may be delivered at any time and any number of times (`FenceOp`). To say
what is right, the state has the rounds that tasks have entered, the pairs they have put, and the
messages that were delivered at least once.
-/

namespace Slurm

open CString Function

/-! ## Stored pairs -/

/-- A key and its value. -/
abbrev KvsPair := List Char × List Char

/-- How many bytes pairs take in a message: two strings each, with their lengths and ends. -/
def pairsLength (pairs : List KvsPair) : ℕ :=
  (pairs.map fun p => 4 + p.1.length + 1 + (4 + p.2.length + 1)).sum

/-- `_hash`. -/
def kvsHash (key : List Char) : ℕ :=
  key.foldl (fun hash c =>
    let shift := (hash >>> 24) % 2 ^ 8
    (hash <<< 8) % 2 ^ 32 ||| (shift ^^^ c.toNat % 2 ^ 8)) 0

/-- The loop of `kvs_put`, which replaces the value of a key. -/
def replacePair (pair : KvsPair) : List KvsPair → List KvsPair
  | [] => [pair]
  | p :: ps => if pair.1 = p.1 then (p.1, pair.2) :: ps else p :: replacePair pair ps

/-! ## The step -/

/-- A step: the tree of its nodes, with `srun` at the root, where each knows the number of nodes
    below it; and the name of each node, which is short, and its tasks. -/
structure FenceStep where
  nnodes : ℕ
  parent : ℕ → ℕ
  numChildren : ℕ → ℕ
  thisNode : ℕ → List Char
  ltasks : ℕ → ℕ
  noDupKeys : Bool
  ntasks : ℕ
  nnodes_pos : 0 < nnodes
  nnodes_lt : nnodes < 2 ^ 32
  isTree : Rooted.IsTree parent (nnodes + 1)
  numChildren_eq : ∀ rank < nnodes + 1,
    numChildren rank = (Rooted.descendants parent (nnodes + 1) rank).ncard
  thisNode_lt : ∀ rank, (thisNode rank).length < 2 ^ 10
  ltasks_root : ltasks 0 = 0
  ltasks_pos : ∀ rank, 0 < rank → rank < nnodes + 1 → 0 < ltasks rank
  ltasks_lt : ∀ rank, ltasks rank < 2 ^ 32

namespace FenceStep

variable (step : FenceStep)

/-- A task of the step, by the rank of its node. -/
def IsTask (task : ℕ × ℕ) : Prop :=
  0 < task.1 ∧ task.1 < step.nnodes + 1 ∧ task.2 < step.ltasks task.1
  deriving Decidable

def hashSize : ℕ := (step.ntasks + 8 - 1) / 8

/-- `HASH`. -/
def bucket (key : List Char) : ℕ := kvsHash key % step.hashSize

/-- `kvs_put`. -/
def kvsPut (kvs : ℕ → List KvsPair) (pair : KvsPair) : ℕ → List KvsPair :=
  let i := step.bucket pair.1
  update kvs i
    (if step.noDupKeys then kvs i ++ [pair] else replacePair pair (kvs i))

end FenceStep

/-- A message: how many nodes it stands for (not in those of `srun`), its number, and pairs. -/
structure TreeMsg where
  numChildren : ℕ
  seq : ℕ
  pairs : List KvsPair
deriving DecidableEq

/-- A pair that a task has put, after it had entered some rounds. -/
structure KvsEntry where
  task : ℕ × ℕ
  round : ℕ
  pair : KvsPair

/-- An operation: a task that is in no fence puts a pair, or enters; the message `i` of a
    `slurmstepd` arrives at its parent; the message `i` of `srun` arrives at a `slurmstepd`. -/
inductive FenceOp where
  | put (task : ℕ × ℕ) (pair : KvsPair)
  | enter (task : ℕ × ℕ)
  | deliverFence (rank i : ℕ)
  | deliverResp (rank i : ℕ)

/-- The system: the variables of each `slurmstepd` and of `srun`, by rank, where the next message
    `temp` is what is in the buffer `buf`, as long as the program runs; the messages that each has
    sent, and whether each answer to a task was a success; the rounds that tasks have entered, and
    the pairs they have put; the messages that were delivered. -/
structure FenceSys where
  kvsSeq : ℕ → ℕ
  temp : ℕ → TreeMsg
  buf : ℕ → Option TempKvs
  tasksToWait : ℕ → ℤ := fun _ => 0
  childrenToWait : ℕ → ℤ := fun _ => 0
  waiting : ℕ → Bool := fun _ => false
  childrenKvsSeq : ℕ → ℕ → ℕ := fun _ _ => 0
  kvs : ℕ → ℕ → List KvsPair := fun _ _ => []
  sent : ℕ → List TreeMsg := fun _ => []
  answers : ℕ × ℕ → List Bool := fun _ => []
  killed : Bool := false
  entered : ℕ × ℕ → ℕ := fun _ => 0
  puts : List KvsEntry := []
  gotFence : List (ℕ × ℕ) := []
  gotResp : List (ℕ × ℕ) := []

/-- `temp_kvs_init`: the buffer starts with the head of the message. -/
def FenceStep.tempKvsInit (step : FenceStep) (rank seq : ℕ) : TreeMsg where
  numChildren := if 0 < rank then step.numChildren rank + 1 else 0
  seq := seq
  pairs := []

/-- The bytes of the head: the command and the number and, from a `slurmstepd`, the number and the
    name of its node and how many nodes it stands for. -/
def FenceStep.headLength (step : FenceStep) (rank : ℕ) : ℕ :=
  if 0 < rank then 2 + 4 + (4 + (step.thisNode rank).length + 1) + 4 + 4 else 2 + 4

/-- The buffer of `temp_kvs_init`. -/
def FenceStep.initBuf (step : FenceStep) (rank : ℕ) : Option TempKvs :=
  TempKvs.append { size := TempKvs.sizeInc } TempKvs.sizeInc (step.headLength rank)

namespace FenceSys

variable (step : FenceStep) (s : FenceSys)

def init : FenceSys where
  kvsSeq _ := 1
  temp rank := step.tempKvsInit rank 1
  buf := step.initBuf

/-- Pairs are written to the buffer, which grows by `inc` if there is no room. -/
def tempKvsAppend (rank inc : ℕ) (pairs : List KvsPair) : FenceSys :=
  { s with
    temp := update s.temp rank
      { s.temp rank with pairs := (s.temp rank).pairs ++ pairs }
    buf := update s.buf rank ((s.buf rank).bind (·.append inc (pairsLength pairs))) }

/-- `temp_kvs_add`. -/
def tempKvsAdd (rank : ℕ) (pair : KvsPair) : FenceSys :=
  s.tempKvsAppend rank TempKvs.sizeInc [pair]

/-- `temp_kvs_merge`. -/
def tempKvsMerge (rank : ℕ) (pairs : List KvsPair) : FenceSys :=
  s.tempKvsAppend rank (pairsLength pairs) pairs

/-- `temp_kvs_send`, and what comes after it: a `slurmstepd` waits for the answer. -/
def tempKvsSend (rank : ℕ) : FenceSys :=
  let kvsSeq := toUInt (s.kvsSeq rank + 1)
  { s with
    sent := update s.sent rank (s.sent rank ++ [s.temp rank])
    kvsSeq := update s.kvsSeq rank kvsSeq
    temp := update s.temp rank (step.tempKvsInit rank kvsSeq)
    buf := update s.buf rank (step.initBuf rank)
    tasksToWait := update s.tasksToWait rank 0
    childrenToWait := update s.childrenToWait rank 0
    waiting := if 0 < rank then update s.waiting rank true else s.waiting }

/-- When all are there, the message is sent. -/
def complete (rank : ℕ) : FenceSys :=
  if s.tasksToWait rank = 0 ∧ s.childrenToWait rank = 0 then s.tempKvsSend step rank else s

/-- The first that comes starts a round. -/
def startRound (rank : ℕ) : FenceSys :=
  if s.tasksToWait rank = 0 ∧ s.childrenToWait rank = 0 then
    { s with
      tasksToWait := update s.tasksToWait rank (toInt (step.ltasks rank))
      childrenToWait := update s.childrenToWait rank (toInt (step.numChildren rank)) }
  else s

/-- Tasks, or a child that stands for some nodes, have come. -/
def arrive (rank tasks nodes : ℕ) : FenceSys :=
  { s with
    tasksToWait := update s.tasksToWait rank (toInt (s.tasksToWait rank - tasks))
    childrenToWait := update s.childrenToWait rank
      (toInt (s.childrenToWait rank - nodes)) }

/-- `_handle_kvs_fence` of a request by a task. -/
def taskKvsFence (rank : ℕ) : FenceSys :=
  ((s.startRound step rank).arrive rank 1 0).complete step rank

/-- `_handle_kvs_fence` of a message. -/
def handleKvsFence (rank child : ℕ) (msg : TreeMsg) : FenceSys :=
  if msg.seq ≠ s.kvsSeq rank then s
  else if msg.seq = s.childrenKvsSeq rank child then s
  else
    { s with
      childrenKvsSeq := update s.childrenKvsSeq rank
        (update (s.childrenKvsSeq rank) child msg.seq) }
      |>.startRound step rank
      |>.arrive rank 0 msg.numChildren
      |>.tempKvsMerge rank msg.pairs
      |>.complete step rank

/-- `send_kvs_fence_resp_to_clients`. -/
def sendKvsFenceRespToClients (rank : ℕ) (ok : Bool) : FenceSys :=
  { s with
    answers := fun task =>
      if task.1 = rank ∧ task.2 < step.ltasks rank then s.answers task ++ [ok]
      else s.answers task }

/-- `_handle_kvs_fence_resp`. -/
def handleKvsFenceResp (rank : ℕ) (msg : TreeMsg) : FenceSys :=
  if msg.seq = toUInt (s.kvsSeq rank - 2) then s
  else if msg.seq ≠ toUInt (s.kvsSeq rank - 1) then
    { s.sendKvsFenceRespToClients step rank false with killed := true }
  else if s.waiting rank = false then s
  else
    { s with
      waiting := update s.waiting rank false
      kvs := update s.kvs rank (msg.pairs.foldl step.kvsPut (s.kvs rank)) }
      |>.sendKvsFenceRespToClients step rank true

/-- A task is in no fence when all that it has entered were answered. -/
def Free (task : ℕ × ℕ) : Prop := step.IsTask task ∧ s.entered task = (s.answers task).length
  deriving Decidable

def exec (s : FenceSys) : FenceOp → FenceSys
  | .put task pair =>
    if s.Free step task then
      { s.tempKvsAdd task.1 pair with puts := s.puts ++ [⟨task, s.entered task, pair⟩] }
    else s
  | .enter task =>
    if s.Free step task then
      { s with entered := update s.entered task (s.entered task + 1) }
        |>.taskKvsFence step task.1
    else s
  | .deliverFence rank i =>
    match (s.sent rank)[i]? with
    | none => s
    | some msg =>
      if 0 < rank ∧ rank < step.nnodes + 1 then
        { s with gotFence := (rank, i) :: s.gotFence }
          |>.handleKvsFence step (step.parent rank) rank msg
      else s
  | .deliverResp rank i =>
    match (s.sent 0)[i]? with
    | none => s
    | some msg =>
      if 0 < rank ∧ rank < step.nnodes + 1 then
        { s with gotResp := (rank, i) :: s.gotResp }.handleKvsFenceResp step rank msg
      else s

/-! ## What is right -/

/-- Answers are given once for each round, after all tasks have entered it, and then the pairs that
    any task has put before are stored at the node. -/
def AnswersRight : Prop :=
  ∀ task, step.IsTask task →
    (∀ ok ∈ s.answers task, ok = true) ∧
      (∀ other, step.IsTask other → (s.answers task).length ≤ s.entered other) ∧
      ∀ p ∈ s.puts, p.round < (s.answers task).length →
        p.pair ∈ s.kvs task.1 (step.bucket p.pair.1)

/-- When all messages were delivered, and all tasks have entered the same rounds, all are answered.
    -/
def AllAnswered : Prop :=
  (∀ rank, 0 < rank → rank < step.nnodes + 1 →
    (∀ i < (s.sent rank).length, (rank, i) ∈ s.gotFence) ∧
      ∀ i < (s.sent 0).length, (rank, i) ∈ s.gotResp) →
    ∀ rounds, (∀ task, step.IsTask task → s.entered task = rounds) →
      ∀ task, step.IsTask task → (s.answers task).length = rounds

/-- All programs run, and nothing was written behind a buffer. -/
def InBounds : Prop := ∀ rank, ∃ k, s.buf rank = some k ∧ k.InBounds

/-- There is room for `n` bytes in the buffer of a rank, if need be when it has grown by `inc`. Its
    size stays that of an `int`. -/
def HasRoom (rank inc n : ℕ) : Prop :=
  ∀ k ∈ s.buf rank, k.cnt + n ≤ k.size ∨ k.cnt + n ≤ k.size + inc ∧ k.size + inc < 2 ^ 31
  deriving Decidable

/-- What is asked of an operation: a key is put with one value, unless all pairs are kept; there is
    room for what is put and for what a message brings; and a message is not late. A message of
    `srun` may be one round late. -/
def OpOk (s : FenceSys) : FenceOp → Prop
  | .put task pair =>
    (step.noDupKeys = true ∨ ∀ p ∈ s.puts, p.pair.1 = pair.1 → p.pair = pair) ∧
      s.HasRoom task.1 TempKvs.sizeInc (pairsLength [pair])
  | .enter _ => True
  | .deliverFence rank i =>
    (s.sent (step.parent rank)).length < i + 2 ^ 32 ∧ ∀ msg ∈ (s.sent rank)[i]?,
      s.HasRoom (step.parent rank) (pairsLength msg.pairs) (pairsLength msg.pairs)
  | .deliverResp rank i => (s.sent rank).length ≤ i + 2

instance (op : FenceOp) : Decidable (s.OpOk step op) :=
  match op with
  | .put _ _ => inferInstanceAs (Decidable (_ ∧ _))
  | .enter _ => inferInstanceAs (Decidable True)
  | .deliverFence _ _ => inferInstanceAs (Decidable (_ ∧ _))
  | .deliverResp _ _ => inferInstanceAs (Decidable (_ ≤ _))

end FenceSys

end Slurm
