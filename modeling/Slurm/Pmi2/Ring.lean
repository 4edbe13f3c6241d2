import Slurm.Lib.CString
import Slurm.Lib.HeapTree

/-!
# The ring of PMIx

The processes of a step put a value each into a ring, and each gets its rank there and the values of
its neighbours. The nodes of the step form a tree, with a `slurmstepd` on each of them. A
`slurmstepd` gathers a message from each of its processes and from each of its children (`ringIn`):
the number of processes, and the values of the first and the last of them. When it has them all it
sends such a message to its parent. The root closes the ring instead, and messages go down the tree
again (`ringOut`): the rank of the first process below, the value to the left of it and the one to
the right of the last process.

The state of the system has the messages that are on their way. Each of them may arrive at any time
(`RingOp`). The values that the processes have put and the answers they got are kept in order, to
say what is right (`RingSys`).
-/

namespace Slurm

open CString Function

/-! ## The tree -/

/-- `pmix_stepd_width`: it is set by a variable of the environment, if this is two at least. -/
def pmixStepdWidth (ringTreeWidth : Option (List Char)) : ℤ :=
  match ringTreeWidth with
  | none => 16
  | some p => if 2 ≤ atoi p then atoi p else 16

/-- A step: its nodes, and the tasks on each of them. -/
structure RingStep where
  ringTreeWidth : Option (List Char)
  nnodes : ℕ
  ltasks : ℕ → ℕ
  nnodes_pos : 0 < nnodes
  ltasks_pos : ∀ rank < nnodes, 0 < ltasks rank

namespace RingStep

variable (step : RingStep) (rank : ℕ)

def width : ℤ := pmixStepdWidth step.ringTreeWidth

def ntasks : ℕ := ((List.range step.nnodes).map step.ltasks).sum

/-- `pmix_stepd_rank_parent`. -/
def rankParent : ℤ := if 0 < rank then ((rank : ℤ) - 1) / step.width else -1

/-- `pmix_stepd_rank_child`. -/
def rankChild (i : ℕ) : ℤ := toInt (rank * step.width + (i + 1))

/-- `pmix_stepd_children`. -/
def stepdChildren : ℤ :=
  let minChild := toInt (rank * step.width + 1)
  let maxChild := toInt (rank * step.width + step.width)
  let minChild := if (step.nnodes : ℤ) ≤ minChild then (step.nnodes : ℤ) else minChild
  let maxChild := if (step.nnodes : ℤ) ≤ maxChild then (step.nnodes : ℤ) - 1 else maxChild
  toInt (maxChild - minChild + 1)

/-- `pmix_ring_children`. -/
def ringChildren : ℤ := toInt (step.ltasks rank + step.stepdChildren rank)

/-- `pmix_ring_id_by_rank`. -/
def ringIdByRank (child : ℕ) : Option ℕ :=
  let minChild := toInt (rank * step.width + 1)
  let ringId := (child : ℤ) - minChild
  if minChild ≤ child ∧ ringId < step.stepdChildren rank then
    some (ringId + step.ltasks rank).toNat
  else none

end RingStep

/-! ## Messages -/

/-- `pmix_ring_msg`. -/
structure RingMsg (V : Type*) where
  count : ℤ := 0
  left : Option V := none
  right : Option V := none
deriving DecidableEq

/-- The state of a `slurmstepd`: the messages it has, and how many came in. -/
structure RingStepd (V : Type*) where
  msgs : ℕ → RingMsg V := fun _ => {}
  ringCount : ℤ := 0

/-- An operation: a task that waits for no answer puts a value; a message to the parent of a
    `slurmstepd` arrives, or one from it. Of the messages on the same way, any may be the next. -/
inductive RingOp (V : Type*) where
  | enter (rank lrank : ℕ) (value : V)
  | deliverUp (rank i : ℕ)
  | deliverDown (rank i : ℕ)

/-- The system: the `slurmstepd` of each rank, and the messages on the way to and from its parent;
    the values that each task has put, and the answers it has got. -/
structure RingSys (V : Type*) where
  stepd : ℕ → RingStepd V := fun _ => {}
  up : ℕ → List (RingMsg V) := fun _ => []
  down : ℕ → List (RingMsg V) := fun _ => []
  values : ℕ × ℕ → List V := fun _ => []
  answers : ℕ × ℕ → List (RingMsg V) := fun _ => []

section

variable {V : Type*}

/-- The first loop of `pmix_ring_out`: the count and the left value for each child. -/
def outForward : ℤ → Option V → List (RingMsg V) → List (ℤ × Option V)
  | _, _, [] => []
  | count, left, msg :: msgs =>
    (count, left) :: outForward (toInt (count + msg.count)) (msg.right.or left) msgs

/-- The second loop, backwards: the right value for each child, and the one before them. -/
def outBackward (right : Option V) : List (RingMsg V) → List (Option V) × Option V
  | [] => ([], right)
  | msg :: msgs =>
    let rest := outBackward right msgs
    (rest.2 :: rest.1, msg.left.or rest.2)

/-- `outmsgs`. -/
def outMsgs (count : ℤ) (left right : Option V) (msgs : List (RingMsg V)) : List (RingMsg V) :=
  List.zipWith (fun cl r => ⟨cl.1, cl.2, r⟩) (outForward count left msgs) (outBackward right msgs).1

namespace RingSys

variable (step : RingStep) (s : RingSys V)

/-- The messages of the children of a `slurmstepd`, in order. -/
def ringMsgs (rank : ℕ) : List (RingMsg V) :=
  (List.range (step.ringChildren rank).toNat).map (s.stepd rank).msgs

/-- The messages that `pmix_ring_out` sends to the children in the tree. -/
def sendDown (rank : ℕ) (outmsgs : List (RingMsg V)) : ℕ → List (RingMsg V) :=
  (List.range (step.stepdChildren rank).toNat).foldl (fun down i =>
    let child := (step.rankChild rank i).toNat
    update down child (down child ++ [outmsgs.getD (step.ltasks rank + i) {}])) s.down

/-- `pmix_ring_out`. -/
def ringOut (rank : ℕ) (count : ℤ) (left right : Option V) : RingSys V :=
  let outmsgs := outMsgs count left right (s.ringMsgs step rank)
  { s with
    down := s.sendDown step rank outmsgs
    answers := fun task =>
      if task.1 = rank ∧ task.2 < step.ltasks rank then
        s.answers task ++ [outmsgs.getD task.2 {}]
      else s.answers task
    stepd := update s.stepd rank {} }

/-- What `pmix_ring_in` records. -/
def record (rank ringId : ℕ) (msg : RingMsg V) : RingSys V :=
  { s with
    stepd := update s.stepd rank
      ⟨update (s.stepd rank).msgs ringId msg, toInt ((s.stepd rank).ringCount + 1)⟩ }

/-- What `pmix_ring_in` does when the messages of all children are there. -/
def complete (rank : ℕ) : RingSys V :=
  if (s.stepd rank).ringCount = step.ringChildren rank then
    let leftmost := ((s.stepd rank).msgs 0).left
    let rightmost := ((s.stepd rank).msgs (step.ringChildren rank - 1).toNat).right
    let sum := (s.ringMsgs step rank).foldl (fun sum msg => toUInt (sum + toUInt msg.count)) 0
    if 0 < rank then
      { s with up := update s.up rank (s.up rank ++ [⟨toInt sum, leftmost, rightmost⟩]) }
    else s.ringOut step rank 0 rightmost leftmost
  else s

/-- `pmix_ring_in`. -/
def ringIn (rank ringId : ℕ) (msg : RingMsg V) : RingSys V :=
  (s.record rank ringId msg).complete step rank

/-- A task is at rest when all it has put was answered. -/
def AtRest (task : ℕ × ℕ) : Prop := (s.values task).length = (s.answers task).length
  deriving Decidable

def exec (s : RingSys V) : RingOp V → RingSys V
  | .enter rank lrank value =>
    if rank < step.nnodes ∧ lrank < step.ltasks rank ∧ s.AtRest (rank, lrank) then
      { s with
        values := update s.values (rank, lrank) (s.values (rank, lrank) ++ [value]) }
        |>.ringIn step rank lrank ⟨1, some value, some value⟩
    else s
  | .deliverUp rank i =>
    match (s.up rank)[i]? with
    | none => s
    | some msg =>
      let s := { s with up := update s.up rank ((s.up rank).eraseIdx i) }
      let parent := (step.rankParent rank).toNat
      match step.ringIdByRank parent rank with
      | none => s
      | some ringId => s.ringIn step parent ringId msg
  | .deliverDown rank i =>
    match (s.down rank)[i]? with
    | none => s
    | some msg =>
      { s with down := update s.down rank ((s.down rank).eraseIdx i) }
        |>.ringOut step rank msg.count msg.left msg.right

end RingSys

/-! ## The order of the ring -/

namespace RingStep

variable (step : RingStep)

/-- The tasks on a node. -/
def nodeTasks (rank : ℕ) : List (ℕ × ℕ) := (List.range (step.ltasks rank)).map (rank, ·)

/-- The tasks below a node, its own first and then those below its children in order. -/
def tasks (rank : ℕ) : List (ℕ × ℕ) :=
  (HeapTree.preorder step.width.toNat step.nnodes rank).flatMap step.nodeTasks

/-- The tasks in the order of the ring. -/
def order : List (ℕ × ℕ) := step.tasks 0

end RingStep

namespace RingSys

variable (step : RingStep) (s : RingSys V)

/-- The value that a task has put in a round. -/
def value (round : ℕ) (task : ℕ × ℕ) : Option V := (s.values task)[round]?

/-- What the task at the place `i` of the ring should get: its rank, and what the tasks of the ranks
    before and after have put. -/
def neighbours (round i : ℕ) : RingMsg V :=
  let n := step.order.length
  { count := i
    left := (step.order[(i + n - 1) % n]?).bind (s.value round)
    right := (step.order[(i + 1) % n]?).bind (s.value round) }

/-- Each answer that a task has got, in whatever round, is right, and is given after all have put
    their values. -/
def AnswersRight : Prop :=
  ∀ i task, step.order[i]? = some task → ∀ round < (s.answers task).length,
    (s.answers task)[round]? = some (s.neighbours step round i) ∧
      ∀ other ∈ step.order, round < (s.values other).length

/-- When no message is on its way, and all tasks have put a value in the same rounds, all are
    answered. -/
def AllAnswered : Prop :=
  (∀ rank, s.up rank = [] ∧ s.down rank = []) →
    ∀ rounds, (∀ task ∈ step.order, (s.values task).length = rounds) →
      ∀ task ∈ step.order, (s.answers task).length = rounds

end RingSys

end

end Slurm
