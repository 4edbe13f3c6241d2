import Mathlib.Algebra.Order.Group.Int.Sum

/-!
# The locks of the controller

The data of the controller is of five types, and each has a lock that many may read under, or one may
write under. A thread asks for the locks that it needs in one call, always in the same order
(`lock_slurmctld`), or tries to get them and gives back what it has if one cannot be had at once
(`try_lock_slurmctld`). The counts of all locks are under one mutex, so that what a thread does
between getting and leaving the mutex is one step. A thread that has to wait leaves the mutex, and
sleeps until someone gives a lock back.

Who waits to write keeps others from reading: the writers that wait are counted too.
-/

namespace Slurm

open Function

/-! ## Requests -/

/-- `lock_datatype_t`. -/
inductive LockType
  | config
  | job
  | node
  | part
  | fed
deriving DecidableEq

/-- The order in which locks are asked for. -/
def LockType.index : LockType → ℕ
  | config => 0
  | job => 1
  | node => 2
  | part => 3
  | fed => 4

/-- `lock_level_t`. -/
inductive LockLevel
  | noLock
  | readLock
  | writeLock
deriving DecidableEq

/-- `slurmctld_lock_t`. -/
structure LockLevels where
  config : LockLevel := .noLock
  job : LockLevel := .noLock
  node : LockLevel := .noLock
  partition : LockLevel := .noLock
  federation : LockLevel := .noLock
deriving DecidableEq

/-- A lock to ask for, to write or to read. -/
@[ext]
structure LockRequest where
  type : LockType
  write : Bool
deriving DecidableEq

def LockLevel.request (type : LockType) : LockLevel → List LockRequest
  | noLock => []
  | readLock => [⟨type, false⟩]
  | writeLock => [⟨type, true⟩]

/-- What a call of `lock_slurmctld` asks for, one after the other. -/
def LockLevels.requests (levels : LockLevels) : List LockRequest :=
  levels.config.request .config ++ levels.job.request .job ++ levels.node.request .node ++
    levels.partition.request .part ++ levels.federation.request .fed

/-! ## Counts -/

/-- The counts of a type of data. -/
structure LockEntity where
  readLock : ℤ := 0
  writeLock : ℤ := 0
  writeWaitLock : ℤ := 0
  writeCntLock : ℤ := 0
deriving DecidableEq

namespace LockEntity

/-- One turn of the loop of `_wr_rdlock`. -/
def rdlock (e : LockEntity) : Option LockEntity :=
  if e.writeLock = 0 ∧ e.writeWaitLock = 0 then
    some { e with readLock := e.readLock + 1, writeCntLock := 0 }
  else none

/-- What `_wr_wrlock` does first. -/
def wrwait (e : LockEntity) : LockEntity := { e with writeWaitLock := e.writeWaitLock + 1 }

/-- One turn of the loop of `_wr_wrlock`. -/
def wrlock (e : LockEntity) : Option LockEntity :=
  if e.readLock = 0 ∧ e.writeLock = 0 then
    some
      { e with
        writeLock := e.writeLock + 1
        writeWaitLock := e.writeWaitLock - 1
        writeCntLock := e.writeCntLock + 1 }
  else none

/-- What `_wr_wrlock` does when it does not wait. -/
def wrfail (e : LockEntity) : LockEntity := { e with writeWaitLock := e.writeWaitLock - 1 }

/-- `_wr_rdunlock` and `_wr_wrunlock`. -/
def unlock (e : LockEntity) (write : Bool) : LockEntity :=
  if write then { e with writeLock := e.writeLock - 1 } else { e with readLock := e.readLock - 1 }

end LockEntity

/-! ## Threads -/

/-- What a thread does. It asks for locks, where it has got the first `k` of them, it may be counted
    among those that wait to write, and it may sleep. Or it gives locks back, and has the first `k`
    still. -/
inductive LockCall
  | out
  | asking (levels : LockLevels) (isTry : Bool) (k : ℕ) (counted asleep : Bool)
  | giving (levels : LockLevels) (k : ℕ)
deriving DecidableEq

/-- A thread: the locks of the calls that have returned, the last one first, and what it does. -/
structure LockThread where
  sections : List LockLevels := []
  call : LockCall := .out
deriving DecidableEq

/-- `slurm_cond_broadcast`: a thread that sleeps goes on. -/
def LockThread.wake (t : LockThread) : LockThread :=
  match t.call with
  | .asking levels isTry k counted _ => { t with call := .asking levels isTry k counted false }
  | _ => t

/-- The counts, and the threads. -/
structure LockSys (T : Type*) where
  entity : LockType → LockEntity := fun _ => {}
  threads : T → LockThread := fun _ => {}

/-- An operation: a thread calls a function, or goes on in a call; a thread wakes up for no reason. -/
inductive LockOp (T : Type*) where
  | lock (t : T) (levels : LockLevels)
  | tryLock (t : T) (levels : LockLevels)
  | unlock (t : T)
  | go (t : T)
  | wake (t : T)

namespace LockSys

variable {T : Type*} [DecidableEq T] (s : LockSys T)

/-- A thread is in another call. -/
def setCall (t : T) (call : LockCall) : LockSys T :=
  { s with threads := update s.threads t ⟨(s.threads t).sections, call⟩ }

def setEntity (d : LockType) (e : LockEntity) : LockSys T :=
  { s with entity := update s.entity d e }

/-- One turn of the loop of `_wr_rdlock`, with what `lock_slurmctld` and `try_lock_slurmctld` do
    next. -/
def stepRead (t : T) (levels : LockLevels) (isTry : Bool) (k : ℕ) (d : LockType) : LockSys T :=
  match (s.entity d).rdlock with
  | some e => (s.setEntity d e).setCall t (.asking levels isTry (k + 1) false false)
  | none =>
    if isTry then s.setCall t (.giving levels k)
    else s.setCall t (.asking levels isTry k false true)

/-- One turn of the loop of `_wr_wrlock`. The first of them has counted the thread. -/
def stepWrite (t : T) (levels : LockLevels) (isTry : Bool) (k : ℕ) (counted : Bool)
    (d : LockType) : LockSys T :=
  let e := if counted then s.entity d else (s.entity d).wrwait
  match e.wrlock with
  | some e => (s.setEntity d e).setCall t (.asking levels isTry (k + 1) false false)
  | none =>
    if isTry then (s.setEntity d e.wrfail).setCall t (.giving levels k)
    else (s.setEntity d e).setCall t (.asking levels isTry k true true)

/-- A lock is given back, and all threads that sleep wake up. -/
def stepGive (t : T) (levels : LockLevels) (k : ℕ) (r : LockRequest) : LockSys T :=
  let s := (s.setEntity r.type ((s.entity r.type).unlock r.write)).setCall t (.giving levels k)
  { s with threads := fun u => (s.threads u).wake }

/-- A thread goes on. -/
def go (t : T) : LockSys T :=
  match (s.threads t).call with
  | .out => s
  | .asking levels isTry k counted asleep =>
    if asleep then s
    else
      match levels.requests[k]? with
      | none =>
        { s with
          threads := update s.threads t
            ⟨levels :: (s.threads t).sections, .out⟩ }
      | some r =>
        if r.write then s.stepWrite t levels isTry k counted r.type
        else s.stepRead t levels isTry k r.type
  | .giving levels k =>
    match k with
    | 0 => s.setCall t .out
    | k + 1 =>
      match levels.requests[k]? with
      | none => s
      | some r => s.stepGive t levels k r

def exec (s : LockSys T) : LockOp T → LockSys T
  | .lock t levels =>
    if (s.threads t).call = .out then s.setCall t (.asking levels false 0 false false) else s
  | .tryLock t levels =>
    if (s.threads t).call = .out then s.setCall t (.asking levels true 0 false false) else s
  | .unlock t =>
    match (s.threads t).call, (s.threads t).sections with
    | .out, levels :: sections =>
      { s with
        threads := update s.threads t
          ⟨sections, .giving levels levels.requests.length⟩ }
    | _, _ => s
  | .go t => s.go t
  | .wake t => { s with threads := update s.threads t (s.threads t).wake }

end LockSys

/-! ## What threads hold and want -/

namespace LockThread

variable (t : LockThread)

/-- The locks that a thread has. -/
def holds : List LockRequest :=
  t.sections.flatMap LockLevels.requests ++
    match t.call with
    | .out => []
    | .asking levels _ k _ _ => levels.requests.take k
    | .giving levels k => levels.requests.take k

/-- The lock that a thread asks for. -/
def wants : Option LockRequest :=
  match t.call with
  | .asking levels _ k _ _ => levels.requests[k]?
  | _ => none

/-- The type of data that a thread is counted for, as one that waits to write. -/
def waitsFor : Option LockType :=
  match t.call with
  | .asking levels _ k true _ => (levels.requests[k]?).map LockRequest.type
  | _ => none

/-- A thread that has locks and asks for no more is in a critical section, until it has given all of
    them back. -/
def InSection : Prop := t.holds ≠ [] ∧ t.wants = none
  deriving Decidable

/-- A thread that is in no call and has no locks. -/
def Idle : Prop := t = {}
  deriving Decidable

end LockThread

namespace LockSys

variable {T : Type*} [DecidableEq T] (s : LockSys T)

/-- If a thread may write, no other has the lock. -/
def Exclusive : Prop :=
  ∀ d t, ⟨d, true⟩ ∈ (s.threads t).holds →
    (s.threads t).holds.count ⟨d, true⟩ = 1 ∧ ⟨d, false⟩ ∉ (s.threads t).holds ∧
      ∀ u ≠ t, ∀ write, ⟨d, write⟩ ∉ (s.threads u).holds

/-- A thread gets the lock that it asks for, as soon as it goes on. -/
def Proceeds (t : T) : Prop :=
  ∃ r, (s.threads t).wants = some r ∧ ((s.go t).threads t).holds = (s.threads t).holds ++ [r]

/-- If a thread waits and none is in a critical section, then there is a thread that waits and can
    proceed. -/
def DeadlockFree : Prop :=
  (∃ t r, (s.threads t).wants = some r) → (∀ t, ¬(s.threads t).InSection) →
    ∃ t, s.Proceeds t

section

variable [Fintype T]

/-- What the other threads add to the counts. -/
def othersCounts (t : T) (d : LockType) : ℤ × ℤ × ℤ :=
  (∑ u ∈ Finset.univ.erase t, ((s.threads u).holds.count ⟨d, false⟩ : ℤ),
    ∑ u ∈ Finset.univ.erase t, ((s.threads u).holds.count ⟨d, true⟩ : ℤ),
    ∑ u ∈ Finset.univ.erase t, if (s.threads u).waitsFor = some d then 1 else 0)

/-- The counts of a type, but for `write_cnt_lock`. -/
def counts (d : LockType) : ℤ × ℤ × ℤ :=
  ((s.entity d).readLock, (s.entity d).writeLock, (s.entity d).writeWaitLock)

end

/-- A thread asks for locks only if it has none. -/
def Flat (s : LockSys T) : LockOp T → Prop
  | .lock t _ => (s.threads t).sections = []
  | .tryLock t _ => (s.threads t).sections = []
  | _ => True

instance (s : LockSys T) : DecidablePred s.Flat
  | .lock t _ | .tryLock t _ => inferInstanceAs (Decidable ((s.threads t).sections = []))
  | .unlock _ | .go _ | .wake _ => .isTrue trivial

end LockSys

end Slurm
