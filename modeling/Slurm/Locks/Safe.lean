import Slurm.Lib.Run
import Slurm.Lib.Waiting
import Slurm.Locks

/-!
# The locks of the controller are safe

The counts of a lock are what all threads add to it: those that hold it to read, those that hold it
to write, and those that wait to write (`Books`). So no thread has a lock that another one may write
under, and a thread that is idle has changed nothing. A thread sleeps only while it is blocked
(`Sound`): whatever ends that wakes all threads up.

If no thread asks for locks while it has some from another call, each asks for what comes after all
that it has, in the order of the types. The one that asks for the last of them can get it, unless a
thread that has it is in a critical section (`locks_right`).
-/

namespace Slurm

open Function LockThread Option Finset List LockEntity Waiting LockRequest

/-! ## Threads -/

namespace LockEntity

/-- What is asked for cannot be had. -/
def Blocked (e : LockEntity) (write : Bool) : Prop :=
  if write then ¬(e.readLock = 0 ∧ e.writeLock = 0) else ¬(e.writeLock = 0 ∧ e.writeWaitLock = 0)

/-- There is one that writes, or none. -/
def Excl (e : LockEntity) : Prop := e.writeLock = 0 ∨ e.writeLock = 1 ∧ e.readLock = 0

end LockEntity

namespace LockThread

variable (t : LockThread)

def asleep : Bool :=
  match t.call with
  | .asking _ _ _ _ asleep => asleep
  | _ => false

/-- What holds of a thread by itself: one that tries is not counted, one that is counted asks to
    write, and one that sleeps waits for a lock. -/
def Shape : Prop :=
  match t.call with
  | .out => True
  | .asking levels isTry k counted asleep =>
    k ≤ levels.requests.length ∧
      (counted = true → isTry = false ∧ ∃ r, levels.requests[k]? = some r ∧ r.write = true) ∧
      (asleep = true → ∃ r, levels.requests[k]? = some r ∧ (r.write = true → counted = true))
  | .giving levels k => k ≤ levels.requests.length

/-- What a thread adds to the counts. -/
def reads (d : LockType) : ℤ := t.holds.count ⟨d, false⟩

def writes (d : LockType) : ℤ := t.holds.count ⟨d, true⟩

def waits (d : LockType) : ℤ := if t.waitsFor = some d then 1 else 0

variable {t} {levels : LockLevels} {r : LockRequest} {isTry counted asleep : Bool} {k : ℕ}

@[simp] theorem holds_wake : t.wake.holds = t.holds := by
  obtain ⟨_, _ | _ | _⟩ := t <;> rfl

@[simp] theorem waitsFor_wake : t.wake.waitsFor = t.waitsFor := by
  obtain ⟨_, _ | ⟨_, _, _, counted, _⟩ | _⟩ := t
  · rfl
  · cases counted <;> rfl
  · rfl

@[simp] theorem asleep_wake : t.wake.asleep = false := by
  obtain ⟨_, _ | _ | _⟩ := t <;> rfl

theorem Shape.wake (h : t.Shape) : t.wake.Shape := by
  obtain ⟨_, _ | _ | _⟩ := t
  · exact h
  · exact ⟨h.1, h.2.1, fun hfalse => by cases hfalse⟩
  · exact h

/-- A thread that has one lock more. -/
theorem holds_got (hcall : t.call = .asking levels isTry k counted asleep)
    (hr : levels.requests[k]? = some r) (counted' asleep' : Bool) :
    (⟨t.sections, .asking levels isTry (k + 1) counted' asleep'⟩ : LockThread).holds =
      t.holds ++ [r] := by
  simp only [holds, hcall, take_add_one, hr, toList_some, append_assoc]

/-- A thread that has given one lock back. -/
theorem holds_gave (hcall : t.call = .giving levels (k + 1)) (hr : levels.requests[k]? = some r) :
    t.holds = (⟨t.sections, .giving levels k⟩ : LockThread).holds ++ [r] := by
  simp only [holds, hcall, take_add_one, hr, toList_some, append_assoc]

section

variable {levels : LockLevels} {isTry counted asleep : Bool} {k : ℕ}
  (hcall : t.call = .asking levels isTry k counted asleep)

include hcall

theorem holds_giving :
    (⟨t.sections, .giving levels k⟩ : LockThread).holds = t.holds := by
  simp [holds, hcall]

theorem holds_asking (isTry' counted' asleep' : Bool) :
    (⟨t.sections, .asking levels isTry' k counted' asleep'⟩ : LockThread).holds = t.holds := by
  simp [holds, hcall]

end

theorem reads_congr {x : LockThread} (h : x.holds.Perm t.holds) (d : LockType) :
    x.reads d = t.reads d := congrArg Nat.cast (h.count_eq _)

theorem writes_congr {x : LockThread} (h : x.holds.Perm t.holds) (d : LockType) :
    x.writes d = t.writes d := congrArg Nat.cast (h.count_eq _)

section

variable {x : LockThread} {r : LockRequest} (h : x.holds = t.holds ++ [r]) (d : LockType)

include h d

theorem count_append (write : Bool) : (x.holds.count ⟨d, write⟩ : ℤ) =
      t.holds.count ⟨d, write⟩ + if d = r.type then if r.write = write then 1 else 0 else 0 := by
  simp only [h, List.count_append, List.count_singleton, beq_iff_eq, LockRequest.ext_iff, ← ite_and,
    eq_comm (a := d)]
  split_ifs <;> simp

theorem reads_append : x.reads d = t.reads d +
      if d = r.type then if r.write = true then 0 else 1 else 0 := by
  rw [reads, count_append h, reads]
  cases r.write <;> simp

theorem writes_append : x.writes d = t.writes d +
      if d = r.type then if r.write = true then 1 else 0 else 0 := count_append h d true

end

theorem waits_asking (hcall : t.call = .asking levels isTry k counted asleep)
    (hr : levels.requests[k]? = some r) (d : LockType) :
    t.waits d = if d = r.type then if counted = true then 1 else 0 else 0 := by
  rw [waits, waitsFor, hcall]
  cases counted
  · simp
  · simp [hr, eq_comm]

theorem reads_nonneg (d : LockType) : 0 ≤ t.reads d := Int.natCast_nonneg _

theorem writes_nonneg (d : LockType) : 0 ≤ t.writes d := Int.natCast_nonneg _

end LockThread

namespace LockSys

variable {x : LockThread} {entity : LockType → LockEntity} {e : LockEntity} {d : LockType}
  {levels : LockLevels} {isTry counted : Bool} {k : ℕ}

/-! ## The invariant -/

section

variable {T : Type*} {s : LockSys T} {t : T}

variable (s) in
/-- Threads sleep only while they are blocked. -/
def Sound : Prop :=
  ∀ t, (s.threads t).asleep = true → ∀ r ∈ (s.threads t).wants, (s.entity r.type).Blocked r.write

theorem count_set {f : LockEntity → ℤ} {g g' : LockType → ℤ}
    (h : ∀ d', g' d' = g d' + if d' = d then f e - f (s.entity d) else 0) (d' : LockType) :
    f (update s.entity d e d') = f (s.entity d') - g d' + g' d' := by
  rw [h]
  by_cases hd : d' = d
  · subst hd
    rw [update_self, if_pos rfl]
    omega
  · rw [update_of_ne hd, if_neg hd]
    omega

theorem setEntity_eq (hd : e = s.entity d) : s.setEntity d e = s := by
  rw [setEntity, hd, update_eq_self]

variable [DecidableEq T]

theorem Sound.update (h : s.Sound)
    (hblocked : ∀ d write, (s.entity d).Blocked write → (entity d).Blocked write)
    (hx : x.asleep = true → ∀ r ∈ x.wants, (entity r.type).Blocked r.write) :
    (⟨entity, update s.threads t x⟩ : LockSys T).Sound := by
  intro u hu r hr
  dsimp only at hu hr ⊢
  by_cases hut : u = t
  · subst hut
    rw [update_self] at hu hr
    exact hx hu r hr
  · rw [update_of_ne hut] at hu hr
    exact hblocked _ _ (h u hu r hr)

theorem Sound.set (h : s.Sound) (hblocked : ∀ write, (s.entity d).Blocked write → e.Blocked write)
    (hx : x.asleep = true → ∀ r ∈ x.wants, r.type = d ∧ e.Blocked r.write) :
    (⟨Function.update s.entity d e, Function.update s.threads t x⟩ : LockSys T).Sound := by
  refine h.update (fun d' write hd' => ?_) fun hasleep r hr => ?_
  · by_cases hd : d' = d
    · subst hd
      rw [update_self]
      exact hblocked write hd'
    · rwa [update_of_ne hd]
  · obtain ⟨rfl, hr⟩ := hx hasleep r hr
    rwa [update_self]

end

variable {T : Type*} [Fintype T] {s : LockSys T} {t : T}

variable (s) in
/-- The counts are what the threads add to them. -/
structure Books : Prop where
  read : ∀ d, (s.entity d).readLock = ∑ t, (s.threads t).reads d
  write : ∀ d, (s.entity d).writeLock = ∑ t, (s.threads t).writes d
  wait : ∀ d, (s.entity d).writeWaitLock = ∑ t, (s.threads t).waits d
  excl : ∀ d, (s.entity d).Excl
  shape : ∀ t, (s.threads t).Shape

variable (s) in
def Inv : Prop := s.Books ∧ s.Sound

theorem Books.wakeAll (h : s.Books) :
    ({ s with threads := fun t => (s.threads t).wake } : LockSys T).Books where
  read d := by simpa [reads] using h.read d
  write d := by simpa [writes] using h.write d
  wait d := by simpa [waits] using h.wait d
  excl := h.excl
  shape t := (h.shape t).wake

/-- One that asks to read is not counted. -/
theorem Books.not_counted (h : s.Books)
    (hcall : (s.threads t).call = .asking levels isTry k counted false)
    (hr : levels.requests[k]? = some ⟨d, false⟩) : counted = false := by
  have hshape := h.shape t
  rw [LockThread.Shape, hcall] at hshape
  by_contra hcounted
  rw [Bool.not_eq_false] at hcounted
  obtain ⟨-, r, hr', hwrite⟩ := hshape.2.1 hcounted
  rw [hr] at hr'
  cases hr'
  cases hwrite

theorem Books.readLock_nonneg (h : s.Books) (d : LockType) : 0 ≤ (s.entity d).readLock := by
  rw [h.read]
  exact sum_nonneg fun u _ => reads_nonneg d

theorem Books.reads_le (h : s.Books) (t : T) (d : LockType) :
    (s.threads t).reads d ≤ (s.entity d).readLock := by
  rw [h.read]
  exact le_sum (fun u => reads_nonneg d) t

theorem Books.writes_le (h : s.Books) (t : T) (d : LockType) :
    (s.threads t).writes d ≤ (s.entity d).writeLock := by
  rw [h.write]
  exact le_sum (fun u => writes_nonneg d) t

theorem Books.writeWaitLock_nonneg (h : s.Books) (d : LockType) :
    0 ≤ (s.entity d).writeWaitLock := by
  rw [h.wait]
  refine sum_nonneg fun u _ => ?_
  rw [waits]
  split_ifs <;> decide

theorem Books.entity_free (h : s.Books) {d : LockType}
    (hfree : ∀ u, ∀ q ∈ (s.threads u).holds, q.type ≠ d) :
    (s.entity d).readLock = 0 ∧ (s.entity d).writeLock = 0 := by
  rw [h.read, h.write]
  have hcount : ∀ u write, (s.threads u).holds.count ⟨d, write⟩ = 0 := fun u write =>
    count_eq_zero.2 fun hmem => hfree u _ hmem rfl
  exact ⟨sum_eq_zero fun u _ => by rw [reads, hcount]; rfl,
    sum_eq_zero fun u _ => by rw [writes, hcount]; rfl⟩

theorem inv_init : ({} : LockSys T).Inv := by
  refine ⟨⟨fun d => ?_, fun d => ?_, fun d => ?_, fun _ => .inl rfl, fun _ => trivial⟩, nofun⟩
  · simp [reads, holds]
  · simp [writes, holds]
  · simp [waits, waitsFor]

variable [DecidableEq T]

/-- A thread goes on, and the counts change as its part in them does. -/
theorem Books.update (h : s.Books)
    (hread : ∀ d, (entity d).readLock = (s.entity d).readLock - (s.threads t).reads d + x.reads d)
    (hwrite : ∀ d, (entity d).writeLock =
      (s.entity d).writeLock - (s.threads t).writes d + x.writes d)
    (hwait : ∀ d, (entity d).writeWaitLock =
      (s.entity d).writeWaitLock - (s.threads t).waits d + x.waits d)
    (hexcl : ∀ d, (entity d).Excl) (hx : x.Shape) :
    (⟨entity, update s.threads t x⟩ : LockSys T).Books where
  read d := by
    rw [hread, h.read]
    exact (sum_update (fun th : LockThread => th.reads d) s.threads t x).symm
  write d := by
    rw [hwrite, h.write]
    exact (sum_update (fun th : LockThread => th.writes d) s.threads t x).symm
  wait d := by
    rw [hwait, h.wait]
    exact (sum_update (fun th : LockThread => th.waits d) s.threads t x).symm
  excl := hexcl
  shape u := by
    by_cases hu : u = t
    · subst hu
      simpa using hx
    · simpa [hu] using h.shape u

/-- The same, where only the counts of one type change. -/
theorem Books.set (h : s.Books) (hread : ∀ d', x.reads d' = (s.threads t).reads d' +
      if d' = d then e.readLock - (s.entity d).readLock else 0)
    (hwrite : ∀ d', x.writes d' = (s.threads t).writes d' +
      if d' = d then e.writeLock - (s.entity d).writeLock else 0)
    (hwait : ∀ d', x.waits d' = (s.threads t).waits d' +
      if d' = d then e.writeWaitLock - (s.entity d).writeWaitLock else 0)
    (hexcl : e.Excl) (hx : x.Shape) :
    (⟨Function.update s.entity d e, Function.update s.threads t x⟩ : LockSys T).Books := by
  refine h.update (count_set hread) (count_set hwrite) (count_set hwait) (fun d' => ?_) hx
  by_cases hd : d' = d
  · subst hd
    rwa [update_self]
  · rw [update_of_ne hd]
    exact h.excl d'

/-! ## Steps -/

/-- A thread goes on, and the counts stay. -/
theorem Inv.update_same (h : s.Inv) {x : LockThread} (hholds : x.holds.Perm (s.threads t).holds)
    (hwaits : x.waitsFor = (s.threads t).waitsFor) (hx : x.Shape)
    (hasleep : x.asleep = true → ∀ r ∈ x.wants, (s.entity r.type).Blocked r.write) :
    (⟨s.entity, update s.threads t x⟩ : LockSys T).Inv := by
  refine ⟨h.1.update ?_ ?_ ?_ h.1.excl hx, h.2.update (fun _ _ hblocked => hblocked) hasleep⟩
  · intro d
    rw [reads_congr hholds, Int.sub_add_cancel]
  · intro d
    rw [writes_congr hholds, Int.sub_add_cancel]
  · intro d
    rw [waits, waits, hwaits, Int.sub_add_cancel]

/-- A thread gets the lock that it asks for. -/
theorem Inv.grant (h : s.Inv) (hcall : (s.threads t).call = .asking levels isTry k counted false)
    {r : LockRequest} (hr : levels.requests[k]? = some r)
    (hread : e.readLock = (s.entity r.type).readLock + if r.write = true then 0 else 1)
    (hwrite : e.writeLock = (s.entity r.type).writeLock + if r.write = true then 1 else 0)
    (hwait : e.writeWaitLock = (s.entity r.type).writeWaitLock - if counted = true then 1 else 0)
    (hexcl : e.Excl) (hblocked : ∀ write, (s.entity r.type).Blocked write → e.Blocked write) :
    ((s.setEntity r.type e).setCall t (.asking levels isTry (k + 1) false false)).Inv := by
  have hholds := holds_got hcall hr false false
  have hwaits : ∀ d, (⟨(s.threads t).sections, .asking levels isTry (k + 1) false false⟩ :
    LockThread).waits d = 0 := fun _ => rfl
  refine ⟨h.1.set (x := ⟨(s.threads t).sections, .asking levels isTry (k + 1) false false⟩)
    (fun d => ?_) (fun d => ?_) (fun d => ?_) hexcl
    ⟨(List.getElem?_eq_some_iff.1 hr).1, nofun, nofun⟩, h.2.set hblocked nofun⟩
  · rw [reads_append hholds, hread, add_sub_cancel_left]
  · rw [writes_append hholds, hwrite, add_sub_cancel_left]
  · rw [hwaits, waits_asking hcall hr, hwait]
    split_ifs <;> omega

theorem Inv.stepRead (h : s.Inv) (hcall : (s.threads t).call = .asking levels isTry k counted false)
    (hr : levels.requests[k]? = some ⟨d, false⟩) : (s.stepRead t levels isTry k d).Inv := by
  obtain rfl := h.1.not_counted hcall hr
  have hlt := (List.getElem?_eq_some_iff.1 hr).1
  have hnonneg := h.1.readLock_nonneg d
  rw [LockSys.stepRead, rdlock]
  by_cases hfree : (s.entity d).writeLock = 0 ∧ (s.entity d).writeWaitLock = 0
  · rw [if_pos hfree]
    refine h.grant hcall hr rfl (Int.add_zero _).symm (Int.sub_zero _).symm (.inl hfree.1) ?_
    intro write hblocked
    rw [LockEntity.Blocked] at hblocked ⊢
    split_ifs at hblocked ⊢
    · dsimp only
      omega
    · exact hblocked
  · have hwaits : (s.threads t).waitsFor = none := by rw [waitsFor, hcall]
    split_ifs with htry
    · exact h.update_same (.of_eq (holds_giving hcall)) hwaits.symm hlt.le nofun
    · refine h.update_same (.of_eq (holds_asking hcall _ _ _)) hwaits.symm
        ⟨hlt.le, nofun, fun _ => ⟨_, hr, nofun⟩⟩ ?_
      intro _ r hr'
      obtain rfl := some.inj (hr.symm.trans hr')
      exact hfree

/-- A thread is counted among those that wait to write, and sleeps. -/
theorem Inv.enqueue (h : s.Inv) (hcall : (s.threads t).call = .asking levels false k false false)
    (hr : levels.requests[k]? = some ⟨d, true⟩) (hblocked : (s.entity d).Blocked true) :
    ((s.setEntity d (s.entity d).wrwait).setCall t (.asking levels false k true true)).Inv := by
  have hlt := (List.getElem?_eq_some_iff.1 hr).1
  have hholds := holds_asking hcall false true true
  have hnonneg := h.1.writeWaitLock_nonneg d
  refine ⟨h.1.set (x := ⟨(s.threads t).sections, .asking levels false k true true⟩)
    (fun d' => ?_) (fun d' => ?_) (fun d' => ?_) (h.1.excl d)
    ⟨hlt.le, fun _ => ⟨rfl, _, hr, rfl⟩, fun _ => ⟨_, hr, fun _ => rfl⟩⟩,
    h.2.set (fun write hwrite => ?_) fun _ r hr' => ?_⟩
  · rw [reads_congr (.of_eq hholds)]
    simp [wrwait]
  · rw [writes_congr (.of_eq hholds)]
    simp [wrwait]
  · rw [waits_asking hcall hr, waits_asking rfl hr]
    simp [wrwait]
  · rw [LockEntity.Blocked] at hwrite ⊢
    split_ifs at hwrite ⊢
    · exact hwrite
    · dsimp only [wrwait]
      omega
  · obtain rfl := some.inj (hr.symm.trans hr')
    exact ⟨rfl, hblocked⟩

theorem Inv.stepWrite (h : s.Inv)
    (hcall : (s.threads t).call = .asking levels isTry k counted false)
    (hr : levels.requests[k]? = some ⟨d, true⟩) :
    (s.stepWrite t levels isTry k counted d).Inv := by
  have hlt := (List.getElem?_eq_some_iff.1 hr).1
  have hread : (if counted then s.entity d else (s.entity d).wrwait).readLock =
      (s.entity d).readLock := by cases counted <;> rfl
  have hwrite : (if counted then s.entity d else (s.entity d).wrwait).writeLock =
      (s.entity d).writeLock := by cases counted <;> rfl
  rw [LockSys.stepWrite, wrlock, hread, hwrite]
  by_cases hfree : (s.entity d).readLock = 0 ∧ (s.entity d).writeLock = 0
  · rw [if_pos hfree]
    refine h.grant hcall hr (Int.add_zero _).symm rfl ?_ (.inr ⟨?_, hfree.1⟩) ?_
    · cases counted
      · exact (Int.add_sub_cancel _ _).trans (Int.sub_zero _).symm
      · rfl
    · rw [hfree.2, Int.zero_add]
    · intro write _
      rw [LockEntity.Blocked]
      split_ifs <;> dsimp only <;> omega
  · rw [if_neg hfree]
    have hshape := h.1.shape t
    rw [LockThread.Shape, hcall] at hshape
    cases isTry with
    | true =>
      -- One that tries was not counted before, and is not any more.
      cases counted with
      | true => cases (hshape.2.1 rfl).1
      | false =>
        have hsame : s.setEntity d (s.entity d).wrwait.wrfail = s := by
          refine setEntity_eq ?_
          simp [wrwait, wrfail]
        have hwaits : (s.threads t).waitsFor = none := by rw [waitsFor, hcall]
        simp only [Bool.false_eq_true, if_false, if_true, hsame]
        exact h.update_same (.of_eq (holds_giving hcall)) hwaits.symm hlt.le nofun
    | false =>
      cases counted with
      | true =>
        have hwaits : (s.threads t).waitsFor = some d := by
          rw [waitsFor, hcall]
          simp [hr]
        simp only [Bool.false_eq_true, if_false, if_true, setEntity_eq]
        refine h.update_same (.of_eq (holds_asking hcall _ _ _)) ?_
          ⟨hlt.le, hshape.2.1, fun _ => ⟨_, hr, fun _ => rfl⟩⟩ ?_
        · rw [hwaits, waitsFor]
          simp [hr]
        · intro _ r hr'
          obtain rfl := some.inj (hr.symm.trans hr')
          exact hfree
      | false =>
        exact h.enqueue hcall hr hfree

theorem Inv.stepGive (h : s.Inv) (hcall : (s.threads t).call = .giving levels (k + 1))
    {r : LockRequest} (hr : levels.requests[k]? = some r) : (s.stepGive t levels k r).Inv := by
  have hholds := holds_gave hcall hr
  have hreads := reads_append hholds
  have hwrites := writes_append hholds
  have hwaits : ∀ d, (s.threads t).waits d = 0 := fun d => by
    rw [waits, waitsFor, hcall]
    rfl
  refine ⟨(h.1.set (x := ⟨(s.threads t).sections, .giving levels k⟩) (fun d => ?_) (fun d => ?_)
    (fun d => ?_) ?_ (List.getElem?_eq_some_iff.1 hr).1.le).wakeAll, fun _ ht =>
      nomatch asleep_wake.symm.trans ht⟩
  · rw [hreads, unlock]
    cases r.write <;> simp only [Bool.false_eq_true, if_true, if_false] <;> split_ifs <;> omega
  · rw [hwrites, unlock]
    cases r.write <;> simp only [Bool.false_eq_true, if_true, if_false] <;> split_ifs <;> omega
  · rw [hwaits, unlock]
    cases r.write <;> simp [waits, waitsFor]
  · -- The thread had the lock, so it is counted.
    have hexcl := h.1.excl r.type
    have hread := h.1.reads_le t r.type
    have hwrite := h.1.writes_le t r.type
    have hread' : 0 ≤ (⟨(s.threads t).sections, .giving levels k⟩ : LockThread).reads r.type :=
      reads_nonneg _
    have hwrite' : 0 ≤ (⟨(s.threads t).sections, .giving levels k⟩ : LockThread).writes r.type :=
      writes_nonneg _
    rw [hreads, if_pos rfl] at hread
    rw [hwrites, if_pos rfl] at hwrite
    rw [LockEntity.Excl] at hexcl
    cases hw : r.write with
    | false =>
      simp only [hw, Bool.false_eq_true, if_false] at hread ⊢
      exact .inl (by omega : (s.entity r.type).writeLock = 0)
    | true =>
      simp only [hw, if_true] at hwrite ⊢
      exact .inl (by omega : (s.entity r.type).writeLock - 1 = 0)

theorem Inv.go (h : s.Inv) (t : T) : (s.go t).Inv := by
  rw [LockSys.go]
  cases hcall : (s.threads t).call with
  | out => exact h
  | asking levels isTry k counted asleep =>
    cases asleep with
    | true => exact h
    | false =>
      dsimp only
      cases hr : levels.requests[k]? with
      | none =>
        -- All locks are there, and the call returns.
        have hall : levels.requests.take k = levels.requests :=
          take_of_length_le (getElem?_eq_none_iff.1 hr)
        refine h.update_same ?_ ?_ trivial nofun
        · simp only [holds, hcall, hall, flatMap_cons, append_nil]
          exact perm_append_comm
        · rw [waitsFor, waitsFor, hcall]
          cases counted with
          | false => rfl
          | true => simp [hr]
      | some r =>
        obtain ⟨d, write⟩ := r
        cases write with
        | true => exact h.stepWrite hcall hr
        | false => exact h.stepRead hcall hr
  | giving levels k =>
    cases k with
    | zero =>
      refine h.update_same (.of_eq ?_) ?_ trivial nofun
      · simp [holds, hcall]
      · rw [waitsFor, waitsFor, hcall]
    | succ k =>
      dsimp only
      cases hr : levels.requests[k]? with
      | none => exact h
      | some r => exact h.stepGive hcall hr

theorem Inv.exec (h : s.Inv) (op : LockOp T) : (exec s op).Inv := by
  have hask (t : T) (levels : LockLevels) (isTry : Bool) :
      (if (s.threads t).call = .out then s.setCall t (.asking levels isTry 0 false false)
        else s).Inv := by
    split_ifs with hcall
    · exact h.update_same (.of_eq (by simp [holds, hcall]))
        (by rw [waitsFor, waitsFor, hcall]) ⟨Nat.zero_le _, nofun, nofun⟩ nofun
    · exact h
  cases op with
  | lock t levels => exact hask t levels false
  | tryLock t levels => exact hask t levels true
  | unlock t =>
    rw [LockSys.exec]
    split
    · rename_i levels sections hcall hsections
      refine h.update_same ?_ ?_ le_rfl nofun
      · simp only [holds, hcall, hsections, take_length, flatMap_cons, append_nil]
        exact perm_append_comm
      · rw [waitsFor, waitsFor, hcall]
    · exact h
  | go t => exact h.go t
  | wake t =>
    refine h.update_same (.of_eq holds_wake) waitsFor_wake (h.1.shape t).wake fun hasleep => ?_
    rw [asleep_wake] at hasleep
    cases hasleep

theorem inv_run (ops : List (LockOp T)) : (Run.run LockSys.exec ({} : LockSys T) ops).Inv :=
  Run.invariant_run (fun _ op h _ => h.exec op) inv_init (Run.admissible_true _ ops)

/-! ## Exclusion -/

theorem Books.exclusive (h : s.Books) : s.Exclusive := by
  intro d t ht
  have hexcl := h.excl d
  have hpos : 1 ≤ (s.threads t).writes d := by
    have hcount := count_pos_iff.2 ht
    rw [writes]
    omega
  have hwrites := h.writes_le t d
  rw [LockEntity.Excl] at hexcl
  -- No thread is among those that read.
  have hreads : ∀ u, ⟨d, false⟩ ∉ (s.threads u).holds := by
    intro u hu
    have hcount := count_pos_iff.2 hu
    have hle := h.reads_le u d
    rw [reads] at hle
    omega
  refine ⟨?_, hreads t, ?_⟩
  · rw [writes] at hpos hwrites
    omega
  · rintro u hu (_ | _) hmem
    · exact hreads u hmem
    · have hcount := count_pos_iff.2 hmem
      have hle := add_le_sum (fun v => writes_nonneg (t := s.threads v) d) hu
      rw [← h.write] at hle
      have hu1 : 1 ≤ (s.threads u).writes d := by
        rw [writes]
        omega
      omega

/-- A thread that is idle adds nothing to the counts. -/
theorem Books.counts_idle (h : s.Books) (hidle : (s.threads t).Idle) (d : LockType) :
    s.counts d = s.othersCounts t d := by
  rw [LockThread.Idle] at hidle
  have hsplit := fun f : LockThread → ℤ =>
    (add_sum_erase Finset.univ (fun u => f (s.threads u)) (mem_univ t)).symm
  have hreads := hsplit fun th => th.reads d
  have hwrites := hsplit fun th => th.writes d
  have hwaits := hsplit fun th => th.waits d
  simp only [hidle] at hreads hwrites hwaits
  rw [counts, othersCounts, h.read, h.write, h.wait, hreads, hwrites, hwaits]
  simp [reads, writes, waits, holds, waitsFor]

end LockSys

/-! ## The order of locks -/

theorem LockLevel.request_sublist (level : LockLevel) (d : LockType) :
    ((level.request d).map LockRequest.type).Sublist [d] := by
  cases level
  · exact nil_sublist _
  · exact List.Sublist.refl _
  · exact List.Sublist.refl _

theorem LockLevels.requests_sorted (levels : LockLevels) :
    levels.requests.Pairwise fun a b => a.type.index < b.type.index := by
  have hsub : (levels.requests.map type).Sublist
      ([.config] ++ [.job] ++ [.node] ++ [.part] ++ [.fed]) := by
    simp only [LockLevels.requests, map_append]
    exact ((((levels.config.request_sublist _).append (levels.job.request_sublist _)).append
      (levels.node.request_sublist _)).append (levels.partition.request_sublist _)).append
      (levels.federation.request_sublist _)
  have hall : ([.config] ++ [.job] ++ [.node] ++ [.part] ++ [.fed] : List LockType).Pairwise
      fun a b => a.index < b.index := by decide
  have hmap := hall.sublist hsub
  rwa [pairwise_map] at hmap

namespace LockThread

variable {t : LockThread}

theorem wants_eq_some {r : LockRequest} (h : t.wants = some r) :
    ∃ levels isTry k counted asleep, t.call = .asking levels isTry k counted asleep ∧
      levels.requests[k]? = some r := by
  rw [wants] at h
  split at h
  · rename_i levels isTry k counted asleep hcall
    exact ⟨levels, isTry, k, counted, asleep, hcall, h⟩
  · cases h

/-- A thread that is counted asks to write. -/
theorem wants_of_waitsFor (hshape : t.Shape) {d : LockType} (h : t.waitsFor = some d) :
    ∃ r, t.wants = some r ∧ r.type = d ∧ r.write = true := by
  rw [waitsFor] at h
  split at h
  · rename_i levels isTry k asleep hcall
    obtain ⟨r, hr, rfl⟩ := map_eq_some_iff.1 h
    rw [Shape, hcall] at hshape
    obtain ⟨-, r', hr', hwrite⟩ := hshape.2.1 rfl
    obtain rfl := some.inj (hr.symm.trans hr')
    refine ⟨r, ?_, rfl, hwrite⟩
    rw [wants, hcall]
    exact hr
  · cases h

/-- A thread in no call but this one asks for what comes after all it has. -/
theorem index_lt_of_wants (hsections : t.sections = []) {r : LockRequest} (hr : t.wants = some r)
    {q : LockRequest} (hq : q ∈ t.holds) : q.type.index < r.type.index := by
  obtain ⟨levels, isTry, k, counted, asleep, hcall, hr⟩ := wants_eq_some hr
  rw [holds, hsections, hcall, flatMap_nil, nil_append] at hq
  obtain ⟨hk, rfl⟩ := List.getElem?_eq_some_iff.1 hr
  obtain ⟨i, hi, rfl⟩ := mem_iff_getElem.1 hq
  rw [length_take] at hi
  rw [getElem_take]
  exact pairwise_iff_getElem.1 levels.requests_sorted i k (by omega) hk (by omega)

variable (t) in
/-- A thread is in one call at most. -/
def FlatOk : Prop := t.sections = [] ∨ t.call = .out ∧ ∃ levels, t.sections = [levels]

variable (t) in
/-- The locks of all calls of a thread, those of the call that it is in first. -/
def stack : List LockLevels :=
  match t.call with
  | .out => t.sections
  | .asking levels _ _ _ _ => levels :: t.sections
  | .giving levels _ => levels :: t.sections

@[simp] theorem stack_wake : t.wake.stack = t.stack := by
  obtain ⟨_, _ | _ | _⟩ := t <;> rfl

theorem flatOk_iff : t.FlatOk ↔ t.stack.length ≤ 1 := by
  obtain ⟨sections, _ | _ | _⟩ := t
  · rcases sections with _ | ⟨levels, _ | _⟩ <;> simp [FlatOk, stack]
  · simp [FlatOk, stack]
  · simp [FlatOk, stack]

end LockThread

namespace LockSys

variable {T : Type*} [DecidableEq T] {s : LockSys T} {P : T → List LockLevels → Prop}

theorem stack_update (h : ∀ t, P t (s.threads t).stack) {t : T} {x : LockThread} (hx : P t x.stack)
    (u : T) : P u (update s.threads t x u).stack := by
  by_cases hu : u = t
  · subst hu
    rwa [update_self]
  · rw [update_of_ne hu]
    exact h u

/-- What holds of the calls of a thread, and of fewer of them, holds when it goes on. -/
theorem stack_go (htail : ∀ t l ls, P t (l :: ls) → P t ls) (h : ∀ t, P t (s.threads t).stack)
    (t u : T) : P u ((s.go t).threads u).stack := by
  have ht := h t
  rw [go]
  cases hcall : (s.threads t).call with
  | out => exact h u
  | asking levels isTry k counted asleep =>
    rw [stack, hcall] at ht
    have hset (d : LockType) (e : LockEntity) (call : LockCall)
        (hx : (⟨(s.threads t).sections, call⟩ : LockThread).stack = levels :: (s.threads t).sections) :
        P u (((s.setEntity d e).setCall t call).threads u).stack :=
      stack_update h (x := ⟨(s.threads t).sections, call⟩) (by rwa [hx]) u
    cases asleep with
    | true => exact h u
    | false =>
      dsimp only
      cases levels.requests[k]? with
      | none => exact stack_update h ht u
      | some r =>
        simp only [Bool.false_eq_true, if_false]
        split_ifs
        · rw [stepWrite]
          split
          · exact hset _ _ _ rfl
          · split_ifs <;> exact hset _ _ _ rfl
        · rw [stepRead]
          split
          · exact hset _ _ _ rfl
          · split_ifs <;> exact stack_update h ht u
  | giving levels k =>
    rw [stack, hcall] at ht
    cases k with
    | zero =>
      exact stack_update h (htail t _ _ ht) u
    | succ k =>
      dsimp only
      cases levels.requests[k]? with
      | none => exact h u
      | some r =>
        have hgive := stack_update h (x := ⟨(s.threads t).sections, .giving levels k⟩) ht u
        rwa [← stack_wake] at hgive

theorem stack_exec (htail : ∀ t l ls, P t (l :: ls) → P t ls) (h : ∀ t, P t (s.threads t).stack)
    {op : LockOp T} (hop : ∀ t levels, op = .lock t levels ∨ op = .tryLock t levels →
      P t (levels :: (s.threads t).sections)) (u : T) :
    P u ((exec s op).threads u).stack := by
  have hask (t : T) (levels : LockLevels) (isTry : Bool)
      (hx : P t (levels :: (s.threads t).sections)) :
      P u ((if (s.threads t).call = .out then s.setCall t (.asking levels isTry 0 false false)
        else s).threads u).stack := by
    split_ifs
    · exact stack_update h hx u
    · exact h u
  cases op with
  | lock t levels => exact hask t levels false (hop t levels (.inl rfl))
  | tryLock t levels => exact hask t levels true (hop t levels (.inr rfl))
  | unlock t =>
    have ht := h t
    rw [exec]
    split
    · rename_i levels sections hcall hsections
      rw [stack, hcall, hsections] at ht
      exact stack_update h ht u
    · exact h u
  | go t => exact stack_go htail h t u
  | wake t => exact stack_update h (by rw [stack_wake]; exact h t) u

/-! ## Progress -/

variable {r : LockRequest} {t : T}

/-- What is not blocked can be had. -/
theorem proceeds_of_not_blocked (hasleep : (s.threads t).asleep = false)
    (hr : (s.threads t).wants = some r) (hfree : ¬(s.entity r.type).Blocked r.write) :
    s.Proceeds t := by
  refine ⟨r, hr, ?_⟩
  obtain ⟨levels, isTry, k, counted, asleep, hcall, hk⟩ := wants_eq_some hr
  rw [LockThread.asleep, hcall] at hasleep
  subst hasleep
  obtain ⟨d, write⟩ := r
  have hholds := holds_got hcall hk false false
  rw [LockEntity.Blocked] at hfree
  rw [go, hcall]
  simp only [Bool.false_eq_true, if_false, hk]
  cases write with
  | true =>
    simp only [if_true, not_not] at hfree ⊢
    have hread : (if counted then s.entity d else (s.entity d).wrwait).readLock = 0 := by
      cases counted <;> exact hfree.1
    have hwrite : (if counted then s.entity d else (s.entity d).wrwait).writeLock = 0 := by
      cases counted <;> exact hfree.2
    rw [stepWrite, wrlock, if_pos ⟨hread, hwrite⟩]
    simp only [setCall, setEntity, update_self]
    exact hholds
  | false =>
    simp only [Bool.false_eq_true, if_false, not_not] at hfree ⊢
    rw [stepRead, rdlock, if_pos hfree]
    simp only [setCall, setEntity, update_self]
    exact hholds

theorem flat_run {ops : List (LockOp T)} (h : Run.Admissible exec Flat ({} : LockSys T) ops) (t : T) :
    ((Run.run exec ({} : LockSys T) ops).threads t).FlatOk := by
  refine flatOk_iff.2 (Run.invariant_run
    (I := fun s : LockSys T => ∀ t, (s.threads t).stack.length ≤ 1) (fun s op hs hop => ?_)
    (fun _ => Nat.zero_le _) h t)
  refine stack_exec (P := fun _ ls => ls.length ≤ 1) (fun _ l ls hle => ?_) hs ?_
  · exact (Nat.le_succ _).trans hle
  · rintro t levels (rfl | rfl)
    · rw [show (s.threads t).sections = [] from hop, length_singleton]
    · rw [show (s.threads t).sections = [] from hop, length_singleton]

section

variable [Fintype T]

/-- Who is not blocked does not sleep. -/
theorem Inv.proceeds (h : s.Inv) (hr : (s.threads t).wants = some r)
    (hnot : ¬(s.entity r.type).Blocked r.write) : s.Proceeds t :=
  proceeds_of_not_blocked (Bool.eq_false_iff.2 fun hasleep => hnot (h.2 t hasleep r hr)) hr hnot

/-- If nobody has what a thread asks for, this thread or one that waits to write can proceed. -/
theorem Inv.exists_proceeds (h : s.Inv) (hr : (s.threads t).wants = some r)
    (hfree : ∀ u, ∀ q ∈ (s.threads u).holds, q.type ≠ r.type) : ∃ u, s.Proceeds u := by
  obtain ⟨hread, hwrite⟩ := h.1.entity_free hfree
  have hwriter : ∀ u q, (s.threads u).wants = some q → q.type = r.type → q.write = true →
      s.Proceeds u := by
    intro u q hq htype hw
    refine h.proceeds hq ?_
    rw [htype, hw, LockEntity.Blocked, if_pos rfl, not_not]
    exact ⟨hread, hwrite⟩
  by_cases hcounted : ∃ v, (s.threads v).waitsFor = some r.type
  · obtain ⟨v, hv⟩ := hcounted
    obtain ⟨q, hq, htype, hw⟩ := wants_of_waitsFor (h.1.shape v) hv
    exact ⟨v, hwriter v q hq htype hw⟩
  · refine ⟨t, ?_⟩
    cases hw : r.write with
    | true => exact hwriter t r hr rfl hw
    | false =>
      refine h.proceeds hr ?_
      rw [hw, LockEntity.Blocked, if_neg (by simp), not_not]
      refine ⟨hwrite, ?_⟩
      rw [h.1.wait]
      exact sum_eq_zero fun u _ => if_neg fun hu => hcounted ⟨u, hu⟩

/-- Types of data are ranked, but for some that can always be had. If who has locks asks for one
    with a higher rank, then one of those that wait can proceed. -/
theorem Inv.deadlockFree_of_rank (h : s.Inv) (rank : LockType → ℕ) (free : LockType → Prop)
    (hfree : ∀ t r, (s.threads t).wants = some r → free r.type → ∃ u, s.Proceeds u)
    (hordered : ∀ t r, (s.threads t).wants = some r → ∀ q ∈ (s.threads t).holds, ¬free q.type →
      rank q.type < rank r.type) : s.DeadlockFree := by
  intro ⟨t0, r0, hr0⟩ hnone
  by_cases hwants : ∃ t r, (s.threads t).wants = some r ∧ free r.type
  · obtain ⟨t, r, hr, hr'⟩ := hwants
    exact hfree t r hr hr'
  -- Outside of sections, who has locks asks for one.
  have hhigher : ∀ t d, (¬free d ∧ ∃ q ∈ (s.threads t).holds, q.type = d) →
      ∃ j, (s.threads t).wants.map type = some j ∧ rank d < rank j := by
    rintro t _ ⟨hd, q, hq, rfl⟩
    obtain ⟨r, hr⟩ := ne_none_iff_exists'.1 fun hwants : (s.threads t).wants = none =>
      hnone t ⟨ne_nil_of_mem hq, hwants⟩
    exact ⟨r.type, by rw [hr]; rfl, hordered t r hr q hq hd⟩
  obtain ⟨t, d, hd, hlast⟩ := exists_free rank
    (fun t => (s.threads t).wants.map type) _ hhigher ⟨t0, r0.type, by rw [hr0]; rfl⟩
  obtain ⟨r, hr, rfl⟩ := map_eq_some_iff.1 hd
  refine h.exists_proceeds hr fun u q hq htype => ?_
  have hnot : ¬free q.type := fun hq' => hwants ⟨t, r, hr, htype ▸ hq'⟩
  exact hlast u q.type ⟨hnot, q, hq, rfl⟩ (by rw [htype])

theorem Inv.deadlockFree (h : s.Inv) (hflat : ∀ t, (s.threads t).FlatOk) : s.DeadlockFree := by
  refine h.deadlockFree_of_rank LockType.index (fun _ => False) nofun fun t r hr q hq _ => ?_
  rcases hflat t with hsections | ⟨hcall, -⟩
  · exact index_lt_of_wants hsections hr hq
  · rw [wants, hcall] at hr
    cases hr

/-- If threads do not ask for locks while they have some, then at all times locks are exclusive, and
    a thread that waits can proceed unless one is in a critical section. A thread that is idle at
    two times, such as before and after a call of `try_lock_slurmctld` that fails, has left the
    counts as they were, up to what the others have changed. -/
theorem locks_right (ops : List (LockOp T)) (hops : Run.Admissible exec Flat {} ops) :
    let s := Run.run exec ({} : LockSys T) ops
    s.Exclusive ∧ s.DeadlockFree ∧
      ∀ t ops', let s' := Run.run exec s ops'
        Run.Admissible exec Flat s ops' → (s.threads t).Idle → (s'.threads t).Idle →
          ∀ d, s'.counts d - s.counts d = s'.othersCounts t d - s.othersCounts t d := by
  intro s
  have hinv : s.Inv := inv_run ops
  refine ⟨hinv.1.exclusive, hinv.deadlockFree (flat_run hops), ?_⟩
  intro t ops' s' _ hidle hidle' d
  have hinv' : s'.Inv := Run.invariant_run (fun _ op h _ => Inv.exec h op) hinv
    (Run.admissible_true ..)
  rw [hinv.1.counts_idle hidle, hinv'.1.counts_idle hidle']

/-- A thread writes jobs, and another one tries to read the configuration and write jobs: it gets
    the first lock, fails to get the second one, and gives the first one back. -/
theorem locks_right_try :
    let s := Run.run exec ({} : LockSys Bool) [.lock true { job := .writeLock }, .go true, .go true]
    let levels : LockLevels := { config := .readLock, job := .writeLock }
    let ops : List (LockOp Bool) :=
      [.tryLock false levels, .go false, .go false, .go false, .go false]
    (s.threads true).InSection ∧
      ((Run.run exec s (ops.take 3)).threads false).call = .giving levels 1 ∧
      s.DeadlockFree ∧
      ∀ d, (Run.run exec s ops).counts d - s.counts d =
        (Run.run exec s ops).othersCounts false d - s.othersCounts false d := by
  have h := locks_right [.lock true { job := .writeLock }, .go true, .go true]
    ⟨rfl, trivial, trivial, trivial⟩
  refine ⟨by decide, by decide, h.2.1, ?_⟩
  exact h.2.2 false _ ⟨by decide, trivial, trivial, trivial, trivial, trivial⟩ (by decide) (by decide)

/-- Also if threads ask for locks while they have some: locks are exclusive, no wake-up is lost (who
    sleeps could not have the lock now), and nobody can read what another one waits to write. -/
theorem exclusive_sound (ops : List (LockOp T)) :
    let s := Run.run exec ({} : LockSys T) ops
    s.Exclusive ∧ s.Sound ∧
      ∀ t d, (s.threads t).waitsFor = some d → (s.entity d).rdlock = none := by
  intro s
  obtain ⟨hbooks, hsound⟩ : s.Inv := inv_run ops
  refine ⟨hbooks.exclusive, hsound, fun t d ht => if_neg fun h => ?_⟩
  have hle := le_sum (f := fun u => (s.threads u).waits d) (fun u => by
    rw [waits]
    split_ifs <;> decide) t
  rw [← hbooks.wait, h.2, waits, if_pos ht] at hle
  exact absurd hle (by decide)

end

end LockSys

end Slurm
