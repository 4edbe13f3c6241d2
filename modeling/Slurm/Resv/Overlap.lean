import Slurm.Record

/-!
# Reservations that overlap

A reservation is for some nodes, from one time to another, once or again each day or each week. A
new one is refused if it overlaps one that is there (`resvOverlap`): each of the two is moved on by
up to six days if it is daily, and not at all if it is not.

How far one has to be moved against the other, in days, so that they meet, is an interval
(`firstDay`, `lastDay`). Reservations that meet at all may do so outside of the days that are looked
at, and those that are weekly are not moved on by weeks (`resvOverlap_iff`).
-/

namespace Slurm

/-- `RESERVE_FLAG_DAILY` and `RESERVE_FLAG_WEEKLY`. -/
inductive Recurrence
  | once
  | daily
  | weekly
deriving DecidableEq

/-- The days that `_advance_resv_time` moves a reservation on. -/
def Recurrence.dayCnt : Recurrence → ℕ
  | once => 0
  | daily => 1
  | weekly => 7

/-- `slurmctld_resv_t`, with times after the epoch. -/
structure Reservation where
  startTime : ℕ
  endTime : ℕ
  recurrence : Recurrence := .once
  nodeBitmap : Option Bitmap := none
  fullNodes : Bool := true
deriving DecidableEq

/-- `_advance_time`, where the days of local time have 24 hours. -/
def advanceTime (t dayCnt : ℕ) : ℕ := t + dayCnt * (24 * 60 * 60)

/-- The days that a reservation is moved on to look for overlaps. -/
def Reservation.lookAhead (r : Reservation) : List ℕ :=
  if r.recurrence = .daily then List.range 7 else [0]

/-- A reservation that is there has to be compared with a new one. -/
def Reservation.Concerns (new : Reservation) (this : Option Ptr) (old : Ptr × Reservation) : Prop :=
  some old.1 ≠ this ∧ (∃ b ∈ old.2.nodeBitmap, ∃ c ∈ new.nodeBitmap, (b ∩ c).Nonempty) ∧
    old.2.fullNodes
  deriving Decidable

/-- The loops over days of `_resv_overlap`. -/
def Reservation.overlaps (new old : Reservation) : Bool :=
  new.lookAhead.any fun i => old.lookAhead.any fun j =>
    advanceTime new.startTime i < advanceTime old.endTime j ∧
      advanceTime new.endTime i > advanceTime old.startTime j

/-- `_resv_overlap`, where `maint` and `overlap` are flags of the new reservation. -/
def resvOverlap (maint overlap : Bool) (new : Reservation) (this : Option Ptr)
    (resvList : List (Ptr × Reservation)) : Bool :=
  if maint ∨ overlap ∨ new.nodeBitmap = none then false
  else resvList.any fun old => new.Concerns this old ∧ new.overlaps old.2

namespace Reservation

variable (new old : Reservation)

/-- A time is in an occurrence of a reservation, where each comes `day_cnt` days after the one
    before. -/
def Occurs (r : Reservation) (k t : ℕ) : Prop :=
  advanceTime r.startTime (k * r.recurrence.dayCnt) ≤ t ∧
    t < advanceTime r.endTime (k * r.recurrence.dayCnt)

def Collides : Prop := ∃ i j t, new.Occurs i t ∧ old.Occurs j t

/-! ## Days -/

/-- The first day that the old reservation is to be moved on by, so that it meets the new one. -/
def firstDay : ℤ := ((new.startTime : ℤ) - old.endTime) / (24 * 60 * 60) + 1

/-- The last such day. -/
def lastDay : ℤ := ((new.endTime : ℤ) - old.startTime - 1) / (24 * 60 * 60)

/-- If reservations meet on some days, then also on one that is looked at. Days are those of the old
    reservation, less those of the new one. -/
def Near : Prop :=
  let first := firstDay new old
  let last := lastDay new old
  match new.recurrence, old.recurrence with
  | .once, .once => True
  | .once, .daily => first ≤ last → 0 ≤ last → first ≤ 6
  | .daily, .once => first ≤ last → first ≤ 0 → -6 ≤ last
  | .daily, .daily => first ≤ last → first ≤ 6 ∧ -6 ≤ last
  | .daily, .weekly => first ≤ last → first ≤ 0 ∧ -6 ≤ last
  | .weekly, .daily => first ≤ last → first ≤ 6 ∧ 0 ≤ last
  -- `7 * (last / 7)` and `-(7 * (-first / 7))` are the last and the first day after whole weeks
  | .once, .weekly => first ≤ 7 * (last / 7) → 0 ≤ last → first ≤ 0
  | .weekly, .once => -(7 * (-first / 7)) ≤ last → first ≤ 0 → 0 ≤ last
  | .weekly, .weekly => first ≤ 7 * (last / 7) → first ≤ 0 ∧ 0 ≤ last

variable {new old}

theorem mem_lookAhead {r : Reservation} {i : ℕ} :
    i ∈ r.lookAhead ↔ i ≤ if r.recurrence = .daily then 6 else 0 := by
  rw [lookAhead]
  split_ifs
  · rw [List.mem_range, Nat.lt_succ_iff]
  · rw [List.mem_singleton, Nat.le_zero]

/-- What is looked at are the days from `-6` or `0` to `6` or `0`. -/
theorem overlaps_iff : new.overlaps old = true ↔ firstDay new old ≤ lastDay new old ∧
    firstDay new old ≤ (if old.recurrence = .daily then 6 else 0) ∧
      (if new.recurrence = .daily then -6 else 0) ≤ lastDay new old := by
  have hdays : new.overlaps old = true ↔ ∃ i ∈ new.lookAhead, ∃ j ∈ old.lookAhead,
      firstDay new old ≤ (j : ℤ) - i ∧ (j : ℤ) - i ≤ lastDay new old := by
    simp only [overlaps, List.any_eq_true]
    refine exists_congr fun i => and_congr_right fun _ => exists_congr fun j =>
      and_congr_right fun _ => ?_
    rw [decide_eq_true_eq]
    simp only [firstDay, lastDay, advanceTime]
    omega
  rw [hdays]
  simp only [mem_lookAhead]
  constructor
  · rintro ⟨i, hi, j, hj, h⟩
    split_ifs at * <;> omega
  · intro h
    -- The new one is moved on only if the old one comes later.
    refine ⟨(-lastDay new old).toNat, ?_,
      (min (lastDay new old) (if old.recurrence = .daily then 6 else 0)).toNat, ?_⟩
    all_goals split_ifs at * <;> omega

theorem collides_iff (hnew : new.startTime < new.endTime) (hold : old.startTime < old.endTime) :
    Collides new old ↔ ∃ i j : ℕ,
      firstDay new old ≤ (j * old.recurrence.dayCnt : ℕ) - (i * new.recurrence.dayCnt : ℕ) ∧
        (j * old.recurrence.dayCnt : ℕ) - (i * new.recurrence.dayCnt : ℕ) ≤ lastDay new old := by
  refine exists_congr fun i => exists_congr fun j => ?_
  generalize hi : i * new.recurrence.dayCnt = a
  generalize hj : j * old.recurrence.dayCnt = b
  simp only [Occurs, firstDay, lastDay, advanceTime, hi, hj]
  constructor
  · rintro ⟨t, ⟨h1, h2⟩, h3, h4⟩
    omega
  · intro h
    -- They meet where the later one starts.
    refine ⟨max (new.startTime + a * (24 * 60 * 60)) (old.startTime + b * (24 * 60 * 60)), ?_⟩
    omega

theorem Collides.nonempty (h : Collides new old) :
    new.startTime < new.endTime ∧ old.startTime < old.endTime := by
  obtain ⟨i, j, t, ⟨h1, h2⟩, h3, h4⟩ := h
  simp only [advanceTime] at *
  omega

/-- The days that are looked at are enough just if reservations that meet are near. -/
theorem near_iff (hnew : new.startTime < new.endTime) (hold : old.startTime < old.endTime) :
    (new.overlaps old = false → ¬Collides new old) ↔ Near new old := by
  rw [← Bool.not_eq_true, not_imp_not, overlaps_iff, collides_iff hnew hold, Near]
  generalize firstDay new old = first
  generalize lastDay new old = last
  -- In each case, the days `i` and `j` are such that they meet, if they meet at all.
  cases new.recurrence <;> cases old.recurrence <;>
    simp only [Recurrence.dayCnt, reduceCtorEq, if_true, if_false]
  case once.once =>
    refine iff_true_intro ?_
    rintro ⟨i, j, hij⟩
    omega
  all_goals
    refine ⟨fun h => ?_, fun h ⟨i, j, hij⟩ => by omega⟩
    intros
  case once.daily =>
    have := h ⟨0, last.toNat, by omega⟩
    omega
  case once.weekly =>
    have := h ⟨0, (last / 7).toNat, by omega⟩
    omega
  case daily.once =>
    have := h ⟨(-first).toNat, 0, by omega⟩
    omega
  case daily.daily =>
    have := h ⟨(-last).toNat, last.toNat, by omega⟩
    omega
  case daily.weekly =>
    have := h ⟨(7 * last.toNat - last).toNat, last.toNat, by omega⟩
    omega
  case weekly.once =>
    have := h ⟨(-first / 7).toNat, 0, by omega⟩
    omega
  case weekly.daily =>
    have := h ⟨(-last).toNat, (last + 7 * (-last).toNat).toNat, by omega⟩
    omega
  case weekly.weekly =>
    have := h ⟨(-(last / 7)).toNat, (last / 7).toNat, by omega⟩
    omega

/-- A new reservation that `_resv_overlap` lets pass, whatever other reservations there are, does
    not collide with one that is there, just if the two are near whenever they meet. -/
theorem resvOverlap_iff (new : Reservation) (this : Option Ptr) (old : Ptr × Reservation) :
    (∀ resvList, old ∈ resvList → new.Concerns this old →
      resvOverlap false false new this resvList = false → ¬Collides new old.2) ↔
    (new.Concerns this old → new.startTime < new.endTime → old.2.startTime < old.2.endTime →
      Near new old.2) := by
  have hlist (l : List (Ptr × Reservation)) (hc : new.Concerns this old) :
      resvOverlap false false new this l = false ↔
        ∀ r ∈ l, new.Concerns this r → new.overlaps r.2 = false := by
    obtain ⟨b, -, c, hc, -⟩ := hc.2.1
    simp [resvOverlap, Option.mem_def.1 hc]
  constructor
  · intro h hc hnew hold
    rw [← near_iff hnew hold]
    refine fun hfalse => h [old] (List.mem_singleton_self _) hc ((hlist _ hc).2 ?_)
    rintro r hr -
    rwa [List.mem_singleton.1 hr]
  · intro h l hmem hc hfalse hcol
    obtain ⟨hnew, hold⟩ := hcol.nonempty
    exact (near_iff hnew hold).2 (h hc hnew hold) ((hlist l hc).1 hfalse old hmem hc) hcol

/-- A reservation for the first hour of the eighth day passes, although one that is there comes
    again in this hour, after a week. -/
theorem weekly_collides :
    let old : Reservation :=
      { startTime := 0, endTime := 3600, recurrence := .weekly, nodeBitmap := some {0} }
    let new : Reservation := { startTime := 604800, endTime := 608400, nodeBitmap := some {0} }
    new.Concerns none (1, old) ∧ resvOverlap false false new none [(1, old)] = false ∧
      Collides new old := by
  exact ⟨by decide, by decide, 0, 1, 604800, ⟨by decide, by decide⟩, by decide, by decide⟩

end Reservation

end Slurm
