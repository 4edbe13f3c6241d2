import Mathlib.Data.UInt
import Slurm.Lib.Timeline
import Slurm.Resv.Overlap

/-!
# Watts that are reserved

Power is reserved like nodes are. A job may not use the most that is reserved for others at one time
while it runs (`jobTestWattsResv`). This is read off a planning, a list of slots: a reservation that
is added to it is cut where slots begin and end, and cuts these where it does.

The slots stay in order, and at each time they have the watts of the reservations that were added
(`sorted_updateConstraintPlanning`, `valueAt_updateConstraintPlanning`). Slots may be outside of the
time of the job, but each reservation meets it. So those that share a time share one of the job
(`wattsAt_le_clamp`).
-/

namespace Slurm

open Timeline

/-- A reservation that may be one of power. -/
structure WattsResv extends Reservation where
  name : CStr
  startTimeFirst : ℕ
  timeFloat : Bool := false
  resvWatts : UInt32
deriving DecidableEq

namespace WattsResv

/-- `_advance_resv_time`. -/
def advanceResvTime (r : WattsResv) : WattsResv :=
  if r.timeFloat ∨ r.recurrence = .once then r
  else
    { r with
      startTime := advanceTime r.startTimeFirst r.recurrence.dayCnt
      startTimeFirst := advanceTime r.startTimeFirst r.recurrence.dayCnt
      endTime := advanceTime r.endTime r.recurrence.dayCnt }

/-- A reservation that has expired is advanced. -/
def current (now : ℕ) (r : WattsResv) : WattsResv :=
  if r.endTime ≤ now then r.advanceResvTime else r

/-- The reservation has watts, and is not that of the job. -/
def Carries (resvName : Option CStr) (r : WattsResv) : Prop :=
  ¬(r.resvWatts.toNat = noVal ∨ r.resvWatts = 0) ∧ resvName ≠ some r.name

instance (resvName : Option CStr) : DecidablePred (Carries resvName) :=
  fun _ => inferInstanceAs (Decidable (_ ∧ _))

/-- Some of the time of the job is reserved. -/
def Meets (s e : ℤ) (r : WattsResv) : Prop := r.startTime < e ∧ s < r.endTime

instance (s e : ℤ) : DecidablePred (Meets s e) := fun _ => inferInstanceAs (Decidable (_ ∧ _))

/-- The slot of the reservation. -/
def slot (r : WattsResv) : Slot UInt32 := ⟨r.startTime, r.endTime, r.resvWatts⟩

/-- The watts that are reserved at a time. -/
def wattsAt (l : List WattsResv) (t : ℤ) : ℕ :=
  (l.map fun r => if r.slot.Holds t then r.resvWatts.toNat else 0).sum

end WattsResv

/-- `_update_constraint_planning`. -/
def updateConstraintPlanning {V : Type*} [Add V] (value : V) (start stop : ℤ) :
    List (Slot V) → List (Slot V)
  | [] => [⟨start, stop, value⟩]
  | cur :: rest =>
    let added : Slot V := { cur with value := cur.value + value }
    if stop ≤ cur.start then ⟨start, stop, value⟩ :: cur :: rest
    else if start = cur.start ∧ stop = cur.stop then added :: rest
    else if cur.stop ≤ start then cur :: updateConstraintPlanning value start stop rest
    else if cur.start ≤ start then
      let head : List (Slot V) := if cur.start < start then [{ cur with stop := start }] else []
      head ++
        if stop < cur.stop then
          ⟨start, stop, value + cur.value⟩ :: { cur with start := stop } :: rest
        else if cur.stop < stop then
          { added with start } :: updateConstraintPlanning value cur.stop stop rest
        else { added with start } :: rest
    else
      ⟨start, cur.start, value⟩ ::
        if stop = cur.stop then added :: rest
        else if stop < cur.stop then
          ⟨cur.start, stop, value + cur.value⟩ :: { cur with start := stop } :: rest
        else added :: updateConstraintPlanning value cur.stop stop rest

/-- `_max_constraint_planning`. -/
def maxConstraintPlanning (sched : List (Slot UInt32)) : UInt32 :=
  sched.foldl (fun m slot => if m < slot.value then slot.value else m) 0

/-- The planning that `job_test_watts_resv` makes for a job from `s` until `e`. -/
def wattsPlanning (now : ℕ) (resvName : Option CStr) (s e : ℤ) (resvList : List WattsResv) :
    List (Slot UInt32) :=
  resvList.foldl (fun wsched r =>
    let r := r.current now
    if r.resvWatts.toNat = noVal ∨ r.resvWatts = 0 then wsched
    else if e ≤ r.startTime ∨ r.endTime ≤ s then wsched
    else if resvName = some r.name then wsched
    else updateConstraintPlanning r.resvWatts r.startTime r.endTime wsched) []

/-- `job_test_watts_resv`. -/
def jobTestWattsResv (now : ℕ) (resvName : Option CStr) (s e : ℤ) (resvList : List WattsResv) :
    UInt32 :=
  maxConstraintPlanning (wattsPlanning now resvName s e resvList)

/-! ## Slots in order -/

section

variable {V : Type*} {a start stop t : ℤ} {l : List (Slot V)}

/-- The slots come one after the other, and none before `a`. -/
def Sorted : ℤ → List (Slot V) → Prop
  | _, [] => True
  | a, s :: l => a ≤ s.start ∧ s.start < s.stop ∧ Sorted s.stop l

theorem Sorted.bounds (h : Sorted a l) {s : Slot V} (hs : s ∈ l) :
    a ≤ s.start ∧ s.start < s.stop := by
  induction l generalizing a with
  | nil => cases hs
  | cons r l ih =>
    obtain ⟨ha, hlt, hl⟩ := h
    rcases List.mem_cons.1 hs with rfl | hs
    · exact ⟨ha, hlt⟩
    · obtain ⟨hle, hlt'⟩ := ih hl hs
      exact ⟨by omega, hlt'⟩

theorem Sorted.pairwise (h : Sorted a l) : l.Pairwise fun r s => r.stop ≤ s.start := by
  induction l generalizing a with
  | nil => exact .nil
  | cons r l ih => exact .cons (fun s hs => (h.2.2.bounds hs).1) (ih h.2.2)

/-- The value at a time, to which no more than one slot contributes. -/
def valueAt [AddCommMonoid V] (l : List (Slot V)) (t : ℤ) : V :=
  (l.map fun s => if s.Holds t then s.value else 0).sum

variable [AddCommMonoid V]

theorem valueAt_cons (s : Slot V) (l : List (Slot V)) (t : ℤ) :
    valueAt (s :: l) t = (if s.Holds t then s.value else 0) + valueAt l t := by
  rw [valueAt, List.map_cons, List.sum_cons, valueAt]

theorem valueAt_eq_zero (h : ∀ s ∈ l, ¬s.Holds t) : valueAt l t = 0 := by
  refine List.sum_eq_zero fun x hx => ?_
  obtain ⟨s, hs, rfl⟩ := List.mem_map.1 hx
  exact if_neg (h s hs)

/-- A slot has the value at each time at which it holds. -/
theorem Sorted.valueAt_eq (h : Sorted a l) {s : Slot V} (hs : s ∈ l) (ht : s.Holds t) :
    valueAt l t = s.value := by
  induction l generalizing a with
  | nil => cases hs
  | cons r l ih =>
    obtain ⟨-, -, hl⟩ := h
    rw [valueAt_cons]
    rcases List.mem_cons.1 hs with rfl | hs
    · have hzero : valueAt l t = 0 := valueAt_eq_zero fun r hr hholds =>
        absurd ((hl.bounds hr).1.trans hholds.1) (not_le.2 ht.2)
      rw [if_pos ht, hzero, add_zero]
    · have hle := (hl.bounds hs).1.trans ht.1
      rw [if_neg fun hr => absurd hr.2 (by omega), zero_add, ih hl hs]

theorem sorted_updateConstraintPlanning (v : V) (h : Sorted a l) (ha : a ≤ start)
    (hlt : start < stop) : Sorted a (updateConstraintPlanning v start stop l) := by
  induction l generalizing a start with
  | nil => exact ⟨ha, hlt, trivial⟩
  | cons cur rest ih =>
    obtain ⟨hcur, hcur', hrest⟩ := h
    have ih' := fun h : cur.stop < stop => ih hrest le_rfl h
    have ih'' := fun h : cur.stop ≤ start => ih hrest h hlt
    simp only [updateConstraintPlanning]
    split_ifs <;> simp only [Sorted, List.nil_append, List.cons_append] <;> grind

theorem valueAt_updateConstraintPlanning (v : V) (h : Sorted a l) (hlt : start < stop) (t : ℤ) :
    valueAt (updateConstraintPlanning v start stop l) t =
      valueAt l t + if start ≤ t ∧ t < stop then v else 0 := by
  induction l generalizing a start with
  | nil => exact add_comm _ _
  | cons cur rest ih =>
    obtain ⟨-, hcur, hrest⟩ := h
    have ih' := fun h : cur.stop < stop => ih hrest h
    have ih'' := ih hrest hlt
    simp only [updateConstraintPlanning]
    split_ifs <;> simp only [valueAt_cons, Slot.Holds, List.nil_append, List.cons_append] <;> grind

end

/-! ## The planning of a job -/

open WattsResv

section

variable {now : ℕ} {resvName : Option CStr} {s e t : ℤ} {l : List WattsResv}

/-- The planning is that of the reservations of others that meet the job. -/
theorem wattsPlanning_eq (l : List WattsResv) : wattsPlanning now resvName s e l =
    (((l.map (current now)).filter (Carries resvName)).filter (Meets s e)).foldl
      (fun sched r => updateConstraintPlanning r.resvWatts r.startTime r.endTime sched) [] := by
  rw [wattsPlanning, List.filter_filter, List.foldl_filter, List.foldl_map]
  refine List.foldl_ext _ _ _ fun sched r _ => ?_
  simp only [Carries, Meets, Bool.and_eq_true]
  grind

/-- The planning of proper reservations is in order, and has their watts. -/
theorem foldl_updateConstraintPlanning (hproper : ∀ r ∈ l, r.startTime < r.endTime)
    (sched : List (Slot UInt32)) (hsched : Sorted 0 sched) :
    let sched' := l.foldl (fun sched r =>
      updateConstraintPlanning r.resvWatts r.startTime r.endTime sched) sched
    Sorted 0 sched' ∧ ∀ t, valueAt sched' t = valueAt sched t + valueAt (l.map slot) t := by
  induction l generalizing sched with
  | nil => exact ⟨hsched, fun t => (add_zero _).symm⟩
  | cons r l ih =>
    have hlt : (r.startTime : ℤ) < r.endTime := by exact_mod_cast hproper r List.mem_cons_self
    obtain ⟨hsorted, hvalue⟩ := ih (fun r hr => hproper r (List.mem_cons_of_mem _ hr)) _
      (sorted_updateConstraintPlanning r.resvWatts hsched (Int.natCast_nonneg _) hlt)
    refine ⟨hsorted, fun t => (hvalue t).trans ?_⟩
    rw [valueAt_updateConstraintPlanning r.resvWatts hsched hlt, List.map_cons, valueAt_cons,
      add_assoc]
    rfl

theorem wattsAt_cons (r : WattsResv) : wattsAt (r :: l) t =
    (if r.slot.Holds t then r.resvWatts.toNat else 0) + wattsAt l t := by
  rw [wattsAt, List.map_cons, List.sum_cons, wattsAt]

/-- Numbers of 32 bits add up if the sum is in range. -/
theorem toNat_valueAt_slots (h : (l.map (·.resvWatts.toNat)).sum < 2 ^ 32) :
    (valueAt (l.map slot) t).toNat = wattsAt l t ∧
      wattsAt l t ≤ (l.map (·.resvWatts.toNat)).sum := by
  induction l with
  | nil => exact ⟨rfl, le_rfl⟩
  | cons r l ih =>
    rw [List.map_cons, List.sum_cons] at h
    obtain ⟨heq, hle⟩ := ih (by omega)
    rw [List.map_cons, valueAt_cons, wattsAt_cons, List.map_cons, List.sum_cons, UInt32.toNat_add,
      heq]
    split_ifs
    · exact ⟨Nat.mod_eq_of_lt (by simp only [slot]; omega), by omega⟩
    · exact ⟨by simp; omega, by omega⟩

/-- Reservations that meet the job and share a time share one at which the job runs. -/
theorem wattsAt_le_clamp (hmeets : ∀ r ∈ l, r.Meets s e) (t : ℤ) :
    wattsAt l t ≤ wattsAt l (max s (min t (e - 1))) := by
  refine List.sum_le_sum fun r hr => ?_
  obtain ⟨hstart, hend⟩ := hmeets r hr
  split_ifs with ht ht'
  · exact le_rfl
  · refine absurd ?_ ht'
    simp only [Slot.Holds, slot] at ht ⊢
    omega
  · exact Nat.zero_le _
  · exact le_rfl

/-- A reservation that does not meet the job has no watts while it runs. -/
theorem wattsAt_filter_meets (ht : s ≤ t ∧ t < e) :
    wattsAt (l.filter (Meets s e)) t = wattsAt l t := by
  induction l with
  | nil => rfl
  | cons r l ih =>
    rw [List.filter_cons]
    split_ifs with hr
    · rw [wattsAt_cons, wattsAt_cons, ih]
    · have hnot : ¬r.slot.Holds t := by
        replace hr := of_decide_eq_false (Bool.eq_false_iff.2 hr)
        simp only [Meets, Slot.Holds, slot] at hr ⊢
        omega
      rw [ih, wattsAt_cons, if_neg hnot, Nat.zero_add]

/-- The maximum is not below any slot, and is that of one, or zero. -/
theorem maxConstraintPlanning_spec (sched : List (Slot UInt32)) :
    (∀ slot ∈ sched, slot.value ≤ maxConstraintPlanning sched) ∧
      (maxConstraintPlanning sched = 0 ∨
        ∃ slot ∈ sched, slot.value = maxConstraintPlanning sched) := by
  have hfold : ∀ m : UInt32, let r := sched.foldl (fun m (slot : Slot UInt32) =>
      if m < slot.value then slot.value else m) m
      m ≤ r ∧ (∀ slot ∈ sched, slot.value ≤ r) ∧ (r = m ∨ ∃ slot ∈ sched, slot.value = r) := by
    induction sched with
    | nil => exact fun m => ⟨UInt32.le_refl m, by simp, .inl rfl⟩
    | cons slot sched ih =>
      intro m
      have h := ih (if m < slot.value then slot.value else m)
      simp only [List.foldl_cons, List.forall_mem_cons]
      grind
  exact (hfold 0).2

/-- The maximum is a bound of the value at all times. -/
theorem Sorted.valueAt_le_max {a : ℤ} {sched : List (Slot UInt32)} (h : Sorted a sched) (t : ℤ) :
    valueAt sched t ≤ maxConstraintPlanning sched := by
  by_cases hholds : ∃ slot ∈ sched, slot.Holds t
  · obtain ⟨slot, hslot, hholds⟩ := hholds
    rw [h.valueAt_eq hslot hholds]
    exact (maxConstraintPlanning_spec sched).1 slot hslot
  · rw [valueAt_eq_zero fun slot hslot hslot' => hholds ⟨slot, hslot, hslot'⟩]
    exact Nat.zero_le _

/-- The maximum is the value at a time, or zero. -/
theorem Sorted.max_eq {a : ℤ} {sched : List (Slot UInt32)} (h : Sorted a sched) :
    maxConstraintPlanning sched = 0 ∨ ∃ t, valueAt sched t = maxConstraintPlanning sched := by
  refine (maxConstraintPlanning_spec sched).2.imp_right ?_
  rintro ⟨slot, hslot, hvalue⟩
  exact ⟨slot.start, (h.valueAt_eq hslot ⟨le_rfl, (h.bounds hslot).2⟩).trans hvalue⟩

/-- A job is kept from the most watts that are reserved for others at a time while it runs. The
    slots of the planning are in order, and have the watts of the reservations that meet the job. -/
theorem jobTestWattsResv_isGreatest (now : ℕ) (resvName : Option CStr) (s e : ℤ)
    (resvList : List WattsResv) (hjob : s < e)
    (hproper : ∀ r ∈ resvList, (r.current now).startTime < (r.current now).endTime)
    (hsum : (((resvList.map (current now)).filter (Carries resvName)).map
      (·.resvWatts.toNat)).sum < 2 ^ 32) :
    let carried := (resvList.map (current now)).filter (Carries resvName)
    let sched := wattsPlanning now resvName s e resvList
    IsGreatest (wattsAt carried '' {t | s ≤ t ∧ t < e})
        (jobTestWattsResv now resvName s e resvList).toNat ∧
      (∀ slot ∈ sched, slot.start < slot.stop) ∧
      sched.Pairwise (fun r s => r.stop ≤ s.start) ∧
      ∀ t, (valueAt sched t).toNat = wattsAt (carried.filter (Meets s e)) t := by
  intro carried sched
  have hsub : (carried.filter (Meets s e)).Sublist carried := List.filter_sublist
  have hmet : ∀ r ∈ carried.filter (Meets s e), r.Meets s e := fun r hr =>
    of_decide_eq_true (List.mem_filter.1 hr).2
  obtain ⟨hsorted, hvalue⟩ := foldl_updateConstraintPlanning (l := carried.filter (Meets s e))
    (fun r hr => by
      obtain ⟨r', hr', rfl⟩ := List.mem_map.1 (List.mem_filter.1 (hsub.subset hr)).1
      exact hproper r' hr') [] trivial
  rw [← wattsPlanning_eq] at hsorted hvalue
  have hwatts (t : ℤ) : (valueAt sched t).toNat = wattsAt (carried.filter (Meets s e)) t := by
    have hle := (hsub.map (·.resvWatts.toNat)).sum_le_sum fun _ _ => Nat.zero_le _
    rw [hvalue, ← (toNat_valueAt_slots (hle.trans_lt hsum)).1]
    exact congrArg UInt32.toNat (zero_add _)
  have hupper (t : ℤ) (ht : s ≤ t ∧ t < e) :
      wattsAt carried t ≤ (maxConstraintPlanning sched).toNat := by
    rw [← wattsAt_filter_meets ht, ← hwatts]
    exact hsorted.valueAt_le_max t
  refine ⟨⟨?_, ?_⟩, fun slot hslot => (hsorted.bounds hslot).2, hsorted.pairwise, hwatts⟩
  · obtain ⟨t, ht, hle⟩ : ∃ t, (s ≤ t ∧ t < e) ∧
        (maxConstraintPlanning sched).toNat ≤ wattsAt carried t := by
      rcases hsorted.max_eq with hzero | ⟨t, hvalue⟩
      · exact ⟨s, ⟨le_rfl, hjob⟩, by rw [hzero]; exact Nat.zero_le _⟩
      · -- The time may be before or after the job, which has the same reservations then.
        have ht : s ≤ max s (min t (e - 1)) ∧ max s (min t (e - 1)) < e := by omega
        refine ⟨_, ht, ?_⟩
        rw [← hvalue, hwatts, ← wattsAt_filter_meets ht]
        exact wattsAt_le_clamp hmet t
    exact ⟨t, ht, (hupper t ht).antisymm hle⟩
  · rintro _ ⟨t, ht, rfl⟩
    exact hupper t ht

end

/-- A reservation of each day, which has expired, and one that begins while the job runs. -/
def twoResvs : List WattsResv :=
  [{ name := "day".toList, startTime := 0, startTimeFirst := 0, endTime := 3600,
     recurrence := .daily, resvWatts := 500 },
   { name := "once".toList, startTime := 89000, startTimeFirst := 89000, endTime := 95000,
     resvWatts := 700 }]

theorem jobTestWattsResv_twoResvs : jobTestWattsResv 4000 none 89900 100000 twoResvs = 1200 ∧
    IsGreatest (wattsAt ((twoResvs.map (current 4000)).filter (Carries none)) ''
        {t | 89900 ≤ t ∧ t < 100000})
      (jobTestWattsResv 4000 none 89900 100000 twoResvs).toNat :=
  ⟨by decide, (jobTestWattsResv_isGreatest 4000 none 89900 100000 twoResvs (by decide) (by decide)
    (by decide)).1⟩

end Slurm
