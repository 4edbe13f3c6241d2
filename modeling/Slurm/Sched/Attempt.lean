import Slurm.Sched.Backfill

/-!
# Attempts to backfill

What `_attempt_backfill` does with the map of `Slurm.Sched.Backfill`, before a job that is to start
later reserves its nodes:

* the start and the end of the job are rounded down to the resolution (`roundedResv`). The start of
  the window is not rounded, and may be after the rounded end: `roundedResv_keeps_iff` says when it
  is not, and the records of the map stay in order;
* the job must not overlap with the reservations in the map (`testResvOverlap`). The test is exact
  (`resvOverlap_exact`), although the first record of the map may be empty.
-/

namespace Slurm

open Timeline List Nat NodeSpace

/-! ## Rounding -/

/-- The time until which a job needs its nodes, as a number of 32 bits. -/
def endReserve (startTime : ℤ) (bootTime timeLimit : UInt32) : UInt32 :=
  .ofInt (startTime + bootTime.toNat + (timeLimit * 60).toNat)

/-- The start and the end of the reservation for a job, rounded down to the resolution. -/
def roundedResv (resolution : UInt32) (startTime : ℤ) (bootTime timeLimit : UInt32) :
    UInt32 × UInt32 :=
  (.ofInt startTime / resolution * resolution,
    endReserve startTime bootTime timeLimit / resolution * resolution)

theorem toNat_rounded (x r : UInt32) : (x / r * r).toNat = x.toNat / r.toNat * r.toNat := by
  rw [UInt32.toNat_mul, UInt32.toNat_div]
  exact mod_eq_of_lt (lt_of_le_of_lt (div_mul_le_self ..) x.toNat_lt)

theorem max_rounded_le_iff {r x y : ℕ} (hr : 0 < r) (w : ℤ) :
    max ((x / r * r : ℕ) : ℤ) w ≤ (y / r * r : ℕ) ↔
      ∃ k : ℕ, w ≤ k * r ∧ x < (k + 1) * r ∧ k * r ≤ y := by
  rw [max_le_iff, Int.ofNat_le]
  constructor
  · rintro ⟨hx, hw⟩
    have hdiv : x / r ≤ y / r := Nat.le_of_mul_le_mul_right hx hr
    refine ⟨y / r, by exact_mod_cast hw, ?_, div_mul_le_self ..⟩
    exact (div_lt_iff_lt_mul hr).1 (lt_succ_of_le hdiv)
  · rintro ⟨k, hw, hx, hy⟩
    have hxk : x / r ≤ k := le_of_lt_succ ((div_lt_iff_lt_mul hr).2 hx)
    have hky : k * r ≤ y / r * r := mul_le_mul_right r ((le_div_iff_mul_le hr).2 hy)
    exact ⟨(mul_le_mul_right r hxk).trans hky, hw.trans (by exact_mod_cast hky)⟩

/-- The records in the list of the map follow each other from the start of the window to its end;
    none of them begins after its end. -/
def NodeSpace.InOrder (s : NodeSpace) (schedStart : ℤ) (window : ℕ) : Prop :=
  ∃ l, s.Linked 0 l ∧ Tiles schedStart (s.slots (0 :: l)) (schedStart + window)

theorem NodeSpace.InOrder.addReservation {s : NodeSpace} {schedStart : ℤ} {window : ℕ}
    (h : s.InOrder schedStart window) {call : ResvCall}
    (hcall : max (call.startTime.toNat : ℤ) schedStart ≤ call.endReserve.toNat) {fuel : ℕ}
    (hfuel : s.recs + 2 ≤ fuel) :
    ∃ s', addReservation fuel s call = some s' ∧ s'.InOrder schedStart window := by
  obtain ⟨l, hlinked, htiles⟩ := h
  obtain ⟨s', l', hs', -, hlinked', hslots⟩ := addReservation_spec hlinked htiles.1 hcall hfuel
  refine ⟨s', hs', l', hlinked', ?_⟩
  rw [hslots]
  exact tiles_dropEqual ((tiles_congr (mapWithin_shape ..)).2
    (tiles_splitStart htiles (le_max_right ..) hcall))

/-- The rounded reservation does not end before it starts in the window, and keeps every map in
    order, exactly if there is a multiple of the resolution not before the window, not after the
    end of the job, and less than one resolution before its start. -/
theorem roundedResv_keeps_iff {resolution : UInt32} (hr : 0 < resolution.toNat)
    (schedStart startTime : ℤ) (bootTime timeLimit : UInt32) :
    let resv := roundedResv resolution startTime bootTime timeLimit
    (max (resv.1.toNat : ℤ) schedStart ≤ resv.2.toNat ∧
      ∀ (s : NodeSpace) (window : ℕ) (resBitmap : Bitmap) (fuel : ℕ),
        s.InOrder schedStart window → s.recs + 2 ≤ fuel →
        ∃ s', s.addReservation fuel ⟨resv.1, resv.2, resBitmap⟩ = some s' ∧
          s'.InOrder schedStart window) ↔
    ∃ k : ℕ, schedStart ≤ k * resolution.toNat ∧
      (UInt32.ofInt startTime).toNat < (k + 1) * resolution.toNat ∧
      k * resolution.toNat ≤ (endReserve startTime bootTime timeLimit).toNat := by
  intro resv
  have hstart : resv.1.toNat = _ := toNat_rounded (.ofInt startTime) resolution
  have hend : resv.2.toNat = _ := toNat_rounded (endReserve startTime bootTime timeLimit) resolution
  rw [← max_rounded_le_iff hr, ← hstart, ← hend]
  generalize resv = resv
  exact and_iff_left_of_imp fun hcall s window resBitmap fuel h hfuel =>
    h.addReservation hcall hfuel

/-- A job of one minute and a resolution of ten. -/
theorem roundedResv_keeps_tenMinutes :
    max ((roundedResv 600 1190 0 1).1.toNat : ℤ) 1180 ≤ (roundedResv 600 1190 0 1).2.toNat :=
  ((roundedResv_keeps_iff (show 0 < (600 : UInt32).toNat by decide) 1180 1190 0 1).2
    ⟨2, by decide, by decide, by decide⟩).1

/-- The same job, when the window starts between two multiples of the resolution: the reservation
    ends before the window, and a record begins after its end, and after the next one. -/
theorem roundedResv_before_window :
    let resv := roundedResv 600 1000 0 1
    ¬max (resv.1.toNat : ℤ) 1000 ≤ resv.2.toNat ∧
      ∃ s, (NodeSpace.init 1000 600 {0}).addReservation 4 ⟨resv.1, resv.2, ∅⟩ = some s ∧
        (s.map 0).endTime < (s.map 0).beginTime ∧ (s.map 0).next = 2 ∧
        (s.map 2).beginTime < (s.map 0).beginTime :=
  ⟨by decide, _, rfl, by decide, by decide, by decide⟩

/-! ## Overlaps -/

namespace NodeSpace

/-- Does a job that uses `useBitmap` overlap with the reservations in the list from `j` on
    (`_test_resv_overlap`)? -/
def testResvOverlap (useBitmap : Bitmap) (startTime endReserve : UInt32) :
    ℕ → NodeSpace → ℕ → Option Bool
  | 0, _, _ => none
  | fuel + 1, s, j =>
    if (startTime.toNat : ℤ) < (s.map j).endTime ∧ (s.map j).beginTime < endReserve.toNat ∧
        ¬useBitmap ⊆ (s.map j).availBitmap then some true
    else if (s.map j).next = 0 then some false
    else testResvOverlap useBitmap startTime endReserve fuel s (s.map j).next

variable {s : NodeSpace} {j : ℕ} {l : List ℕ} {schedStart : ℤ} {window : ℕ} {avail : Bitmap}
  {calls : List ResvCall} {fuel : ℕ}

theorem testResvOverlap_spec (useBitmap : Bitmap) (startTime endReserve : UInt32)
    (h : s.Chain j l) (hfuel : l.length < fuel) :
    ∃ overlap, testResvOverlap useBitmap startTime endReserve fuel s j = some overlap ∧
      (overlap = true ↔ ∃ k ∈ j :: l, (startTime.toNat : ℤ) < (s.map k).endTime ∧
        (s.map k).beginTime < endReserve.toNat ∧ ¬useBitmap ⊆ (s.map k).availBitmap) := by
  induction l generalizing j fuel with
  | nil =>
    obtain ⟨fuel, rfl⟩ := exists_eq_succ_of_ne_zero (ne_of_gt hfuel)
    have hnext : (s.map j).next = 0 := h
    simp only [testResvOverlap, if_pos hnext]
    split_ifs with hover
    · exact ⟨true, rfl, by simpa using hover⟩
    · exact ⟨false, rfl, by simpa using hover⟩
  | cons k l ih =>
    obtain ⟨fuel, rfl⟩ := exists_eq_succ_of_ne_zero (ne_of_gt (zero_lt_of_lt hfuel))
    obtain ⟨hnext, hk, hrest⟩ := h
    obtain ⟨overlap, hoverlap, hiff⟩ := ih hrest (lt_of_succ_lt_succ hfuel)
    simp only [testResvOverlap, hnext, if_neg hk, hoverlap]
    split_ifs with hover
    · exact ⟨true, rfl, iff_of_true rfl ⟨j, mem_cons_self, hover⟩⟩
    · refine ⟨overlap, rfl, ?_⟩
      rw [hiff, exists_mem_cons_iff _ j, or_iff_right hover]

/-- A map that denotes the reservations, and whose first record has the nodes of the time at which
    it begins even if it is empty. -/
def MapsHead (schedStart : ℤ) (window : ℕ) (avail : Bitmap) (calls : List ResvCall)
    (s : NodeSpace) : Prop :=
  s.Maps schedStart window avail calls ∧
    (s.map 0).availBitmap = availAt schedStart avail calls schedStart

theorem MapsHead.addReservation (h : s.MapsHead schedStart window avail calls) {call : ResvCall}
    (hcall : max (call.startTime.toNat : ℤ) schedStart < call.endReserve.toNat)
    (hfuel : s.recs + 2 ≤ fuel) :
    ∃ s', addReservation fuel s call = some s' ∧ s'.recs ≤ s.recs + 2 ∧
      s'.MapsHead schedStart window avail (calls ++ [call]) := by
  obtain ⟨hmaps, hhead⟩ := h
  obtain ⟨s', hs', hrecs, hmaps'⟩ := hmaps.addReservation hcall fuel hfuel
  refine ⟨s', hs', hrecs, hmaps', ?_⟩
  obtain ⟨l, hlinked, htiles, -⟩ := hmaps
  obtain ⟨s'', l', hs'', -, -, hslots⟩ := addReservation_spec hlinked htiles.1 hcall.le hfuel
  obtain rfl := Option.some.inj (hs'.symm.trans hs'')
  have hvalue := head_mapWithin_splitStart (f := (· ∩ call.resBitmap))
    htiles hhead (le_max_right ..) hcall (s'.slot 0)
  rw [availAt_concat]
  refine hvalue ?_
  have hsame := congrArg List.head? hslots
  exact hsame.symm

theorem MapsHead.run {more : List ResvCall} (h : s.MapsHead schedStart window avail calls)
    (hcalls : ∀ call ∈ more, max (call.startTime.toNat : ℤ) schedStart < call.endReserve.toNat)
    (hfuel : s.recs + 2 * more.length ≤ fuel) :
    ∃ s', Run.run (exec fuel) (some s) more = some s' ∧ s'.recs ≤ s.recs + 2 * more.length ∧
      s'.MapsHead schedStart window avail (calls ++ more) := by
  induction more generalizing s calls with
  | nil => exact ⟨s, rfl, le_rfl, by rwa [append_nil]⟩
  | cons call more ih =>
    obtain ⟨hcall, hrest⟩ := forall_mem_cons.1 hcalls
    rw [length_cons] at hfuel ⊢
    obtain ⟨s1, hs1, hrecs1, h1⟩ := h.addReservation hcall (show s.recs + 2 ≤ fuel by omega)
    obtain ⟨s', hs', hrecs', h'⟩ := ih h1 hrest (by omega)
    have hexec : exec fuel (some s) call = some s1 := hs1
    rw [Run.run_cons, hexec, append_cons]
    exact ⟨s', hs', by omega, h'⟩

end NodeSpace

/-- Whatever reservations have been made in the window: the test says that a job overlaps with
    them exactly if, at some time of the job within the window, a node that it uses is not
    available. -/
theorem resvOverlap_exact (schedStart : ℤ) {window : ℕ} (hwindow : 0 < window) (avail : Bitmap)
    (calls : List ResvCall)
    (hcalls : ∀ call ∈ calls, max (call.startTime.toNat : ℤ) schedStart < call.endReserve.toNat)
    (useBitmap : Bitmap) {startTime endReserve : UInt32} (hjob : startTime < endReserve) {fuel : ℕ}
    (hfuel : 2 * calls.length + 1 ≤ fuel) :
    ∃ s overlap,
      Run.run (NodeSpace.exec fuel) (some (.init schedStart window avail)) calls = some s ∧
      s.testResvOverlap useBitmap startTime endReserve fuel 0 = some overlap ∧
      (overlap = true ↔ ∃ t : ℤ, (startTime.toNat ≤ t ∧ t < endReserve.toNat) ∧
        (schedStart ≤ t ∧ t < schedStart + window) ∧
        ∃ n ∈ useBitmap, n ∉ availAt schedStart avail calls t) := by
  have hinit : (init schedStart window avail).MapsHead schedStart window avail [] :=
    ⟨maps_init schedStart window avail, by simp [init, availAt]⟩
  obtain ⟨s, hs, hrecs, ⟨l, hlinked, htiles, hproper, hdenotes⟩, hhead⟩ :=
    hinit.run hcalls (show _ ≤ fuel from Nat.add_comm .. ▸ hfuel)
  rw [nil_append] at hdenotes hhead
  have hlen := hlinked.length_lt
  have hone : (init schedStart window avail).recs = 1 := rfl
  obtain ⟨overlap, hoverlap, hiff⟩ := testResvOverlap_spec useBitmap startTime endReserve
    hlinked.chain (show _ ≤ fuel by omega)
  refine ⟨s, overlap, hs, hoverlap, hiff.trans ?_⟩
  simp only [← Finset.not_subset]
  have hlt : startTime.toNat < endReserve.toNat := hjob
  constructor
  · rintro ⟨k, hk, hafter, hbefore, huse⟩
    obtain ⟨hbegin, hle, hend⟩ := htiles.bounds (mem_map_of_mem hk)
    dsimp only [slot] at hbegin hle hend
    by_cases hempty : (s.map k).beginTime < (s.map k).endTime
    · -- The later of the two begins is a time of both.
      refine ⟨max startTime.toNat (s.map k).beginTime, by omega, by omega, ?_⟩
      rwa [← hdenotes _ (mem_map_of_mem hk) _ ⟨by dsimp only [slot]; omega,
        by dsimp only [slot]; omega⟩]
    · -- Only the first record may be empty.
      rcases mem_cons.1 hk with rfl | hk
      · have hstart : (s.map 0).beginTime = schedStart := htiles.1
        refine ⟨schedStart, by omega, by omega, ?_⟩
        rwa [← hhead]
      · exact absurd (hproper _ (mem_map_of_mem hk)) hempty
  · rintro ⟨t, ht, ht', huse⟩
    obtain ⟨r, hr, hholds⟩ := htiles.exists_holds ht'.1 ht'.2
    rw [← hdenotes r hr t hholds] at huse
    obtain ⟨k, hk, rfl⟩ := mem_map.1 hr
    exact ⟨k, hk, ht.1.trans_lt hholds.2, hholds.1.trans_lt ht.2, huse⟩

/-- A job that ends when the reservation of its node starts. -/
theorem resvOverlap_exact_before :
    ∃ s, Run.run (NodeSpace.exec 9) (some (.init 100 10 {0, 1})) [⟨104, 108, {1}⟩] = some s ∧
      s.testResvOverlap {0} 100 104 9 0 = some false := by
  obtain ⟨s, overlap, hs, hoverlap, hiff⟩ := resvOverlap_exact 100 (show 0 < 10 by decide) {0, 1}
    [⟨104, 108, {1}⟩] (by decide) {0} (show (100 : UInt32) < 104 by decide)
    (show 2 * 1 + 1 ≤ 9 by decide)
  refine ⟨s, hs, hoverlap.trans (congrArg some (Bool.eq_false_iff.2 fun htrue => ?_))⟩
  obtain ⟨t, ht, -, n, hn, hnot⟩ := hiff.1 htrue
  obtain rfl := Finset.mem_singleton.1 hn
  refine hnot (Finset.mem_filter.2 ⟨by decide, fun call hcall hcovers => ?_⟩)
  obtain rfl := mem_singleton.1 hcall
  have hstart : (104 : ℤ) ≤ t := (le_max_left ..).trans hcovers.1
  exact absurd ht.2 (not_lt.2 hstart)

end Slurm
