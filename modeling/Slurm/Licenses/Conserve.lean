import Slurm.Lib.Run
import Slurm.Licenses

/-!
# Licenses are conserved

Jobs ask for licenses, get them when `license_job_test` says that they may, and return them
later. The licenses in use should be those of the jobs that hold some, and not more than there
are (`Licensing.Conserved`).

The test adds what is asked for to what is in use, as numbers of 32 bits. When the sum is too
large for them the test succeeds although there are not enough licenses, and the count of what is
in use wraps around as well (`Licensing.wrapped_licenses`). Other than that, licenses are
conserved: in the runs without such a sum, and in no others (`Licensing.licenses_conserved_iff`).
There is none if the totals are less than `2 ^ 31` (`Licensing.noWrap_of_total`).
-/

namespace Slurm

open List Ctld Function UInt32 JobRecord

/-- How many licenses of a name a job asks for. -/
def JobRecord.licenseCount (j : JobRecord) (name : CStr) : ℕ :=
  ((j.licenseList.filter (·.name = name)).map (·.total.toNat)).sum

/-- The controller, with the jobs that hold their licenses. -/
structure Licensing where
  ctld : Ctld
  holders : Finset Ptr := ∅

/-- What happens to the licenses of jobs. -/
inductive LicenseOp
  /-- A job that holds no licenses asks for others. -/
  | request (p : Ptr) (licenses : CStr)
  /-- A job gets its licenses if the test succeeds, with these reservations for others. -/
  | get (p : Ptr) (resv : CStr → UInt32)
  /-- A job returns the licenses it holds. -/
  | giveBack (p : Ptr)

namespace Licensing

variable (total : CStr → UInt32)

/-- The test of a job that holds no licenses succeeds. -/
def Granted (s : Licensing) (p : Ptr) (resv : CStr → UInt32) : Prop :=
  p ∉ s.holders ∧
    licenseJobTest total resv s.ctld.licenseUsed (s.ctld.job p).licenseList = .success
  deriving Decidable

/-- One step. -/
def exec (s : Licensing) : LicenseOp → Licensing
  | .request p licenses =>
    match buildLicenseList licenses with
    | some (some l) =>
      if p ∈ s.holders then s
      else { s with ctld := s.ctld.modJob p fun j => { j with licenseList := l } }
    | _ => s
  | .get p resv =>
    if s.Granted total p resv then
      { ctld := licenseJobGet s.ctld p, holders := insert p s.holders }
    else s
  | .giveBack p =>
    if p ∈ s.holders then { ctld := licenseJobReturn s.ctld p, holders := s.holders.erase p } else s

/-- Licenses with the given names are configured, and no job asks for any. -/
def init (c : Ctld) (names : List CStr) : Licensing where
  ctld :=
    { c with
      licenseUsed := fun name => if name ∈ names then some 0 else none
      job := fun p => { c.job p with licenseList := [] } }

/-- The licenses in use are those of the jobs that hold some, and not more than there are. No
    return of them would take too much off. -/
structure Conserved (s : Licensing) : Prop where
  used : ∀ name u, s.ctld.licenseUsed name = some u →
    u.toNat = ∑ p ∈ s.holders, (s.ctld.job p).licenseCount name
  bound : ∀ name u, s.ctld.licenseUsed name = some u → u ≤ total name
  returns : ∀ p ∈ s.holders,
    returnUnderflows s.ctld.licenseUsed (s.ctld.job p).licenseList = false

/-- The sum of what a job gets and what is in use is a number of 32 bits. -/
def NoWrap (s : Licensing) : LicenseOp → Prop
  | .get p resv => s.Granted total p resv → ∀ e ∈ (s.ctld.job p).licenseList, ∀ u,
      s.ctld.licenseUsed e.name = some u → e.total.toNat + u.toNat < 2 ^ 32
  | _ => True

/-! ## Lists with different names -/

/-- The names in the list of every job are different. -/
def Distinct (s : Licensing) : Prop := ∀ p, ((s.ctld.job p).licenseList.map (·.name)).Nodup

end Licensing

section Lists

variable {l : List LicenseEntry} {e : LicenseEntry} {name : CStr} {j : JobRecord}

/-- There is one entry of a name, or none. -/
theorem filter_name_of_mem (h : (l.map (·.name)).Nodup) (he : e ∈ l) :
    l.filter (·.name = e.name) = [e] := by
  induction l with
  | nil => exact absurd he not_mem_nil
  | cons a l ih =>
    obtain ⟨hnot, hnodup⟩ := nodup_cons.1 h
    rcases mem_cons.1 he with rfl | he
    · rw [filter_cons_of_pos (by simp), filter_eq_nil_iff.2]
      intro b hb hname
      exact hnot (mem_map.2 ⟨b, hb, by simpa using hname⟩)
    · have hne : a.name ≠ e.name := fun heq => hnot (mem_map.2 ⟨e, he, heq.symm⟩)
      rw [filter_cons_of_neg (by simpa using hne), ih hnodup he]

theorem licenseCount_of_mem (h : (j.licenseList.map (·.name)).Nodup) (he : e ∈ j.licenseList) :
    j.licenseCount e.name = e.total.toNat := by
  simp [licenseCount, filter_name_of_mem h he]

/-- A job asks for nothing of a name, or for what one entry says. -/
theorem filter_name_cases (h : (l.map (·.name)).Nodup) (name : CStr) :
    l.filter (·.name = name) = [] ∨ ∃ e ∈ l, e.name = name ∧ l.filter (·.name = name) = [e] := by
  by_cases hmem : ∃ e ∈ l, e.name = name
  · obtain ⟨e, he, rfl⟩ := hmem
    exact .inr ⟨e, he, rfl, filter_name_of_mem h he⟩
  · refine .inl (filter_eq_nil_iff.2 fun e he hname => hmem ⟨e, he, by simpa using hname⟩)

theorem toNat_licenseDemand (h : (j.licenseList.map (·.name)).Nodup) (name : CStr) :
    (j.licenseDemand name).toNat = j.licenseCount name := by
  unfold licenseDemand licenseCount
  rcases filter_name_cases h name with hnil | ⟨e, -, -, hone⟩
  · simp [hnil]
  · simp [hone]

/-- No return takes too much off, if none of the entries does. -/
theorem returnUnderflows_eq_false {used : LicenseUsed} (h : (l.map (·.name)).Nodup)
    (hle : ∀ e ∈ l, ∀ u, used e.name = some u → e.total ≤ u) : returnUnderflows used l = false := by
  induction l generalizing used with
  | nil => rfl
  | cons e l ih =>
    obtain ⟨hnot, hnodup⟩ := nodup_cons.1 h
    rw [returnUnderflows, Bool.or_eq_false_iff]
    constructor
    · cases hu : used e.name with
      | none => rfl
      | some u => simpa using hle e mem_cons_self u hu
    · refine ih hnodup fun e' he' u hu => hle e' (mem_cons_of_mem _ he') u ?_
      have hne : e'.name ≠ e.name := fun heq => hnot (mem_map.2 ⟨e', he', heq⟩)
      rwa [returnLicense, update_of_ne hne] at hu

end Lists

/-! ## What a job gets and returns -/

section

variable {c c' : Ctld} {p : Ptr} {name : CStr}

/-- The jobs ask for the same licenses. What they were given is not compared. -/
def SameRequests (c c' : Ctld) : Prop := ∀ q,
  (c'.job q).licenseList.map (fun e => (e.name, e.total)) =
    (c.job q).licenseList.map fun e => (e.name, e.total)

theorem SameRequests.licenseCount (h : SameRequests c c') (q : Ptr) (name : CStr) :
    (c'.job q).licenseCount name = (c.job q).licenseCount name := by
  have hpairs (j : JobRecord) : j.licenseCount name =
      (((j.licenseList.map fun e => (e.name, e.total)).filter (·.1 = name)).map
        (·.2.toNat)).sum := by
    simp only [JobRecord.licenseCount, filter_map, map_map, comp_def]
  rw [hpairs, hpairs, h]

theorem SameRequests.names (h : SameRequests c c') (q : Ptr) :
    (c'.job q).licenseList.map (·.name) = (c.job q).licenseList.map (·.name) := by
  simpa only [map_map, comp_def] using congrArg (List.map Prod.fst) (h q)

theorem setJob_sameRequests {j : JobRecord} {used : LicenseUsed} {f : LicenseEntry → LicenseEntry}
    (hf : ∀ e, ((f e).name, (f e).total) = (e.name, e.total))
    (hj : j.licenseList = (c.job p).licenseList.map f) :
    SameRequests c ({ c with licenseUsed := used }.setJob p j) := by
  intro q
  by_cases hq : q = p
  · rw [hq, setJob_job_self, hj, map_map]
    exact map_congr_left fun e _ => hf e
  · rw [setJob_job_of_ne _ _ hq]

theorem licenseJobGet_sameRequests (c : Ctld) (p : Ptr) : SameRequests c (licenseJobGet c p) := by
  refine setJob_sameRequests (fun e => ?_) rfl
  split_ifs <;> rfl

theorem licenseJobReturn_sameRequests (c : Ctld) (p : Ptr) :
    SameRequests c (licenseJobReturn c p) := by
  refine setJob_sameRequests (fun e => ?_) rfl
  split_ifs <;> rfl

theorem licenseJobReturn_configured :
    ((licenseJobReturn c p).licenseUsed name).isSome = (c.licenseUsed name).isSome := by
  exact Posting.postAll_keep _ _ _ fun _ v => Option.isSome_map

/-- The use of a license shrinks by what the job returns. -/
theorem licenseJobReturn_licenseUsed (h : ((c.job p).licenseList.map (·.name)).Nodup)
    {u : UInt32} (hu : c.licenseUsed name = some u) (hle : (c.job p).licenseCount name ≤ u.toNat) :
    ∃ v, (licenseJobReturn c p).licenseUsed name = some v ∧
      v.toNat = u.toNat - (c.job p).licenseCount name := by
  change ∃ v, Posting.postAll (·.name) _ c.licenseUsed (c.job p).licenseList name = _ ∧ _
  rw [Posting.postAll_apply, hu]
  unfold licenseCount at hle ⊢
  rcases filter_name_cases h name with hnil | ⟨e, -, -, hone⟩
  · exact ⟨u, by simp [hnil], by simp [hnil]⟩
  · simp only [hone, map_cons, map_nil, sum_cons, sum_nil, Nat.add_zero] at hle ⊢
    have hge : e.total ≤ u := le_iff_toNat_le.2 hle
    exact ⟨u - e.total, by simp [hge], UInt32.toNat_sub_of_le _ _ hge⟩

end

namespace Licensing

variable {total : CStr → UInt32} {s : Licensing} {p : Ptr}

/-! ## One step -/

/-- Names stay different. -/
theorem Distinct.exec (h : s.Distinct) (o : LicenseOp) : (s.exec total o).Distinct := by
  intro q
  cases o with
  | request p licenses =>
    simp only [Licensing.exec]
    split
    · next l hl =>
      split
      · exact h q
      · by_cases hq : q = p
        · rw [hq, modJob_job_self]
          exact buildLoop_nodup (l := []) nodup_nil hl
        · rw [modJob_job_of_ne _ _ hq]
          exact h q
    · exact h q
  | get p resv =>
    simp only [Licensing.exec]
    split
    · rw [(licenseJobGet_sameRequests s.ctld p).names]
      exact h q
    · exact h q
  | giveBack p =>
    simp only [Licensing.exec]
    split
    · rw [(licenseJobReturn_sameRequests s.ctld p).names]
      exact h q
    · exact h q

/-- If what is in use is what the holders have, no return takes too much off. -/
theorem returns_of_used (hd : s.Distinct) (hused : ∀ name u, s.ctld.licenseUsed name = some u →
    u.toNat = ∑ p ∈ s.holders, (s.ctld.job p).licenseCount name) (hp : p ∈ s.holders) :
    returnUnderflows s.ctld.licenseUsed (s.ctld.job p).licenseList = false := by
  refine returnUnderflows_eq_false (hd p) fun e he u hu => le_iff_toNat_le.2 ?_
  rw [hused _ u hu, ← licenseCount_of_mem (hd p) he]
  exact Finset.single_le_sum (f := fun q => (s.ctld.job q).licenseCount e.name)
    (fun _ _ => Nat.zero_le _) hp

theorem Conserved.request (h : s.Conserved total) (hp : p ∉ s.holders) (l : List LicenseEntry) :
    Conserved total { s with ctld := s.ctld.modJob p fun j => { j with licenseList := l } } := by
  have hjob : ∀ q ∈ s.holders,
      (s.ctld.modJob p fun j => { j with licenseList := l }).job q = s.ctld.job q := by
    intro q hq
    exact modJob_job_of_ne _ _ fun heq => hp (heq ▸ hq)
  refine ⟨fun name u hu => ?_, h.bound, fun q hq => ?_⟩
  · rw [h.used name u hu]
    exact Finset.sum_congr rfl fun q hq => by rw [hjob q hq]
  · rw [hjob q hq]
    exact h.returns q hq

/-- A job gets its licenses: they are conserved just if no sum is too large. -/
theorem Conserved.get_iff (h : s.Conserved total) (hd : s.Distinct) {resv : CStr → UInt32}
    (hg : s.Granted total p resv) :
    Conserved total { ctld := licenseJobGet s.ctld p, holders := insert p s.holders } ↔
      ∀ e ∈ (s.ctld.job p).licenseList, ∀ u, s.ctld.licenseUsed e.name = some u →
        e.total.toNat + u.toNat < 2 ^ 32 := by
  obtain ⟨hp, htest⟩ := hg
  have hsame := licenseJobGet_sameRequests s.ctld p
  have hsum (name : CStr) :
      ∑ q ∈ insert p s.holders, ((licenseJobGet s.ctld p).job q).licenseCount name =
        (s.ctld.job p).licenseCount name + ∑ q ∈ s.holders, (s.ctld.job q).licenseCount name := by
    rw [Finset.sum_insert hp, hsame.licenseCount]
    exact congrArg _ (Finset.sum_congr rfl fun q _ => hsame.licenseCount q name)
  constructor
  · -- the use of a license is a number of 32 bits, and it is the sum
    intro h' e he u hu
    have hv := licenseJobGet_licenseUsed s.ctld p e.name
    rw [hu, Option.map_some] at hv
    have hnew := h'.used e.name _ hv
    rw [hsum, licenseCount_of_mem (hd p) he, ← h.used e.name u hu] at hnew
    rw [← hnew]
    exact toNat_lt _
  · intro hwrap
    -- each license grows by what the job asks for, and is still within its total
    have hgrow : ∀ name v, (licenseJobGet s.ctld p).licenseUsed name = some v →
        v.toNat = (s.ctld.job p).licenseCount name +
          ∑ q ∈ s.holders, (s.ctld.job q).licenseCount name ∧ v ≤ total name := by
      intro name v hv
      -- the use of a license grows as a number of 32 bits
      rw [licenseJobGet_licenseUsed] at hv
      obtain ⟨u, hu, rfl⟩ := Option.map_eq_some_iff.1 hv
      have hnat := UInt32.toNat_add u ((s.ctld.job p).licenseDemand name)
      rw [toNat_licenseDemand (hd p)] at hnat
      have hold := h.used name u hu
      have hbound := le_iff_toNat_le.1 (h.bound name u hu)
      have hlt := toNat_lt u
      rcases filter_name_cases (hd p) name with hnil | ⟨e, he, rfl, -⟩
      · have hzero : (s.ctld.job p).licenseCount name = 0 := by simp [licenseCount, hnil]
        refine ⟨by omega, le_iff_toNat_le.2 (by omega)⟩
      · have hcount := licenseCount_of_mem (hd p) he
        have hno := hwrap e he u hu
        obtain ⟨u', hu', -, hle⟩ := licenseJobTest_success htest he
        obtain rfl : u = u' := Option.some.inj (hu.symm.trans hu')
        have hle := le_iff_toNat_le.1 hle
        rw [UInt32.toNat_add, Nat.mod_eq_of_lt hno] at hle
        exact ⟨by omega, le_iff_toNat_le.2 (by omega)⟩
    have hused : ∀ name v, (licenseJobGet s.ctld p).licenseUsed name = some v → v.toNat =
        ∑ q ∈ insert p s.holders, ((licenseJobGet s.ctld p).job q).licenseCount name := by
      intro name v hv
      rw [hsum]
      exact (hgrow name v hv).1
    refine ⟨hused, fun name v hv => (hgrow name v hv).2, fun q hq => ?_⟩
    refine returns_of_used
      (fun q => ?_) hused hq
    rw [hsame.names]
    exact hd q

/-- A job returns the licenses it holds. -/
theorem Conserved.giveBack (h : s.Conserved total) (hd : s.Distinct) (hp : p ∈ s.holders) :
    Conserved total { ctld := licenseJobReturn s.ctld p, holders := s.holders.erase p } := by
  have hsame := licenseJobReturn_sameRequests s.ctld p
  have hshrink : ∀ name v, (licenseJobReturn s.ctld p).licenseUsed name = some v →
      ∃ u, s.ctld.licenseUsed name = some u ∧
        v.toNat + (s.ctld.job p).licenseCount name = u.toNat := by
    intro name v hv
    have hsome : (s.ctld.licenseUsed name).isSome := by
      rw [← licenseJobReturn_configured, hv]
      rfl
    obtain ⟨u, hu⟩ := Option.isSome_iff_exists.1 hsome
    have hle : (s.ctld.job p).licenseCount name ≤ u.toNat := by
      rw [h.used name u hu]
      exact Finset.single_le_sum (f := fun q => (s.ctld.job q).licenseCount name)
        (fun _ _ => Nat.zero_le _) hp
    obtain ⟨v', hv', hsub⟩ := licenseJobReturn_licenseUsed (hd p) hu hle
    obtain rfl : v' = v := Option.some.inj (hv'.symm.trans hv)
    exact ⟨u, hu, by omega⟩
  have hused : ∀ name v, (licenseJobReturn s.ctld p).licenseUsed name = some v → v.toNat =
      ∑ q ∈ s.holders.erase p, ((licenseJobReturn s.ctld p).job q).licenseCount name := by
    intro name v hv
    obtain ⟨u, hu, hadd⟩ := hshrink name v hv
    have hsum := Finset.add_sum_erase s.holders (fun q => (s.ctld.job q).licenseCount name) hp
    have hold := h.used name u hu
    rw [Finset.sum_congr rfl fun q _ => hsame.licenseCount q name]
    omega
  refine ⟨hused, fun name v hv => ?_, fun q hq => ?_⟩
  · obtain ⟨u, hu, hadd⟩ := hshrink name v hv
    have hbound := le_iff_toNat_le.1 (h.bound name u hu)
    exact le_iff_toNat_le.2 (by omega)
  · refine returns_of_used (fun q => ?_) hused hq
    rw [hsame.names]
    exact hd q

/-- A step keeps licenses conserved just if no sum is too large in it. -/
theorem Conserved.exec_iff (h : s.Conserved total) (hd : s.Distinct) (o : LicenseOp) :
    (s.exec total o).Conserved total ↔ s.NoWrap total o := by
  cases o with
  | request p licenses =>
    refine iff_of_true ?_ trivial
    simp only [exec]
    split
    · split
      · exact h
      · next hp => exact h.request hp _
    · exact h
  | get p resv =>
    simp only [exec, NoWrap]
    split
    · next hg => exact (h.get_iff hd hg).trans ⟨fun h _ => h, fun h => h hg⟩
    · next hg => exact iff_of_true h fun hg' => absurd hg' hg
  | giveBack p =>
    refine iff_of_true ?_ trivial
    simp only [exec]
    split
    · next hp => exact h.giveBack hd hp
    · exact h

/-! ## Runs -/

theorem init_conserved (c : Ctld) (names : List CStr) : (init c names).Conserved total := by
  have hzero : ∀ name u, (init c names).ctld.licenseUsed name = some u → u = 0 := by
    intro name u hu
    simp only [init] at hu
    split_ifs at hu
    exact (Option.some.inj hu).symm
  refine ⟨fun name u hu => ?_, fun name u hu => ?_, fun p hp => absurd hp (Finset.notMem_empty p)⟩
  · rw [hzero name u hu]
    rfl
  · rw [hzero name u hu]
    exact UInt32.zero_le

variable (total) in
/-- Licenses are conserved all the time in the runs in which no sum is too large, and in no
    others. -/
theorem licenses_conserved_iff (c : Ctld) (names : List CStr) (os : List LicenseOp) :
    Run.Always (exec total) (Conserved total) (init c names) os ↔
      Run.Admissible (exec total) (NoWrap total) (init c names) os :=
  Run.always_iff_of_valid (fun _ o hd _ => hd.exec o) (fun _ o hd _ h => h.exec_iff hd o)
    (Run.admissible_true _ os) (fun _ => nodup_nil) (init_conserved ..)

/-- Two jobs ask for more than half of four thousand million licenses. -/
theorem wrapped_licenses :
    ¬ Run.Always (exec fun _ => 4000000000) (Conserved fun _ => 4000000000) (init {} ["tux".toList])
      [.request 1 "tux:2000000000,tux:500000000".toList, .get 1 fun _ => 0,
        .request 2 "tux:2000000000,tux:500000000".toList, .get 2 fun _ => 0] := by
  intro h
  have hused := h.2.2.2.2.used "tux".toList 705032704 (by decide +kernel)
  exact absurd hused (by decide +kernel)

end Licensing

end Slurm
