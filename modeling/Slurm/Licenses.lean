import Slurm.Lib.CString
import Slurm.Usage

/-!
# Requests for licenses

The licenses a job asks for are given by a string, as in `matlab:2,tux*3`, from which
`_build_license_list` makes the job's list (`buildLicenseList`). Names that occur more than once
are merged, so that the names of the list are different (`buildLicenseList_nodup`). Whether the
job may have its licenses now is told by `license_job_test` (`licenseJobTest`).

The string is cut into tokens in place. A loop then looks for the number of a token, and may
run over the end of the token into the next one, if nothing stands after the colon. So
the loop works on the whole text from the token on, in which the end of a string is the
character `nul`.
-/

namespace Slurm

open CString List Option

/-! ## The list of a request -/

/-- The end of a string within a longer text. -/
def nul : Char := '\x00'

/-- The separators of licenses. -/
def isLicenseSep (c : Char) : Bool := c = ',' || c = ';'

/-- The next token (`strtok_r`): the text from the token on, where the separator after it is
    overwritten, and the place from where the search goes on. -/
def nextToken (s : List Char) : Option (List Char × ℕ) :=
  let s := s.dropWhile isLicenseSep
  let inToken := fun c : Char => c ≠ nul && !isLicenseSep c
  let token := s.takeWhile inToken
  if token.isEmpty then none
  else
    match s.dropWhile inToken with
    | [] => some (token, token.length)
    | c :: rest =>
      if c = nul then some (token ++ c :: rest, token.length)
      else some (token ++ nul :: rest, token.length + 1)

/-- Look for the number of a token: whether there are no blanks, the number, and the text with
    the name cut off. It is `none` if the loop runs over the end of the text. -/
def scanToken : List Char → ℤ → Option (Bool × ℤ × List Char)
  | [], num => some (true, num, [])
  | c :: s, num =>
    if c = nul then some (true, num, c :: s)
    else if isSpace c then some (false, num, c :: s)
    else if c = ':' ∨ c = '*' then
      -- the character after the colon is stepped over, also if it is the end of the token
      match s with
      | [] => none
      | d :: rest =>
        (scanToken rest (toInt (strtol (d :: rest)).1)).map fun (valid, num, rest) =>
          (valid, num, nul :: d :: rest)
    else (scanToken s num).map fun (valid, num, rest) => (valid, num, c :: rest)

/-- Add to the total of the first entry with this name. -/
def addTotal (name : CStr) (num : UInt32) : List LicenseEntry → List LicenseEntry
  | [] => []
  | e :: l =>
    if e.name = name then { e with total := e.total + num } :: l else e :: addTotal name num l

/-- Ask for `num` more licenses of a name. -/
def addLicense (l : List LicenseEntry) (name : CStr) (num : UInt32) : List LicenseEntry :=
  if l.any (·.name = name) then addTotal name num l else { name := name, total := num } :: l

/-- The loop over the tokens. It is `none` if it runs over the end of the text, and
    `some none` if the request is not valid. -/
def buildLoop : ℕ → List Char → List LicenseEntry → Option (Option (List LicenseEntry))
  | 0, _, l => some (some l)
  | fuel + 1, s, l =>
    match nextToken s with
    | none => some (some l)
    | some (text, next) =>
      (scanToken text 1).bind fun (valid, num, text) =>
        if !valid ∨ num < 0 then some none
        else buildLoop fuel (text.drop next)
          (addLicense l (text.takeWhile (· ≠ nul)) (UInt32.ofNat num.toNat))

/-- The list of a request (`_build_license_list`). Every token is at least one character. -/
def buildLicenseList (licenses : CStr) : Option (Option (List LicenseEntry)) :=
  buildLoop (licenses.length + 1) licenses []

-- without a number, the one of the next license is taken
example : buildLicenseList "a:,b:5".toList =
    some (some [{ name := "b".toList, total := 1 }, { name := "a".toList, total := 5 }]) := by
  decide +kernel

variable {s text : List Char}

/-- The text of a token is shorter than the text before, from its end on. -/
theorem nextToken_length {next : ℕ} (h : nextToken s = some (text, next)) :
    text.length ≤ s.length ∧ 0 < next ∧ 0 < text.length := by
  simp only [nextToken] at h
  set t := s.dropWhile isLicenseSep
  have ht : t.length ≤ s.length := (dropWhile_suffix isLicenseSep).length_le
  set inToken := fun c : Char => c ≠ nul && !isLicenseSep c
  have hsplit : (t.takeWhile inToken).length + (t.dropWhile inToken).length = t.length := by
    rw [← length_append, takeWhile_append_dropWhile]
  split at h
  · cases h
  · next hne =>
    have hpos : 0 < (t.takeWhile inToken).length := length_pos_iff.2 (by simpa using hne)
    split at h
    · next hdrop =>
      rw [hdrop] at hsplit
      cases h
      exact ⟨by simp only [length_nil] at hsplit; omega, hpos, hpos⟩
    · next c rest hdrop =>
      rw [hdrop, length_cons] at hsplit
      split at h
      · cases h
        rw [length_append, length_cons]
        exact ⟨by omega, hpos, by omega⟩
      · cases h
        rw [length_append, length_cons]
        exact ⟨by omega, by omega, by omega⟩

theorem scanToken_length {num n : ℤ} {valid : Bool}
    (h : scanToken s num = some (valid, n, text)) : text.length = s.length := by
  fun_induction scanToken s num generalizing valid n text with
  | case1 num => cases h; rfl
  | case2 num s => cases h; rfl
  | case3 num c s _ _ => cases h; rfl
  | case4 => cases h
  | case5 num c _ _ _ d rest ih =>
    obtain ⟨⟨v, m, rest'⟩, hscan, heq⟩ := map_eq_some_iff.1 h
    cases heq
    simp [ih hscan]
  | case6 num c s _ _ _ ih =>
    obtain ⟨⟨v, m, rest'⟩, hscan, heq⟩ := map_eq_some_iff.1 h
    cases heq
    simp [ih hscan]

/-- The loop ends before its fuel does. -/
theorem buildLoop_fuel {fuel fuel' : ℕ} (h : s.length < fuel)
    (h' : s.length < fuel') (l : List LicenseEntry) : buildLoop fuel s l = buildLoop fuel' s l := by
  induction fuel generalizing fuel' s l with
  | zero => omega
  | succ fuel ih =>
    obtain ⟨fuel', rfl⟩ := Nat.exists_eq_succ_of_ne_zero (by omega : fuel' ≠ 0)
    cases htok : nextToken s with
    | none => simp [buildLoop, htok]
    | some r =>
      obtain ⟨text, next⟩ := r
      obtain ⟨hlen, hnext, hpos⟩ := nextToken_length htok
      cases hscan : scanToken text 1 with
      | none => simp [buildLoop, htok, hscan]
      | some r =>
        obtain ⟨valid, num, text'⟩ := r
        have hlen' := scanToken_length hscan
        have hshort : (text'.drop next).length < fuel ∧ (text'.drop next).length < fuel' := by
          rw [length_drop]
          omega
        simp [buildLoop, htok, hscan, ih hshort.1 hshort.2]

/-- More rounds of the loop make no difference. -/
theorem buildLicenseList_rounds (licenses : CStr) (n : ℕ) :
    buildLoop (licenses.length + 1 + n) licenses [] = buildLicenseList licenses :=
  buildLoop_fuel (by omega) (by omega) []

/-! ## Names are different -/

theorem addTotal_names (name : CStr) (num : UInt32) (l : List LicenseEntry) :
    (addTotal name num l).map (·.name) = l.map (·.name) := by
  induction l with
  | nil => rfl
  | cons e l ih =>
    simp only [addTotal]
    split
    · rfl
    · rw [map_cons, ih, map_cons]

variable {l : List LicenseEntry}

theorem addLicense_nodup (h : (l.map (·.name)).Nodup) (name : CStr)
    (num : UInt32) : ((addLicense l name num).map (·.name)).Nodup := by
  unfold addLicense
  split
  · rwa [addTotal_names]
  · next hany =>
    refine nodup_cons.2 ⟨fun hmem => hany ?_, h⟩
    obtain ⟨e, he, hname⟩ := mem_map.1 hmem
    exact any_eq_true.2 ⟨e, he, by simpa using hname⟩

/-- The names in the list of a request are different. -/
theorem buildLoop_nodup {fuel : ℕ} {l' : List LicenseEntry}
    (hl : (l.map (·.name)).Nodup) (h : buildLoop fuel s l = some (some l')) :
    (l'.map (·.name)).Nodup := by
  induction fuel generalizing s l with
  | zero =>
    cases h
    exact hl
  | succ fuel ih =>
    simp only [buildLoop] at h
    split at h
    · cases h
      exact hl
    · obtain ⟨⟨valid, num, text⟩, -, h⟩ := bind_eq_some_iff.1 h
      split at h
      · cases h
      · exact ih (addLicense_nodup hl _ _) h

/-! ## Whether licenses are available -/

/-- What `license_job_test` returns. -/
inductive LicenseRc
  | success
  | eagain
  | error
  deriving DecidableEq

/-- Whether there are licenses left for these entries (`license_job_test`). The sums are
    those of `uint32_t`. The licenses that reservations keep for others (`job_test_lic_resv`) are
    given for every name. -/
def licenseJobTest (total resv : CStr → UInt32) (used : LicenseUsed) : List LicenseEntry → LicenseRc
  | [] => .success
  | e :: l =>
    match used e.name with
    | none => .error
    | some u =>
      if e.total > total e.name then .error
      else if e.total + u > total e.name then .eagain
      else if e.total + u + resv e.name > total e.name then .eagain
      else licenseJobTest total resv used l

/-- What is known of each entry after the test. -/
theorem licenseJobTest_success {total resv : CStr → UInt32} {used : LicenseUsed}
    (h : licenseJobTest total resv used l = .success) {e : LicenseEntry} (he : e ∈ l) :
    ∃ u, used e.name = some u ∧ e.total ≤ total e.name ∧ e.total + u ≤ total e.name := by
  induction l with
  | nil => exact absurd he not_mem_nil
  | cons a l ih =>
    rw [licenseJobTest] at h
    cases hu : used a.name with
    | none =>
      rw [hu] at h
      cases h
    | some u =>
      simp only [hu] at h
      split_ifs at h with h1 h2 h3
      rcases mem_cons.1 he with rfl | he
      · exact ⟨u, hu, UInt32.not_lt.1 h1, UInt32.not_lt.1 h2⟩
      · exact ih h he

/-- In the loop of `license_job_return`, some license is returned of which less is in use. -/
def returnUnderflows : LicenseUsed → List LicenseEntry → Bool
  | _, [] => false
  | used, e :: l => (used e.name).any (· < e.total) || returnUnderflows (returnLicense used e) l

end Slurm
