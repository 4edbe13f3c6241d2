import Slurm.Depend.Atomic

/-!
# The text of dependencies

The list of the dependencies of a job is kept as a string too, in the form in which
`_depend_list2str` prints it. This module reads such a string back: one job and its tasks
(`parseTarget_targetText`), one clause (`parseClause_named`, `parseClause_plain`), and a whole
list (`parseDepend_text`), if the text of each of its dependencies says all about it
(`Ctld.Complete`).

Two texts do not. That of a job of a pack is the name and a blank, which the reader refuses. That
of a member of a pack leaves out the task of an array, and from the second one on its name, so
that it is read as another dependency. `parseDepend_text_of_success` says what is left of a list
with such entries.
-/

namespace Slurm

open CString List DependSpec

/-! ## The text of a dependency -/

/-- A job and its tasks, as they are printed. -/
def targetText (jobId taskId : ℕ) : CStr :=
  fmtU jobId ++
    if taskId = infinite then "_*".toList
    else if taskId = noVal then []
    else '_' :: fmtU taskId

/-- What stands behind the text of a dependency: nothing, or the text of the next one. -/
inductive Follows : CStr → Prop
  | nil : Follows []
  | comma (s : CStr) : Follows (',' :: s)
  | or (s : CStr) : Follows ('?' :: s)

theorem Follows.endsDigits {s : CStr} (h : Follows s) : EndsDigits s := by
  cases h <;> simp [EndsDigits]

theorem Follows.endsTarget {s : CStr} (h : Follows s) : Ctld.endsTarget s := by
  cases h <;> simp [Ctld.endsTarget]

/-- A job that was printed is read back, with its tasks. -/
theorem parseTarget_targetText {jobId taskId : ℕ} (hjob : jobId < 2 ^ 32) (htask : taskId < 2 ^ 32)
    {s : CStr} (h : Follows s) : parseTarget (targetText jobId taskId ++ s) = (jobId, taskId, s) := by
  have hread {rest : CStr} (hrest : EndsDigits rest) {n : ℕ} (hn : n < 2 ^ 32) :
      strtol (fmtU n ++ rest) = ((n : ℤ), rest) := strtol_fmtU (by omega) hrest
  unfold parseTarget targetText
  split_ifs with hinf hno
  · rw [append_assoc, hread (by simp [EndsDigits]) hjob, hinf]
    exact Prod.ext (toUInt_natCast hjob) rfl
  · rw [append_nil, hread h.endsDigits hjob, hno]
    cases h <;> exact Prod.ext (toUInt_natCast hjob) rfl
  · rw [append_assoc, cons_append, hread (by simp [EndsDigits]) hjob]
    obtain ⟨ch, digits, hch⟩ := exists_cons_of_ne_nil (fmtU_ne_nil taskId)
    have hstar : ch ≠ '*' := by
      rintro rfl
      have hdigit : '*'.isDigit := isDigit_of_mem_fmtU (n := taskId) (by simp [hch])
      exact absurd hdigit (by decide)
    have htasks := hread h.endsDigits htask
    rw [hch, cons_append] at htasks ⊢
    dsimp only
    split
    · rename_i heq
      simp only [List.cons.injEq] at heq
      exact absurd heq.2.1 hstar
    · rename_i heq
      simp only [List.cons.injEq, true_and] at heq
      rw [← heq, htasks, toUInt_natCast hjob, toUInt_natCast htask]
    · rename_i _ hnot
      exact absurd rfl (hnot _)

namespace DependType

variable {type : DependType} (h : type.OnJob)

include h

theorem OnJob.not_startsWith_pack (s : CStr) :
    ¬(startsWith (type.name ++ ':' :: s) "pack".toList ∧
      ¬startsWith (type.name ++ ':' :: s) "packl".toList) := by
  cases type with
  | packleader =>
    have hlead : startsWith ("packleader".toList ++ ':' :: s) "packl".toList = true := rfl
    exact fun hpack => hpack.2 hlead
  | pack => exact absurd rfl h.1
  | singleton => exact absurd rfl h.2
  | _ => exact fun hpack => absurd hpack.1 (Bool.eq_false_iff.1 rfl)

theorem OnJob.not_startsWith_singleton (s : CStr) :
    ¬startsWith (type.name ++ ':' :: s) "singleton".toList := by
  cases type with
  | pack => exact absurd rfl h.1
  | singleton => exact absurd rfl h.2
  | _ => exact Bool.eq_false_iff.1 rfl

/-- The name of a type is read as this type. -/
theorem OnJob.dependTest_name (env : Env) (s : CStr) :
    dependTest env (type.name ++ ':' :: s) =
      if type = .expand ∧ ¬env.jobExpandAllow then none else some type := by
  cases type with
  | pack => exact absurd rfl h.1
  | singleton => exact absurd rfl h.2
  | expand =>
    have htest : dependTest env (expand.name ++ ':' :: s) =
        if env.jobExpandAllow then some .expand else none := rfl
    rw [htest]
    cases env.jobExpandAllow <;> rfl
  | _ => rfl

omit h in
theorem dropWhile_name (s : CStr) :
    (type.name ++ ':' :: s).dropWhile (· ≠ ':') = ':' :: s := by
  cases type <;> rfl

end DependType

/-! ## Clauses that were printed -/

namespace Ctld

/-- What follows is read as the next clause. -/
def next (l : DependLoop) : CStr → Rc × Option CStr × DependLoop
  | ',' :: s => (.success, some s, l)
  | '?' :: s => (.success, some s, l.setOr)
  | _ => (.success, none, l)

variable (env : Env) (now : ℤ) (c : Ctld) (p : Ptr)

/-- The dependency on a job is refused: it cannot be expanded, or it is the second one to be. -/
def RefusesExpand (type : DependType) (q : Option Ptr) (l : DependLoop) : Prop :=
  type = .expand ∧ (¬env.jobExpandAllow ∨ l.expand ≠ none ∨ ¬q.any fun q => c.mayExpand p q)
  deriving Decidable

variable {c p} {s : CStr}

/-- A clause with one job that was printed. -/
theorem parseClause_named {type : DependType} (htype : type.OnJob) {jobId taskId : ℕ}
    (hname : c.NamesJob p jobId taskId) (hs : Follows s) (l : DependLoop) :
    (c.RefusesExpand env p type (c.dependTarget jobId taskId).1 l ∧
        (c.parseClause env now p (type.name ++ ':' :: targetText jobId taskId ++ s) l).1 ≠ .success) ∨
      (¬c.RefusesExpand env p type (c.dependTarget jobId taskId).1 l ∧
        c.parseClause env now p (type.name ++ ':' :: targetText jobId taskId ++ s) l =
          next (c.addTarget type jobId (c.dependTarget jobId taskId).1
            (c.dependTarget jobId taskId).2 (l.test type)) s) := by
  have hcolon : ':' ∈ type.name ++ ':' :: (targetText jobId taskId ++ s) := by simp
  rw [append_assoc, cons_append, parseClause, if_neg (htype.not_startsWith_pack _),
    if_neg (htype.not_startsWith_singleton _), if_neg (not_not.2 hcolon), htype.dependTest_name,
    DependType.dropWhile_name, drop_one, tail_cons]
  by_cases hallow : type = .expand ∧ ¬env.jobExpandAllow
  · rw [if_pos hallow]
    exact .inl ⟨⟨hallow.1, .inl hallow.2⟩, by simp⟩
  · rw [if_neg hallow]
    have hgood : ¬(jobId = 0 ∨ jobId = (c.job p).jobId ∨ ¬endsTarget s) := by
      simp [hname.ne_zero, hname.ne_self, hs.endsTarget]
    simp only [testClause, parseTargets, parseTarget_targetText hname.jobId_lt hname.taskId_lt hs,
      if_neg hgood]
    by_cases hexpand : type = .expand ∧ ((l.test type).expand ≠ none ∨
        ¬(c.dependTarget jobId taskId).1.any fun q => c.mayExpand p q)
    · rw [if_pos hexpand]
      exact .inl ⟨⟨hexpand.1, .inr hexpand.2⟩, by simp⟩
    · rw [if_neg hexpand]
      refine .inr ⟨?_, ?_⟩
      · rintro ⟨hexp, hrefused | hrefused⟩
        · exact hallow ⟨hexp, hrefused⟩
        · exact hexpand ⟨hexp, hrefused⟩
      · cases hs <;> rfl

variable (c p)

/-- A job alone is read as a dependency on its end, up to a comma. -/
theorem parseClause_plain {jobId : ℕ} (hname : c.NamesJob p jobId noVal) (hs : Follows s)
    (l : DependLoop) (h : (c.parseClause env now p (targetText jobId noVal ++ s) l).1 = .success) :
    c.parseClause env now p (targetText jobId noVal ++ s) l =
      next (c.addTarget .afterAny jobId (c.dependTarget jobId noVal).1
        (c.dependTarget jobId noVal).2 l) s := by
  have htarget := parseTarget_targetText hname.jobId_lt hname.taskId_lt hs
  obtain ⟨ch, digits, hch⟩ := exists_cons_of_ne_nil (fmtU_ne_nil jobId)
  have hdigit : ch.isDigit := isDigit_of_mem_fmtU (n := jobId) (by simp [hch])
  have hword (w : CStr) (hw : w.head?.map Char.isDigit = some false) :
      ¬startsWith (targetText jobId noVal ++ s) w := by
    obtain ⟨a, ha, hfalse⟩ := Option.map_eq_some_iff.1 hw
    obtain ⟨t, rfl⟩ := head?_eq_some_iff.1 ha
    rw [targetText, hch]
    exact Bool.eq_false_iff.1 (not_startsWith_of_isDigit hdigit hfalse _ _)
  have hhead : (targetText jobId noVal ++ s).head?.any Char.isDigit = true := by
    rw [targetText, hch]
    exact hdigit
  have htest : dependTest env (targetText jobId noVal ++ s) = none := by
    unfold dependTest
    iterate 7 rw [if_neg (hword _ (by decide))]
  rw [parseClause, if_neg fun hp => hword _ (by decide) hp.1, if_neg (hword _ (by decide))] at h ⊢
  rw [htest, if_pos hhead] at h ⊢
  split_ifs at h ⊢ with hcolon
  · simp only [plainClause, htarget] at h ⊢
    split_ifs at h ⊢ with hbad
    cases hs with
    | nil => rfl
    | comma s => rfl
    | or s => simp at hbad

end Ctld

/-! ## Lists that were printed -/

namespace DependSpec

variable (d : DependSpec)

/-- The text of a dependency on jobs that does not leave out the tasks. -/
theorem text_of_onJob (h : d.dependType.OnJob) (hlead : ¬d.marksLeader) (leader1 : Bool) :
    d.text leader1 = d.dependType.name ++ ':' :: targetText d.jobId d.arrayTaskId := by
  unfold text targetText
  rw [if_neg h.2]
  split_ifs with hinf hno hpack hleader
  · simp
  · simp
  · exact absurd hpack h.1
  · exact absurd ⟨hleader, hinf, hno⟩ hlead
  · exact absurd ⟨hleader, hinf, hno⟩ hlead
  · simp

/-- The text of a member of a pack leaves out its task, and later its name too. -/
theorem text_of_marksLeader (h : d.marksLeader) (leader1 : Bool) :
    d.text leader1 = if leader1 then targetText d.jobId noVal
      else d.dependType.name ++ ':' :: targetText d.jobId noVal := by
  obtain ⟨htype, hinf, hno⟩ := h
  have htext : targetText d.jobId noVal = fmtU d.jobId := by simp [targetText, noVal, infinite]
  simp [text, htype, hinf, hno, htext]

theorem text_of_pack (h : d.dependType = .pack) (htask : d.arrayTaskId = 0) (leader1 : Bool) :
    d.text leader1 = "pack ".toList := by
  have hinf : (0 : ℕ) ≠ infinite := by decide
  have hno : (0 : ℕ) ≠ noVal := by decide
  rw [text, h, htask, if_neg (by decide), if_neg hinf, if_neg hno, if_pos rfl]
  rfl

/-- What stands behind a dependency if `ds` come after it; `orFlag` is set for alternatives. -/
def restText (orFlag leader1 : Bool) (ds : List DependSpec) : CStr :=
  if ds = [] then []
  else
    (if orFlag ∧ d.dependType ≠ .singleton then '?' else ',') ::
      (dependList2str orFlag [] (leader1 || d.marksLeader) ds).1

theorem follows_restText (orFlag leader1 : Bool) (ds : List DependSpec) :
    Follows (d.restText orFlag leader1 ds) := by
  unfold restText
  split_ifs
  · exact .nil
  · exact .or _
  · exact .comma _

end DependSpec

/-- The text of a list, and what its entries are with their flags. -/
theorem dependList2str_cons {d : DependSpec} (hd : d.dependFlags = 0) (orFlag leader1 : Bool)
    (ds : List DependSpec) :
    (dependList2str orFlag [] leader1 (d :: ds)).1 =
      d.text leader1 ++ d.restText orFlag leader1 ds := by
  have hsep : (if (if orFlag ∧ d.dependType ≠ .singleton then d.setOr else d).dependType ≠ .singleton ∧
      (if orFlag ∧ d.dependType ≠ .singleton then d.setOr else d).isOr then "?".toList
      else ",".toList) = [if orFlag ∧ d.dependType ≠ .singleton then '?' else ','] := by
    by_cases h : orFlag ∧ d.dependType ≠ .singleton
    · have hor : d.setOr.isOr := by simp [isOr, setOr, hd]
      have htype : d.setOr.dependType ≠ .singleton := h.2
      simp only [if_pos h, if_pos (And.intro htype hor)]
      rfl
    · have hor : ¬d.isOr := by simp [isOr, hd]
      simp only [if_neg h, hor, and_false, if_false]
      rfl
  simp only [dependList2str, nil_append, restText]
  rw [hsep]
  cases ds <;> simp [dependList2str]

/-- An entry of a list, but for its job. -/
def DependSpec.key (d : DependSpec) : DependType × ℕ × ℕ × Bool :=
  (d.dependType, d.jobId, d.arrayTaskId, decide d.isOr)

theorem dependList2str_keys {deps : List DependSpec} (h : ∀ d ∈ deps, d.dependFlags = 0)
    (orFlag : Bool) (sep : CStr) (leader1 : Bool) :
    (dependList2str orFlag sep leader1 deps).2.map DependSpec.key =
      deps.map fun d => (d.dependType, d.jobId, d.arrayTaskId,
        decide (orFlag ∧ d.dependType ≠ .singleton)) := by
  rw [dependList2str_snd, map_map]
  refine map_congr_left fun d hd => ?_
  have hflags := h d hd
  rw [Function.comp_apply]
  split_ifs with hor
  · simp [key, setOr, isOr, hflags, hor]
  · simp [key, isOr, hflags, hor]

/-! ## Reading back -/

namespace Ctld

section

variable (c : Ctld) (p : Ptr)

/-- A dependency as the reader makes it. -/
structure ReadEntry (d : DependSpec) : Prop where
  flags : d.dependFlags = 0
  kind : d.dependType = .pack ∧ d.arrayTaskId = 0 ∨ d = { dependType := .singleton } ∨
    d.dependType.OnJob ∧ c.NamesJob p d.jobId d.arrayTaskId

/-- The job of a dependency is found under the id and the tasks of the dependency. -/
def HasTarget (d : DependSpec) : Prop :=
  ∃ q, c.dependTarget d.jobId d.arrayTaskId = (some q, d.arrayTaskId) ∧
    (c.dependEntry d.dependType q d.arrayTaskId).jobId = d.jobId

/-- The dependency that is read for the text of one. -/
def reread (d : DependSpec) : DependSpec :=
  if d.dependType = .singleton then { dependType := .singleton }
  else
    { arrayTaskId := d.arrayTaskId
      dependType := d.dependType
      jobId := d.jobId
      jobPtr := (c.dependTarget d.jobId d.arrayTaskId).1 }

/-- What has been read when a dependency more was read back. -/
def enter (d : DependSpec) (l : DependLoop) : DependLoop :=
  { l with
    dependType := some d.dependType
    dependList := l.dependList ++ [c.reread d]
    expand :=
      if d.dependType = .expand then
        (c.dependTarget d.jobId d.arrayTaskId).1.map fun q => (d.jobId, q)
      else l.expand }

/-- A dependency of which the text says all. -/
structure Complete (d : DependSpec) : Prop extends c.ReadEntry p d where
  ne_pack : d.dependType ≠ .pack
  not_marksLeader : ¬d.marksLeader
  hasTarget : d.dependType.OnJob → c.HasTarget d

/-- The jobs to expand can be expanded. -/
def CanExpand (env : Env) (deps : List DependSpec) : Prop :=
  ∀ d ∈ deps, d.dependType = .expand →
    env.jobExpandAllow ∧ (c.dependTarget d.jobId d.arrayTaskId).1.any fun q => c.mayExpand p q

variable {c p} (env : Env) (now : ℤ) {fuel jobId taskId : ℕ} {l : DependLoop} {d : DependSpec}
  {deps : List DependSpec} {tok : CStr}

theorem parseDepend_next (orFlag leader1 : Bool) (d : DependSpec) (ds : List DependSpec)
    {l' : DependLoop} (h : c.parseClause env now p tok l = next l' (d.restText orFlag leader1 ds)) :
    c.parseDepend env now p (fuel + 1) tok l = if ds = [] then (.success, l')
      else c.parseDepend env now p fuel (dependList2str orFlag [] (leader1 || d.marksLeader) ds).1
        (if orFlag ∧ d.dependType ≠ .singleton then l'.setOr else l') := by
  rw [parseDepend, h, restText]
  split_ifs <;> rfl

/-- If a string is read to its end, so is its first clause. -/
theorem parseClause_of_success (h : (c.parseDepend env now p (fuel + 1) tok l).1 = .success) :
    (c.parseClause env now p tok l).1 = .success := by
  rw [parseDepend] at h
  split at h
  · rename_i heq
    rw [heq]
  · rename_i heq
    rw [heq]
    exact h

/-- A dependency of which the text says all is read back, unless its job cannot be expanded. -/
theorem parseClause_text (hd : c.Complete p d) (orFlag leader1 : Bool)
    (ds : List DependSpec) (l : DependLoop) :
    (c.RefusesExpand env p d.dependType (c.dependTarget d.jobId d.arrayTaskId).1 l ∧
        (c.parseClause env now p (d.text leader1 ++ d.restText orFlag leader1 ds) l).1 ≠ .success) ∨
      (¬c.RefusesExpand env p d.dependType (c.dependTarget d.jobId d.arrayTaskId).1 l ∧
        c.parseClause env now p (d.text leader1 ++ d.restText orFlag leader1 ds) l =
          next (c.enter d l) (d.restText orFlag leader1 ds)) := by
  obtain ⟨hpack, -⟩ | rfl | ⟨htype, hname⟩ := hd.kind
  · exact absurd hpack hd.ne_pack
  · refine .inr ⟨fun h => absurd h.1 (by simp), ?_⟩
    have htext : text { dependType := .singleton } leader1 = "singleton".toList := rfl
    rw [htext, restText]
    -- a clause without jobs, of which the name was printed
    change flagClause { dependType := .singleton } _ l = _
    split_ifs <;> simp_all [flagClause, next, enter, reread, DependLoop.test, DependLoop.append]
  · obtain ⟨q, hq, hid⟩ := hd.hasTarget htype
    have henter : c.addTarget d.dependType d.jobId (c.dependTarget d.jobId d.arrayTaskId).1
        (c.dependTarget d.jobId d.arrayTaskId).2 (l.test d.dependType) = c.enter d l := by
      have hentry : c.dependEntry d.dependType q d.arrayTaskId = c.reread d := by
        rw [reread, if_neg htype.2, hq, ← hid]
        rfl
      rw [enter, hq, addTarget, hentry]
      split_ifs <;> rfl
    have hclause := parseClause_named env now htype hname (d.follows_restText orFlag leader1 ds) l
    rwa [henter, ← d.text_of_onJob htype hd.not_marksLeader leader1] at hclause

theorem refusesExpand_iff (hl : l.expand ≠ none → d.dependType ≠ .expand) :
    c.RefusesExpand env p d.dependType (c.dependTarget d.jobId d.arrayTaskId).1 l ↔
      ¬c.CanExpand p env [d] := by
  by_cases htype : d.dependType = .expand
  · have hfirst : l.expand = none := by
      by_contra h
      exact hl h htype
    simp only [RefusesExpand, CanExpand, mem_singleton, forall_eq, htype, hfirst, true_and,
      true_imp_iff, not_and_or, ne_eq, not_true_eq_false, false_or]
  · simp [RefusesExpand, CanExpand, htype]

/-- A list of which the text says all is read back, if the jobs to expand can be expanded. -/
theorem parseDepend_text (hne : deps ≠ []) (hdeps : ∀ d ∈ deps, c.Complete p d)
    (hone : deps.Pairwise fun d e => d.dependType = .expand → e.dependType ≠ .expand)
    (orFlag leader1 : Bool) (hfuel : deps.length ≤ fuel)
    (hl : l.expand ≠ none → ∀ d ∈ deps, d.dependType ≠ .expand) :
    (¬c.CanExpand p env deps ∧
        (c.parseDepend env now p fuel (dependList2str orFlag [] leader1 deps).1 l).1 ≠ .success) ∨
      (c.CanExpand p env deps ∧
        ∃ l', c.parseDepend env now p fuel (dependList2str orFlag [] leader1 deps).1 l =
            (.success, l') ∧ l'.dependList = l.dependList ++ deps.map c.reread ∧
          l'.dependType = deps.getLast?.map (·.dependType) ∧
          l'.orFlag = (l.orFlag || orFlag && deps.dropLast.any (·.dependType ≠ .singleton))) := by
  induction deps generalizing fuel l leader1 with
  | nil => exact absurd rfl hne
  | cons d ds ih =>
    obtain ⟨fuel, rfl⟩ : ∃ n, fuel = n + 1 := ⟨fuel - 1, by simp at hfuel; omega⟩
    rw [pairwise_cons] at hone
    rw [forall_mem_cons] at hdeps
    have hcan : c.CanExpand p env (d :: ds) ↔ c.CanExpand p env [d] ∧ c.CanExpand p env ds := by
      simp [CanExpand]
    rw [hcan, dependList2str_cons hdeps.1.flags]
    have hrefuses : c.RefusesExpand env p d.dependType (c.dependTarget d.jobId d.arrayTaskId).1 l ↔
        ¬c.CanExpand p env [d] := refusesExpand_iff env fun h => hl h d mem_cons_self
    obtain ⟨hrefused, hrc⟩ | ⟨htaken, hnext⟩ := parseClause_text env now hdeps.1 orFlag leader1 ds l
    · exact .inl ⟨fun h => hrefuses.1 hrefused h.1, fun h => hrc (parseClause_of_success env now h)⟩
    · rw [hrefuses, not_not] at htaken
      rw [parseDepend_next env now orFlag leader1 d ds hnext]
      by_cases hds : ds = []
      · subst hds
        refine .inr ⟨⟨htaken, by simp [CanExpand]⟩, c.enter d l, by simp, ?_⟩
        simp [enter]
      · rw [if_neg hds]
        have hlater : (if orFlag ∧ d.dependType ≠ .singleton then (c.enter d l).setOr
            else c.enter d l).expand ≠ none → ∀ e ∈ ds, e.dependType ≠ .expand := by
          have hexpand : (if orFlag ∧ d.dependType ≠ .singleton then (c.enter d l).setOr
              else c.enter d l).expand = (c.enter d l).expand := by
            split_ifs <;> rfl
          rw [hexpand]
          by_cases htype : d.dependType = .expand
          · exact fun _ e he => hone.1 e he htype
          · rw [enter]
            simp only [if_neg htype]
            exact fun h e he => hl h e (mem_cons_of_mem d he)
        have hrest := ih hds hdeps.2 hone.2 (leader1 || d.marksLeader) (by simpa using hfuel) hlater
        have hlast : (d :: ds).getLast? = ds.getLast? := by
          obtain ⟨e, es, rfl⟩ := exists_cons_of_ne_nil hds
          rw [List.getLast?_cons_cons]
        have hdrop : (d :: ds).dropLast = d :: ds.dropLast := dropLast_cons_of_ne_nil hds
        rw [hlast, hdrop, and_iff_right htaken]
        refine hrest.imp_right (And.imp_right ?_)
        rintro ⟨l', heq, hlist, htype, hor⟩
        refine ⟨l', heq, ?_, htype, ?_⟩
        · rw [hlist]
          split_ifs <;> simp [enter, DependLoop.setOr]
        · rw [hor, any_cons]
          split_ifs with hcond
          · simp [hcond, DependLoop.setOr]
          · have hnot : (orFlag && decide (d.dependType ≠ .singleton)) = false := by
              simpa using hcond
            rw [Bool.and_or_distrib_left, hnot, Bool.false_or]
            rfl

/-! ### Dependencies of which the text leaves something out -/

theorem dependTarget_task (h : taskId = infinite ∨ taskId = noVal) :
    (c.dependTarget jobId taskId).2 = infinite ∨ (c.dependTarget jobId taskId).2 = noVal := by
  unfold dependTarget
  split_ifs with hno
  · dsimp only
    split_ifs
    · exact .inl rfl
    · exact .inr hno
  · exact h

/-- No single task is added as a member of a pack. -/
theorem mem_addTarget {type : DependType} (q : Option Ptr)
    (h : type = .packleader → taskId = infinite ∨ taskId = noVal) {e : DependSpec}
    (he : e ∈ (c.addTarget type jobId q taskId l).dependList) :
    e ∈ l.dependList ∨ ¬e.marksLeader := by
  cases q with
  | none => exact .inl he
  | some q =>
    rcases mem_append.1 he with he | he
    · refine .inl ?_
      split_ifs at he
      · exact he
      · exact he
    · rw [mem_singleton] at he
      subst he
      refine .inr fun hmarks => ?_
      rcases h hmarks.1 with htask | htask
      · exact hmarks.2.1 htask
      · exact hmarks.2.2 htask

theorem NamesJob.whole (h : c.NamesJob p jobId taskId) :
    c.NamesJob p jobId noVal := ⟨h.ne_zero, h.ne_self, h.jobId_lt, by decide⟩

/-- A dependency that is read back, whole or not: no single task is a member of a pack. -/
theorem parseClause_text_of_success (hd : c.ReadEntry p d)
    (hpack : d.dependType ≠ .pack) (orFlag leader1 : Bool) (ds : List DependSpec) (l : DependLoop)
    (h : (c.parseClause env now p (d.text leader1 ++ d.restText orFlag leader1 ds) l).1 = .success) :
    ∃ l', c.parseClause env now p (d.text leader1 ++ d.restText orFlag leader1 ds) l =
        next l' (d.restText orFlag leader1 ds) ∧
      ∀ e ∈ l'.dependList, e ∈ l.dependList ∨ ¬e.marksLeader := by
  have hfollows := d.follows_restText orFlag leader1 ds
  have hnamed {taskId : ℕ} (htype : d.dependType.OnJob) (hname : c.NamesJob p d.jobId taskId)
      (htext : d.text leader1 = d.dependType.name ++ ':' :: targetText d.jobId taskId)
      (hlead : d.dependType = .packleader → taskId = infinite ∨ taskId = noVal) :
      ∃ l', c.parseClause env now p (d.text leader1 ++ d.restText orFlag leader1 ds) l =
          next l' (d.restText orFlag leader1 ds) ∧
        ∀ e ∈ l'.dependList, e ∈ l.dependList ∨ ¬e.marksLeader := by
    rw [htext] at h ⊢
    obtain ⟨-, hrc⟩ | ⟨-, heq⟩ := parseClause_named env now htype hname hfollows l
    · exact absurd h hrc
    · exact ⟨_, heq, fun e => mem_addTarget _ fun hleader => dependTarget_task (hlead hleader)⟩
  obtain ⟨hpack', -⟩ | rfl | ⟨htype, hname⟩ := hd.kind
  · exact absurd hpack' hpack
  · obtain ⟨hrefused, -⟩ | ⟨-, heq⟩ := parseClause_text env now
      ⟨hd, hpack, by simp [marksLeader], fun h => absurd rfl h.2⟩ orFlag leader1 ds l
    · exact absurd hrefused.1 (by simp)
    · refine ⟨_, heq, fun e he => ?_⟩
      rcases mem_append.1 he with he | he
      · exact .inl he
      · rw [mem_singleton.1 he]
        exact .inr (by simp [reread, marksLeader])
  · by_cases hmarks : d.marksLeader
    · have htext := d.text_of_marksLeader hmarks leader1
      cases leader1 with
      | false => exact hnamed htype hname.whole htext fun _ => .inr rfl
      | true =>
        rw [htext] at h ⊢
        exact ⟨_, parseClause_plain env now c p hname.whole hfollows l h,
          fun e => mem_addTarget _ fun hleader => by simp at hleader⟩
    · refine hnamed htype hname (d.text_of_onJob htype hmarks leader1) fun hleader => ?_
      by_contra hnot
      push Not at hnot
      exact hmarks ⟨hleader, hnot⟩

/-- A list with a job of a pack is not read back, and members of a pack are without tasks in the
    list that is read. -/
theorem parseDepend_text_of_success (hne : deps ≠ [])
    (hdeps : ∀ d ∈ deps, c.ReadEntry p d) (orFlag leader1 : Bool)
    (h : (c.parseDepend env now p fuel (dependList2str orFlag [] leader1 deps).1 l).1 = .success) :
    (∀ d ∈ deps, d.dependType ≠ .pack) ∧
      ∀ e ∈ (c.parseDepend env now p fuel (dependList2str orFlag [] leader1 deps).1 l).2.dependList,
        e ∈ l.dependList ∨ ¬e.marksLeader := by
  induction deps generalizing fuel l leader1 with
  | nil => exact absurd rfl hne
  | cons d ds ih =>
    cases fuel with
    | zero => simp [parseDepend] at h
    | succ fuel =>
      rw [forall_mem_cons] at hdeps
      rw [dependList2str_cons hdeps.1.flags] at h ⊢
      have hclause := parseClause_of_success env now h
      have hpack : d.dependType ≠ .pack := by
        intro hpack
        obtain ⟨-, htask⟩ | rfl | ⟨htype, -⟩ := hdeps.1.kind
        · rw [d.text_of_pack hpack htask] at hclause
          cases hclause
        · cases hpack
        · exact htype.1 hpack
      obtain ⟨l1, hnext, hl1⟩ :=
        parseClause_text_of_success env now hdeps.1 hpack orFlag leader1 ds l hclause
      rw [parseDepend_next env now orFlag leader1 d ds hnext] at h ⊢
      by_cases hds : ds = []
      · subst hds
        exact ⟨by simpa using hpack, hl1⟩
      · rw [if_neg hds] at h ⊢
        obtain ⟨hpacks, hmarks⟩ := ih hds hdeps.2 _ h
        refine ⟨forall_mem_cons.2 ⟨hpack, hpacks⟩, fun e he => ?_⟩
        rcases hmarks e he with he | he
        · refine hl1 e ?_
          split_ifs at he
          · exact he
          · exact he
        · exact .inr he

end

end Ctld

end Slurm
