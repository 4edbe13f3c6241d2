import Slurm.Pack.BackOut

/-!
# A pack is scheduled as a whole, or not at all

What a call of `select_nodes` for the leader of a job pack leaves behind when it does
not schedule the pack. With the outcome of the allocator for every job given
(`Outcome`), the pack is scheduled (`Outcome.Starts`); or its leader comes back with the
code for a pack that never runs while the members are still allocated
(`Outcome.Strands`); or all members are backed out, and the books are those of
`Outcome.settled` (`selectNodes_settles`).

A member that is backed out leaves its nodes, but it is not discharged what it was
charged besides: its licenses, and the jobs and resources of its accounts. So the call
leaves nothing behind (`Restored`) exactly if there was nothing to be discharged, and
each node is left by as many jobs as got there (`Outcome.Balanced`):
`selectNodes_all_or_nothing`.
-/

namespace Slurm

open List Books Outcome JobRecord

section

variable (env : Env) (now : ℤ) (p : Ptr) {c : Ctld}

/-! ## The outcome -/

/-- No node has a job, or is about to be left by one. -/
def Books.Idle (n : ℕ) (b : Books) : Prop :=
  ∀ i < n, (b.node i).base ≠ .allocated ∧ (b.node i).base ≠ .mixed ∧ (b.node i).completing = false

/-- A pick after which the job has lost its nodes. -/
def Pick.lose (q : Ptr) (b : Books) : Pick → Books
  | .hosed _ _ _ => b.drop q
  | _ => b

/-- A job that is not started: for want of nodes, or because it is only tested. -/
theorem selectNodesPack_books (q : Ptr) (testOnly : Bool) {pick : Pick}
    (h : testOnly = false → ∀ g, pick ≠ .grant g) :
    ((selectNodesPack env now c q testOnly pick).1 ≠ .success ∨ testOnly = true) ∧
    (selectNodesPack env now c q testOnly pick).2.terms env = c.terms env ∧
    (selectNodesPack env now c q testOnly pick).2.books =
      if testOnly = false then pick.lose q c.books else c.books := by
  cases pick with
  | refuse rc reason =>
    have hsame : (c.modJob q (refused reason)).books = c.books := setJob_books_same c q rfl rfl rfl
    exact ⟨.inl rc.2, setJob_terms env c q rfl rfl (accounts_congr rfl),
      hsame.trans (ite_self _).symm⟩
  | hosed rc g held =>
    cases testOnly with
    | true => exact ⟨.inr rfl, rfl, rfl⟩
    | false =>
      exact ⟨.inl rc.2, setJob_terms env c q rfl rfl (accounts_congr rfl),
        setJob_books_of_base c q rfl rfl⟩
  | grant g =>
    cases testOnly with
    | true => exact ⟨.inr rfl, rfl, rfl⟩
    | false => exact absurd rfl (h rfl g)

theorem Pick.lose_eq (pick : Pick) (q : Ptr) (b : Books) :
    pick.lose q b = { b with held := (pick.lose q b).held } := by
  cases pick <;> rfl

theorem selectNodesPack_deps (q : Ptr) (testOnly : Bool) {pick : Pick}
    (h : testOnly = false → ∀ g, pick ≠ .grant g) :
    (selectNodesPack env now c q testOnly pick).2.books.deps = c.books.deps := by
  rw [(selectNodesPack_books env now q testOnly h).2.2]
  split_ifs
  · rw [Pick.lose_eq]
  · rfl

theorem orphanMembers_books : (orphanMembers c p).terms env = c.terms env ∧
    (orphanMembers c p).books = c.books := by
  simp only [orphanMembers]
  generalize (c.job p).deps.getD [] = deps
  induction deps generalizing c with
  | nil => exact ⟨rfl, rfl⟩
  | cons d deps ih =>
    rw [foldl_cons]
    cases d.jobPtr with
    | none => exact ih
    | some q =>
      have hterms : (c.modJob q orphaned).terms env = c.terms env :=
        setJob_terms env c q rfl rfl (accounts_congr rfl)
      have hbooks : (c.modJob q orphaned).books = c.books := setJob_books_same c q rfl rfl rfl
      obtain ⟨ihterms, ihbooks⟩ := ih
      exact ⟨ihterms.trans hterms, ihbooks.trans hbooks⟩

theorem dissolvePack_books : (dissolvePack c p).terms env = c.terms env ∧
    (dissolvePack c p).books = c.books.setDeps p none := by
  obtain ⟨hterms, hbooks⟩ := orphanMembers_books env p
  have hdeps : ∀ j : JobRecord, j.freeDepends.deps = none := by
    intro j
    simp only [JobRecord.deps, JobRecord.freeDepends]
    cases j.details <;> rfl
  have hfree := setJob_books_of_state (orphanMembers c p) p
    (j := ((orphanMembers c p).job p).freeDepends) rfl rfl
  rw [hdeps, hbooks] at hfree
  refine ⟨?_, hfree⟩
  rw [← hterms]
  refine setJob_terms env (orphanMembers c p) p ?_ rfl (accounts_congr rfl)
  simp only [noShare, freeDepends]
  cases ((orphanMembers c p).job p).details <;> rfl

end

namespace Outcome

variable (o : Outcome) (p : Ptr) (testOnly : Bool) (deps : List DependSpec)

/-- The members that are allocated, with what they get. -/
def took : List (Ptr × Grant) := granted o.member 0 deps

/-- The members after those: the first of them is not allocated. -/
def rest : List DependSpec := deps.drop (o.took deps).length

/-- The jobs that are backed out. -/
def gave : List Ptr := (o.took deps).map Prod.fst ++ backedOutOf (o.rest deps)

/-- A job that has lost its nodes by then: the member, or the leader, that could not be started. -/
def lose (b : Books) : Books :=
  match o.rest deps with
  | [] => if o.never = none ∧ testOnly = false then o.leader.lose p b else b
  | d :: _ => d.jobPtr.elim b fun q => (o.member (o.took deps).length).lose q b

/-- The books when all have been backed out, as far as the list of the leader is still there. -/
def settled (t : Terms) (b : Books) : Books :=
  (o.gave deps).foldl (Books.backOut t) (o.lose p testOnly deps ((o.took deps).foldl (Books.start t) b))

/-- The pack is scheduled. -/
def Starts : Prop :=
  deps ≠ [] ∧ o.rest deps = [] ∧ (∃ g, o.leader = .grant g) ∧ testOnly = false

/-- The leader comes back with the code for a pack that never runs, but its members have not
    been backed out. -/
def Strands : Prop :=
  deps ≠ [] ∧ o.rest deps = [] ∧ o.never = none ∧
    match o.leader with
    | .refuse rc _ => rc.1 = .packNeverRun
    | .hosed rc _ _ => rc.1 = .packNeverRun ∧ testOnly = false
    | .grant _ => False

/-- The pack is dissolved: when its leader or one of its members can never run. -/
def Dissolves (t : Terms) (b : Books) : Prop :=
  match o.rest deps with
  | [] => deps ≠ [] ∧ o.never = some true
  | d :: _ => d.jobPtr.isSome ∧ (o.settled p testOnly deps t b).Idle t.nodeCnt

end Outcome

section

variable {env : Env} {now : ℤ} {c : Ctld} {p : Ptr} {testOnly : Bool} {o : Outcome}
  {deps : List DependSpec}

theorem Pick.lose_setDeps (pick : Pick) (q : Ptr) (b : Books) (l : Option (List DependSpec)) :
    pick.lose q (b.setDeps p l) = (pick.lose q b).setDeps p l := by
  cases pick <;> rfl

/-- What the list of the leader is in the end. -/
def Outcome.Leaves (o : Outcome) (p : Ptr) (testOnly : Bool) (deps : List DependSpec) (t : Terms)
    (b : Books) (l : Option (List DependSpec)) : Prop :=
  (l = none ∧ o.Dissolves p testOnly deps t b) ∨
    (l = some (unmarked (markFirst (o.took deps).length deps)) ∧ ¬o.Dissolves p testOnly deps t b)

variable (env now o) in
/-- The members that are allocated, in the books. -/
theorem grantTook_books (hdeps : c.books.deps p = some deps) :
    (grantAll env now p 0 (o.took deps) c).terms env = c.terms env ∧
    (grantAll env now p 0 (o.took deps) c).books =
      ((o.took deps).foldl (start (c.terms env)) c.books).setDeps p
        (some (markFirst (o.took deps).length deps)) := by
  have hnil : c.books.deps p = some ([] ++ deps) := hdeps
  exact grantAll_books env now p (length_granted_le o.member 0 deps) hnil

theorem Outcome.backedOutOf_took : backedOutOf (markFirst (o.took deps).length deps) = o.gave deps :=
  backedOutOf_markFirst o.member 0 deps

variable (env now testOnly) in
/-- A member that is not allocated: the pack is backed out. -/
theorem allocatePackmbrs_fails (hdeps : c.books.deps p = some deps) {d : DependSpec}
    {r : List DependSpec} (hrest : o.rest deps = d :: r) :
    let result := allocatePackmbrs env now o.member p 0 deps c
    result.1 ≠ .success ∧ ∃ l, o.Leaves p testOnly deps (c.terms env) c.books l ∧
      (deallocatePackmbrs now result.2 p).books =
        (o.settled p testOnly deps (c.terms env) c.books).setDeps p l := by
  obtain ⟨hterms, hbooks⟩ := grantTook_books env now o hdeps
  have hdrop : deps.drop (granted o.member 0 deps).length = d :: r := hrest
  simp only [allocatePackmbrs_eq, hdrop, Nat.zero_add]
  rw [took] at hterms hbooks
  generalize grantAll env now p 0 (granted o.member 0 deps) c = c1 at hterms hbooks ⊢
  cases hd : d.jobPtr with
  | none =>
    have h1 : c1.books.deps p = some (markFirst (o.took deps).length deps) := by
      rw [hbooks, setDeps_deps_self, took]
    have hsettled : o.settled p testOnly deps (c.terms env) c.books =
        (o.gave deps).foldl (backOut (c.terms env))
          ((o.took deps).foldl (start (c.terms env)) c.books) := by
      simp [settled, lose, hrest, hd]
    refine ⟨by simp, some (unmarked (markFirst (o.took deps).length deps)), .inr ⟨rfl, ?_⟩, ?_⟩
    · simp [Outcome.Dissolves, hrest, hd]
    · rw [(deallocatePackmbrs_books env now p h1).2, hterms, hbooks, hsettled,
        o.backedOutOf_took, foldl_backOut_setDeps, setDeps_setDeps, took]
  | some q =>
    have hpick : ∀ g, o.member (granted o.member 0 deps).length ≠ .grant g := fun g => by
      simpa using not_grant_of_drop o.member 0 hdrop hd g
    obtain ⟨hfail, hterms2, hbooks2⟩ := selectNodesPack_books env now q false (fun _ => hpick)
    rw [if_pos rfl] at hbooks2
    simp only [failMember]
    generalize selectNodesPack env now c1 q false (o.member (granted o.member 0 deps).length) = s
      at hfail hterms2 hbooks2 ⊢
    rw [hbooks, Pick.lose_setDeps] at hbooks2
    have h2 : s.2.books.deps p = some (markFirst (o.took deps).length deps) := by
      rw [hbooks2, setDeps_deps_self, took]
    have hsettled : o.settled p testOnly deps (c.terms env) c.books =
        (o.gave deps).foldl (backOut (c.terms env)) ((o.member (o.took deps).length).lose q
            ((o.took deps).foldl (start (c.terms env)) c.books)) := by
      simp [settled, lose, hrest, hd]
    obtain ⟨hterms3, hbooks3⟩ := deallocatePackmbrs_books env now p h2
    have htwice := deallocatePackmbrs_twice now p h2
    rw [hterms2, hterms, hbooks2, o.backedOutOf_took, foldl_backOut_setDeps, setDeps_setDeps,
      ← took, ← hsettled] at hbooks3
    rw [hterms2, hterms] at hterms3
    generalize deallocatePackmbrs now s.2 p = c3 at hterms3 hbooks3 htwice ⊢
    have hcnt : c3.nodeRecordCount = (c.terms env).nodeCnt := congrArg Terms.nodeCnt hterms3
    have hidle : c3.isClusterIdle ↔ o.Dissolves p testOnly deps (c.terms env) c.books := by
      change c3.books.Idle c3.nodeRecordCount ↔ _
      rw [hcnt, hbooks3, Outcome.Dissolves, hrest]
      simp only [hd, Option.isSome_some, true_and]
      rfl
    by_cases hi : c3.isClusterIdle
    · have hnone : (dissolvePack c3 p).books.deps p = none := by
        rw [(dissolvePack_books env p).2, setDeps_deps_self]
      refine ⟨by simp [hi], none, .inl ⟨rfl, hidle.1 hi⟩, ?_⟩
      rw [if_pos hi, deallocatePackmbrs_eq_self now p (by simp [hnone]), (dissolvePack_books env p).2,
        hbooks3, setDeps_setDeps]
    · refine ⟨by simpa [hi] using hfail, _, .inr ⟨rfl, fun h => hi (hidle.2 h)⟩, ?_⟩
      rw [if_neg hi, htwice, hbooks3]

/-- The books without the nodes that jobs have. -/
def Books.sansHeld (b : Books) : Books := { b with held := fun _ => none }

theorem Pick.lose_sansHeld (pick : Pick) (q : Ptr) (b : Books) :
    (pick.lose q b).sansHeld = b.sansHeld := by
  rw [Pick.lose_eq]
  rfl

variable {c₁ : Ctld} {l : List DependSpec}

variable (env now) in
/-- The leader cannot run beside its members, which are backed out first. -/
theorem willJpckLdrRun_books (h : c₁.books.deps p = some l) (orphan : Bool) :
    let c₂ := willJpckLdrRun now c₁ p (some orphan)
    c₂.terms env = c₁.terms env ∧
    c₂.books = ((backedOutOf l).foldl (backOut (c₁.terms env)) c₁.books).setDeps p
      (if orphan then none else some (unmarked l)) := by
  obtain ⟨hterms, hbooks⟩ := deallocatePackmbrs_books env now p h
  cases orphan with
  | false => exact ⟨hterms, hbooks⟩
  | true =>
    obtain ⟨hterms', hbooks'⟩ := dissolvePack_books env p
    refine ⟨hterms'.trans hterms, hbooks'.trans ?_⟩
    rw [hbooks, setDeps_setDeps, if_pos rfl]

variable (env) in
/-- The leader is not started, beside members that are already backed out. -/
theorem selectLeader_of_quiet (hpick : testOnly = false → ∀ g, o.leader ≠ .grant g)
    (hquiet : ∀ l, (willJpckLdrRun now c₁ p o.never).books.deps p = some l → backedOutOf l = []) :
    let result := selectLeader env now c₁ p testOnly o
    (result.1 ≠ .success ∨ testOnly = true) ∧
    result.2.books.sansHeld = (willJpckLdrRun now c₁ p o.never).books.sansHeld := by
  simp only [selectLeader]
  generalize willJpckLdrRun now c₁ p o.never = c2 at hquiet ⊢
  obtain ⟨hnot, -, hbooks⟩ := selectNodesPack_books env now p testOnly hpick
  have hdeps := selectNodesPack_deps env now p testOnly hpick (c := c2)
  generalize selectNodesPack env now c2 p testOnly o.leader = s at hnot hbooks hdeps ⊢
  have hsans : s.2.books.sansHeld = c2.books.sansHeld := by
    rw [hbooks]
    split_ifs
    · exact o.leader.lose_sansHeld p c2.books
    · rfl
  have hself : deallocatePackmbrs now s.2 p = s.2 :=
    deallocatePackmbrs_eq_self now p fun l hl => hquiet l ((congrFun hdeps p).symm.trans hl)
  split_ifs
  · exact ⟨hnot, hsans⟩
  · exact ⟨hnot, by rw [hself, hsans]⟩

/-- The leader is not started, and its members are backed out then. -/
theorem selectLeader_of_never (hpick : testOnly = false → ∀ g, o.leader ≠ .grant g)
    (hnever : o.never = none)
    (hrc : (selectNodesPack env now c₁ p testOnly o.leader).1 ≠ .packNeverRun)
    (h : c₁.books.deps p = some l) :
    let result := selectLeader env now c₁ p testOnly o
    (result.1 ≠ .success ∨ testOnly = true) ∧
    result.2.books = ((backedOutOf l).foldl (backOut (c₁.terms env))
      (if testOnly = false then o.leader.lose p c₁.books else c₁.books)).setDeps p
        (some (unmarked l)) := by
  simp only [selectLeader, willJpckLdrRun, hnever]
  obtain ⟨hnot, hterms, hbooks⟩ := selectNodesPack_books env now p testOnly hpick
  have hdeps := (congrFun (selectNodesPack_deps env now p testOnly hpick) p).trans h
  rw [if_neg hrc, if_pos hnot]
  refine ⟨hnot, ?_⟩
  rw [(deallocatePackmbrs_books env now p hdeps).2, hterms, hbooks]

theorem Outcome.strands_of_rc (hne : deps ≠ []) (hrest : o.rest deps = []) (hnever : o.never = none)
    (hrc : (selectNodesPack env now c₁ p testOnly o.leader).1 = .packNeverRun) :
    o.Strands testOnly deps := by
  refine ⟨hne, hrest, hnever, ?_⟩
  cases hlead : o.leader with
  | refuse rc reason =>
    rw [hlead] at hrc
    exact hrc
  | hosed rc g held =>
    rw [hlead] at hrc
    cases testOnly with
    | true => exact absurd hrc (by simp [selectNodesPack])
    | false => exact ⟨hrc, rfl⟩
  | grant g =>
    rw [hlead] at hrc
    cases testOnly <;> exact absurd hrc (by simp [selectNodesPack])

/-- The leader is not started: the pack is backed out. -/
theorem selectLeader_settles (hne : deps ≠ []) (hrest : o.rest deps = [])
    (hterms : c₁.terms env = c.terms env)
    (hbooks : c₁.books = ((o.took deps).foldl (start (c.terms env)) c.books).setDeps p
      (some (markFirst (o.took deps).length deps)))
    (hstart : ¬o.Starts testOnly deps) (hstrand : ¬o.Strands testOnly deps) :
    let result := selectLeader env now c₁ p testOnly o
    (result.1 ≠ .success ∨ testOnly = true) ∧
    ∃ l, o.Leaves p testOnly deps (c.terms env) c.books l ∧
      result.2.books.sansHeld =
        ((o.settled p testOnly deps (c.terms env) c.books).setDeps p l).sansHeld := by
  have h1 : c₁.books.deps p = some (markFirst (o.took deps).length deps) := by
    rw [hbooks, setDeps_deps_self]
  have hpick : testOnly = false → ∀ g, o.leader ≠ .grant g :=
    fun htest g hg => hstart ⟨hne, hrest, ⟨g, hg⟩, htest⟩
  cases hnever : o.never with
  | none =>
    have hrc : (selectNodesPack env now c₁ p testOnly o.leader).1 ≠ .packNeverRun :=
      fun h => hstrand (strands_of_rc hne hrest hnever h)
    obtain ⟨hnot, hfinal⟩ := selectLeader_of_never hpick hnever hrc h1
    refine ⟨hnot, some (unmarked (markFirst (o.took deps).length deps)), .inr ⟨rfl, ?_⟩, ?_⟩
    · simp [Outcome.Dissolves, hrest, hnever]
    · rw [hfinal, o.backedOutOf_took, hterms, hbooks]
      simp only [settled, lose, hrest, hnever, true_and]
      split_ifs
      · rw [Pick.lose_setDeps, foldl_backOut_setDeps, setDeps_setDeps]
      · rw [foldl_backOut_setDeps, setDeps_setDeps]
  | some orphan =>
    obtain ⟨-, hbooks2⟩ := willJpckLdrRun_books env now h1 orphan
    have hquiet : ∀ l, (willJpckLdrRun now c₁ p o.never).books.deps p = some l →
        backedOutOf l = [] := by
      intro l hl
      rw [hnever, hbooks2, setDeps_deps_self] at hl
      cases orphan with
      | true => simp at hl
      | false => rw [← Option.some.inj hl, backedOutOf_unmarked]
    obtain ⟨hnot, hfinal⟩ := selectLeader_of_quiet env hpick hquiet
    refine ⟨hnot, if orphan then none else some (unmarked (markFirst (o.took deps).length deps)), ?_,
      hfinal.trans (congrArg sansHeld ?_)⟩
    · cases orphan with
      | true => exact .inl ⟨rfl, by simp [Outcome.Dissolves, hrest, hnever, hne]⟩
      | false => exact .inr ⟨rfl, by simp [Outcome.Dissolves, hrest, hnever]⟩
    · rw [hnever, hbooks2, o.backedOutOf_took, hterms, hbooks]
      simp only [settled, lose, hrest, hnever, reduceCtorEq, false_and, if_false]
      rw [foldl_backOut_setDeps, setDeps_setDeps]

/-! ## The calls -/

section

variable (hlead : (c.job p).packLeader ≠ 0) (hdeps : (c.job p).deps = some deps)
  (htype : ∀ d ∈ deps, d.dependType = .packleader)

include hlead hdeps htype

/-- The call for the leader of a pack: the loop over the members, and then the leader. -/
theorem selectNodes_leader (hne : deps ≠ []) :
    selectNodes env now c p testOnly o = let (rc, c) := allocatePackmbrs env now o.member p 0 deps c
      if rc ≠ .success then (rc, deallocatePackmbrs now c p)
      else selectLeader env now c p testOnly o := by
  obtain ⟨d, l, rfl⟩ := exists_cons_of_ne_nil hne
  have hd : d.dependType = .packleader := htype d mem_cons_self
  simp [selectNodes, hlead, hdeps, hd]

/-- All members are allocated, and it is the turn of the leader. -/
theorem selectNodes_of_rest (hne : deps ≠ []) (hrest : o.rest deps = []) :
    selectNodes env now c p testOnly o =
      selectLeader env now (grantAll env now p 0 (o.took deps) c) p testOnly o := by
  have hdrop : deps.drop (granted o.member 0 deps).length = [] := hrest
  rw [selectNodes_leader hlead hdeps htype hne, allocatePackmbrs_eq]
  simp [hdrop, took]

variable (env now) in
theorem selectNodes_of_strands (h : o.Strands testOnly deps) :
    (selectNodes env now c p testOnly o).1 = .packNeverRun ∧
    (selectNodes env now c p testOnly o).2.books.deps p =
      some (markFirst (o.took deps).length deps) := by
  obtain ⟨hne, hrest, hnever, hlead'⟩ := h
  have hbooks := (grantTook_books env now o hdeps).2
  rw [selectNodes_of_rest hlead hdeps htype hne hrest]
  generalize grantAll env now p 0 (o.took deps) c = c₁ at hbooks ⊢
  have h1 : c₁.books.deps p = some (markFirst (o.took deps).length deps) := by
    rw [hbooks, setDeps_deps_self]
  have hpick : testOnly = false → ∀ g, o.leader ≠ .grant g := by
    intro _ g hg
    rw [hg] at hlead'
    exact hlead'
  have hrc : (selectNodesPack env now c₁ p testOnly o.leader).1 = .packNeverRun := by
    cases hpick' : o.leader with
    | refuse rc reason =>
      rw [hpick'] at hlead'
      exact hlead'
    | hosed rc g held =>
      rw [hpick'] at hlead'
      rw [hlead'.2]
      exact hlead'.1
    | grant g =>
      rw [hpick'] at hlead'
      exact hlead'.elim
  simp only [selectLeader, hnever, willJpckLdrRun, hrc, if_true]
  exact ⟨trivial, (congrFun (selectNodesPack_deps env now p testOnly hpick) p).trans h1⟩

variable (env now) in
/-- A call that does not schedule the pack, and does not strand the members, backs all of them
    out. -/
theorem selectNodes_settles (hstart : ¬o.Starts testOnly deps) (hstrand : ¬o.Strands testOnly deps) :
    let result := selectNodes env now c p testOnly o
    (result.1 ≠ .success ∨ testOnly = true) ∧
    ∃ l, o.Leaves p testOnly deps (c.terms env) c.books l ∧
      result.2.books.sansHeld =
        ((o.settled p testOnly deps (c.terms env) c.books).setDeps p l).sansHeld := by
  rcases eq_or_ne deps [] with rfl | hne
  · have hself : c.books.setDeps p (some []) = c.books := by
      rw [← hdeps]
      exact c.books.setDeps_self p
    have hsettled : (o.settled p testOnly [] (c.terms env) c.books).sansHeld = c.books.sansHeld := by
      simp only [settled, lose, rest, gave, took, granted,
        length_nil, drop_nil, foldl_nil, map_nil, backedOutOf, nil_append]
      split_ifs
      · exact o.leader.lose_sansHeld p c.books
      · rfl
    have heq : selectNodes env now c p testOnly o = (.packBadDependency, c) := by
      simp [selectNodes, hlead, hdeps]
    rw [heq]
    refine ⟨.inl (by simp), some [], .inr ⟨rfl, ?_⟩, ?_⟩
    · simp [Outcome.Dissolves, rest]
    · calc c.books.sansHeld = (c.books.setDeps p (some [])).sansHeld := by rw [hself]
        _ = c.books.sansHeld.setDeps p (some []) := rfl
        _ = _ := by rw [← hsettled]; rfl
  · cases hrest : o.rest deps with
    | nil =>
      obtain ⟨hterms, hbooks⟩ := grantTook_books env now o hdeps
      rw [selectNodes_of_rest hlead hdeps htype hne hrest]
      exact selectLeader_settles hne hrest hterms hbooks hstart hstrand
    | cons d r =>
      obtain ⟨hrc, l, hl, hbooks⟩ := allocatePackmbrs_fails env now testOnly hdeps hrest
      rw [selectNodes_leader hlead hdeps htype hne]
      simp only [hrc, ne_eq, not_false_eq_true, if_true, true_or, true_and]
      exact ⟨l, hl, congrArg sansHeld hbooks⟩

end

/-! ## All or nothing -/

/-- The state `c'` shows nothing of the members of the pack of `p`: they are pending without a
    mark, and the counters of nodes, licenses and accounts are those of `c`. -/
structure Restored (p : Ptr) (deps : List DependSpec) (c c' : Ctld) : Prop where
  pending : ∀ d ∈ deps, ∀ q, d.jobPtr = some q → (c'.job q).jobState.isPending
  unmarked : ∀ l, (c'.job p).deps = some l → ∀ d ∈ l, d.alloc = false
  runJobCnt : ∀ i < c.nodeRecordCount, (c'.node i).runJobCnt = (c.node i).runJobCnt
  noShareJobCnt : ∀ i < c.nodeRecordCount, (c'.node i).noShareJobCnt = (c.node i).noShareJobCnt
  licenseUsed : ∀ name, c'.licenseUsed name = c.licenseUsed name
  usedJobs : ∀ a, c'.usedJobs a = c.usedJobs a
  usedTres : ∀ a i, c'.usedTres a i = c.usedTres a i

/-- Whether the pick loses the nodes of the job. -/
def Pick.loses : Pick → Bool
  | .hosed _ _ _ => true
  | _ => false

theorem Pick.lose_held (pick : Pick) (q r : Ptr) (b : Books) :
    (pick.lose q b).held r = if pick.loses ∧ q = r then none else b.held r := by
  cases pick with
  | hosed rc g held => simp [Pick.lose, Pick.loses, Books.drop, Function.update_apply, eq_comm]
  | refuse rc reason => simp [Pick.lose, Pick.loses]
  | grant g => simp [Pick.lose, Pick.loses]

namespace Outcome

variable (o : Outcome) (p : Ptr) (testOnly : Bool) (deps : List DependSpec)

/-- The job that has lost its nodes. -/
def lost : Option Ptr :=
  match o.rest deps with
  | [] => if o.never = none ∧ testOnly = false ∧ o.leader.loses then some p else none
  | d :: _ => if (o.member (o.took deps).length).loses then d.jobPtr else none

/-- The nodes that a job has at the back-out: those it was granted last, if any, or those it had
    before. -/
def nodesOf (held : Ptr → Option Bitmap) (q : Ptr) : Bitmap :=
  if o.lost p testOnly deps = some q then ∅
  else (o.took deps).foldl (fun s x => if x.1 = q then x.2.nodes else s) ((held q).getD ∅)

/-- The members that are allocated the node `i`. -/
def takers (i : ℕ) : List (Ptr × Grant) := (o.took deps).filter (i ∈ ·.2.nodes)

/-- The jobs that leave the node `i`. -/
def leavers (held : Ptr → Option Bitmap) (i : ℕ) : List Ptr :=
  (o.gave deps).filter (i ∈ o.nodesOf p testOnly deps held ·)

/-- When all jobs have left that got there, the cluster is idle. -/
def Empties (t : Terms) (b : Books) : Prop :=
  ∀ i < t.nodeCnt, (b.node i).completing = false ∧
    if o.leavers p testOnly deps b.held i = [] then
      o.takers deps i = [] ∧ (b.node i).base ≠ .allocated ∧ (b.node i).base ≠ .mixed
    else (o.takers deps i = [] ∧ (b.node i).base = .down) ∨ (b.node i).run = 0

/-- As many leave each node as got there, and the jobs that got there are charged nothing. -/
structure Balanced (t : Terms) (b : Books) : Prop where
  /-- Every member is pending already, or is backed out. -/
  pending : ∀ d ∈ deps, ∀ q, d.jobPtr = some q → q ∈ o.gave deps ∨ b.base q = .pending
  /-- No mark is behind a dependency without a job, or the list is given up. -/
  unmarked : (∀ d ∈ deps.dropWhile (·.jobPtr.isSome), d.alloc = false) ∨
    match o.rest deps with
    | [] => o.never = some true
    | d :: _ => d.jobPtr.isSome ∧ o.Empties p testOnly deps t b
  run : ∀ i < t.nodeCnt,
    ((b.node i).run.toNat + (o.takers deps i).length) % 2 ^ 16 -
      (o.leavers p testOnly deps b.held i).length = (b.node i).run.toNat
  noShare : ∀ i < t.nodeCnt,
    ((b.node i).noShare.toNat + (o.takers deps i).countP (t.noShare ·.1)) % 2 ^ 16 -
      (o.leavers p testOnly deps b.held i).countP t.noShare = (b.node i).noShare.toNat
  license : ∀ name, (b.license name).isSome → ((o.took deps).map fun x => t.demand x.1 name).sum = 0
  jobs : ∀ a, ((o.took deps).map fun x => (t.accounts x.1).count a • (1 : UInt32)).sum = 0
  tres : ∀ a i, ((o.took deps).map fun x => (t.accounts x.1).count a • x.2.tresAllocCnt i).sum = 0

variable {o p testOnly deps} (t : Terms) (b : Books) {i : ℕ}

theorem lose_eq : o.lose p testOnly deps b = { b with held := (o.lose p testOnly deps b).held } := by
  cases hrest : o.rest deps with
  | nil =>
    simp only [lose, hrest]
    split_ifs
    · exact o.leader.lose_eq p b
    · rfl
  | cons d r =>
    simp only [lose, hrest]
    cases d.jobPtr with
    | none => rfl
    | some q => exact (o.member (o.took deps).length).lose_eq q b

theorem lose_held (q : Ptr) : (o.lose p testOnly deps b).held q =
    if o.lost p testOnly deps = some q then none else b.held q := by
  cases hrest : o.rest deps with
  | nil =>
    by_cases hlast : o.never = none ∧ testOnly = false
    · simp [lose, lost, hrest, hlast, Pick.lose_held]
    · simp [lose, lost, hrest, hlast, ← and_assoc]
  | cons d r =>
    cases hd : d.jobPtr with
    | none => simp [lose, lost, hrest, hd]
    | some r => simp [lose, lost, hrest, hd, Pick.lose_held]

theorem foldl_held (took : List (Ptr × Grant)) (q : Ptr) :
    (((took.foldl (start t) b).held q).getD ∅ : Bitmap) =
      took.foldl (fun s x => if x.1 = q then x.2.nodes else s) ((b.held q).getD ∅) := by
  induction took generalizing b with
  | nil => rfl
  | cons x took ih =>
    rw [foldl_cons, ih, foldl_cons]
    by_cases hq : x.1 = q
    · simp [start, hq]
    · simp [start, hq, Function.update_of_ne (Ne.symm hq)]

theorem held_lose (q : Ptr) :
    (((o.lose p testOnly deps ((o.took deps).foldl (start t) b)).held q).getD ∅ : Bitmap) =
      o.nodesOf p testOnly deps b.held q := by
  rw [lose_held, nodesOf]
  split_ifs
  · rfl
  · exact foldl_held t b (o.took deps) q

/-- A node that is left by others after it was taken by some. -/
theorem settled_node (hi : i < t.nodeCnt) :
    (o.settled p testOnly deps t b).node i =
      (o.leavers p testOnly deps b.held i).foldl (fun u q => u.leave (t.noShare q))
        ((o.takers deps i).foldl (fun u x => u.take (t.noShare x.1)) (b.node i)) := by
  have hnode : (o.lose p testOnly deps ((o.took deps).foldl (start t) b)).node =
      ((o.took deps).foldl (start t) b).node := by
    rw [lose_eq]
  simp only [settled, foldl_backOut_node, hnode, foldl_start_node, held_lose, hi, true_and]
  rfl

/-- Whether the cluster is idle in the end, when each node has as many jobs as before. -/
theorem settled_idle_iff
    (hrun : ∀ i < t.nodeCnt, ((o.settled p testOnly deps t b).node i).run = (b.node i).run) :
    (o.settled p testOnly deps t b).Idle t.nodeCnt ↔ o.Empties p testOnly deps t b := by
  refine forall₂_congr fun i hi => ?_
  have hrun := hrun i hi
  rw [settled_node t b hi] at hrun ⊢
  rw [NodeUse.foldl_leave_base, NodeUse.foldl_leave_completing, hrun, NodeUse.foldl_take]
  by_cases hleave : o.leavers p testOnly deps b.held i = []
  · by_cases htake : o.takers deps i = []
    · simp [hleave, htake]
      tauto
    · simp [hleave, htake]
  · by_cases htake : o.takers deps i = []
    · by_cases hdown : (b.node i).base = .down
      · simp [hleave, htake, hdown]
      · by_cases hzero : (b.node i).run = 0
        · simp [hleave, htake, hdown, hzero]
        · simp [hleave, htake, hdown, hzero]
    · by_cases hzero : (b.node i).run = 0
      · simp [hleave, htake, hzero]
      · simp [hleave, htake, hzero]

theorem settled_base (q : Ptr) : (o.settled p testOnly deps t b).base q =
    if q ∈ o.gave deps then .pending else b.base q := by
  have hbase : (o.lose p testOnly deps ((o.took deps).foldl (start t) b)).base =
      ((o.took deps).foldl (start t) b).base := by
    rw [lose_eq]
  rw [settled, foldl_backOut_base, hbase]
  split_ifs with hq
  · rfl
  · refine foldl_start_base t b _ fun h => hq ?_
    exact mem_append_left _ h

/-- The marks that are left, when each node has as many jobs as before. -/
theorem leaves_unmarked_iff {l : Option (List DependSpec)}
    (hrun : ∀ i < t.nodeCnt, ((o.settled p testOnly deps t b).node i).run = (b.node i).run)
    (hl : o.Leaves p testOnly deps t b l) :
    (∀ l', l = some l' → ∀ d ∈ l', d.alloc = false) ↔
      (∀ d ∈ deps.dropWhile (·.jobPtr.isSome), d.alloc = false) ∨ match o.rest deps with
        | [] => o.never = some true
        | d :: _ => d.jobPtr.isSome ∧ o.Empties p testOnly deps t b := by
  have hdis : o.Dissolves p testOnly deps t b ↔ deps ≠ [] ∧
      match o.rest deps with
      | [] => o.never = some true
      | d :: _ => d.jobPtr.isSome ∧ o.Empties p testOnly deps t b := by
    simp only [Dissolves, settled_idle_iff t b hrun]
    cases hrest : o.rest deps with
    | nil => rfl
    | cons d r =>
      have hne : deps ≠ [] := by
        rintro rfl
        simp [rest] at hrest
      simp [hne]
  obtain ⟨rfl, h⟩ | ⟨rfl, h⟩ := hl
  · exact ⟨fun _ => .inr (hdis.1 h).2, fun _ l' hl' => by simp at hl'⟩
  · have hclear := unmarked_markFirst_clear_iff o.member 0 deps
    simp only [Option.some.injEq, forall_eq']
    refine ⟨fun hall => .inl (hclear.1 hall), fun hor => hclear.2 (hor.elim id fun hd => ?_)⟩
    rcases eq_or_ne deps [] with rfl | hne
    · simp
    · exact absurd (hdis.2 ⟨hne, hd⟩) h

end Outcome

theorem Books.parts_of_sansHeld {b b' : Books} {l : Option (List DependSpec)}
    (h : b.sansHeld = (b'.setDeps p l).sansHeld) :
    b.base = b'.base ∧ b.node = b'.node ∧ b.license = b'.license ∧ b.jobs = b'.jobs ∧
      b.tres = b'.tres ∧ b.deps p = l := by
  have hdeps := congrArg (·.deps p) h
  exact ⟨congrArg (·.base) h, congrArg (·.node) h, congrArg (·.license) h, congrArg (·.jobs) h,
    congrArg (·.tres) h, hdeps.trans (setDeps_deps_self ..)⟩

section

variable {c' : Ctld} {l : Option (List DependSpec)}
  (hbooks : c'.books.sansHeld =
    ((o.settled p testOnly deps (c.terms env) c.books).setDeps p l).sansHeld) {i : ℕ}

include hbooks

theorem Outcome.isPending_iff (q : Ptr) :
    (c'.job q).jobState.isPending ↔ q ∈ o.gave deps ∨ c.books.base q = .pending := by
  have hq : (c'.job q).jobState.isPending ↔ c'.books.base q = .pending := Iff.rfl
  rw [hq, (parts_of_sansHeld hbooks).1, settled_base]
  split_ifs with hgave
  · simp [hgave]
  · simp [hgave]

theorem Outcome.runJobCnt_iff (hi : i < (c.terms env).nodeCnt) :
    (c'.node i).runJobCnt = (c.node i).runJobCnt ↔
      ((c.books.node i).run.toNat + (o.takers deps i).length) % 2 ^ 16 -
        (o.leavers p testOnly deps c.books.held i).length = (c.books.node i).run.toNat := by
  change (c'.books.node i).run = (c.books.node i).run ↔ _
  rw [(parts_of_sansHeld hbooks).2.1, ← UInt16.toNat_inj, settled_node _ _ hi,
    NodeUse.foldl_leave_run, NodeUse.foldl_take]
  simp

theorem Outcome.noShareJobCnt_iff (hi : i < (c.terms env).nodeCnt) :
    (c'.node i).noShareJobCnt = (c.node i).noShareJobCnt ↔ ((c.books.node i).noShare.toNat +
        (o.takers deps i).countP ((c.terms env).noShare ·.1)) % 2 ^ 16 -
          (o.leavers p testOnly deps c.books.held i).countP (c.terms env).noShare =
            (c.books.node i).noShare.toNat := by
  change (c'.books.node i).noShare = (c.books.node i).noShare ↔ _
  rw [(parts_of_sansHeld hbooks).2.1, ← UInt16.toNat_inj, settled_node _ _ hi,
    NodeUse.foldl_leave_noShare, NodeUse.foldl_take]
  simp

theorem Outcome.licenseUsed_iff (name : CStr) :
    c'.licenseUsed name = c.licenseUsed name ↔ ((c.books.license name).isSome →
      ((o.took deps).map fun x => (c.terms env).demand x.1 name).sum = 0) := by
  obtain ⟨-, -, hlicense, -⟩ := parts_of_sansHeld hbooks
  change c'.books.license name = c.books.license name ↔ _
  rw [hlicense, settled, foldl_backOut, lose_eq]
  dsimp only
  rw [foldl_start_license]
  cases c.books.license name with
  | none => simp
  | some n => simp

theorem Outcome.usedJobs_iff (a : Account) : c'.usedJobs a = c.usedJobs a ↔
    ((o.took deps).map fun x => ((c.terms env).accounts x.1).count a • (1 : UInt32)).sum = 0 := by
  obtain ⟨-, -, -, hjobs, -⟩ := parts_of_sansHeld hbooks
  change c'.books.jobs a = c.books.jobs a ↔ _
  rw [hjobs, settled, foldl_backOut, lose_eq]
  dsimp only
  rw [foldl_start_jobs, UInt32.add_eq_left]

theorem Outcome.usedTres_iff (a : Account) (i : ℕ) : c'.usedTres a i = c.usedTres a i ↔
    ((o.took deps).map fun x =>
      ((c.terms env).accounts x.1).count a • x.2.tresAllocCnt i).sum = 0 := by
  obtain ⟨-, -, -, -, htres, -⟩ := parts_of_sansHeld hbooks
  change c'.books.tres a i = c.books.tres a i ↔ _
  rw [htres, settled, foldl_backOut, lose_eq]
  dsimp only
  rw [foldl_start_tres, UInt64.add_eq_left]

/-- The state after a back-out shows nothing of the members if and only if all was balanced. -/
theorem restored_iff (hl : o.Leaves p testOnly deps (c.terms env) c.books l) :
    Restored p deps c c' ↔ o.Balanced p testOnly deps (c.terms env) c.books := by
  obtain ⟨-, hnode, -, -, -, hdeps⟩ := parts_of_sansHeld hbooks
  have hmarks (hsame : ∀ i < (c.terms env).nodeCnt, (c'.node i).runJobCnt = (c.node i).runJobCnt) :=
    leaves_unmarked_iff (c.terms env) c.books (fun i hi => hnode ▸ hsame i hi) hl
  constructor
  · intro h
    exact
      { pending := fun d hd q hq => (isPending_iff hbooks q).1 (h.pending d hd q hq)
        unmarked := (hmarks h.runJobCnt).1 fun l' hl' => h.unmarked l' (hdeps.trans hl')
        run := fun i hi => (runJobCnt_iff hbooks hi).1 (h.runJobCnt i hi)
        noShare := fun i hi => (noShareJobCnt_iff hbooks hi).1 (h.noShareJobCnt i hi)
        license := fun name => (licenseUsed_iff hbooks name).1 (h.licenseUsed name)
        jobs := fun a => (usedJobs_iff hbooks a).1 (h.usedJobs a)
        tres := fun a i => (usedTres_iff hbooks a i).1 (h.usedTres a i) }
  · intro h
    have hsame : ∀ i < c.nodeRecordCount, (c'.node i).runJobCnt = (c.node i).runJobCnt :=
      fun i hi => (runJobCnt_iff hbooks hi).2 (h.run i hi)
    exact
      { pending := fun d hd q hq => (isPending_iff hbooks q).2 (h.pending d hd q hq)
        unmarked := fun l' hl' => (hmarks hsame).2 h.unmarked l' (hdeps.symm.trans hl')
        runJobCnt := hsame
        noShareJobCnt := fun i hi => (noShareJobCnt_iff hbooks hi).2 (h.noShare i hi)
        licenseUsed := fun name => (licenseUsed_iff hbooks name).2 (h.license name)
        usedJobs := fun a => (usedJobs_iff hbooks a).2 (h.jobs a)
        usedTres := fun a i => (usedTres_iff hbooks a i).2 (h.tres a i) }

end

/-- The marks of members that are stranded. -/
theorem Outcome.marked_of_rest (hne : deps ≠ []) (hrest : o.rest deps = []) :
    ∃ d ∈ markFirst (o.took deps).length deps, d.alloc = true := by
  obtain ⟨d, l, rfl⟩ := exists_cons_of_ne_nil hne
  have hlen : (d :: l).length ≤ (o.took (d :: l)).length := drop_eq_nil_iff.1 hrest
  obtain ⟨n, hn⟩ : ∃ n, (o.took (d :: l)).length = n + 1 :=
    Nat.exists_eq_succ_of_ne_zero (by rw [length_cons] at hlen; omega)
  rw [hn]
  exact ⟨d.mark true, mem_cons_self, rfl⟩

/-- A call for the leader of a pack that does not schedule it leaves nothing behind if and only if
    the members are not stranded, and are charged for nothing but nodes they leave again. -/
theorem selectNodes_all_or_nothing (env : Env) (now : ℤ) (c : Ctld) (p : Ptr) (testOnly : Bool)
    (o : Outcome) (deps : List DependSpec) (hlead : (c.job p).packLeader ≠ 0)
    (hdeps : (c.job p).deps = some deps) (htype : ∀ d ∈ deps, d.dependType = .packleader) :
    ((selectNodes env now c p testOnly o).1 ≠ .success ∨ testOnly = true →
      Restored p deps c (selectNodes env now c p testOnly o).2) ↔ o.Starts testOnly deps ∨
      ¬o.Strands testOnly deps ∧ o.Balanced p testOnly deps (c.terms env) c.books := by
  by_cases hstart : o.Starts testOnly deps
  · have hrc : (selectNodes env now c p testOnly o).1 = .success := by
      obtain ⟨hne, hrest, ⟨g, hg⟩, htest⟩ := hstart
      rw [selectNodes_of_rest hlead hdeps htype hne hrest]
      simp [selectLeader, hg, htest, selectNodesPack]
    have htest : testOnly = false := hstart.2.2.2
    refine iff_of_true (fun h => ?_) (.inl hstart)
    exact absurd h (not_or.2 ⟨not_not.2 hrc, by simp [htest]⟩)
  by_cases hstrand : o.Strands testOnly deps
  · obtain ⟨hrc, hmarks⟩ := selectNodes_of_strands env now hlead hdeps htype hstrand
    obtain ⟨d, hd, halloc⟩ := marked_of_rest hstrand.1 hstrand.2.1
    simp only [hstart, hstrand, not_true_eq_false, false_and, or_false, iff_false]
    intro h
    have hrestored := h (.inl (by simp [hrc]))
    exact absurd (hrestored.unmarked _ hmarks d hd) (by simp [halloc])
  · obtain ⟨hnot, l, hl, hbooks⟩ := selectNodes_settles env now hlead hdeps htype hstart hstrand
    simp only [hstart, hstrand, not_false_eq_true, true_and, false_or, hnot, true_imp_iff]
    exact restored_iff hbooks hl

end

/-- A pack of two jobs that wait for the one node of the cluster; the member needs `licenses`. -/
def waitingPack (licenses : List LicenseEntry) : Ctld where
  job q :=
    if q = 0 then
      { jobId := 11, packLeader := 11
        details := some
          { dependList := some [{ dependType := .packleader, jobId := 10, jobPtr := some 1 }] } }
    else { jobId := 10, packLeader := 11, licenseList := licenses }
  node _ := { base := .idle }
  nodeRecordCount := 1
  licenseUsed name := if name = "matlab".toList then some 0 else none

/-- The member gets the node, and then there is none for the leader. -/
def leaderBusy : Outcome where
  member _ := .grant { nodes := {0} }
  leader := .refuse ⟨.nodesBusy, by decide⟩ (.other 3)
  never := none

theorem selectNodes_all_or_nothing_waitingPack :
    (selectNodes {} 5 (waitingPack []) 0 false leaderBusy).1 = .nodesBusy ∧
    Restored 0 (((waitingPack []).job 0).deps.getD []) (waitingPack [])
      (selectNodes {} 5 (waitingPack []) 0 false leaderBusy).2 := by
  have hrc : (selectNodes {} 5 (waitingPack []) 0 false leaderBusy).1 = .nodesBusy := by decide
  have hstrand : ¬leaderBusy.Strands false (((waitingPack []).job 0).deps.getD []) :=
    fun h => absurd h.2.2.2 (by simp [leaderBusy])
  refine ⟨hrc, (selectNodes_all_or_nothing {} 5 (waitingPack []) 0 false leaderBusy _ (by decide) rfl
    (by decide)).2 (.inr ⟨hstrand, ?_⟩) (.inl (by rw [hrc]; decide))⟩
  refine ⟨by decide, .inl (by decide), ?_, ?_, ?_, ?_, ?_⟩
  · decide
  · decide
  · intro name _
    rfl
  · intro a
    rfl
  · intro a i
    rfl

/-- The member needs a license. It still has it after the call that could not schedule the pack. -/
theorem selectNodes_keeps_license :
    let c := waitingPack [{ name := "matlab".toList, total := 1 }]
    let r := selectNodes {} 5 c 0 false leaderBusy
    r.1 = .nodesBusy ∧ c.licenseUsed "matlab".toList = some 0 ∧
      r.2.licenseUsed "matlab".toList = some 1 ∧ (r.2.job 1).jobState.isPending ∧
      ¬Restored 0 ((c.job 0).deps.getD []) c r.2 := by
  have hused : (selectNodes {} 5 (waitingPack [{ name := "matlab".toList, total := 1 }]) 0 false
      leaderBusy).2.licenseUsed "matlab".toList = some 1 := by decide
  exact ⟨by decide, rfl, hused, by decide,
    fun h => absurd (hused.symm.trans (h.licenseUsed _)) (by decide)⟩

end Slurm
