import Slurm.Pack.Books

/-!
# The loops over the members of a pack

The leader of a pack has its members allocated one after the other, and sets a mark on
the dependency of each; when one of them cannot be, those with a mark are backed out
again. Both loops stop at the first dependency without a job.

The members that the first loop allocates are the list `granted`, and then it ends or
comes to the one that fails (`allocatePackmbrs_eq`, `not_grant_of_drop`). In the books,
the loops are a number of starts (`grantAll_books`) and of back-outs
(`deallocatePackmbrs_books`), of all members that were allocated and of those with an
older mark (`backedOutOf_markFirst`); a second back-out does nothing
(`deallocatePackmbrs_twice`).
-/

namespace Slurm

open JobRecord List Option Nat DependSpec

/-! ## The loops over the members -/

/-- The members that are allocated in turn, with what they get: all up to the first one
    that is not. -/
def granted (member : ℕ → Pick) : ℕ → List DependSpec → List (Ptr × Grant)
  | _, [] => []
  | k, d :: deps =>
    match d.jobPtr, member k with
    | some q, .grant g => (q, g) :: granted member (k + 1) deps
    | _, _ => []

/-- The jobs that are backed out: those of the dependencies with a mark, up to the first
    dependency without a job. -/
def backedOutOf : List DependSpec → List Ptr
  | [] => []
  | d :: deps =>
    match d.jobPtr with
    | none => []
    | some q => if d.alloc then q :: backedOutOf deps else backedOutOf deps

/-- The mark on a dependency is set, or cleared. -/
def DependSpec.mark (alloc : Bool) (d : DependSpec) : DependSpec := { d with alloc := alloc }

/-- The marks after a back-out. -/
def unmarked : List DependSpec → List DependSpec
  | [] => []
  | d :: deps => if d.jobPtr.isSome then d.mark false :: unmarked deps else d :: deps

theorem backedOutOf_unmarked (deps : List DependSpec) : backedOutOf (unmarked deps) = [] := by
  induction deps with
  | nil => rfl
  | cons d deps ih =>
    cases hd : d.jobPtr with
    | none => simp [unmarked, hd, backedOutOf]
    | some q => simp [unmarked, hd, backedOutOf, mark, ih]

/-- A back-out leaves the marks behind the first dependency without a job. -/
theorem unmarked_clear_iff (deps : List DependSpec) :
    (∀ d ∈ unmarked deps, d.alloc = false) ↔
      ∀ d ∈ deps.dropWhile (·.jobPtr.isSome), d.alloc = false := by
  induction deps with
  | nil => rfl
  | cons d deps ih =>
    cases hd : d.jobPtr with
    | none => simp [unmarked, hd]
    | some q => simp [unmarked, hd, mark, ih]

/-- The marks after the allocation of the first `m` members. -/
def markFirst : ℕ → List DependSpec → List DependSpec
  | m + 1, d :: deps => d.mark true :: markFirst m deps
  | _, deps => deps

@[simp] theorem markFirst_zero (deps : List DependSpec) : markFirst 0 deps = deps := by
  cases deps <;> rfl

section

variable (member : ℕ → Pick)

/-- The outcomes for the first member: it has no job; or it is allocated, and so are others after
    it; or it is not. -/
theorem granted_cons (k : ℕ) (d : DependSpec) (deps : List DependSpec) :
    (d.jobPtr = none ∧ granted member k (d :: deps) = []) ∨
    (∃ q g, d.jobPtr = some q ∧ member k = .grant g ∧
      granted member k (d :: deps) = (q, g) :: granted member (k + 1) deps) ∨
    (∃ q, d.jobPtr = some q ∧ (∀ g, member k ≠ .grant g) ∧ granted member k (d :: deps) = []) := by
  cases hd : d.jobPtr with
  | none => exact .inl ⟨rfl, by simp [granted, hd]⟩
  | some q =>
    cases hk : member k with
    | grant g => exact .inr (.inl ⟨q, g, rfl, rfl, by simp [granted, hd, hk]⟩)
    | refuse rc reason => exact .inr (.inr ⟨q, rfl, by simp, by simp [granted, hd, hk]⟩)
    | hosed rc g held => exact .inr (.inr ⟨q, rfl, by simp, by simp [granted, hd, hk]⟩)

/-- The members that were allocated are backed out, and then those with an older mark. -/
theorem backedOutOf_markFirst (k : ℕ) (deps : List DependSpec) :
    backedOutOf (markFirst (granted member k deps).length deps) =
      (granted member k deps).map Prod.fst ++
        backedOutOf (deps.drop (granted member k deps).length) := by
  induction deps generalizing k with
  | nil => rfl
  | cons d deps ih =>
    obtain ⟨-, hg⟩ | ⟨q, g, hd, -, hg⟩ | ⟨-, -, -, hg⟩ := granted_cons member k d deps
    · simp [hg]
    · simp [hg, markFirst, backedOutOf, mark, hd, ih]
    · simp [hg]

/-- The allocation of members and their back-out changes no mark behind the first dependency
    without a job. -/
theorem unmarked_markFirst_clear_iff (k : ℕ) (deps : List DependSpec) :
    (∀ d ∈ unmarked (markFirst (granted member k deps).length deps), d.alloc = false) ↔
      ∀ d ∈ deps.dropWhile (·.jobPtr.isSome), d.alloc = false := by
  induction deps generalizing k with
  | nil => rfl
  | cons d deps ih =>
    obtain ⟨-, hg⟩ | ⟨q, g, hd, -, hg⟩ | ⟨-, -, -, hg⟩ := granted_cons member k d deps
    · rw [hg, length_nil, markFirst_zero, unmarked_clear_iff]
    · simp [hg, markFirst, unmarked, mark, hd, ih]
    · rw [hg, length_nil, markFirst_zero, unmarked_clear_iff]

end

/-! ### Back-outs -/

theorem modify_mark (pre : List DependSpec) (d : DependSpec) (deps : List DependSpec) (alloc : Bool) :
    (pre ++ d :: deps).modify pre.length (DependSpec.mark alloc) = pre ++ d.mark alloc :: deps := by
  induction pre with
  | nil => rfl
  | cons e pre ih => exact congrArg (e :: ·) ih

theorem setAlloc_deps {j : JobRecord} {pre deps : List DependSpec} {d : DependSpec}
    (h : j.deps = some (pre ++ d :: deps)) (alloc : Bool) :
    (j.setAlloc pre.length alloc).deps = some (pre ++ d.mark alloc :: deps) := by
  have hmap : (j.setAlloc pre.length alloc).deps =
      j.deps.map fun l => l.modify pre.length (mark alloc) := by
    simp only [JobRecord.deps, setAlloc]
    cases j.details <;> rfl
  rw [hmap, h, map_some, modify_mark]

section

variable (env : Env) (now : ℤ) (p : Ptr) {deps pre : List DependSpec} {d : DependSpec}

/-- Entries without a mark are passed over. -/
theorem backOutEntries_of_unmarked (k : ℕ) (h : backedOutOf deps = [])
    (c : Ctld) : backOutEntries now p k deps c = c := by
  induction deps generalizing k with
  | nil => rfl
  | cons d deps ih =>
    cases hd : d.jobPtr with
    | none => simp [backOutEntries, hd]
    | some q =>
      cases ha : d.alloc with
      | false =>
        simp only [backedOutOf, hd, ha] at h
        simp [backOutEntries, hd, ha, ih (k + 1) h]
      | true => simp [backedOutOf, hd, ha] at h

theorem setAlloc_terms (c : Ctld) (k : ℕ) (alloc : Bool) :
    (c.modJob p (setAlloc k alloc)).terms env = c.terms env := by
  refine setJob_terms env c p ?_ rfl (accounts_congr rfl)
  simp only [JobRecord.noShare, setAlloc]
  cases (c.job p).details <;> rfl

theorem setAlloc_books {c : Ctld} (h : c.books.deps p = some (pre ++ d :: deps)) (alloc : Bool) :
    (c.modJob p (setAlloc pre.length alloc)).books =
      c.books.setDeps p (some (pre ++ d.mark alloc :: deps)) := by
  rw [← setAlloc_deps h alloc]
  exact setJob_books_of_state c p rfl rfl

/-- The back-out of members, in the books. -/
theorem backOutEntries_books {c : Ctld} (h : c.books.deps p = some (pre ++ deps)) :
    (backOutEntries now p pre.length deps c).terms env = c.terms env ∧
    (backOutEntries now p pre.length deps c).books =
      ((backedOutOf deps).foldl (Books.backOut (c.terms env)) c.books).setDeps p
        (some (pre ++ unmarked deps)) := by
  induction deps generalizing pre c with
  | nil =>
    refine ⟨rfl, ?_⟩
    rw [unmarked, ← h]
    exact (c.books.setDeps_self p).symm
  | cons d deps ih =>
    have hlen : ∀ d' : DependSpec, pre.length + 1 = (pre ++ [d']).length := by simp
    cases hd : d.jobPtr with
    | none =>
      simp only [backOutEntries, backedOutOf, unmarked, hd, isSome_none, Bool.false_eq_true,
        if_false, ← h]
      exact ⟨trivial, (c.books.setDeps_self p).symm⟩
    | some q =>
      simp only [backOutEntries, backedOutOf, unmarked, hd, isSome_some, if_true]
      rw [append_cons, hlen (d.mark false)]
      cases ha : d.alloc with
      | false =>
        have hd' : d.mark false = d := by rw [← ha]; rfl
        rw [hd', if_neg Bool.false_ne_true, if_neg Bool.false_ne_true]
        exact ih (append_cons pre d deps ▸ h)
      | true =>
        have hterms : ((deallocateJpck now c q).modJob p
            (setAlloc pre.length false)).terms env = c.terms env := by
          rw [setAlloc_terms, deallocateJpck_terms]
        have hbooks : ((deallocateJpck now c q).modJob p (setAlloc pre.length false)).books =
              (c.books.backOut (c.terms env) q).setDeps p (some (pre ++ d.mark false :: deps)) := by
          have h' : (deallocateJpck now c q).books.deps p = some (pre ++ d :: deps) := by
            rw [deallocateJpck_books env]
            exact h
          rw [setAlloc_books p h', deallocateJpck_books]
        rw [if_pos rfl, if_pos rfl]
        generalize (deallocateJpck now c q).modJob p (setAlloc pre.length false) = c1
          at hterms hbooks ⊢
        have h1 : c1.books.deps p = some ((pre ++ [d.mark false]) ++ deps) := by
          rw [hbooks, Books.setDeps_deps_self, append_cons]
        obtain ⟨ihterms, ihbooks⟩ := ih h1
        refine ⟨ihterms.trans hterms, ?_⟩
        rw [ihbooks, hterms, hbooks, Books.foldl_backOut_setDeps, Books.setDeps_setDeps, foldl_cons]

variable {c : Ctld}

/-- The back-out of the members of a pack, in the books. -/
theorem deallocatePackmbrs_books (h : c.books.deps p = some deps) :
    (deallocatePackmbrs now c p).terms env = c.terms env ∧ (deallocatePackmbrs now c p).books =
      ((backedOutOf deps).foldl (Books.backOut (c.terms env)) c.books).setDeps p
        (some (unmarked deps)) := by
  have hdeps : (c.job p).deps = some deps := h
  have hloop : deallocatePackmbrs now c p = backOutEntries now p 0 deps c := by
    rw [deallocatePackmbrs, hdeps]
  have hnil : c.books.deps p = some ([] ++ deps) := h
  rw [hloop]
  exact backOutEntries_books env now p hnil

/-- There is nothing to back out. -/
theorem deallocatePackmbrs_eq_self (h : ∀ deps, c.books.deps p = some deps → backedOutOf deps = []) :
    deallocatePackmbrs now c p = c := by
  cases hdeps : (c.job p).deps with
  | none => rw [deallocatePackmbrs, hdeps]
  | some deps =>
    simp only [deallocatePackmbrs, hdeps]
    exact backOutEntries_of_unmarked now p 0 (h deps hdeps) c

/-- A second back-out does nothing. -/
theorem deallocatePackmbrs_twice (h : c.books.deps p = some deps) :
    deallocatePackmbrs now (deallocatePackmbrs now c p) p = deallocatePackmbrs now c p := by
  refine deallocatePackmbrs_eq_self now p fun deps' h' => ?_
  rw [(deallocatePackmbrs_books {} now p h).2, Books.setDeps_deps_self] at h'
  rw [← some.inj h', backedOutOf_unmarked]

/-! ### Starts -/

/-- The members that are allocated, one after the other. -/
def grantAll (env : Env) (now : ℤ) (p : Ptr) : ℕ → List (Ptr × Grant) → Ctld → Ctld
  | _, [], c => c
  | k, x :: took, c =>
    grantAll env now p (k + 1) took
      ((startJob env now c x.1 x.2).modJob p (setAlloc k true))

/-- The member `q` is not allocated, and with it those before it. -/
def failMember (env : Env) (now : ℤ) (p q : Ptr) (pick : Pick) (c : Ctld) : Rc × Ctld :=
  let (rc, c) := selectNodesPack env now c q false pick
  let c := deallocatePackmbrs now c p
  if c.isClusterIdle then (.packNeverRun, dissolvePack c p) else (rc, c)

/-- The loop over the members: those that are allocated, and the end of the list, or the first
    one that is not. -/
theorem allocatePackmbrs_eq (member : ℕ → Pick) (k : ℕ) (deps : List DependSpec) :
    allocatePackmbrs env now member p k deps c = let took := granted member k deps
      let c' := grantAll env now p k took c
      match deps.drop took.length with
      | [] => (.success, c')
      | d :: _ =>
        match d.jobPtr with
        | none => (.packBadMember, c')
        | some q => failMember env now p q (member (k + took.length)) c' := by
  induction deps generalizing k c with
  | nil => rfl
  | cons d deps ih =>
    obtain ⟨hd, hg⟩ | ⟨q, g, hd, hk, hg⟩ | ⟨q, hd, hk, hg⟩ := granted_cons member k d deps
    · simp [hg, allocatePackmbrs, hd, grantAll]
    · simp only [hg, allocatePackmbrs, hd, hk, selectNodesPack, Bool.false_eq_true, if_false, if_true]
      rw [ih]
      simp [grantAll, add_assoc, add_comm 1]
    · have hfail : (selectNodesPack env now c q false (member k)).1 ≠ .success := by
        cases hpick : member k with
        | grant g => exact absurd hpick (hk g)
        | refuse rc reason => exact rc.2
        | hosed rc g held => exact rc.2
      simp [hg, allocatePackmbrs, hd, grantAll, failMember, hfail]

/-- The member after those that are allocated is not allocated. -/
theorem not_grant_of_drop (member : ℕ → Pick) (k : ℕ)
    {r : List DependSpec} {q : Ptr} (h : deps.drop (granted member k deps).length = d :: r)
    (hd : d.jobPtr = some q) (g : Grant) : member (k + (granted member k deps).length) ≠ .grant g := by
  induction deps generalizing k with
  | nil => simp at h
  | cons e deps ih =>
    obtain ⟨hd', hg⟩ | ⟨_, _, -, -, hg⟩ | ⟨-, -, hk, hg⟩ := granted_cons member k e deps
    · simp only [hg, length_nil, drop_zero] at h
      obtain ⟨rfl, -⟩ := List.cons.inj h
      simp [hd] at hd'
    · rw [hg, length_cons, drop_succ_cons] at h
      rw [hg, length_cons, ← add_assoc, add_right_comm]
      exact ih (k + 1) h
    · rw [hg]
      exact hk g

theorem length_granted_le (member : ℕ → Pick) (k : ℕ) (deps : List DependSpec) :
    (granted member k deps).length ≤ deps.length := by
  induction deps generalizing k with
  | nil => exact le_rfl
  | cons d deps ih =>
    obtain ⟨-, hg⟩ | ⟨_, _, -, -, hg⟩ | ⟨-, -, -, hg⟩ := granted_cons member k d deps
    · simp [hg]
    · simp [hg, ih]
    · simp [hg]

/-- The allocation of members, in the books. -/
theorem grantAll_books {took : List (Ptr × Grant)}
    (hlen : took.length ≤ deps.length) (h : c.books.deps p = some (pre ++ deps)) :
    (grantAll env now p pre.length took c).terms env = c.terms env ∧
    (grantAll env now p pre.length took c).books =
      (took.foldl (Books.start (c.terms env)) c.books).setDeps p
        (some (pre ++ markFirst took.length deps)) := by
  induction took generalizing pre deps c with
  | nil =>
    refine ⟨rfl, ?_⟩
    rw [length_nil, markFirst_zero, ← h]
    exact (c.books.setDeps_self p).symm
  | cons x took ih =>
    obtain _ | ⟨d, deps⟩ := deps
    · simp at hlen
    have hpos : ∀ d' : DependSpec, pre.length + 1 = (pre ++ [d']).length := by simp
    have hstart : (startJob env now c x.1 x.2).books.deps p = some (pre ++ d :: deps) := by
      rw [startJob_books]
      exact h
    have hterms : ((startJob env now c x.1 x.2).modJob p
        (setAlloc pre.length true)).terms env = c.terms env := by
      rw [setAlloc_terms, startJob_terms]
    have hbooks : ((startJob env now c x.1 x.2).modJob p (setAlloc pre.length true)).books =
          (c.books.start (c.terms env) x).setDeps p (some (pre ++ d.mark true :: deps)) := by
      rw [setAlloc_books p hstart, startJob_books]
    simp only [grantAll, length_cons, markFirst]
    generalize (startJob env now c x.1 x.2).modJob p (setAlloc pre.length true) = c1
      at hterms hbooks ⊢
    have h1 : c1.books.deps p = some ((pre ++ [d.mark true]) ++ deps) := by
      rw [hbooks, Books.setDeps_deps_self, append_cons]
    rw [append_cons pre _ (markFirst took.length deps), hpos (d.mark true)]
    obtain ⟨ihterms, ihbooks⟩ := ih (le_of_succ_le_succ hlen) h1
    refine ⟨ihterms.trans hterms, ?_⟩
    rw [ihbooks, hterms, hbooks, Books.foldl_start_setDeps, Books.setDeps_setDeps, foldl_cons]

end

end Slurm
