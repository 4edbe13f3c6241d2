import Slurm.Pack.Schedule

/-!
# What the jobs of a pack are charged to

The counters of the nodes, the licenses and the accounts, with of each job only what
matters to them, are kept like an account book (`Books`). A job that starts is charged
to all of them (`Books.start`); a job that is backed out leaves its nodes, and that is
all (`Books.backOut`).

The scheduler keeps these books: what `startJob` and `deallocateJpck` do to the state of
the controller shows as a start and as a back-out in its books (`startJob_books`,
`deallocateJpck_books`), and neither changes what a job would be charged
(`startJob_terms`, `deallocateJpck_terms`). The lemmas on `List.foldl` sum up a number of
starts, or of back-outs.
-/

namespace Slurm

open JobRecord Function List Ctld

/-! ## The books -/

/-- What a node counts: its base state, whether a job is about to leave it, and how many jobs
    it has, and of those that do not share it. -/
structure NodeUse where
  base : NodeBase
  completing : Bool
  run : UInt16
  noShare : UInt16

/-- What a node counts when one more job is on it. -/
def NodeUse.take (noShare : Bool) (u : NodeUse) : NodeUse :=
  { u with
    base := .allocated
    run := u.run + 1
    noShare := if noShare then u.noShare + 1 else u.noShare }

/-- What a node counts when a job that has not run is backed out. -/
def NodeUse.leave (noShare : Bool) (u : NodeUse) : NodeUse :=
  { u with
    base := if u.base = .down then .down else if decr u.run ≠ 0 then .allocated else .idle
    run := decr u.run
    noShare := if noShare then decr u.noShare else u.noShare }

/-- What it depends on what a job is charged when it starts, besides its nodes. -/
structure Terms where
  nodeCnt : ℕ
  noShare : Ptr → Bool
  demand : Ptr → CStr → UInt32
  accounts : Ptr → List Account

/-- All that jobs are charged to, and of each job its base state, the nodes it has, and its
    dependencies, with the marks on those whose jobs are allocated. -/
structure Books where
  node : ℕ → NodeUse
  license : CStr → Option UInt32
  jobs : Account → UInt32
  tres : Account → ℕ → UInt64
  base : Ptr → JobBase
  held : Ptr → Option Bitmap
  deps : Ptr → Option (List DependSpec)

namespace Books

variable (t : Terms)

/-- A job starts on the nodes it is granted. -/
def start (b : Books) (x : Ptr × Grant) : Books where
  node i := if i < t.nodeCnt ∧ i ∈ x.2.nodes then (b.node i).take (t.noShare x.1) else b.node i
  license name := (b.license name).map (· + t.demand x.1 name)
  jobs a := b.jobs a + (t.accounts x.1).count a • 1
  tres a i := b.tres a i + (t.accounts x.1).count a • x.2.tresAllocCnt i
  base := update b.base x.1 .running
  held := update b.held x.1 (some x.2.nodes)
  deps := b.deps

/-- A job is backed out: it leaves the nodes it has. -/
def backOut (b : Books) (q : Ptr) : Books :=
  { b with
    node := fun i => if i ∈ (b.held q).getD ∅ then (b.node i).leave (t.noShare q) else b.node i
    base := update b.base q .pending }

/-- A job loses its nodes, without leaving them. -/
def drop (b : Books) (q : Ptr) : Books := { b with held := update b.held q none }

/-- The list of the dependencies of a job is a new one. -/
def setDeps (b : Books) (q : Ptr) (deps : Option (List DependSpec)) : Books :=
  { b with deps := update b.deps q deps }

theorem setDeps_self (b : Books) (q : Ptr) : b.setDeps q (b.deps q) = b := by
  rw [setDeps, update_eq_self]

@[simp] theorem setDeps_deps_self (b : Books) (q : Ptr) (deps : Option (List DependSpec)) :
    (b.setDeps q deps).deps q = deps := update_self ..

@[simp] theorem setDeps_setDeps (b : Books) (q : Ptr) (deps deps' : Option (List DependSpec)) :
    (b.setDeps q deps).setDeps q deps' = b.setDeps q deps' := by
  simp [setDeps]

end Books

/-! ### Sums -/

theorem toNat_decr (n : UInt16) : (decr n).toNat = n.toNat - 1 := by
  unfold decr
  split_ifs with h
  · have : n.toNat ≠ 0 := fun h0 => h (UInt16.toNat_inj.1 h0)
    rw [UInt16.toNat_sub_of_le _ _ (by rw [UInt16.le_iff_toNat_le]; simp; omega)]
    rfl
  · have : n = 0 := not_not.1 h
    subst this
    rfl

namespace NodeUse

variable {α : Type*} (s : α → Bool) (l : List α) (u : NodeUse)

theorem foldl_take : l.foldl (fun u x => u.take (s x)) u =
    { base := if l = [] then u.base else .allocated
      completing := u.completing
      run := u.run + UInt16.ofNat l.length
      noShare := u.noShare + UInt16.ofNat (l.countP s) } := by
  induction l generalizing u with
  | nil => simp
  | cons x l ih =>
    rw [foldl_cons, ih]
    cases hs : s x <;> simp [take, hs, UInt16.ofNat_add, add_assoc, add_comm]

theorem foldl_leave_completing : (l.foldl (fun u x => u.leave (s x)) u).completing = u.completing := by
  induction l generalizing u with
  | nil => rfl
  | cons x l ih => rw [foldl_cons, ih]; rfl

theorem foldl_leave_run :
    (l.foldl (fun u x => u.leave (s x)) u).run.toNat = u.run.toNat - l.length := by
  induction l generalizing u with
  | nil => rfl
  | cons x l ih =>
    rw [foldl_cons, ih, leave, toNat_decr, length_cons]
    omega

theorem foldl_leave_noShare :
    (l.foldl (fun u x => u.leave (s x)) u).noShare.toNat = u.noShare.toNat - l.countP s := by
  induction l generalizing u with
  | nil => rfl
  | cons x l ih =>
    rw [foldl_cons, ih, leave]
    cases hs : s x
    · simp [hs]
    · simp only [if_true, toNat_decr, countP_cons, hs]
      omega

theorem foldl_leave_base : (l.foldl (fun u x => u.leave (s x)) u).base =
    if l = [] then u.base else if u.base = .down then .down
      else if (l.foldl (fun u x => u.leave (s x)) u).run ≠ 0 then .allocated else .idle := by
  induction l generalizing u with
  | nil => rfl
  | cons x l ih =>
    rw [foldl_cons, ih]
    cases l with
    | nil => simp [leave]
    | cons y l =>
      simp only [leave, reduceCtorEq, if_false]
      split_ifs <;> simp_all

end NodeUse

namespace Books

variable (t : Terms) (b : Books)

section

variable (took : List (Ptr × Grant))

theorem foldl_start_node (i : ℕ) : (took.foldl (start t) b).node i =
    (took.filter fun x => i < t.nodeCnt ∧ i ∈ x.2.nodes).foldl
      (fun u x => u.take (t.noShare x.1)) (b.node i) := by
  simp only [foldl_filter, decide_eq_true_eq]
  induction took generalizing b with
  | nil => rfl
  | cons x took ih => rw [foldl_cons, ih, foldl_cons, start]

theorem foldl_start_license (name : CStr) : (took.foldl (start t) b).license name =
    (b.license name).map (· + (took.map fun x => t.demand x.1 name).sum) := by
  induction took generalizing b with
  | nil => simp
  | cons x took ih => simp [ih, start, comp_def, add_assoc]

theorem foldl_start_jobs (a : Account) : (took.foldl (start t) b).jobs a =
    b.jobs a + (took.map fun x => (t.accounts x.1).count a • 1).sum := by
  induction took generalizing b with
  | nil => simp
  | cons x took ih => rw [foldl_cons, ih, map_cons, sum_cons, start, add_assoc]

theorem foldl_start_tres (a : Account) (i : ℕ) : (took.foldl (start t) b).tres a i =
    b.tres a i + (took.map fun x => (t.accounts x.1).count a • x.2.tresAllocCnt i).sum := by
  induction took generalizing b with
  | nil => simp
  | cons x took ih => rw [foldl_cons, ih, map_cons, sum_cons, start, add_assoc]

theorem foldl_start_setDeps (p : Ptr) (deps : Option (List DependSpec)) :
    took.foldl (start t) (b.setDeps p deps) = (took.foldl (start t) b).setDeps p deps :=
  foldl_hom (setDeps · p deps) fun _ _ => rfl

theorem foldl_start_base {q : Ptr} (hq : q ∉ took.map Prod.fst) :
    (took.foldl (start t) b).base q = b.base q := by
  induction took generalizing b with
  | nil => rfl
  | cons x took ih =>
    rw [map_cons, mem_cons, not_or] at hq
    rw [foldl_cons, ih _ hq.2]
    exact update_of_ne hq.1 ..

end

section

variable (gave : List Ptr)

/-- A back-out changes neither the licenses nor the accounts. -/
theorem foldl_backOut : gave.foldl (backOut t) b = { b with
      node := (gave.foldl (backOut t) b).node
      base := (gave.foldl (backOut t) b).base } := by
  induction gave generalizing b with
  | nil => rfl
  | cons q gave ih => rw [foldl_cons, ih]; rfl

theorem foldl_backOut_setDeps (p : Ptr) (deps : Option (List DependSpec)) :
    gave.foldl (backOut t) (b.setDeps p deps) = (gave.foldl (backOut t) b).setDeps p deps :=
  foldl_hom (setDeps · p deps) fun _ _ => rfl

theorem foldl_backOut_base (q : Ptr) : (gave.foldl (backOut t) b).base q =
    if q ∈ gave then .pending else b.base q := by
  induction gave generalizing b with
  | nil => rfl
  | cons r gave ih =>
    rw [foldl_cons, ih, backOut]
    by_cases hq : q = r
    · simp [hq]
    · simp [hq]

theorem foldl_backOut_node (i : ℕ) : (gave.foldl (backOut t) b).node i =
    (gave.filter fun q => i ∈ (b.held q).getD ∅).foldl
      (fun u q => u.leave (t.noShare q)) (b.node i) := by
  simp only [foldl_filter, decide_eq_true_eq]
  induction gave generalizing b with
  | nil => rfl
  | cons q gave ih => rw [foldl_cons, ih, foldl_cons, backOut]

end

end Books

/-! ## The controller keeps the books -/

/-- What a node counts. -/
def NodeRecord.use (n : NodeRecord) : NodeUse := ⟨n.base, n.completing, n.runJobCnt, n.noShareJobCnt⟩

/-- What jobs are charged in the state `c`. -/
def Ctld.terms (env : Env) (c : Ctld) : Terms where
  nodeCnt := c.nodeRecordCount
  noShare q := (c.job q).noShare
  demand q := (c.job q).licenseDemand
  accounts q := c.accounts env (c.job q)

/-- The books in the state `c`. -/
def Ctld.books (c : Ctld) : Books where
  node i := (c.node i).use
  license := c.licenseUsed
  jobs := c.usedJobs
  tres := c.usedTres
  base q := (c.job q).jobState.base
  held q := (c.job q).nodeBitmap
  deps q := (c.job q).deps

theorem makeNodeComp_use (j : JobRecord) (n : NodeRecord) :
    (makeNodeComp j false true n).use = n.use.leave j.noShare := by
  simp only [NodeRecord.use, NodeUse.leave, makeNodeComp, Bool.false_eq_true, if_false,
    Bool.not_true, and_false]
  split_ifs <;> simp_all

section

variable (env : Env) (now : ℤ) (c : Ctld) (p q : Ptr)

variable {j : JobRecord}

/-- A new record for a job, which is charged the same. -/
theorem setJob_terms (hshare : j.noShare = (c.job p).noShare)
    (hdemand : j.licenseDemand = (c.job p).licenseDemand)
    (hacc : c.accounts env j = c.accounts env (c.job p)) :
    (c.setJob p j).terms env = c.terms env := by
  have hkeep {α : Type} (g : JobRecord → α) (h : g j = g (c.job p)) :
      (fun q => g ((c.setJob p j).job q)) = fun q => g (c.job q) := by
    have hupdate := comp_update g c.job p j
    rw [h] at hupdate
    exact hupdate.trans (update_eq_self p (g ∘ c.job))
  have hsame : ∀ j', (c.setJob p j).accounts env j' = c.accounts env j' := fun _ => rfl
  simp only [Ctld.terms, hsame, hkeep _ hshare, hkeep _ hdemand, hkeep _ hacc]
  rfl

/-- What of a new record for a job shows in the books. -/
theorem setJob_books (j : JobRecord) : (c.setJob p j).books = { c.books with
      base := update c.books.base p j.jobState.base
      held := update c.books.held p j.nodeBitmap
      deps := update c.books.deps p j.deps } := by
  have hbase : (c.setJob p j).books.base = update c.books.base p j.jobState.base :=
    comp_update (fun j : JobRecord => j.jobState.base) c.job p _
  have hheld : (c.setJob p j).books.held = update c.books.held p j.nodeBitmap :=
    comp_update (fun j : JobRecord => j.nodeBitmap) c.job p _
  have hdeps : (c.setJob p j).books.deps = update c.books.deps p j.deps :=
    comp_update (fun j : JobRecord => j.deps) c.job p _
  rw [← hbase, ← hheld, ← hdeps]
  rfl

theorem update_books_base :
    update c.books.base p (c.job p).jobState.base = c.books.base :=
  update_eq_self p c.books.base

theorem update_books_held :
    update c.books.held p (c.job p).nodeBitmap = c.books.held :=
  update_eq_self p c.books.held

/-- A new record for a job, of which only the base state and the nodes are new. -/
theorem setJob_books_of_deps (hdeps : j.deps = (c.job p).deps) : (c.setJob p j).books =
    { c.books with
      base := update c.books.base p j.jobState.base
      held := update c.books.held p j.nodeBitmap } := by
  have hsame : update c.books.deps p (c.job p).deps = c.books.deps := update_eq_self p c.books.deps
  rw [setJob_books, hdeps, hsame]

/-- A new record for a job, of which only the dependencies are new. -/
theorem setJob_books_of_state (hbase : j.jobState.base = (c.job p).jobState.base)
    (hheld : j.nodeBitmap = (c.job p).nodeBitmap) :
    (c.setJob p j).books = c.books.setDeps p j.deps := by
  rw [setJob_books, hbase, hheld, update_books_base, update_books_held]
  rfl

/-- A new record for a job, of which only the nodes are new. -/
theorem setJob_books_of_base (hbase : j.jobState.base = (c.job p).jobState.base)
    (hdeps : j.deps = (c.job p).deps) : (c.setJob p j).books =
    { c.books with held := update c.books.held p j.nodeBitmap } := by
  rw [setJob_books_of_deps c p hdeps, hbase, update_books_base]

/-- A new record for a job, of which only the base state is new. -/
theorem setJob_books_of_held (hheld : j.nodeBitmap = (c.job p).nodeBitmap)
    (hdeps : j.deps = (c.job p).deps) : (c.setJob p j).books =
    { c.books with base := update c.books.base p j.jobState.base } := by
  rw [setJob_books_of_deps c p hdeps, hheld, update_books_held]

/-- A new record for a job that does not show in the books. -/
theorem setJob_books_same (hbase : j.jobState.base = (c.job p).jobState.base)
    (hheld : j.nodeBitmap = (c.job p).nodeBitmap) (hdeps : j.deps = (c.job p).deps) :
    (c.setJob p j).books = c.books := by
  rw [setJob_books_of_base c p hbase hdeps, hheld, update_books_held]

/-! ### A start -/

theorem allocNodes_books (j : JobRecord) : (c.allocNodes now j).books = { c.books with
      node := fun i =>
        if i < c.nodeRecordCount ∧ i ∈ j.nodeSet then (c.books.node i).take j.noShare
        else c.books.node i } := by
  have hnode : (c.allocNodes now j).books.node = fun i =>
      if i < c.nodeRecordCount ∧ i ∈ j.nodeSet then (c.books.node i).take j.noShare
      else c.books.node i := by
    funext i
    exact apply_ite NodeRecord.use _ _ _
  rw [← hnode]
  rfl

theorem licenseJobGet_terms : (licenseJobGet c q).terms env = c.terms env := by
  have hdemand := funext (licenseJobGet_licenseDemand c q)
  rw [licenseJobGet, setJob_job_self] at hdemand
  exact setJob_terms env { c with licenseUsed := _ } q rfl hdemand (accounts_congr rfl)

theorem licenseJobGet_books : (licenseJobGet c q).books = { c.books with
      license := fun name => (c.books.license name).map (· + (c.job q).licenseDemand name) } := by
  have hlic : (licenseJobGet c q).licenseUsed =
      fun name => (c.licenseUsed name).map (· + (c.job q).licenseDemand name) :=
    funext (licenseJobGet_licenseUsed c q)
  have hbooks : (licenseJobGet c q).books =
      { c.books with license := (licenseJobGet c q).licenseUsed } :=
    setJob_books_same { c with licenseUsed := _ } q rfl rfl rfl
  rw [hbooks, hlic]
  rfl

theorem acctPolicyJobBegin_terms : (acctPolicyJobBegin env c q).terms env = c.terms env := by
  have hacc := acctPolicyJobBegin_sameAccounts env c q
  obtain ⟨j, acct, runSecs, hj, heq⟩ := acctPolicyJobBegin_eq env c q
  have hset : (c.setJob q j).terms env = c.terms env := by
    rcases hj with rfl | rfl
    · exact setJob_terms env c q rfl rfl rfl
    · refine setJob_terms env c q ?_ ?_ accounts_withAssoc
      all_goals
        simp only [Ctld.withAssoc]
        split <;> rfl
  rw [← hset]
  simp only [Ctld.terms, hacc.accounts]
  rw [heq]
  rfl

theorem acctPolicyJobBegin_books : (acctPolicyJobBegin env c q).books = { c.books with
      jobs := fun a => c.books.jobs a + (c.accounts env (c.job q)).count a • 1
      tres := fun a i =>
        c.books.tres a i + (c.accounts env (c.job q)).count a • (c.job q).tresAllocCnt i } := by
  have hjobs := funext (acctPolicyJobBegin_usedJobs env c q)
  have htres := funext fun a => funext (acctPolicyJobBegin_usedTres env c q a)
  obtain ⟨j, acct, runSecs, hj, heq⟩ := acctPolicyJobBegin_eq env c q
  have hset : (c.setJob q j).books = c.books := by
    rcases hj with rfl | rfl
    · exact setJob_books_same c q rfl rfl rfl
    · refine setJob_books_same c q ?_ ?_ ?_
      all_goals
        simp only [Ctld.withAssoc]
        split <;> rfl
  have hbooks : (acctPolicyJobBegin env c q).books = { (c.setJob q j).books with
        jobs := (acctPolicyJobBegin env c q).usedJobs
        tres := (acctPolicyJobBegin env c q).usedTres } := by
    rw [heq]
    rfl
  rw [hbooks, hset, hjobs, htres]
  rfl

/-- Ports do not show in the books. -/
theorem resvPortsJobpack_books : (resvPortsJobpack env c q).terms env = c.terms env ∧
    (resvPortsJobpack env c q).books = c.books := by
  have hwant : (c.modJob q wantPorts).terms env = c.terms env :=
    setJob_terms env c q rfl rfl (accounts_congr rfl)
  have hwant' : (c.modJob q wantPorts).books = c.books := setJob_books_same c q rfl rfl rfl
  rw [← hwant, ← hwant', resvPortsJobpack]
  obtain ⟨-, h⟩ | ⟨m, h, -⟩ | ⟨m, h, -⟩ := resvPortAllocJobpack_cases env (c.modJob q wantPorts) q
  · exact ⟨by rw [h], by rw [h]⟩
  · rw [h]
    exact ⟨rfl, rfl⟩
  · rw [h]
    exact ⟨setJob_terms env (Ctld.setPort _ m) q rfl rfl (accounts_congr rfl),
      setJob_books_same (Ctld.setPort _ m) q rfl rfl rfl⟩

theorem beginJob_terms (g : Grant) : (beginJob env now c q g).terms env = c.terms env := by
  have hmod (d : Ctld) (f : JobRecord → JobRecord) (hshare : (f (d.job q)).noShare = (d.job q).noShare)
      (hlic : (f (d.job q)).licenseDemand = (d.job q).licenseDemand)
      (hbill : (f (d.job q)).billing = (d.job q).billing) : (d.modJob q f).terms env = d.terms env :=
    setJob_terms env d q hshare hlic (accounts_congr hbill)
  simp only [beginJob, allocateNodes]
  rw [hmod _ _ rfl rfl rfl, acctPolicyJobBegin_terms, hmod _ _ rfl rfl rfl, licenseJobGet_terms]
  rfl

theorem startJob_terms (g : Grant) : (startJob env now c q g).terms env = c.terms env := by
  have hplaced : (c.modJob q fun j => (j.placed now g).assigned g).terms env = c.terms env :=
    setJob_terms env c q rfl rfl (accounts_congr rfl)
  simp only [startJob]
  split_ifs
  · rw [(resvPortsJobpack_books ..).1, beginJob_terms, hplaced]
  · rw [beginJob_terms, hplaced]

/-- A job that has its nodes is charged for them, and runs. -/
theorem beginJob_books {g : Grant} (hnodes : (c.job q).nodeBitmap = some g.nodes) :
    (beginJob env now c q g).books =
      { c.books.start (c.terms env) (q, g) with held := c.books.held } := by
  have hset : (c.job q).nodeSet = g.nodes := by rw [nodeSet, hnodes, Option.getD_some]
  simp only [beginJob, allocateNodes]
  generalize hc3 : licenseJobGet (c.allocNodes now (c.job q)) q = c3
  have hterms3 : c3.terms env = c.terms env := by
    rw [← hc3, licenseJobGet_terms]
    rfl
  have hbooks3 : c3.books = { c.books.start (c.terms env) (q, g) with
        jobs := c.books.jobs, tres := c.books.tres, base := c.books.base, held := c.books.held } := by
    rw [← hc3, licenseJobGet_books, allocNodes_books, hset]
    rfl
  have hterms4 : (c3.modJob q (begun g)).terms env = c.terms env :=
    hterms3 ▸ setJob_terms env c3 q rfl rfl (accounts_congr rfl)
  have hbooks4 : (c3.modJob q (begun g)).books =
      { c3.books with base := update c3.books.base q .running } :=
    setJob_books_of_held c3 q rfl rfl
  have hacc : (c3.modJob q (begun g)).accounts env
      ((c3.modJob q (begun g)).job q) = c.accounts env (c.job q) :=
    congrFun (congrArg Terms.accounts hterms4) q
  have htres : ((c3.modJob q (begun g)).job q).tresAllocCnt = g.tresAllocCnt := by
    rw [modJob_job_self]
    rfl
  have hbooks5 := acctPolicyJobBegin_books env (c3.modJob q (begun g)) q
  rw [hacc, htres, hbooks4, hbooks3] at hbooks5
  generalize acctPolicyJobBegin env (c3.modJob q (begun g)) q = c5 at hbooks5 ⊢
  have hrun : c5.books.base q = .running := by
    rw [hbooks5]
    exact update_self ..
  have hready : (c5.modJob q (readied g)).books = c5.books :=
    setJob_books_same c5 q hrun.symm rfl rfl
  rw [hready, hbooks5]
  rfl

/-- A start of a job is one in the books. -/
theorem startJob_books (g : Grant) :
    (startJob env now c q g).books = c.books.start (c.terms env) (q, g) := by
  set c1 := c.modJob q fun j => (j.placed now g).assigned g
  have hterms : c1.terms env = c.terms env :=
    setJob_terms env c q rfl rfl (accounts_congr rfl)
  have hplaced : c1.books = { c.books with held := update c.books.held q (some g.nodes) } :=
    setJob_books_of_base c q rfl rfl
  have hbegin : (beginJob env now c1 q g).books = c.books.start (c.terms env) (q, g) := by
    rw [beginJob_books env now _ q (by rw [modJob_job_self]; rfl), hterms, hplaced]
    rfl
  simp only [startJob]
  split_ifs
  · rw [(resvPortsJobpack_books ..).2, hbegin]
  · exact hbegin

/-! ### A back-out -/

theorem returnNodes_books (j : JobRecord) (nodes : Bitmap) : (c.returnNodes now j nodes).books =
    { c.books with
      node := fun i =>
        if i ∈ nodes then (c.books.node i).leave j.noShare else c.books.node i } := by
  have hnode : (c.returnNodes now j nodes).books.node = fun i =>
      if i ∈ nodes then (c.books.node i).leave j.noShare else c.books.node i := by
    funext i
    have hleave : (c.books.node i).leave j.noShare = (makeNodeComp j false true (c.node i)).use :=
      (makeNodeComp_use j (c.node i)).symm
    rw [hleave]
    exact apply_ite NodeRecord.use _ _ _
  rw [← hnode]
  rfl

theorem deallocateJpck_terms : (deallocateJpck now c q).terms env = c.terms env := by
  have hback : (c.modJob q backedOut).terms env = c.terms env :=
    setJob_terms env c q rfl rfl (accounts_congr rfl)
  simp only [deallocateJpck]
  split_ifs
  · exact hback
  · rw [← hback]
    exact setJob_terms env (Ctld.returnNodes _ now _ _) q rfl rfl (accounts_congr rfl)

/-- A back-out of a job is one in the books. -/
theorem deallocateJpck_books :
    (deallocateJpck now c q).books = c.books.backOut (c.terms env) q := by
  have hback : (c.modJob q backedOut).books =
      { c.books with base := update c.books.base q .pending } :=
    setJob_books_of_held c q rfl rfl
  have hset : ((c.modJob q backedOut).job q).nodeSet = (c.books.held q).getD ∅ := by
    rw [modJob_job_self]
    rfl
  have hshare : ((c.modJob q backedOut).job q).noShare = (c.terms env).noShare q := by
    rw [modJob_job_self]
    rfl
  simp only [deallocateJpck, hset]
  generalize c.modJob q backedOut = c1 at hback hshare ⊢
  split_ifs with hempty
  · rw [hback, Books.backOut, hempty]
    simp
  · have hreturn := returnNodes_books now c1 (c1.job q) ((c.books.held q).getD ∅)
    rw [hback, hshare] at hreturn
    refine Eq.trans ?_ hreturn
    exact setJob_books_same _ q rfl rfl rfl

end

end Slurm
