import Slurm.Gang.Row

/-!
# Jobs take turns

The loop of `_cycle_job_list` moves entries of the array it runs over. It ends
after at most two rounds for each job (`CycleLoop.run_eq`), with all jobs out of the
row: those that were not active at the front, and those that were at the back, each in
their order. The row that is then built from the front is filled with jobs, and the
first job of the list is among them if no shadow is in its way
(`Gang.cycleJobList_filled`).
-/

namespace Slurm

open Function List

/-- A job that is out of the row. -/
def GsJob.idle (k : GsJob) : GsJob := { k with rowState := .noActive }

namespace CycleLoop

variable {job : Ptr → GsJob} {front l b : List Ptr} {n : ℕ}

theorem iterate_nil (n : ℕ) : step^[n] ⟨job, front, []⟩ = ⟨job, front, []⟩ :=
  iterate_fixed rfl n

/-- The job at the index leaves the row. It goes to the back if it was active. -/
theorem step_cons (j : Ptr) (l : List Ptr) :
    step ⟨job, front, j :: l⟩ =
      if (job j).rowState = .active then ⟨update job j (job j).idle, front, l ++ [j]⟩
      else ⟨update job j (job j).idle, front ++ [j], l⟩ := by
  cases hrow : (job j).rowState with
  | active => simp [step, hrow, GsJob.idle]
  | filler => simp [step, hrow, GsJob.idle]
  | noActive =>
    have hidle : (job j).idle = job j := by
      rw [GsJob.idle, ← hrow]
    simp [step, hrow, hidle]

/-- Jobs that are out of the row are passed by. -/
theorem run_idle (hb : ∀ j ∈ b, (job j).rowState = .noActive) (hn : b.length ≤ n) :
    step^[n] ⟨job, front, b⟩ = ⟨job, front ++ b, []⟩ := by
  induction b generalizing front n with
  | nil => simp [iterate_nil]
  | cons j b ih =>
    obtain ⟨n, rfl⟩ : ∃ k, n = k + 1 := ⟨n - 1, by simp at hn; omega⟩
    have hj : (job j).rowState = .noActive := hb j mem_cons_self
    have hidle : (job j).idle = job j := by rw [GsJob.idle, ← hj]
    rw [iterate_succ_apply, step_cons, if_neg (by simp [hj]), hidle,
      update_eq_self, ih (fun k hk => hb k (mem_cons_of_mem _ hk))
        (by simpa using hn), append_assoc]
    rfl

/-- The whole loop. The jobs in `l` were not looked at yet, and those in `b` were moved to
    the back. -/
theorem run_eq (hb : ∀ j ∈ b, (job j).rowState = .noActive) (hnd : (l ++ b).Nodup)
    (hn : 2 * l.length + b.length ≤ n) :
    step^[n] ⟨job, front, l ++ b⟩ = ⟨fun k => if k ∈ l then (job k).idle else job k,
        front ++ l.filter (fun j => (job j).rowState ≠ .active) ++
          (b ++ l.filter fun j => (job j).rowState = .active), []⟩ := by
  induction l generalizing job front b n with
  | nil =>
    have hb' : step^[n] ⟨job, front, b⟩ = _ := run_idle hb (by simpa using hn)
    simpa using hb'
  | cons j l ih =>
    obtain ⟨n, rfl⟩ : ∃ k, n = k + 1 := ⟨n - 1, by simp at hn; omega⟩
    simp only [length_cons] at hn
    rw [cons_append, nodup_cons] at hnd
    obtain ⟨hj, hnd⟩ := hnd
    rw [mem_append, not_or] at hj
    -- the jobs that follow are not touched in this round
    set job' := update job j (job j).idle with hjob'
    have hsame (k) (hk : k ≠ j) : job' k = job k := update_of_ne hk _ _
    have hself : job' j = (job j).idle := update_self _ _ _
    have hl (k) (hk : k ∈ l) : job' k = job k := hsame k (by rintro rfl; exact hj.1 hk)
    have hact : (l.filter fun k => (job' k).rowState = .active) =
        l.filter fun k => (job k).rowState = .active :=
      filter_congr fun k hk => by rw [hl k hk]
    have hnot : (l.filter fun k => (job' k).rowState ≠ .active) =
        l.filter fun k => (job k).rowState ≠ .active :=
      filter_congr fun k hk => by rw [hl k hk]
    have hfun : (fun k => if k ∈ l then (job' k).idle else job' k) =
        fun k => if k ∈ j :: l then (job k).idle else job k := by
      funext k
      by_cases hkj : k = j
      · subst hkj
        simp [hj.1, hself]
      · simp [hkj, hsame k hkj]
    have hb' (k) (hk : k ∈ b) : (job' k).rowState = .noActive := by
      rw [hsame k (by rintro rfl; exact hj.2 hk)]
      exact hb k hk
    rw [iterate_succ_apply, cons_append, step_cons, ← hjob']
    by_cases hrow : (job j).rowState = .active
    · rw [if_pos hrow, append_assoc, ih, hact, hnot, hfun]
      · simp [hrow]
      · intro k hk
        rcases mem_append.1 hk with hk | hk
        · exact hb' k hk
        · rw [mem_singleton.1 hk, hself]
          rfl
      · rw [← append_assoc]
        exact nodup_append.2 ⟨hnd, nodup_singleton j, by
          rintro x hx y hy rfl
          rw [mem_singleton.1 hy] at hx
          exact (mem_append.1 hx).elim hj.1 hj.2⟩
      · simp only [length_append, length_singleton]
        omega
    · rw [if_neg hrow, ih hb' hnd (by omega), hact, hnot, hfun]
      simp [hrow]

end CycleLoop

namespace Gang

variable {m : CoreMap} {g g' : Gang} {p q j k : Ptr}

/-- The order in which the jobs come up next. -/
def nextJobList (g : Gang) (p : Ptr) : List Ptr :=
  (g.part p).jobList.filter (fun j => (g.job j).rowState ≠ .active) ++
    (g.part p).jobList.filter fun j => (g.job j).rowState = .active

theorem cycleLoop_eq (hnd : (g.part p).jobList.Nodup) :
    g.cycleLoop p = ⟨fun k => if k ∈ (g.part p).jobList then (g.job k).idle else g.job k,
      g.nextJobList p, []⟩ := by
  have h : CycleLoop.step^[2 * (g.part p).jobList.length] ⟨g.job, [], (g.part p).jobList ++ []⟩ = _ :=
    CycleLoop.run_eq (by simp) (by simpa using hnd) (by simp)
  simpa [cycleLoop, nextJobList] using h

theorem nextJobList_perm : (g.nextJobList p).Perm (g.part p).jobList := by
  have h := filter_append_perm (fun j => decide ((g.job j).rowState ≠ .active)) (g.part p).jobList
  simpa [nextJobList] using h

/-! ## Signals -/

/-- What becomes of a job when those out of the row are suspended. -/
def suspended (k : GsJob) : GsJob :=
  if k.rowState = .noActive ∧ k.sigState = .resume then { k with sigState := .suspend } else k

/-- What becomes of a job when those in the row are resumed. -/
def resumed (k : GsJob) : GsJob :=
  if k.rowState = .active ∧ k.sigState = .suspend ∧ k.priority ≠ 0 then
    { k with sigState := .resume }
  else k

/-- One job of `p` gets a signal. -/
structure Signals (σ : GsJob → GsJob) (p j : Ptr) (g g' : Gang) : Prop where
  turn : Turn p g g'
  lit : ∀ q, (g'.part q).lit = (g.part q).lit
  job : ∀ k, g'.job k = if k = j then σ (g.job j) else g.job k

theorem signals_suspendIdle (hs : Sound g) (hj : j ∈ (g.part p).jobList) :
    Signals suspended p j g (g.suspendIdle j) := by
  by_cases hc : (g.job j).rowState = .noActive ∧ (g.job j).sigState = .resume
  · have heq : g.suspendIdle j = g.halt j := if_pos hc
    rw [heq]
    refine ⟨hs.halt hj, fun q => clearShadow_lit q, fun k => ?_⟩
    rw [halt_job, suspended, if_pos hc]
  · have heq : g.suspendIdle j = g := if_neg hc
    rw [heq]
    refine ⟨Turn.refl hs, fun _ => rfl, fun k => ?_⟩
    rw [suspended, if_neg hc]
    split_ifs with hk
    · rw [hk]
    · rfl

theorem signals_resumeActive (hs : Sound g) (hp : p ∈ g.gsPartList)
    (hj : j ∈ (g.part p).jobList) : Signals resumed p j g (resumeActive p g j) := by
  by_cases hc : (g.job j).rowState = .active ∧ (g.job j).sigState = .suspend ∧
      (g.job j).priority ≠ 0
  · have heq : resumeActive p g j = g.wake p j := if_pos hc
    rw [heq]
    refine ⟨hs.wake hp hj, fun q => castShadow_lit _ q, fun k => ?_⟩
    rw [wake_job, resumed, if_pos hc]
  · have heq : resumeActive p g j = g := if_neg hc
    rw [heq]
    refine ⟨Turn.refl hs, fun _ => rfl, fun k => ?_⟩
    rw [resumed, if_neg hc]
    split_ifs with hk
    · rw [hk]
    · rfl

/-- Signals for all jobs of a list. -/
theorem signals_pass {σ : GsJob → GsJob} {f : Gang → Ptr → Gang} {todo : List Ptr}
    (hnd : todo.Nodup) (hs : Sound g) (hmem : ∀ j ∈ todo, j ∈ (g.part p).jobList)
    (hf : ∀ h, Turn p g h → ∀ j ∈ todo, Signals σ p j h (f h j)) :
    Turn p g (todo.foldl f g) ∧ (∀ q, ((todo.foldl f g).part q).lit = (g.part q).lit) ∧
      ∀ k, (todo.foldl f g).job k = if k ∈ todo then σ (g.job k) else g.job k := by
  induction todo generalizing g with
  | nil => exact ⟨Turn.refl hs, fun _ => rfl, fun k => by simp⟩
  | cons j todo ih =>
    obtain ⟨hj, hnd⟩ := nodup_cons.1 hnd
    have h1 : Signals σ p j g (f g j) := hf g (Turn.refl hs) j mem_cons_self
    obtain ⟨ht, hlit, hjob⟩ := ih hnd h1.turn.sound
      (fun k hk => h1.turn.jobList.mem_iff.2 (hmem k (mem_cons_of_mem _ hk)))
      fun h ht k hk => hf h (h1.turn.trans ht) k (mem_cons_of_mem _ hk)
    refine ⟨h1.turn.trans ht, fun q => (hlit q).trans (h1.lit q), fun k => ?_⟩
    rw [foldl_cons, hjob, h1.job]
    by_cases hkj : k = j
    · subst hkj
      simp [hj]
    · simp [hkj]

theorem suspended_rowState (k : GsJob) : (suspended k).rowState = k.rowState := by
  unfold suspended
  split_ifs <;> rfl

theorem resumed_rowState (k : GsJob) : (resumed k).rowState = k.rowState := by
  unfold resumed
  split_ifs <;> rfl

/-- After the signals, a job out of the row is suspended. -/
theorem signals_noActive {k : GsJob} (h : k.rowState = .noActive) :
    (resumed (suspended k)).sigState = .suspend := by
  have hr : (suspended k).rowState = .noActive := (suspended_rowState k).trans h
  rw [resumed, if_neg (by simp [hr]), suspended]
  split_ifs with hc
  · rfl
  · cases hsig : k.sigState with
    | suspend => rfl
    | resume => exact absurd ⟨h, hsig⟩ hc

/-- After the signals, a job in the row runs. -/
theorem signals_active {k : GsJob} (h : k.rowState = .active) (hp : k.priority ≠ 0) :
    (resumed (suspended k)).sigState = .resume := by
  have hs : suspended k = k := if_neg (by simp [h])
  rw [hs, resumed]
  split_ifs with hc
  · rfl
  · cases hsig : k.sigState with
    | suspend => exact absurd ⟨h, hsig, hp⟩ hc
    | resume => rfl

/-! ## The turn -/

/-- The state after the loop, before the new row is built. -/
def rotated (g : Gang) (p : Ptr) : Gang :=
  Gang.modPart { g with job := (g.cycleLoop p).job } p fun t =>
    { t with jobList := (g.cycleLoop p).front ++ (g.cycleLoop p).rest }

theorem turn_rotated (hs : Sound g) (hp : p ∈ g.gsPartList) :
    Turn p g (g.rotated p) ∧ ((g.rotated p).part p).jobList = g.nextJobList p ∧
      (∀ q, ((g.rotated p).part q).shadow = (g.part q).shadow) ∧
      ∀ k, (g.rotated p).job k = if k ∈ (g.part p).jobList then (g.job k).idle else g.job k := by
  have hloop := cycleLoop_eq (hs.jobs p hp)
  have hpart (q) : (g.rotated p).part q =
      if q = p then { g.part p with jobList := g.nextJobList p } else g.part q := by
    rw [rotated, modPart_part, hloop, append_nil]
  have hjob (k) : (g.rotated p).job k =
      if k ∈ (g.part p).jobList then (g.job k).idle else g.job k := by
    rw [rotated, modPart_job, hloop]
  have hshadow (q) : ((g.rotated p).part q).shadow = (g.part q).shadow := by
    rw [hpart]
    split_ifs with hq
    · rw [hq]
    · rfl
  refine ⟨Acts.turn ⟨rfl, fun q hq => ?_, ?_, ?_, ?_, fun k => ?_, fun k hk => ?_⟩ hs hshadow
    fun k => ?_, ?_, hshadow, hjob⟩
  · rw [hpart, if_neg hq]
  · rw [hpart, if_pos rfl]
  · rw [hpart, if_pos rfl]
  · rw [hpart, if_pos rfl]
    exact nextJobList_perm
  · rw [hjob]
    split_ifs <;> rfl
  · rw [hjob, if_neg hk]
  · rw [hjob]
    split_ifs <;> rfl
  · rw [hpart, if_pos rfl]

/-- The new row, and the signals after it, for a list with jobs in it. -/
theorem buildRow_filled (hs : Sound g) (hp : p ∈ g.gsPartList) (hne : (g.part p).jobList ≠ [])
    (hidle : ∀ j ∈ (g.part p).jobList, (g.job j).rowState = .noActive) :
    let g₃ := g.buildActiveRow m p
    let g₄ := (g₃.part p).jobList.foldl suspendIdle g₃
    let g₅ := (g₄.part p).jobList.foldl (resumeActive p) g₄
    Turn p g g₅ ∧ (g₅.part p).jobList = (g.part p).jobList ∧ Filled m g₅ p ∧
      ∀ j rest, (g.part p).jobList = j :: rest → (g.part p).shadow = [] →
        (g.job j).priority ≠ 0 → (g₅.job j).rowState = .active ∧ (g₅.job j).sigState = .resume := by
  intro g₃ g₄ g₅
  obtain ⟨ht2, hjob2, hlist2, hpk2⟩ := packed_addShadows hs hp
  have hg3 : g₃ = ((g.addShadows m p).part p).jobList.foldl (activateJob m p)
      (g.addShadows m p) := if_neg hne
  have hp2 : p ∈ (g.addShadows m p).gsPartList := ht2.gsPartList ▸ hp
  obtain ⟨fresh, hpass, hpk3⟩ := activate_pass ht2.sound hp2 hpk2 fun j hj =>
    hs.notMem_shadow hp (hlist2 ▸ hj)
  rw [← hg3] at hpass hpk3
  have hlist3 : (g₃.part p).jobList = (g.part p).jobList := hpass.jobList.trans hlist2
  have ht3 : Turn p g g₃ := ht2.trans hpass.turn
  -- in the new row are the jobs that were placed just now
  have hin (j) (hj : j ∈ fresh) : g₃.job j = { g.job j with rowState := .active } := by
    rw [hpass.placed j hj, hjob2]
    rfl
  have hout (j) (hj : j ∈ (g.part p).jobList) (hf : j ∉ fresh) : g₃.job j = g.job j := by
    rw [← congrFun hjob2 j]
    by_cases hc : activatePass.considered ((g.addShadows m p).job j)
    · exact hpass.dropped j (hlist2.symm ▸ hj) hc hf
    · exact hpass.other j (Or.inr hc)
  have hp3 : p ∈ g₃.gsPartList := ht3.gsPartList ▸ hp
  obtain ⟨ht4, hlit4, hjob4⟩ := signals_pass (σ := suspended)
    (ht3.sound.jobs p hp3) ht3.sound (fun _ hj => hj)
    fun h ht j hj => signals_suspendIdle ht.sound (ht.jobList.mem_iff.2 hj)
  have hp4 : p ∈ g₄.gsPartList := ht4.gsPartList ▸ hp3
  obtain ⟨ht5, hlit5, hjob5⟩ := signals_pass (σ := resumed)
    (ht4.sound.jobs p hp4) ht4.sound (fun _ hj => hj)
    fun h ht j hj => signals_resumeActive ht.sound (ht.gsPartList ▸ hp4) (ht.jobList.mem_iff.2 hj)
  have hlist4 : (g₄.part p).jobList = (g.part p).jobList :=
    (of_lit (·.jobList) (hlit4 p)).trans hlist3
  have hlist5 : (g₅.part p).jobList = (g.part p).jobList :=
    (of_lit (·.jobList) (hlit5 p)).trans hlist4
  have hlast (j) (hj : j ∈ (g.part p).jobList) : g₅.job j = resumed (suspended (g₃.job j)) := by
    rw [hjob5, if_pos (hlist4.symm ▸ hj), hjob4, if_pos (hlist3.symm ▸ hj)]
  have hrows (j) : (g₅.job j).rowState = (g₃.job j).rowState := by
    rw [hjob5, hjob4]
    split_ifs <;> simp only [suspended_rowState, resumed_rowState]
  -- who is in the row runs, and who is not is suspended
  have hrun (j) (hj : j ∈ (g.part p).jobList) :
      (j ∈ fresh → (g₅.job j).rowState = .active ∧ (g₅.job j).sigState = .resume) ∧
      (j ∉ fresh → (g₅.job j).rowState = .noActive ∧ (g₅.job j).sigState = .suspend) := by
    constructor
    · intro hf
      have hact : (g₃.job j).rowState = .active := by rw [hin j hf]
      have hprio : (g₃.job j).priority ≠ 0 := by
        have hc : ((g.addShadows m p).job j).priority ≠ 0 := (hpass.mem j hf).2
        rw [hjob2] at hc
        rwa [hin j hf]
      exact ⟨(hrows j).trans hact, by rw [hlast j hj]; exact signals_active hact hprio⟩
    · intro hf
      have hno : (g₃.job j).rowState = .noActive := by rw [hout j hj hf, hidle j hj]
      exact ⟨(hrows j).trans hno, by rw [hlast j hj]; exact signals_noActive hno⟩
  refine ⟨ht3.trans (ht4.trans ht5), hlist5, ⟨fun j hj => ?_, Or.inr ⟨fresh ++ (g.part p).shadow,
    ?_, fun j hj hrow => ?_⟩⟩, fun j rest heq hsh hprio => ?_⟩
  · rw [hlist5] at hj
    by_cases hf : j ∈ fresh
    · simp [(hrun j hj).1 hf]
    · simp [(hrun j hj).2 hf]
  · refine hpk3.congr ht3.sound hp3 (ht4.trans ht5) (fun k _ => hrows k) ?_ ?_
    · exact (row_of_lit (hlit5 p)).trans (row_of_lit (hlit4 p))
    · exact (of_lit (·.jobsActive) (hlit5 p)).trans (of_lit (·.jobsActive) (hlit4 p))
  · rw [hlist5] at hj
    by_contra hm
    exact hrow ((hrun j hj).2 fun hf => hm (mem_append_left _ hf)).1
  · -- the first job finds an empty row
    have hj : j ∈ (g.part p).jobList := by rw [heq]; exact mem_cons_self
    have hfit : (g.addShadows m p).fits m p j := by
      have hcount : ((g.addShadows m p).part p).jobsActive = (g.part p).shadow.length := hpk2.count
      rw [hsh] at hcount
      exact Or.inr (Or.inl hcount)
    have hc : activatePass.considered ((g.addShadows m p).job j) := by
      rw [hjob2]
      exact hprio
    exact (hrun j hj).1 (hpass.first j rest (hlist2.trans heq) hc hfit)

/-- The turn of a partition in which its jobs take turns. -/
theorem cycleJobList_filled (hs : Sound g) (hp : p ∈ g.gsPartList) :
    Turn p g (g.cycleJobList m p) ∧ ((g.cycleJobList m p).part p).jobList = g.nextJobList p ∧
      Filled m (g.cycleJobList m p) p ∧
      ∀ j rest, g.nextJobList p = j :: rest → (g.part p).shadow = [] →
        (g.job j).priority ≠ 0 → ((g.cycleJobList m p).job j).rowState = .active ∧
          ((g.cycleJobList m p).job j).sigState = .resume := by
  obtain ⟨ht, hlist, hshadow, hjob⟩ := turn_rotated hs hp
  have hp' : p ∈ (g.rotated p).gsPartList := ht.gsPartList ▸ hp
  by_cases hne : g.nextJobList p = []
  · -- nothing is done for an empty partition, but to forget its row
    have hemp : ((g.rotated p).part p).jobList = [] := hlist.trans hne
    have heq : g.cycleJobList m p = (g.rotated p).reset p := by
      have hb : (g.rotated p).buildActiveRow m p = (g.rotated p).reset p := if_pos hemp
      change (let h := (g.rotated p).buildActiveRow m p
        let h' := (h.part p).jobList.foldl suspendIdle h
        (h'.part p).jobList.foldl (resumeActive p) h') = _
      rw [hb]
      simp [reset_jobList, hemp]
    rw [heq]
    refine ⟨ht.trans ht.sound.reset, reset_jobList.trans hlist, ⟨fun j hj => ?_,
      Or.inl ⟨reset_jobList.trans hemp, reset_jobsActive⟩⟩, by simp [hne]⟩
    rw [reset_jobList, hemp] at hj
    exact absurd hj not_mem_nil
  · have hidle : ∀ j ∈ ((g.rotated p).part p).jobList,
        ((g.rotated p).job j).rowState = .noActive := by
      intro j hj
      rw [hjob, if_pos (ht.jobList.mem_iff.1 hj)]
      rfl
    obtain ⟨ht', hlist', hfill, hfirst⟩ :=
      buildRow_filled ht.sound hp' (by rwa [hlist]) hidle
    refine ⟨ht.trans ht', hlist'.trans hlist, hfill, fun j rest heq hsh hprio => ?_⟩
    refine hfirst j rest (hlist.trans heq) ((hshadow p).trans hsh) ?_
    rw [of_fixed (·.priority) (ht.fixed j)]
    exact hprio

end Gang

end Slurm
