import Slurm.Lib.Tally
import Slurm.ConsRes.Life

/-!
# The usage of nodes

The memory in use on a node should be that of the jobs that were started and not ended, and the
state of a node should be the sum of the states that the jobs ask for which run
(`CrRun.UsageExact`). Then a job that ends leaves just what is due to the others.

This holds for the memory. But the states of nodes are raised for a job that no row could take,
and are not lowered when it is suspended or ends. They also are numbers of 16 bits, to which
an exclusive job adds 64000. So the usage is exact all the time in just those runs in which
each job that is suspended or ended while it runs was placed in a row, or has no states to be
lowered, and in which the sums stay in range (`CrRun.usage_exact_iff`).
-/

namespace Slurm.ConsRes

open Option Finset Posting CrState Function CrRun CrResources

/-! ## What a job has of a node -/

namespace CrResources

variable (m : CoreMap) (r : CrResources)

/-- The number of a node among those of the job, if it is one that the job uses. -/
def numberOf (i : ℕ) : Option ℕ := (r.usedNodes m).lookup i

/-- The memory of the job on a node. -/
def memoryOn (i : ℕ) : ℕ := (r.numberOf m i).elim 0 r.memoryAllocated

/-- What the job adds to the state of a node. -/
def stateOn (i : ℕ) : ℕ := (r.numberOf m i).elim 0 fun _ => r.nodeReq

theorem nodup_usedNodes : ((r.usedNodes m).map Prod.fst).Nodup := by
  have hsub : ((r.usedNodes m).map Prod.fst).Sublist
      ((List.range m.nodeRecordCount).filter (· ∈ r.nodeBitmap)) := by
    have h := (List.filter_sublist (p := fun e => decide (r.cpus e.2 ≠ 0))
      (l := ((List.range m.nodeRecordCount).filter (· ∈ r.nodeBitmap)).zipIdx)).map Prod.fst
    rwa [List.zipIdx_map_fst] at h
  exact hsub.nodup (List.nodup_range.filter _)

theorem numberOf_eq_some {i n : ℕ} : r.numberOf m i = some n ↔ (i, n) ∈ r.usedNodes m :=
  lookup_eq_some_iff i (r.nodup_usedNodes m)

end CrResources

section

variable (cfg : CrConfig) (jobs : ℕ → CrJob) (parts : ℕ → Option PartResRecord)

/-- The memory of a job on a node. -/
def memoryOf (i job : ℕ) : ℕ := (jobs job).resrcs.elim 0 (·.memoryOn cfg.cores i)

/-- What a job adds to the state of a node. It is nothing if its partition is not known. -/
def stateOf (i job : ℕ) : ℕ :=
  if ((jobs job).partPtr.bind parts).isSome then (jobs job).resrcs.elim 0 (·.stateOn cfg.cores i)
  else 0

end

/-! ## What becomes of the usage -/

section

variable {cfg : CrConfig} {jobs : ℕ → CrJob} {job i : ℕ} {act : ResAction} {r : CrResources}
  (j : CrJob)

@[simp] theorem CrState.usage_onUse (s : CrState) (f : NodeUse → NodeUse) :
    (s.onUse i f).usage i = f (s.usage i) := update_self ..

@[simp] theorem CrState.usage_onUse_of_ne (s : CrState) (f : NodeUse → NodeUse) {k : ℕ}
    (hk : k ≠ i) : (s.onUse i f).usage k = s.usage k := update_of_ne hk ..

@[simp] theorem CrState.allocMemory_setGres (s : CrState) (gres : Option GresNodeList) (k : ℕ) :
    ((s.setGres i gres).usage k).allocMemory = (s.usage k).allocMemory := by
  unfold setGres
  split
  · by_cases hk : k = i
    · rw [hk, usage_onUse]
    · rw [usage_onUse_of_ne s _ hk]
  · rfl

@[simp] theorem CrState.nodeState_setGres (s : CrState) (gres : Option GresNodeList) (k : ℕ) :
    ((s.setGres i gres).usage k).nodeState = (s.usage k).nodeState := by
  unfold setGres
  split
  · by_cases hk : k = i
    · rw [hk, usage_onUse]
    · rw [usage_onUse_of_ne s _ hk]
  · rfl

/-- Add to a number of so many bits, unless there is nothing to be added. -/
def raise (bits v w : ℕ) : ℕ := if w = 0 then v else wrap bits (v + w)

variable (cfg i act r) in
theorem foldl_addNode_memory (p : CrState × Option GresJobList) :
    (((r.usedNodes cfg.cores).foldl (addNode cfg j r act) p).1.usage i).allocMemory =
      if act = .cores then (p.1.usage i).allocMemory
      else raise 64 (p.1.usage i).allocMemory (r.memoryOn cfg.cores i) := by
  have hself (p : CrState × Option GresJobList) (i n : ℕ) :
      ((addNode cfg j r act p (i, n)).1.usage i).allocMemory =
        if act = .cores then (p.1.usage i).allocMemory
        else raise 64 (p.1.usage i).allocMemory (r.memoryAllocated n) := by
    unfold addNode raise
    dsimp only
    split_ifs <;> simp
  have hother (p : CrState × Option GresJobList) (i n k : ℕ) (hk : k ≠ i) :
      ((addNode cfg j r act p (i, n)).1.usage k).allocMemory = (p.1.usage k).allocMemory := by
    unfold addNode
    dsimp only
    split_ifs <;> simp [hk]
  have h := foldl_lookup (addNode cfg j r act) (fun p i => (p.1.usage i).allocMemory)
    (fun n v => if act = .cores then v else raise 64 v (r.memoryAllocated n))
    (r.nodup_usedNodes cfg.cores) hself hother p i
  rw [h, memoryOn, numberOf]
  cases (r.usedNodes cfg.cores).lookup i with
  | none => simp [raise]
  | some n => rfl

variable (cfg i act r) in
theorem foldl_addNode_state (l : List (ℕ × ℕ)) (p : CrState × Option GresJobList) :
    ((l.foldl (addNode cfg j r act) p).1.usage i).nodeState = (p.1.usage i).nodeState := by
  induction l generalizing p with
  | nil => rfl
  | cons e l ih =>
    obtain ⟨k, n⟩ := e
    rw [List.foldl_cons, ih]
    unfold addNode
    dsimp only
    by_cases hk : i = k
    · subst hk
      split_ifs <;> simp
    · split_ifs <;> simp [hk]

variable (cfg i act r) in
theorem foldl_rmNode_memory (s : CrState) :
    (((r.usedNodes cfg.cores).foldl (rmNode cfg j r act) s).usage i).allocMemory =
      if act = .cores then (s.usage i).allocMemory
      else (s.usage i).allocMemory - r.memoryOn cfg.cores i := by
  have hself (s : CrState) (i n : ℕ) : ((rmNode cfg j r act s (i, n)).usage i).allocMemory =
        if act = .cores then (s.usage i).allocMemory
        else (s.usage i).allocMemory - r.memoryAllocated n := by
    unfold rmNode
    split_ifs <;> simp
  have hother (s : CrState) (i n k : ℕ) (hk : k ≠ i) :
      ((rmNode cfg j r act s (i, n)).usage k).allocMemory = (s.usage k).allocMemory := by
    unfold rmNode
    split_ifs <;> simp [hk]
  have h := foldl_lookup (rmNode cfg j r act) (fun s i => (s.usage i).allocMemory)
    (fun n v => if act = .cores then v else v - r.memoryAllocated n)
    (r.nodup_usedNodes cfg.cores) hself hother s i
  rw [h, memoryOn, numberOf]
  cases (r.usedNodes cfg.cores).lookup i with
  | none => simp
  | some n => rfl

variable (cfg i act r) in
theorem foldl_rmNode_state (l : List (ℕ × ℕ)) (s : CrState) :
    ((l.foldl (rmNode cfg j r act) s).usage i).nodeState = (s.usage i).nodeState := by
  induction l generalizing s with
  | nil => rfl
  | cons e l ih =>
    obtain ⟨k, n⟩ := e
    rw [List.foldl_cons, ih]
    unfold rmNode
    by_cases hk : i = k
    · subst hk
      split_ifs <;> simp
    · split_ifs <;> simp [hk]

/-- What a loop over the nodes of a job does to their states. -/
theorem postAll_nodeState (g : ℕ → ℕ) (usage : ℕ → NodeUse) :
    (Posting.postAll (·.1) (fun _ u => { u with nodeState := g u.nodeState }) usage
        (r.usedNodes cfg.cores) i).nodeState =
      (r.numberOf cfg.cores i).elim (usage i).nodeState fun _ => g (usage i).nodeState :=
  foldl_lookup (Posting.post (·.1) fun _ u => { u with nodeState := g u.nodeState })
    (fun usage i => (usage i).nodeState) (fun _ => g) (r.nodup_usedNodes cfg.cores)
    (fun usage k _ => by simp [Posting.post])
    (fun usage k _ k' hk => by simp [Posting.post, update_of_ne hk]) usage i

variable (cfg jobs job i act) in
theorem addJobToRes_memory (s : CrState) :
    ((addJobToRes cfg jobs job act s).1.usage i).allocMemory =
      if act = .cores then (s.usage i).allocMemory
      else raise 64 (s.usage i).allocMemory (memoryOf cfg jobs i job) := by
  unfold addJobToRes memoryOf
  cases (jobs job).resrcs with
  | none => simp [raise]
  | some r =>
    refine Eq.trans ?_ (foldl_addNode_memory cfg i act r (jobs job) (s, (jobs job).gresList))
    dsimp only
    split_ifs
    · rfl
    · obtain ⟨-, heq⟩ | ⟨part, p, -, -, heq⟩ := addToPart_cases cfg jobs job r _
      · rw [heq]
      · rw [heq]
        exact postAll_keep _ _ i fun _ _ => rfl

theorem addJobToRes_state (hact : act ≠ .memory) (hr : (jobs job).resrcs = some r) (s : CrState) :
    ((addJobToRes cfg jobs job act s).1.usage i).nodeState =
      if ((jobs job).partPtr.bind s.parts).isSome then
        (r.numberOf cfg.cores i).elim (s.usage i).nodeState
          fun _ => wrap 16 ((s.usage i).nodeState + r.nodeReq) else (s.usage i).nodeState := by
  unfold addJobToRes
  rw [hr]
  dsimp only
  rw [if_neg hact]
  have hparts := foldl_addNode_parts cfg act r (jobs job) (r.usedNodes cfg.cores)
    (s, (jobs job).gresList)
  have hstate := foldl_addNode_state cfg i act r (jobs job) (r.usedNodes cfg.cores)
    (s, (jobs job).gresList)
  generalize (r.usedNodes cfg.cores).foldl _ _ = q at hparts hstate ⊢
  rw [← hparts, ← hstate]
  obtain ⟨hnone, heq⟩ | ⟨part, p, hptr, hp, heq⟩ := addToPart_cases cfg jobs job r q.1
  · simp [heq, hnone]
  · have hsome : ((jobs job).partPtr.bind q.1.parts).isSome := by simp [hptr, hp]
    rw [if_pos hsome, heq]
    exact postAll_nodeState (fun v => wrap 16 (v + r.nodeReq)) _

variable (cfg jobs job i act) in
theorem rmJobFromRes_memory (s : CrState) :
    ((rmJobFromRes cfg jobs job act s).usage i).allocMemory =
      if act = .cores then (s.usage i).allocMemory
      else (s.usage i).allocMemory - memoryOf cfg jobs i job := by
  unfold rmJobFromRes memoryOf
  cases (jobs job).resrcs with
  | none => simp
  | some r =>
    refine Eq.trans ?_ (foldl_rmNode_memory cfg i act r (jobs job) s)
    dsimp only
    split_ifs
    · rfl
    · obtain ⟨-, heq⟩ | ⟨part, p, rows, -, -, -, heq⟩ := rmFromPart_cases cfg jobs job r _
      · rw [heq]
      · rw [heq]
        exact postAll_keep _ _ i fun _ _ => rfl

variable (cfg i) in
/-- The states are lowered if the job is in a row. -/
theorem rmJobFromRes_state (hact : act ≠ .memory) (hr : (jobs job).resrcs = some r) (s : CrState) :
    ((∀ part rows, (jobs job).partPtr = some part → s.rowsAt part = some rows →
        job ∉ rowJobs rows) ∧
      ((rmJobFromRes cfg jobs job act s).usage i).nodeState = (s.usage i).nodeState) ∨
    ((∃ part rows, (jobs job).partPtr = some part ∧ s.rowsAt part = some rows ∧
        job ∈ rowJobs rows) ∧ ((rmJobFromRes cfg jobs job act s).usage i).nodeState =
        (s.usage i).nodeState - r.stateOn cfg.cores i) := by
  unfold rmJobFromRes
  rw [hr]
  dsimp only
  rw [if_neg hact]
  have hparts := foldl_rmNode_parts cfg act r (jobs job) (r.usedNodes cfg.cores) s
  have hstate := foldl_rmNode_state cfg i act r (jobs job) (r.usedNodes cfg.cores) s
  generalize (r.usedNodes cfg.cores).foldl _ _ = q at hparts hstate ⊢
  have hrowsAt : s.rowsAt = q.rowsAt := by
    funext part
    rw [rowsAt, rowsAt, hparts]
  rw [hrowsAt, ← hstate]
  obtain ⟨hnone, heq⟩ | ⟨part, p, rows, hptr, hp, htake, heq⟩ := rmFromPart_cases cfg jobs job r q
  · refine .inl ⟨fun part rows hptr hrows => ?_, by rw [heq]⟩
    exact takeFromRows_none.1 (hnone part rows hptr hrows)
  · refine .inr ⟨⟨part, p.rows, hptr, ?_, (takeFromRows_some htake).1⟩, ?_⟩
    · rw [rowsAt, hp, map_some]
    · rw [heq]
      refine (postAll_nodeState (· - r.nodeReq) _).trans ?_
      rw [stateOn]
      cases r.numberOf cfg.cores i <;> rfl

end

theorem wrap_eq_iff {bits v : ℕ} : wrap bits v = v ↔ v < 2 ^ bits :=
  Nat.mod_eq_iff_lt (Nat.two_pow_pos bits).ne'

theorem raise_eq_iff {bits v w : ℕ} : raise bits v w = v + w ↔ (w ≠ 0 → v + w < 2 ^ bits) := by
  unfold raise
  split_ifs with hw
  · simp [hw]
  · simp [hw, wrap_eq_iff]

namespace CrRun

section

variable (cfg : CrConfig) (base : ℕ → NodeUse) (s : CrRun) (job : ℕ)

/-- The jobs that run. -/
def running : Finset ℕ := s.started.filter s.IsRunning

/-- The usage of each node is what it was in the beginning, and what is due to the jobs: memory
    for those that were started, and states for those that run. -/
structure UsageExact : Prop where
  memory : ∀ i, Tally (base i).allocMemory s.started (memoryOf cfg s.jobs i)
    (s.state.usage i).allocMemory
  state : ∀ i, Tally (base i).nodeState s.running (stateOf cfg s.jobs s.state.parts i)
    (s.state.usage i).nodeState

/-- The partition of the job is known. -/
def Known : Prop := ((s.jobs job).partPtr.bind s.state.parts).isSome
  deriving Decidable

/-- The memory of the job can be added on all of its nodes. -/
def MemoryFits : Prop :=
  ∀ r ∈ (s.jobs job).resrcs, ∀ e ∈ r.usedNodes cfg.cores, r.memoryAllocated e.2 ≠ 0 →
    (s.state.usage e.1).allocMemory + r.memoryAllocated e.2 < 2 ^ 64
  deriving Decidable

/-- The states of all nodes of the job can be raised. -/
def StatesFit : Prop :=
  s.Known job → ∀ r ∈ (s.jobs job).resrcs, ∀ e ∈ r.usedNodes cfg.cores,
    (s.state.usage e.1).nodeState + r.nodeReq < 2 ^ 16
  deriving Decidable

/-- The job does not raise the states of nodes. -/
def NoStates : Prop :=
  s.Known job → ∀ r ∈ (s.jobs job).resrcs, r.nodeReq = 0 ∨ r.usedNodes cfg.cores = []
  deriving Decidable

/-- The sums of a job that is started or resumed stay in range, and a job that is suspended or
    ended while it runs was placed in a row, unless it does not raise the states of nodes. -/
def Keeps : CrOp → Prop
  | .start job => s.MemoryFits cfg job ∧ s.StatesFit cfg job
  | .resume job => s.StatesFit cfg job
  | .suspend job => s.life job = .running false → s.NoStates cfg job
  | .fini job => s.life job = .running false → s.NoStates cfg job

instance : ∀ o, Decidable (s.Keeps cfg o)
  | .start _ => inferInstanceAs (Decidable (_ ∧ _))
  | .resume _ => inferInstanceAs (Decidable (StatesFit _ _ _))
  | .suspend _ | .fini _ => inferInstanceAs (Decidable (_ → _))

end

variable {cfg : CrConfig} {base : ℕ → NodeUse} {s : CrRun} {job i : ℕ} {act : ResAction}

/-! ## Conditions on the state before -/

theorem memoryFits_iff : s.MemoryFits cfg job ↔
    ∀ i, raise 64 (s.state.usage i).allocMemory (memoryOf cfg s.jobs i job) =
      (s.state.usage i).allocMemory + memoryOf cfg s.jobs i job := by
  simp only [raise_eq_iff, MemoryFits, memoryOf]
  cases (s.jobs job).resrcs with
  | none => simp
  | some r =>
    simp only [mem_some_iff, forall_eq', elim_some, memoryOn]
    constructor
    · intro h i
      cases hn : r.numberOf cfg.cores i with
      | none => simp
      | some n => exact h (i, n) (r.numberOf_eq_some cfg.cores |>.1 hn)
    · intro h e he
      have h' := h e.1
      rwa [(r.numberOf_eq_some cfg.cores).2 he] at h'

variable (act) in
theorem statesFit_iff (hact : act ≠ .memory) : s.StatesFit cfg job ↔
    ∀ i, ((addJobToRes cfg s.jobs job act s.state).1.usage i).nodeState =
      (s.state.usage i).nodeState + stateOf cfg s.jobs s.state.parts i job := by
  cases hr : (s.jobs job).resrcs with
  | none => simp [StatesFit, addJobToRes, stateOf, hr]
  | some r =>
    simp only [addJobToRes_state hact hr, stateOf, StatesFit, hr, mem_some_iff,
      forall_eq', elim_some, stateOn]
    by_cases hknown : s.Known job
    · simp only [show ((s.jobs job).partPtr.bind s.state.parts).isSome = true from hknown, if_true,
        hknown, forall_const]
      constructor
      · intro h i
        cases hn : r.numberOf cfg.cores i with
        | none => rfl
        | some n => exact wrap_eq_iff.2 (h (i, n) (r.numberOf_eq_some cfg.cores |>.1 hn))
      · intro h e he
        have h' := h e.1
        rw [(r.numberOf_eq_some cfg.cores).2 he] at h'
        exact wrap_eq_iff.1 h'
    · have hnot : ¬((s.jobs job).partPtr.bind s.state.parts).isSome = true := hknown
      simp [hknown, hnot]

theorem noStates_iff : s.NoStates cfg job ↔ ∀ i, stateOf cfg s.jobs s.state.parts i job = 0 := by
  by_cases hknown : s.Known job
  · have hsome : ((s.jobs job).partPtr.bind s.state.parts).isSome = true := hknown
    simp only [NoStates, hknown, forall_const, stateOf, hsome, if_true]
    cases (s.jobs job).resrcs with
    | none => simp
    | some r =>
      simp only [mem_some_iff, forall_eq', elim_some, stateOn]
      constructor
      · rintro (hreq | hnil) i
        · cases r.numberOf cfg.cores i <;> simp [hreq]
        · simp [numberOf, hnil]
      · intro h
        rcases hnodes : r.usedNodes cfg.cores with _ | ⟨e, l⟩
        · exact .inr rfl
        · have he : r.numberOf cfg.cores e.1 = some e.2 :=
            (r.numberOf_eq_some cfg.cores).2 (by simp [hnodes])
          have h' := h e.1
          rw [he] at h'
          exact .inl h'
  · have hnot : ¬((s.jobs job).partPtr.bind s.state.parts).isSome = true := hknown
    simp [NoStates, hknown, stateOf, hnot]

/-! ## What stays as it is -/

theorem stateOf_congr {jobs jobs' : ℕ → CrJob} {parts parts' : ℕ → Option PartResRecord}
    (hres : ∀ k, (jobs' k).resrcs = (jobs k).resrcs)
    (hptr : ∀ k, (jobs' k).partPtr = (jobs k).partPtr)
    (hparts : ∀ part, (parts' part).isSome = (parts part).isSome) :
    stateOf cfg jobs' parts' = stateOf cfg jobs parts := by
  funext i job
  have hknown : ((jobs' job).partPtr.bind parts').isSome =
      ((jobs job).partPtr.bind parts).isSome := by
    rw [hptr]
    cases (jobs job).partPtr with
    | none => rfl
    | some part => exact hparts part
  rw [stateOf, stateOf, hknown, hres]

theorem memoryOf_add : memoryOf cfg (s.add cfg job act).jobs = memoryOf cfg s.jobs := by
  funext i k
  rw [memoryOf, memoryOf, show ((s.add cfg job act).jobs k).resrcs = _ from addJobToRes_resrcs k]

theorem stateOf_add (hact : act ≠ .memory) :
    stateOf cfg (s.add cfg job act).jobs (s.add cfg job act).state.parts =
      stateOf cfg s.jobs s.state.parts :=
  stateOf_congr addJobToRes_resrcs addJobToRes_partPtr (isSome_parts_add hact)

theorem stateOf_remove (hact : act ≠ .memory) (life : JobLife) :
    stateOf cfg (s.remove cfg job act life).jobs (s.remove cfg job act life).state.parts =
      stateOf cfg s.jobs s.state.parts :=
  stateOf_congr (fun _ => rfl) (fun _ => rfl) (isSome_parts_remove hact life)

/-! ## One step -/

/-- The rows are exact, and the jobs that are there are known. -/
structure Inv (cfg : CrConfig) (s : CrRun) : Prop where
  rows : s.RowsExact cfg
  started : ∀ job, job ∈ s.started ↔ s.life job ≠ .off

theorem mem_running (h : s.Inv cfg) : job ∈ s.running ↔ s.IsRunning job := by
  rw [running, mem_filter, h.started, and_iff_right_iff_imp]
  rintro (hrun | hrun) <;> simp [hrun]

theorem Inv.exec (h : s.Inv cfg) {o : CrOp} (hvalid : s.Valid o) : (s.exec cfg o).Inv cfg := by
  refine ⟨h.rows.exec hvalid, fun k => ?_⟩
  have hk := h.started k
  cases o with
  | start job =>
    by_cases heq : k = job <;> simp [CrRun.exec, CrRun.add, heq, hk]
  | suspend job =>
    have hin : s.life job ≠ .off := by
      rcases hvalid with hrun | hrun <;> simp [hrun]
    by_cases heq : k = job
    · subst heq
      simp [CrRun.exec, CrRun.remove, hk, hin]
    · simp [CrRun.exec, CrRun.remove, heq, hk]
  | resume job =>
    by_cases heq : k = job <;> simp [CrRun.exec, CrRun.add, heq, hk]
  | fini job =>
    by_cases heq : k = job <;> simp [CrRun.exec, CrRun.remove, heq, hk]

theorem isRunning_add (k : ℕ) : (s.add cfg job act).IsRunning k ↔ k = job ∨ s.IsRunning k := by
  unfold IsRunning add
  by_cases heq : k = job
  · subst heq
    cases s.rowFree cfg k <;> simp
  · simp [heq]

variable {life : JobLife}

theorem isRunning_remove (hlife : ∀ b, life ≠ .running b) (k : ℕ) :
    (s.remove cfg job act life).IsRunning k ↔ k ≠ job ∧ s.IsRunning k := by
  unfold IsRunning remove
  by_cases heq : k = job
  · subst heq
    simp [hlife]
  · simp [heq]

theorem running_add : (s.add cfg job act).running = insert job s.running := by
  ext k
  have hstarted : (s.add cfg job act).started = insert job s.started := rfl
  rw [running, running, mem_filter, isRunning_add, hstarted, mem_insert, mem_insert, mem_filter]
  tauto

theorem running_remove (hlife : ∀ b, life ≠ .running b) :
    (s.remove cfg job act life).running = s.running.erase job := by
  ext k
  have hstarted : (s.remove cfg job act life).started =
      if life = .off then s.started.erase job else s.started := rfl
  rw [running, running, mem_filter, isRunning_remove hlife, hstarted, mem_erase, mem_filter]
  split_ifs
  · rw [mem_erase]
    tauto
  · tauto

/-- The states of nodes are lowered for the jobs that were placed in a row. -/
theorem nodeState_remove (h : s.Inv cfg) (hact : act ≠ .memory) (life : JobLife) (i : ℕ) :
    ((s.remove cfg job act life).state.usage i).nodeState = if s.life job = .running true then
        (s.state.usage i).nodeState - stateOf cfg s.jobs s.state.parts i job
      else (s.state.usage i).nodeState := by
  change ((rmJobFromRes cfg s.jobs job act s.state).usage i).nodeState = _
  cases hr : (s.jobs job).resrcs with
  | none => simp [rmJobFromRes, stateOf, hr]
  | some r =>
    obtain ⟨hnot, heq⟩ | ⟨⟨part, rows, hptr, hrows, hmem⟩, heq⟩ :=
      rmJobFromRes_state cfg i hact hr s.state
    · rw [heq]
      split_ifs with hlife
      · -- a job that was placed is in no row only if its partition is not known
        have hknown : ¬((s.jobs job).partPtr.bind s.state.parts).isSome := by
          intro hsome
          obtain ⟨p, hp⟩ := isSome_iff_exists.1 hsome
          obtain ⟨part, hptr, hp⟩ := bind_eq_some_iff.1 hp
          have hrows : s.state.rowsAt part = some p.rows := by
            rw [rowsAt, hp, map_some]
          have hcount := (h.rows.parts part p.rows hrows).count job
          rw [List.count_eq_zero.2 (hnot part p.rows hptr hrows), if_pos ⟨hlife, hptr⟩] at hcount
          exact absurd hcount (by decide)
        rw [stateOf, if_neg hknown, Nat.sub_zero]
      · rfl
    · have hcount := (h.rows.parts part rows hrows).count job
      have hlife : s.life job = .running true := by
        by_contra hlife
        rw [if_neg fun hor => hlife hor.1] at hcount
        exact List.count_eq_zero.1 hcount hmem
      have hknown : ((s.jobs job).partPtr.bind s.state.parts).isSome := by
        rw [hptr, bind_some]
        obtain ⟨p, hp, -⟩ := map_eq_some_iff.1 hrows
        rw [hp, isSome_some]
      rw [heq, if_pos hlife, stateOf, if_pos hknown, hr, elim_some]

section

variable (hinv : s.Inv cfg) (h : s.UsageExact cfg base)

include hinv h

/-- The usage stays exact when a job is started just when its sums stay in range. -/
theorem usageExact_start (hlife : s.life job = .off) :
    (s.exec cfg (.start job)).UsageExact cfg base ↔ s.Keeps cfg (.start job) := by
  have hnew : job ∉ s.started := by simp [hinv.started, hlife]
  have hidle : job ∉ s.running := by simp [mem_running hinv, IsRunning, hlife]
  have hstarted : (s.add cfg job .all).started = insert job s.started := rfl
  have hmemory (i : ℕ) : ((s.add cfg job .all).state.usage i).allocMemory =
      raise 64 (s.state.usage i).allocMemory (memoryOf cfg s.jobs i job) :=
    (addJobToRes_memory cfg s.jobs job i .all s.state).trans (if_neg (by decide))
  change (s.add cfg job .all).UsageExact cfg base ↔ s.MemoryFits cfg job ∧ s.StatesFit cfg job
  rw [memoryFits_iff, statesFit_iff .all (by decide)]
  constructor
  · refine fun h' => ⟨fun i => ?_, fun i => ?_⟩
    · have hi := h'.memory i
      rwa [hstarted, memoryOf_add, hmemory, (h.memory i).insert_iff hnew] at hi
    · have hi := h'.state i
      rwa [running_add, stateOf_add (by decide), (h.state i).insert_iff hidle] at hi
  · rintro ⟨hmem, hst⟩
    refine ⟨fun i => ?_, fun i => ?_⟩
    · rw [hstarted, memoryOf_add, hmemory, (h.memory i).insert_iff hnew]
      exact hmem i
    · rw [running_add, stateOf_add (by decide), (h.state i).insert_iff hidle]
      exact hst i

/-- The same when a job is resumed. Its memory is counted already. -/
theorem usageExact_resume (hlife : s.life job = .suspended) :
    (s.exec cfg (.resume job)).UsageExact cfg base ↔ s.Keeps cfg (.resume job) := by
  have hin : job ∈ s.started := by simp [hinv.started, hlife]
  have hidle : job ∉ s.running := by simp [mem_running hinv, IsRunning, hlife]
  have hstarted : (s.add cfg job .cores).started = s.started := insert_eq_of_mem hin
  have hmemory (i : ℕ) : ((s.add cfg job .cores).state.usage i).allocMemory =
      (s.state.usage i).allocMemory :=
    (addJobToRes_memory cfg s.jobs job i .cores s.state).trans (if_pos rfl)
  change (s.add cfg job .cores).UsageExact cfg base ↔ s.StatesFit cfg job
  rw [statesFit_iff .cores (by decide)]
  constructor
  · intro h' i
    have hi := h'.state i
    rwa [running_add, stateOf_add (by decide), (h.state i).insert_iff hidle] at hi
  · refine fun hst => ⟨fun i => ?_, fun i => ?_⟩
    · rw [hstarted, memoryOf_add, hmemory]
      exact h.memory i
    · rw [running_add, stateOf_add (by decide), (h.state i).insert_iff hidle]
      exact hst i

variable (job) in
/-- The states of nodes are those of the jobs that run when one of these is suspended or ended,
    if it was placed in a row or has no states. -/
theorem tally_remove_iff (hact : act ≠ .memory)
    (hlife : ∀ b, life ≠ .running b) :
    (∀ i, Tally (base i).nodeState (s.remove cfg job act life).running
      (stateOf cfg (s.remove cfg job act life).jobs (s.remove cfg job act life).state.parts i)
      ((s.remove cfg job act life).state.usage i).nodeState) ↔
      (s.life job = .running false → s.NoStates cfg job) := by
  simp only [running_remove hlife, stateOf_remove hact, nodeState_remove hinv hact]
  by_cases hrun : job ∈ s.running
  · rcases (mem_running hinv).1 hrun with hplaced | hplaced
    · simp only [hplaced, if_true, (h.state _).erase_iff hrun]
      simp
    · have hne : ¬JobLife.running false = .running true := by decide
      simp only [hplaced, hne, if_false, forall_const, (h.state _).erase_iff hrun, noStates_iff]
      refine forall_congr' fun i => ?_
      have hle := (h.state i).le hrun
      omega
  · have hnot : ¬s.life job = .running true ∧ ¬s.life job = .running false :=
      not_or.1 fun hor => hrun ((mem_running hinv).2 hor)
    simp only [erase_eq_of_notMem hrun, hnot.1, hnot.2, if_false, false_imp_iff, iff_true]
    exact h.state

theorem usageExact_suspend :
    (s.exec cfg (.suspend job)).UsageExact cfg base ↔ s.Keeps cfg (.suspend job) := by
  have hmemory (i : ℕ) : ((s.remove cfg job .cores .suspended).state.usage i).allocMemory =
      (s.state.usage i).allocMemory :=
    (rmJobFromRes_memory cfg s.jobs job i .cores s.state).trans (if_pos rfl)
  have hstate := tally_remove_iff job hinv h (show ResAction.cores ≠ .memory by decide)
    (show ∀ b, JobLife.suspended ≠ .running b by simp)
  refine ⟨fun h' => hstate.1 h'.state, fun hkeeps => ⟨fun i => ?_, hstate.2 hkeeps⟩⟩
  change Tally _ s.started (memoryOf cfg s.jobs i)
    ((s.remove cfg job .cores .suspended).state.usage i).allocMemory
  rw [hmemory]
  exact h.memory i

theorem usageExact_fini (hlife : s.life job ≠ .off) :
    (s.exec cfg (.fini job)).UsageExact cfg base ↔ s.Keeps cfg (.fini job) := by
  have hmemory (i : ℕ) : ((s.remove cfg job .all .off).state.usage i).allocMemory =
      (s.state.usage i).allocMemory - memoryOf cfg s.jobs i job :=
    (rmJobFromRes_memory cfg s.jobs job i .all s.state).trans (if_neg (by decide))
  have hstate := tally_remove_iff job hinv h (show ResAction.all ≠ .memory by decide)
    (show ∀ b, JobLife.off ≠ .running b by simp)
  refine ⟨fun h' => hstate.1 h'.state, fun hkeeps => ⟨fun i => ?_, hstate.2 hkeeps⟩⟩
  change Tally _ (s.started.erase job) (memoryOf cfg s.jobs i)
    ((s.remove cfg job .all .off).state.usage i).allocMemory
  rw [hmemory]
  exact (h.memory i).erase ((hinv.started job).2 hlife)

end

/-! ## Whole runs -/

/-- The usage is exact all the time in just those runs in which the sums stay in range, and in
    which a job that is suspended or ended while it runs was placed in a row, or does not raise
    the states of nodes. -/
theorem usage_exact_iff {os : List CrOp} (h : s.Fresh)
    (hrun : Run.Admissible (exec cfg) Valid s os) :
    Run.Always (exec cfg) (UsageExact cfg s.state.usage) s os ↔
      Run.Admissible (exec cfg) (Keeps cfg) s os := by
  refine Run.always_iff_of_valid (A := Inv cfg) (fun s o hinv hvalid => hinv.exec hvalid)
    (fun s o hinv hvalid h => ?_) hrun ⟨h.rowsExact, by simp [h.started, h.life]⟩ ?_
  · cases o with
    | start job => exact usageExact_start hinv h hvalid
    | suspend job => exact usageExact_suspend hinv h
    | resume job => exact usageExact_resume hinv h hvalid
    | fini job => exact usageExact_fini hinv h hvalid
  · constructor
    · intro i
      rw [h.started]
      exact .empty _ _
    · intro i
      rw [running, h.started]
      exact .empty _ _

/-- A partition without jobs, in which all jobs want the same core. -/
def sameCore (numRows nodeReq : ℕ) : CrRun where
  state := rowsOnly numRows
  jobs _ := coreJob 0 nodeReq

theorem fresh_sameCore (numRows nodeReq : ℕ) : (sameCore numRows nodeReq).Fresh := by
  refine ⟨fun _ => rfl, rfl, fun part p hp => ?_⟩
  obtain ⟨-, rfl⟩ : part = 0 ∧ { numRows } = p := by simpa [sameCore, rowsOnly] using hp
  rfl

/-- There are two rows for the two jobs. -/
theorem usage_exact_two_rows :
    Run.Always (exec twoCores) (UsageExact twoCores (sameCore 2 1).state.usage) (sameCore 2 1)
      [.start 0, .start 1, .suspend 0, .fini 1, .resume 0, .fini 0] :=
  (usage_exact_iff (fresh_sameCore 2 1) (by decide)).2 (by decide)

/-- There is only one row for the two jobs. The second one raises the state of the node when it
    starts, and does not lower it when it ends. -/
theorem unplaced_job :
    Run.Admissible (exec twoCores) Valid (sameCore 1 1) [.start 0, .start 1, .fini 1] ∧
      ¬(Run.run (exec twoCores) (sameCore 1 1) [.start 0, .start 1, .fini 1]).UsageExact twoCores
        (sameCore 1 1).state.usage := by
  refine ⟨by decide, fun h => ?_⟩
  exact absurd (h.state 0) (by decide)

end CrRun

end Slurm.ConsRes
