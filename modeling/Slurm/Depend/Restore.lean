import Slurm.Depend.Links
import Slurm.Depend.Text

/-!
# Dependencies after a restart

When the controller starts again, the list of the dependencies of a job is read back from the
string that was kept (`restoreJobDependency`). `restoreJobDependency_iff` says when the list is
the same again, if all jobs it names are still there (`Ctld.Restart`).

The list is lost, or another one, in these cases (`Ctld.Restorable`): the job waits for its pack,
whose text cannot be read; a member of a pack is a single task of an array; only one of several
alternatives was kept, so that no `?` is printed; the job to expand does not run any more; the
members of the pack have a leader, which they got when the list was read for the first time; and
the search for a circle, which counts the lists it has seen, finds one now.
-/

namespace Slurm

open CString JobRecord List DependSpec

/-! ## The entries that are read -/

namespace Ctld

variable {c : Ctld} {p q : Ptr} {jobId taskId : ℕ}

/-- The records of arrays are named as the tables of jobs need it: a record in the table of tasks
    is for a task, and the record of the pending tasks is found under the id of the array. -/
structure ArraysNamed (c : Ctld) : Prop where
  hash : ∀ q ∈ c.jobArrayHash, (c.job q).arrayTaskId ≠ noVal
  recs : ∀ q ∈ c.jobList, (c.job q).arrayRecs ≠ none → (c.job q).arrayJobId = (c.job q).jobId

theorem mem_arrayTasks (h : q ∈ c.arrayTasks jobId) :
    q ∈ c.jobArrayHash ∧ (c.job q).arrayJobId = jobId := by
  simpa [arrayTasks] using h

theorem findArray_arrayJobId (h : c.findArray jobId = some q) :
    (c.job q).arrayJobId = jobId ∧
      (q ∈ c.jobArrayHash ∨ (c.job q).arrayRecs ≠ none ∧ (c.job q).jobId = jobId) := by
  rcases Option.or_eq_some_iff.1 h with h | ⟨-, h⟩
  · obtain ⟨hfind, hrecs⟩ := Option.filter_eq_some_iff.1 h
    simp only [decide_eq_true_eq] at hrecs
    refine ⟨hrecs.2, .inr ⟨?_, (findJobRecord_mem hfind).2⟩⟩
    rw [← Option.isSome_iff_ne_none]
    exact hrecs.1
  · rcases Option.or_eq_some_iff.1 h with h | ⟨-, h⟩
    · obtain ⟨hhash, hid⟩ := mem_arrayTasks (mem_of_find?_eq_some h)
      exact ⟨hid, .inl hhash⟩
    · obtain ⟨hhash, hid⟩ := mem_arrayTasks (mem_of_getLast? h)
      exact ⟨hid, .inl hhash⟩

/-- A dependency is kept under the id that its string names. -/
theorem ArraysNamed.dependEntry_jobId (harrays : c.ArraysNamed)
    (h : (c.dependTarget jobId taskId).1 = some q) (type : DependType) :
    (c.dependEntry type q (c.dependTarget jobId taskId).2).jobId = jobId := by
  unfold dependEntry
  by_cases hno : taskId = noVal
  · have hinf : infinite ≠ noVal := by decide
    simp only [dependTarget, if_pos hno] at h ⊢
    rw [h, Option.any_some]
    by_cases harray : c.isArrayId jobId q
    · simp only [harray, decide_true, if_true, if_neg hinf]
      exact harray.1
    · simp only [harray, decide_false, Bool.false_eq_true, if_false, if_pos hno]
      rcases Option.or_eq_some_iff.1 h with h | ⟨-, h⟩
      · exact (findJobRecord_mem h).2
      · obtain ⟨hid, hhash | ⟨-, hown⟩⟩ := findArray_arrayJobId h
        · exact absurd ⟨hid, .inl (harrays.hash q hhash)⟩ harray
        · exact hown
  · simp only [dependTarget, if_neg hno] at h ⊢
    rw [findJobArrayRec, if_neg hno] at h
    split_ifs at h with htask
    · exact (findArray_arrayJobId h).1
    · rcases Option.or_eq_some_iff.1 h with h | ⟨-, h⟩
      · exact (mem_arrayTasks (mem_of_find?_eq_some h)).2
      · obtain ⟨hfind, hrecs⟩ := Option.filter_eq_some_iff.1 h
        obtain ⟨hmem, hid⟩ := findJobRecord_mem hfind
        rw [← hid]
        refine harrays.recs q hmem fun hnone => ?_
        simp [hnone] at hrecs

theorem dependTarget_task_lt (h : taskId < 2 ^ 32) :
    (c.dependTarget jobId taskId).2 < 2 ^ 32 := by
  have hinf : infinite < 2 ^ 32 := by decide
  unfold dependTarget
  dsimp only
  split_ifs <;> assumption

variable (env : Env) (now : ℤ) (s : CStr)

theorem ArraysNamed.readEntry (harrays : c.ArraysNamed) :
    ∀ d ∈ (c.readDepend env now p s).2.dependList, c.ReadEntry p d := by
  refine c.forall_mem_readDepend env now p ⟨rfl, .inl ⟨rfl, rfl⟩⟩ ⟨rfl, .inr (.inl rfl)⟩ ?_ s
  intro type jobId taskId q htype hname hq
  have hid := harrays.dependEntry_jobId hq type
  refine ⟨rfl, .inr (.inr ⟨htype, ?_⟩)⟩
  rw [hid]
  exact ⟨hname.ne_zero, hname.ne_self, hname.jobId_lt, dependTarget_task_lt hname.taskId_lt⟩

/-- At most one job is to be expanded. -/
structure ExpandsOnce (env : Env) (l : DependLoop) : Prop where
  once : l.dependList.Pairwise fun d e => d.dependType = .expand → e.dependType ≠ .expand
  unset : l.expand = none → ∀ d ∈ l.dependList, d.dependType ≠ .expand
  allow : ∀ d ∈ l.dependList, d.dependType = .expand → env.jobExpandAllow

theorem ExpandsOnce.append {l : DependLoop} (h : ExpandsOnce env l) {d : DependSpec}
    (hd : d.dependType ≠ .expand) : ExpandsOnce env (l.append d) where
  once := by
    refine pairwise_append.2 ⟨h.once, pairwise_singleton _ _, fun _ _ e he _ => ?_⟩
    rwa [mem_singleton.1 he]
  unset := fun hnone e he => by
    rcases mem_append.1 he with he | he
    · exact h.unset hnone e he
    · rwa [mem_singleton.1 he]
  allow := fun e he htype => by
    rcases mem_append.1 he with he | he
    · exact h.allow e he htype
    · rw [mem_singleton.1 he] at htype
      exact absurd htype hd

theorem readDepend_expandsOnce : ExpandsOnce env (c.readDepend env now p s).2 := by
  have hkept : c.KeptByReader env now p (ExpandsOnce env) :=
    { start := ⟨List.Pairwise.nil, by simp, by simp⟩
      test := fun h _ => ⟨h.once, h.unset, h.allow⟩
      or := fun h => ⟨h.once, h.unset, h.allow⟩
      pack := fun h => h.append env (by simp)
      singleton := fun h => h.append env (by simp)
      target := fun {l} h {type jobId taskId q} _ _ _ hexpand => by
        rw [addTarget]
        split_ifs with htype
        · obtain ⟨hallow, hfirst, -⟩ := hexpand htype
          have hbefore := h.unset hfirst
          refine ⟨?_, fun hnone => (by cases hnone), fun _ _ _ => hallow⟩
          exact pairwise_append.2 ⟨h.once, pairwise_singleton _ _,
            fun d hd _ _ hexp => absurd hexp (hbefore d hd)⟩
        · exact h.append env htype }
  exact hkept.readDepend s

end Ctld

/-! ## The string -/

namespace DependSpec

variable (d : DependSpec)

theorem text_eq_name_append : ∃ t, d.text false = d.dependType.name ++ t := by
  unfold text
  rw [if_neg Bool.false_ne_true]
  split_ifs
  · exact ⟨[], (append_nil _).symm⟩
  · exact ⟨_, append_assoc ..⟩
  · exact ⟨_, rfl⟩
  · exact ⟨_, rfl⟩
  · exact ⟨_, rfl⟩
  · exact ⟨_, append_assoc ..⟩

theorem text_ne_nil (leader1 : Bool) : d.text leader1 ≠ [] := by
  have hname : d.dependType.name ≠ [] := by
    cases d.dependType <;> decide
  unfold text
  split_ifs <;> simp [hname, fmtU_ne_nil]

theorem bracket_notMem_text (leader1 : Bool) : '[' ∉ d.text leader1 := by
  have hname : '[' ∉ d.dependType.name := by
    cases d.dependType <;> decide
  have hnum (n : ℕ) : '[' ∉ fmtU n := fun h => absurd (isDigit_of_mem_fmtU h) (by decide)
  unfold text
  split_ifs <;> simp [hname, hnum]

end DependSpec

theorem bracket_notMem_dependList2str (orFlag : Bool) {sep : CStr} (hsep : '[' ∉ sep)
    (leader1 : Bool) (deps : List DependSpec) :
    '[' ∉ (dependList2str orFlag sep leader1 deps).1 := by
  induction deps generalizing sep leader1 with
  | nil => simp [dependList2str]
  | cons d deps ih =>
    simp only [dependList2str, mem_append, not_or]
    refine ⟨⟨hsep, d.bracket_notMem_text leader1⟩, ih ?_ _⟩
    split_ifs <;> decide

theorem length_le_dependList2str (orFlag : Bool) (sep : CStr) (leader1 : Bool)
    (deps : List DependSpec) : deps.length ≤ (dependList2str orFlag sep leader1 deps).1.length := by
  induction deps generalizing sep leader1 with
  | nil => simp
  | cons d deps ih =>
    have hpos := length_pos_of_ne_nil (d.text_ne_nil leader1)
    simp only [dependList2str, length_append, length_cons]
    have := ih (if (if orFlag ∧ d.dependType ≠ .singleton then d.setOr else d).dependType ≠ .singleton ∧
      (if orFlag ∧ d.dependType ≠ .singleton then d.setOr else d).isOr then "?".toList
      else ",".toList) (leader1 || d.marksLeader)
    omega

/-- The string of a list is a string of dependencies, and not the one for none. -/
theorem dependList2str_ne {deps : List DependSpec} (h : deps ≠ []) (orFlag : Bool) :
    (dependList2str orFlag [] false deps).1 ≠ [] ∧
      (dependList2str orFlag [] false deps).1 ≠ "0".toList := by
  obtain ⟨d, ds, rfl⟩ := exists_cons_of_ne_nil h
  obtain ⟨t, ht⟩ := d.text_eq_name_append
  have hhead : (dependList2str orFlag [] false (d :: ds)).1.head? = d.dependType.name.head? := by
    simp only [dependList2str, nil_append, ht, append_assoc]
    cases d.dependType <;> rfl
  constructor
  · intro heq
    rw [heq] at hhead
    revert hhead
    cases d.dependType <;> decide
  · intro heq
    rw [heq] at hhead
    revert hhead
    cases d.dependType <;> decide

namespace Ctld

variable (env : Env) (now : ℤ) (c : Ctld) (p : Ptr)

/-- A string without array expressions is read as it is. -/
theorem readDepend_of_notMem {s : CStr} (h : '[' ∉ s) :
    c.readDepend env now p s = c.parseDepend env now p (s.length + 1) s {} := by
  have hnone : xlateArrayDep env s = none := by
    rw [xlateArrayDep, strstr_eq_none (c := '[') (by decide) h]
    rfl
  rw [readDepend, hnone]
  rfl

end Ctld

/-! ## The restart -/

/-- The string of the dependencies is taken from the job. -/
def JobRecord.takeDependency (j : JobRecord) : JobRecord :=
  { j with details := j.details.map fun d => { d with dependency := none } }

/-- Read the dependencies of a job back, as a controller that starts does
    (`_restore_job_dependencies`). -/
def restoreJobDependency (env : Env) (now : ℤ) (c : Ctld) (p : Ptr) : Rc × Ctld :=
  match (c.job p).details.bind (·.dependency) with
  | none => (.success, c)
  | some s => updateJobDependency env now (c.modJob p takeDependency) p (some s)

namespace Ctld

/-- A controller that has started, and has not yet read the dependencies of the job `p` back, which
    was `j` before: the jobs that the dependencies name are still there. The string is the one that
    was kept, unless the job is a member of a pack that was told its leader. -/
structure Restart (c : Ctld) (p : Ptr) (j : JobRecord) : Prop where
  jobId : (c.job p).jobId = j.jobId
  fresh : (c.job p).deps = none
  stored : (c.job p).details.bind (·.dependency) = j.details.bind (·.dependency) ∨
    j.isDashPack ∧ ∃ leader,
      (c.job p).details.bind (·.dependency) = some ("pack packleader=".toList ++ fmtD leader)
  targets : ∀ d ∈ j.deps.getD [], d.dependType.OnJob → c.HasTarget d

/-- The dependencies of the job `p` are read back, and they are `deps`. -/
def RestoresDepend (env : Env) (now : ℤ) (c : Ctld) (p : Ptr) (deps : List DependSpec) : Prop :=
  (restoreJobDependency env now c p).1 = .success ∧
    (((restoreJobDependency env now c p).2.job p).deps.getD []).map DependSpec.key =
      deps.map DependSpec.key

/-- What has been read of a string of dependencies can be read back from its text. -/
structure Restorable (env : Env) (c : Ctld) (p : Ptr) (l : DependLoop) : Prop where
  pack : ∀ d ∈ l.dependList, d.dependType ≠ .pack
  member : ∀ d ∈ l.dependList, d.dependType = .packleader →
    d.arrayTaskId = infinite ∨ d.arrayTaskId = noVal
  alternatives : l.orFlag → (∀ d ∈ l.dependList, d.dependType = .singleton) ∨
    ∃ d ∈ l.dependList.dropLast, d.dependType ≠ .singleton
  expand : ∀ d ∈ l.dependList, d.dependType = .expand →
    (c.dependTarget d.jobId d.arrayTaskId).1.any fun q => c.mayExpand p q
  leader : (l.dependList.getLast?.map (·.dependType) = some .packleader) →
    (∀ d ∈ packEntries (l.dependList.map c.reread), c.canJoin d) ∧
      ((packEntries (l.dependList.map c.reread)).map (·.jobPtr)).Nodup
  acyclic : c.isCircular env p (l.dependList.map c.reread) = false

section

variable {env : Env} {now : ℤ} {c : Ctld} {p : Ptr} {d : DependSpec} {deps : List DependSpec}
  {l : DependLoop}

theorem sansDepend_takeDependency :
    (c.modJob p JobRecord.takeDependency).sansDepend = c.sansDepend := by
  refine modJob_sansDepend _ _ fun j => ?_
  cases h : j.details <;> simp [JobRecord.takeDependency, JobRecord.sansDepend, h]

/-- A job cannot be a member of its own pack, so its own string does not matter. -/
theorem canJoin_takeDependency (h : d.jobId ≠ (c.job p).jobId) :
    (c.modJob p takeDependency).canJoin d ↔ c.canJoin d := by
  have hfind : (c.modJob p takeDependency).sansDepend.findJobRecord d.jobId =
      c.sansDepend.findJobRecord d.jobId := by rw [sansDepend_takeDependency]
  change (c.modJob p takeDependency).findJobRecord d.jobId = c.findJobRecord d.jobId at hfind
  unfold canJoin
  rw [hfind]
  refine exists_congr fun q => and_congr_right fun hq => ?_
  have hne : q ≠ p := by
    rintro rfl
    exact h (findJobRecord_mem hq).2.symm
  rw [modJob_job_of_ne _ _ hne]

theorem Complete.reread_ne_self (hd : c.Complete p d)
    (h : (c.reread d).dependType = .packleader) : (c.reread d).jobId ≠ (c.job p).jobId := by
  obtain ⟨hpack, -⟩ | rfl | ⟨htype, hname⟩ := hd.kind
  · exact absurd hpack hd.ne_pack
  · cases h
  · rw [reread, if_neg htype.2]
    exact hname.ne_self

/-- The keys that are read back agree if the alternatives are seen in the text. -/
theorem keys_reread_iff (hdeps : ∀ d ∈ deps, c.Complete p d) (orFlag : Bool) :
    (dependList2str (orFlag && deps.dropLast.any (·.dependType ≠ .singleton)) [] false
        (deps.map c.reread)).2.map key =
        (dependList2str orFlag [] false deps).2.map key ↔
      (orFlag → (∀ d ∈ deps, d.dependType = .singleton) ∨
        ∃ d ∈ deps.dropLast, d.dependType ≠ .singleton) := by
  have hsame (d : DependSpec) (hd : d ∈ deps) : (c.reread d).dependType = d.dependType ∧
      (c.reread d).jobId = d.jobId ∧ (c.reread d).arrayTaskId = d.arrayTaskId := by
    obtain ⟨hpack, -⟩ | rfl | ⟨htype, -⟩ := (hdeps d hd).kind
    · exact absurd hpack (hdeps d hd).ne_pack
    · exact ⟨rfl, rfl, rfl⟩
    · rw [reread, if_neg htype.2]
      exact ⟨rfl, rfl, rfl⟩
  have hflags : ∀ d ∈ deps.map c.reread, d.dependFlags = 0 := by
    rw [forall_mem_map]
    intro d _
    rw [reread]
    split_ifs <;> rfl
  rw [dependList2str_keys hflags, dependList2str_keys fun d hd => (hdeps d hd).flags, map_map,
    map_inj_left]
  have hentry (d : DependSpec) (hd : d ∈ deps) (b : Bool) :
      ((fun d : DependSpec => (d.dependType, d.jobId, d.arrayTaskId,
          decide (b = true ∧ d.dependType ≠ .singleton))) ∘ c.reread) d =
        (d.dependType, d.jobId, d.arrayTaskId, decide (orFlag = true ∧ d.dependType ≠ .singleton)) ↔
      (d.dependType ≠ .singleton → b = orFlag) := by
    obtain ⟨htype, hid, htask⟩ := hsame d hd
    simp only [Function.comp_apply, htype, hid, htask, Prod.mk.injEq, true_and]
    by_cases hs : d.dependType = .singleton
    · simp [hs]
    · cases b <;> cases orFlag <;> simp [hs]
  rw [forall₂_congr fun d hd => hentry d hd _]
  cases orFlag with
  | false => simp
  | true =>
    simp only [Bool.true_and, any_eq_true, decide_eq_true_eq, true_imp_iff]
    constructor
    · intro h
      by_cases hall : ∀ d ∈ deps, d.dependType = .singleton
      · exact .inl hall
      · push Not at hall
        obtain ⟨d, hd, hs⟩ := hall
        exact .inr (h d hd hs)
    · rintro (hall | hany) d hd hs
      · exact absurd (hall d hd) hs
      · exact hany

variable (now) in
/-- The string of a list is accepted and gives the list back, exactly if it can be read back. -/
theorem accepts_text_iff (hne : l.dependList ≠ [])
    (hentries : ∀ d ∈ l.dependList, c.ReadEntry p d) (honce : ExpandsOnce env l)
    (htargets : ∀ d ∈ l.dependList, d.dependType.OnJob → c.HasTarget d) :
    let text := (dependList2str l.orFlag [] false l.dependList).1
    let l' := (c.readDepend env now p text).2
    ((c.modJob p takeDependency).AcceptsDepend env now p text ∧
        (dependList2str l'.orFlag [] false l'.dependList).2.map key =
          (dependList2str l.orFlag [] false l.dependList).2.map key) ↔
      Restorable env c p l := by
  intro text l'
  have hsans : (c.modJob p takeDependency).sansDepend = c.sansDepend := sansDepend_takeDependency
  have hfuel := length_le_dependList2str l.orFlag [] false l.dependList
  have hread : c.readDepend env now p text = c.parseDepend env now p (text.length + 1) text {} :=
    readDepend_of_notMem _ _ _ _ (bracket_notMem_dependList2str _ (by simp) _ _)
  have hsuccess (hacc : (c.modJob p takeDependency).AcceptsDepend env now p text) := hacc.read
  rw [readDepend_congr env now p hsans, hread] at hsuccess
  by_cases hwhole : (∀ d ∈ l.dependList, d.dependType ≠ .pack) ∧ ∀ d ∈ l.dependList, ¬d.marksLeader
  · have hcomplete : ∀ d ∈ l.dependList, c.Complete p d := fun d hd =>
      ⟨hentries d hd, hwhole.1 d hd, hwhole.2 d hd, htargets d hd⟩
    obtain ⟨hexpand, hrc⟩ | ⟨hexpand, l1, heq, hlist, htype, hor⟩ :=
      parseDepend_text env now hne hcomplete honce.once l.orFlag false
        (hfuel.trans (Nat.le_succ text.length)) (l := {}) (by simp)
    · refine iff_of_false ?_ fun h => hexpand fun d hd hd' => ⟨honce.allow d hd hd', h.expand d hd hd'⟩
      rintro ⟨hacc, -⟩
      exact hrc (hsuccess hacc)
    · rw [nil_append] at hlist
      have hl' : l' = l1 := by
        change (c.readDepend env now p text).2 = l1
        rw [hread, heq]
      have hself : ∀ d ∈ packEntries (l.dependList.map c.reread), d.jobId ≠ (c.job p).jobId := by
        intro d hd
        obtain ⟨hmem, hlead⟩ := mem_filter.1 hd
        obtain ⟨e, he, rfl⟩ := mem_map.1 hmem
        exact (hcomplete e he).reread_ne_self (of_decide_eq_true hlead)
      have hacc : (c.modJob p takeDependency).AcceptsDepend env now p text ↔
          (l.dependList.getLast?.map (·.dependType) = some .packleader →
            (∀ d ∈ packEntries (l.dependList.map c.reread), c.canJoin d) ∧
              ((packEntries (l.dependList.map c.reread)).map (·.jobPtr)).Nodup) ∧
          c.isCircular env p (l.dependList.map c.reread) = false := by
        rw [acceptsDepend_iff, wellFormedDepend_iff, and_assoc, readDepend_congr env now p hsans,
          hread, heq, htype, hlist, isCircular_congr env p hsans,
          forall₂_congr fun d hd => canJoin_takeDependency (hself d hd)]
        simp
      rw [hl', hacc, hor, hlist, Bool.false_or, keys_reread_iff hcomplete]
      constructor
      · rintro ⟨⟨hleader, hacyclic⟩, halt⟩
        refine ⟨hwhole.1, fun d hd htype => ?_, halt, fun d hd hd' => (hexpand d hd hd').2, hleader,
          hacyclic⟩
        by_contra hnot
        push Not at hnot
        exact (hcomplete d hd).not_marksLeader ⟨htype, hnot⟩
      · intro h
        exact ⟨⟨h.leader, h.acyclic⟩, h.alternatives⟩
  · refine iff_of_false ?_ fun h => hwhole ⟨h.pack, fun d hd hmarks => ?_⟩
    · rintro ⟨hacc, hkeys⟩
      obtain ⟨hpack, hmarks⟩ :=
        parseDepend_text_of_success env now hne hentries _ _ (hsuccess hacc)
      refine hwhole ⟨hpack, fun d hd hlead => ?_⟩
      -- The entry for a single task is in the list that was kept, and in none that is read.
      have htasks := congrArg (List.map fun k => (k.1, k.2.2.1)) hkeys
      simp only [map_map] at htasks
      rw [dependList2str_map (fun _ => rfl), dependList2str_map (fun _ => rfl)] at htasks
      have hmem : (d.dependType, d.arrayTaskId) ∈ l'.dependList.map
          ((fun k => (k.1, k.2.2.1)) ∘ key) := by
        rw [htasks]
        exact mem_map_of_mem hd
      obtain ⟨e, he, hkey⟩ := mem_map.1 hmem
      obtain ⟨hkind, htask⟩ := Prod.mk.inj hkey
      change e ∈ (c.readDepend env now p text).2.dependList at he
      rw [hread] at he
      rcases hmarks e he with he | he
      · simp at he
      · refine he ⟨hkind.trans hlead.1, ?_⟩
        rw [show e.arrayTaskId = d.arrayTaskId from htask]
        exact hlead.2
    · exact (h.member d hd hmarks.1).elim hmarks.2.1 hmarks.2.2

/-- Nothing is read back where nothing was kept. -/
theorem Restart.restores_nil {j : JobRecord} (h : c.Restart p j)
    (hj : j.details.bind (·.dependency) = none) : c.RestoresDepend env now p [] := by
  have hnone : (c.job p).details.bind (·.dependency) = none := by
    rcases h.stored with hstored | ⟨hdash, -⟩
    · rw [hstored, hj]
    · rw [isDashPack, hj] at hdash
      cases hdash
  rw [RestoresDepend, restoreJobDependency, hnone]
  exact ⟨rfl, by rw [h.fresh]; rfl⟩

theorem bracket_notMem_fmtD (n : ℕ) : '[' ∉ fmtD n := by
  have hnum (n : ℕ) : '[' ∉ fmtU n := fun h => absurd (isDigit_of_mem_fmtU h) (by decide)
  unfold fmtD
  split_ifs <;> simp [hnum]

/-- The string of a member of a pack that was told its leader cannot be read. -/
theorem not_restoresDepend_of_told {leader : CStr} (hleader : '[' ∉ leader)
    (h : (c.job p).details.bind (·.dependency) = some ("pack packleader=".toList ++ leader))
    (deps : List DependSpec) : ¬c.RestoresDepend env now p deps := by
  have htext : "pack packleader=".toList ++ leader =
      "pack ".toList ++ ("packleader=".toList ++ leader) := rfl
  have hbracket : '[' ∉ "pack packleader=".toList ++ leader := by
    have hword : '[' ∉ "pack packleader=".toList := by decide
    exact fun h => (mem_append.1 h).elim hword hleader
  have hhead : ("pack packleader=".toList ++ leader).head? = some 'p' := rfl
  have hdetails : ((c.modJob p takeDependency).job p).details ≠ none := by
    obtain ⟨t, ht, -⟩ := Option.bind_eq_some_iff.1 h
    simp [takeDependency, ht]
  rintro ⟨hrc, -⟩
  rw [restoreJobDependency, h] at hrc
  have hacc := (updateJobDependency_some env now hdetails (fun h => by rw [h] at hhead; cases hhead)
    (fun h => by rw [h] at hhead; exact absurd hhead (by decide))).1.1 hrc
  have hread := hacc.read
  rw [readDepend_of_notMem _ _ _ _ hbracket, htext] at hread
  have hclause := parseClause_of_success env now hread
  cases hclause

/-- The string of a job of a pack is printed only for such a job. -/
theorem dependList2str_ne_pack (h : ∀ d ∈ deps, d.dependType ≠ .pack)
    (orFlag : Bool) : (dependList2str orFlag [] false deps).1 ≠ "pack ".toList := by
  cases deps with
  | nil =>
    change ([] : CStr) ≠ "pack ".toList
    decide
  | cons d ds =>
    have hd := h d mem_cons_self
    obtain ⟨t, ht⟩ := d.text_eq_name_append
    have htake (s : CStr) : ((d.dependType.name ++ s).take 5 == "pack ".toList) = false := by
      cases htype : d.dependType with
      | pack => exact absurd htype hd
      | _ => rfl
    intro heq
    simp only [dependList2str, nil_append, ht, append_assoc] at heq
    generalize t ++ _ = rest at heq
    have hfive := htake rest
    rw [heq] at hfive
    exact absurd hfive (by decide)

theorem ReadEntry.of_jobId {c' : Ctld} (h : c.ReadEntry p d)
    (hid : (c'.job p).jobId = (c.job p).jobId) : c'.ReadEntry p d :=
  ⟨h.flags, h.kind.imp_right (Or.imp_right (And.imp_right fun hname =>
    ⟨hname.ne_zero, hid ▸ hname.ne_self, hname.jobId_lt, hname.taskId_lt⟩))⟩

/-- The list that was kept is read back, exactly if this is possible for what had been read. -/
theorem Restart.restores_iff {j : JobRecord} (h : c.Restart p j)
    (hdeps : j.deps = some (dependList2str l.orFlag [] false l.dependList).2)
    (hstring : j.details.bind (·.dependency) = if l.dependList = [] then none
      else some (dependList2str l.orFlag [] false l.dependList).1)
    (hentries : ∀ d ∈ l.dependList, c.ReadEntry p d) (honce : ExpandsOnce env l) :
    c.RestoresDepend env now p (j.deps.getD []) ↔ Restorable env c p l := by
  rw [hdeps, Option.getD_some]
  by_cases hempty : l.dependList = []
  · rw [if_pos hempty] at hstring
    rw [hempty]
    refine iff_of_true (h.restores_nil hstring) ⟨?_, ?_, ?_, ?_, ?_, ?_⟩
    all_goals simp [hempty, isCircular, scanDepend]
  · have htargets : ∀ d ∈ l.dependList, d.dependType.OnJob → c.HasTarget d := by
      intro d hd htype
      have hmem : (d.dependType, d.jobId, d.arrayTaskId) ∈
          (dependList2str l.orFlag [] false l.dependList).2.map fun d =>
            (d.dependType, d.jobId, d.arrayTaskId) := by
        rw [dependList2str_map fun _ => rfl]
        exact mem_map_of_mem hd
      obtain ⟨e, he, hkey⟩ := mem_map.1 hmem
      simp only [Prod.mk.injEq] at hkey
      obtain ⟨hkind, hid, htask⟩ := hkey
      have htarget := h.targets e (by rwa [hdeps]) (hkind ▸ htype)
      rwa [HasTarget, hkind, hid, htask] at htarget
    rw [if_neg hempty] at hstring
    rcases h.stored with hstored | ⟨hdash, leader, htold⟩
    · rw [hstring] at hstored
      have hdetails : ((c.modJob p takeDependency).job p).details ≠ none := by
        obtain ⟨t, ht, -⟩ := Option.bind_eq_some_iff.1 hstored
        simp [takeDependency, ht]
      obtain ⟨hne, hzero⟩ := dependList2str_ne hempty l.orFlag
      obtain ⟨hiff, hkept⟩ := updateJobDependency_some env now hdetails hne hzero
      refine Iff.trans ?_ (accepts_text_iff now hempty hentries honce htargets)
      rw [RestoresDepend, restoreJobDependency, hstored, hiff]
      refine and_congr_right fun hacc => ?_
      obtain ⟨hdeps', -, -⟩ := hkept hacc
      rw [hdeps', Option.getD_some, readDepend_congr env now p sansDepend_takeDependency]
    · rw [isDashPack, hstring] at hdash
      refine iff_of_false (not_restoresDepend_of_told (bracket_notMem_fmtD leader) htold _) fun hr => ?_
      exact dependList2str_ne_pack hr.pack l.orFlag (Option.some.inj hdash)

end

end Ctld

/-- The dependencies that an update has set are read back after a restart if all jobs they name are
    still there, exactly if what the update has read can be read back. -/
theorem restoreJobDependency_iff (env : Env) (now now' : ℤ) (c c' : Ctld) (p : Ptr)
    (newDepend : Option CStr) (harrays : c.ArraysNamed)
    (hok : (updateJobDependency env now c p newDepend).1 = .success)
    (hrestart : c'.Restart p ((updateJobDependency env now c p newDepend).2.job p)) :
    c'.RestoresDepend env now' p
        (((updateJobDependency env now c p newDepend).2.job p).deps.getD []) ↔
      ∀ s ∈ newDepend, s ≠ [] → s ≠ "0".toList →
        Ctld.Restorable env c' p (c.readDepend env now p s).2 := by
  have hclear {d : Ctld} (hd : (updateJobDependency env now c p newDepend).2 =
      d.modJob p clearDepend) : c'.RestoresDepend env now' p
        (((updateJobDependency env now c p newDepend).2.job p).deps.getD []) := by
    rw [hd, Ctld.modJob_job_self] at hrestart ⊢
    have hdeps : (d.job p).clearDepend.deps.getD [] = [] := by
      cases h : (d.job p).details <;> simp [JobRecord.deps, clearDepend, h]
    rw [hdeps]
    refine hrestart.restores_nil ?_
    cases h : (d.job p).details <;> simp [clearDepend, h]
  obtain ⟨-, h⟩ | ⟨-, hnone, h⟩ | ⟨s, rfl, hne, hzero, hdetails, -⟩ :=
    c.updateJobDependency_cases env now p newDepend
  · rw [h] at hok
    cases hok
  · exact iff_of_true (hclear (congrArg Prod.snd h))
      fun s hs h1 h2 => absurd (hnone s hs) (not_or.2 ⟨h1, h2⟩)
  · simp only [Option.mem_some_iff, forall_eq', hne, hzero, ne_eq, not_false_iff, true_imp_iff]
    obtain ⟨hiff, hkept⟩ := c.updateJobDependency_some env now hdetails hne hzero
    obtain ⟨hdeps, hstring, hid⟩ := hkept (hiff.1 hok)
    have hentries := harrays.readEntry (p := p) env now s
    have honce := c.readDepend_expandsOnce (p := p) env now s
    exact hrestart.restores_iff hdeps hstring
      (fun d hd => (hentries d hd).of_jobId (hrestart.jobId.trans hid)) honce

/-- The controller after a restart: no list of dependencies has been read. -/
def Ctld.restarted (c : Ctld) : Ctld :=
  { c with
    job := fun q => { c.job q with
      details := (c.job q).details.map fun d => { d with dependList := none } } }

theorem restoreJobDependency_afterok :
    let r := updateJobDependency {} 5 memberAndLeader 2 (some "afterok:10,singleton".toList)
    r.1 = .success ∧ r.2.restarted.Restart 2 (r.2.job 2) ∧
      r.2.restarted.RestoresDepend {} 6 2 ((r.2.job 2).deps.getD []) := by
  intro r
  have harrays : memberAndLeader.ArraysNamed := ⟨by decide, by decide⟩
  have hok : r.1 = .success := by decide
  have hrestart : r.2.restarted.Restart 2 (r.2.job 2) := by
    refine ⟨by decide, by decide, .inl (by decide), ?_⟩
    have htarget : r.2.restarted.dependTarget 10 noVal = (some 1, noVal) := by decide
    intro d hd htype
    have hmem : d = r.2.restarted.reread { dependType := .afterOk, jobId := 10, arrayTaskId := noVal } ∨
        d = { dependType := .singleton } := by
      have hlist : (r.2.job 2).deps.getD [] =
          [r.2.restarted.reread { dependType := .afterOk, jobId := 10, arrayTaskId := noVal },
            { dependType := .singleton }] := by decide
      rw [hlist] at hd
      simpa using hd
    rcases hmem with rfl | rfl
    · exact ⟨1, htarget, by decide⟩
    · exact absurd rfl htype.2
  refine ⟨hok, hrestart, ?_⟩
  refine (restoreJobDependency_iff {} 5 6 memberAndLeader r.2.restarted 2
    (some "afterok:10,singleton".toList) harrays hok hrestart).2 fun s hs _ _ => ?_
  obtain rfl := Option.some.inj hs
  exact ⟨by decide, by decide, by decide, by decide, fun h => absurd h (by decide), by decide⟩

/-- A job that waits for the leader of its pack does not wait after a restart. -/
theorem restoreJobDependency_loses_pack :
    let r := updateJobDependency {} 5 memberAndLeader 2 (some "pack".toList)
    r.1 = .success ∧ r.2.restarted.Restart 2 (r.2.job 2) ∧
      ((r.2.job 2).deps.getD []).map DependSpec.key = [(.pack, 0, 0, false)] ∧
      (restoreJobDependency {} 6 r.2.restarted 2).1 = .dependency ∧
      ¬r.2.restarted.RestoresDepend {} 6 2 ((r.2.job 2).deps.getD []) := by
  intro r
  have hrc : (restoreJobDependency {} 6 r.2.restarted 2).1 = .dependency := by decide
  refine ⟨by decide, ⟨by decide, by decide, .inl (by decide), ?_⟩, by decide, hrc, fun h => ?_⟩
  · have hlist : (r.2.job 2).deps.getD [] = [{ dependType := .pack, submitTime := 5 }] := by decide
    intro d hd htype
    rw [hlist, mem_singleton] at hd
    subst hd
    exact absurd rfl htype.1
  · have hsuccess := h.1
    cases hsuccess

end Slurm
