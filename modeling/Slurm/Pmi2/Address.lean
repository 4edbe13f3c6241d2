import Mathlib.Data.List.Nodup
import Slurm.Pmi2

/-!
# Which messages of PMI2 arrive

The index of a step is all that tells its sockets from those of other steps of a job, and steps that
are launched apart have index 0. The address of a message is right if cutting off the last character
of the name that the sender keeps cuts off the number at its end: for messages of `srun` if the id
of its step has one digit. A message of a ring goes to the name of the sender's own socket, so to
the `slurmstepd` of another step it never arrives.

Hence the messages of all launches arrive, at sockets of their own, just if each launch has one step
with an id of one digit, there is one `slurmstepd` on each node, the spool directory does not depend
on the node, and the names are not too long (`pmiApart_iff`).
-/

namespace Slurm

open CString List Function

/-! ## Substitution -/

/-- An occurrence that is replaced. -/
theorem xstrsubstitute_cases (str pattern replacement : List Char) :
    strstr str pattern = none ∧ xstrsubstitute str pattern replacement = str ∨
      ∃ pre post, strstr str pattern = some (pattern ++ post) ∧ str = pre ++ (pattern ++ post) ∧
        xstrsubstitute str pattern replacement = pre ++ (replacement ++ post) := by
  rw [xstrsubstitute]
  cases h : strstr str pattern with
  | none => exact .inl ⟨rfl, rfl⟩
  | some rest =>
    obtain ⟨pre, post, rfl, rfl⟩ := strstr_eq_some h
    refine .inr ⟨pre, post, rfl, rfl, ?_⟩
    simp [length_append]

theorem length_xstrsubstitute (str pattern replacement : List Char) :
    str.length ≤ (xstrsubstitute str pattern replacement).length + pattern.length := by
  obtain ⟨-, h⟩ | ⟨pre, post, -, hstr, h⟩ := xstrsubstitute_cases str pattern replacement
  · rw [h]
    omega
  · rw [h, hstr]
    simp only [length_append]
    omega

variable {tail ds : List Char} {c : Char}

/-- What stands behind the directory is found by no pattern. -/
theorem strstr_append (hc : c ≠ '/') (htail : '%' ∉ tail) (s : List Char) :
    strstr (s ++ '/' :: tail) ['%', c] = (strstr s ['%', c]).map (· ++ '/' :: tail) := by
  induction s with
  | nil =>
    rw [nil_append, strstr_eq_none (c := '%') (by simp) (by simpa using htail)]
    rfl
  | cons a s ih =>
    have hpre : ['%', c].isPrefixOf (a :: s ++ '/' :: tail) = ['%', c].isPrefixOf (a :: s) := by
      cases s with
      | nil => simp [isPrefixOf, hc]
      | cons b s => simp [isPrefixOf]
    rw [cons_append, strstr, ← cons_append, hpre, ih, strstr]
    split_ifs <;> rfl

theorem xstrsubstitute_append (hc : c ≠ '/') (htail : '%' ∉ tail) (s replacement : List Char) :
    xstrsubstitute (s ++ '/' :: tail) ['%', c] replacement =
      xstrsubstitute s ['%', c] replacement ++ '/' :: tail := by
  have hfind := strstr_append hc htail s
  obtain ⟨hnone, h⟩ | ⟨pre, post, hsome, hs, h⟩ := xstrsubstitute_cases s ['%', c] replacement
  · rw [h, xstrsubstitute, hfind, hnone]
    rfl
  · rw [h, xstrsubstitute, hfind, hsome, hs]
    simp [length_append]

theorem substituteNode_append (htail : '%' ∉ tail) (nodeName s : List Char) :
    substituteNode nodeName (s ++ '/' :: tail) = substituteNode nodeName s ++ '/' :: tail := by
  rw [substituteNode, xstrsubstitute_append (by decide) htail,
    xstrsubstitute_append (by decide) htail, substituteNode]

theorem length_substituteNode (nodeName s : List Char) :
    s.length ≤ (substituteNode nodeName s).length + 4 := by
  have hn := length_xstrsubstitute s ['%', 'n'] nodeName
  have hh := length_xstrsubstitute (xstrsubstitute s ['%', 'n'] nodeName) ['%', 'h'] nodeName
  simp only [length_cons, length_nil] at hn hh
  rw [substituteNode]
  omega

/-! ## Names -/

/-- What stands in the name of a socket behind the directory and before the number at the end. -/
def sockStem (jobid : ℕ) : List Char := sockName ++ (fmtU jobid ++ ['.'])

theorem sockAddrFmt_eq (spool : List Char) (jobid index : ℕ) :
    sockAddrFmt spool jobid index = spool ++ (sockStem jobid ++ fmtU index) := by
  simp [sockAddrFmt, sockStem]

theorem percent_notMem_fmtU (n : ℕ) : '%' ∉ fmtU n := fun h =>
  absurd (isDigit_of_mem_fmtU h) (by decide)

/-- The name of a socket is that of the node's directory, whatever number is at its end. -/
theorem substituteNode_stem (hds : '%' ∉ ds) (nodeName spool : List Char) (jobid : ℕ) :
    substituteNode nodeName (spool ++ (sockStem jobid ++ ds)) =
      substituteNode nodeName spool ++ (sockStem jobid ++ ds) := by
  have htail : '%' ∉ sockName.tail ++ (fmtU jobid ++ ['.']) ++ ds := by
    have hname : '%' ∉ sockName.tail := by decide
    simp [hname, percent_notMem_fmtU, hds]
  exact substituteNode_append htail nodeName spool

theorem rpcForwardData_eq_some {nodeName address path : List Char} :
    PmiLaunch.rpcForwardData nodeName address = some path ↔
      substituteNode nodeName address = path ∧ path.length ≤ 107 := by
  rw [PmiLaunch.rpcForwardData, Option.ite_none_left_eq_some, Option.some.injEq, sunPathSize]
  constructor
  · rintro ⟨hle, rfl⟩
    exact ⟨rfl, by omega⟩
  · rintro ⟨rfl, hle⟩
    exact ⟨by omega, rfl⟩

theorem treeMsgAddress_stem (hds : ds ≠ []) (spool : List Char) (jobid index : ℕ) :
    PmiLaunch.treeMsgAddress (spool ++ (sockStem jobid ++ ds)) index =
      spool ++ (sockStem jobid ++ (ds.dropLast ++ fmtU index)) := by
  rw [PmiLaunch.treeMsgAddress, ← dropLast_eq_take, ← append_assoc, dropLast_append_of_ne_nil hds]
  simp

/-- Only of a number of one digit nothing is left without the last digit. -/
theorem dropLast_fmtU {n : ℕ} : (fmtU n).dropLast = [] ↔ n < 10 := by
  rw [fmtU, Nat.toDigits_eq_if (by decide)]
  split_ifs with hn
  · simpa using hn
  · have hne : Nat.toDigits 10 (n / 10) ≠ [] := fmtU_ne_nil (n / 10)
    simp [hne, hn]

theorem percent_notMem_dropLast (n : ℕ) : '%' ∉ (fmtU n).dropLast := fun h =>
  percent_notMem_fmtU n (dropLast_subset _ h)

/-! ## Indexes -/

namespace PmiLaunch

/-- The list of indexes is read back. -/
theorem readIndexes_intercalate (is : List ℕ) (hlt : ∀ i ∈ is, i < 2 ^ 31) :
    readIndexes is.length ([','].intercalate (is.map fmtU)) =
      some (is.map fun i : ℕ => (i : ℤ)) := by
  induction is with
  | nil => rfl
  | cons i is ih =>
    have hi : i < 2 ^ 31 := hlt i mem_cons_self
    cases is with
    | nil =>
      have hread := atoi_fmtU hi [] (by simp [EndsDigits])
      simpa [intercalate, readIndexes] using hread
    | cons j is =>
      have hread := atoi_fmtU hi (',' :: [','].intercalate ((j :: is).map fmtU))
        (by simp [EndsDigits])
      have hdrop : (fmtU i ++ ',' :: [','].intercalate ((j :: is).map fmtU)).dropWhile (· ≠ ',') =
          ',' :: [','].intercalate ((j :: is).map fmtU) := by
        rw [dropWhile_append_of_pos]
        · simp
        · rintro c hc
          have hdigit := isDigit_of_mem_fmtU hc
          simp only [ne_eq, decide_not, Bool.not_eq_eq_eq_not, Bool.not_true,
            decide_eq_false_iff_not]
          rintro rfl
          exact absurd hdigit (by decide)
      have htext : [','].intercalate ((i :: j :: is).map fmtU) =
          fmtU i ++ ',' :: [','].intercalate ((j :: is).map fmtU) := by
        simp [intercalate_cons_cons]
      rw [htext, length_cons, length_cons, readIndexes, hdrop]
      have hrest := ih fun k hk => hlt k (mem_cons_of_mem i hk)
      simp only [length_cons] at hrest
      simp only [hrest, hread, Option.map_some]
      rfl

variable {l : PmiLaunch} {d e : PmiStepd} {n : ℕ × List Char}

theorem mem_nodes :
    n ∈ l.nodes ↔ ∃ nodes, l.steps[n.1]? = some nodes ∧ n.2 ∈ nodes := by
  simp only [nodes, mem_flatMap, mem_map, Prod.exists, mem_zipIdx_iff_getElem?]
  constructor
  · rintro ⟨nodes, i, hstep, name, hname, rfl⟩
    exact ⟨nodes, hstep, hname⟩
  · rintro ⟨nodes, hstep, hname⟩
    exact ⟨nodes, n.1, hstep, n.2, hname, rfl⟩

theorem step_lt (h : n ∈ l.nodes) : n.1 < l.steps.length := by
  obtain ⟨nodes, hstep, -⟩ := mem_nodes.1 h
  exact (List.getElem?_eq_some_iff.1 hstep).1

theorem mem_stepds :
    d ∈ l.stepds ↔ l.nodes[d.nodeid]? = some (d.step, d.nodeName) := by
  simp only [stepds, mem_map, Prod.exists, mem_zipIdx_iff_getElem?]
  constructor
  · rintro ⟨i, name, nodeid, h, rfl⟩
    exact h
  · intro h
    exact ⟨d.step, d.nodeName, d.nodeid, h, rfl⟩

theorem mem_nodes_of_mem_stepds (h : d ∈ l.stepds) :
    (d.step, d.nodeName) ∈ l.nodes :=
  mem_of_getElem? (mem_stepds.1 h)

theorem exists_stepd {i : ℕ} (hi : i < l.steps.length) : ∃ d ∈ l.stepds, d.step = i := by
  obtain ⟨name, hname⟩ := exists_mem_of_ne_nil _ (l.nodes_ne _ (getElem_mem hi))
  have hmem : (i, name) ∈ l.nodes := mem_nodes.2 ⟨l.steps[i], getElem?_eq_getElem hi, hname⟩
  obtain ⟨nodeid, hnode⟩ := getElem?_of_mem hmem
  exact ⟨⟨i, nodeid, name⟩, mem_stepds.2 hnode, rfl⟩

/-- What is read of the list are the indexes of the steps of the nodes. -/
theorem indexes_of_list :
    (if l.srunStepIndexList.head? = some 'n' then some (List.replicate l.nodes.length 0)
      else readIndexes l.nodes.length l.srunStepIndexList) =
      some (l.nodes.map fun n => (n.1 : ℤ)) := by
  cases hcombine : l.mpiCombine with
  | false =>
    have hone := l.apart hcombine
    have hzero : (l.nodes.map fun n => (n.1 : ℤ)) = replicate l.nodes.length 0 := by
      rw [eq_replicate_iff]
      refine ⟨by simp, ?_⟩
      simp only [mem_map, Prod.exists]
      rintro _ ⟨i, name, hmem, rfl⟩
      have hlt := step_lt hmem
      omega
    simp [srunStepIndexList, hcombine, hzero]
  | true =>
    have htext : l.srunStepIndexList = [','].intercalate ((l.nodes.map (·.1)).map fmtU) := by
      simp [srunStepIndexList, hcombine, comp_def]
    have hread := readIndexes_intercalate (l.nodes.map (·.1)) (by
      simp only [mem_map]
      rintro _ ⟨n, hn, rfl⟩
      exact (step_lt hn).trans l.steps_lt)
    rw [length_map, ← htext, map_map] at hread
    rw [if_neg, hread]
    · rfl
    -- A list of numbers starts with a digit, if with anything.
    · rw [htext]
      cases hnodes : l.nodes with
      | nil => simp
      | cons n ns =>
        obtain ⟨c, cs, hc⟩ := exists_cons_of_ne_nil (fmtU_ne_nil n.1)
        have hdigit : c.isDigit := isDigit_of_mem_fmtU (by rw [hc]; exact mem_cons_self)
        have hne : c ≠ 'n' := by
          rintro rfl
          exact absurd hdigit (by decide)
        cases ns with
        | nil => simp [intercalate, hc, hne]
        | cons m ns => simp [intercalate_cons_cons, hc, hne]

theorem eq_of_srunStepIndexArr {step : ℕ} {arr : List ℤ} (h : l.srunStepIndexArr step = some arr) :
    arr = l.nodes.map fun n => (n.1 : ℤ) := by
  rw [srunStepIndexArr, Option.bind_eq_some_iff] at h
  obtain ⟨text, htext, harr⟩ := h
  have hlist : text = l.srunStepIndexList := by
    rw [srunStepIndexListOf, inArray] at htext
    split_ifs at htext
    all_goals exact (Option.some.inj htext).symm
  rw [hlist, indexes_of_list] at harr
  exact (Option.some.inj harr).symm

/-- A `slurmstepd` that knows the indexes knows the right one of each node. -/
theorem indexOf_eq (he : e ∈ l.stepds) {index : ℕ}
    (h : l.indexOf d e.nodeid = some index) : index = e.step := by
  obtain ⟨arr, harr, rfl⟩ := Option.map_eq_some_iff.1 h
  have hlt := (step_lt (mem_nodes_of_mem_stepds he)).trans l.steps_lt
  rw [eq_of_srunStepIndexArr harr, getD_eq_getElem?_getD, getElem?_map, mem_stepds.1 he]
  exact toUInt_natCast (by simp only at hlt; omega)

theorem indexOf_first (hd : d.step = 0) (he : e ∈ l.stepds) :
    l.indexOf d e.nodeid = some e.step := by
  have hsome : (l.indexOf d e.nodeid).isSome := by
    rw [indexOf, hd, srunStepIndexArr, srunStepIndexListOf, if_pos rfl, Option.bind_some,
      indexes_of_list]
    rfl
  obtain ⟨index, hindex⟩ := Option.isSome_iff_exists.1 hsome
  rw [hindex, indexOf_eq he hindex]

/-! ## Messages that arrive -/

variable {spool path : List Char} {jobid : ℕ}

/-- A message of `srun` arrives only if the name of the socket is not too long and the id of the
    step has one digit. -/
theorem path_of_srun (hd : d ∈ l.stepds) (hbound : l.boundPath spool jobid d = some path)
    (hsrun : l.treeMsgFromSrun spool jobid d = some path) :
    path = sockAddrFmt (substituteNode d.nodeName spool) jobid d.step ∧ path.length ≤ 107 ∧
      toUInt (atoi l.pmiStepid) < 10 := by
  obtain ⟨index, hindex, hpath⟩ := Option.map_eq_some_iff.1 hbound
  rw [indexOf_eq hd hindex, sockAddrFmt_eq, snprintf, sunPathSize] at hpath
  obtain ⟨haddr, hle⟩ := rpcForwardData_eq_some.1 hsrun
  rw [srunTreeSockAddr, sockAddrFmt_eq, snprintf, treeSockAddrSize] at haddr
  set stepid := toUInt (atoi l.pmiStepid)
  rcases Nat.lt_or_ge 127 (spool ++ (sockStem jobid ++ fmtU stepid)).length with hlong | hshort
  · -- An address that fills the buffer of `srun` is refused by `slurmd`.
    have hlen := length_substituteNode d.nodeName
      (treeMsgAddress ((spool ++ (sockStem jobid ++ fmtU stepid)).take (128 - 1)) d.step)
    rw [haddr, treeMsgAddress, length_append, length_take, length_take] at hlen
    omega
  · rw [take_of_length_le (by omega), treeMsgAddress_stem (fmtU_ne_nil _),
      substituteNode_stem (by simp [percent_notMem_dropLast, percent_notMem_fmtU])] at haddr
    have hlen := congrArg length haddr
    have hcut := congrArg length hpath
    simp only [length_append, length_take] at hlen hcut
    have hdrop : (fmtU stepid).dropLast.length = 0 := by omega
    rw [take_of_length_le (by simp only [length_append]; omega)] at hpath
    exact ⟨hpath.symm.trans (sockAddrFmt_eq _ _ _).symm, hle,
      dropLast_fmtU.1 (length_eq_zero_iff.1 hdrop)⟩

/-- Where a message of a ring goes, if the name of the sender's socket is not too long. -/
theorem pmixStepdSend_eq_some (hbound : l.boundPath spool jobid e =
      some (sockAddrFmt (substituteNode e.nodeName spool) jobid e.step)) :
    l.pmixStepdSend spool jobid e d = some path ↔
      sockAddrFmt (substituteNode d.nodeName (substituteNode e.nodeName spool)) jobid e.step =
        path ∧ path.length ≤ 107 := by
  rw [pmixStepdSend, hbound, Option.bind_some, rpcForwardData_eq_some, sockAddrFmt_eq,
    substituteNode_stem (percent_notMem_fmtU _), ← sockAddrFmt_eq]

namespace MessagesReach

variable (h : l.MessagesReach spool jobid)

include h

theorem bound (hd : d ∈ l.stepds) :
    l.boundPath spool jobid d = some (sockAddrFmt (substituteNode d.nodeName spool) jobid d.step) ∧
      (sockAddrFmt (substituteNode d.nodeName spool) jobid d.step).length ≤ 107 := by
  obtain ⟨path, hbound, hsrun, -⟩ := h d hd
  obtain ⟨rfl, hle, -⟩ := path_of_srun hd hbound hsrun
  exact ⟨hbound, hle⟩

theorem ring {e : PmiStepd} (hd : d ∈ l.stepds) (he : e ∈ l.stepds) (hne : e ≠ d) :
    sockAddrFmt (substituteNode d.nodeName (substituteNode e.nodeName spool)) jobid e.step =
      sockAddrFmt (substituteNode d.nodeName spool) jobid d.step := by
  obtain ⟨path, hbound, -, hothers⟩ := h d hd
  have hpath := hbound.symm.trans (bound h hd).1
  obtain ⟨hring, -⟩ := (pmixStepdSend_eq_some (bound h he).1).1 (hothers e he hne).2
  exact hring.trans (Option.some.inj hpath)

theorem one_digit : toUInt (atoi l.pmiStepid) < 10 := by
  obtain ⟨d, hd, -⟩ := exists_stepd l.steps_pos
  obtain ⟨path, hbound, hsrun, -⟩ := h d hd
  exact (path_of_srun hd hbound hsrun).2.2

/-- A message of a ring from the first step to the second one does not arrive. -/
theorem one_step : l.steps.length = 1 := by
  have hpos := l.steps_pos
  by_contra hne
  obtain ⟨e, he, he0⟩ := exists_stepd hpos
  obtain ⟨d, hd, hd1⟩ := exists_stepd (l := l) (i := 1) (by omega)
  have hring := ring h hd he (by rintro rfl; omega)
  rw [he0, hd1, sockAddrFmt_eq, sockAddrFmt_eq] at hring
  -- The names end with different digits.
  have hlast := congrArg getLast? hring
  have h0 : fmtU 0 = ['0'] := by decide
  have h1 : fmtU 1 = ['1'] := by decide
  rw [h0, h1, ← append_assoc, ← append_assoc, getLast?_append_of_ne_nil,
    getLast?_append_of_ne_nil] at hlast
  · simp at hlast
  all_goals simp

end MessagesReach

variable (l) in
/-- The names of the nodes of a launch. -/
def nodeNames : List (List Char) := l.steps.flatten

theorem map_nodeName_stepds : l.stepds.map (·.nodeName) = l.nodeNames := by
  have hstepds : l.stepds.map (·.nodeName) = (l.nodes.zipIdx.map Prod.fst).map (·.2) := by
    rw [stepds, map_map, map_map]
    rfl
  have hsteps : l.nodes.map (·.2) = (l.steps.zipIdx.map Prod.fst).flatten := by
    simp [nodes, comp_def, flatMap]
  rw [hstepds, zipIdx_map_fst, hsteps, zipIdx_map_fst, nodeNames]

theorem mem_nodeNames (hd : d ∈ l.stepds) : d.nodeName ∈ l.nodeNames := by
  rw [← map_nodeName_stepds]
  exact mem_map_of_mem hd

theorem exists_of_mem_nodeNames {n : List Char} (hn : n ∈ l.nodeNames) :
    ∃ d ∈ l.stepds, d.nodeName = n := by
  rwa [← map_nodeName_stepds, mem_map] at hn

theorem step_eq_zero (hone : l.steps.length = 1) (hd : d ∈ l.stepds) :
    d.step = 0 := by
  have hlt := step_lt (mem_nodes_of_mem_stepds hd)
  omega

variable (l spool jobid) in
/-- A launch of one step whose id has one digit, on nodes with one spool directory and names that
    are not too long for a socket. -/
structure Plain : Prop where
  one_step : l.steps.length = 1
  one_digit : toUInt (atoi l.pmiStepid) < 10
  short : ∀ n ∈ l.nodeNames, (sockAddrFmt (substituteNode n spool) jobid 0).length < sunPathSize
  /-- Substituting the name of another node first makes no difference. -/
  shared : ∀ n ∈ l.nodeNames, ∀ m ∈ l.nodeNames, m ≠ n →
    substituteNode n (substituteNode m spool) = substituteNode n spool

namespace Plain

variable (h : l.Plain spool jobid)

include h

theorem boundPath_eq {d : PmiStepd} (hd : d ∈ l.stepds) :
    l.boundPath spool jobid d = some (sockAddrFmt (substituteNode d.nodeName spool) jobid 0) := by
  have hlen := h.short _ (mem_nodeNames hd)
  have hstep := step_eq_zero h.one_step hd
  rw [boundPath, indexOf_first hstep hd, hstep, Option.map_some, snprintf,
    take_of_length_le (by omega)]

theorem messagesReach (hnodup : l.nodeNames.Nodup) : l.MessagesReach spool jobid := by
  intro d hd
  have hlen := h.short _ (mem_nodeNames hd)
  have h0 : fmtU 0 = ['0'] := by decide
  rw [sunPathSize] at hlen
  refine ⟨_, h.boundPath_eq hd, ?_, fun e he hne => ?_⟩
  · -- The address of `srun` is a few characters longer at most.
    have hstem := substituteNode_stem (percent_notMem_fmtU 0) d.nodeName spool jobid
    have hspool := length_substituteNode d.nodeName (spool ++ (sockStem jobid ++ fmtU 0))
    have hdigit : (fmtU (toUInt (atoi l.pmiStepid))).length = 1 := by
      have hdrop := congrArg length (dropLast_fmtU.2 h.one_digit)
      have hpos := length_fmtU_pos (toUInt (atoi l.pmiStepid))
      rw [length_dropLast, length_nil] at hdrop
      omega
    have hname := sockAddrFmt_eq (substituteNode d.nodeName spool) jobid 0
    rw [hstem, ← hname] at hspool
    rw [treeMsgFromSrun, rpcForwardData_eq_some, srunTreeSockAddr, sockAddrFmt_eq, snprintf,
      treeSockAddrSize, take_of_length_le, treeMsgAddress_stem (fmtU_ne_nil _),
      dropLast_fmtU.2 h.one_digit, step_eq_zero h.one_step hd, nil_append, hstem, ← hname]
    · exact ⟨rfl, by omega⟩
    · simp only [length_append, hdigit, h0, length_singleton] at hspool ⊢
      omega
  · have hnames : e.nodeName ≠ d.nodeName := by
      rw [← map_nodeName_stepds] at hnodup
      exact fun heq => hne (inj_on_of_nodup_map hnodup he hd heq)
    have hshared := h.shared _ (mem_nodeNames hd) _ (mem_nodeNames he) hnames
    have hforward : rpcForwardData d.nodeName
        (sockAddrFmt (substituteNode e.nodeName spool) jobid 0) =
          some (sockAddrFmt (substituteNode d.nodeName spool) jobid 0) := by
      rw [rpcForwardData_eq_some, sockAddrFmt_eq, substituteNode_stem (percent_notMem_fmtU _),
        hshared, ← sockAddrFmt_eq]
      exact ⟨rfl, by omega⟩
    refine ⟨?_, ?_⟩
    · rw [treeMsgFromStepd, h.boundPath_eq he, Option.bind_some,
        indexOf_first (step_eq_zero h.one_step he) hd, step_eq_zero h.one_step hd,
        Option.bind_some, sockAddrFmt_eq, treeMsgAddress_stem (fmtU_ne_nil _),
        dropLast_fmtU.2 (by omega), nil_append, ← sockAddrFmt_eq, hforward]
    · rw [pmixStepdSend, h.boundPath_eq he, Option.bind_some, hforward]

end Plain

theorem MessagesReach.plain (h : l.MessagesReach spool jobid) : l.Plain spool jobid where
  one_step := h.one_step
  one_digit := h.one_digit
  short n hn := by
    obtain ⟨d, hd, rfl⟩ := exists_of_mem_nodeNames hn
    have hle := (h.bound hd).2
    rw [step_eq_zero h.one_step hd] at hle
    exact Nat.lt_succ_of_le hle
  shared n hn m hm hne := by
    obtain ⟨d, hd, rfl⟩ := exists_of_mem_nodeNames hn
    obtain ⟨e, he, rfl⟩ := exists_of_mem_nodeNames hm
    have hring := h.ring hd he fun heq => hne (congrArg PmiStepd.nodeName heq)
    rw [step_eq_zero h.one_step hd, step_eq_zero h.one_step he, sockAddrFmt_eq,
      sockAddrFmt_eq] at hring
    exact append_cancel_right hring

end PmiLaunch

open PmiLaunch

/-- The launches of a job serve their programs apart from each other just if each is plain, and
    there is one `slurmstepd` on each node. -/
theorem pmiApart_iff (spool : List Char) (jobid : ℕ) (launches : List PmiLaunch) :
    PmiApart spool jobid launches ↔
      (∀ l ∈ launches, l.Plain spool jobid) ∧ (launches.flatMap nodeNames).Nodup := by
  -- With plain launches, the path is up to the node, so that it says nothing more.
  have hpaths (hplain : ∀ l ∈ launches, l.Plain spool jobid) :
      (launches.flatMap fun l => l.stepds.map fun d => (d.nodeName, l.boundPath spool jobid d)) =
        (launches.flatMap nodeNames).map fun n =>
          (n, some (sockAddrFmt (substituteNode n spool) jobid 0)) := by
    rw [map_flatMap]
    refine flatMap_congr fun l hl => ?_
    rw [← map_nodeName_stepds, map_map]
    refine map_congr_left fun d hd => ?_
    rw [(hplain l hl).boundPath_eq hd, comp_apply]
  constructor
  · rintro ⟨hnodup, hreach⟩
    have hplain : ∀ l ∈ launches, l.Plain spool jobid := fun l hl => (hreach l hl).plain
    rw [hpaths hplain] at hnodup
    exact ⟨hplain, hnodup.of_map⟩
  · rintro ⟨hplain, hnodup⟩
    refine ⟨?_, fun l hl => (hplain l hl).messagesReach ?_⟩
    · rw [hpaths hplain]
      exact hnodup.map fun n m hnm => (Prod.mk.inj hnm).1
    · exact hnodup.sublist (sublist_flatten_of_mem (mem_map_of_mem hl))

/-! ## Messages that go astray -/

/-- An ordinary step on a node of the name `a`. -/
def ordinary (pmiStepid : List Char) : PmiLaunch where
  pmiStepid := pmiStepid
  mpiCombine := false
  steps := [[['a']]]
  steps_pos := by decide
  steps_lt := by decide
  nodes_ne := by decide
  apart := fun _ => rfl

/-- Two steps of a job pack on two nodes. -/
def combined : PmiLaunch where
  pmiStepid := ['0']
  mpiCombine := true
  steps := [[['a']], [['b']]]
  steps_pos := by decide
  steps_lt := by decide
  nodes_ne := by decide
  apart := by decide

/-- `srun` sends the messages for step 10 of job 7 to a socket that is not the one of the step;
    steps 0 and 1 on one node bind the same path; and a message of a ring from the first step of a
    pack to the second goes to the path of the first. -/
theorem astray :
    let spool := "/var/spool".toList
    let d : PmiStepd := ⟨0, 0, ['a']⟩
    let e : PmiStepd := ⟨1, 1, ['b']⟩
    ((ordinary ['1', '0']).boundPath spool 7 d = some "/var/spool/sock.pmi2.7.0".toList ∧
      (ordinary ['1', '0']).treeMsgFromSrun spool 7 d =
        some "/var/spool/sock.pmi2.7.10".toList ∧
      ¬ PmiApart spool 7 [ordinary ['1', '0']]) ∧
    ((ordinary ['0']).boundPath spool 7 d = (ordinary ['1']).boundPath spool 7 d ∧
      ¬ PmiApart spool 7 [ordinary ['0'], ordinary ['1']]) ∧
    (combined.boundPath spool 7 e = some "/var/spool/sock.pmi2.7.1".toList ∧
      combined.pmixStepdSend spool 7 d e = some "/var/spool/sock.pmi2.7.0".toList ∧
      ¬ PmiApart spool 7 [combined]) := by
  intro spool d e
  refine ⟨⟨by decide, by decide, ?_⟩, ⟨by decide, ?_⟩, ⟨by decide, by decide, ?_⟩⟩
  · rintro ⟨-, hreach⟩
    obtain ⟨path, hbound, hsrun, -⟩ := hreach _ mem_cons_self d (by decide)
    exact absurd (hbound.trans hsrun.symm) (by decide)
  · rintro ⟨hnodup, -⟩
    exact absurd hnodup (by decide)
  · rintro ⟨-, hreach⟩
    obtain ⟨path, hbound, -, hothers⟩ := hreach _ mem_cons_self e (by decide)
    obtain ⟨-, hring⟩ := hothers d (by decide) (by decide)
    exact absurd (hbound.trans hring.symm) (by decide)

end Slurm
