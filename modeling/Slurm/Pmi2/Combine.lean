import Mathlib.Data.List.TakeWhile
import Slurm.Pmi2.Vector

/-!
# Combined process mappings

A number that is replaced in a mapping by one with as many digits is replaced rightly. One with more
digits is written over the comma behind, and a text without it lists something else: each block that
is read takes three commas (`count_of_decodeVector`), and no replacement makes a comma
(`count_adjustLoop`). Hence the mappings of a pack are combined rightly just if there is one step
only, or no number gets more digits and the result fits into the array that it is read into
(`combined_iff`).
-/

namespace Slurm

open CString List MapBlock MapStep

/-! ## Mappings of steps -/

/-- What holds between the nodes in a pass: a block starts at one of the `n` nodes, and if more than
    `t` tasks are mapped there is a block. -/
structure MapState.Ok (n t : ℕ) (o : Option OpenBlock) (st : MapState) : Prop where
  start_lt : ∀ b ∈ st.blocks, b.start < n
  open_lt : ∀ ob ∈ o, ob.startId < n
  blocks_ne : st.blocks ≠ [] ∨ o.isSome ∨ st.taskMapped = t

variable {n t nodeId fuel size : ℕ} {bs : List MapBlock} {steps : List MapStep}
  {nodes : List (List ℕ)} {st : MapState} {b : MapBlock} {o : Option OpenBlock}

theorem MapState.Ok.closed (h : st.Ok n t o) (nodeId : ℕ) :
    MapState.Ok n t none { st with blocks := st.blocks ++ (o.map (·.close nodeId)).toList } := by
  cases o with
  | none => simpa using h
  | some ob =>
    refine ⟨?_, by simp, .inl (by simp)⟩
    intro b hb
    rcases mem_append.1 hb with hb | hb
    · exact h.start_lt b hb
    · cases mem_singleton.1 hb
      exact h.open_lt ob rfl

theorem MapState.Ok.mapPass {size : ℕ → List ℕ → ℕ}
    (h : st.Ok n t o) (hn : nodeId + nodes.length ≤ n) :
    (Slurm.mapPass size nodeId o st nodes).1.Ok n t none := by
  induction nodes generalizing nodeId o st with
  | nil => exact h.closed nodeId
  | cons node nodes ih =>
    rw [length_cons] at hn
    have hnext : nodeId + 1 + nodes.length ≤ n := by omega
    cases o with
    | none =>
      rw [Slurm.mapPass]
      split_ifs with hsize
      · refine ih ⟨by simpa using h.start_lt, by simp, ?_⟩ hnext
        simpa [hsize] using h.blocks_ne
      · refine ih ⟨by simpa using h.start_lt, ?_, .inr (.inl rfl)⟩ hnext
        simp only [Option.mem_some_iff]
        rintro _ rfl
        exact (by omega : nodeId < n)
    | some ob =>
      have hclosed := (h.closed nodeId).start_lt
      rw [Slurm.mapPass]
      split_ifs with hsame hsize
      · exact ih ⟨by simpa using h.start_lt, h.open_lt, .inr (.inl rfl)⟩ hnext
      · exact ih ⟨hclosed, by simp, .inl (by simp)⟩ hnext
      · refine ih ⟨hclosed, ?_, .inr (.inl rfl)⟩ hnext
        simp only [Option.mem_some_iff]
        rintro _ rfl
        exact (by omega : nodeId < n)

theorem length_mapPass (size : ℕ → List ℕ → ℕ) (nodeId : ℕ) (o : Option OpenBlock) (st : MapState)
    (nodes : List (List ℕ)) :
    (mapPass size nodeId o st nodes).2.length = nodes.length := by
  induction nodes generalizing nodeId o st with
  | nil => rfl
  | cons node nodes ih =>
    cases o with
    | none =>
      rw [mapPass]
      split_ifs <;> simp [ih]
    | some ob =>
      rw [mapPass]
      split_ifs <;> simp [ih]

/-- What holds of the blocks of a mapping. -/
def ProperBlocks (n : ℕ) (bs : List MapBlock) : Prop := bs ≠ [] ∧ ∀ b ∈ bs, b.start < n

theorem MapState.Ok.properBlocks (h : st.Ok n 0 none)
    (hpos : 0 < st.taskMapped) : ProperBlocks n st.blocks := by
  refine ⟨fun hnil => ?_, h.start_lt⟩
  rcases h.blocks_ne with hne | hopen | hzero
  · exact hne hnil
  · cases hopen
  · omega

theorem properBlocks_of_mapPasses {size : ℕ → List ℕ → ℕ} {taskCnt : ℕ} (hpos : 0 < taskCnt)
    (hn : nodes.length ≤ n) (h : st.Ok n 0 none)
    (hbs : mapPasses size taskCnt fuel st nodes = some bs) : ProperBlocks n bs := by
  induction fuel generalizing st nodes with
  | zero =>
    rw [mapPasses] at hbs
    split_ifs at hbs with hdone
    cases hbs
    exact h.properBlocks (by omega)
  | succ fuel ih =>
    rw [mapPasses] at hbs
    split_ifs at hbs with hdone
    · cases hbs
      exact h.properBlocks (by omega)
    · refine ih ?_ (h.mapPass (by simpa using hn)) hbs
      rw [length_mapPass]
      exact hn

theorem properBlocks_blockMode {startId nodeTaskCnt : ℕ}
    (hstart : startId < n) (hn : nodeId + nodes.length ≤ n) :
    ProperBlocks n (blockMode startId nodeTaskCnt nodeId nodes) := by
  induction nodes generalizing startId nodeTaskCnt nodeId with
  | nil => simpa [ProperBlocks, blockMode] using hstart
  | cons node nodes ih =>
    rw [length_cons] at hn
    rw [blockMode]
    split_ifs
    · exact ih hstart (by omega)
    · have hnode : nodeId < n := by omega
      have hrest : ProperBlocks n (blockMode nodeId node.length (nodeId + 1) nodes) :=
        ih hnode (by omega)
      refine ⟨by simp, ?_⟩
      simpa [hstart] using hrest.2

/-- A mapping has blocks, and each starts at a node of the step. -/
theorem properBlocks_of_getProcMapping {layout : MapLayout}
    (h : getProcMapping layout = some bs) : ProperBlocks layout.tids.length bs := by
  have hpos : 0 < layout.tids.length := length_pos_iff.2 layout.tids_ne
  have hinit : MapState.Ok layout.tids.length 0 none ⟨0, []⟩ := ⟨by simp, by simp, by simp⟩
  rw [getProcMapping] at h
  split at h
  · exact properBlocks_of_mapPasses layout.taskCnt_pos le_rfl hinit h
  · cases h
    exact ⟨by simp, by simpa using hpos⟩
  · exact properBlocks_of_mapPasses layout.taskCnt_pos le_rfl hinit h
  · split at h
    · cases h
    · rename_i hnodes
      cases h
      rw [hnodes, length_cons] at hpos ⊢
      exact properBlocks_blockMode hpos (by omega)

theorem MapStep.properBlocks (s : MapStep) : ProperBlocks s.nnodes s.blocks :=
  properBlocks_of_getProcMapping s.produced

/-! ## Marks -/

/-- A text in which the mark of a block is not found, nor with what may follow. -/
def Unmarked (pre : List Char) : Prop :=
  ∀ rest : List Char, rest.head? ≠ some '(' →
    strstr (pre ++ rest) [',', '('] = strstr rest [',', '(']

theorem unmarked_of_notMem {pre : List Char} (h : '(' ∉ pre) : Unmarked pre := by
  intro rest hrest
  induction pre with
  | nil => rfl
  | cons a pre ih =>
    have hpre : '(' ∉ pre := fun hmem => h (mem_cons_of_mem a hmem)
    have hnext : (pre ++ rest).head? ≠ some '(' := by
      cases pre with
      | nil => exact hrest
      | cons c pre =>
        simp only [cons_append, head?_cons, ne_eq, Option.some.injEq]
        rintro rfl
        exact hpre mem_cons_self
    have hmark : ¬[',', '('].isPrefixOf (a :: (pre ++ rest)) := by
      intro hmark
      obtain ⟨t, ht⟩ := isPrefixOf_iff_prefix.1 hmark
      simp only [cons_append, nil_append, cons.injEq] at ht
      rw [← ht.2] at hnext
      exact hnext rfl
    rw [cons_append, strstr, if_neg hmark, ih hpre]

theorem unmarked_vectorHead : Unmarked vectorHead := by
  intro rest hrest
  -- Only the first character is a bracket, and no comma stands before it.
  have hword : Unmarked vectorHead.tail := unmarked_of_notMem (by decide)
  have hhead : vectorHead ++ rest = '(' :: (vectorHead.tail ++ rest) := rfl
  rw [hhead, strstr, if_neg (by simp [isPrefixOf]), hword rest hrest]

theorem mem_fmtD {c : Char} (h : c ∈ fmtD n) : c = '-' ∨ c.isDigit := by
  rw [fmtD] at h
  split_ifs at h
  · rcases mem_cons.1 h with rfl | h
    · exact .inl rfl
    · exact .inr (isDigit_of_mem_fmtU h)
  · exact .inr (isDigit_of_mem_fmtU h)

theorem bracket_notMem_fmtU (n : ℕ) : '(' ∉ fmtU n := fun h =>
  absurd (isDigit_of_mem_fmtU h) (by decide)

theorem closing_notMem_fmtU (n : ℕ) : ')' ∉ fmtU n := fun h =>
  absurd (isDigit_of_mem_fmtU h) (by decide)

theorem comma_notMem_fmtU (n : ℕ) : ',' ∉ fmtU n := fun h =>
  absurd (isDigit_of_mem_fmtU h) (by decide)

theorem comma_notMem_fmtD (n : ℕ) : ',' ∉ fmtD n := fun h => by
  rcases mem_fmtD h with h | h
  · exact absurd h (by decide)
  · exact absurd h (by decide)

theorem unmarked_numbers (b : MapBlock) : Unmarked b.numbers :=
  unmarked_of_notMem (by simp [numbers, bracket_notMem_fmtU])

/-- The blocks of a mapping, up to its end. -/
def bodyText (bs : List MapBlock) : List Char := bs.flatMap (·.text) ++ [')']

theorem vectorText_eq (bs : List MapBlock) : vectorText bs = vectorHead ++ bodyText bs := rfl

theorem bodyText_cons (b : MapBlock) (bs : List MapBlock) :
    bodyText (b :: bs) = ',' :: '(' :: (b.numbers ++ bodyText bs) := by
  simp [bodyText, text]

theorem Unmarked.strstr_cons {pre : List Char} (h : Unmarked pre) (b : MapBlock) (bs : List MapBlock) :
    strstr (pre ++ bodyText (b :: bs)) [',', '('] =
      some (',' :: '(' :: (b.numbers ++ bodyText bs)) := by
  rw [bodyText_cons, h _ (by simp), strstr, if_pos (by simp [isPrefixOf])]

theorem Unmarked.strstr_nil {pre : List Char} (h : Unmarked pre) :
    strstr (pre ++ bodyText []) [',', '('] = none := by
  rw [h _ (by simp [bodyText])]
  decide

/-! ## Replacements -/

/-- A number of a block keeps its digits. -/
def KeepsDigits (n : ℕ) (b : MapBlock) : Prop :=
  (fmtU (b.start + n)).length = (fmtU b.start).length

theorem fmtD_toUInt (hn : n < 2 ^ 31) : fmtD (toUInt n) = fmtU n := by
  have hval : toInt (toUInt n) = n := by
    rw [toUInt_natCast (by omega), toInt_eq (by omega) (by omega)]
  rw [fmtD, if_neg (by omega), hval, Int.natAbs_natCast]

/-- What is read as the number of the first node of a block. -/
theorem atoi_numbers (hb : b.start < 2 ^ 31) (rest : List Char) :
    atoi ((b.numbers ++ rest).takeWhile Char.isDigit) = b.start := by
  have htake : (b.numbers ++ rest).takeWhile Char.isDigit = fmtU b.start := by
    rw [numbers, append_assoc, takeWhile_append_of_pos fun c hc => isDigit_of_mem_fmtU hc]
    simp
  have hread := atoi_fmtU hb [] (by simp [EndsDigits])
  rw [append_nil] at hread
  rw [htake, hread]

/-- The number that is written for one that is read. -/
def newNum (n : ℕ) (post : List Char) : List Char :=
  fmtD (toUInt (atoi (post.takeWhile Char.isDigit) + n))

theorem newNum_numbers (hb : b.start + n < 2 ^ 31) (rest : List Char) :
    newNum n (b.numbers ++ rest) = fmtU (b.start + n) := by
  rw [newNum, atoi_numbers (by omega), ← Nat.cast_add, fmtD_toUInt hb]

theorem replace_numbers (h : KeepsDigits n b) (rest : List Char) :
    replace (b.numbers ++ rest) (fmtU (b.start + n)) = some ((b.shift n).numbers ++ rest) := by
  rw [replace, h, if_pos (by simp [numbers])]
  simp [numbers, shift]

/-- One turn of the loop. -/
theorem adjustLoop_succ {pre post : List Char}
    (h : strstr (pre ++ ',' :: '(' :: post) [',', '('] = some (',' :: '(' :: post)) (n fuel : ℕ) :
    adjustLoop n (fuel + 1) (pre ++ ',' :: '(' :: post) =
      (replace post (newNum n post)).bind fun sub =>
        (adjustLoop n fuel sub).map fun text => pre ++ (',' :: '(' :: text) := by
  rw [adjustLoop, h]
  simp [newNum]

/-- Numbers that keep their digits are replaced rightly. -/
theorem adjustLoop_of_keepsDigits {pre : List Char}
    (hpre : Unmarked pre) (hlt : ∀ b ∈ bs, b.start + n < 2 ^ 31) (h : ∀ b ∈ bs, KeepsDigits n b)
    (hfuel : bs.length < fuel) :
    adjustLoop n fuel (pre ++ bodyText bs) = some (pre ++ bodyText (bs.map (·.shift n))) := by
  induction bs generalizing pre fuel with
  | nil =>
    obtain ⟨fuel, rfl⟩ := Nat.exists_eq_succ_of_ne_zero (by omega : fuel ≠ 0)
    rw [adjustLoop, hpre.strstr_nil]
    rfl
  | cons b bs ih =>
    obtain ⟨fuel, rfl⟩ := Nat.exists_eq_succ_of_ne_zero (by omega : fuel ≠ 0)
    have hb := hlt b mem_cons_self
    have hrest := ih (unmarked_numbers (b.shift n)) (fun c hc => hlt c (mem_cons_of_mem b hc))
      (fun c hc => h c (mem_cons_of_mem b hc)) (Nat.lt_of_succ_lt_succ hfuel)
    have hfind := hpre.strstr_cons b bs
    rw [bodyText_cons] at hfind ⊢
    rw [adjustLoop_succ hfind, newNum_numbers hb, replace_numbers (h b mem_cons_self),
      Option.bind_some, hrest, Option.map_some, map_cons, bodyText_cons]

/-! ## Commas -/

theorem count_numbers (b : MapBlock) : b.numbers.count ',' = 2 := by
  have hnone (n : ℕ) : (fmtU n).count ',' = 0 := count_eq_zero.2 (comma_notMem_fmtU n)
  simp [numbers, hnone]

theorem count_bodyText (bs : List MapBlock) : (bodyText bs).count ',' = 3 * bs.length := by
  induction bs with
  | nil => decide
  | cons b bs ih =>
    rw [bodyText_cons]
    simp only [count_cons, count_append, count_numbers, ih, length_cons]
    simp
    omega

theorem count_vectorText (bs : List MapBlock) : (vectorText bs).count ',' = 3 * bs.length := by
  have hhead : vectorHead.count ',' = 0 := by decide
  rw [vectorText_eq, count_append, hhead, count_bodyText, Nat.zero_add]

/-- What is written over a text makes no comma. -/
theorem count_replace {s new t : List Char} (hnew : ',' ∉ new) (h : replace s new = some t) :
    t.count ',' = (s.drop new.length).count ',' := by
  rw [replace] at h
  split_ifs at h
  cases h
  rw [count_append, count_eq_zero.2 hnew, Nat.zero_add]

theorem count_adjustLoop {s t : List Char} (h : adjustLoop n fuel s = some t) :
    t.count ',' ≤ s.count ',' := by
  induction fuel generalizing s t with
  | zero =>
    cases h
    exact le_rfl
  | succ fuel ih =>
    cases hfind : strstr s [',', '('] with
    | none =>
      rw [adjustLoop, hfind] at h
      cases h
      exact le_rfl
    | some rest =>
      obtain ⟨pre, post, rfl, rfl⟩ := strstr_eq_some hfind
      rw [cons_append, cons_append, nil_append] at h hfind ⊢
      rw [adjustLoop_succ hfind] at h
      obtain ⟨sub, hsub, hmap⟩ := Option.bind_eq_some_iff.1 h
      obtain ⟨text, htext, rfl⟩ := Option.map_eq_some_iff.1 hmap
      have hcomma : ',' ∉ newNum n post := comma_notMem_fmtD _
      have hcount := count_replace hcomma hsub
      have hdrop := (drop_sublist (newNum n post).length post).count_le ','
      have hle := ih htext
      simp only [count_append, count_cons]
      omega

theorem length_fmtU_mono {m : ℕ} (h : n ≤ m) : (fmtU n).length ≤ (fmtU m).length := by
  have hiff (k : ℕ) := Nat.length_toDigits_le_iff (b := 10) (n := k) (by decide) (length_fmtU_pos m)
  exact (hiff n).2 (h.trans_lt ((hiff m).1 le_rfl))

/-- A number that gets more digits is written over a comma. -/
theorem count_adjustLoop_lt {pre t : List Char}
    (hpre : Unmarked pre) (hlt : ∀ b ∈ bs, b.start + n < 2 ^ 31) (hmore : ∃ b ∈ bs, ¬KeepsDigits n b)
    (hfuel : bs.length < fuel) (h : adjustLoop n fuel (pre ++ bodyText bs) = some t) :
    t.count ',' < (pre ++ bodyText bs).count ',' := by
  induction bs generalizing pre fuel t with
  | nil => simp at hmore
  | cons b bs ih =>
    obtain ⟨fuel, rfl⟩ := Nat.exists_eq_succ_of_ne_zero (by omega : fuel ≠ 0)
    have hb := hlt b mem_cons_self
    have hfind := hpre.strstr_cons b bs
    rw [bodyText_cons] at h hfind ⊢
    rw [adjustLoop_succ hfind, newNum_numbers hb] at h
    obtain ⟨sub, hsub, hmap⟩ := Option.bind_eq_some_iff.1 h
    obtain ⟨text, htext, rfl⟩ := Option.map_eq_some_iff.1 hmap
    -- It is enough that the text behind the mark loses a comma.
    suffices hless : text.count ',' < (b.numbers ++ bodyText bs).count ',' by
      simp only [count_append, count_cons] at hless ⊢
      omega
    by_cases hkeep : KeepsDigits n b
    · rw [replace_numbers hkeep] at hsub
      cases hsub
      have hrest : ∃ c ∈ bs, ¬KeepsDigits n c := by
        obtain ⟨c, hc, hnot⟩ := hmore
        rcases mem_cons.1 hc with rfl | hc
        · exact absurd hkeep hnot
        · exact ⟨c, hc, hnot⟩
      have hless := ih (unmarked_numbers (b.shift n))
        (fun c hc => hlt c (mem_cons_of_mem b hc)) hrest (Nat.lt_of_succ_lt_succ hfuel) htext
      simpa [count_append, count_numbers] using hless
    · have hcount := count_replace (comma_notMem_fmtU _) hsub
      have hle := count_adjustLoop htext
      have hlonger : (fmtU b.start).length < (fmtU (b.start + n)).length :=
        lt_of_le_of_ne (length_fmtU_mono (Nat.le_add_right _ _)) (Ne.symm hkeep)
      obtain ⟨more, hmore⟩ := Nat.exists_eq_add_of_lt hlonger
      -- What is left starts behind the comma.
      have hlost : ∃ rest, b.numbers ++ bodyText bs = fmtU b.start ++ ',' :: rest :=
        ⟨_, by rw [numbers, append_assoc, cons_append]⟩
      obtain ⟨rest, hrest⟩ := hlost
      rw [hrest, hmore, Nat.add_assoc, drop_length_add_append, drop_succ_cons] at hcount
      rw [hrest, count_append, count_cons_self]
      have hdrop := (drop_sublist more rest).count_le ','
      omega

/-! ## Joined texts -/

/-- The end of a mapping is found behind its last block. -/
theorem strstr_bodyText (h : bs ≠ []) (pre : List Char) (hpre : ')' ∉ pre) :
    strstr (pre ++ bodyText bs) [')', ')'] = some [')', ')'] := by
  have hskip (pre rest : List Char) (hpre : ')' ∉ pre) :
      strstr (pre ++ rest) [')', ')'] = strstr rest [')', ')'] := by
    induction pre with
    | nil => rfl
    | cons a pre ih =>
      have ha : a ≠ ')' := fun heq => hpre (by simp [heq])
      rw [cons_append, strstr, if_neg (by simp [isPrefixOf, Ne.symm ha]),
        ih fun hmem => hpre (mem_cons_of_mem a hmem)]
  rw [hskip pre _ hpre]
  induction bs with
  | nil => exact absurd rfl h
  | cons b bs ih =>
    have hsplit : ∃ nums, ')' ∉ nums ∧ bodyText (b :: bs) = nums ++ ')' :: bodyText bs := by
      refine ⟨',' :: '(' :: (fmtU b.start ++ ',' :: (fmtU b.nodes ++ ',' :: fmtU b.tasks)), ?_, ?_⟩
      · simp [closing_notMem_fmtU]
      · rw [bodyText_cons]
        simp [numbers]
    obtain ⟨nums, hnums, htext⟩ := hsplit
    rw [htext, hskip nums _ hnums]
    cases bs with
    | nil => decide
    | cons c bs =>
      rw [strstr, if_neg, ih (by simp)]
      rw [bodyText_cons]
      simp [isPrefixOf]

theorem strstr_self_append (t rest : List Char) : strstr (t ++ rest) t = some (t ++ rest) := by
  cases h : t ++ rest with
  | nil =>
    have ht : t = [] := (append_eq_nil_iff.1 h).1
    simp [strstr, ht]
  | cons a s =>
    have hpre : t.isPrefixOf (a :: s) := h ▸ isPrefixOf_iff_prefix.2 (prefix_append t rest)
    rw [strstr, if_pos hpre]

/-- Mappings are joined to that of the blocks of both. -/
theorem combineVectLists_vectorText {cs : List MapBlock} (h : bs ≠ []) :
    combineVectLists (vectorText bs) (vectorText cs) = some (vectorText (bs ++ cs)) := by
  have hend := strstr_bodyText h vectorHead (by decide)
  obtain ⟨pre, post, htext, hpost⟩ := strstr_eq_some hend
  have hnil : post = [] := by simpa using hpost
  rw [combineVectLists, vectorText_eq, strstr_self_append, vectorText_eq, hend, htext, hnil]
  have hbody : pre ++ [')'] = vectorHead ++ bs.flatMap (·.text) := by
    rw [hnil, bodyText, ← append_assoc] at htext
    have hlast : vectorHead ++ bs.flatMap (·.text) ++ [')'] = pre ++ [')'] ++ [')'] := by
      rw [htext]
      simp
    exact (append_cancel_right hlast).symm
  have hright : vectorText (bs ++ cs) = vectorHead ++ bs.flatMap (·.text) ++ bodyText cs := by
    simp [vectorText, bodyText]
  rw [hright, ← hbody]
  simp

theorem count_combineVectLists {l1 l2 t : List Char} (h : combineVectLists l1 l2 = some t) :
    t.count ',' ≤ l1.count ',' + l2.count ',' := by
  obtain ⟨p, hp, hmap⟩ := Option.bind_eq_some_iff.1 h
  obtain ⟨p1, hp1, rfl⟩ := Option.map_eq_some_iff.1 hmap
  have htake := (take_sublist (l1.length - p1.length) l1).count_le ','
  have hone : (p1.take 1).count ',' = 0 := by
    obtain ⟨_, _, -, rfl⟩ := strstr_eq_some hp1
    rfl
  have hdrop : (p.drop vectorHead.length).count ',' ≤ l2.count ',' := by
    obtain ⟨pre, post, hl2, hp⟩ := strstr_eq_some hp
    rw [hl2, ← hp]
    exact ((drop_sublist _ p).trans (sublist_append_right pre p)).count_le ','
  rw [count_append, count_append, hone]
  omega

/-! ## All the steps -/

theorem inArray_eq_some {s t : List Char} :
    inArray size s = some t ↔ t = s ∧ s.length < size := by
  rw [inArray, Option.ite_none_right_eq_some, Option.some.injEq]
  constructor
  · rintro ⟨hlt, rfl⟩
    exact ⟨rfl, hlt⟩
  · rintro ⟨rfl, hlt⟩
    exact ⟨hlt, rfl⟩

/-- No number of the steps gets more digits, with `n` nodes before them. -/
def StepsKeepDigits : ℕ → List MapStep → Prop
  | _, [] => True
  | n, s :: steps => (∀ b ∈ s.blocks, KeepsDigits n b) ∧ StepsKeepDigits (n + s.nnodes) steps

/-- One step of the loop: the texts fit, and the adjusted mapping is joined to the one so far. -/
theorem combineLoop_cons {pm t : List Char} {s : MapStep} :
    combineLoop size n pm (s :: steps) = some t ↔ ∃ adj comb, s.procMapping.length < vectMaxSize ∧
        adjustVectNodeidx s.procMapping n = some adj ∧ pm.length < size ∧
        combineVectLists pm adj = some comb ∧ comb.length < size ∧
        combineLoop size (n + s.nnodes) comb steps = some t := by
  simp only [combineLoop, Option.bind_eq_some_iff, inArray_eq_some]
  constructor
  · rintro ⟨_, ⟨rfl, hread⟩, adj, hadj, _, ⟨rfl, hpm⟩, comb, ⟨_, hcomb, rfl, hlen⟩, ht⟩
    exact ⟨adj, comb, hread, hadj, hpm, hcomb, hlen, ht⟩
  · rintro ⟨adj, comb, hread, hadj, hpm, hcomb, hlen, ht⟩
    exact ⟨_, ⟨rfl, hread⟩, adj, hadj, _, ⟨rfl, hpm⟩, _, ⟨comb, hcomb, rfl, hlen⟩, ht⟩

theorem length_lt_vectorText (bs : List MapBlock) : bs.length < (vectorText bs).length := by
  have hle : bs.length ≤ (bodyText bs).count ',' := by
    rw [count_bodyText]
    omega
  have hcount := count_le_length (a := ',') (l := bodyText bs)
  have hhead : vectorHead.length = 7 := by decide
  rw [vectorText_eq, length_append, hhead]
  omega

theorem adjustVectNodeidx_of_keepsDigits
    (hlt : ∀ b ∈ bs, b.start + n < 2 ^ 31) (h : ∀ b ∈ bs, KeepsDigits n b) :
    adjustVectNodeidx (vectorText bs) n = some (vectorText (bs.map (·.shift n))) := by
  exact adjustLoop_of_keepsDigits unmarked_vectorHead hlt h (length_lt_vectorText bs)

/-- The numbers of all nodes stay in the range of an `int`. -/
theorem start_add_lt {s : MapStep} (h : n + ((s :: steps).map (·.nnodes)).sum < 2 ^ 31) :
    ∀ b ∈ s.blocks, b.start + n < 2 ^ 31 := by
  intro b hb
  have hstart := s.properBlocks.2 b hb
  rw [map_cons, sum_cons] at h
  omega

/-- If no number gets more digits, the result is the mapping of the blocks of all the steps. -/
theorem eq_of_combineLoop {t : List Char}
    (hlt : n + (steps.map (·.nnodes)).sum < 2 ^ 31) (hkeep : StepsKeepDigits n steps)
    (hbs : bs ≠ []) (h : combineLoop size n (vectorText bs) steps = some t) :
    t = vectorText (bs ++ concatBlocks n steps) := by
  induction steps generalizing n bs with
  | nil =>
    cases h
    rw [concatBlocks, append_nil]
  | cons s steps ih =>
    obtain ⟨adj, comb, -, hadj, -, hcomb, -, ht⟩ := combineLoop_cons.1 h
    rw [procMapping, adjustVectNodeidx_of_keepsDigits (start_add_lt hlt) hkeep.1] at hadj
    cases hadj
    rw [combineVectLists_vectorText hbs] at hcomb
    cases hcomb
    rw [map_cons, sum_cons] at hlt
    rw [ih (by omega) hkeep.2 (by simp [hbs]) ht, concatBlocks, append_assoc]

theorem length_vectorText (bs : List MapBlock) :
    (vectorText bs).length = 8 + (bs.map fun b => b.text.length).sum := by
  have hhead : vectorHead.length = 7 := by decide
  simp only [vectorText, length_append, hhead, length_flatMap, length_singleton]
  omega

theorem length_vectorText_shift (h : ∀ b ∈ bs, KeepsDigits n b) :
    (vectorText (bs.map (·.shift n))).length = (vectorText bs).length := by
  have hlen : (bs.map (·.shift n)).map (fun b => b.text.length) =
      bs.map fun b => b.text.length := by
    rw [map_map]
    refine map_congr_left fun b hb => ?_
    have hkeep : (fmtU (b.start + n)).length = (fmtU b.start).length := h b hb
    simp [text, numbers, shift, hkeep]
  rw [length_vectorText, length_vectorText, hlen]

/-- If moreover the mapping of all the blocks fits into an array, then so do the texts on the way.
    -/
theorem combineLoop_eq_some
    (hsize : vectMaxSize ≤ size) (hlt : n + (steps.map (·.nnodes)).sum < 2 ^ 31)
    (hkeep : StepsKeepDigits n steps) (hbs : bs ≠ [])
    (hfit : (vectorText (bs ++ concatBlocks n steps)).length < vectMaxSize) :
    combineLoop size n (vectorText bs) steps = some (vectorText (bs ++ concatBlocks n steps)) := by
  induction steps generalizing n bs with
  | nil => rw [combineLoop, concatBlocks, append_nil]
  | cons s steps ih =>
    rw [concatBlocks, ← append_assoc] at hfit ⊢
    have hlens := length_vectorText_shift hkeep.1
    have hlong := hfit
    simp only [length_vectorText, map_append, sum_append] at hlong hlens
    have hnext := hlt
    rw [map_cons, sum_cons] at hnext
    have hadjust := adjustVectNodeidx_of_keepsDigits (start_add_lt hlt) hkeep.1
    refine combineLoop_cons.2 ⟨_, _, ?_, hadjust, ?_,
      combineVectLists_vectorText hbs, ?_, ih (by omega) hkeep.2 (by simp [hbs]) hfit⟩
    all_goals
      simp only [procMapping, length_vectorText, map_append, sum_append]
      omega

/-- If a number gets more digits, commas are missing in the result. -/
theorem count_combineLoop {pm t : List Char} (h : combineLoop size n pm steps = some t) :
    t.count ',' ≤ pm.count ',' + 3 * (concatBlocks n steps).length := by
  induction steps generalizing n pm with
  | nil =>
    cases h
    simp [concatBlocks]
  | cons s steps ih =>
    obtain ⟨adj, comb, -, hadj, -, hcomb, -, ht⟩ := combineLoop_cons.1 h
    have hle := ih ht
    have hjoin := count_combineVectLists hcomb
    have hadjust := count_adjustLoop hadj
    rw [procMapping, count_vectorText] at hadjust
    rw [concatBlocks, length_append, length_map]
    omega

theorem count_combineLoop_lt {pm t : List Char}
    (hlt : n + (steps.map (·.nnodes)).sum < 2 ^ 31) (hmore : ¬StepsKeepDigits n steps)
    (h : combineLoop size n pm steps = some t) :
    t.count ',' < pm.count ',' + 3 * (concatBlocks n steps).length := by
  induction steps generalizing n pm with
  | nil => exact absurd trivial hmore
  | cons s steps ih =>
    obtain ⟨adj, comb, -, hadj, -, hcomb, -, ht⟩ := combineLoop_cons.1 h
    have hjoin := count_combineVectLists hcomb
    have hnext := hlt
    rw [map_cons, sum_cons] at hnext
    rw [concatBlocks, length_append, length_map]
    by_cases hkeep : ∀ b ∈ s.blocks, KeepsDigits n b
    · have hless := ih (by omega) (fun hrest => hmore ⟨hkeep, hrest⟩) ht
      have hadjust := count_adjustLoop hadj
      rw [procMapping, count_vectorText] at hadjust
      omega
    · have hle := count_combineLoop ht
      have hadjust := count_adjustLoop_lt unmarked_vectorHead (start_add_lt hlt)
        (by simpa using hkeep) (length_lt_vectorText s.blocks) hadj
      rw [← vectorText_eq, count_vectorText] at hadjust
      omega

/-! ## Reading a mapping -/

theorem decodeNum_fmtU {rest : List Char} (h : EndsDigits rest) :
    decodeNum (fmtU n ++ rest) = some (n, rest) := by
  obtain ⟨htake, hdrop⟩ := h.fmtU_append n
  rw [decodeNum, htake, hdrop]
  split
  · rename_i hnil
    exact absurd hnil (fmtU_ne_nil n)
  · rw [digitsVal_fmtU]

theorem decodeBlock_numbers (b : MapBlock) (rest : List Char) :
    decodeBlock (b.numbers ++ rest) = some (b, rest) := by
  have hcomma (s : List Char) : EndsDigits (',' :: s) := by simp [EndsDigits]
  have hclosing (s : List Char) : EndsDigits (')' :: s) := by simp [EndsDigits]
  simp [numbers, decodeBlock, decodeNum_fmtU, hcomma, hclosing, decodeChar]

theorem decodeBlocks_bodyText (h : bs.length ≤ fuel) :
    decodeBlocks fuel (bodyText bs) = some bs := by
  induction bs generalizing fuel with
  | nil => cases fuel <;> rfl
  | cons b bs ih =>
    obtain ⟨fuel, rfl⟩ := Nat.exists_eq_succ_of_ne_zero (by simp at h; omega : fuel ≠ 0)
    rw [bodyText_cons, decodeBlocks, decodeBlock_numbers]
    simp [ih (Nat.le_of_succ_le_succ h)]

theorem count_of_decodeNum {s t : List Char} (h : decodeNum s = some (n, t)) :
    s.count ',' = t.count ',' := by
  have hdigits : (s.takeWhile Char.isDigit).count ',' = 0 :=
    count_eq_zero.2 fun hmem => absurd (mem_takeWhile_imp hmem) (by decide)
  have hsplit := congrArg (count ',') (takeWhile_append_dropWhile (p := Char.isDigit) (l := s))
  rw [count_append, hdigits, Nat.zero_add] at hsplit
  rw [decodeNum] at h
  split at h
  · cases h
  · cases h
    exact hsplit.symm

theorem count_of_decodeChar {c : Char} {s t : List Char} (h : decodeChar c s = some t) :
    s.count ',' = t.count ',' + if c = ',' then 1 else 0 := by
  cases s with
  | nil => cases h
  | cons a s =>
    rw [decodeChar] at h
    split_ifs at h with ha
    cases h
    rw [count_cons, ha]
    simp

theorem count_of_decodeBlock {s t : List Char} (h : decodeBlock s = some (b, t)) :
    s.count ',' = t.count ',' + 2 := by
  simp only [decodeBlock, bind, Option.bind_eq_some_iff, pure, Option.some.injEq, Prod.mk.injEq,
    Prod.exists] at h
  obtain ⟨_, s1, h1, s2, h2, _, s3, h3, s4, h4, _, s5, h5, s6, h6, -, rfl⟩ := h
  have e1 := count_of_decodeNum h1
  have e2 := count_of_decodeChar h2
  have e3 := count_of_decodeNum h3
  have e4 := count_of_decodeChar h4
  have e5 := count_of_decodeNum h5
  have e6 := count_of_decodeChar h6
  simp only [if_true, Char.reduceEq, if_false] at e2 e4 e6
  omega

theorem count_of_decodeBlocks {s : List Char}
    (h : decodeBlocks fuel s = some bs) : s.count ',' = 3 * bs.length := by
  fun_induction decodeBlocks fuel s generalizing bs with
  | case1 =>
    cases h
    decide
  | case2 fuel s ih =>
    simp only [bind, Option.bind_eq_some_iff, pure, Option.some.injEq, Prod.exists] at h
    obtain ⟨b, rest, hblock, bs, hbs, rfl⟩ := h
    have hcount := count_of_decodeBlock hblock
    have hrest := ih rest hbs
    rw [count_cons, count_cons, length_cons]
    simp only [BEq.rfl, if_true, Char.reduceBEq, Bool.false_eq_true, if_false]
    omega
  | case3 => cases h

/-- Each block that is read takes three commas. -/
theorem count_of_decodeVector {s : List Char} (h : decodeVector s = some bs) :
    s.count ',' = 3 * bs.length := by
  rw [decodeVector] at h
  split_ifs at h with hpre
  obtain ⟨rest, rfl⟩ := isPrefixOf_iff_prefix.1 hpre
  have hhead : vectorHead.count ',' = 0 := by decide
  have hrest := count_of_decodeBlocks h
  rw [drop_left] at hrest
  rw [count_append, hhead, Nat.zero_add, hrest]

/-! ## Combined mappings -/

namespace MapPack

variable (pack : MapPack)

theorem shift_zero (bs : List MapBlock) : bs.map (·.shift 0) = bs := by
  refine (map_congr_left fun b _ => ?_).trans (map_id bs)
  rfl

theorem concatBlocks_steps :
    concatBlocks 0 pack.steps =
      pack.first.blocks ++ concatBlocks pack.first.nnodes pack.others := by
  rw [steps, concatBlocks, shift_zero, Nat.zero_add]

/-- The mappings of a pack are combined rightly just if there is one step, or no number of the
    others gets more digits and the result fits into the array that it is read into. -/
theorem combined_iff :
    pack.Combined ↔ pack.others = [] ∨ StepsKeepDigits pack.first.nnodes pack.others ∧
      (vectorText (concatBlocks 0 pack.steps)).length < vectMaxSize := by
  have hlt := pack.nnodes_lt
  rw [map_cons, sum_cons] at hlt
  have hne := pack.first.properBlocks.1
  rw [Combined, concatBlocks_steps]
  constructor
  · intro h
    rw [or_iff_not_imp_left]
    intro hothers
    have htwo : 1 < pack.steps.length := by
      have hpos := length_pos_iff.2 hothers
      rw [steps, length_cons]
      omega
    obtain ⟨t, ht, hdecode⟩ := Option.bind_eq_some_iff.1 (h 1 htwo)
    obtain ⟨t', hcombine, harray⟩ := Option.bind_eq_some_iff.1 ht
    obtain ⟨rfl, hfit⟩ := inArray_eq_some.1 harray
    have hkeep : StepsKeepDigits pack.first.nnodes pack.others := by
      by_contra hmore
      have hless := count_combineLoop_lt hlt hmore hcombine
      rw [count_of_decodeVector hdecode, MapStep.procMapping, count_vectorText,
        length_append] at hless
      omega
    rw [eq_of_combineLoop hlt hkeep hne hcombine] at hfit
    exact ⟨hkeep, hfit⟩
  · intro h
    have hcombine : pack.combineSrunJobInfo =
        some (vectorText (pack.first.blocks ++ concatBlocks pack.first.nnodes pack.others)) := by
      rcases h with hothers | ⟨hkeep, hfit⟩
      · rw [combineSrunJobInfo, hothers, combineLoop, concatBlocks, append_nil, MapStep.procMapping]
      · have hsize : vectMaxSize ≤ vectMaxSize * pack.steps.length :=
          Nat.le_mul_of_pos_right _ (by simp [steps])
        exact combineLoop_eq_some hsize hlt hkeep hne hfit
    intro stepIdx hidx
    have hmapping : pack.procMapping stepIdx =
        some (vectorText (pack.first.blocks ++ concatBlocks pack.first.nnodes pack.others)) := by
      rw [procMapping, hcombine]
      split_ifs with hzero
      · rfl
      · rcases h with hothers | ⟨-, hfit⟩
        · rw [steps, hothers] at hidx
          simp at hidx
          omega
        · exact inArray_eq_some.2 ⟨rfl, hfit⟩
    rw [hmapping, Option.bind_some]
    -- a mapping lists its blocks
    exact decodeBlocks_bodyText (length_lt_vectorText _).le

end MapPack

/-! ## A number that gets a digit -/

/-- A step with a task on each of ten nodes. -/
def tenNodes : MapStep where
  layout := ⟨.block, 10, (List.range 10).map fun i => [i], by decide, by decide⟩
  blocks := [⟨0, 10, 1⟩]
  produced := by decide

/-- A step with a task on one node. -/
def oneTask : MapStep where
  layout := ⟨.block, 1, [[0]], by decide, by decide⟩
  blocks := [⟨0, 1, 1⟩]
  produced := by decide

/-- The steps together. -/
def elevenNodes : MapPack := ⟨tenNodes, [oneTask], by decide⟩

/-- The second block should start at node 10. The 1 of the number is written over the 0 that stood
    there, and the 0 over the comma behind. -/
theorem elevenNodes_garbled :
    elevenNodes.combineSrunJobInfo = some "(vector,(0,10,1),(101,1))".toList ∧
      concatBlocks 0 elevenNodes.steps = [⟨0, 10, 1⟩, ⟨10, 1, 1⟩] ∧ ¬ elevenNodes.Combined := by
  refine ⟨by decide, by decide, fun h => ?_⟩
  have hfirst := h 0 (by decide)
  revert hfirst
  decide

end Slurm
