import Slurm.Lib.Run
import Slurm.Pmi2.RingOrder

/-!
# Runs of the ring of PMIx

Each `slurmstepd` is in some round, which is the number of answers its tasks have got. What it waits
for are the messages about the parts below it. Between it and a child the messages go back and forth
(`Edge`): the child gathers; its message is on the way; the message is there; or the round is over,
and the answer is on the way, while the child is one round behind. So each message that there is, at
whatever time, tells the part it is about as it is in the round of the child (`Inv`), and the
answers are right in every state of every run. When no message is on the way and all tasks have put
their values, there is no `slurmstepd` left that waits (`ring_right`).
-/

namespace Slurm

open CString HeapTree Function List RingStep Nat

namespace RingSys

variable {V : Type*} {step : RingStep} {s : RingSys V}

/-! ## The invariant -/

variable (s) in
/-- The round of a `slurmstepd`. -/
def round (rank : ℕ) : ℕ := (s.answers (rank, 0)).length

variable (s) in
/-- What a `slurmstepd` has of a child. -/
def slot (rank i : ℕ) : RingMsg V := (s.stepd rank).msgs i

variable (step s) in
/-- All messages of the round are there. -/
def Full (rank : ℕ) : Prop := (s.stepd rank).ringCount = step.ringChildren rank

variable (s) in
/-- The tasks of a part have put their values in a round. -/
def Entered (k : ℕ) (part : List (ℕ × ℕ)) : Prop := ∀ task ∈ part, k < (s.values task).length

variable (step s) in
/-- A message that tells the place of the tasks below a node in a round. -/
def IsPlace (k rank : ℕ) (msg : RingMsg V) : Prop :=
  ∃ pre post, step.order = pre ++ (step.tasks rank ++ post) ∧
    msg = placeMsg step.order (s.value k) pre post

variable (step s) in
/-- Where the messages between a child and its parent are. -/
inductive Edge (c : ℕ) : Prop
  | idle (hround : s.round c = s.round (parent step.arity c)) (hfull : ¬s.Full step c)
    (hup : s.up c = []) (hdown : s.down c = [])
    (hslot : s.slot (parent step.arity c) (step.childId c) = {})
  | sent (hround : s.round c = s.round (parent step.arity c)) (hfull : s.Full step c)
    (hup : s.up c = [partMsg (s.value (s.round c)) (step.tasks c)])
    (hentered : s.Entered (s.round c) (step.tasks c)) (hdown : s.down c = [])
    (hslot : s.slot (parent step.arity c) (step.childId c) = {})
  | held (hround : s.round c = s.round (parent step.arity c)) (hfull : s.Full step c)
    (hup : s.up c = []) (hdown : s.down c = [])
    (hslot : (s.slot (parent step.arity c) (step.childId c)).count ≠ 0)
  | returned (hround : s.round c + 1 = s.round (parent step.arity c)) (hfull : s.Full step c)
    (hup : s.up c = []) (msg : RingMsg V) (hdown : s.down c = [msg])
    (hplace : s.IsPlace step (s.round c) c msg)
    (hslot : s.slot (parent step.arity c) (step.childId c) = {})

variable (step s) in
/-- Nothing is on the way between a `slurmstepd` and its parent, in whose round it has `k` answers
    less. -/
def Behind (k rank : ℕ) : Prop :=
  s.round rank + k = s.round (parent step.arity rank) ∧ s.up rank = [] ∧ s.down rank = [] ∧
    s.slot (parent step.arity rank) (step.childId rank) = {}

variable (s) in
/-- A task is at rest, or its value of the round is there. -/
def TaskOk (rank lrank : ℕ) : Prop :=
  (s.answers (rank, lrank)).length = s.round rank ∧
    ((s.slot rank lrank).count = 0 ∧ (s.values (rank, lrank)).length = s.round rank ∨
      (s.slot rank lrank).count ≠ 0 ∧ (s.values (rank, lrank)).length = s.round rank + 1)

variable (step s) in
/-- What holds of the child that the message `i` of a `slurmstepd` comes from. -/
def Source (rank i : ℕ) : Prop :=
  (i < step.ltasks rank → s.TaskOk rank i) ∧
    ∀ c, 0 < c → c < step.nnodes → parent step.arity c = rank → step.childId c = i → s.Edge step c

/-- What does not hold in the middle of an operation. -/
inductive Gap where
  | none
  | source (rank i : ℕ)
  | root
deriving DecidableEq

variable (step) in
/-- The message that a `slurmstepd` sends. -/
def own (rank : ℕ) : Gap :=
  if rank = 0 then .root else .source (parent step.arity rank) (step.childId rank)

variable (step s) in
/-- What holds in each state, but for a gap. -/
structure InvBut (gap : Gap) : Prop where
  count : ∀ rank < step.nnodes, (s.stepd rank).ringCount =
    ((List.range (step.parts rank).length).countP fun i => (s.slot rank i).count ≠ 0 : ℕ)
  slot : ∀ rank < step.nnodes, ∀ i part, (step.parts rank)[i]? = some part →
    s.slot rank i = {} ∨ s.slot rank i = partMsg (s.value (s.round rank)) part ∧
      s.Entered (s.round rank) part
  source : ∀ rank < step.nnodes, ∀ i < (step.parts rank).length, gap ≠ .source rank i →
    s.Source step rank i
  root : gap ≠ .root → ¬s.Full step 0
  stray : ∀ c, c = 0 ∨ step.nnodes ≤ c → s.up c = [] ∧ s.down c = []
  entered : ∀ rank < step.nnodes, ∀ task ∈ step.order, s.round rank ≤ (s.values task).length
  right : ∀ i task, step.order[i]? = some task → ∀ j < (s.answers task).length,
    (s.answers task)[j]? = some (s.neighbours step j i)

variable (step s) in
/-- What holds in each state. -/
def Inv : Prop := s.InvBut step .none

/-! ## What the gap leaves -/

variable {rank i c k : ℕ}

theorem own_ne_task {rank' : ℕ} (hi : i < step.ltasks rank') :
    own step rank ≠ .source rank' i := by
  rw [own]
  split_ifs
  · simp
  · rintro ⟨⟩
    exact absurd hi (not_lt.2 (le_add_right _ _))

/-- A place among the messages of a `slurmstepd` belongs to one child. -/
theorem childId_inj {d : ℕ} (hc : 0 < c) (hcn : c < step.nnodes) (hd : 0 < d)
    (hdn : d < step.nnodes) (hparent : parent step.arity c = parent step.arity d)
    (hid : step.childId c = step.childId d) : c = d := by
  have hmemc := (mem_children step.arity_pos).2 ⟨hc, hcn, rfl⟩
  have hmemd := (mem_children step.arity_pos).2 ⟨hd, hdn, rfl⟩
  rw [children, mem_range'_1] at hmemc hmemd
  rw [childId, childId, hparent] at hid
  rw [hparent] at hmemc
  omega

theorem own_ne_child (hrank : rank < step.nnodes) (hc : 0 < c) (hcn : c < step.nnodes)
    (hne : c ≠ rank) : own step rank ≠ .source (parent step.arity c) (step.childId c) := by
  rw [own]
  split_ifs with hzero
  · simp
  · intro heq
    obtain ⟨hparent, hid⟩ := Gap.source.inj heq
    exact hne (childId_inj hc hcn (Nat.pos_of_ne_zero hzero) hrank hparent.symm hid.symm)

theorem InvBut.taskOk {gap : Gap} {lrank : ℕ} (h : s.InvBut step gap)
    (hrank : rank < step.nnodes) (hlrank : lrank < step.ltasks rank)
    (hgap : gap ≠ .source rank lrank) : s.TaskOk rank lrank :=
  (h.source rank hrank lrank (by rw [length_parts]; omega) hgap).1 hlrank

theorem InvBut.edge {gap : Gap} (h : s.InvBut step gap) (hc : 0 < c) (hcn : c < step.nnodes)
    (hgap : gap ≠ .source (parent step.arity c) (step.childId c)) : s.Edge step c :=
  (h.source _ ((parent_lt hc).trans hcn) _
    (List.getElem?_eq_some_iff.1 (parts_childId hc hcn)).1 hgap).2 c hc hcn rfl rfl

/-! ## Messages of parts -/

section

variable {α : Type*} {val val' : α → Option V} {part : List α}

theorem bind_congr_of_mem (h : ∀ a ∈ part, val a = val' a) (o : Option α)
    (ho : ∀ a ∈ o, a ∈ part) : o.bind val = o.bind val' := by
  cases o with
  | none => rfl
  | some a => exact h a (ho a rfl)

theorem partMsg_congr (h : ∀ a ∈ part, val a = val' a) :
    partMsg val part = partMsg val' part := by
  rw [partMsg, partMsg, bind_congr_of_mem h _ fun a ha => mem_of_mem_head? ha,
    bind_congr_of_mem h _ fun a ha => mem_of_mem_getLast? ha]

theorem placeMsg_congr {ring pre post : List α} (h : ∀ a ∈ ring, val a = val' a)
    (hpre : pre ⊆ ring) (hpost : post ⊆ ring) :
    placeMsg ring val pre post = placeMsg ring val' pre post := by
  rw [placeMsg, placeMsg, bind_congr_of_mem h, bind_congr_of_mem h]
  · intro a ha
    rcases mem_append.1 (mem_of_mem_head? ha) with ha | ha
    · exact hpost ha
    · exact ha
  · intro a ha
    rcases mem_append.1 (mem_of_mem_getLast? ha) with ha | ha
    · exact ha
    · exact hpre ha

theorem count_partMsg (h : part ≠ []) : (partMsg val part).count ≠ 0 := by
  have hpos := length_pos_iff.2 h
  simp only [partMsg]
  omega

end

/-! ## A `slurmstepd` that has all its messages -/

/-- The counts of the parts add up. -/
theorem foldl_count {α : Type*} {val : α → Option V} {ps : List (List α)} {n : ℕ}
    (hlt : n + ps.flatten.length < 2 ^ 31) :
    (ps.map (partMsg val)).foldl (fun sum msg => toUInt (sum + toUInt msg.count)) n =
      n + ps.flatten.length := by
  induction ps generalizing n with
  | nil => simp
  | cons p ps ih =>
    rw [flatten_cons, length_append] at hlt ⊢
    have hp : toUInt (partMsg val p).count = p.length := toUInt_natCast (by omega)
    rw [map_cons, foldl_cons, hp, ← cast_add, toUInt_natCast (by omega), ih (by omega), add_assoc]

section

variable {gap : Gap} {rank : ℕ} (h : s.InvBut step gap) (hstep : step.Narrow)
  (hrank : rank < step.nnodes)

include h hstep hrank

theorem InvBut.full_iff :
    s.Full step rank ↔ ∀ i < (step.parts rank).length, (s.slot rank i).count ≠ 0 := by
  rw [Full, h.count rank hrank, hstep.ringChildren_eq hrank, Nat.cast_inj]
  conv_lhs => rhs; rw [← length_range (n := (step.parts rank).length)]
  rw [countP_eq_length]
  simp

variable (hfull : s.Full step rank)

include hfull

theorem InvBut.slot_of_full {i : ℕ} {part : List (ℕ × ℕ)}
    (hpart : (step.parts rank)[i]? = some part) :
    s.slot rank i = partMsg (s.value (s.round rank)) part ∧ s.Entered (s.round rank) part := by
  have hi := (List.getElem?_eq_some_iff.1 hpart).1
  rcases h.slot rank hrank i part hpart with hempty | hslot
  · exact absurd (by rw [hempty]) ((h.full_iff hstep hrank).1 hfull i hi)
  · exact hslot

theorem InvBut.ringMsgs_eq :
    s.ringMsgs step rank = (step.parts rank).map (partMsg (s.value (s.round rank))) := by
  refine ext_getElem? fun i => ?_
  rw [ringMsgs, hstep.ringChildren_eq hrank, Int.toNat_natCast, getElem?_map, getElem?_map]
  rcases lt_or_ge i (step.parts rank).length with hi | hi
  · have hpart := getElem?_eq_getElem hi
    rw [getElem?_range hi, hpart]
    exact congrArg some (h.slot_of_full hstep hrank hfull hpart).1
  · rw [getElem?_eq_none (by simpa using hi), getElem?_eq_none hi]
    rfl

theorem InvBut.entered_parts :
    ∀ part ∈ step.parts rank, s.Entered (s.round rank) part := by
  intro part hpart
  obtain ⟨i, hi⟩ := getElem?_of_mem hpart
  exact (h.slot_of_full hstep hrank hfull hi).2

theorem InvBut.entered_tasks :
    s.Entered (s.round rank) (step.tasks rank) := by
  intro task htask
  rw [← flatten_parts hrank, mem_flatten] at htask
  obtain ⟨part, hpart, htask⟩ := htask
  exact h.entered_parts hstep hrank hfull part hpart task htask

/-- The message that is sent when all messages are there. -/
theorem InvBut.sum_eq :
    (⟨toInt ((s.ringMsgs step rank).foldl (fun sum msg => toUInt (sum + toUInt msg.count)) 0 : ℕ),
        ((s.stepd rank).msgs 0).left,
        ((s.stepd rank).msgs (step.ringChildren rank - 1).toNat).right⟩ : RingMsg V) =
      partMsg (s.value (s.round rank)) (step.tasks rank) := by
  have htasks := flatten_parts hrank
  have hlen := ((nodup_tasks hrank).subperm (tasks_subset hrank)).length_le
  have hlt := hlen.trans_lt hstep.length_order_lt
  have hne : step.parts rank ≠ [] := by
    intro hnil
    rw [hnil] at htasks
    exact tasks_ne hrank htasks.symm
  have hcount : (s.ringMsgs step rank).foldl (fun sum msg => toUInt (sum + toUInt msg.count)) 0 =
      (step.tasks rank).length := by
    rw [h.ringMsgs_eq hstep hrank hfull, foldl_count (by rw [htasks]; omega), htasks, zero_add]
  have hleft : ((s.stepd rank).msgs 0).left =
      (step.tasks rank).head?.bind (s.value (s.round rank)) := by
    obtain ⟨first, rest, hparts⟩ := exists_cons_of_ne_nil hne
    have hfirst := ne_of_mem_parts (hparts ▸ mem_cons_self : first ∈ step.parts rank)
    have hslot := (h.slot_of_full hstep hrank hfull (i := 0) (by rw [hparts]; rfl)).1
    rw [← htasks, hparts, flatten_cons, head?_append_of_ne_nil _ hfirst]
    exact congrArg RingMsg.left hslot
  have hright : ((s.stepd rank).msgs (step.ringChildren rank - 1).toNat).right =
      (step.tasks rank).getLast?.bind (s.value (s.round rank)) := by
    obtain ⟨init, last, hparts⟩ := (eq_nil_or_concat (step.parts rank)).resolve_left hne
    have hlast := ne_of_mem_parts (hparts ▸ by simp : last ∈ step.parts rank)
    have hget : (step.parts rank)[init.length]? = some last := by
      rw [hparts]
      simp
    have hslot := (h.slot_of_full hstep hrank hfull hget).1
    have hindex : (step.ringChildren rank - 1).toNat = init.length := by
      rw [hstep.ringChildren_eq hrank, hparts]
      simp
    rw [← htasks, hparts, hindex, concat_eq_append, flatten_append,
      flatten_singleton, getLast?_append_of_ne_nil _ hlast]
    exact congrArg RingMsg.right hslot
  rw [hcount, hleft, hright, toInt_eq (by omega) (by omega)]
  rfl

end

/-! ## States that differ little -/

section

variable {s' : RingSys V} {part : List (ℕ × ℕ)}

/-- The values that were put stay. -/
def Grows (s s' : RingSys V) : Prop := ∀ task, s.values task <+: s'.values task

theorem Grows.of_eq (h : s'.values = s.values) : Grows s s' := fun _ =>
  h ▸ prefix_refl _

theorem Grows.value_eq (h : Grows s s') {task : ℕ × ℕ} (hk : k < (s.values task).length) :
    s.value k task = s'.value k task := by
  obtain ⟨rest, hrest⟩ := h task
  rw [value, value, ← hrest, getElem?_append_left hk]

theorem Grows.entered (h : Grows s s') (hpart : s.Entered k part) :
    s'.Entered k part :=
  fun task htask => (hpart task htask).trans_le (h task).length_le

theorem Grows.partMsg_eq (h : Grows s s') (hpart : s.Entered k part) :
    partMsg (s.value k) part = partMsg (s'.value k) part :=
  partMsg_congr fun task htask => h.value_eq (hpart task htask)

theorem Grows.isPlace (h : Grows s s') {msg : RingMsg V}
    (hall : s.Entered k step.order) (hplace : s.IsPlace step k rank msg) :
    s'.IsPlace step k rank msg := by
  obtain ⟨pre, post, horder, rfl⟩ := hplace
  refine ⟨pre, post, horder, placeMsg_congr (fun task htask => h.value_eq (hall task htask)) ?_ ?_⟩
  · intro task htask
    rw [horder]
    exact mem_append_left _ htask
  · intro task htask
    rw [horder]
    exact mem_append_right _ (mem_append_right _ htask)

theorem Grows.neighbours_eq (h : Grows s s') {i : ℕ} (hall : s.Entered k step.order) :
    s.neighbours step k i = s'.neighbours step k i := by
  have hval : ∀ task ∈ step.order, s.value k task = s'.value k task :=
    fun task htask => h.value_eq (hall task htask)
  simp only [neighbours]
  rw [bind_congr_of_mem hval _ fun a ha => mem_of_getElem? ha,
    bind_congr_of_mem hval _ fun a ha => mem_of_getElem? ha]

/-- Only the state of a child and of its parent matter for the messages between them. -/
theorem Edge.congr {c : ℕ} (h : s.Edge step c) (hgrows : Grows s s')
    (hall : ∀ task ∈ step.order, s.round (parent step.arity c) ≤ (s.values task).length)
    (hround : s'.round c = s.round c)
    (hparent : s'.round (parent step.arity c) = s.round (parent step.arity c))
    (hfull : s'.Full step c ↔ s.Full step c) (hup : s'.up c = s.up c) (hdown : s'.down c = s.down c)
    (hslot : s'.slot (parent step.arity c) (step.childId c) =
      s.slot (parent step.arity c) (step.childId c)) : s'.Edge step c := by
  cases h with
  | idle hround' hfull' hup' hdown' hslot' =>
    exact .idle (by omega) (by rwa [hfull]) (hup.trans hup') (hdown.trans hdown')
      (hslot.trans hslot')
  | sent hround' hfull' hup' hentered hdown' hslot' =>
    refine .sent (by omega) (hfull.2 hfull') ?_ ?_ (hdown.trans hdown') (hslot.trans hslot')
    · rw [hup, hup', hround, hgrows.partMsg_eq hentered]
    · rw [hround]
      exact hgrows.entered hentered
  | held hround' hfull' hup' hdown' hslot' =>
    exact .held (by omega) (hfull.2 hfull') (hup.trans hup') (hdown.trans hdown') (by rwa [hslot])
  | returned hround' hfull' hup' msg hdown' hplace hslot' =>
    refine .returned (by omega) (hfull.2 hfull') (hup.trans hup') msg (hdown.trans hdown') ?_
      (hslot.trans hslot')
    rw [hround]
    refine hgrows.isPlace (fun task htask => ?_) hplace
    have hle := hall task htask
    omega

theorem TaskOk.congr {lrank : ℕ} (h : s.TaskOk rank lrank)
    (hvalues : s'.values (rank, lrank) = s.values (rank, lrank))
    (hanswers : s'.answers (rank, lrank) = s.answers (rank, lrank))
    (hround : s'.round rank = s.round rank) (hslot : s'.slot rank lrank = s.slot rank lrank) :
    s'.TaskOk rank lrank := by
  rwa [TaskOk, hvalues, hanswers, hround, hslot]

end

/-! ## Recording a message -/

section

variable {rank i : ℕ} {msg : RingMsg V}

theorem slot_record_self : (s.record rank i msg).slot rank i = msg := by
  simp [slot, record]

theorem slot_record_of_ne {rank' j : ℕ} (hne : (rank', j) ≠ (rank, i)) :
    (s.record rank i msg).slot rank' j = s.slot rank' j := by
  rw [slot, slot, record]
  by_cases hrank : rank' = rank
  · subst hrank
    have hj : j ≠ i := fun hj => hne (by rw [hj])
    simp [hj]
  · simp [hrank]

theorem full_record_of_ne {rank' : ℕ} (hne : rank' ≠ rank) :
    (s.record rank i msg).Full step rank' ↔ s.Full step rank' := by
  rw [Full, Full, record]
  simp [hne]

/-- A message that is recorded in an empty place is counted. -/
theorem countP_record (hi : i < (step.parts rank).length) (hempty : (s.slot rank i).count = 0)
    (hmsg : msg.count ≠ 0) :
    (range (step.parts rank).length).countP
        (fun j => ((s.record rank i msg).slot rank j).count ≠ 0) =
      (range (step.parts rank).length).countP (fun j => (s.slot rank j).count ≠ 0) + 1 := by
  have hchange := Count.countP_change
    (Q := fun j => ((s.record rank i msg).slot rank j).count ≠ 0) nodup_range
    (mem_range.2 hi) fun j _ hj => by
      rw [slot_record_of_ne fun heq => hj (Prod.mk.inj heq).2]
  rw [if_neg (by simpa using hempty), slot_record_self, if_pos hmsg] at hchange
  exact hchange

variable (step s rank i msg) in
/-- A message about a part has come, and its place is free. -/
structure Arrives (part : List (ℕ × ℕ)) : Prop where
  place : (step.parts rank)[i]? = some part
  empty : s.slot rank i = {}
  told : msg = partMsg (s.value (s.round rank)) part
  entered : s.Entered (s.round rank) part
  source : (s.record rank i msg).Source step rank i

/-- What holds when a message was recorded, and the one that depends on it not yet sent. -/
theorem InvBut.record (h : s.InvBut step (.source rank i)) (hstep : step.Narrow)
    (hrank : rank < step.nnodes) {part : List (ℕ × ℕ)} (harr : s.Arrives step rank i msg part) :
    (s.record rank i msg).InvBut step (own step rank) where
  count rank' hrank' := by
    by_cases hne : rank' = rank
    · subst hne
      have hi := (List.getElem?_eq_some_iff.1 harr.place).1
      have hlt := hstep.length_parts_lt hrank
      have hle := countP_le_length (l := range (step.parts rank').length)
        (p := fun j => decide (((s.record rank' i msg).slot rank' j).count ≠ 0))
      have hcount : msg.count ≠ 0 :=
        harr.told ▸ count_partMsg (ne_of_mem_parts (mem_of_getElem? harr.place))
      rw [countP_record hi (by rw [harr.empty]) hcount, length_range] at hle
      rw [countP_record hi (by rw [harr.empty]) hcount]
      simp only [Slurm.RingSys.record, update_self]
      rw [h.count rank' hrank, toInt_eq (by omega) (by omega)]
      rfl
    · have hslots : (fun j => decide (((s.record rank i msg).slot rank' j).count ≠ 0)) =
          fun j => decide ((s.slot rank' j).count ≠ 0) := by
        funext j
        rw [slot_record_of_ne fun heq => hne (Prod.mk.inj heq).1]
      rw [hslots, ← h.count rank' hrank']
      simp [Slurm.RingSys.record, hne]
  slot rank' hrank' j part' hpart' := by
    by_cases hne : (rank', j) = (rank, i)
    · cases hne
      rw [harr.place] at hpart'
      cases hpart'
      rw [slot_record_self]
      exact .inr ⟨harr.told, harr.entered⟩
    · rw [slot_record_of_ne hne]
      exact h.slot rank' hrank' j part' hpart'
  source rank' hrank' j hj hgap := by
    by_cases hne : (rank', j) = (rank, i)
    · cases hne
      exact harr.source
    · have hslot : (s.record rank i msg).slot rank' j = s.slot rank' j := slot_record_of_ne hne
      obtain ⟨htask, hedge⟩ := h.source rank' hrank' j hj fun heq => hne (by cases heq; rfl)
      refine ⟨fun hlt => (htask hlt).congr rfl rfl rfl hslot, fun c hc hcn hparent hid => ?_⟩
      have hcr : c ≠ rank := by
        rintro rfl
        rw [own, if_neg (by omega), hparent, hid] at hgap
        exact hgap rfl
      subst hparent hid
      exact (hedge c hc hcn rfl rfl).congr (.of_eq rfl) (h.entered _ hrank') rfl rfl
        (full_record_of_ne hcr) rfl rfl hslot
  root hgap := by
    have hrank0 : 0 ≠ rank := by
      rintro rfl
      exact hgap (by rw [own, if_pos rfl])
    rw [full_record_of_ne hrank0]
    exact h.root (by simp)
  stray := h.stray
  entered := h.entered
  right := h.right

end

/-! ## Places of parts -/

/-- The place of a task in the ring tells its rank and its neighbours. -/
theorem placeMsg_task {pre post : List (ℕ × ℕ)} {task : ℕ × ℕ}
    (h : step.order = pre ++ (task :: post)) :
    placeMsg step.order (s.value k) pre post = s.neighbours step k pre.length := by
  have hlen : step.order.length = pre.length + (post.length + 1) := by
    rw [h, length_append, length_cons]
  have hleft : (step.order ++ pre).getLast? =
      step.order[(pre.length + step.order.length - 1) % step.order.length]? := by
    rcases eq_nil_or_concat pre with rfl | ⟨init, last, rfl⟩
    · rw [append_nil, getLast?_eq_getElem?, length_nil, zero_add, mod_eq_of_lt (by omega)]
    · have hindex : ((init.concat last).length + step.order.length - 1) % step.order.length =
          init.length := by
        rw [length_concat, Nat.add_right_comm, Nat.add_sub_cancel, Nat.add_mod_right]
        rw [length_concat] at hlen
        exact mod_eq_of_lt (by omega)
      have hlast : (step.order ++ init.concat last).getLast? = some last := by
        rw [concat_eq_append, ← append_assoc, getLast?_concat]
      rw [hindex, hlast, h]
      simp
  have hright : (post ++ step.order).head? = step.order[(pre.length + 1) % step.order.length]? := by
    cases post with
    | nil =>
      rw [length_nil] at hlen
      rw [hlen, mod_self, nil_append, head?_eq_getElem?]
    | cons next post =>
      rw [length_cons] at hlen
      rw [mod_eq_of_lt (by omega), h]
      simp
  rw [placeMsg, neighbours, hleft, hright]

theorem flatten_split {α : Type*} {ps : List (List α)} {p : List α} (h : ps[i]? = some p) :
    ps.flatten = (ps.take i).flatten ++ (p ++ (ps.drop (i + 1)).flatten) := by
  obtain ⟨hi, rfl⟩ := List.getElem?_eq_some_iff.1 h
  rw [← flatten_cons, ← drop_eq_getElem_cons hi, ← flatten_append, take_append_drop]

/-- From the place of all tasks below a node, `pmix_ring_out` tells the places of the parts. -/
theorem IsPlace.outMsgs {msg : RingMsg V} {part : List (ℕ × ℕ)}
    (h : s.IsPlace step k rank msg) (hstep : step.Narrow) (hrank : rank < step.nnodes)
    (hentered : ∀ part ∈ step.parts rank, s.Entered k part)
    (hpart : (step.parts rank)[i]? = some part) :
    ∃ pre post, step.order = pre ++ (part ++ post) ∧
      (outMsgs msg.count msg.left msg.right ((step.parts rank).map (partMsg (s.value k))))[i]? =
        some (placeMsg step.order (s.value k) pre post) := by
  obtain ⟨pre, post, horder, rfl⟩ := h
  rw [← flatten_parts hrank] at horder
  refine ⟨pre ++ ((step.parts rank).take i).flatten,
    ((step.parts rank).drop (i + 1)).flatten ++ post, ?_, ?_⟩
  · conv_lhs => rw [horder, flatten_split hpart]
    simp
  · refine outMsgs_parts (fun _ => ne_of_mem_parts) ?_ ?_ (List.getElem?_eq_some_iff.1 hpart).1
    · intro part hpart task htask
      rw [value, isSome_getElem?]
      exact hentered part hpart task htask
    · have hlt := hstep.length_order_lt
      rw [horder, ← append_assoc, length_append] at hlt
      omega

/-! ## Messages down the tree -/

theorem foldl_range_update {β : Type*} (down : ℕ → List β) (f : ℕ → β) (b k c : ℕ) :
    (range k).foldl (fun d i => update d (b + i) (d (b + i) ++ [f i])) down c =
      if b ≤ c ∧ c < b + k then down c ++ [f (c - b)] else down c := by
  induction k with
  | zero => simp
  | succ k ih =>
    rw [range_succ, foldl_append, foldl_cons, foldl_nil, update_apply]
    split_ifs with hc hin hin
    · subst hc
      rw [ih, if_neg (by omega), Nat.add_sub_cancel_left]
    · omega
    · rw [ih, if_pos (by omega)]
    · rw [ih, if_neg (by omega)]

section

variable {rank : ℕ} {count : ℤ} {left right : Option V} {outs : List (RingMsg V)} {c : ℕ}

section

variable (hstep : step.Narrow)

include hstep

theorem sendDown_apply (hrank : rank < step.nnodes) :
    s.sendDown step rank outs c = if rank * step.arity + 1 ≤ c ∧
          c < rank * step.arity + 1 + numChildren step.arity step.nnodes rank then
        s.down c ++ [outs.getD (step.ltasks rank + (c - (rank * step.arity + 1))) {}]
      else s.down c := by
  rw [← foldl_range_update s.down fun i => outs.getD (step.ltasks rank + i) {}, sendDown,
    hstep.stepdChildren_eq hrank, Int.toNat_natCast]
  refine congrFun (foldl_ext _ _ _ fun down i hi => ?_) c
  rw [hstep.rankChild_eq hrank (mem_range.1 hi)]

theorem sendDown_child (hc : 0 < c) (hcn : c < step.nnodes) :
    s.sendDown step (parent step.arity c) outs c = s.down c ++ [outs.getD (step.childId c) {}] := by
  have hmem := (mem_children step.arity_pos).2 ⟨hc, hcn, rfl⟩
  rw [children, mem_range'_1] at hmem
  rw [sendDown_apply hstep ((parent_lt hc).trans hcn), if_pos hmem, childId]

theorem sendDown_of_ne (hrank : rank < step.nnodes)
    (h : ¬(0 < c ∧ c < step.nnodes ∧ parent step.arity c = rank)) :
    s.sendDown step rank outs c = s.down c := by
  rw [← mem_children step.arity_pos, children, mem_range'_1] at h
  rw [sendDown_apply hstep hrank, if_neg h]

end

theorem round_ringOut_self (hrank : rank < step.nnodes) :
    (s.ringOut step rank count left right).round rank = s.round rank + 1 := by
  rw [round, ringOut]
  simp only [step.ltasks_pos rank hrank, and_self, if_true, length_append, length_singleton]
  rfl

theorem round_ringOut_of_ne (h : c ≠ rank) :
    (s.ringOut step rank count left right).round c = s.round c := by
  rw [round, ringOut]
  simp only [h, false_and, if_false]
  rfl

theorem slot_ringOut_self :
    (s.ringOut step rank count left right).slot rank i = {} := by
  simp [slot, ringOut]

theorem slot_ringOut_of_ne (h : c ≠ rank) :
    (s.ringOut step rank count left right).slot c i = s.slot c i := by
  simp [slot, ringOut, h]

theorem full_ringOut_of_ne (h : c ≠ rank) :
    (s.ringOut step rank count left right).Full step c ↔ s.Full step c := by
  rw [Full, Full, ringOut]
  simp [h]

theorem not_full_ringOut (hstep : step.Narrow) (hrank : rank < step.nnodes) :
    ¬(s.ringOut step rank count left right).Full step rank := by
  have hpos := step.ltasks_pos rank hrank
  rw [Full, hstep.ringChildren_eq hrank, length_parts, ringOut]
  simp only [update_self]
  omega

theorem answers_ringOut_of_ne {task : ℕ × ℕ} (h : task.1 ≠ rank) :
    (s.ringOut step rank count left right).answers task = s.answers task := by
  rw [ringOut]
  simp [h]

section

variable {msg : RingMsg V} (h : s.InvBut step (own step rank)) (hstep : step.Narrow)
  (hrank : rank < step.nnodes) (hfull : s.Full step rank)
  (hplace : s.IsPlace step (s.round rank) rank msg)

include h hstep hrank hfull hplace

/-- The answers to the tasks of a `slurmstepd`. -/
theorem InvBut.answers_ringOut {i lrank : ℕ} (hi : step.order[i]? = some (rank, lrank)) :
    (s.ringOut step rank msg.count msg.left msg.right).answers (rank, lrank) =
      s.answers (rank, lrank) ++ [s.neighbours step (s.round rank) i] := by
  have hlrank : lrank < step.ltasks rank := (mem_order.1 (mem_of_getElem? hi)).2
  obtain ⟨pre, post, horder, hget⟩ := hplace.outMsgs hstep hrank (h.entered_parts hstep hrank hfull)
    (parts_task hlrank)
  rw [singleton_append] at horder
  have hindex : i = pre.length := by
    refine (List.getElem?_inj (List.getElem?_eq_some_iff.1 hi).1 step.nodup_order).1 ?_
    rw [hi, horder]
    simp
  rw [ringOut]
  simp only [hlrank, and_self, if_true]
  rw [h.ringMsgs_eq hstep hrank hfull, getD_eq_getElem?_getD, hget, hindex, placeMsg_task horder]
  rfl

theorem InvBut.edge_ringOut (hbehind : 0 < rank → s.Behind step 1 rank) (hc : 0 < c)
    (hcn : c < step.nnodes) :
    (s.ringOut step rank msg.count msg.left msg.right).Edge step c := by
  have hpn : parent step.arity c < step.nnodes := (parent_lt hc).trans hcn
  by_cases hcr : c = rank
  · subst hcr
    obtain ⟨hround, hup, hdown, hslot⟩ := hbehind hc
    have hne : parent step.arity c ≠ c := (parent_lt hc).ne
    refine .idle ?_ (not_full_ringOut hstep hrank) hup ?_ ?_
    · rw [round_ringOut_self hrank, round_ringOut_of_ne hne, hround]
    · exact (sendDown_of_ne hstep hrank fun hparent => hne hparent.2.2).trans hdown
    · rw [slot_ringOut_of_ne hne, hslot]
  have hedge := h.edge hc hcn (own_ne_child hrank hc hcn hcr)
  by_cases hpr : parent step.arity c = rank
  · subst hpr
    have hcount := (h.full_iff hstep hpn).1 hfull _
      (List.getElem?_eq_some_iff.1 (parts_childId hc hcn)).1
    cases hedge with
    | idle _ _ _ _ hslot => exact absurd (by rw [hslot]) hcount
    | sent _ _ _ _ _ hslot => exact absurd (by rw [hslot]) hcount
    | returned _ _ _ _ _ _ hslot => exact absurd (by rw [hslot]) hcount
    | held hround hfullc hup hdown _ =>
      obtain ⟨pre, post, horder, hget⟩ := hplace.outMsgs hstep hpn (h.entered_parts hstep hpn hfull)
        (parts_childId hc hcn)
      refine .returned ?_ ((full_ringOut_of_ne hcr).2 hfullc) hup _
        ((sendDown_child hstep hc hcn).trans (by rw [hdown]; rfl)) ?_ slot_ringOut_self
      · rw [round_ringOut_self hpn, round_ringOut_of_ne hcr, hround]
      · refine ⟨pre, post, horder, ?_⟩
        rw [h.ringMsgs_eq hstep hpn hfull, getD_eq_getElem?_getD, hget,
          round_ringOut_of_ne hcr, hround]
        rfl
  · exact hedge.congr (.of_eq rfl) (h.entered _ hpn) (round_ringOut_of_ne hcr)
      (round_ringOut_of_ne hpr) (full_ringOut_of_ne hcr) rfl
      (sendDown_of_ne hstep hrank fun hparent => hpr hparent.2.2) (slot_ringOut_of_ne hpr)

theorem InvBut.taskOk_ringOut {rank' lrank : ℕ} (hrank' : rank' < step.nnodes)
    (hlrank : lrank < step.ltasks rank') :
    (s.ringOut step rank msg.count msg.left msg.right).TaskOk rank' lrank := by
  have hok := h.taskOk hrank' hlrank (own_ne_task hlrank)
  by_cases hne : rank' = rank
  · subst hne
    have hmem : (rank', lrank) ∈ step.order := mem_order.2 ⟨hrank, hlrank⟩
    obtain ⟨i, hi⟩ := getElem?_of_mem hmem
    have hcount := (h.full_iff hstep hrank).1 hfull lrank (by rw [length_parts]; omega)
    obtain ⟨hanswers, ⟨hempty, -⟩ | ⟨-, hvalues⟩⟩ := hok
    · exact absurd hempty hcount
    · refine ⟨?_, .inl ⟨?_, ?_⟩⟩
      · rw [h.answers_ringOut hstep hrank hfull hplace hi, round_ringOut_self hrank,
          length_append, hanswers, length_singleton]
      · rw [slot_ringOut_self]
      · rw [round_ringOut_self hrank]
        exact hvalues
  · exact hok.congr rfl (answers_ringOut_of_ne hne) (round_ringOut_of_ne hne)
      (slot_ringOut_of_ne hne)

/-- A `slurmstepd` that has all its messages, and is told the place of the tasks below it, ends its
    round. -/
theorem InvBut.ringOut (hbehind : 0 < rank → s.Behind step 1 rank)
    (hall : s.Entered (s.round rank) step.order) :
    (s.ringOut step rank msg.count msg.left msg.right).Inv step where
  count rank' hrank' := by
    by_cases hne : rank' = rank
    · subst hne
      simp only [slot_ringOut_self, ne_eq, not_true_eq_false, decide_false, countP_false]
      simp [Slurm.RingSys.ringOut]
    · simp only [slot_ringOut_of_ne hne]
      rw [← h.count rank' hrank']
      simp [Slurm.RingSys.ringOut, hne]
  slot rank' hrank' i part hpart := by
    by_cases hne : rank' = rank
    · subst hne
      exact .inl slot_ringOut_self
    · rw [slot_ringOut_of_ne hne, round_ringOut_of_ne hne]
      exact h.slot rank' hrank' i part hpart
  source rank' hrank' i hi _ := by
    refine ⟨h.taskOk_ringOut hstep hrank hfull hplace hrank', fun c hc hcn _ _ => ?_⟩
    exact h.edge_ringOut hstep hrank hfull hplace hbehind hc hcn
  root _ := by
    rcases eq_or_ne 0 rank with rfl | hne
    · exact not_full_ringOut hstep hrank
    · rw [full_ringOut_of_ne hne]
      exact h.root (by rw [own, if_neg hne.symm]; simp)
  stray c hc := by
    obtain ⟨hup, hdown⟩ := h.stray c hc
    exact ⟨hup, (sendDown_of_ne hstep hrank (by omega)).trans hdown⟩
  entered rank' hrank' task htask := by
    by_cases hne : rank' = rank
    · subst hne
      rw [round_ringOut_self hrank]
      exact hall task htask
    · rw [round_ringOut_of_ne hne]
      exact h.entered rank' hrank' task htask
  right i task hi j hj := by
    obtain ⟨rank', lrank⟩ := task
    by_cases hne : rank' = rank
    · subst hne
      have hlrank : lrank < step.ltasks rank' := (mem_order.1 (mem_of_getElem? hi)).2
      have hlen := (h.taskOk hrank hlrank (own_ne_task hlrank)).1
      rw [h.answers_ringOut hstep hrank hfull hplace hi] at hj ⊢
      rw [length_append, length_singleton] at hj
      rcases lt_or_ge j (s.answers (rank', lrank)).length with hold | hnew
      · rw [getElem?_append_left hold]
        exact h.right i _ hi j hold
      · obtain rfl : j = s.round rank' := by omega
        rw [getElem?_append_right hnew, hlen, Nat.sub_self]
        rfl
    · rw [answers_ringOut_of_ne hne] at hj ⊢
      exact h.right i _ hi j hj

end

end

/-! ## The operations -/

section

variable {rank i lrank : ℕ} {msg : RingMsg V}

theorem Inv.weaken (h : s.Inv step) (gap : Gap) : s.InvBut step gap :=
  { h with
    source := fun rank hrank i hi _ => h.source rank hrank i hi (by simp)
    root := fun _ => h.root (by simp) }

/-- The gap is closed by what holds of the message that the `slurmstepd` sends. -/
theorem InvBut.close (h : s.InvBut step (own step rank)) (hrank : rank < step.nnodes)
    (hedge : 0 < rank → s.Edge step rank) (hroot : rank = 0 → ¬s.Full step 0) : s.Inv step :=
  { h with
    source := by
      refine fun rank' hrank' i _ _ => ⟨fun hi => h.taskOk hrank' hi (own_ne_task hi), ?_⟩
      intro c hc hcn _ _
      by_cases hcr : c = rank
      · subst hcr
        exact hedge hc
      · exact h.edge hc hcn (own_ne_child hrank hc hcn hcr)
    root := by
      intro _
      rcases Nat.eq_zero_or_pos rank with hzero | hpos
      · exact hroot hzero
      · exact h.root (by rw [own, if_neg hpos.ne']; simp) }

/-- Messages between a `slurmstepd` and its parent matter for nothing else. -/
theorem InvBut.of_channels (h : s.InvBut step (own step rank)) (hpos : 0 < rank)
    (hrank : rank < step.nnodes) (up down : List (RingMsg V)) :
    ({ s with up := update s.up rank up, down := update s.down rank down } :
      RingSys V).InvBut step (own step rank) where
  count := h.count
  slot := h.slot
  source rank' hrank' j hj hgap := by
    obtain ⟨htask, hedge⟩ := h.source rank' hrank' j hj hgap
    refine ⟨htask, fun c hc hcn hparent hid => ?_⟩
    have hcr : c ≠ rank := by
      rintro rfl
      rw [own, if_neg hc.ne', hparent, hid] at hgap
      exact hgap rfl
    subst hparent hid
    exact (hedge c hc hcn rfl rfl).congr (.of_eq rfl) (h.entered _ hrank') rfl rfl Iff.rfl
      (update_of_ne hcr _ _) (update_of_ne hcr _ _) rfl
  root := h.root
  stray c hc := by
    have hcr : c ≠ rank := by omega
    simp only [update_of_ne hcr]
    exact h.stray c hc
  entered := h.entered
  right := h.right

/-- What `pmix_ring_in` does after it has recorded a message. -/
theorem InvBut.complete (h : s.InvBut step (own step rank)) (hstep : step.Narrow)
    (hrank : rank < step.nnodes) (hidle : 0 < rank → s.Behind step 0 rank) :
    (s.complete step rank).Inv step := by
  rw [RingSys.complete]
  dsimp only
  split_ifs with hfull hpos
  · -- The message about all parts together is sent.
    obtain ⟨hround, hup, hdown, hslot⟩ := hidle hpos
    have hinv := h.of_channels hpos hrank [partMsg (s.value (s.round rank)) (step.tasks rank)]
      (s.down rank)
    rw [update_eq_self] at hinv
    rw [h.sum_eq hstep hrank hfull, hup, nil_append]
    refine hinv.close hrank (fun _ => ?_) fun hzero => absurd hpos (by omega)
    exact .sent hround hfull (update_self _ _ _) (h.entered_tasks hstep hrank hfull) hdown hslot
  · -- At the root, the ring is closed.
    obtain rfl : rank = 0 := by omega
    have hmsg := h.sum_eq hstep hrank hfull
    have hleft := congrArg RingMsg.left hmsg
    have hright := congrArg RingMsg.right hmsg
    have hplace : s.IsPlace step (s.round 0) 0 (placeMsg step.order (s.value (s.round 0)) [] []) :=
      ⟨[], [], by rw [order, nil_append, append_nil], rfl⟩
    have hinv := h.ringOut hstep hrank hfull hplace (by omega) (h.entered_tasks hstep hrank hfull)
    rw [placeMsg, append_nil, nil_append] at hinv
    rw [hleft, hright]
    exact hinv
  · refine h.close hrank (fun hpos => ?_) ?_
    · obtain ⟨hround, hup, hdown, hslot⟩ := hidle hpos
      exact .idle hround hfull hup hdown hslot
    · rintro rfl
      exact hfull

theorem InvBut.ringIn (h : s.InvBut step (.source rank i)) (hstep : step.Narrow)
    (hrank : rank < step.nnodes) {part : List (ℕ × ℕ)} (harr : s.Arrives step rank i msg part) :
    (s.ringIn step rank i msg).Inv step := by
  refine (h.record hstep hrank harr).complete hstep hrank fun hpos => ?_
  have hne : parent step.arity rank ≠ rank := (parent_lt hpos).ne
  -- A place was empty, so nothing was sent in this round.
  have hfull : ¬s.Full step rank := fun hfull =>
    (h.full_iff hstep hrank).1 hfull i (List.getElem?_eq_some_iff.1 harr.place).1 (by rw [harr.empty])
  rw [Behind, slot_record_of_ne fun heq => hne (Prod.mk.inj heq).1]
  cases h.edge hpos hrank fun heq => hne (Gap.source.inj heq).1.symm with
  | idle hround _ hup hdown hslot => exact ⟨hround, hup, hdown, hslot⟩
  | sent _ hfull' => exact absurd hfull' hfull
  | held _ hfull' => exact absurd hfull' hfull
  | returned _ hfull' => exact absurd hfull' hfull

/-- A task puts a value. -/
theorem Inv.put (h : s.Inv step) (v : V) :
    ({ s with values := update s.values (rank, lrank) (s.values (rank, lrank) ++ [v]) } :
      RingSys V).InvBut step (.source rank lrank) := by
  have hgrows : Grows s { s with
      values := update s.values (rank, lrank) (s.values (rank, lrank) ++ [v]) } := by
    intro task
    by_cases htask : task = (rank, lrank)
    · subst htask
      simp
    · simp [htask]
  refine ⟨h.count, fun rank' hrank' i part hpart => ?_, fun rank' hrank' i hi hgap => ?_,
    fun _ => h.root (by simp), h.stray, fun rank' hrank' task htask => ?_,
    fun i task hi j hj => ?_⟩
  · rcases h.slot rank' hrank' i part hpart with hempty | ⟨hslot, hentered⟩
    · exact .inl hempty
    · exact .inr ⟨hslot.trans (hgrows.partMsg_eq hentered), hgrows.entered hentered⟩
  · obtain ⟨htask, hedge⟩ := h.source rank' hrank' i hi (by simp)
    refine ⟨fun hlt => (htask hlt).congr (update_of_ne ?_ _ _) rfl rfl rfl, ?_⟩
    · rintro heq
      cases heq
      exact hgap rfl
    · rintro c hc hcn rfl rfl
      exact (hedge c hc hcn rfl rfl).congr hgrows (h.entered _ hrank') rfl rfl Iff.rfl rfl rfl rfl
  · exact (h.entered rank' hrank' task htask).trans (hgrows task).length_le
  · obtain ⟨hrank', hlrank⟩ := mem_order.1 (mem_of_getElem? hi)
    have hround : (s.answers task).length = s.round task.1 := (h.taskOk hrank' hlrank (by simp)).1
    refine (h.right i task hi j hj).trans (congrArg some (hgrows.neighbours_eq fun other hother => ?_))
    have hle := h.entered task.1 hrank' other hother
    simp only at hj
    omega

theorem Inv.enter (h : s.Inv step) (hstep : step.Narrow) (v : V) :
    (exec step s (.enter rank lrank v)).Inv step := by
  rw [exec]
  split_ifs with hok
  · obtain ⟨hrank, hlrank, hrest⟩ := hok
    have hpart := parts_task hlrank
    -- The task is at rest, so its place is empty.
    obtain ⟨hanswers, ⟨hcount, hvalues⟩ | ⟨-, hvalues⟩⟩ := h.taskOk hrank hlrank (by simp)
    · have hempty : s.slot rank lrank = {} := by
        rcases h.slot rank hrank lrank _ hpart with hempty | ⟨hslot, -⟩
        · exact hempty
        · rw [hslot] at hcount
          exact absurd hcount (count_partMsg (by simp))
      have hput : (update s.values (rank, lrank) (s.values (rank, lrank) ++ [v])
          (rank, lrank)).length = s.round rank + 1 := by
        rw [update_self, length_append, hvalues, length_singleton]
      refine (h.put v).ringIn hstep hrank
        ⟨hpart, hempty, ?_, ?_, fun _ => ?_, fun c _ _ hc hid => ?_⟩
      · have hvalue : (update s.values (rank, lrank) (s.values (rank, lrank) ++ [v])
            (rank, lrank))[s.round rank]? = some v := by
          rw [update_self, ← hvalues, getElem?_concat_length]
        exact congrArg₂ (RingMsg.mk 1) hvalue.symm hvalue.symm
      · intro task htask
        rw [mem_singleton.1 htask]
        exact hput.ge
      · refine ⟨hanswers, .inr ⟨?_, hput⟩⟩
        rw [slot_record_self]
        exact one_ne_zero
      · subst hc hid
        exact absurd hlrank (not_lt.2 (le_add_right _ _))
    · rw [AtRest] at hrest
      omega
  · exact h

/-- A `slurmstepd` between which and its parent messages are on the way. -/
theorem Inv.edge_of_mem (h : s.Inv step) (hmsg : msg ∈ s.up rank ∨ msg ∈ s.down rank) :
    0 < rank ∧ rank < step.nnodes ∧ s.Edge step rank := by
  have hbounds : 0 < rank ∧ rank < step.nnodes := by
    by_contra hstray
    obtain ⟨hup, hdown⟩ := h.stray rank (by omega)
    rw [hup, hdown] at hmsg
    simp at hmsg
  exact ⟨hbounds.1, hbounds.2, h.edge hbounds.1 hbounds.2 (by simp)⟩

theorem Inv.deliverUp (h : s.Inv step) (hstep : step.Narrow) :
    (exec step s (.deliverUp rank i)).Inv step := by
  rw [exec]
  split
  · exact h
  · rename_i msg hmsg
    obtain ⟨hpos, hrank, hedge⟩ := h.edge_of_mem (.inl (mem_of_getElem? hmsg))
    have hparent : parent step.arity rank < step.nnodes := (parent_lt hpos).trans hrank
    have hpart := parts_childId hpos hrank
    dsimp only
    rw [rankParent_eq hpos, hstep.ringIdByRank_eq hpos hrank]
    cases hedge with
    | idle _ _ hup => simp [hup] at hmsg
    | held _ _ hup => simp [hup] at hmsg
    | returned _ _ hup => simp [hup] at hmsg
    | sent hround hfull hup hentered hdown hslot =>
      rw [hup, getElem?_singleton] at hmsg
      obtain ⟨rfl, hmsg⟩ := Option.ite_none_right_eq_some.1 hmsg
      cases hmsg
      have hne : rank ≠ parent step.arity rank := (parent_lt hpos).ne'
      have hinv := (h.weaken (own step rank)).of_channels hpos hrank [] (s.down rank)
      rw [update_eq_self, own, if_neg hpos.ne'] at hinv
      rw [hup, eraseIdx_cons_zero]
      refine hinv.ringIn hstep hparent ⟨hpart, hslot, ?_, hround ▸ hentered, fun hlt => ?_, ?_⟩
      · exact congrArg (fun k => partMsg (s.value k) (step.tasks rank)) hround
      · exact absurd hlt (not_lt.2 (le_add_right _ _))
      · intro c hc hcn hcparent hid
        obtain rfl := childId_inj hc hcn hpos hrank hcparent hid
        refine .held hround ((full_record_of_ne hne).2 hfull) (update_self _ _ _) hdown ?_
        rw [slot_record_self]
        exact count_partMsg (tasks_ne hcn)

theorem Inv.deliverDown (h : s.Inv step) (hstep : step.Narrow) :
    (exec step s (.deliverDown rank i)).Inv step := by
  rw [exec]
  split
  · exact h
  · rename_i msg hmsg
    obtain ⟨hpos, hrank, hedge⟩ := h.edge_of_mem (.inr (mem_of_getElem? hmsg))
    cases hedge with
    | idle _ _ _ hdown => simp [hdown] at hmsg
    | sent _ _ _ _ hdown => simp [hdown] at hmsg
    | held _ _ _ hdown => simp [hdown] at hmsg
    | returned hround hfull hup msg' hdown hplace hslot =>
      rw [hdown, getElem?_singleton] at hmsg
      obtain ⟨rfl, hmsg⟩ := Option.ite_none_right_eq_some.1 hmsg
      cases hmsg
      have hinv := (h.weaken (own step rank)).of_channels hpos hrank (s.up rank) []
      rw [update_eq_self] at hinv
      rw [hdown, eraseIdx_cons_zero]
      refine hinv.ringOut hstep hrank hfull hplace (fun _ => ⟨hround, hup, ?_, hslot⟩) ?_
      · exact update_self _ _ _
      · intro task htask
        have hle := h.entered (parent step.arity rank) ((parent_lt hpos).trans hrank) task htask
        rw [← hround] at hle
        exact hle

theorem Inv.exec (h : s.Inv step) (hstep : step.Narrow) (op : RingOp V) :
    (exec step s op).Inv step := by
  cases op with
  | enter rank lrank v => exact h.enter hstep v
  | deliverUp rank i => exact h.deliverUp hstep
  | deliverDown rank i => exact h.deliverDown hstep

theorem inv_init (hstep : step.Narrow) : ({} : RingSys V).Inv step := by
  have hfull : ∀ rank < step.nnodes, ¬({} : RingSys V).Full step rank := by
    intro rank hrank
    have hpos := step.ltasks_pos rank hrank
    rw [Full, hstep.ringChildren_eq hrank, length_parts]
    simp only
    omega
  refine ⟨?_, fun _ _ _ _ _ => .inl rfl, fun rank hrank i hi _ => ⟨fun _ => ?_, ?_⟩,
    fun _ => hfull 0 step.nnodes_pos, fun _ _ => ⟨rfl, rfl⟩, fun _ _ _ _ => zero_le _, ?_⟩
  · intro rank _
    simp [RingSys.slot]
  · exact ⟨rfl, .inl ⟨rfl, rfl⟩⟩
  · intro c hc hcn _ _
    exact .idle rfl (hfull c hcn) rfl rfl rfl
  · intro i task _ j hj
    simp at hj

theorem inv_run (hstep : step.Narrow) (ops : List (RingOp V)) :
    (Run.run (RingSys.exec step) {} ops).Inv step :=
  Run.invariant_run (fun _ op h _ => h.exec hstep op) (inv_init hstep) (Run.admissible_true _ ops)

/-! ## Answers -/

theorem Inv.answersRight (h : s.Inv step) : s.AnswersRight step := by
  intro i task hi k hk
  obtain ⟨hrank, hlrank⟩ := mem_order.1 (mem_of_getElem? hi)
  have hround : (s.answers task).length = s.round task.1 := (h.taskOk hrank hlrank (by simp)).1
  refine ⟨h.right i task hi k hk, fun other hother => ?_⟩
  have hle := h.entered task.1 hrank other hother
  omega

/-- When no message is on its way, all are in the same round. -/
theorem Inv.round_eq (h : s.Inv step) (hquiet : ∀ rank, s.up rank = [] ∧ s.down rank = [])
    (hrank : rank < step.nnodes) : s.round rank = s.round 0 := by
  induction rank using Nat.strong_induction_on with
  | _ rank ih =>
    rcases Nat.eq_zero_or_pos rank with rfl | hpos
    · rfl
    have hlt : parent step.arity rank < rank := parent_lt hpos
    have hparent := ih _ hlt (hlt.trans hrank)
    cases h.edge hpos hrank (by simp) with
    | idle hround => exact hround.trans hparent
    | held hround => exact hround.trans hparent
    | sent hround => exact hround.trans hparent
    | returned _ _ _ msg hdown => simp [(hquiet rank).2] at hdown

/-- When no message is on its way, and all have put a value, no `slurmstepd` waits. -/
theorem Inv.full_of_quiet (h : s.Inv step) (hstep : step.Narrow)
    (hquiet : ∀ rank, s.up rank = [] ∧ s.down rank = [])
    (hall : s.Entered (s.round 0) step.order) (hrank : rank < step.nnodes) : s.Full step rank := by
  induction rank, hrank using induction_up step.arity with
  | step rank hrank ih =>
    rw [h.full_iff hstep hrank]
    intro i hi
    rw [length_parts] at hi
    rcases lt_or_ge i (step.ltasks rank) with htask | hchild
    · obtain ⟨-, ⟨-, hvalues⟩ | ⟨hcount, -⟩⟩ := h.taskOk hrank htask (by simp)
      · have hlt := hall (rank, i) (mem_order.2 ⟨hrank, htask⟩)
        have hround := h.round_eq hquiet hrank
        omega
      · exact hcount
    · obtain ⟨j, rfl⟩ := Nat.exists_eq_add_of_le hchild
      have hmem : rank * step.arity + 1 + j ∈ children step.arity step.nnodes rank := by
        rw [children, mem_range'_1]
        omega
      obtain ⟨hpos, hcn, hparent⟩ := (mem_children step.arity_pos).1 hmem
      have hid : step.childId (rank * step.arity + 1 + j) = step.ltasks rank + j := by
        rw [childId, hparent]
        omega
      rw [← hid]
      cases h.edge hpos hcn (by simp) with
      | idle _ hfull => exact absurd (ih _ hmem) hfull
      | held _ _ _ _ hslot => rwa [hparent] at hslot
      | sent _ _ hup => simp [(hquiet _).1] at hup
      | returned _ _ _ msg hdown => simp [(hquiet _).2] at hdown

theorem Inv.allAnswered (h : s.Inv step) (hstep : step.Narrow) : s.AllAnswered step := by
  intro hquiet rounds hrounds task htask
  obtain ⟨hrank, hlrank⟩ := mem_order.1 htask
  have hround : (s.answers task).length = s.round task.1 := (h.taskOk hrank hlrank (by simp)).1
  have hle := h.entered task.1 hrank task htask
  rw [h.round_eq hquiet hrank] at hround hle
  rw [hrounds task htask] at hle
  by_contra hne
  have hall : s.Entered (s.round 0) step.order := by
    intro other hother
    rw [hrounds other hother]
    omega
  exact h.root (by simp) (h.full_of_quiet hstep hquiet hall step.nnodes_pos)

end

/-- If the numbers of all children are in range, the ring has each task once. In each state of each
    run the answers that tasks have got are right, and when no message is left, all have theirs. -/
theorem ring_right (step : RingStep) (hstep : step.Narrow) :
    step.order.Nodup ∧
      (∀ task, task ∈ step.order ↔ task.1 < step.nnodes ∧ task.2 < step.ltasks task.1) ∧
      ∀ ops : List (RingOp V), (Run.run (RingSys.exec step) {} ops).AnswersRight step ∧
        (Run.run (RingSys.exec step) {} ops).AllAnswered step :=
  ⟨step.nodup_order, fun _ => mem_order, fun ops =>
    ⟨(inv_run hstep ops).answersRight, (inv_run hstep ops).allAnswered hstep⟩⟩

/-- Three nodes, with one, two and three tasks. -/
def threeNodes : RingStep where
  ringTreeWidth := some "2".toList
  nnodes := 3
  ltasks rank := rank + 1
  nnodes_pos := by decide
  ltasks_pos _ _ := Nat.succ_pos _

theorem ring_right_threeNodes : threeNodes.Narrow ∧
    threeNodes.order = [(0, 0), (1, 0), (1, 1), (2, 0), (2, 1), (2, 2)] ∧
    ∀ ops : List (RingOp ℕ), (Run.run (RingSys.exec threeNodes) {} ops).AnswersRight threeNodes ∧
      (Run.run (RingSys.exec threeNodes) {} ops).AllAnswered threeNodes :=
  ⟨by decide, by decide, (ring_right threeNodes (by decide)).2.2⟩

/-- Two nodes with a task each, and a tree as wide as to have one of them below the other, but the
    number of the last child of that one is out of range. -/
def wideTree : RingStep where
  ringTreeWidth := some "1073741824".toList
  nnodes := 2
  ltasks _ := 1
  nnodes_pos := by decide
  ltasks_pos _ _ := Nat.one_pos

/-- The `slurmstepd` of the second node counts children that it does not have, and no task gets an
    answer: it would wait for them, but stops before, as it has no room for their messages
    (`pmix_ring_init`). -/
theorem wideTree_waits : 2 ≤ wideTree.width ∧
    ¬(Run.run (RingSys.exec wideTree) {} [.enter 0 0 'a', .enter 1 0 'b']).AllAnswered wideTree := by
  refine ⟨by decide, fun h => ?_⟩
  have hanswers := h (fun rank => ⟨rfl, rfl⟩) 1 (by decide) (0, 0) (by decide)
  revert hanswers
  decide

end RingSys

end Slurm
