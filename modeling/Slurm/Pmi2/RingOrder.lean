import Slurm.Lib.Count
import Slurm.Pmi2.Ring

/-!
# The parts of the ring

The tasks below a node are in one piece of the ring, made of a part for each child of its
`slurmstepd`: its own tasks, one by one, and the tasks below each of its children in the tree
(`parts`). A message says something about such a part: up the tree, how long it is and what is at
its ends (`partMsg`), and down the tree, where it is and what is next to it (`placeMsg`). What
`pmix_ring_out` computes of the messages of all parts are the places of the parts
(`outMsgs_parts`).

This is so if the numbers of the children of all nodes are computed without overflow (`Narrow`).
-/

namespace Slurm

open CString HeapTree List Nat

/-! ## Numbers -/

namespace RingStep

variable (step : RingStep)

theorem width_bounds : 2 ≤ step.width ∧ step.width < 2 ^ 31 := by
  rw [width]
  cases step.ringTreeWidth with
  | none => decide
  | some p =>
    have hlt := (toInt_bounds (strtol p).1).2
    rw [pmixStepdWidth]
    split_ifs with hge
    · exact ⟨hge, hlt⟩
    · decide

/-- The width, as a natural number. -/
def arity : ℕ := step.width.toNat

theorem arity_eq : (step.arity : ℤ) = step.width :=
  Int.toNat_of_nonneg (by have := step.width_bounds.1; omega)

theorem arity_pos : 0 < step.arity := by
  have hge := step.width_bounds.1
  have heq := step.arity_eq
  omega

/-- The numbers of all children, and of all tasks, are in the range of an `int`. -/
def Narrow : Prop := step.nnodes * step.width < 2 ^ 31 ∧ step.ntasks < 2 ^ 31
  deriving Decidable

variable {step} {rank i child : ℕ}

/-- Below a narrow tree, the number of the last child that a node may have. -/
theorem Narrow.mul_add_lt (h : step.Narrow) (hrank : rank < step.nnodes) :
    rank * step.arity + step.arity < 2 ^ 31 := by
  have hle : (rank + 1) * step.arity ≤ step.nnodes * step.arity := mul_le_mul_right _ hrank
  have hlt := h.1
  rw [← arity_eq] at hlt
  rw [add_mul, one_mul] at hle
  exact lt_of_le_of_lt hle (by exact_mod_cast hlt)

theorem Narrow.stepdChildren_eq (h : step.Narrow) (hrank : rank < step.nnodes) :
    step.stepdChildren rank = numChildren step.arity step.nnodes rank := by
  have hlt := h.mul_add_lt hrank
  have hpos := step.arity_pos
  simp only [stepdChildren, numChildren, ← arity_eq, ← cast_mul]
  generalize rank * step.arity = base at hlt ⊢
  have hmin : toInt ((base : ℤ) + 1) = base + 1 := toInt_eq (by omega) (by omega)
  have hmax : toInt ((base : ℤ) + step.arity) = base + step.arity := toInt_eq (by omega) (by omega)
  split_ifs
  all_goals
    rw [toInt_eq (by omega) (by omega)]
    omega

theorem Narrow.rankChild_eq (h : step.Narrow) (hrank : rank < step.nnodes)
    (hi : i < numChildren step.arity step.nnodes rank) :
    (step.rankChild rank i).toNat = rank * step.arity + 1 + i := by
  have hlt := h.mul_add_lt hrank
  rw [numChildren] at hi
  rw [rankChild, ← arity_eq, ← cast_mul]
  rw [toInt_eq (by omega) (by omega)]
  omega

theorem rankParent_eq (hrank : 0 < rank) :
    (step.rankParent rank).toNat = parent step.arity rank := by
  have hone : ((rank - 1 : ℕ) : ℤ) = (rank : ℤ) - 1 := by omega
  rw [rankParent, if_pos hrank, ← hone, ← arity_eq, ← Int.natCast_div, Int.toNat_natCast, parent]

/-- The place of a child among the messages of its parent. -/
def childId (step : RingStep) (child : ℕ) : ℕ :=
  step.ltasks (parent step.arity child) + (child - (parent step.arity child * step.arity + 1))

theorem Narrow.ringIdByRank_eq (h : step.Narrow) (hpos : 0 < child) (hchild : child < step.nnodes) :
    step.ringIdByRank (parent step.arity child) child = some (step.childId child) := by
  have hparent : parent step.arity child < step.nnodes := (parent_lt hpos).trans hchild
  have hmem := (mem_children step.arity_pos).2 ⟨hpos, hchild, rfl⟩
  rw [children, mem_range'_1] at hmem
  have hlt := h.mul_add_lt hparent
  have harity := step.arity_pos
  simp only [ringIdByRank, childId, h.stepdChildren_eq hparent, ← arity_eq, ← cast_mul]
  rw [toInt_eq (by omega) (by omega), if_pos (by omega), Option.some.injEq]
  omega

/-! ## Parts -/

variable (step) in
/-- The parts of the tasks below a node. -/
def parts (rank : ℕ) : List (List (ℕ × ℕ)) :=
  ((List.range (step.ltasks rank)).map fun lrank => [(rank, lrank)]) ++
    (children step.arity step.nnodes rank).map step.tasks

theorem tasks_eq (hrank : rank < step.nnodes) :
    step.tasks rank =
      step.nodeTasks rank ++ (children step.arity step.nnodes rank).flatMap step.tasks := by
  rw [tasks, ← arity, preorder_eq hrank, flatMap_cons, flatMap_assoc]
  rfl

theorem flatten_parts (hrank : rank < step.nnodes) : (step.parts rank).flatten = step.tasks rank := by
  have hown : ((range (step.ltasks rank)).map fun lrank => [(rank, lrank)]).flatten =
      step.nodeTasks rank := by
    rw [nodeTasks, ← flatMap_def, map_eq_flatMap]
  rw [parts, flatten_append, hown, ← flatMap_def, tasks_eq hrank]

theorem tasks_ne (hrank : rank < step.nnodes) : step.tasks rank ≠ [] := by
  have hpos := step.ltasks_pos rank hrank
  rw [tasks_eq hrank, nodeTasks]
  simp only [ne_eq, append_eq_nil_iff, map_eq_nil_iff, range_eq_nil, not_and]
  omega

theorem ne_of_mem_parts {part : List (ℕ × ℕ)} (h : part ∈ step.parts rank) : part ≠ [] := by
  rw [parts, mem_append, mem_map, mem_map] at h
  obtain ⟨lrank, -, rfl⟩ | ⟨child, hchild, rfl⟩ := h
  · simp
  · exact tasks_ne (lt_of_mem_children hchild).2

theorem length_parts :
    (step.parts rank).length = step.ltasks rank + numChildren step.arity step.nnodes rank := by
  simp [parts, children]

theorem parts_task {lrank : ℕ} (h : lrank < step.ltasks rank) :
    (step.parts rank)[lrank]? = some [(rank, lrank)] := by
  rw [parts, getElem?_append_left (by simpa using h), getElem?_map, getElem?_range h]
  rfl

theorem parts_child (h : i < numChildren step.arity step.nnodes rank) :
    (step.parts rank)[step.ltasks rank + i]? = some (step.tasks (rank * step.arity + 1 + i)) := by
  rw [parts, getElem?_append_right (by simp), getElem?_map]
  simp [children, h]

theorem parts_childId (hpos : 0 < child) (hchild : child < step.nnodes) :
    (step.parts (parent step.arity child))[step.childId child]? = some (step.tasks child) := by
  have hmem := (mem_children step.arity_pos).2 ⟨hpos, hchild, rfl⟩
  rw [children, mem_range'_1] at hmem
  rw [childId, parts_child (by omega)]
  congr 2
  omega

/-! ## The whole ring -/

theorem mem_order {task : ℕ × ℕ} :
    task ∈ step.order ↔ task.1 < step.nnodes ∧ task.2 < step.ltasks task.1 := by
  have hperm := preorder_perm step.arity_pos step.nnodes_pos
  rw [order, tasks, ← arity, mem_flatMap]
  simp only [hperm.mem_iff, mem_range, nodeTasks, mem_map]
  constructor
  · rintro ⟨rank, hrank, lrank, hlrank, rfl⟩
    exact ⟨hrank, hlrank⟩
  · rintro ⟨hrank, hlrank⟩
    exact ⟨task.1, hrank, task.2, hlrank, rfl⟩

theorem nodup_tasks (hrank : rank < step.nnodes) : (step.tasks rank).Nodup := by
  rw [tasks, ← arity, nodup_flatMap]
  refine ⟨fun rank _ => ?_, ?_⟩
  · exact nodup_range.map fun a b hab => (Prod.mk.inj hab).2
  · refine (nodup_preorder step.arity_pos hrank).imp fun hne => ?_
    intro task ha hb
    simp only [nodeTasks, mem_map] at ha hb
    obtain ⟨_, -, rfl⟩ := ha
    obtain ⟨_, -, hb⟩ := hb
    exact hne (Prod.mk.inj hb).1.symm

theorem nodup_order : step.order.Nodup := nodup_tasks step.nnodes_pos

theorem tasks_subset (hrank : rank < step.nnodes) : step.tasks rank ⊆ step.order := by
  intro task htask
  rw [tasks, ← arity, mem_flatMap] at htask
  obtain ⟨node, hnode, htask⟩ := htask
  obtain ⟨lrank, hlrank, rfl⟩ := mem_map.1 htask
  exact mem_order.2 ⟨(bounds_of_mem_preorder hrank hnode).2, mem_range.1 hlrank⟩

theorem Narrow.length_order_lt (h : step.Narrow) : step.order.length < 2 ^ 31 := by
  have hperm := preorder_perm step.arity_pos step.nnodes_pos
  have hlen : step.order.length = step.ntasks := by
    rw [order, tasks, ← arity, length_flatMap, ntasks, ← (hperm.map step.ltasks).sum_eq]
    simp [nodeTasks]
  rw [hlen]
  exact h.2

theorem Narrow.length_parts_lt (h : step.Narrow) (hrank : rank < step.nnodes) :
    (step.parts rank).length < 2 ^ 31 := by
  have hparts : (step.parts rank).length ≤ (step.parts rank).flatten.length := by
    have hle := length_le_sum_of_one_le ((step.parts rank).map length) (by
      simp only [mem_map]
      rintro _ ⟨part, hpart, rfl⟩
      exact length_pos_iff.2 (ne_of_mem_parts hpart))
    simpa using hle
  have htasks := ((nodup_tasks hrank).subperm (tasks_subset hrank)).length_le
  rw [flatten_parts hrank] at hparts
  exact (hparts.trans htasks).trans_lt h.length_order_lt

theorem Narrow.ringChildren_eq (h : step.Narrow) (hrank : rank < step.nnodes) :
    step.ringChildren rank = (step.parts rank).length := by
  have hlt := h.length_parts_lt hrank
  rw [length_parts] at hlt ⊢
  rw [ringChildren, h.stepdChildren_eq hrank, toInt_eq (by omega) (by omega)]
  omega

end RingStep

/-! ## What is said of a part -/

section

variable {α V : Type*} (ring : List α) (val : α → Option V)

/-- The message up the tree about a part of the ring. -/
def partMsg (part : List α) : RingMsg V :=
  ⟨part.length, part.head?.bind val, part.getLast?.bind val⟩

/-- The message down the tree about a part of the ring, with `pre` before and `post` behind it. At
    the ends the ring is closed. -/
def placeMsg (pre post : List α) : RingMsg V :=
  ⟨pre.length, (ring ++ pre).getLast?.bind val, (post ++ ring).head?.bind val⟩

variable {ring val} {part pre post : List α} {ps : List (List α)}

theorem head?_bind_isSome (hne : part ≠ []) (h : ∀ a ∈ part, (val a).isSome) :
    ∃ v, part.head?.bind val = some v := by
  obtain ⟨a, rest, rfl⟩ := exists_cons_of_ne_nil hne
  exact Option.isSome_iff_exists.1 (h a mem_cons_self)

theorem getLast?_bind_isSome (hne : part ≠ []) (h : ∀ a ∈ part, (val a).isSome) :
    ∃ v, part.getLast?.bind val = some v := by
  rw [getLast?_eq_some_getLast hne]
  exact Option.isSome_iff_exists.1 (h _ (getLast_mem hne))

variable (hne : ∀ p ∈ ps, p ≠ []) (hval : ∀ p ∈ ps, ∀ a ∈ p, (val a).isSome)

include hne hval

theorem outForward_parts (hlt : (pre ++ ps.flatten).length < 2 ^ 31) {i : ℕ} (hi : i < ps.length) :
    (outForward pre.length ((ring ++ pre).getLast?.bind val) (ps.map (partMsg val)))[i]? =
      some ((((pre ++ (ps.take i).flatten).length : ℕ) : ℤ),
        (ring ++ (pre ++ (ps.take i).flatten)).getLast?.bind val) := by
  induction ps generalizing pre i with
  | nil => simp at hi
  | cons p ps ih =>
    rw [map_cons, outForward]
    cases i with
    | zero => simp
    | succ i =>
      have hp : p ≠ [] := hne p mem_cons_self
      obtain ⟨v, hv⟩ := getLast?_bind_isSome hp (hval p mem_cons_self)
      rw [flatten_cons, ← append_assoc] at hlt
      -- What comes next starts behind this part.
      have hcount : toInt ((pre.length : ℤ) + (partMsg val p).count) = ((pre ++ p).length : ℕ) := by
        rw [partMsg, toInt_eq] <;> simp only [length_append] at hlt ⊢ <;> omega
      have hleft : (partMsg val p).right.or ((ring ++ pre).getLast?.bind val) =
          (ring ++ (pre ++ p)).getLast?.bind val := by
        rw [← append_assoc, getLast?_append_of_ne_nil _ hp, partMsg, hv]
        rfl
      rw [getElem?_cons_succ, hcount, hleft, ih (fun q hq => hne q (mem_cons_of_mem p hq))
          (fun q hq => hval q (mem_cons_of_mem p hq)) hlt (lt_of_succ_lt_succ hi),
        take_succ_cons, flatten_cons, append_assoc]

theorem outBackward_parts :
    (outBackward ((post ++ ring).head?.bind val) (ps.map (partMsg val))).2 =
        (ps.flatten ++ post ++ ring).head?.bind val ∧ ∀ i < ps.length,
        (outBackward ((post ++ ring).head?.bind val) (ps.map (partMsg val))).1[i]? =
          some (((ps.drop (i + 1)).flatten ++ post ++ ring).head?.bind val) := by
  induction ps with
  | nil => simp [outBackward]
  | cons p ps ih =>
    obtain ⟨hnext, hrights⟩ := ih (fun q hq => hne q (mem_cons_of_mem p hq))
      (fun q hq => hval q (mem_cons_of_mem p hq))
    have hp : p ≠ [] := hne p mem_cons_self
    obtain ⟨v, hv⟩ := head?_bind_isSome hp (hval p mem_cons_self)
    rw [map_cons, outBackward]
    refine ⟨?_, ?_⟩
    · rw [flatten_cons, append_assoc, append_assoc, head?_append_of_ne_nil _ hp, partMsg, hv]
      rfl
    · rintro (_ | i) hi
      · rw [getElem?_cons_zero, hnext]
        simp
      · rw [getElem?_cons_succ, hrights i (lt_of_succ_lt_succ hi), drop_succ_cons]

/-- The messages to the children tell the places of their parts. -/
theorem outMsgs_parts (hlt : (pre ++ ps.flatten).length < 2 ^ 31) {i : ℕ} (hi : i < ps.length) :
    (outMsgs (placeMsg ring val pre post).count (placeMsg ring val pre post).left
        (placeMsg ring val pre post).right (ps.map (partMsg val)))[i]? =
      some (placeMsg ring val (pre ++ (ps.take i).flatten) ((ps.drop (i + 1)).flatten ++ post)) := by
  rw [outMsgs, getElem?_zipWith, placeMsg, outForward_parts hne hval hlt hi,
    (outBackward_parts hne hval).2 i hi]
  rfl

end

end Slurm
