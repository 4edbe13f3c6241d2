import Slurm.Lib.Count
import Slurm.Pmi2.Fence
import Slurm.ReverseTree.Places

/-!
# Runs of the fence of PMI2

All who take part count the messages they have sent. A `slurmstepd` is at most one round ahead of
its parent, and `srun` sends no message before all have sent theirs, so none is more than one round
ahead of `srun`. A `slurmstepd` that has sent a message waits for the answer of `srun`. Its tasks
are in the fence then, and what its children send is already for the next round (`Inv`). So a
message from a child that was not taken before is always expected when it comes first, and what was
sent with it is in the buffer.

The answers are right in every run in which the buffers have room and no message of `srun` is more
than one round late (`fence_right`). A message that is two rounds late is taken for an error: the
tasks of the node are told so, in whatever state the others are (`late_answer`).
-/

namespace Slurm

open CString Rooted Function List Option Nat FenceStep FenceSys

namespace FenceSys

variable {step : FenceStep} {s : FenceSys}

/-! ## The invariant -/

variable (s) in
/-- The messages that someone has sent. -/
def rounds (rank : ℕ) : ℕ := (s.sent rank).length

variable (s) in
/-- The rounds for which the tasks of a node were answered. -/
def answered (rank : ℕ) : ℕ := (s.answers (rank, 0)).length

variable (s) in
/-- The message of a child for the round is there. -/
def Accepted (rank child : ℕ) : Prop :=
  s.childrenKvsSeq rank child = toUInt (s.rounds rank + 1)
  deriving Decidable

variable (step s) in
/-- The tasks that have not entered the round. -/
def remTasks (rank : ℕ) : ℕ :=
  (List.range (step.ltasks rank)).countP fun lrank => s.entered (rank, lrank) ≤ s.rounds rank

variable (step s) in
/-- The nodes below of which there is no message for the round. -/
def remNodes (rank : ℕ) : ℕ :=
  ((children step.parent (step.nnodes + 1) rank).map fun c =>
    if s.Accepted rank c then 0 else step.numChildren c + 1).sum

variable (step s) in
/-- What is waited for, if the round was started and is not over, and before. -/
def Counts (rank tasks nodes : ℕ) : Prop :=
  s.tasksToWait rank = toInt tasks ∧ s.childrenToWait rank = toInt nodes ∧ 0 < tasks + nodes ∨
    s.tasksToWait rank = 0 ∧ s.childrenToWait rank = 0 ∧ tasks = step.ltasks rank ∧
      nodes = step.numChildren rank

variable (step s) in
/-- A round that is not over. -/
def Waits (rank : ℕ) : Prop := s.Counts step rank (s.remTasks step rank) (s.remNodes step rank)

variable (step s) in
/-- A round that was started, and is over when nothing is left to wait for. -/
def Started (rank : ℕ) : Prop :=
  s.tasksToWait rank = toInt (s.remTasks step rank) ∧
    s.childrenToWait rank = toInt (s.remNodes step rank)

variable (s) in
/-- A task has put a pair. -/
def WasPut (pair : KvsPair) : Prop := ∃ p ∈ s.puts, p.pair = pair

variable (step s) in
/-- What holds in each state. In the middle of an operation, there may be one that has not sent its
    message yet. -/
structure InvBut (gap : Option ℕ) : Prop where
  kvsSeq : ∀ r, s.kvsSeq r = toUInt (s.rounds r + 1)
  head : ∀ r, (s.temp r).seq = s.kvsSeq r ∧
    (s.temp r).numChildren = (step.tempKvsInit r 0).numChildren
  sent : ∀ r (i : ℕ) msg, (s.sent r)[i]? = some msg →
    msg.seq = toUInt (i + 1) ∧ msg.numChildren = (step.tempKvsInit r 0).numChildren
  own : ∀ p ∈ s.puts, p.round = s.rounds p.task.1 → p.pair ∈ (s.temp p.task.1).pairs
  merged : ∀ c, 0 < c → c < step.nnodes + 1 → s.Accepted (step.parent c) c →
    ∀ msg, (s.sent c)[s.rounds (step.parent c)]? = some msg →
      msg.pairs ⊆ (s.temp (step.parent c)).pairs
  below : ∀ r i msg, (s.sent r)[i]? = some msg → ∀ p ∈ s.puts, p.round = i →
    Below step.parent p.task.1 r → p.pair ∈ msg.pairs
  tempPut : ∀ r, ∀ pair ∈ (s.temp r).pairs, s.WasPut pair
  sentPut : ∀ r, ∀ msg ∈ s.sent r, ∀ pair ∈ msg.pairs, s.WasPut pair
  kvsPut : ∀ r b, ∀ pair ∈ s.kvs r b, s.WasPut pair
  phase : ∀ r, 0 < r → r < step.nnodes + 1 →
    s.waiting r = true ∧ s.rounds r = s.answered r + 1 ∨
      s.waiting r = false ∧ s.rounds r = s.answered r
  behind : ∀ r, 0 < r → r < step.nnodes + 1 → s.answered r ≤ s.rounds 0
  task : ∀ task, step.IsTask task → (s.answers task).length = s.answered task.1 ∧
    s.rounds task.1 ≤ s.entered task ∧ s.entered task ≤ s.answered task.1 + 1 ∧
    ∀ ok ∈ s.answers task, ok = true
  child : ∀ c, 0 < c → c < step.nnodes + 1 →
    s.Accepted (step.parent c) c ∧ s.rounds c = s.rounds (step.parent c) + 1 ∨
      s.childrenKvsSeq (step.parent c) c = toUInt (s.rounds (step.parent c)) ∧
        s.rounds (step.parent c) ≤ s.rounds c ∧ s.rounds c ≤ s.rounds (step.parent c) + 1
  put : ∀ p ∈ s.puts, step.IsTask p.task ∧ p.round ≤ s.answered p.task.1
  stored : ∀ r, 0 < r → r < step.nnodes + 1 → ∀ i < s.answered r, ∀ msg,
    (s.sent 0)[i]? = some msg → ∀ pair ∈ msg.pairs, pair ∈ s.kvs r (step.bucket pair.1)
  fence : ∀ c i, (c, i) ∈ s.gotFence → i < s.rounds (step.parent c) ∨
    i = s.rounds (step.parent c) ∧ s.Accepted (step.parent c) c
  resp : ∀ r i, (r, i) ∈ s.gotResp → i < s.answered r
  keys : step.noDupKeys = true ∨ ∀ p ∈ s.puts, ∀ q ∈ s.puts, p.pair.1 = q.pair.1 → p.pair = q.pair
  waits : ∀ r < step.nnodes + 1, gap ≠ some r → s.Waits step r
  started : ∀ r ∈ gap, s.Started step r

variable (step s) in
def Inv : Prop := s.InvBut step none

/-! ## Counters -/

theorem toUInt_eq_iff (a b : ℤ) : toUInt a = toUInt b ↔ a % 2 ^ 32 = b % 2 ^ 32 := by
  unfold toUInt
  omega

theorem toInt_eq_zero_iff {n : ℕ} (hn : n < 2 ^ 32) : toInt n = 0 ↔ n = 0 := by
  unfold toInt
  omega

theorem toInt_toInt_sub (a b : ℤ) : toInt (toInt a - b) = toInt (a - b) := by
  obtain ⟨k, hk⟩ := toInt_eq_add a
  rw [hk, show a + 2 ^ 32 * k - b = a - b + 2 ^ 32 * k by omega, toInt_add_mul]

variable {rank : ℕ}

theorem numChildren_eq_sum (hrank : rank < step.nnodes + 1) :
    step.numChildren rank = ((children step.parent (step.nnodes + 1) rank).map fun c =>
      step.numChildren c + 1).sum := by
  rw [step.numChildren_eq rank hrank, step.isTree.ncard_descendants]
  refine congrArg sum (map_congr_left fun c hc => ?_)
  rw [step.numChildren_eq c (mem_children.1 hc).2.1]

theorem numChildren_lt (hrank : rank < step.nnodes + 1) :
    step.numChildren rank < 2 ^ 32 := by
  have hsubset : descendants step.parent (step.nnodes + 1) rank ⊆
      ((Finset.range (step.nnodes + 1)).erase rank : Finset ℕ) := by
    rintro c ⟨hc, hne, -⟩
    exact Finset.mem_erase.2 ⟨hne, Finset.mem_range.2 hc⟩
  have hle := Set.ncard_le_ncard hsubset (Finset.finite_toSet _)
  rw [Set.ncard_coe_finset, Finset.card_erase_of_mem (Finset.mem_range.2 hrank),
    Finset.card_range] at hle
  rw [step.numChildren_eq rank hrank]
  exact hle.trans_lt step.nnodes_lt

theorem remTasks_lt (rank : ℕ) : s.remTasks step rank < 2 ^ 32 := by
  have hle := countP_le_length (l := range (step.ltasks rank))
    (p := fun lrank => decide (s.entered (rank, lrank) ≤ s.rounds rank))
  rw [length_range] at hle
  exact hle.trans_lt (step.ltasks_lt rank)

theorem remNodes_le (hrank : rank < step.nnodes + 1) :
    s.remNodes step rank ≤ step.numChildren rank := by
  rw [numChildren_eq_sum hrank, remNodes]
  refine sum_le_sum fun c _ => ?_
  split_ifs <;> omega

theorem remNodes_lt (hrank : rank < step.nnodes + 1) :
    s.remNodes step rank < 2 ^ 32 :=
  (remNodes_le hrank).trans_lt (numChildren_lt hrank)

/-- Everyone has something to wait for. -/
theorem ltasks_add_numChildren_pos (hrank : rank < step.nnodes + 1) :
    0 < step.ltasks rank + step.numChildren rank := by
  rcases Nat.eq_zero_or_pos rank with rfl | hpos
  · have hone : 1 < step.nnodes + 1 := succ_lt_succ step.nnodes_pos
    have hmem : 1 ∈ children step.parent (step.nnodes + 1) 0 :=
      mem_children.2 ⟨one_pos, hone, lt_one_iff.1 (step.isTree.parent_lt 1 one_pos hone)⟩
    have hle := single_le_sum (fun _ _ => zero_le _) _
      (mem_map_of_mem (f := fun c => step.numChildren c + 1) hmem)
    rw [← numChildren_eq_sum hrank] at hle
    omega
  · exact Nat.add_pos_left (step.ltasks_pos rank hpos hrank) _

/-- When a round was started or is started now, what is left is counted. -/
theorem Counts.arrive {tasks nodes : ℕ} (h : s.Counts step rank tasks nodes)
    (htasks : tasks < 2 ^ 32) (hnodes : nodes < 2 ^ 32) (a b : ℕ) :
    (s.startRound step rank).arrive rank a b = { s with
        tasksToWait := update s.tasksToWait rank (toInt (tasks - a))
        childrenToWait := update s.childrenToWait rank (toInt (nodes - b)) } := by
  rw [startRound]
  rcases h with ⟨ht, hn, hpos⟩ | ⟨ht, hn, rfl, rfl⟩
  · rw [if_neg, FenceSys.arrive, ht, hn, toInt_toInt_sub, toInt_toInt_sub]
    rw [ht, hn, toInt_eq_zero_iff htasks, toInt_eq_zero_iff hnodes]
    omega
  · rw [if_pos ⟨ht, hn⟩, FenceSys.arrive]
    simp [toInt_toInt_sub]

/-- What someone waits for depends on what is known there. -/
theorem Waits.congr {s' : FenceSys} {x : ℕ} (h : s.Waits step x)
    (htasks : s'.tasksToWait x = s.tasksToWait x)
    (hnodes : s'.childrenToWait x = s.childrenToWait x) (hrounds : s'.rounds x = s.rounds x)
    (hseq : s'.childrenKvsSeq x = s.childrenKvsSeq x)
    (hentered : ∀ l, s'.entered (x, l) = s.entered (x, l)) : s'.Waits step x := by
  have hremTasks : s'.remTasks step x = s.remTasks step x := by
    simp [remTasks, hrounds, hentered]
  have haccepted : ∀ c, s'.Accepted x c ↔ s.Accepted x c := fun c => by
    rw [Accepted, Accepted, hrounds, hseq]
  have hremNodes : s'.remNodes step x = s.remNodes step x := by
    simp [remNodes, haccepted]
  rwa [Waits, Counts, hremTasks, hremNodes, htasks, hnodes]

/-! ## Rounds -/

section

variable {gap : Option ℕ} {r c : ℕ}

theorem toUInt_toUInt_add (a b : ℤ) : toUInt (toUInt a + b) = toUInt (a + b) := by
  unfold toUInt
  omega

theorem not_accepted (h : s.childrenKvsSeq r c = toUInt (s.rounds r)) :
    ¬s.Accepted r c := by
  rw [Accepted, h, toUInt_eq_iff]
  omega

theorem InvBut.rounds_parent_le (h : s.InvBut step gap) (hc : 0 < c)
    (hcn : c < step.nnodes + 1) : s.rounds (step.parent c) ≤ s.rounds c := by
  rcases h.child c hc hcn with ⟨-, heq⟩ | ⟨-, hle, -⟩ <;> omega

/-- Who is below has sent as many messages at least. -/
theorem InvBut.rounds_le_of_below (h : s.InvBut step gap) (hc : c < step.nnodes + 1)
    (hbelow : Below step.parent c r) : s.rounds r ≤ s.rounds c := by
  induction c using Nat.strong_induction_on with
  | _ c ih =>
    rcases Nat.eq_zero_or_pos c with rfl | hpos
    · rw [le_zero.1 (step.isTree.le_of_below hc hbelow)]
    · rcases hbelow.cases with rfl | hbelow
      · exact le_rfl
      · have hlt := step.isTree.parent_lt c hpos hc
        exact (ih _ hlt (hlt.trans hc) hbelow).trans (h.rounds_parent_le hpos hc)

theorem InvBut.rounds_root_le (h : s.InvBut step gap) (hc : c < step.nnodes + 1) :
    s.rounds 0 ≤ s.rounds c :=
  h.rounds_le_of_below hc (step.isTree.below_root hc)

theorem remTasks_eq_zero (h : s.remTasks step r = 0) {lrank : ℕ} (hlrank : lrank < step.ltasks r) :
    s.rounds r < s.entered (r, lrank) := by
  rw [remTasks, countP_eq_zero] at h
  have hlt := h lrank (mem_range.2 hlrank)
  rwa [decide_eq_true_eq, not_le] at hlt

theorem remNodes_eq_zero (h : s.remNodes step r = 0)
    (hc : c ∈ children step.parent (step.nnodes + 1) r) : s.Accepted r c := by
  rw [remNodes, sum_eq_zero_iff] at h
  by_contra hnot
  have hzero := h _ (mem_map_of_mem hc)
  rw [if_neg hnot] at hzero
  omega

/-- A `slurmstepd` that has all it waits for is not ahead of the others. -/
theorem InvBut.rounds_eq (h : s.InvBut step gap) (hpos : 0 < r) (hr : r < step.nnodes + 1)
    (htasks : s.remTasks step r = 0) :
    s.rounds r = s.answered r ∧ s.rounds r = s.rounds (step.parent r) := by
  have hltasks := step.ltasks_pos r hpos hr
  have hentered := remTasks_eq_zero htasks hltasks
  have htask : s.entered (r, 0) ≤ s.answered r + 1 := (h.task (r, 0) ⟨hpos, hr, hltasks⟩).2.2.1
  have hparent := step.isTree.parent_lt r hpos hr
  have hroot := h.rounds_root_le (hparent.trans hr)
  have hle := h.rounds_parent_le hpos hr
  have hbehind := h.behind r hpos hr
  rcases h.phase r hpos hr with ⟨-, hphase⟩ | ⟨-, hphase⟩ <;> omega

end

/-! ## Sending a message -/

section

variable {r x : ℕ}

theorem rounds_send_self : (s.tempKvsSend step r).rounds r = s.rounds r + 1 := by
  simp [rounds, tempKvsSend]

theorem rounds_send_of_ne (hx : x ≠ r) : (s.tempKvsSend step r).rounds x = s.rounds x := by
  simp [rounds, tempKvsSend, hx]

theorem sent_send_of_ne (hx : x ≠ r) : (s.tempKvsSend step r).sent x = s.sent x := by
  simp [tempKvsSend, hx]

/-- A message was there before, or has just been sent. -/
theorem sent_send {i : ℕ} {msg : TreeMsg} (h : ((s.tempKvsSend step r).sent x)[i]? = some msg) :
    (s.sent x)[i]? = some msg ∨ x = r ∧ i = s.rounds x ∧ msg = s.temp x := by
  by_cases hx : x = r
  · subst hx
    simp only [tempKvsSend, update_self] at h
    rcases lt_or_ge i (s.sent x).length with hlt | hge
    · rw [getElem?_append_left hlt] at h
      exact .inl h
    · rw [getElem?_append_right hge, getElem?_singleton] at h
      obtain ⟨hi, hmsg⟩ := ite_none_right_eq_some.1 h
      exact .inr ⟨rfl, by rw [rounds]; omega, (some.inj hmsg).symm⟩
  · rw [sent_send_of_ne hx] at h
    exact .inl h

theorem temp_send_of_ne (hx : x ≠ r) : (s.tempKvsSend step r).temp x = s.temp x := by
  simp [tempKvsSend, hx]

theorem accepted_send_of_ne {c : ℕ} (hx : x ≠ r) :
    (s.tempKvsSend step r).Accepted x c ↔ s.Accepted x c := by
  rw [Accepted, Accepted, rounds_send_of_ne hx]
  rfl

theorem not_accepted_send {c : ℕ} (h : s.Accepted r c) :
    ¬(s.tempKvsSend step r).Accepted r c := by
  refine not_accepted ?_
  rw [rounds_send_self]
  exact h.trans (by push_cast; rfl)

section

variable {gap : Option ℕ} (h : s.InvBut step gap) (hnodes : s.remNodes step r = 0)
include h hnodes

/-- The buffer has what was put by all tasks below. -/
theorem InvBut.temp_full {p : KvsEntry} (hp : p ∈ s.puts) (hround : p.round = s.rounds r)
    (hbelow : Below step.parent p.task.1 r) : p.pair ∈ (s.temp r).pairs := by
  obtain ⟨⟨-, hrank, -⟩, -⟩ := h.put p hp
  by_cases hown : p.task.1 = r
  · subst hown
    exact h.own p hp hround
  · obtain ⟨d, hd, hpd⟩ := step.isTree.exists_child hrank hown hbelow
    have haccepted := remNodes_eq_zero hnodes hd
    obtain ⟨hdpos, hdn, rfl⟩ := mem_children.1 hd
    -- The child has sent the message of the round.
    rcases h.child d hdpos hdn with ⟨-, hrounds⟩ | ⟨hseq, -⟩
    · have hlt : s.rounds (step.parent d) < (s.sent d).length := by
        rw [← rounds]
        omega
      have hmsg := getElem?_eq_getElem hlt
      exact h.merged d hdpos hdn haccepted _ hmsg (h.below d _ _ hmsg p hp hround hpd)
    · exact absurd haccepted (not_accepted hseq)

variable (hr : r < step.nnodes + 1) (htasks : s.remTasks step r = 0)
include hr htasks

theorem InvBut.child_send {c : ℕ} (hc : 0 < c) (hcn : c < step.nnodes + 1) :
    (s.tempKvsSend step r).Accepted (step.parent c) c ∧
        (s.tempKvsSend step r).rounds c = (s.tempKvsSend step r).rounds (step.parent c) + 1 ∨
      s.childrenKvsSeq (step.parent c) c = toUInt ((s.tempKvsSend step r).rounds (step.parent c)) ∧
        (s.tempKvsSend step r).rounds (step.parent c) ≤ (s.tempKvsSend step r).rounds c ∧
        (s.tempKvsSend step r).rounds c ≤ (s.tempKvsSend step r).rounds (step.parent c) + 1 := by
  have hparent := step.isTree.parent_lt c hc hcn
  by_cases hcr : c = r
  · subst hcr
    obtain ⟨-, hrounds⟩ := h.rounds_eq hc hr htasks
    rw [rounds_send_self, rounds_send_of_ne hparent.ne]
    rcases h.child c hc hcn with ⟨-, hne⟩ | ⟨hseq, -⟩
    · omega
    · exact .inr ⟨hseq, by omega, by omega⟩
  · by_cases hpr : step.parent c = r
    · have haccepted := remNodes_eq_zero hnodes (mem_children.2 ⟨hc, hcn, hpr⟩)
      subst hpr
      rw [rounds_send_self, rounds_send_of_ne hcr]
      rcases h.child c hc hcn with ⟨-, hrounds⟩ | ⟨hseq, -⟩
      · exact .inr ⟨haccepted.trans (by push_cast; rfl), by omega, by omega⟩
      · exact absurd haccepted (not_accepted hseq)
    · rw [rounds_send_of_ne hcr, rounds_send_of_ne hpr, accepted_send_of_ne hpr]
      exact h.child c hc hcn

theorem InvBut.waits_send_self : (s.tempKvsSend step r).Waits step r := by
  have htasks' : (s.tempKvsSend step r).remTasks step r = step.ltasks r := by
    rw [remTasks, countP_eq_length.2, length_range]
    intro lrank hlrank
    rw [mem_range] at hlrank
    rcases Nat.eq_zero_or_pos r with rfl | hpos
    · rw [step.ltasks_root] at hlrank
      omega
    · have hle : s.entered (r, lrank) ≤ s.answered r + 1 :=
        (h.task (r, lrank) ⟨hpos, hr, hlrank⟩).2.2.1
      rw [rounds_send_self, (h.rounds_eq hpos hr htasks).1]
      exact decide_eq_true hle
  have hnodes' : (s.tempKvsSend step r).remNodes step r = step.numChildren r := by
    rw [remNodes, numChildren_eq_sum hr]
    refine congrArg sum (map_congr_left fun c hc => ?_)
    rw [if_neg (not_accepted_send (remNodes_eq_zero hnodes hc))]
  rw [Waits, htasks', hnodes']
  exact .inr ⟨by simp [tempKvsSend], by simp [tempKvsSend], rfl, rfl⟩

end

theorem InvBut.send (h : s.InvBut step (some r)) (hr : r < step.nnodes + 1)
    (htasks : s.remTasks step r = 0) (hnodes : s.remNodes step r = 0) :
    (s.tempKvsSend step r).Inv step where
  kvsSeq x := by
    by_cases hx : x = r
    · subst hx
      rw [rounds_send_self, tempKvsSend]
      dsimp only
      rw [update_self, h.kvsSeq, toUInt_toUInt_add]
      rfl
    · rw [rounds_send_of_ne hx, ← h.kvsSeq]
      simp [tempKvsSend, hx]
  head x := by
    by_cases hx : x = r
    · subst hx
      simp only [tempKvsSend, update_self]
      exact ⟨rfl, rfl⟩
    · simp only [tempKvsSend, update_of_ne hx]
      exact h.head x
  sent x i msg hmsg := by
    rcases sent_send hmsg with hold | ⟨-, rfl, rfl⟩
    · exact h.sent x i msg hold
    · exact ⟨(h.head x).1.trans (h.kvsSeq x), (h.head x).2⟩
  own p hp hround := by
    obtain ⟨⟨hpos, hrank, -⟩, hle⟩ := h.put p hp
    by_cases hx : p.task.1 = r
    · rw [hx, rounds_send_self] at hround
      rw [hx] at hpos hle
      have hrounds := (h.rounds_eq hpos hr htasks).1
      omega
    · rw [rounds_send_of_ne hx] at hround
      rw [temp_send_of_ne hx]
      exact h.own p hp hround
  merged c hc hcn haccepted msg hmsg := by
    by_cases hpr : step.parent c = r
    · rw [hpr] at haccepted
      exact absurd haccepted
        (not_accepted_send (remNodes_eq_zero hnodes (mem_children.2 ⟨hc, hcn, hpr⟩)))
    · rw [accepted_send_of_ne hpr] at haccepted
      have hcr : c ≠ r := by
        rintro rfl
        have hrounds := (h.rounds_eq hc hr htasks).2
        rcases h.child c hc hcn with ⟨-, hne⟩ | ⟨hseq, -⟩
        · omega
        · exact not_accepted hseq haccepted
      rw [rounds_send_of_ne hpr, sent_send_of_ne hcr] at hmsg
      rw [temp_send_of_ne hpr]
      exact h.merged c hc hcn haccepted msg hmsg
  below x i msg hmsg p hp hround hbelow := by
    rcases sent_send hmsg with hold | ⟨rfl, rfl, rfl⟩
    · exact h.below x i msg hold p hp hround hbelow
    · exact h.temp_full hnodes hp hround hbelow
  tempPut x pair hpair := by
    by_cases hx : x = r
    · subst hx
      simp [tempKvsSend, tempKvsInit] at hpair
    · rw [temp_send_of_ne hx] at hpair
      exact h.tempPut x pair hpair
  sentPut x msg hmsg pair hpair := by
    obtain ⟨i, hi⟩ := getElem?_of_mem hmsg
    rcases sent_send hi with hold | ⟨-, -, rfl⟩
    · exact h.sentPut x msg (mem_of_getElem? hold) pair hpair
    · exact h.tempPut x pair hpair
  kvsPut := h.kvsPut
  phase x hpos hx := by
    by_cases hxr : x = r
    · subst hxr
      refine .inl ⟨by simp [tempKvsSend, hpos], ?_⟩
      rw [rounds_send_self, (h.rounds_eq hpos hr htasks).1]
      rfl
    · rw [rounds_send_of_ne hxr]
      have hwaiting : (s.tempKvsSend step r).waiting x = s.waiting x := by
        simp only [tempKvsSend]
        split_ifs
        · exact update_of_ne hxr _ _
        · rfl
      rw [hwaiting]
      exact h.phase x hpos hx
  behind x hpos hx := by
    refine (h.behind x hpos hx).trans ?_
    rcases eq_or_ne 0 r with rfl | hne
    · rw [rounds_send_self]
      omega
    · rw [rounds_send_of_ne hne]
  task task htask := by
    obtain ⟨hlen, hentered, hrest⟩ := h.task task htask
    refine ⟨hlen, ?_, hrest⟩
    by_cases hx : task.1 = r
    · have hlt : s.rounds r < s.entered (r, task.2) := remTasks_eq_zero htasks (hx ▸ htask.2.2)
      rw [hx, rounds_send_self]
      rw [← hx] at hlt ⊢
      exact hlt
    · rw [rounds_send_of_ne hx]
      exact hentered
  child c hc hcn := h.child_send hnodes hr htasks hc hcn
  put := h.put
  stored x hpos hx i hi msg hmsg := by
    rcases sent_send hmsg with hold | ⟨-, rfl, -⟩
    · exact h.stored x hpos hx i hi msg hold
    · exact absurd hi (not_lt.2 (h.behind x hpos hx))
  fence c i hgot := by
    by_cases hpr : step.parent c = r
    · rw [hpr, rounds_send_self]
      rcases h.fence c i hgot with hlt | ⟨heq, -⟩ <;> rw [hpr] at * <;> omega
    · rw [rounds_send_of_ne hpr, accepted_send_of_ne hpr]
      exact h.fence c i hgot
  resp := h.resp
  keys := h.keys
  waits x hx _ := by
    by_cases hxr : x = r
    · subst hxr
      exact h.waits_send_self hnodes hr htasks
    · exact (h.waits x hx fun heq => hxr (some.inj heq).symm).congr (update_of_ne hxr _ _)
        (update_of_ne hxr _ _) (rounds_send_of_ne hxr) rfl fun _ => rfl
  started x hx := by cases hx

/-- What is done when someone has come. -/
theorem InvBut.complete (h : s.InvBut step (some r)) (hr : r < step.nnodes + 1) :
    (s.complete step r).Inv step := by
  obtain ⟨htasks, hnodes⟩ := h.started r rfl
  rw [FenceSys.complete]
  split_ifs with hzero <;>
    rw [htasks, hnodes, toInt_eq_zero_iff (remTasks_lt r), toInt_eq_zero_iff (remNodes_lt hr)]
      at hzero
  · exact h.send hr hzero.1 hzero.2
  · refine { h with waits := fun x hx _ => ?_, started := fun x hx => by cases hx }
    by_cases hxr : x = r
    · subst hxr
      exact .inl ⟨htasks, hnodes, by omega⟩
    · exact h.waits x hx fun heq => hxr (some.inj heq).symm

end

/-! ## Tasks -/

section

variable {task : ℕ × ℕ} {pair : KvsPair} {r x : ℕ}

/-- A task that is in no fence is on a node that waits for no answer. -/
theorem InvBut.free {gap : Option ℕ} (h : s.InvBut step gap) (hfree : s.Free step task) :
    s.entered task = s.answered task.1 ∧ s.rounds task.1 = s.answered task.1 := by
  obtain ⟨htask, hentered⟩ := hfree
  obtain ⟨hlen, hle, -⟩ := h.task task htask
  rcases h.phase task.1 htask.1 htask.2.1 with ⟨-, hphase⟩ | ⟨-, hphase⟩ <;> omega

theorem temp_append_self (r inc : ℕ) (pairs : List KvsPair) :
    (s.tempKvsAppend r inc pairs).temp r =
      { s.temp r with pairs := (s.temp r).pairs ++ pairs } := update_self _ _ _

theorem temp_append_of_ne (hx : x ≠ r) (inc : ℕ) (pairs : List KvsPair) :
    (s.tempKvsAppend r inc pairs).temp x = s.temp x := update_of_ne hx _ _

theorem temp_append_subset (r x inc : ℕ) (pairs : List KvsPair) :
    (s.temp x).pairs ⊆ ((s.tempKvsAppend r inc pairs).temp x).pairs := by
  intro pair hpair
  by_cases hx : x = r
  · subst hx
    rw [temp_append_self]
    exact mem_append_left _ hpair
  · rw [temp_append_of_ne hx]
    exact hpair

theorem mem_temp_append (inc : ℕ) {pairs : List KvsPair}
    (h : pair ∈ ((s.tempKvsAppend r inc pairs).temp x).pairs) :
    pair ∈ (s.temp x).pairs ∨ pair ∈ pairs := by
  by_cases hx : x = r
  · subst hx
    rw [temp_append_self] at h
    exact mem_append.1 h
  · rw [temp_append_of_ne hx] at h
    exact .inl h

theorem head_temp_append (r x inc : ℕ) (pairs : List KvsPair) :
    ((s.tempKvsAppend r inc pairs).temp x).seq = (s.temp x).seq ∧
      ((s.tempKvsAppend r inc pairs).temp x).numChildren = (s.temp x).numChildren := by
  by_cases hx : x = r
  · subst hx
    simp [tempKvsAppend]
  · simp [tempKvsAppend, hx]

theorem Inv.exec_put (h : s.Inv step) (hok : s.OpOk step (.put task pair)) :
    (exec step s (.put task pair)).Inv step := by
  rw [exec]
  split_ifs with hfree
  · obtain ⟨hentered, hrounds⟩ := h.free hfree
    have hwas : ∀ {pair' : KvsPair}, s.WasPut pair' →
        ∃ p ∈ s.puts ++ [(⟨task, s.entered task, pair⟩ : KvsEntry)], p.pair = pair' :=
      fun ⟨p, hp, heq⟩ => ⟨p, mem_append_left _ hp, heq⟩
    refine { h with
      head := fun r => ?_, own := fun p hp hround => ?_, merged := fun c hc hcn hacc msg hmsg => ?_,
      below := fun r i msg hmsg p hp hround hbelow => ?_, tempPut := fun r pair' hpair' => ?_,
      sentPut := fun r msg hmsg pair' hpair' => hwas (h.sentPut r msg hmsg pair' hpair'),
      kvsPut := fun r b pair' hpair' => hwas (h.kvsPut r b pair' hpair'), put := fun p hp => ?_,
      keys := ?_ }
    · obtain ⟨hseq, hnum⟩ := head_temp_append task.1 r TempKvs.sizeInc [pair]
      exact ⟨hseq.trans (h.head r).1, hnum.trans (h.head r).2⟩
    · rcases mem_append.1 hp with hp | hp
      · exact temp_append_subset _ _ TempKvs.sizeInc [pair] (h.own p hp hround)
      · rw [mem_singleton.1 hp]
        simp [tempKvsAdd, tempKvsAppend]
    · exact List.Subset.trans (h.merged c hc hcn hacc msg hmsg)
        (temp_append_subset _ _ TempKvs.sizeInc [pair])
    · rcases mem_append.1 hp with hp | hp
      · exact h.below r i msg hmsg p hp hround hbelow
      · -- What was sent is of rounds before.
        rw [mem_singleton.1 hp] at hround hbelow
        have hi : i < s.rounds r := (List.getElem?_eq_some_iff.1 hmsg).1
        have hle := h.rounds_le_of_below hfree.1.2.1 hbelow
        dsimp only at hround
        omega
    · rcases mem_temp_append TempKvs.sizeInc hpair' with hold | hnew
      · exact hwas (h.tempPut r pair' hold)
      · rw [mem_singleton.1 hnew]
        exact ⟨_, mem_append_right _ mem_cons_self, rfl⟩
    · rcases mem_append.1 hp with hp | hp
      · exact h.put p hp
      · rw [mem_singleton.1 hp]
        exact ⟨hfree.1, hentered.le⟩
    · rcases hok.1 with hdup | hok
      · exact .inl hdup
      · refine h.keys.imp_right fun hkeys p hp q hq hkey => ?_
        rcases mem_append.1 hp with hp | hp <;> rcases mem_append.1 hq with hq | hq
        · exact hkeys p hp q hq hkey
        · rw [mem_singleton.1 hq] at hkey ⊢
          exact hok p hp hkey
        · rw [mem_singleton.1 hp] at hkey ⊢
          exact (hok q hq hkey.symm).symm
        · rw [mem_singleton.1 hp, mem_singleton.1 hq]
  · exact h

/-- The task that enters is no longer waited for. -/
theorem remTasks_enter (hfree : s.Free step task) (hrounds : s.entered task = s.rounds task.1) :
    ({ s with entered := update s.entered task (s.entered task + 1) } :
      FenceSys).remTasks step task.1 + 1 = s.remTasks step task.1 := by
  have hchange := Count.countP_change
    (Q := fun l => update s.entered task (s.entered task + 1) (task.1, l) ≤
      s.rounds task.1) nodup_range (mem_range.2 hfree.1.2.2) fun l _ hl => by
      rw [update_of_ne fun heq => hl (congrArg Prod.snd heq)]
  rw [if_pos hrounds.le, if_neg] at hchange
  · exact hchange
  · rw [update_self]
    omega

theorem Inv.exec_enter (h : s.Inv step) : (exec step s (.enter task)).Inv step := by
  rw [exec]
  split_ifs with hfree
  · obtain ⟨hentered, hrounds⟩ := h.free hfree
    have hwaits := h.waits task.1 hfree.1.2.1 (by simp)
    have hrem := remTasks_enter hfree (hentered.trans hrounds.symm)
    have hcounts : ({ s with entered := update s.entered task (s.entered task + 1) } :
      FenceSys).Counts step task.1 (s.remTasks step task.1) (s.remNodes step task.1) := hwaits
    rw [taskKvsFence, hcounts.arrive (remTasks_lt _) (remNodes_lt hfree.1.2.1)]
    refine InvBut.complete { h with
      task := fun other hother => ?_, waits := fun x hx hgap => ?_, started := fun x hx => ?_ }
      hfree.1.2.1
    · by_cases heq : other = task
      · subst heq
        obtain ⟨hlen, hle, -, hall⟩ := h.task other hother
        refine ⟨hlen, ?_, ?_, hall⟩ <;> dsimp only <;> rw [update_self]
        · exact hle.trans (le_succ _)
        · exact succ_le_succ hentered.le
      · dsimp only
        rw [update_of_ne heq]
        exact h.task other hother
    · have hne : x ≠ task.1 := fun heq => hgap (by rw [heq])
      exact (h.waits x hx (by simp)).congr (update_of_ne hne _ _) (update_of_ne hne _ _) rfl rfl
        fun l => update_of_ne (fun heq => hne (congrArg Prod.fst heq)) _ _
    · cases hx
      refine ⟨?_, ?_⟩ <;> dsimp only <;> rw [update_self]
      · rw [← hrem]
        push_cast
        rw [Int.add_sub_cancel]
        rfl
      · rfl
  · exact h

end

/-! ## Stored pairs -/

section

variable {pair pair' : KvsPair} {bucket : List KvsPair}

theorem mem_replacePair (h : pair' ∈ replacePair pair bucket) :
    pair' ∈ bucket ∨ pair' = pair := by
  induction bucket with
  | nil => exact .inr (mem_singleton.1 h)
  | cons p ps ih =>
    rw [replacePair] at h
    split_ifs at h with hkey
    · rcases mem_cons.1 h with rfl | h
      · exact .inr (by rw [← hkey])
      · exact .inl (mem_cons_of_mem p h)
    · rcases mem_cons.1 h with rfl | h
      · exact .inl mem_cons_self
      · exact (ih h).imp_left (mem_cons_of_mem p)

theorem self_mem_replacePair (bucket : List KvsPair) : pair ∈ replacePair pair bucket := by
  induction bucket with
  | nil => exact mem_singleton_self pair
  | cons p ps ih =>
    rw [replacePair]
    split_ifs with hkey
    · rw [← hkey]
      exact mem_cons_self
    · exact mem_cons_of_mem p ih

theorem mem_replacePair_of_mem (h : pair' ∈ bucket)
    (hkey : pair'.1 = pair.1 → pair' = pair) : pair' ∈ replacePair pair bucket := by
  induction bucket with
  | nil => cases h
  | cons p ps ih =>
    rw [replacePair]
    rcases mem_cons.1 h with rfl | h
    · split_ifs with heq
      · rw [← heq, hkey heq.symm]
        exact mem_cons_self
      · exact mem_cons_self
    · split_ifs
      · exact mem_cons_of_mem _ h
      · exact mem_cons_of_mem p (ih h)

variable {kvs : ℕ → List KvsPair} {b : ℕ}

theorem mem_kvsPut (h : pair' ∈ step.kvsPut kvs pair b) : pair' ∈ kvs b ∨ pair' = pair := by
  rw [kvsPut] at h
  by_cases hb : b = step.bucket pair.1
  · subst hb
    rw [update_self] at h
    split_ifs at h
    · exact (mem_append.1 h).imp_right mem_singleton.1
    · exact mem_replacePair h
  · rw [update_of_ne hb] at h
    exact .inl h

theorem self_mem_kvsPut : pair ∈ step.kvsPut kvs pair (step.bucket pair.1) := by
  rw [kvsPut, update_self]
  split_ifs
  · exact mem_append_right _ (mem_singleton_self pair)
  · exact self_mem_replacePair _

theorem mem_kvsPut_of_mem (h : pair' ∈ kvs b)
    (hkey : step.noDupKeys = true ∨ (pair'.1 = pair.1 → pair' = pair)) :
    pair' ∈ step.kvsPut kvs pair b := by
  rw [kvsPut]
  by_cases hb : b = step.bucket pair.1
  · subst hb
    rw [update_self]
    split_ifs with hdup
    · exact mem_append_left _ h
    · exact mem_replacePair_of_mem h (hkey.resolve_left hdup)
  · rw [update_of_ne hb]
    exact h

variable {pairs : List KvsPair}

theorem mem_foldl_kvsPut (h : pair' ∈ pairs.foldl step.kvsPut kvs b) :
    pair' ∈ kvs b ∨ pair' ∈ pairs := by
  induction pairs generalizing kvs with
  | nil => exact .inl h
  | cons p ps ih =>
    rcases ih h with h | h
    · rcases mem_kvsPut h with h | rfl
      · exact .inl h
      · exact .inr mem_cons_self
    · exact .inr (mem_cons_of_mem p h)

theorem mem_foldl_kvsPut_of_mem (h : pair' ∈ kvs b)
    (hkey : step.noDupKeys = true ∨ ∀ p ∈ pairs, pair'.1 = p.1 → pair' = p) :
    pair' ∈ pairs.foldl step.kvsPut kvs b := by
  induction pairs generalizing kvs with
  | nil => exact h
  | cons p ps ih =>
    exact ih (mem_kvsPut_of_mem h (hkey.imp_right fun hkey => hkey p mem_cons_self))
      (hkey.imp_right fun hkey q hq => hkey q (mem_cons_of_mem p hq))

/-- All pairs that are stored are there, if a key has one value or all pairs are kept. -/
theorem mem_foldl_kvsPut_self (h : pair ∈ pairs)
    (hkey : step.noDupKeys = true ∨ ∀ p ∈ pairs, pair.1 = p.1 → pair = p) :
    pair ∈ pairs.foldl step.kvsPut kvs (step.bucket pair.1) := by
  induction pairs generalizing kvs with
  | nil => cases h
  | cons p ps ih =>
    have hkey' := hkey.imp_right fun hkey q hq => hkey q (mem_cons_of_mem p hq)
    rw [foldl_cons]
    rcases mem_cons.1 h with rfl | h
    · exact mem_foldl_kvsPut_of_mem self_mem_kvsPut hkey'
    · exact ih h hkey'

end

/-! ## Messages -/

theorem toUInt_toUInt_sub (a b : ℤ) : toUInt (toUInt a - b) = toUInt (a - b) := by
  unfold toUInt
  omega

section

variable {rank i : ℕ} {ok : Bool} {task : ℕ × ℕ}

/-- A message that is not expected is known. -/
theorem Inv.got_fence (h : s.Inv step) (hgot : i < s.rounds (step.parent rank) ∨
      i = s.rounds (step.parent rank) ∧ s.Accepted (step.parent rank) rank) :
    ({ s with gotFence := (rank, i) :: s.gotFence } : FenceSys).Inv step :=
  { h with
    fence := by
      intro c j hmem
      rcases mem_cons.1 hmem with heq | hmem
      · cases heq
        exact hgot
      · exact h.fence c j hmem }

/-- A child that has come stands for its node and those below. -/
theorem remNodes_accept {s' : FenceSys} {p c : ℕ}
    (hc : c ∈ children step.parent (step.nnodes + 1) p) (hnew : ¬s.Accepted p c)
    (hself : s'.Accepted p c) (hother : ∀ d, d ≠ c → (s'.Accepted p d ↔ s.Accepted p d)) :
    s'.remNodes step p + (step.numChildren c + 1) = s.remNodes step p := by
  have hchange := Count.sum_map_change
    (f := fun d => if s.Accepted p d then 0 else step.numChildren d + 1)
    (g := fun d => if s'.Accepted p d then 0 else step.numChildren d + 1) nodup_children hc
    fun d _ hd => by simp [hother d hd]
  rw [if_neg hnew, if_pos hself, add_zero] at hchange
  exact hchange

/-- The state with a message of a child in it, before anything is sent. -/
theorem Inv.accept (h : s.Inv step) (hpos : 0 < rank) (hrank : rank < step.nnodes + 1)
    (hi : i = s.rounds (step.parent rank)) {msg : TreeMsg} (hmsg : (s.sent rank)[i]? = some msg)
    (hnew : ¬s.Accepted (step.parent rank) rank) :
    (({ s with
        gotFence := (rank, i) :: s.gotFence
        childrenKvsSeq := update s.childrenKvsSeq (step.parent rank)
          (update (s.childrenKvsSeq (step.parent rank)) rank
            (toUInt (s.rounds (step.parent rank) + 1)))
        tasksToWait := update s.tasksToWait (step.parent rank)
          (toInt (s.remTasks step (step.parent rank)))
        childrenToWait := update s.childrenToWait (step.parent rank)
          (toInt (s.remNodes step (step.parent rank) - (step.numChildren rank + 1 : ℕ))) } :
      FenceSys).tempKvsMerge (step.parent rank) msg.pairs).InvBut step
        (some (step.parent rank)) := by
  have hlt : i < s.rounds rank := (List.getElem?_eq_some_iff.1 hmsg).1
  have hrounds : s.rounds rank = s.rounds (step.parent rank) + 1 := by
    rcases h.child rank hpos hrank with ⟨-, heq⟩ | ⟨-, -, hle⟩ <;> omega
  -- What was accepted stays, and the message is accepted.
  generalize hseq : update s.childrenKvsSeq (step.parent rank) _ = seq
  have hself : seq (step.parent rank) rank = toUInt (s.rounds (step.parent rank) + 1) := by
    rw [← hseq, update_self, update_self]
  have hother : ∀ x c, c ≠ rank → seq x c = s.childrenKvsSeq x c := by
    intro x c hc
    rw [← hseq]
    by_cases hx : x = step.parent rank
    · rw [hx, update_self, update_of_ne hc]
    · rw [update_of_ne hx]
  refine { h with
    head := fun r => ?_,
    own := fun p hp hround =>
      temp_append_subset _ _ (pairsLength msg.pairs) msg.pairs (h.own p hp hround),
    merged := fun c hc hcn hacc msg' hmsg' => ?_, tempPut := fun r pair hpair => ?_,
    child := fun c hc hcn => ?_, fence := fun c j hmem => ?_, waits := fun x hx hgap => ?_,
    started := fun x hx => ?_ }
  · obtain ⟨hseq, hnum⟩ :=
      head_temp_append (step.parent rank) r (pairsLength msg.pairs) msg.pairs
    exact ⟨hseq.trans (h.head r).1, hnum.trans (h.head r).2⟩
  · by_cases hcr : c = rank
    · subst hcr
      have hsame : msg' = msg := by
        rw [hi] at hmsg
        exact some.inj (hmsg'.symm.trans hmsg)
      rw [hsame, tempKvsMerge, temp_append_self]
      exact subset_append_right _ _
    · have hacc' : s.Accepted (step.parent c) c := (hother _ c hcr).symm.trans hacc
      exact List.Subset.trans (h.merged c hc hcn hacc' msg' hmsg')
        (temp_append_subset _ _ (pairsLength msg.pairs) msg.pairs)
  · rcases mem_temp_append (pairsLength msg.pairs) hpair with hold | hnew
    · exact h.tempPut r pair hold
    · exact h.sentPut rank msg (mem_of_getElem? hmsg) pair hnew
  · by_cases hcr : c = rank
    · subst hcr
      exact .inl ⟨hself, hrounds⟩
    · refine (h.child c hc hcn).imp ?_ ?_
      · rintro ⟨hacc, hc⟩
        exact ⟨(hother _ c hcr).trans hacc, hc⟩
      · rintro ⟨hseq, hc⟩
        exact ⟨(hother _ c hcr).trans hseq, hc⟩
  · rcases mem_cons.1 hmem with heq | hmem
    · cases heq
      exact .inr ⟨hi, hself⟩
    · refine (h.fence c j hmem).imp_right ?_
      rintro ⟨hj, hacc⟩
      refine ⟨hj, ?_⟩
      by_cases hcr : c = rank
      · subst hcr
        exact hself
      · exact (hother _ c hcr).trans hacc
  · have hne : x ≠ step.parent rank := fun heq => hgap (by rw [heq])
    have hsame : seq x = s.childrenKvsSeq x := by rw [← hseq, update_of_ne hne]
    exact (h.waits x hx (by simp)).congr (update_of_ne hne _ _)
      (update_of_ne hne _ _) rfl hsame fun _ => rfl
  · cases hx
    refine ⟨update_self _ _ _, (update_self _ _ _).trans ?_⟩
    refine congrArg toInt ?_
    rw [sub_eq_iff_eq_add, ← Nat.cast_add, Nat.cast_inj]
    symm
    refine remNodes_accept (mem_children.2 ⟨hpos, hrank, rfl⟩) hnew hself fun d hd => ?_
    exact iff_of_eq (congrArg (· = _) (hother _ d hd))

theorem Inv.exec_deliverFence (h : s.Inv step) (hok : s.OpOk step (.deliverFence rank i)) :
    (exec step s (.deliverFence rank i)).Inv step := by
  rw [exec]
  split
  · exact h
  rename_i msg hmsg
  split_ifs with hrank
  · obtain ⟨hpos, hrank⟩ := hrank
    obtain ⟨hseq, hnum⟩ := h.sent rank i msg hmsg
    have hlt : i < s.rounds rank := (List.getElem?_eq_some_iff.1 hmsg).1
    have hpn := (step.isTree.parent_lt rank hpos hrank).trans hrank
    have hahead : s.rounds rank ≤ s.rounds (step.parent rank) + 1 := by
      rcases h.child rank hpos hrank with ⟨-, heq⟩ | ⟨-, -, hle⟩ <;> omega
    rw [handleKvsFence]
    rw [hseq, h.kvsSeq]
    split_ifs with hother hdup
    · refine h.got_fence (.inl ?_)
      have hne : i ≠ s.rounds (step.parent rank) := by
        rintro rfl
        exact hother rfl
      omega
    -- A message that is not too late has the number of the round only if it is for the round.
    all_goals
      have hi : i = s.rounds (step.parent rank) := by
        rw [ne_eq, not_not, toUInt_eq_iff] at hother
        have hlate : s.rounds (step.parent rank) < i + 2 ^ 32 := hok.1
        omega
    · exact h.got_fence (.inr ⟨hi, by rw [Accepted, ← hdup, hi]⟩)
    · have hnew : ¬s.Accepted (step.parent rank) rank := by
        rintro hacc
        exact hdup (by rw [hacc, hi])
      have hcounts : ({ s with
          gotFence := (rank, i) :: s.gotFence
          childrenKvsSeq := update s.childrenKvsSeq (step.parent rank)
            (update (s.childrenKvsSeq (step.parent rank)) rank (toUInt (i + 1))) } :
          FenceSys).Counts step (step.parent rank) (s.remTasks step (step.parent rank))
          (s.remNodes step (step.parent rank)) := h.waits _ hpn (by simp)
      rw [hcounts.arrive (remTasks_lt _) (remNodes_lt hpn)]
      have hinv := h.accept hpos hrank hi hmsg hnew
      rw [hnum, tempKvsInit]
      simp only [if_pos hpos, cast_zero, Int.sub_zero]
      rw [← hi] at hinv
      exact hinv.complete hpn
  · exact h

theorem answered_resp_self (hpos : 0 < rank) (hrank : rank < step.nnodes + 1) :
    (s.sendKvsFenceRespToClients step rank ok).answered rank = s.answered rank + 1 := by
  have hltasks := step.ltasks_pos rank hpos hrank
  simp [answered, sendKvsFenceRespToClients, hltasks]

theorem answered_resp_of_ne {x : ℕ} (hx : x ≠ rank) :
    (s.sendKvsFenceRespToClients step rank ok).answered x = s.answered x := by
  simp [answered, sendKvsFenceRespToClients, hx]

theorem answered_resp_le (hpos : 0 < rank) (hrank : rank < step.nnodes + 1) (x : ℕ) :
    s.answered x ≤ (s.sendKvsFenceRespToClients step rank ok).answered x := by
  by_cases hx : x = rank
  · subst hx
    rw [answered_resp_self hpos hrank]
    omega
  · rw [answered_resp_of_ne hx]

theorem answers_resp_self (hx : task.1 = rank) (htask : task.2 < step.ltasks rank) :
    (s.sendKvsFenceRespToClients step rank ok).answers task = s.answers task ++ [ok] :=
  if_pos ⟨hx, htask⟩

theorem answers_resp_of_ne (hx : task.1 ≠ rank) :
    (s.sendKvsFenceRespToClients step rank ok).answers task = s.answers task :=
  if_neg fun h => hx h.1

/-- The pairs are stored, and the tasks are answered. -/
theorem Inv.answer (h : s.Inv step) (hpos : 0 < rank) (hrank : rank < step.nnodes + 1)
    {msg : TreeMsg} (hmsg : (s.sent 0)[i]? = some msg) (hi : i = s.answered rank)
    (hrounds : s.rounds rank = s.answered rank + 1) :
    (({ s with
        gotResp := (rank, i) :: s.gotResp
        waiting := update s.waiting rank false
        kvs := update s.kvs rank (msg.pairs.foldl step.kvsPut (s.kvs rank)) } :
      FenceSys).sendKvsFenceRespToClients step rank true).Inv step := by
  have hlt : i < s.rounds 0 := (List.getElem?_eq_some_iff.1 hmsg).1
  refine { h with
    kvsPut := fun r b pair hpair => ?_, phase := fun x hx hxn => ?_, behind := fun x hx hxn => ?_,
    task := fun task htask => ?_, put := fun p hp => ?_,
    stored := fun x hx hxn j hj msg' hmsg' pair hpair => ?_, resp := fun x j hmem => ?_ }
  · dsimp only [sendKvsFenceRespToClients] at hpair
    by_cases hr : r = rank
    · subst hr
      rw [update_self] at hpair
      rcases mem_foldl_kvsPut hpair with hold | hnew
      · exact h.kvsPut r b pair hold
      · exact h.sentPut 0 msg (mem_of_getElem? hmsg) pair hnew
    · rw [update_of_ne hr] at hpair
      exact h.kvsPut r b pair hpair
  · by_cases hxr : x = rank
    · subst hxr
      refine .inr ⟨update_self _ _ _, ?_⟩
      rw [answered_resp_self hpos hrank]
      exact hrounds
    · rw [answered_resp_of_ne hxr]
      dsimp only [sendKvsFenceRespToClients]
      rw [update_of_ne hxr]
      exact h.phase x hx hxn
  · by_cases hxr : x = rank
    · subst hxr
      rw [answered_resp_self hpos hrank]
      exact (hi ▸ hlt : s.answered x < s.rounds 0)
    · rw [answered_resp_of_ne hxr]
      exact h.behind x hx hxn
  · obtain ⟨hlen, hle, hentered, hall⟩ := h.task task htask
    by_cases hx : task.1 = rank
    · have hlrank : task.2 < step.ltasks rank := hx ▸ htask.2.2
      rw [answers_resp_self hx hlrank, hx, answered_resp_self hpos hrank, length_append,
        length_singleton]
      rw [hx] at hlen hle hentered
      refine ⟨congrArg (· + 1) hlen, hle, hentered.trans (le_succ _), fun ok hok => ?_⟩
      rcases mem_append.1 hok with hold | hnew
      · exact hall ok hold
      · exact mem_singleton.1 hnew
    · rw [answers_resp_of_ne hx, answered_resp_of_ne hx]
      exact ⟨hlen, hle, hentered, hall⟩
  · exact ⟨(h.put p hp).1, (h.put p hp).2.trans (answered_resp_le hpos hrank _)⟩
  · dsimp only [sendKvsFenceRespToClients]
    by_cases hxr : x = rank
    · subst hxr
      rw [answered_resp_self hpos hrank] at hj
      -- The message says no more about a key than what was put.
      have hkeys : ∀ pair, s.WasPut pair → step.noDupKeys = true ∨
          ∀ p ∈ msg.pairs, pair.1 = p.1 → pair = p := by
        rintro _ ⟨p, hp, rfl⟩
        refine h.keys.imp_right fun hkeys q hq hkey => ?_
        obtain ⟨q, hq', rfl⟩ := h.sentPut 0 msg (mem_of_getElem? hmsg) q hq
        exact hkeys p hp q hq' hkey
      have hput := h.sentPut 0 msg' (mem_of_getElem? hmsg') pair hpair
      rw [update_self]
      rcases lt_or_ge j (s.answered x) with hold | hnew
      · exact mem_foldl_kvsPut_of_mem (h.stored x hx hxn j hold msg' hmsg' pair hpair)
          (hkeys pair hput)
      · obtain rfl : j = i := hi ▸ le_antisymm (le_of_lt_succ hj) hnew
        obtain rfl : msg' = msg := some.inj (hmsg'.symm.trans hmsg)
        exact mem_foldl_kvsPut_self hpair (hkeys pair hput)
    · rw [answered_resp_of_ne hxr] at hj
      rw [update_of_ne hxr]
      exact h.stored x hx hxn j hj msg' hmsg' pair hpair
  · rcases mem_cons.1 hmem with heq | hmem
    · cases heq
      rw [answered_resp_self hpos hrank]
      exact hi.trans_lt (lt_succ_self _)
    · exact (h.resp x j hmem).trans_le (answered_resp_le hpos hrank _)

theorem Inv.exec_deliverResp (h : s.Inv step) (hok : s.OpOk step (.deliverResp rank i)) :
    (exec step s (.deliverResp rank i)).Inv step := by
  rw [exec]
  split
  · exact h
  rename_i msg hmsg
  split_ifs with hrank
  · obtain ⟨hpos, hrank⟩ := hrank
    have hseq := (h.sent 0 i msg hmsg).1
    have hlt : i < s.rounds 0 := (List.getElem?_eq_some_iff.1 hmsg).1
    have hroot := h.rounds_root_le hrank
    have hphase := h.phase rank hpos hrank
    have hgot : i < s.answered rank →
        ({ s with gotResp := (rank, i) :: s.gotResp } : FenceSys).Inv step := by
      refine fun hi => { h with resp := fun x j hmem => ?_ }
      rcases mem_cons.1 hmem with heq | hmem
      · cases heq
        exact hi
      · exact h.resp x j hmem
    rw [OpOk, ← rounds] at hok
    rw [handleKvsFenceResp]
    rw [hseq, h.kvsSeq, toUInt_toUInt_sub, toUInt_toUInt_sub]
    split_ifs with hlate herror hwaiting
    · refine hgot ?_
      rw [toUInt_eq_iff] at hlate
      omega
    · rw [toUInt_eq_iff] at hlate
      rw [ne_eq, toUInt_eq_iff] at herror
      omega
    · refine hgot ?_
      rw [hwaiting] at hphase
      simp only [Bool.false_eq_true, false_and, true_and, false_or] at hphase
      omega
    · rw [toUInt_eq_iff] at hlate
      rw [Bool.not_eq_false] at hwaiting
      rw [hwaiting] at hphase
      simp only [true_and, Bool.true_eq_false, false_and, or_false] at hphase
      exact h.answer hpos hrank hmsg (by omega) hphase
  · exact h

end

/-! ## Runs -/

theorem Inv.exec (h : s.Inv step) {op : FenceOp} (hok : s.OpOk step op) :
    (exec step s op).Inv step := by
  cases op with
  | put task pair => exact h.exec_put hok
  | enter task => exact h.exec_enter
  | deliverFence rank i => exact h.exec_deliverFence hok
  | deliverResp rank i => exact h.exec_deliverResp hok

theorem inv_init (step : FenceStep) : (init step).Inv step where
  kvsSeq _ := rfl
  head _ := ⟨rfl, rfl⟩
  sent _ _ _ hmsg := by cases hmsg
  own p hp := by cases hp
  merged _ _ _ _ _ hmsg := by cases hmsg
  below _ _ _ hmsg := by cases hmsg
  tempPut _ pair hpair := by cases hpair
  sentPut _ msg hmsg := by cases hmsg
  kvsPut _ _ pair hpair := by cases hpair
  phase _ _ _ := .inr ⟨rfl, rfl⟩
  behind _ _ _ := le_rfl
  task _ _ := ⟨rfl, le_rfl, zero_le _, fun _ hok => by cases hok⟩
  child _ _ _ := .inr ⟨rfl, le_rfl, zero_le _⟩
  put p hp := by cases hp
  stored _ _ _ _ hi := by cases hi
  fence _ _ hgot := by cases hgot
  resp _ _ hgot := by cases hgot
  keys := .inr fun p hp => by cases hp
  waits r hr _ := by
    have htasks : (init step).remTasks step r = step.ltasks r := by
      rw [remTasks, countP_eq_length.2, length_range]
      exact fun _ _ => decide_eq_true (zero_le _)
    have hnodes : (init step).remNodes step r = step.numChildren r := by
      rw [remNodes, numChildren_eq_sum hr]
      refine congrArg sum (map_congr_left fun c _ => ?_)
      rw [if_neg (not_accepted rfl)]
    rw [Waits, htasks, hnodes]
    exact .inr ⟨rfl, rfl, rfl, rfl⟩
  started _ hr := by cases hr

theorem inv_run {ops : List FenceOp} (h : Run.Admissible (exec step) (OpOk step) (init step) ops) :
    (Run.run (exec step) (init step) ops).Inv step :=
  Run.invariant_run (fun _ _ hinv hok => hinv.exec hok) (inv_init step) h

theorem Inv.answersRight (h : s.Inv step) : s.AnswersRight step := by
  intro task htask
  obtain ⟨hlen, -, -, hall⟩ := h.task task htask
  have hbehind := h.behind task.1 htask.1 htask.2.1
  refine ⟨hall, fun other hother => ?_, fun p hp hround => ?_⟩
  · have hroot := h.rounds_root_le hother.2.1
    have hentered := (h.task other hother).2.1
    omega
  · -- The pair is in the message of `srun` for its round, since all tasks are below `srun`.
    rw [hlen] at hround
    have hlt : p.round < (s.sent 0).length := hround.trans_le hbehind
    have hmsg := getElem?_eq_getElem hlt
    have hmem := h.below 0 p.round _ hmsg p hp rfl (step.isTree.below_root (h.put p hp).1.2.1)
    exact h.stored task.1 htask.1 htask.2.1 p.round hround _ hmsg p.pair hmem

/-- When all messages were delivered and all tasks have entered a round, no `slurmstepd` has still
    to send its message. -/
theorem Inv.rounds_of_delivered (h : s.Inv step) {k : ℕ}
    (hgot : ∀ c, 0 < c → c < step.nnodes + 1 → ∀ i < s.rounds c, (c, i) ∈ s.gotFence)
    (hanswered : ∀ c, 0 < c → c < step.nnodes + 1 → s.answered c = k)
    (hentered : ∀ task, step.IsTask task → s.entered task = k + 1) {r : ℕ}
    (hr : r < step.nnodes + 1) (hroot : r = 0 → s.rounds 0 = k) :
    0 < r ∧ s.rounds r = k + 1 := by
  induction r, hr using step.isTree.induction_up with
  | step r hr ih =>
    by_contra hnot
    have hrounds : s.rounds r = k := by
      rcases Nat.eq_zero_or_pos r with hzero | hpos
      · rw [hzero]
        exact hroot hzero
      · have hphase := h.phase r hpos hr
        rw [hanswered r hpos hr] at hphase
        omega
    -- Nothing is left to wait for.
    have htasks : s.remTasks step r = 0 := by
      rw [remTasks, countP_eq_zero]
      intro l hl
      rw [mem_range] at hl
      have hpos : 0 < r := by
        by_contra hzero
        rw [Nat.eq_zero_of_not_pos hzero, step.ltasks_root] at hl
        omega
      rw [decide_eq_true_eq, hentered (r, l) ⟨hpos, hr, hl⟩]
      omega
    have hnodes : s.remNodes step r = 0 := by
      rw [remNodes, sum_eq_zero_iff]
      intro x hx
      obtain ⟨c, hc, rfl⟩ := mem_map.1 hx
      obtain ⟨hcpos, hcn, hparent⟩ := mem_children.1 hc
      have hsent := (ih c hc fun hzero => absurd hcpos (by omega)).2
      have hfence := h.fence c k (hgot c hcpos hcn k (by omega))
      rw [hparent] at hfence
      rcases hfence with hlt | ⟨-, hacc⟩
      · omega
      · rw [if_pos hacc]
    have hpos := ltasks_add_numChildren_pos hr
    have hwaits := h.waits r hr (by simp)
    rcases hwaits with ⟨-, -, hlt⟩ | ⟨-, -, hltasks, hchildren⟩ <;> omega

theorem Inv.allAnswered (h : s.Inv step) : s.AllAnswered step := by
  intro hgot rounds hrounds task htask
  have hanswered : ∀ c, 0 < c → c < step.nnodes + 1 → s.answered c = s.rounds 0 := by
    intro c hc hcn
    refine le_antisymm (h.behind c hc hcn) (Nat.le_of_not_lt fun hlt => ?_)
    exact (h.resp c _ ((hgot c hc hcn).2 _ hlt)).false
  obtain ⟨hlen, hle, hupper, -⟩ := h.task task htask
  rw [hanswered _ htask.1 htask.2.1] at hlen hupper
  rw [hrounds task htask] at hle hupper
  have hroot := h.rounds_root_le htask.2.1
  by_contra hne
  have hentered : ∀ task, step.IsTask task → s.entered task = s.rounds 0 + 1 := by
    intro other hother
    rw [hrounds other hother]
    omega
  exact (h.rounds_of_delivered (fun c hc hcn => (hgot c hc hcn).1) hanswered hentered
    (Nat.succ_pos _) fun _ => rfl).1.false

/-! ## The buffers -/

/-- Nothing was written behind a buffer, and the sizes of buffers are those of an `int`. -/
def BufsSound (s : FenceSys) : Prop := ∀ rank, ∃ k, s.buf rank = some k ∧ k.Sound

theorem initBuf_sound (step : FenceStep) (rank : ℕ) :
    ∃ k, step.initBuf rank = some k ∧ k.Sound := by
  have hname := step.thisNode_lt rank
  have hhead : step.headLength rank ≤ TempKvs.sizeInc := by
    rw [headLength, TempKvs.sizeInc]
    split_ifs <;> omega
  exact TempKvs.exists_append ⟨zero_le _, by decide⟩ (.inl (by rwa [Nat.zero_add]))

theorem BufsSound.congr {s' : FenceSys} (h : s.BufsSound) (hbuf : s'.buf = s.buf) :
    s'.BufsSound := by
  rwa [BufsSound, hbuf]

/-- One buffer is replaced. -/
theorem BufsSound.update {s' : FenceSys} (h : s.BufsSound) {rank : ℕ} {b : Option TempKvs}
    (hbuf : s'.buf = Function.update s.buf rank b) (hb : ∃ k, b = some k ∧ k.Sound) :
    s'.BufsSound := by
  intro r
  rw [hbuf]
  by_cases hr : r = rank
  · rwa [hr, update_self]
  · rw [update_of_ne hr]
    exact h r

theorem BufsSound.append (h : s.BufsSound) {rank inc : ℕ} {pairs : List KvsPair}
    (hroom : s.HasRoom rank inc (pairsLength pairs)) :
    (s.tempKvsAppend rank inc pairs).BufsSound := by
  obtain ⟨k, hk, hsound⟩ := h rank
  refine h.update rfl ?_
  rw [hk, bind_some]
  exact TempKvs.exists_append hsound (hroom k hk)

theorem BufsSound.complete (h : s.BufsSound) (rank : ℕ) : (s.complete step rank).BufsSound := by
  rw [FenceSys.complete]
  split_ifs
  · exact h.update rfl (initBuf_sound step rank)
  · exact h

theorem buf_startRound (s : FenceSys) (rank : ℕ) : (s.startRound step rank).buf = s.buf := by
  rw [startRound]
  split_ifs <;> rfl

theorem BufsSound.exec (h : s.BufsSound) {op : FenceOp} (hok : s.OpOk step op) :
    (exec step s op).BufsSound := by
  cases op with
  | put task pair =>
    rw [FenceSys.exec]
    split_ifs
    · exact (h.append hok.2).congr rfl
    · exact h
  | enter task =>
    rw [FenceSys.exec]
    split_ifs
    · refine BufsSound.complete ?_ task.1
      exact h.congr (buf_startRound _ _)
    · exact h
  | deliverFence rank i =>
    rw [FenceSys.exec]
    split
    · exact h
    rename_i msg hmsg
    split_ifs
    · rw [handleKvsFence]
      split_ifs
      · exact h.congr rfl
      · exact h.congr rfl
      · refine BufsSound.complete (BufsSound.append ?_ ?_) _
        · exact h.congr (buf_startRound _ _)
        · intro k hk
          rw [arrive, buf_startRound] at hk
          exact hok.2 msg hmsg k hk
    · exact h
  | deliverResp rank i =>
    rw [FenceSys.exec]
    split
    · exact h
    split_ifs
    · rw [handleKvsFenceResp]
      split_ifs <;> exact h.congr rfl
    · exact h

theorem inBounds_run {ops : List FenceOp}
    (h : Run.Admissible (FenceSys.exec step) (OpOk step) (init step) ops) :
    (Run.run (FenceSys.exec step) (init step) ops).InBounds := by
  have hsound := Run.invariant_run (I := BufsSound) (fun _ _ hinv hok => hinv.exec hok)
    (show (init step).BufsSound from initBuf_sound step) h
  intro rank
  obtain ⟨k, hk, hin, -⟩ := hsound rank
  exact ⟨k, hk, hin⟩

/-! ## The tree -/

theorem isTree_upward {fuel nnodes width : ℕ} (htree : DescribesTree fuel (nnodes + 1) width) :
    Rooted.IsTree (upward fuel (nnodes + 1) width) (nnodes + 1) := by
  refine ⟨?_, fun c hc hcn => ?_⟩
  · obtain ⟨t, ht, hplace⟩ := htree 0 (Nat.succ_pos _)
    have hparent := hplace.parent
    rw [if_pos rfl] at hparent
    rw [upward, ht]
    simp [hparent]
  · obtain ⟨t, ht, hplace⟩ := htree c hcn
    have hparent := hplace.parent
    rw [if_neg hc.ne'] at hparent
    rw [upward, ht]
    dsimp only
    omega

theorem one_task_lt (rank : ℕ) : (if rank = 0 then 0 else 1) < 2 ^ 32 := by
  split_ifs <;> decide

/-- The tree that is set up for a step, when each rank finds its place in it. -/
def reverseTreeStep (fuel nnodes width : ℕ) (htree : DescribesTree fuel (nnodes + 1) width)
    (hpos : 0 < nnodes) (hlt : nnodes < 2 ^ 32) (thisNode : ℕ → List Char)
    (hname : ∀ rank, (thisNode rank).length < 2 ^ 10) (noDupKeys : Bool) : FenceStep where
  nnodes := nnodes
  parent := upward fuel (nnodes + 1) width
  numChildren rank := match reverseTreeInfo fuel rank (nnodes + 1 : ℕ) width with
    | some t => t.numChildren.toNat
    | none => 0
  thisNode := thisNode
  ltasks rank := if rank = 0 then 0 else 1
  noDupKeys := noDupKeys
  ntasks := nnodes
  nnodes_pos := hpos
  nnodes_lt := hlt
  isTree := isTree_upward htree
  numChildren_eq rank hrank := by
    obtain ⟨t, ht, hplace⟩ := htree rank hrank
    rw [ht]
    dsimp only
    rw [hplace.numChildren, Int.toNat_natCast]
    rfl
  thisNode_lt := hname
  ltasks_root := rfl
  ltasks_pos rank hrank _ := by
    rw [if_neg hrank.ne']
    exact one_pos
  ltasks_lt := one_task_lt

/-! ## Answers -/

/-- If a key has one value, or all pairs are kept, the buffers have room, and no message of `srun` is
    more than one round late, nor another one by all numbers that there are, then in each state that
    is reached each answer is given for a round that all tasks have entered, when what was put before
    is stored; when all messages were delivered, all have their answers; and nothing is written
    behind a buffer. -/
theorem fence_right (step : FenceStep) (ops : List FenceOp)
    (h : Run.Admissible (FenceSys.exec step) (OpOk step) (init step) ops) :
    (Run.run (FenceSys.exec step) (init step) ops).AnswersRight step ∧
      (Run.run (FenceSys.exec step) (init step) ops).AllAnswered step ∧
      (Run.run (FenceSys.exec step) (init step) ops).InBounds :=
  ⟨(inv_run h).answersRight, (inv_run h).allAnswered, inBounds_run h⟩

/-- Two nodes with a task each, both below `srun`. -/
def twoNodes : FenceStep :=
  reverseTreeStep 31 2 2
    (describesTree_of_fits le_rfl (by decide) ⟨1, by decide, by decide⟩ le_rfl)
    Nat.two_pos (by decide) (fun rank => if rank = 1 then ['a'] else ['b'])
    (fun rank => by split_ifs <;> decide) false

theorem fence_right_twoNodes :
    let ops : List FenceOp := [.put (1, 0) ("key".toList, "1".toList), .enter (1, 0), .enter (2, 0),
      .deliverFence 1 0, .deliverFence 2 0, .deliverResp 1 0, .deliverFence 2 0, .deliverResp 2 0,
      .deliverResp 1 0]
    Run.Admissible (FenceSys.exec twoNodes) (OpOk twoNodes) (init twoNodes) ops ∧
      (Run.run (FenceSys.exec twoNodes) (init twoNodes) ops).answers (2, 0) = [true] ∧
      (Run.run (FenceSys.exec twoNodes) (init twoNodes) ops).AnswersRight twoNodes ∧
      (Run.run (FenceSys.exec twoNodes) (init twoNodes) ops).AllAnswered twoNodes ∧
      (Run.run (FenceSys.exec twoNodes) (init twoNodes) ops).InBounds := by
  intro ops
  have hok : Run.Admissible (exec twoNodes) (OpOk twoNodes) (init twoNodes) ops := by
    decide
  exact ⟨hok, by decide, fence_right twoNodes ops hok⟩

/-- The answer of `srun` to the first round comes a second time, in the third round: the task of the
    first node is told of an error, and the task of the second node has not entered. -/
theorem late_answer : ¬(Run.run (FenceSys.exec twoNodes) (init twoNodes)
    [.enter (1, 0), .enter (2, 0), .deliverFence 1 0, .deliverFence 2 0, .deliverResp 1 0,
      .deliverResp 2 0, .enter (1, 0), .enter (2, 0), .deliverFence 1 1, .deliverFence 2 1,
      .deliverResp 1 1, .deliverResp 2 1, .enter (1, 0), .deliverResp 1 0]).AnswersRight
    twoNodes := by
  intro h
  have hle := (h (1, 0) (by decide)).2.1 (2, 0) (by decide)
  revert hle
  decide

end FenceSys

end Slurm
