import Slurm.Lib.Run
import Slurm.Lib.Timeline
import Slurm.Record

/-!
# The map of the backfill scheduler

The backfill scheduler (`backfill.c`) keeps a map of the nodes that are available
in each period of its window: a table of records, each with the index of the record
of the next period. The list starts at the index zero, which also marks its end. A
job that is to start later reserves its nodes in the map (`_add_reservation`).

The loops of `_add_reservation` follow the list in the table; here they have fuel,
and return nothing without it. Each of them does to the list what a function of
`Slurm.Lib.Timeline` does (`place_spec`, `applyMask_spec`, `dropEqual_spec`), so that
the map denotes the reservations that were made (`nodeSpace_exact`).
-/

namespace Slurm

open Timeline Function List Nat

/-- A period, and the nodes that are available in it (`node_space_map_t`). -/
structure NodeSpaceMap where
  beginTime : ℤ := 0
  endTime : ℤ := 0
  availBitmap : Bitmap := ∅
  next : ℕ := 0

/-- The table of the periods, and how many of its records are in use (`node_space`,
    `node_space_recs`). -/
structure NodeSpace where
  map : ℕ → NodeSpaceMap := fun _ => {}
  recs : ℕ := 0

/-- A call of `_add_reservation`. The bitmap has the nodes that stay available. -/
structure ResvCall where
  startTime : UInt32
  endReserve : UInt32
  resBitmap : Bitmap

namespace NodeSpace

/-- Write a record of the table. -/
def set (s : NodeSpace) (i : ℕ) (r : NodeSpaceMap) : NodeSpace :=
  { s with map := update s.map i r }

/-- The map of a window in which the nodes `avail` are available. -/
def init (schedStart : ℤ) (window : ℕ) (avail : Bitmap) : NodeSpace where
  map := update (fun _ => {}) 0
    { beginTime := schedStart, endTime := schedStart + window, availBitmap := avail }
  recs := 1

/-- Insert a record after `j`, for what is left of its period from `t` on. -/
def split (s : NodeSpace) (j : ℕ) (t : ℤ) : NodeSpace :=
  let i := s.recs
  let s := s.set i { s.map j with beginTime := t }
  let s := s.set j { s.map j with endTime := t, next := i }
  { s with recs := s.recs + 1 }

/-- Insert the record that begins at the end of a reservation, among those after `j`. -/
def placeEnd (endReserve : ℤ) : ℕ → NodeSpace → ℕ → Option NodeSpace
  | 0, _, _ => none
  | fuel + 1, s, j =>
    let j := (s.map j).next
    if j = 0 then some s
    else if endReserve < (s.map j).endTime then some (s.split j endReserve)
    else if endReserve = (s.map j).endTime then some s
    else placeEnd endReserve fuel s j

/-- Insert the records that begin at the start and at the end of a reservation. -/
def place (startTime endReserve : ℤ) : ℕ → NodeSpace → ℕ → Option NodeSpace
  | 0, _, _ => none
  | fuel + 1, s, j =>
    let s := if startTime < (s.map j).endTime then s.split j startTime else s
    -- The record `j` ends here now if it was split, and then the start is placed.
    if (s.map j).endTime = startTime then placeEnd endReserve (fuel + 1) s j
    else
      let j := (s.map j).next
      if j = 0 then some s else place startTime endReserve fuel s j

/-- Take the nodes of a reservation out of the periods within it. -/
def applyMask (startTime endReserve : ℤ) (resBitmap : Bitmap) :
    ℕ → NodeSpace → ℕ → Option NodeSpace
  | 0, _, _ => none
  | fuel + 1, s, j =>
    let s :=
      if startTime ≤ (s.map j).beginTime ∧ (s.map j).endTime ≤ endReserve then
        s.set j { s.map j with availBitmap := (s.map j).availBitmap ∩ resBitmap }
      else s
    if endReserve ≤ (s.map j).beginTime then some s
    else
      let j := (s.map j).next
      if j = 0 then some s else applyMask startTime endReserve resBitmap fuel s j

/-- Drop the first record with the bitmap of the one before it. -/
def dropEqual : ℕ → NodeSpace → ℕ → Option NodeSpace
  | 0, _, _ => none
  | fuel + 1, s, i =>
    let j := (s.map i).next
    if j = 0 then some s
    else if (s.map i).availBitmap ≠ (s.map j).availBitmap then dropEqual fuel s j
    else
      let s := s.set i { s.map i with endTime := (s.map j).endTime, next := (s.map j).next }
      some (s.set j { s.map j with availBitmap := ∅ })

/-- Reserve nodes (`_add_reservation`). The start of the reservation is a number of 32
    bits. -/
def addReservation (fuel : ℕ) (s : NodeSpace) (call : ResvCall) : Option NodeSpace := do
  let startTime : ℤ := max (call.startTime.toNat : ℤ) (s.map 0).beginTime % 2 ^ 32
  let endReserve : ℤ := call.endReserve.toNat
  let s ← place startTime endReserve fuel s 0
  let s ← applyMask startTime endReserve call.resBitmap fuel s 0
  dropEqual fuel s 0

/-! ## The list in the table -/

/-- The records after `j` are those with the indices `l`. -/
def Chain (s : NodeSpace) : ℕ → List ℕ → Prop
  | j, [] => (s.map j).next = 0
  | j, k :: l => (s.map j).next = k ∧ k ≠ 0 ∧ Chain s k l

/-- A record as a slot of a timeline. -/
def slot (s : NodeSpace) (j : ℕ) : Slot Bitmap :=
  ⟨(s.map j).beginTime, (s.map j).endTime, (s.map j).availBitmap⟩

/-- The records with the indices `l` as slots. -/
def slots (s : NodeSpace) (l : List ℕ) : List (Slot Bitmap) := l.map s.slot

/-- The list from `j` on is a list of different records in use. -/
structure Linked (s : NodeSpace) (j : ℕ) (l : List ℕ) : Prop where
  chain : s.Chain j l
  nodup : (j :: l).Nodup
  lt : ∀ k ∈ j :: l, k < s.recs

/-- From `s` to `s'` the list from `j` on changes from `l` to `l'`. The other records in use
    do not. -/
structure Becomes (s : NodeSpace) (j : ℕ) (l : List ℕ) (s' : NodeSpace) (l' : List ℕ) :
    Prop where
  linked : s'.Linked j l'
  recs : s.recs ≤ s'.recs
  frame : ∀ k, k < s.recs → k ∉ j :: l → s'.map k = s.map k
  fresh : ∀ k ∈ l', k ∈ l ∨ s.recs ≤ k

variable {s s' s'' : NodeSpace} {j k : ℕ} {l l' l'' : List ℕ}

/-- A record that points to the same one as `j` is followed by the same records. -/
theorem Chain.redirect (h : s.Chain j l) (hnext : (s'.map k).next = (s.map j).next)
    (hmap : ∀ i ∈ l, s'.map i = s.map i) : s'.Chain k l := by
  induction l generalizing j k with
  | nil => exact hnext.trans h
  | cons i l ih =>
    obtain ⟨hi, hne, hrest⟩ := h
    refine ⟨hnext.trans hi, hne, ih hrest ?_ fun i' hi' => hmap i' (mem_cons_of_mem i hi')⟩
    rw [hmap i mem_cons_self]

theorem Linked.tail (h : s.Linked j (k :: l)) : s.Linked k l :=
  ⟨h.chain.2.2, (nodup_cons.1 h.nodup).2, fun i hi => h.lt i (mem_cons_of_mem j hi)⟩

theorem Linked.length_lt (h : s.Linked j l) : l.length < s.recs := by
  have hsub : (j :: l) ⊆ List.range s.recs := fun i hi => mem_range.2 (h.lt i hi)
  have hle := (h.nodup.subperm hsub).length_le
  rw [length_range, length_cons] at hle
  exact hle

theorem slots_congr (h : ∀ k ∈ l, s'.map k = s.map k) : s'.slots l = s.slots l :=
  map_congr_left fun k hk => by rw [slot, h k hk, slot]

theorem Linked.becomes (h : s.Linked j l) : s.Becomes j l s l :=
  ⟨h, le_rfl, fun _ _ _ => rfl, fun _ hk => .inl hk⟩

theorem Becomes.trans (h : s.Becomes j l s' l') (h' : s'.Becomes j l' s'' l'') :
    s.Becomes j l s'' l'' := by
  refine ⟨h'.linked, h.recs.trans h'.recs, fun k hk hkl => ?_, fun k hk => ?_⟩
  · have hkl' : k ∉ j :: l' := by
      intro hmem
      rcases mem_cons.1 hmem with rfl | hmem
      · exact hkl mem_cons_self
      · rcases h.fresh k hmem with hold | hnew
        · exact hkl (mem_cons_of_mem j hold)
        · omega
    rw [h'.frame k (lt_of_lt_of_le hk h.recs) hkl', h.frame k hk hkl]
  · rcases h'.fresh k hk with hmem | hnew
    · exact h.fresh k hmem
    · exact .inr (h.recs.trans hnew)

/-- A change of the list behind `j` does not change the record `j`. -/
theorem Becomes.cons (h : s.Becomes k l s' l') (hj : s.Linked j (k :: l)) :
    s.Becomes j (k :: l) s' (k :: l') ∧ s'.slot j = s.slot j := by
  obtain ⟨hnotin, -⟩ := nodup_cons.1 hj.nodup
  have hlt := hj.lt j mem_cons_self
  have hjob : s'.map j = s.map j := h.frame j hlt hnotin
  have hnotin' : j ∉ k :: l' := by
    intro hmem
    rcases mem_cons.1 hmem with rfl | hmem
    · exact hnotin mem_cons_self
    · rcases h.fresh j hmem with hold | hnew
      · exact hnotin (mem_cons_of_mem k hold)
      · omega
  refine ⟨⟨⟨⟨?_, hj.chain.2.1, h.linked.chain⟩, nodup_cons.2 ⟨hnotin', h.linked.nodup⟩,
    fun i hi => ?_⟩, h.recs, fun i hi hil => ?_, fun i hi => ?_⟩, by rw [slot, hjob, slot]⟩
  · rw [hjob]
    exact hj.chain.1
  · rcases mem_cons.1 hi with rfl | hi
    · exact lt_of_lt_of_le hlt h.recs
    · exact h.linked.lt i hi
  · exact h.frame i hi fun hmem => hil (mem_cons_of_mem j hmem)
  · rcases mem_cons.1 hi with rfl | hi
    · exact .inl mem_cons_self
    · exact (h.fresh i hi).imp_left (mem_cons_of_mem k)

/-- The record `j` is written, and points to the same one as before. -/
theorem Linked.set (h : s.Linked j l) {r : NodeSpaceMap} (hr : r.next = (s.map j).next) :
    s.Becomes j l (s.set j r) l ∧ (s.set j r).slots l = s.slots l := by
  have hother (k : ℕ) (hk : k ≠ j) : (s.set j r).map k = s.map k := update_of_ne hk ..
  have hself : (s.set j r).map j = r := update_self ..
  obtain ⟨hnotin, -⟩ := nodup_cons.1 h.nodup
  have hrest (k : ℕ) (hk : k ∈ l) : (s.set j r).map k = s.map k :=
    hother k fun hkj => hnotin (hkj ▸ hk)
  refine ⟨⟨⟨?_, h.nodup, h.lt⟩, le_rfl, fun k _ hkl => ?_, fun k hk => .inl hk⟩, slots_congr hrest⟩
  · exact h.chain.redirect (by rw [hself, hr]) hrest
  · exact hother k fun hkj => hkl (hkj ▸ mem_cons_self)

/-- The record `j` is split in two. -/
theorem Linked.split (h : s.Linked j l) (t : ℤ) :
    s.Becomes j l (s.split j t) (s.recs :: l) ∧ (s.split j t).slots (j :: s.recs :: l) =
        { s.slot j with stop := t } :: { s.slot j with start := t } :: s.slots l := by
  have hlt := h.lt j mem_cons_self
  have hne : s.recs ≠ j := by omega
  obtain ⟨hnotin, hnodup⟩ := nodup_cons.1 h.nodup
  have hfresh : s.recs ∉ l := fun hmem => absurd (h.lt _ (mem_cons_of_mem j hmem)) (lt_irrefl _)
  have hself : (s.split j t).map j = { s.map j with endTime := t, next := s.recs } := by
    simp [NodeSpace.split, NodeSpace.set, update_of_ne hne.symm]
  have hnew : (s.split j t).map s.recs = { s.map j with beginTime := t } := by
    simp [NodeSpace.split, NodeSpace.set, update_of_ne hne]
  have hother (k : ℕ) (hkj : k ≠ j) (hk : k ≠ s.recs) : (s.split j t).map k = s.map k := by
    simp [NodeSpace.split, NodeSpace.set, update_of_ne hkj, update_of_ne hk]
  have hrest (k : ℕ) (hk : k ∈ l) : (s.split j t).map k = s.map k :=
    hother k (fun hkj => hnotin (hkj ▸ hk)) fun hkr => hfresh (hkr ▸ hk)
  refine ⟨⟨⟨⟨by rw [hself], by omega, ?_⟩, ?_, fun k hk => ?_⟩, le_succ _, fun k hk hkl => ?_,
    fun k hk => ?_⟩, ?_⟩
  · exact h.chain.redirect (by rw [hnew]) hrest
  · refine nodup_cons.2 ⟨fun hmem => ?_, nodup_cons.2 ⟨hfresh, hnodup⟩⟩
    exact (mem_cons.1 hmem).elim (fun hjr => hne hjr.symm) hnotin
  · have hle : k ≤ s.recs := by
      rcases mem_cons.1 hk with rfl | hk
      · exact hlt.le
      · rcases mem_cons.1 hk with rfl | hk
        · exact le_rfl
        · exact (h.lt k (mem_cons_of_mem j hk)).le
    exact lt_succ_of_le hle
  · exact hother k (fun hkj => hkl (hkj ▸ mem_cons_self)) hk.ne
  · exact (mem_cons.1 hk).symm.imp_right fun hkr => hkr.ge
  · have hslots := slots_congr hrest
    simp only [slots, map_cons] at hslots ⊢
    rw [hslots]
    simp [slot, hself, hnew]

/-- The record after `j` leaves the list, and `j` gets its period. -/
theorem Linked.unlink (h : s.Linked j (k :: l)) :
    let c := s.set j { s.map j with endTime := (s.map k).endTime, next := (s.map k).next }
    let s' := c.set k { c.map k with availBitmap := ∅ }
    s.Becomes j (k :: l) s' l ∧
      s'.slots (j :: l) = { s.slot j with stop := (s.map k).endTime } :: s.slots l := by
  intro c s'
  obtain ⟨hj, hnodup⟩ := nodup_cons.1 h.nodup
  obtain ⟨hk, hnodup'⟩ := nodup_cons.1 hnodup
  have hjk : j ≠ k := fun hjk => hj (hjk ▸ mem_cons_self)
  have hself : s'.map j = { s.map j with endTime := (s.map k).endTime, next := (s.map k).next } := by
    simp [s', c, NodeSpace.set, update_of_ne hjk]
  have hother (i : ℕ) (hij : i ≠ j) (hik : i ≠ k) : s'.map i = s.map i := by
    simp [s', c, NodeSpace.set, update_of_ne hij, update_of_ne hik]
  have hrest (i : ℕ) (hi : i ∈ l) : s'.map i = s.map i :=
    hother i (fun hij => hj (hij ▸ mem_cons_of_mem k hi)) fun hik => hk (hik ▸ hi)
  refine ⟨⟨⟨?_, nodup_cons.2 ⟨fun hmem => hj (mem_cons_of_mem k hmem), hnodup'⟩,
    fun i hi => ?_⟩, le_rfl, fun i _ hil => ?_, fun i hi => .inl (mem_cons_of_mem k hi)⟩, ?_⟩
  · exact h.chain.2.2.redirect (by rw [hself]) hrest
  · rcases mem_cons.1 hi with rfl | hi
    · exact h.lt i mem_cons_self
    · exact h.lt i (mem_cons_of_mem j (mem_cons_of_mem k hi))
  · refine hother i (fun hij => hil (hij ▸ mem_cons_self)) fun hik => hil ?_
    exact hik ▸ mem_cons_of_mem j mem_cons_self
  · have hslots := slots_congr hrest
    simp only [slots, map_cons] at hslots ⊢
    rw [hslots]
    simp [slot, hself]

/-! ## The loops -/

theorem placeEnd_spec (endReserve : ℤ) (fuel : ℕ) (h : s.Linked j l) (hfuel : l.length < fuel) :
    ∃ s' l', placeEnd endReserve fuel s j = some s' ∧ s.Becomes j l s' l' ∧
      s'.slots (j :: l') = s.slot j :: splitEnd endReserve (s.slots l) ∧ s'.recs ≤ s.recs + 1 := by
  induction l generalizing fuel j with
  | nil =>
    obtain ⟨fuel, rfl⟩ := exists_eq_succ_of_ne_zero (ne_of_gt hfuel)
    have hnext : (s.map j).next = 0 := h.chain
    refine ⟨s, [], ?_, h.becomes, rfl, le_succ _⟩
    simp [placeEnd, hnext]
  | cons k l ih =>
    obtain ⟨fuel, rfl⟩ := exists_eq_succ_of_ne_zero (ne_of_gt (zero_lt_of_lt hfuel))
    obtain ⟨hnext, hk, -⟩ := h.chain
    simp only [placeEnd, hnext, if_neg hk]
    have hsplit : splitEnd endReserve (s.slots (k :: l)) = if endReserve < (s.map k).endTime then
          { s.slot k with stop := endReserve } :: { s.slot k with start := endReserve } :: s.slots l
        else if endReserve = (s.map k).endTime then s.slot k :: s.slots l
        else s.slot k :: splitEnd endReserve (s.slots l) := rfl
    by_cases hlt : endReserve < (s.map k).endTime
    · obtain ⟨hbecomes, hslots⟩ := h.tail.split endReserve
      obtain ⟨hcons, hself⟩ := hbecomes.cons h
      refine ⟨_, _, by rw [if_pos hlt], hcons, ?_, le_rfl⟩
      rw [hsplit, if_pos hlt, ← hslots, ← hself]
      rfl
    · by_cases heq : endReserve = (s.map k).endTime
      · refine ⟨s, k :: l, by rw [if_neg hlt, if_pos heq], h.becomes, ?_, le_succ _⟩
        rw [hsplit, if_neg hlt, if_pos heq]
        rfl
      · obtain ⟨s', l', hs', hbecomes, hslots, hrecs⟩ := ih fuel h.tail (lt_of_succ_lt_succ hfuel)
        obtain ⟨hcons, hself⟩ := hbecomes.cons h
        refine ⟨s', k :: l', by rw [if_neg hlt, if_neg heq, hs'], hcons, ?_, hrecs⟩
        rw [hsplit, if_neg hlt, if_neg heq, ← hslots, ← hself]
        rfl

theorem place_spec (startTime endReserve : ℤ) (fuel : ℕ) (h : s.Linked j l)
    (hfuel : l.length + 1 < fuel) :
    ∃ s' l', place startTime endReserve fuel s j = some s' ∧ s.Becomes j l s' l' ∧
      s'.slots (j :: l') = splitStart startTime endReserve (s.slots (j :: l)) ∧
      s'.recs ≤ s.recs + 2 := by
  induction fuel generalizing j l with
  | zero => omega
  | succ fuel ih =>
    have hsplit : splitStart startTime endReserve (s.slots (j :: l)) =
        if startTime < (s.map j).endTime then
          { s.slot j with stop := startTime } ::
            splitEnd endReserve ({ s.slot j with start := startTime } :: s.slots l)
        else if (s.map j).endTime = startTime then s.slot j :: splitEnd endReserve (s.slots l)
        else s.slot j :: splitStart startTime endReserve (s.slots l) := rfl
    by_cases hlt : startTime < (s.map j).endTime
    · -- The record is split, and the end of the reservation is looked for after it.
      obtain ⟨hbecomes, hslots⟩ := h.split startTime
      obtain ⟨hslot, hrest⟩ := List.cons.inj hslots
      have hend : ((s.split j startTime).map j).endTime = startTime := congrArg Slot.stop hslot
      obtain ⟨s', l', hs', hbecomes', hslots', hrecs⟩ := placeEnd_spec endReserve (fuel + 1)
        hbecomes.linked (by simpa using hfuel)
      refine ⟨s', l', ?_, hbecomes.trans hbecomes', ?_, ?_⟩
      · simp [place, hlt, hend, hs']
      · rw [hsplit, if_pos hlt, hslots', hslot]
        simp only [slots, map_cons] at hrest ⊢
        rw [hrest]
      · have hone : (s.split j startTime).recs = s.recs + 1 := rfl
        omega
    · by_cases heq : (s.map j).endTime = startTime
      · obtain ⟨s', l', hs', hbecomes, hslots, hrecs⟩ :=
          placeEnd_spec endReserve (fuel + 1) h (by omega)
        refine ⟨s', l', ?_, hbecomes, ?_, by omega⟩
        · simp only [place, if_neg hlt, if_pos heq, hs']
        · rw [hsplit, if_neg hlt, if_pos heq, hslots]
      · rw [hsplit, if_neg hlt, if_neg heq]
        simp only [place, if_neg hlt, if_neg heq]
        cases l with
        | nil =>
          have hnext : (s.map j).next = 0 := h.chain
          exact ⟨s, [], by rw [if_pos hnext], h.becomes, rfl, Nat.le_add_right ..⟩
        | cons k l =>
          obtain ⟨hnext, hk, -⟩ := h.chain
          obtain ⟨s', l', hs', hbecomes, hslots, hrecs⟩ := ih h.tail (lt_of_succ_lt_succ hfuel)
          obtain ⟨hcons, hself⟩ := hbecomes.cons h
          refine ⟨s', k :: l', by rw [hnext, if_neg hk, hs'], hcons, ?_, hrecs⟩
          rw [← hslots, ← hself]
          rfl

theorem applyMask_spec (startTime endReserve : ℤ) (resBitmap : Bitmap) (fuel : ℕ)
    (h : s.Linked j l) (hfuel : l.length < fuel) :
    ∃ s', applyMask startTime endReserve resBitmap fuel s j = some s' ∧ s.Becomes j l s' l ∧
      s'.slots (j :: l) =
        mapWithin (· ∩ resBitmap) startTime endReserve (s.slots (j :: l)) ∧ s'.recs = s.recs := by
  induction fuel generalizing s j l with
  | zero => omega
  | succ fuel ih =>
    -- The record `j` is written or left, and points to the same one as before.
    obtain ⟨c, hc, hbecomes, hslots, hslot, hrecs, hbegin⟩ : ∃ c,
        (if startTime ≤ (s.map j).beginTime ∧ (s.map j).endTime ≤ endReserve then
          s.set j { s.map j with availBitmap := (s.map j).availBitmap ∩ resBitmap } else s) = c ∧
        s.Becomes j l c l ∧ c.slots l = s.slots l ∧
        c.slot j = (s.slot j).mapWithin (· ∩ resBitmap) startTime endReserve ∧
        c.recs = s.recs ∧ (c.map j).beginTime = (s.map j).beginTime := by
      have hmap : (s.slot j).mapWithin (· ∩ resBitmap) startTime endReserve =
          if startTime ≤ (s.map j).beginTime ∧ (s.map j).endTime ≤ endReserve then
            { s.slot j with value := (s.map j).availBitmap ∩ resBitmap } else s.slot j := rfl
      split_ifs with hin
      · obtain ⟨hset, hrest⟩ := h.set (r :=
          { s.map j with availBitmap := (s.map j).availBitmap ∩ resBitmap }) rfl
        refine ⟨_, rfl, hset, hrest, ?_, rfl, ?_⟩
        · rw [hmap, if_pos hin]
          simp [slot, NodeSpace.set]
        · simp [NodeSpace.set]
      · exact ⟨s, rfl, h.becomes, rfl, by rw [hmap, if_neg hin], rfl, rfl⟩
    have hsplit : mapWithin (· ∩ resBitmap) startTime endReserve (s.slots (j :: l)) =
        if endReserve ≤ (s.map j).beginTime then c.slot j :: c.slots l
        else c.slot j :: mapWithin (· ∩ resBitmap) startTime endReserve (c.slots l) := by
      rw [hslot, hslots]
      rfl
    rw [hsplit]
    simp only [applyMask, hc, hbegin]
    split_ifs with hlate hlast
    · exact ⟨c, rfl, hbecomes, rfl, hrecs⟩
    · cases l with
      | nil => exact ⟨c, rfl, hbecomes, rfl, hrecs⟩
      | cons k l => exact absurd (hbecomes.linked.chain.1.symm.trans hlast) hbecomes.linked.chain.2.1
    · cases l with
      | nil => exact absurd hbecomes.linked.chain hlast
      | cons k l =>
        obtain ⟨s', hs', hbecomes', hslots', hrecs'⟩ :=
          ih hbecomes.linked.tail (lt_of_succ_lt_succ hfuel)
        obtain ⟨hcons, hself⟩ := hbecomes'.cons hbecomes.linked
        refine ⟨s', by rw [hbecomes.linked.chain.1, hs'], hbecomes.trans hcons, ?_, hrecs'.trans hrecs⟩
        rw [← hslots', ← hself]
        rfl

theorem dropEqual_spec (fuel : ℕ) (h : s.Linked j l) (hfuel : l.length < fuel) :
    ∃ s' l', dropEqual fuel s j = some s' ∧ s.Becomes j l s' l' ∧
      s'.slots (j :: l') = Timeline.dropEqual (s.slots (j :: l)) ∧ s'.recs = s.recs := by
  induction fuel generalizing j l with
  | zero => omega
  | succ fuel ih =>
    cases l with
    | nil =>
      have hnext : (s.map j).next = 0 := h.chain
      exact ⟨s, [], by simp [dropEqual, hnext], h.becomes, rfl, rfl⟩
    | cons k l =>
      obtain ⟨hnext, hk, hchain⟩ := h.chain
      have hsplit : Timeline.dropEqual (s.slots (j :: k :: l)) =
          if (s.map j).availBitmap = (s.map k).availBitmap then
            { s.slot j with stop := (s.map k).endTime } :: s.slots l
          else s.slot j :: Timeline.dropEqual (s.slots (k :: l)) := rfl
      rw [hsplit]
      simp only [dropEqual, hnext, if_neg hk]
      by_cases heq : (s.map j).availBitmap = (s.map k).availBitmap
      · rw [if_neg (not_not.2 heq), if_pos heq]
        obtain ⟨hbecomes, hslots⟩ := h.unlink
        exact ⟨_, l, rfl, hbecomes, hslots, rfl⟩
      · rw [if_pos heq, if_neg heq]
        obtain ⟨s', l', hs', hbecomes, hslots, hrecs⟩ := ih h.tail (lt_of_succ_lt_succ hfuel)
        obtain ⟨hcons, hself⟩ := hbecomes.cons h
        refine ⟨s', k :: l', hs', hcons, ?_, hrecs⟩
        rw [← hslots, ← hself]
        rfl

/-- What a reservation does to the list, with at most two more records. -/
theorem addReservation_spec {schedStart : ℤ} (h : s.Linked 0 l)
    (hbegin : (s.map 0).beginTime = schedStart) {call : ResvCall}
    (hcall : max (call.startTime.toNat : ℤ) schedStart ≤ call.endReserve.toNat) {fuel : ℕ}
    (hfuel : s.recs + 2 ≤ fuel) :
    ∃ s' l', addReservation fuel s call = some s' ∧ s'.recs ≤ s.recs + 2 ∧ s'.Linked 0 l' ∧
      s'.slots (0 :: l') = Timeline.dropEqual (mapWithin (· ∩ call.resBitmap)
        (max (call.startTime.toNat : ℤ) schedStart) call.endReserve.toNat (splitStart
          (max (call.startTime.toNat : ℤ) schedStart) call.endReserve.toNat (s.slots (0 :: l)))) := by
  -- The later of the two starts is not after the end, which has 32 bits.
  have hstart : max (call.startTime.toNat : ℤ) (s.map 0).beginTime % 2 ^ 32 =
      max (call.startTime.toNat : ℤ) schedStart := by
    have hlt := call.endReserve.toNat_lt
    rw [hbegin]
    refine Int.emod_eq_of_lt ?_ ?_ <;> omega
  simp only [NodeSpace.addReservation, hstart]
  generalize max (call.startTime.toNat : ℤ) schedStart = startTime at *
  have hlen := h.length_lt
  obtain ⟨s1, l1, hs1, hb1, hslots1, hrecs1⟩ :=
    place_spec startTime call.endReserve.toNat fuel h (by omega)
  have hlen1 := hb1.linked.length_lt
  obtain ⟨s2, hs2, hb2, hslots2, hrecs2⟩ := applyMask_spec startTime call.endReserve.toNat
    call.resBitmap fuel hb1.linked (by omega)
  obtain ⟨s3, l3, hs3, hb3, hslots3, hrecs3⟩ := dropEqual_spec fuel hb2.linked (by omega)
  refine ⟨s3, l3, ?_, by omega, hb3.linked, ?_⟩
  · simp [hs1, hs2, hs3]
  · rw [hslots3, hslots2, hslots1]

end NodeSpace

/-! ## Reservations -/

/-- The reservation is in force at the time `t`. -/
def ResvCall.Covers (schedStart t : ℤ) (call : ResvCall) : Prop :=
  max (call.startTime.toNat : ℤ) schedStart ≤ t ∧ t < call.endReserve.toNat
  deriving Decidable

/-- The nodes that are available at the time `t` beside the reservations. -/
def availAt (schedStart : ℤ) (avail : Bitmap) (calls : List ResvCall) (t : ℤ) : Bitmap :=
  avail.filter fun n => ∀ call ∈ calls, call.Covers schedStart t → n ∈ call.resBitmap

theorem availAt_concat (schedStart : ℤ) (avail : Bitmap) (calls : List ResvCall) (call : ResvCall)
    (t : ℤ) :
    availAt schedStart avail (calls ++ [call]) t =
      if max (call.startTime.toNat : ℤ) schedStart ≤ t ∧ t < call.endReserve.toNat then
        availAt schedStart avail calls t ∩ call.resBitmap
      else availAt schedStart avail calls t := by
  ext n
  have hmem : n ∈ availAt schedStart avail (calls ++ [call]) t ↔
      n ∈ availAt schedStart avail calls t ∧ (call.Covers schedStart t → n ∈ call.resBitmap) := by
    simp only [availAt, Finset.mem_filter, mem_append, mem_singleton, or_imp, forall_and,
      forall_eq, and_assoc]
  rw [hmem]
  split_ifs with hin
  · have hcovers : call.Covers schedStart t := hin
    simp [hcovers]
  · have hcovers : ¬call.Covers schedStart t := hin
    simp [hcovers]

namespace NodeSpace

variable {s s' : NodeSpace}

/-- The map denotes the reservations `calls`. -/
def Maps (schedStart : ℤ) (window : ℕ) (avail : Bitmap) (calls : List ResvCall) (s : NodeSpace) :
    Prop :=
  ∃ l, s.Linked 0 l ∧ Tiles schedStart (s.slots (0 :: l)) (schedStart + window) ∧
    Proper (s.slots l) ∧ Denotes (s.slots (0 :: l)) (availAt schedStart avail calls)

variable {schedStart : ℤ} {window : ℕ} {avail : Bitmap} {calls : List ResvCall}

theorem maps_init (schedStart : ℤ) (window : ℕ) (avail : Bitmap) :
    (init schedStart window avail).Maps schedStart window avail [] := by
  have hself : (init schedStart window avail).map 0 =
      { beginTime := schedStart, endTime := schedStart + window, availBitmap := avail } := by
    simp [init]
  refine ⟨[], ⟨?_, nodup_singleton 0, fun k hk => ?_⟩, ⟨?_, ?_, ?_⟩, forall_mem_nil _, ?_⟩
  · rw [Chain, hself]
  · rw [mem_singleton.1 hk]
    exact zero_lt_one
  · simp [slot, hself]
  · simp only [slot, hself]
    omega
  · rfl
  · refine denotes_cons.2 ⟨fun t _ => ?_, forall_mem_nil _⟩
    simp [slot, hself, availAt]

/-- A reservation is added to the map, with at most two more records. -/
theorem Maps.addReservation (h : s.Maps schedStart window avail calls) {call : ResvCall}
    (hcall : max (call.startTime.toNat : ℤ) schedStart < call.endReserve.toNat) (fuel : ℕ)
    (hfuel : s.recs + 2 ≤ fuel) :
    ∃ s', addReservation fuel s call = some s' ∧ s'.recs ≤ s.recs + 2 ∧
      s'.Maps schedStart window avail (calls ++ [call]) := by
  obtain ⟨l, hlinked, htiles, hproper, hdenotes⟩ := h
  have hle : schedStart ≤ max (call.startTime.toNat : ℤ) schedStart := le_max_right ..
  obtain ⟨s', l', hs', hrecs, hlinked', hslots⟩ :=
    addReservation_spec hlinked htiles.1 hcall.le hfuel
  have havail : availAt schedStart avail (calls ++ [call]) = fun t =>
      if max (call.startTime.toNat : ℤ) schedStart ≤ t ∧ t < call.endReserve.toNat then
        availAt schedStart avail calls t ∩ call.resBitmap
      else availAt schedStart avail calls t :=
    funext fun t => availAt_concat schedStart avail calls call t
  simp only [Maps, havail]
  refine ⟨s', hs', hrecs, l', hlinked', ?_⟩
  obtain ⟨hdenotes', htiles'⟩ := denotes_mapWithin_splitStart hdenotes htiles
    hle hcall.le
  have hproper' : Proper (s'.slots (0 :: l')).tail := by
    rw [hslots]
    exact proper_tail_mapWithin_splitStart hproper htiles hle hcall
  exact ⟨hslots ▸ htiles', hproper', hslots ▸ hdenotes'⟩

/-- Make a reservation, if the map is there. -/
def exec (fuel : ℕ) (m : Option NodeSpace) (call : ResvCall) : Option NodeSpace :=
  m.bind fun s => addReservation fuel s call

/-- When a reservation is made: there is room in the table, and the reservation is not over
    when the window starts. -/
def ok (maxBackfillJobCnt : ℕ) (schedStart : ℤ) (m : Option NodeSpace) (call : ResvCall) : Prop :=
  (∀ s ∈ m, s.recs < maxBackfillJobCnt) ∧
    max (call.startTime.toNat : ℤ) schedStart < call.endReserve.toNat
  deriving Decidable

theorem Maps.run {maxBackfillJobCnt fuel : ℕ} {more : List ResvCall}
    (h : s.Maps schedStart window avail calls) (hrecs : s.recs ≤ maxBackfillJobCnt + 1)
    (hfuel : maxBackfillJobCnt + 1 ≤ fuel)
    (hrun : Run.Admissible (exec fuel) (ok maxBackfillJobCnt schedStart) (some s) more) :
    ∃ s', Run.run (exec fuel) (some s) more = some s' ∧ s'.recs ≤ maxBackfillJobCnt + 1 ∧
      s'.Maps schedStart window avail (calls ++ more) := by
  induction more generalizing s calls with
  | nil => exact ⟨s, rfl, hrecs, by rwa [append_nil]⟩
  | cons call more ih =>
    obtain ⟨⟨hroom, hcall⟩, hrest⟩ := hrun
    have hlt := hroom s rfl
    obtain ⟨s1, hs1, hrecs1, h1⟩ := h.addReservation hcall fuel (by omega)
    have hexec : exec fuel (some s) call = some s1 := hs1
    rw [hexec] at hrest
    rw [Run.run_cons, hexec, append_cons]
    exact ih h1 (by omega) hrest

end NodeSpace

/-- Whatever reservations are made while there is room in the table: the records in the list
    are within the table, and their periods follow each other from the start of the window to
    its end. At every time, the nodes in the record of the period are the available ones that
    no reservation in force takes. -/
theorem nodeSpace_exact (maxBackfillJobCnt : ℕ) (schedStart : ℤ) (window : ℕ) (avail : Bitmap)
    (calls : List ResvCall) {fuel : ℕ} (hfuel : maxBackfillJobCnt + 1 ≤ fuel)
    (hrun : Run.Admissible (NodeSpace.exec fuel) (NodeSpace.ok maxBackfillJobCnt schedStart)
      (some (.init schedStart window avail)) calls) :
    ∃ (s : NodeSpace) (l : List ℕ),
      Run.run (NodeSpace.exec fuel) (some (.init schedStart window avail)) calls = some s ∧
      s.Chain 0 l ∧ (0 :: l).Nodup ∧ (∀ i ∈ 0 :: l, i < 2 * maxBackfillJobCnt + 1) ∧
      s.recs ≤ 2 * maxBackfillJobCnt + 1 ∧
      Tiles schedStart (s.slots (0 :: l)) (schedStart + window) ∧ Proper (s.slots l) ∧
      ∀ t, schedStart ≤ t → t < schedStart + window →
        (∃ i ∈ 0 :: l, (s.map i).beginTime ≤ t ∧ t < (s.map i).endTime) ∧
        ∀ i ∈ 0 :: l, (s.map i).beginTime ≤ t → t < (s.map i).endTime → (s.map i).availBitmap =
            avail.filter fun n => ∀ call ∈ calls, call.Covers schedStart t → n ∈ call.resBitmap := by
  obtain ⟨s, hs, hrecs, l, hlinked, htiles, hproper, hdenotes⟩ :=
    (NodeSpace.maps_init schedStart window avail).run (Nat.le_add_left ..) hfuel hrun
  refine ⟨s, l, hs, hlinked.chain, hlinked.nodup, fun i hi => ?_, by omega, htiles, hproper,
    fun t ht ht' => ⟨?_, fun i hi hbegin hend => ?_⟩⟩
  · have hlt := hlinked.lt i hi
    omega
  · obtain ⟨r, hr, hholds⟩ := htiles.exists_holds ht ht'
    obtain ⟨i, hi, rfl⟩ := mem_map.1 hr
    exact ⟨i, hi, hholds⟩
  · exact hdenotes (s.slot i) (mem_map_of_mem hi) t ⟨hbegin, hend⟩

/-- Two overlapping reservations, the first of which has started before the window. While
    both are in force, one node is available. -/
theorem nodeSpace_exact_two :
    ∃ (s : NodeSpace) (l : List ℕ), Run.run (NodeSpace.exec 11) (some (.init 100 10 {0, 1, 2}))
        [⟨0, 106, {0, 1}⟩, ⟨104, 108, {1, 2}⟩] = some s ∧ s.Chain 0 l ∧
      ∀ i ∈ 0 :: l, (s.map i).beginTime ≤ 105 → 105 < (s.map i).endTime →
        (s.map i).availBitmap = {1} := by
  obtain ⟨s, l, hs, hchain, -, -, -, -, -, hmap⟩ := nodeSpace_exact 10 100 10 {0, 1, 2}
    [⟨0, 106, {0, 1}⟩, ⟨104, 108, {1, 2}⟩] le_rfl (by decide)
  refine ⟨s, l, hs, hchain, fun i hi hbegin hend => ?_⟩
  rw [(hmap 105 (by decide) (by decide)).2 i hi hbegin hend]
  decide

end Slurm
