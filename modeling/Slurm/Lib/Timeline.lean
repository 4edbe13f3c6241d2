import Mathlib.Algebra.Order.Ring.Int

/-!
# Values over time

A value that changes over time, as a list of slots: each has the value from its
start until its stop. A list *denotes* a function of time when every slot has the
value of the function wherever it holds (`Denotes`). It *tiles* an interval when
the slots follow each other without a gap from one end to the other (`Tiles`).

A value is changed within an interval in three steps: the slots are cut at both
ends of it (`splitStart`, `splitEnd`), those within it are changed (`mapWithin`),
and two neighbours that have become equal are put together again (`dropEqual`). The
slots still tile their interval, and denote the changed function
(`denotes_mapWithin_splitStart`).
-/

namespace Timeline

open List

/-- A value from `start` until `stop`. -/
structure Slot (V : Type*) where
  start : ℤ
  stop : ℤ
  value : V
  deriving DecidableEq

variable {V : Type*} {l : List (Slot V)}

/-- The slot holds at the time `t`. -/
def Slot.Holds (s : Slot V) (t : ℤ) : Prop := s.start ≤ t ∧ t < s.stop
  deriving Decidable

/-- Wherever a slot holds, it has the value of the function. -/
def Denotes (l : List (Slot V)) (F : ℤ → V) : Prop := ∀ s ∈ l, ∀ t, s.Holds t → s.value = F t

/-- The slots follow each other from `a` until `b`. -/
def Tiles : ℤ → List (Slot V) → ℤ → Prop
  | a, [], b => a = b
  | a, s :: l, b => s.start = a ∧ a ≤ s.stop ∧ Tiles s.stop l b

/-- No slot is empty. -/
def Proper (l : List (Slot V)) : Prop := ∀ s ∈ l, s.start < s.stop

theorem Proper.cons {s : Slot V} (hs : s.start < s.stop) (hl : Proper l) :
    Proper (s :: l) := by
  intro r hr
  rcases mem_cons.1 hr with rfl | hr
  · exact hs
  · exact hl r hr

theorem denotes_cons {s : Slot V} {F : ℤ → V} :
    Denotes (s :: l) F ↔ (∀ t, s.Holds t → s.value = F t) ∧ Denotes l F :=
  forall_mem_cons

section

variable {a b t : ℤ} {l : List (Slot V)}

theorem Tiles.le (h : Tiles a l b) : a ≤ b := by
  induction l generalizing a with
  | nil => exact le_of_eq h
  | cons s l ih => exact le_trans h.2.1 (ih h.2.2)

theorem Tiles.bounds (h : Tiles a l b) {s : Slot V} (hs : s ∈ l) :
    a ≤ s.start ∧ s.start ≤ s.stop ∧ s.stop ≤ b := by
  induction l generalizing a with
  | nil => cases hs
  | cons r l ih =>
    obtain ⟨hstart, hle, hrest⟩ := h
    rcases mem_cons.1 hs with rfl | hs
    · exact ⟨hstart.ge, hstart.trans_le hle, hrest.le⟩
    · obtain ⟨h1, h2, h3⟩ := ih hrest hs
      exact ⟨hle.trans h1, h2, h3⟩

/-- Every time of the interval is in one of the slots. -/
theorem Tiles.exists_holds (h : Tiles a l b) (ha : a ≤ t) (hb : t < b) : ∃ s ∈ l, s.Holds t := by
  induction l generalizing a with
  | nil =>
    obtain rfl : a = b := h
    omega
  | cons s l ih =>
    obtain ⟨hstart, -, hrest⟩ := h
    rcases lt_or_ge t s.stop with ht | ht
    · exact ⟨s, mem_cons_self, hstart.trans_le ha, ht⟩
    · obtain ⟨r, hr, hholds⟩ := ih hrest ht
      exact ⟨r, mem_cons_of_mem s hr, hholds⟩

end

/-! ## Cuts -/

/-- Cut the first slot that goes on after `e` at `e`, unless a slot stops there. -/
def splitEnd (e : ℤ) : List (Slot V) → List (Slot V)
  | [] => []
  | s :: l =>
    if e < s.stop then { s with stop := e } :: { s with start := e } :: l
    else if e = s.stop then s :: l
    else s :: splitEnd e l

/-- Cut the slots at `t` and, after it, at `e`. -/
def splitStart (t e : ℤ) : List (Slot V) → List (Slot V)
  | [] => []
  | s :: l =>
    if t < s.stop then { s with stop := t } :: splitEnd e ({ s with start := t } :: l)
    else if s.stop = t then s :: splitEnd e l
    else s :: splitStart t e l

section

variable {a b t e : ℤ} {l : List (Slot V)} {F : ℤ → V}

theorem denotes_splitEnd (h : Denotes l F) (ht : Tiles a l b) (he : a ≤ e) :
    Denotes (splitEnd e l) F := by
  induction l generalizing a with
  | nil => exact h
  | cons s l ih =>
    obtain ⟨hs, hl⟩ := denotes_cons.1 h
    obtain ⟨hstart, -, hrest⟩ := ht
    rw [splitEnd]
    split_ifs with hlt heq
    · refine denotes_cons.2 ⟨fun u hu => hs u ⟨hu.1, lt_trans hu.2 hlt⟩, denotes_cons.2
        ⟨fun u hu => hs u ⟨?_, hu.2⟩, hl⟩⟩
      exact (hstart.trans_le he).trans hu.1
    · exact h
    · exact denotes_cons.2 ⟨hs, ih hl hrest (by omega)⟩

theorem tiles_splitEnd (h : Tiles a l b) (he : a ≤ e) : Tiles a (splitEnd e l) b := by
  induction l generalizing a with
  | nil => exact h
  | cons s l ih =>
    obtain ⟨hstart, hle, hrest⟩ := h
    rw [splitEnd]
    split_ifs with hlt heq
    · exact ⟨hstart, he, rfl, hlt.le, hrest⟩
    · exact ⟨hstart, hle, hrest⟩
    · exact ⟨hstart, hle, ih hrest (by omega)⟩

theorem proper_splitEnd (h : Proper l) (ht : Tiles a l b) (he : a < e) : Proper (splitEnd e l) := by
  induction l generalizing a with
  | nil => exact h
  | cons s l ih =>
    obtain ⟨hs, hl⟩ := forall_mem_cons.1 h
    obtain ⟨hstart, -, hrest⟩ := ht
    rw [splitEnd]
    split_ifs with hlt heq
    · exact .cons (hstart.trans_lt he) (.cons hlt hl)
    · exact h
    · exact .cons hs (ih hl hrest (by omega))

/-- No slot goes over `e`. -/
theorem splitEnd_cut (h : Tiles a l b) {s : Slot V} (hs : s ∈ splitEnd e l) :
    s.stop ≤ e ∨ e ≤ s.start := by
  induction l generalizing a with
  | nil => cases hs
  | cons r l ih =>
    obtain ⟨-, -, hrest⟩ := h
    rw [splitEnd] at hs
    split_ifs at hs with hlt heq
    · rcases mem_cons.1 hs with rfl | hs
      · exact .inl le_rfl
      · rcases mem_cons.1 hs with rfl | hs
        · exact .inr le_rfl
        · exact .inr (hlt.le.trans (hrest.bounds hs).1)
    · rcases mem_cons.1 hs with rfl | hs
      · exact .inl heq.ge
      · exact .inr (heq.trans_le (hrest.bounds hs).1)
    · rcases mem_cons.1 hs with rfl | hs
      · exact .inl (not_lt.1 hlt)
      · exact ih hrest hs

theorem denotes_splitStart (h : Denotes l F) (ht : Tiles a l b) (ha : a ≤ t) (he : t ≤ e) :
    Denotes (splitStart t e l) F := by
  induction l generalizing a with
  | nil => exact h
  | cons s l ih =>
    obtain ⟨hs, hl⟩ := denotes_cons.1 h
    obtain ⟨hstart, -, hrest⟩ := ht
    rw [splitStart]
    split_ifs with hlt heq
    · refine denotes_cons.2 ⟨fun u hu => hs u ⟨hu.1, lt_trans hu.2 hlt⟩, ?_⟩
      have htail : Tiles t ({ s with start := t } :: l) b := ⟨rfl, hlt.le, hrest⟩
      refine denotes_splitEnd (denotes_cons.2 ⟨fun u hu => hs u ⟨?_, hu.2⟩, hl⟩) htail he
      exact (hstart.trans_le ha).trans hu.1
    · exact denotes_cons.2 ⟨hs, denotes_splitEnd hl hrest (heq.trans_le he)⟩
    · exact denotes_cons.2 ⟨hs, ih hl hrest (by omega)⟩

theorem tiles_splitStart (h : Tiles a l b) (ha : a ≤ t) (he : t ≤ e) :
    Tiles a (splitStart t e l) b := by
  induction l generalizing a with
  | nil => exact h
  | cons s l ih =>
    obtain ⟨hstart, hle, hrest⟩ := h
    rw [splitStart]
    split_ifs with hlt heq
    · exact ⟨hstart, ha, tiles_splitEnd ⟨rfl, hlt.le, hrest⟩ he⟩
    · exact ⟨hstart, hle, tiles_splitEnd hrest (heq.trans_le he)⟩
    · exact ⟨hstart, hle, ih hrest (by omega)⟩

theorem proper_splitStart (h : Proper l) (ht : Tiles a l b) (ha : a < t) (he : t < e) :
    Proper (splitStart t e l) := by
  induction l generalizing a with
  | nil => exact h
  | cons s l ih =>
    obtain ⟨hs, hl⟩ := forall_mem_cons.1 h
    obtain ⟨hstart, -, hrest⟩ := ht
    rw [splitStart]
    split_ifs with hlt heq
    · have htail : Tiles t ({ s with start := t } :: l) b := ⟨rfl, hlt.le, hrest⟩
      exact .cons (hstart.trans_lt ha) (proper_splitEnd (.cons hlt hl) htail he)
    · exact .cons hs (proper_splitEnd hl hrest (heq.trans_lt he))
    · exact .cons hs (ih hl hrest (by omega))

/-- Only the first slot may become empty. -/
theorem proper_tail_splitStart (h : Proper l.tail) (ht : Tiles a l b) (he : t < e) :
    Proper (splitStart t e l).tail := by
  cases l with
  | nil => exact h
  | cons s l =>
    obtain ⟨-, -, hrest⟩ := ht
    rw [splitStart]
    split_ifs with hlt heq
    · have htail : Tiles t ({ s with start := t } :: l) b := ⟨rfl, hlt.le, hrest⟩
      exact proper_splitEnd (.cons hlt h) htail he
    · exact proper_splitEnd h hrest (heq.trans_lt he)
    · exact proper_splitStart h hrest (by omega) he

/-- No slot goes over `t` or over `e`. -/
theorem splitStart_cut (h : Tiles a l b) {s : Slot V} (hs : s ∈ splitStart t e l) (he : t ≤ e) :
    s.stop ≤ t ∨ (t ≤ s.start ∧ (s.stop ≤ e ∨ e ≤ s.start)) := by
  induction l generalizing a with
  | nil => cases hs
  | cons r l ih =>
    obtain ⟨-, -, hrest⟩ := h
    rw [splitStart] at hs
    split_ifs at hs with hlt heq
    · rcases mem_cons.1 hs with rfl | hs
      · exact .inl le_rfl
      · have htail : Tiles t ({ r with start := t } :: l) b := ⟨rfl, hlt.le, hrest⟩
        exact .inr ⟨((tiles_splitEnd htail he).bounds hs).1, splitEnd_cut htail hs⟩
    · rcases mem_cons.1 hs with rfl | hs
      · exact .inl heq.le
      · rw [heq] at hrest
        exact .inr ⟨((tiles_splitEnd hrest he).bounds hs).1, splitEnd_cut hrest hs⟩
    · rcases mem_cons.1 hs with rfl | hs
      · exact .inl (not_lt.1 hlt)
      · exact ih hrest hs

end

/-! ## Changes within an interval -/

/-- Change the value of a slot, if it is within `t` and `e`. -/
def Slot.mapWithin (f : V → V) (t e : ℤ) (s : Slot V) : Slot V :=
  if t ≤ s.start ∧ s.stop ≤ e then { s with value := f s.value } else s

/-- Change the value of the slots within `t` and `e`, up to the first that starts at `e` or
    later. -/
def mapWithin (f : V → V) (t e : ℤ) : List (Slot V) → List (Slot V)
  | [] => []
  | s :: l =>
    if e ≤ s.start then s.mapWithin f t e :: l else s.mapWithin f t e :: mapWithin f t e l

section

variable {a b t e : ℤ} {l : List (Slot V)} {F : ℤ → V} {f : V → V}

theorem Slot.mapWithin_bounds (f : V → V) (t e : ℤ) (s : Slot V) :
    (s.mapWithin f t e).start = s.start ∧ (s.mapWithin f t e).stop = s.stop := by
  rw [mapWithin]
  split_ifs <;> exact ⟨rfl, rfl⟩

theorem Slot.mapWithin_value {s : Slot V} (hs : ∀ u, s.Holds u → s.value = F u)
    (hcut : s.stop ≤ t ∨ (t ≤ s.start ∧ (s.stop ≤ e ∨ e ≤ s.start))) {u : ℤ}
    (hu : (s.mapWithin f t e).Holds u) :
    (s.mapWithin f t e).value = if t ≤ u ∧ u < e then f (F u) else F u := by
  rw [Holds, (s.mapWithin_bounds f t e).1, (s.mapWithin_bounds f t e).2] at hu
  rw [mapWithin]
  split_ifs with hin hu' hu'
  · rw [hs u hu]
  · exact absurd ⟨hin.1.trans hu.1, lt_of_lt_of_le hu.2 hin.2⟩ hu'
  · obtain ⟨hstart, hstop⟩ := hu
    omega
  · exact hs u hu

/-- The same slots are there, with other values. -/
theorem mapWithin_shape (f : V → V) (t e : ℤ) (l : List (Slot V)) :
    (mapWithin f t e l).map (fun s => (s.start, s.stop)) = l.map fun s => (s.start, s.stop) := by
  induction l with
  | nil => rfl
  | cons s l ih =>
    rw [mapWithin]
    split_ifs
    all_goals simp [ih, s.mapWithin_bounds]

section

variable {l' : List (Slot V)}
  (h : l'.map (fun s => (s.start, s.stop)) = l.map fun s => (s.start, s.stop))

include h

theorem tiles_congr :
    Tiles a l' b ↔ Tiles a l b := by
  induction l generalizing a l' with
  | nil =>
    obtain rfl : l' = [] := map_eq_nil_iff.1 h
    rfl
  | cons s l ih =>
    obtain ⟨s', l', rfl⟩ : ∃ s' k, l' = s' :: k := by
      cases l' with
      | nil => cases h
      | cons s' k => exact ⟨s', k, rfl⟩
    rw [map_cons, map_cons, List.cons.injEq, Prod.mk.injEq] at h
    obtain ⟨⟨hstart, hstop⟩, hrest⟩ := h
    simp [Tiles, hstart, hstop, ih hrest]

theorem proper_congr :
    Proper l' ↔ Proper l := by
  have hproper (l : List (Slot V)) :
      Proper l ↔ ∀ x ∈ l.map fun s => (s.start, s.stop), x.1 < x.2 := by
    simp [Proper]
  rw [hproper, h, ← hproper]

end

theorem denotes_mapWithin (h : Denotes l F) (ht : Tiles a l b)
    (hcut : ∀ s ∈ l, s.stop ≤ t ∨ (t ≤ s.start ∧ (s.stop ≤ e ∨ e ≤ s.start))) :
    Denotes (mapWithin f t e l) fun u => if t ≤ u ∧ u < e then f (F u) else F u := by
  induction l generalizing a with
  | nil => exact forall_mem_nil _
  | cons s l ih =>
    obtain ⟨hs, hl⟩ := denotes_cons.1 h
    obtain ⟨hstart, hle, hrest⟩ := ht
    rw [mapWithin]
    split_ifs with he
    -- From here on, all slots start at `e` or later.
    · refine denotes_cons.2 ⟨fun u => Slot.mapWithin_value hs (hcut s mem_cons_self),
        fun r hr u hu => ?_⟩
      have hlate : e ≤ r.start := by
        have hnext := (hrest.bounds hr).1
        omega
      have hout : ¬(t ≤ u ∧ u < e) := fun hin => absurd (hlate.trans hu.1) (not_le.2 hin.2)
      simp only [if_neg hout]
      exact hl r hr u hu
    · exact denotes_cons.2 ⟨fun u => Slot.mapWithin_value hs (hcut s mem_cons_self),
        ih hl hrest fun r hr => hcut r (mem_cons_of_mem s hr)⟩

end

/-! ## Neighbours of one value -/

/-- Put the first two neighbours that have the same value together. -/
def dropEqual [DecidableEq V] : List (Slot V) → List (Slot V)
  | s :: r :: l =>
    if s.value = r.value then { s with stop := r.stop } :: l else s :: dropEqual (r :: l)
  | l => l

section

variable [DecidableEq V] {a b t e : ℤ} {l : List (Slot V)} {F : ℤ → V} {f : V → V}

theorem denotes_dropEqual (h : Denotes l F) (ht : Tiles a l b) : Denotes (dropEqual l) F := by
  induction l using dropEqual.induct generalizing a with
  | case1 s r l heq =>
    obtain ⟨hs, hr, hl⟩ := by
      rw [denotes_cons, denotes_cons] at h
      exact h
    obtain ⟨-, -, hr', -⟩ := ht
    rw [dropEqual, if_pos heq]
    refine denotes_cons.2 ⟨fun u hu => ?_, hl⟩
    rcases lt_or_ge u s.stop with hlt | hge
    · exact hs u ⟨hu.1, hlt⟩
    · exact heq.trans (hr u ⟨hr'.trans_le hge, hu.2⟩)
  | case2 s r l hne ih =>
    obtain ⟨hs, hl⟩ := denotes_cons.1 h
    rw [dropEqual, if_neg hne]
    exact denotes_cons.2 ⟨hs, ih hl ht.2.2⟩
  | case3 l hl =>
    rw [dropEqual]
    · exact h
    · exact hl

theorem tiles_dropEqual (h : Tiles a l b) : Tiles a (dropEqual l) b := by
  induction l using dropEqual.induct generalizing a with
  | case1 s r l heq =>
    obtain ⟨hstart, hle, hr, hle', hrest⟩ := h
    rw [dropEqual, if_pos heq]
    exact ⟨hstart, hle.trans hle', hrest⟩
  | case2 s r l hne ih =>
    obtain ⟨hstart, hle, hrest⟩ := h
    rw [dropEqual, if_neg hne]
    exact ⟨hstart, hle, ih hrest⟩
  | case3 l hl =>
    rw [dropEqual]
    · exact h
    · exact hl

theorem proper_dropEqual (h : Proper l) (ht : Tiles a l b) : Proper (dropEqual l) := by
  induction l using dropEqual.induct generalizing a with
  | case1 s r l heq =>
    obtain ⟨hs, hr, hl⟩ : _ ∧ _ ∧ _ := by simpa [Proper] using h
    obtain ⟨-, -, hr', -⟩ := ht
    rw [dropEqual, if_pos heq]
    refine .cons ?_ hl
    dsimp only
    omega
  | case2 s r l hne ih =>
    obtain ⟨hs, hl⟩ := forall_mem_cons.1 h
    rw [dropEqual, if_neg hne]
    exact .cons hs (ih hl ht.2.2)
  | case3 l hl =>
    rw [dropEqual]
    · exact h
    · exact hl

theorem proper_tail_dropEqual (h : Proper l.tail) (ht : Tiles a l b) :
    Proper (dropEqual l).tail := by
  match l, h, ht with
  | [], h, _ => exact h
  | [s], h, _ => exact h
  | s :: r :: l, h, ht =>
    rw [dropEqual]
    split_ifs
    · exact fun x hx => h x (mem_cons_of_mem r hx)
    · exact proper_dropEqual h ht.2.2

/-- A value is changed from `t` until `e`, in slots that tile an interval. -/
theorem denotes_mapWithin_splitStart (h : Denotes l F) (ht : Tiles a l b)
    (ha : a ≤ t) (he : t ≤ e) :
    Denotes (dropEqual (mapWithin f t e (splitStart t e l)))
        (fun u => if t ≤ u ∧ u < e then f (F u) else F u) ∧
      Tiles a (dropEqual (mapWithin f t e (splitStart t e l))) b := by
  have htiles := tiles_splitStart ht ha he
  have htiles' : Tiles a (mapWithin f t e (splitStart t e l)) b :=
    (tiles_congr (mapWithin_shape f t e _)).2 htiles
  refine ⟨denotes_dropEqual ?_ htiles', tiles_dropEqual htiles'⟩
  exact denotes_mapWithin (denotes_splitStart h ht ha he) htiles fun s hs => splitStart_cut ht hs he

/-- Only the first slot may become empty in this. -/
theorem proper_tail_mapWithin_splitStart (h : Proper l.tail)
    (ht : Tiles a l b) (ha : a ≤ t) (he : t < e) :
    Proper (dropEqual (mapWithin f t e (splitStart t e l))).tail := by
  have hshape := mapWithin_shape f t e (splitStart t e l)
  refine proper_tail_dropEqual ?_ ((tiles_congr hshape).2 (tiles_splitStart ht ha he.le))
  refine (proper_congr ?_).2 (proper_tail_splitStart h ht he)
  rw [map_tail, hshape, map_tail]

/-- Also a first slot that has become empty has the value of the time at which it starts. -/
theorem head_mapWithin_splitStart {s : Slot V} (ht : Tiles a (s :: l) b)
    (hs : s.value = F a) (ha : a ≤ t) (he : t < e) :
    ∀ r ∈ (dropEqual (mapWithin f t e (splitStart t e (s :: l)))).head?,
      r.value = if t ≤ a ∧ a < e then f (F a) else F a := by
  have hdrop (r : Slot V) (l : List (Slot V)) :
      (dropEqual (r :: l)).head?.map Slot.value = some r.value := by
    cases l with
    | nil => rfl
    | cons r' l =>
      rw [dropEqual]
      split_ifs <;> rfl
  obtain rfl := ht.1
  -- The first slot stops at `t` or earlier, and is changed only if `t` is its start.
  obtain ⟨stop, hstop, l', hl'⟩ :
      ∃ stop ≤ t, ∃ l', splitStart t e (s :: l) = { s with stop := stop } :: l' := by
    rw [splitStart]
    split_ifs with hlt heq
    · exact ⟨t, le_rfl, _, rfl⟩
    · exact ⟨s.stop, heq.le, _, rfl⟩
    · exact ⟨s.stop, not_lt.1 hlt, _, rfl⟩
  have hmap : ∃ l'', mapWithin f t e (splitStart t e (s :: l)) =
      { s with stop := stop }.mapWithin f t e :: l'' := by
    rw [hl', mapWithin]
    split_ifs <;> exact ⟨_, rfl⟩
  obtain ⟨l'', hl''⟩ := hmap
  intro r hr
  have hvalue := hdrop (Slot.mapWithin f t e { s with stop := stop }) l''
  rw [← hl'', Option.mem_def.1 hr, Option.map_some, Option.some.injEq] at hvalue
  rw [hvalue, Slot.mapWithin, ← hs]
  split_ifs with hin hin' hin'
  · rfl
  · exact absurd ⟨hin.1, ha.trans_lt he⟩ hin'
  · exact absurd ⟨hin'.1, hstop.trans he.le⟩ hin
  · rfl

end

end Timeline
