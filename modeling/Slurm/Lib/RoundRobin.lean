import Mathlib.Data.List.Nodup
import Mathlib.Data.List.Perm.Subperm
import Mathlib.Data.Nat.ModEq

/-!
# Round-robin search

A table of `n` slots is searched with a cursor that remembers where the last
search stopped: before each test, the cursor moves to the next slot, and wraps
around at the end of the table (`next`). The search collects free slots until
it has as many as it wants, or has made its number of tests (`scan`).

The cursor may start anywhere, even outside of the table: the first move brings
it back inside. In `n` tests it visits every slot exactly once
(`visits_perm`), and what it collects are the free slots, in the order of the
visits (`scan_fst`). So a full round finds as many free slots as it wants
exactly when there are as many (`length_scan`).
-/

namespace RoundRobin

open List

/-- The slot after `last`, wrapping around at the end of the table. -/
def next (n last : ℕ) : ℕ := if last + 1 ≥ n then 0 else last + 1

/-- The slots a cursor at `last` visits in `k` moves. -/
def visits (n : ℕ) : ℕ → ℕ → List ℕ
  | 0, _ => []
  | k + 1, last => next n last :: visits n k (next n last)

/-- Search for `want` free slots in at most `k` tests, with the slots `found`
    so far: the slots found, and the cursor where the search stopped. -/
def scan (free : ℕ → Bool) (n want : ℕ) : ℕ → ℕ → List ℕ → List ℕ × ℕ
  | 0, last, found => (found, last)
  | k + 1, last, found =>
    let last := next n last
    if free last then
      let found := found ++ [last]
      if found.length ≥ want then (found, last) else scan free n want k last found
    else scan free n want k last found

variable {n k last want : ℕ} {free : ℕ → Bool} {found : List ℕ}

/-- Inside the table, a move is the successor modulo its size. -/
theorem next_eq_mod (h : last < n) : next n last = (last + 1) % n := by
  unfold next
  split
  · rw [show last + 1 = n by omega, Nat.mod_self]
  · rw [Nat.mod_eq_of_lt (by omega)]

/-- The visits are consecutive slots, modulo the size of the table. -/
theorem visits_eq_map (hn : 0 < n) :
    visits n k last = (List.range k).map fun i => (next n last + i) % n := by
  induction k generalizing last with
  | zero => rfl
  | succ k ih =>
    have hlt : next n last < n := by
      unfold next
      split <;> omega
    rw [visits, ih, range_succ_eq_map, map_cons, map_map, Nat.add_zero,
      Nat.mod_eq_of_lt hlt, next_eq_mod hlt]
    congr 1
    refine map_congr_left fun i _ => ?_
    rw [Function.comp_apply, Nat.mod_add_mod]
    congr 1
    omega

@[simp] theorem length_visits : (visits n k last).length = k := by
  induction k generalizing last with
  | zero => rfl
  | succ k ih => simp [visits, ih]

/-- All visits are in the table. -/
theorem lt_of_mem_visits (hn : 0 < n) {i : ℕ} (hi : i ∈ visits n k last) : i < n := by
  rw [visits_eq_map hn, mem_map] at hi
  obtain ⟨_, _, rfl⟩ := hi
  exact Nat.mod_lt _ hn

/-- No slot is visited twice within one round. -/
theorem nodup_visits (hk : k ≤ n) : (visits n k last).Nodup := by
  rcases Nat.eq_zero_or_pos n with rfl | hn
  · rw [Nat.le_zero.1 hk]; exact nodup_nil
  rw [visits_eq_map hn]
  refine List.Nodup.map_on (fun i hi j hj hij => ?_) nodup_range
  have hmod : i ≡ j [MOD n] := Nat.ModEq.add_left_cancel' _ hij
  rw [mem_range] at hi hj
  exact hmod.eq_of_lt_of_lt (by omega) (by omega)

/-- One round visits every slot of the table exactly once. -/
theorem visits_perm : (visits n n last).Perm (List.range n) := by
  rcases Nat.eq_zero_or_pos n with rfl | hn
  · exact List.Perm.refl _
  have hsub : (visits n n last).Subperm (List.range n) :=
    (nodup_visits le_rfl).subperm fun i hi => mem_range.2 (lt_of_mem_visits hn hi)
  exact hsub.perm_of_length_le (by simp)

/-- The search collects the free slots in the order it visits them, until it
    has as many as it wants. -/
theorem scan_fst (h : found.length < want) :
    (scan free n want k last found).1
      = found ++ ((visits n k last).filter free).take (want - found.length) := by
  induction k generalizing last found with
  | zero => simp [scan, visits]
  | succ k ih =>
    obtain ⟨d, hd⟩ : ∃ d, want - found.length = d + 1 := ⟨want - found.length - 1, by omega⟩
    simp only [scan, visits, filter_cons]
    split
    · rw [hd, take_succ_cons]
      split
      -- The search has all it wants: `found` was one short.
      · rw [length_append, length_singleton] at *
        rw [show d = 0 by omega, take_zero]
      · rw [length_append, length_singleton] at *
        rw [ih (by simp; omega), append_assoc, singleton_append, length_append,
          length_singleton, show want - (found.length + 1) = d by omega]
    · exact ih h

/-- The free slots of the table. -/
def freeSlots (free : ℕ → Bool) (n : ℕ) : List ℕ := (List.range n).filter free

/-- A full round from nothing finds as many free slots as it wants, or all of them. -/
theorem length_scan (h : 0 < want) :
    (scan free n want n last []).1.length = min want (freeSlots free n).length := by
  have hperm : ((visits n n last).filter free).Perm ((List.range n).filter free) :=
    visits_perm.filter free
  rw [scan_fst h, nil_append, length_take, length_nil, Nat.sub_zero, hperm.length_eq, freeSlots]

/-- What a full round finds: distinct free slots of the table. -/
theorem scan_spec (h : 0 < want) :
    (scan free n want n last []).1.Nodup ∧
      ∀ i ∈ (scan free n want n last []).1, i < n ∧ free i = true := by
  rw [scan_fst h, nil_append]
  refine ⟨((nodup_visits le_rfl).filter _).take, fun i hi => ?_⟩
  obtain ⟨hv, hf⟩ := mem_filter.1 (mem_of_mem_take hi)
  exact ⟨mem_range.1 ((visits_perm).mem_iff.1 hv), hf⟩

end RoundRobin
