import Mathlib.Algebra.Order.Group.Int.Sum

/-!
# Postings to a table of accounts

A table has an account for every key. An entry is *posted* to it by changing the
account at the key of the entry (`post`), and a list of entries by posting them in
turn (`postAll`).

* `postAll_apply`: an account sees only the entries of its own key;
* `postAll_sum`: what every entry adds to grows by the sum of these entries;
* `postAll_iterate`: what every entry changes in the same way is changed once for each entry;
* `postAll_keep`: what no entry changes stays.

When the keys are all different, a loop that changes more than the table is understood in the
same way (`foldl_lookup`).
-/

namespace Posting

open List Function

variable {E K V M : Type*} [DecidableEq K]

/-- Post the entry `e` to the table: `f e` changes the account at its key. -/
def post (key : E → K) (f : E → V → V) (t : K → V) (e : E) : K → V :=
  Function.update t (key e) (f e (t (key e)))

/-- Post all entries of a list, in turn. -/
def postAll (key : E → K) (f : E → V → V) (t : K → V) (l : List E) : K → V :=
  l.foldl (post key f) t

variable {key : E → K} {f : E → V → V} (t : K → V) (l : List E) (k : K) {π : V → M} {keys : List K}

/-- An account is changed by the entries of its key, in turn. -/
theorem postAll_apply :
    postAll key f t l k = (l.filter (key · = k)).foldl (fun v e => f e v) (t k) := by
  simp only [postAll]
  induction l generalizing t with
  | nil => rfl
  | cons e l ih =>
    rw [foldl_cons, ih]
    by_cases hk : key e = k
    · rw [filter_cons_of_pos (by simpa using hk), foldl_cons, post, hk, update_self]
    · rw [filter_cons_of_neg (by simpa using hk), post, update_of_ne (Ne.symm hk)]

theorem lookup_eq_none_of_notMem {A : Type*} {l : List (K × A)} (hk : k ∉ l.map Prod.fst) :
    l.lookup k = none :=
  lookup_eq_none_iff.2 fun e he =>
    bne_iff_ne.2 fun heq => hk (mem_map.2 ⟨e, he, heq.symm⟩)

/-- When the keys are all different, looking up a key gives its entry. -/
theorem lookup_eq_some_iff {A : Type*} {l : List (K × A)} (hl : (l.map Prod.fst).Nodup) {a : A} :
    l.lookup k = some a ↔ (k, a) ∈ l := by
  induction l with
  | nil => simp
  | cons e l ih =>
    obtain ⟨k', a'⟩ := e
    obtain ⟨hk', hl⟩ := nodup_cons.1 hl
    by_cases hk : k = k'
    · subst hk
      have hmem : (k, a) ∉ l := fun h => hk' (mem_map.2 ⟨_, h, rfl⟩)
      simp [hmem, eq_comm]
    · rw [lookup_cons, beq_eq_false_iff_ne.2 hk, ih hl]
      simp [hk]

/-- In a loop whose keys are all different, what belongs to a key is changed by the entry of
    this key, if there is one. -/
theorem foldl_lookup {σ A : Type*} (step : σ → K × A → σ) (val : σ → K → V) (f : A → V → V)
    {l : List (K × A)} (hl : (l.map Prod.fst).Nodup)
    (hself : ∀ s k a, val (step s (k, a)) k = f a (val s k))
    (hother : ∀ s k a k', k' ≠ k → val (step s (k, a)) k' = val s k') (s : σ) (k : K) :
    val (l.foldl step s) k = (l.lookup k).elim (val s k) fun a => f a (val s k) := by
  induction l generalizing s with
  | nil => rfl
  | cons e l ih =>
    obtain ⟨k', a⟩ := e
    obtain ⟨hk', hl⟩ := nodup_cons.1 hl
    rw [foldl_cons, ih hl]
    by_cases hk : k = k'
    · subst hk
      rw [lookup_eq_none_of_notMem k hk', lookup_cons_self, Option.elim_none, Option.elim_some, hself]
    · rw [lookup_cons, beq_eq_false_iff_ne.2 hk, hother s k' a k hk]

/-- What no entry changes in an account stays. -/
theorem postAll_keep (hkeep : ∀ e v, π (f e v) = π v) :
    π (postAll key f t l k) = π (t k) := by
  rw [postAll_apply]
  generalize t k = v
  induction l.filter (key · = k) generalizing v with
  | nil => rfl
  | cons e l ih => rw [foldl_cons, ih, hkeep]

/-- When the entries are the keys, and all change an account in the same way, this way is
    taken as often as the key of the account occurs. -/
theorem postAll_iterate {g : V → V} {h : M → M} (hπ : ∀ v, π (g v) = h (π v)) :
    π (postAll id (fun _ => g) t keys k) = h^[keys.count k] (π (t k)) := by
  have hkeys : keys.filter (id · = k) = List.replicate (keys.count k) k := filter_eq k
  rw [postAll_apply, hkeys]
  generalize t k = v
  generalize keys.count k = n
  induction n generalizing v with
  | zero => rfl
  | succ n ih => rw [replicate_succ, foldl_cons, ih, hπ, iterate_succ_apply]

variable [AddMonoid M]

/-- What every entry adds to in an account grows by the sum over the entries of its key. -/
theorem postAll_sum {w : E → M} (hadd : ∀ e v, π (f e v) = π v + w e) :
    π (postAll key f t l k) = π (t k) + ((l.filter (key · = k)).map w).sum := by
  rw [postAll_apply]
  generalize t k = v
  induction l.filter (key · = k) generalizing v with
  | nil => rw [foldl_nil, map_nil, sum_nil, add_zero]
  | cons e l ih => rw [foldl_cons, ih, hadd, map_cons, sum_cons, add_assoc]

/-- The same when the entries are the keys, and all add the same. -/
theorem postAll_count {g : V → V} {w : M} (hadd : ∀ v, π (g v) = π v + w) :
    π (postAll id (fun _ => g) t keys k) = π (t k) + keys.count k • w := by
  have hkeys : keys.filter (id · = k) = List.replicate (keys.count k) k := filter_eq k
  rw [postAll_sum t keys k fun _ v => hadd v, hkeys, map_replicate, sum_replicate]

end Posting
