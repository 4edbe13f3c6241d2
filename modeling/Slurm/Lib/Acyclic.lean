import Mathlib.Data.Nat.Basic
import Mathlib.Logic.Relation
import Mathlib.Order.Basic

/-!
# Graphs in which the edges from one vertex are replaced

A graph is a relation on its vertices. If the edges that leave one vertex of an acyclic
graph are replaced, the graph has a cycle then exactly if one of the new edges leads to a
vertex from which there was a path to that vertex (`acyclic_replace_iff`).
-/

open Relation

namespace Graph

variable {V : Type*} {r r' : V → V → Prop} {p : V}

/-- No path leads from a vertex to itself. -/
def Acyclic (r : V → V → Prop) : Prop := ∀ a, ¬TransGen r a a

/-- A graph whose edges all go down is acyclic. -/
theorem Acyclic.of_rank (f : V → ℕ) (h : ∀ a b, r a b → f b < f a) : Acyclic r := by
  have hpath {a b : V} (hab : TransGen r a b) : f b < f a := by
    induction hab with
    | single hab => exact h _ _ hab
    | tail _ hbc ih => exact (h _ _ hbc).trans ih
  exact fun a ha => lt_irrefl _ (hpath ha)

/-- A path to a vertex leaves it at most at its end, so edges from there do not matter. -/
theorem reflTransGen_of_edges (h : ∀ a b, a ≠ p → r a b → r' a b) {b : V}
    (hb : ReflTransGen r b p) : ReflTransGen r' b p := by
  induction hb using ReflTransGen.head_induction_on with
  | refl => exact .refl
  | @head a b hab _ ih =>
    rcases eq_or_ne a p with rfl | ha
    · exact .refl
    · exact .head (h a b ha hab) ih

variable (h : ∀ a b, a ≠ p → (r' a b ↔ r a b))

include h

/-- A path is one of the old graph, or it goes through the vertex. -/
theorem transGen_replace {a b : V} (hab : TransGen r' a b) :
    TransGen r a b ∨ ReflTransGen r' a p ∧ TransGen r' p b := by
  induction hab with
  | single hab =>
    rcases eq_or_ne a p with rfl | ha
    · exact .inr ⟨.refl, .single hab⟩
    · exact .inl (.single ((h _ _ ha).1 hab))
  | @tail b c hab hbc ih =>
    rcases ih with hold | ⟨hap, hpb⟩
    · rcases eq_or_ne b p with rfl | hb
      · exact .inr ⟨hab.to_reflTransGen, .single hbc⟩
      · exact .inl (hold.tail ((h _ _ hb).1 hbc))
    · exact .inr ⟨hap, hpb.tail hbc⟩

/-- The new graph is acyclic exactly if no new edge leads to where the vertex was reached from. -/
theorem acyclic_replace_iff (hr : Acyclic r) :
    Acyclic r' ↔ ¬∃ b, r' p b ∧ ReflTransGen r b p := by
  constructor
  · rintro hacyclic ⟨b, hpb, hbp⟩
    exact hacyclic p (.head' hpb (reflTransGen_of_edges (fun a b ha => (h a b ha).2) hbp))
  · intro hnone a ha
    rcases transGen_replace h ha with hold | ⟨hap, hpa⟩
    · exact hr a hold
    · obtain ⟨b, hpb, hbp⟩ := TransGen.head'_iff.1 (hpa.trans_left hap)
      exact hnone ⟨b, hpb, reflTransGen_of_edges (fun a b ha => (h a b ha).1) hbp⟩

end Graph
