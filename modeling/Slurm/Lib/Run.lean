import Mathlib.Data.List.Basic

/-!
# Runs of a deterministic system

A system whose operations are functions on its state: `exec s o` is the state
after the operation `o`. A *run* executes a list of operations in turn (`run`).
Callers promise something about each operation they make, in the state they
make it in (`ok s o`); a run is *admissible* when every one of its operations
is, in the state it is made in (`Admissible`).

`invariant_run` is the induction over a run, made once: what holds initially
and is kept by every admissible operation holds after every admissible run.
Where it is kept by no other operation, the admissible runs are just those in
which it holds all the time (`always_iff_of_valid`, `always_iff_admissible`).
-/

namespace Run

variable {σ ο : Type*}

/-- The state after the operations `os`, from `s`. -/
def run (exec : σ → ο → σ) (s : σ) (os : List ο) : σ := os.foldl exec s

/-- Every operation of the run is made in a state its caller may make it in. -/
def Admissible (exec : σ → ο → σ) (ok : σ → ο → Prop) : σ → List ο → Prop
  | _, [] => True
  | s, o :: os => ok s o ∧ Admissible exec ok (exec s o) os

instance Admissible.decidable (exec : σ → ο → σ) (ok : σ → ο → Prop)
    [∀ s o, Decidable (ok s o)] : ∀ s os, Decidable (Admissible exec ok s os)
  | _, [] => inferInstanceAs (Decidable True)
  | s, o :: os =>
    have := Admissible.decidable exec ok (exec s o) os
    inferInstanceAs (Decidable (_ ∧ _))

/-- `P` holds in every state of the run, the first one included. -/
def Always (exec : σ → ο → σ) (P : σ → Prop) : σ → List ο → Prop
  | s, [] => P s
  | s, o :: os => P s ∧ Always exec P (exec s o) os

variable {exec : σ → ο → σ} {ok ok' : σ → ο → Prop} {s : σ} {o : ο} {os : List ο} {I P A : σ → Prop}

@[simp] theorem run_cons : run exec s (o :: os) = run exec (exec s o) os := rfl

/-- What every admissible operation keeps holds after every admissible run. -/
theorem invariant_run (step : ∀ s o, I s → ok s o → I (exec s o))
    (h0 : I s) (hrun : Admissible exec ok s os) : I (run exec s os) := by
  induction os generalizing s with
  | nil => exact h0
  | cons o os ih => exact ih (step s o h0 hrun.1) hrun.2

/-- A system whose operations follow those of another one, where something holds that they keep, has
    runs that follow those of the other one. -/
theorem map_run {τ : Type*} {exec' : τ → ο → τ} {φ : σ → τ}
    (step : ∀ s o, I s → ok s o → I (exec s o))
    (hφ : ∀ s o, I s → ok s o → φ (exec s o) = exec' (φ s) o)
    (h0 : I s) (hrun : Admissible exec ok s os) : φ (run exec s os) = run exec' (φ s) os := by
  induction os generalizing s with
  | nil => rfl
  | cons o os ih => rw [run_cons, run_cons, ih (step s o h0 hrun.1) hrun.2, hφ s o h0 hrun.1]

/-- What holds initially and is kept by every admissible operation holds all the time. -/
theorem always_of_invariant (step : ∀ s o, I s → ok s o → I (exec s o))
    (h0 : I s) (hrun : Admissible exec ok s os) : Always exec I s os := by
  induction os generalizing s with
  | nil => exact h0
  | cons o os ih => exact ⟨h0, ih (step s o h0 hrun.1) hrun.2⟩

/-- What every admissible operation satisfies in a state that the admissible operations keep, each
    operation of an admissible run satisfies. -/
theorem admissible_of_invariant {Q : σ → ο → Prop}
    (step : ∀ s o, I s → ok s o → I (exec s o) ∧ Q s o) (h0 : I s)
    (hrun : Admissible exec ok s os) : Admissible exec Q s os := by
  induction os generalizing s with
  | nil => trivial
  | cons o os ih => exact ⟨(step s o h0 hrun.1).2, ih (step s o h0 hrun.1).1 hrun.2⟩

/-- Two promises that mean the same, where something holds that operations keep with them, make the
    same runs admissible. -/
theorem admissible_iff (hiff : ∀ s o, I s → (ok s o ↔ ok' s o))
    (step : ∀ s o, I s → ok s o → I (exec s o)) (h0 : I s) :
    Admissible exec ok s os ↔ Admissible exec ok' s os := by
  induction os generalizing s with
  | nil => exact Iff.rfl
  | cons o os ih =>
    constructor
    · rintro ⟨ho, hos⟩
      exact ⟨(hiff s o h0).1 ho, (ih (step s o h0 ho)).1 hos⟩
    · rintro ⟨ho, hos⟩
      have ho' := (hiff s o h0).2 ho
      exact ⟨ho', (ih (step s o h0 ho')).2 hos⟩

theorem Always.mono {Q : σ → Prop} (h : ∀ s, P s → Q s) (hrun : Always exec P s os) :
    Always exec Q s os := by
  induction os generalizing s with
  | nil => exact h s hrun
  | cons o os ih => exact ⟨h s hrun.1, ih hrun.2⟩

/-- When, of the operations that are valid, `P` is kept by those that are `ok` and by no other,
    it holds all the time in the valid runs that are made of them. What every valid operation
    keeps may be used for this. -/
theorem always_iff_of_valid {valid : σ → ο → Prop} (hA : ∀ s o, A s → valid s o → A (exec s o))
    (hstep : ∀ s o, A s → valid s o → P s → (P (exec s o) ↔ ok s o))
    (hvalid : Admissible exec valid s os) (hA0 : A s) (h0 : P s) :
    Always exec P s os ↔ Admissible exec ok s os := by
  induction os generalizing s with
  | nil => exact iff_of_true h0 trivial
  | cons o os ih =>
    have hA1 := hA s o hA0 hvalid.1
    constructor
    · intro h
      have hP : P (exec s o) := by
        cases os with
        | nil => exact h.2
        | cons _ _ => exact h.2.1
      exact ⟨(hstep s o hA0 hvalid.1 h0).1 hP, (ih hvalid.2 hA1 hP).1 h.2⟩
    · intro h
      have hP : P (exec s o) := (hstep s o hA0 hvalid.1 h0).2 h.1
      exact ⟨h0, (ih hvalid.2 hA1 hP).2 h.2⟩

theorem admissible_true (s : σ) (os : List ο) : Admissible exec (fun _ _ => True) s os := by
  induction os generalizing s with
  | nil => trivial
  | cons o os ih => exact ⟨trivial, ih _⟩

end Run
