import Mathlib

/-! # Guarded runs — invariants of a deterministic state machine

    A machine is a step function `S → A → S`.  `run` folds a list of actions;
    `Along P` says that each action of the list meets the condition `P` in the
    state it is taken in.  The one rule a development needs: a property that
    holds at the start and is kept by every action that meets its condition
    holds after every run along which the condition is met. -/

namespace GuardedRun

variable {S A : Type}

/-- The state after the actions. -/
def run (step : S → A → S) (s : S) (as : List A) : S := as.foldl step s

/-- Every action meets the condition in the state before it. -/
def Along (step : S → A → S) (P : S → A → Prop) : S → List A → Prop
  | _, [] => True
  | s, a :: as => P s a ∧ Along step P (step s a) as

instance decidableAlong (step : S → A → S) (P : S → A → Prop) [∀ s a, Decidable (P s a)] :
    ∀ s as, Decidable (Along step P s as)
  | _, [] => inferInstanceAs (Decidable True)
  | s, a :: as =>
      have := decidableAlong step P (step s a) as
      inferInstanceAs (Decidable (_ ∧ _))

variable {step : S → A → S} {P Q : S → A → Prop}

@[simp] theorem run_nil (s : S) : run step s [] = s := rfl

@[simp] theorem run_cons (s : S) (a : A) (as : List A) :
    run step s (a :: as) = run step (step s a) as := rfl

theorem run_append (s : S) (as bs : List A) :
    run step s (as ++ bs) = run step (run step s as) bs :=
  List.foldl_append

/-- The condition along a run splits with the run. -/
theorem along_append {s : S} {as bs : List A} :
    Along step P s (as ++ bs) ↔ Along step P s as ∧ Along step P (run step s as) bs := by
  induction as generalizing s with
  | nil => simp only [List.nil_append, Along, run_nil, true_and]
  | cons a as ih =>
      rw [List.cons_append, Along, Along, ih, run_cons, and_assoc]

/-- A weaker condition is met along the same run. -/
theorem Along.mono {s : S} {as : List A} (h : Along step P s as)
    (hPQ : ∀ s a, P s a → Q s a) : Along step Q s as := by
  induction as generalizing s with
  | nil => trivial
  | cons a as ih => exact ⟨hPQ s a h.1, ih h.2⟩

/-- **The invariant rule.** -/
theorem invariant {Inv : S → Prop} (hstep : ∀ s a, Inv s → P s a → Inv (step s a))
    {s : S} {as : List A} (hs : Inv s) (h : Along step P s as) : Inv (run step s as) := by
  induction as generalizing s with
  | nil => exact hs
  | cons a as ih => exact ih (hstep s a hs h.1) h.2

end GuardedRun
