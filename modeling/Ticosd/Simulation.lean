import Ticosd.GuardedRun

/-! # Simulation — a machine and what it is allowed to do

    A specification is a relation `Step : T → L → T → Prop`: from a state it may show a
    label and go to another state.  `Trace` chains such steps.  A machine of
    `GuardedRun` that says which label each of its actions shows (`shown`) refines the
    specification when every action that meets its condition is matched by one step
    between related states; then a whole run is matched by a trace (`simulate`), and
    whatever holds of every trace holds of every run. -/

namespace Simulation

open GuardedRun

variable {S A T L : Type}

/-- The specification shows the labels on its way from one state to another. -/
inductive Trace (Step : T → L → T → Prop) : T → List L → T → Prop where
  | nil (t : T) : Trace Step t [] t
  | cons {t t' t'' : T} {l : L} {ls : List L} :
      Step t l t' → Trace Step t' ls t'' → Trace Step t (l :: ls) t''

/-- The labels that a machine shows along a run. -/
def shown (step : S → A → S) (label : S → A → L) : S → List A → List L
  | _, [] => []
  | s, a :: as => label s a :: shown step label (step s a) as

variable {Step : T → L → T → Prop} {step : S → A → S} {label : S → A → L} {P : S → A → Prop}

@[simp] theorem shown_nil (s : S) : shown step label s [] = [] := rfl

@[simp] theorem shown_cons (s : S) (a : A) (as : List A) :
    shown step label s (a :: as) = label s a :: shown step label (step s a) as := rfl

theorem shown_append (s : S) (as bs : List A) :
    shown step label s (as ++ bs)
      = shown step label s as ++ shown step label (run step s as) bs := by
  induction as generalizing s with
  | nil => rfl
  | cons a as ih => rw [List.cons_append, shown_cons, shown_cons, ih, run_cons, List.cons_append]

/-- A trace splits with its labels. -/
theorem trace_append {t t'' : T} {ks ls : List L} :
    Trace Step t (ks ++ ls) t'' ↔ ∃ t', Trace Step t ks t' ∧ Trace Step t' ls t'' := by
  constructor
  · intro h
    induction ks generalizing t with
    | nil => exact ⟨t, .nil t, h⟩
    | cons k ks ih =>
        cases h with
        | cons hstep hrest =>
            obtain ⟨t', h1, h2⟩ := ih hrest
            exact ⟨t', .cons hstep h1, h2⟩
  · rintro ⟨t', h1, h2⟩
    induction h1 with
    | nil t => exact h2
    | cons hstep _ ih => exact .cons hstep (ih h2)

/-- What every step keeps, every trace keeps. -/
theorem Trace.invariant {Inv : T → Prop} (hstep : ∀ t l t', Inv t → Step t l t' → Inv t')
    {t t' : T} {ls : List L} (h : Trace Step t ls t') (ht : Inv t) : Inv t' := by
  induction h with
  | nil t => exact ht
  | cons hs _ ih => exact ih (hstep _ _ _ ht hs)

/-- What every action shows, holds of all that is shown. -/
theorem shown_forall {Inv : S → Prop} {C : L → Prop}
    (hstep : ∀ s a, Inv s → P s a → Inv (step s a) ∧ C (label s a)) {s : S} {as : List A}
    (hs : Inv s) (h : Along step P s as) : ∀ l ∈ shown step label s as, C l := by
  induction as generalizing s with
  | nil => exact fun l hl => absurd hl List.not_mem_nil
  | cons a as ih =>
      obtain ⟨hs', hc⟩ := hstep s a hs h.1
      exact List.forall_mem_cons.mpr ⟨hc, ih hs' h.2⟩

/-- **The simulation rule**: actions that are matched one by one between related states
    are matched run by run. -/
theorem simulate {R : S → T → Prop}
    (hstep : ∀ s t a, R s t → P s a → ∃ t', Step t (label s a) t' ∧ R (step s a) t')
    {s : S} {t : T} {as : List A} (hr : R s t) (h : Along step P s as) :
    ∃ t', Trace Step t (shown step label s as) t' ∧ R (run step s as) t' := by
  induction as generalizing s t with
  | nil => exact ⟨t, .nil t, hr⟩
  | cons a as ih =>
      obtain ⟨t₁, h1, hr1⟩ := hstep s t a hr h.1
      obtain ⟨t₂, h2, hr2⟩ := ih hr1 h.2
      exact ⟨t₂, .cons h1 h2, hr2⟩

/-- The rule for a specification whose state is a function of the machine's. -/
theorem simulate_abs {Inv : S → Prop} {abs : S → T}
    (hstep : ∀ s a, Inv s → P s a → Inv (step s a) ∧ Step (abs s) (label s a) (abs (step s a)))
    {s : S} {as : List A} (hs : Inv s) (h : Along step P s as) :
    Trace Step (abs s) (shown step label s as) (abs (run step s as)) := by
  have hall : ∀ s t a, (Inv s ∧ t = abs s) → P s a →
      ∃ t', Step t (label s a) t' ∧ (Inv (step s a) ∧ t' = abs (step s a)) := by
    rintro s _ a ⟨hi, rfl⟩ hp
    obtain ⟨hi', hs'⟩ := hstep s a hi hp
    exact ⟨_, hs', hi', rfl⟩
  obtain ⟨t, ht, -, rfl⟩ := simulate hall ⟨hs, rfl⟩ h
  exact ht

end Simulation
