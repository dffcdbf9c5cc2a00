import Mathlib

/-! # Fuel — programs whose loops need not end

    A program over a state takes a number of rounds as fuel: `run n s` is the
    result, or nothing if the fuel is used up before, and in either case the state
    that has been reached.  More fuel never changes a result, which each program
    carries as a field.

    Several kinds of statements are made of programs.  `Keeps Inv p`: an invariant
    holds however far the program is run.  `Meets P p Q`: a run from `P` that ends has
    `Q`.  `Alarms Alarm p Q`: when the alarm goes off, the run is over, with `Q`.
    `Settles Good p s Q`: either the program ends, with `Q`, and no state on the way is
    bad, or it runs forever and gets to a bad state from which it never recovers; so it
    ends exactly when all is good on the way.  `Refines R φ p f`: the runs that end are
    those of a function on other states.  `Mirrors R R' ok φ p f`: so are those that end
    well, read forwards.  Each has a rule for each way of composing programs. -/

namespace Fuel

variable {S X α β : Type}

/-- A program: its result, if the fuel is enough, and the state. -/
structure Prog (S α : Type) where
  run : Nat → S → Option α × S
  mono : ∀ {n m s a s'}, n ≤ m → run n s = (some a, s') → run m s = (some a, s')

namespace Prog

/-- One action. -/
def act (f : S → α × S) : Prog S α where
  run _ s := (some (f s).1, (f s).2)
  mono _ h := h

/-- One program after the other, with the same fuel. -/
def bindRun (p : Prog S α) (f : α → Prog S β) (n : Nat) (s : S) : Option β × S :=
  match p.run n s with
  | (none, s') => (none, s')
  | (some a, s') => (f a).run n s'

instance : Monad (Prog S) where
  pure a := act (fun s => (a, s))
  bind p f :=
    { run := bindRun p f
      mono := by
        intro n m s b s' hle h
        rw [bindRun] at h ⊢
        cases hp : p.run n s with
        | mk r t =>
            rw [hp] at h
            cases r with
            | none => exact nomatch (Prod.mk.inj h).1
            | some a =>
                rw [p.mono hle hp]
                exact (f a).mono hle h }

/-- The rounds of a loop. -/
def loopRun (body : X → Prog S (X ⊕ α)) : Nat → X → S → Option α × S
  | 0, _, s => (none, s)
  | n + 1, x, s =>
      match (body x).run n s with
      | (none, s') => (none, s')
      | (some (.inl x'), s') => loopRun body n x' s'
      | (some (.inr a), s') => (some a, s')

theorem loopRun_mono {body : X → Prog S (X ⊕ α)} {n m : Nat} {x : X} {s s' : S} {a : α}
    (hle : n ≤ m) (h : loopRun body n x s = (some a, s')) :
    loopRun body m x s = (some a, s') := by
  induction n generalizing m x s with
  | zero => exact nomatch (Prod.mk.inj h).1
  | succ n ih =>
      obtain ⟨m, rfl⟩ : ∃ k, m = k + 1 := ⟨m - 1, by omega⟩
      rw [loopRun] at h ⊢
      cases hb : (body x).run n s with
      | mk r t =>
          rw [hb] at h
          cases r with
          | none => exact nomatch (Prod.mk.inj h).1
          | some r =>
              rw [(body x).mono (Nat.le_of_succ_le_succ hle) hb]
              cases r with
              | inl x' => exact ih (Nat.le_of_succ_le_succ hle) h
              | inr b => exact h

/-- `while`: the body says how to go on, or that the loop is over. -/
def loop (body : X → Prog S (X ⊕ α)) (x : X) : Prog S α where
  run n s := loopRun body n x s
  mono := loopRun_mono

/-- What follows a round. -/
def goOn (body : X → Prog S (X ⊕ α)) : X ⊕ α → Prog S α
  | .inl x => loop body x
  | .inr a => pure a

@[simp] theorem run_pure (a : α) (n : Nat) (s : S) :
    (pure a : Prog S α).run n s = (some a, s) := rfl

@[simp] theorem run_act (f : S → α × S) (n : Nat) (s : S) :
    (act f).run n s = (some (f s).1, (f s).2) := rfl

theorem run_bind (p : Prog S α) (f : α → Prog S β) (n : Nat) (s : S) :
    (p >>= f).run n s = bindRun p f n s := rfl

theorem run_bind_some {p : Prog S α} {n : Nat} {s s' : S} {a : α}
    (h : p.run n s = (some a, s')) (f : α → Prog S β) :
    (p >>= f).run n s = (f a).run n s' := by
  rw [run_bind, bindRun, h]

theorem run_bind_none {p : Prog S α} {n : Nat} {s : S} (h : (p.run n s).1 = none)
    (f : α → Prog S β) : (p >>= f).run n s = (none, (p.run n s).2) := by
  rw [run_bind, bindRun]
  cases hp : p.run n s with
  | mk r t =>
      rw [hp] at h
      obtain rfl : r = none := h
      rfl

/-- A loop is its first round and what follows it. -/
theorem run_loop_succ (body : X → Prog S (X ⊕ α)) (n : Nat) (x : X) (s : S) :
    (loop body x).run (n + 1) s = (body x >>= goOn body).run n s := by
  show loopRun body (n + 1) x s = bindRun (body x) (goOn body) n s
  rw [loopRun, bindRun]
  rcases (body x).run n s with ⟨_ | x' | a, t⟩ <;> rfl

/-- Two runs that end have one result. -/
theorem run_unique {p : Prog S α} {n m : Nat} {s s₁ s₂ : S} {a₁ a₂ : α}
    (h₁ : p.run n s = (some a₁, s₁)) (h₂ : p.run m s = (some a₂, s₂)) : a₁ = a₂ ∧ s₁ = s₂ := by
  have heq : (some a₁, s₁) = (some a₂, s₂) :=
    (p.mono (Nat.le_max_left n m) h₁).symm.trans (p.mono (Nat.le_max_right n m) h₂)
  exact ⟨Option.some.inj (Prod.mk.inj heq).1, (Prod.mk.inj heq).2⟩

end Prog

open Prog

/-! ## Invariants of the way -/

/-- The invariant holds however far the program is run. -/
def Keeps (Inv : S → Prop) (p : Prog S α) : Prop := ∀ n s, Inv s → Inv (p.run n s).2

variable {Inv : S → Prop}

theorem Keeps.pure (a : α) : Keeps Inv (Pure.pure a : Prog S α) := fun _ _ h => h

theorem Keeps.act {f : S → α × S} (h : ∀ s, Inv s → Inv (f s).2) : Keeps Inv (Prog.act f) :=
  fun _ s hs => h s hs

theorem Keeps.bind {p : Prog S α} {f : α → Prog S β} (hp : Keeps Inv p)
    (hf : ∀ a, Keeps Inv (f a)) : Keeps Inv (p >>= f) := by
  intro n s hs
  have hmid := hp n s hs
  rw [run_bind, bindRun]
  cases hrun : p.run n s with
  | mk r t =>
      rw [hrun] at hmid
      cases r with
      | none => exact hmid
      | some a => exact hf a n t hmid

theorem Keeps.loop {body : X → Prog S (X ⊕ α)} (h : ∀ x, Keeps Inv (body x)) (x : X) :
    Keeps Inv (Prog.loop body x) := by
  intro n
  show ∀ s, Inv s → Inv (loopRun body n x s).2
  induction n generalizing x with
  | zero => exact fun _ hs => hs
  | succ n ih =>
      intro s hs
      have hmid := h x n s hs
      rw [loopRun]
      cases hrun : (body x).run n s with
      | mk r t =>
          rw [hrun] at hmid
          rcases r with _ | x' | a
          · exact hmid
          · exact ih x' t hmid
          · exact hmid

/-! ## Results -/

/-- Every result has the property. -/
def Yields (R : α → Prop) (p : Prog S α) : Prop :=
  ∀ n s a s', p.run n s = (some a, s') → R a

theorem Yields.pure {R : α → Prop} {a : α} (h : R a) : Yields R (Pure.pure a : Prog S α) := by
  intro n s b s' hrun
  obtain rfl : a = b := Option.some.inj (Prod.mk.inj hrun).1
  exact h

theorem Yields.trivial (p : Prog S α) : Yields (fun _ => True) p := fun _ _ _ _ _ => True.intro

theorem Yields.bind {R : α → Prop} {T : β → Prop} {p : Prog S α} {f : α → Prog S β}
    (hp : Yields R p) (hf : ∀ a, R a → Yields T (f a)) : Yields T (p >>= f) := by
  intro n s b s' hrun
  rw [run_bind, bindRun] at hrun
  cases hmid : p.run n s with
  | mk r t =>
      rw [hmid] at hrun
      cases r with
      | none => exact nomatch (Prod.mk.inj hrun).1
      | some a => exact hf a (hp n s a t hmid) n t b s' hrun

/-! ## Partial correctness -/

section Meets

variable {P : S → Prop} {Q : α → S → Prop} {R : β → S → Prop}

/-- From a state with `P`, a run that ends has `Q`. -/
def Meets (P : S → Prop) (p : Prog S α) (Q : α → S → Prop) : Prop :=
  ∀ n s a s', P s → p.run n s = (some a, s') → Q a s'

theorem Meets.pure {a : α} (h : ∀ s, P s → Q a s) : Meets P (Pure.pure a : Prog S α) Q := by
  intro n s b s' hs hrun
  obtain ⟨hb, rfl⟩ := Prod.mk.inj hrun
  obtain rfl : a = b := Option.some.inj hb
  exact h s hs

theorem Meets.act {f : S → α × S} (h : ∀ s, P s → Q (f s).1 (f s).2) :
    Meets P (Prog.act f) Q := by
  intro n s b s' hs hrun
  obtain ⟨hb, rfl⟩ := Prod.mk.inj hrun
  obtain rfl : (f s).1 = b := Option.some.inj hb
  exact h s hs

theorem Meets.bind {p : Prog S α} {f : α → Prog S β} (hp : Meets P p Q)
    (hf : ∀ a, Meets (Q a) (f a) R) : Meets P (p >>= f) R := by
  intro n s b s' hs hrun
  rw [run_bind, bindRun] at hrun
  cases hmid : p.run n s with
  | mk r t =>
      rw [hmid] at hrun
      cases r with
      | none => exact nomatch (Prod.mk.inj hrun).1
      | some a => exact hf a n t b s' (hp n s a t hs hmid) hrun

/-- The rule of consequence. -/
theorem Meets.weaken {P' : S → Prop} {Q' : α → S → Prop} {p : Prog S α} (h : Meets P p Q)
    (hP : ∀ s, P' s → P s) (hQ : ∀ a s, Q a s → Q' a s) : Meets P' p Q' :=
  fun n s a s' hs hrun => hQ a s' (h n s a s' (hP s hs) hrun)

theorem Meets.and {P' : S → Prop} {Q' : α → S → Prop} {p : Prog S α} (h : Meets P p Q)
    (h' : Meets P' p Q') : Meets (fun s => P s ∧ P' s) p (fun a s => Q a s ∧ Q' a s) :=
  fun n s a s' hs hrun => ⟨h n s a s' hs.1 hrun, h' n s a s' hs.2 hrun⟩

theorem Keeps.meets {p : Prog S α} (h : Keeps Inv p) : Meets Inv p (fun _ s => Inv s) := by
  intro n s a s' hs hrun
  have hafter := h n s hs
  rw [hrun] at hafter
  exact hafter

theorem Meets.loop {body : X → Prog S (X ⊕ α)} (Inv : X → S → Prop)
    (h : ∀ x, Meets (Inv x) (body x) (fun r s => match r with
      | .inl x' => Inv x' s
      | .inr a => Q a s)) (x : X) : Meets (Inv x) (Prog.loop body x) Q := by
  intro n
  show ∀ s a s', Inv x s → loopRun body n x s = (some a, s') → Q a s'
  induction n generalizing x with
  | zero => exact fun s a s' _ hrun => nomatch (Prod.mk.inj hrun).1
  | succ n ih =>
      intro s a s' hs hrun
      rw [loopRun] at hrun
      cases hmid : (body x).run n s with
      | mk r t =>
          rw [hmid] at hrun
          rcases r with _ | x' | b
          · exact nomatch (Prod.mk.inj hrun).1
          · exact ih x' t a s' (h x n s _ t hs hmid) hrun
          · have hround := h x n s _ t hs hmid
            obtain ⟨hb, rfl⟩ := Prod.mk.inj hrun
            obtain rfl : b = a := Option.some.inj hb
            exact hround

end Meets

/-! ## Alarms -/

section Alarms

variable {Alarm : S → Prop} {Q : α → S → Prop} {R : β → S → Prop}

/-- A run in which the alarm goes off is over, with `Q`, whatever the fuel was. -/
def Alarms (Alarm : S → Prop) (p : Prog S α) (Q : α → S → Prop) : Prop :=
  ∀ n s, ¬ Alarm s → Alarm (p.run n s).2 → ∃ a, (p.run n s).1 = some a ∧ Q a (p.run n s).2

theorem Alarms.pure (a : α) : Alarms Alarm (Pure.pure a : Prog S α) Q :=
  fun _ _ hs halarm => absurd halarm hs

theorem Alarms.act {f : S → α × S} (h : ∀ s, ¬ Alarm s → Alarm (f s).2 → Q (f s).1 (f s).2) :
    Alarms Alarm (Prog.act f) Q :=
  fun _ s hs halarm => ⟨(f s).1, rfl, h s hs halarm⟩

/-- What comes after the alarm has to pass it on. -/
theorem Alarms.bind {p : Prog S α} {f : α → Prog S β} (hp : Alarms Alarm p Q)
    (hf : ∀ a, Alarms Alarm (f a) R)
    (hpass : ∀ a s, Q a s → ∀ n, ∃ b, ((f a).run n s).1 = some b ∧ R b ((f a).run n s).2) :
    Alarms Alarm (p >>= f) R := by
  intro n s hs halarm
  rw [run_bind, bindRun] at halarm ⊢
  have hfirst := hp n s hs
  cases hmid : p.run n s with
  | mk r t =>
      rw [hmid] at halarm hfirst
      by_cases hgone : Alarm t
      · obtain ⟨a, ha, hQ⟩ := hfirst hgone
        obtain rfl : r = some a := ha
        exact hpass a t hQ n
      · cases r with
        | none => exact absurd halarm hgone
        | some a => exact hf a n t hgone halarm

theorem Alarms.loop {body : X → Prog S (X ⊕ α)}
    (h : ∀ x, Alarms Alarm (body x) (fun r s => ∃ a, r = .inr a ∧ Q a s)) (x : X) :
    Alarms Alarm (Prog.loop body x) Q := by
  intro n
  show ∀ s, ¬ Alarm s → Alarm (loopRun body n x s).2 →
    ∃ a, (loopRun body n x s).1 = some a ∧ Q a (loopRun body n x s).2
  induction n generalizing x with
  | zero => exact fun s hs halarm => absurd halarm hs
  | succ n ih =>
      intro s hs halarm
      have hround := h x n s hs
      rw [loopRun] at halarm ⊢
      cases hmid : (body x).run n s with
      | mk r t =>
          rw [hmid] at halarm hround
          by_cases hgone : Alarm t
          · obtain ⟨r', hr, a, rfl, hQ⟩ := hround hgone
            obtain rfl : r = some (.inr a) := hr
            exact ⟨a, rfl, hQ⟩
          · rcases r with _ | x' | a
            · exact absurd halarm hgone
            · exact ih x' t hgone halarm
            · exact absurd halarm hgone

end Alarms

/-! ## Ending, or being stuck -/

/-- Enough fuel gives the result. -/
def Ends (p : Prog S α) (s : S) (a : α) (s' : S) : Prop := ∃ n, p.run n s = (some a, s')

/-- No fuel is enough. -/
def Loops (p : Prog S α) (s : S) : Prop := ∀ n, (p.run n s).1 = none

/-- The program ends with `Q`, and all is good on the way; or it never ends, and at
    some time all is bad for good. -/
def Settles (Good : S → Prop) (p : Prog S α) (s : S) (Q : α → S → Prop) : Prop :=
  (∃ a s', Ends p s a s' ∧ Q a s' ∧ ∀ n, Good (p.run n s).2) ∨
    (Loops p s ∧ ∃ n₀, ∀ n, n₀ ≤ n → ¬ Good (p.run n s).2)

variable {Good : S → Prop} {s : S}

/-- A program that ends whatever the fuel is. -/
theorem Settles.ended {p : Prog S α} {Q : α → S → Prop} {a : α} {s' : S}
    (h : ∀ n, p.run n s = (some a, s')) (hs : Good s') (hQ : Q a s') : Settles Good p s Q := by
  refine Or.inl ⟨a, s', ⟨0, h 0⟩, hQ, fun n => ?_⟩
  rw [h n]
  exact hs

theorem Settles.pure {Q : α → S → Prop} {a : α} (hs : Good s) (hQ : Q a s) :
    Settles Good (Pure.pure a : Prog S α) s Q :=
  Settles.ended (run_pure a · s) hs hQ

theorem Settles.act {Q : α → S → Prop} {f : S → α × S} (hs : Good (f s).2)
    (hQ : Q (f s).1 (f s).2) : Settles Good (Prog.act f) s Q :=
  Settles.ended (run_act f · s) hs hQ

/-- The rule of consequence; the last state is good. -/
theorem Settles.weaken {p : Prog S α} {Q R : α → S → Prop} (h : Settles Good p s Q)
    (hQR : ∀ a s', Q a s' → Good s' → R a s') : Settles Good p s R := by
  rcases h with ⟨a, s', ⟨n, hn⟩, hQ, hgood⟩ | hloops
  · refine Or.inl ⟨a, s', ⟨n, hn⟩, hQR a s' hQ ?_, hgood⟩
    have hlast := hgood n
    rw [hn] at hlast
    exact hlast
  · exact Or.inr hloops

theorem Settles.yields {p : Prog S α} {Q : α → S → Prop} {R : α → Prop} (h : Settles Good p s Q)
    (hR : Yields R p) : Settles Good p s (fun a s' => R a ∧ Q a s') := by
  rcases h with ⟨a, s', ⟨n, hn⟩, hQ, hgood⟩ | hloops
  · exact Or.inl ⟨a, s', ⟨n, hn⟩, ⟨hR n s a s' hn, hQ⟩, hgood⟩
  · exact Or.inr hloops

theorem Settles.bind {p : Prog S α} {f : α → Prog S β} {Q : α → S → Prop} {R : β → S → Prop}
    (hp : Settles Good p s Q) (hf : ∀ a s', Q a s' → Good s' → Settles Good (f a) s' R) :
    Settles Good (p >>= f) s R := by
  rcases hp with ⟨a, t, ⟨n, hn⟩, hQ, hgood⟩ | ⟨hloops, n, hbad⟩
  · have hlast : Good t := by
      have := hgood n
      rwa [hn] at this
    -- before the first program has ended, its own states are good
    have hcases : ∀ m, ((p >>= f).run m s).1 = none ∧ Good ((p >>= f).run m s).2 ∨
        (p >>= f).run m s = (f a).run m t := by
      intro m
      cases hm : p.run m s with
      | mk r t' =>
          cases r with
          | none =>
              have hnone : (p.run m s).1 = none := by rw [hm]
              rw [run_bind_none hnone]
              exact Or.inl ⟨rfl, hgood m⟩
          | some a' =>
              obtain ⟨rfl, rfl⟩ := run_unique hm hn
              exact Or.inr (run_bind_some hm f)
    have hafter : ∀ m, n ≤ m → (p >>= f).run m s = (f a).run m t :=
      fun m hm => run_bind_some (p.mono hm hn) f
    rcases hf a t hQ hlast with ⟨b, t', ⟨m, hm⟩, hR, hgood'⟩ | ⟨hloops, m, hbad⟩
    · refine Or.inl ⟨b, t', ⟨max n m, ?_⟩, hR, fun k => ?_⟩
      · rw [hafter _ (Nat.le_max_left n m)]
        exact (f a).mono (Nat.le_max_right n m) hm
      · rcases hcases k with ⟨-, hk⟩ | hk
        · exact hk
        · rw [hk]
          exact hgood' k
    · refine Or.inr ⟨fun k => ?_, max n m, fun k hk => ?_⟩
      · rcases hcases k with ⟨hk, -⟩ | hk
        · exact hk
        · rw [hk]
          exact hloops k
      · rw [hafter k (by omega)]
        exact hbad k (by omega)
  · refine Or.inr ⟨fun k => ?_, n, fun k hk => ?_⟩
    · rw [run_bind_none (hloops k)]
    · rw [run_bind_none (hloops k)]
      exact hbad k hk

/-- One round of a loop. -/
theorem Settles.round {body : X → Prog S (X ⊕ α)} {x : X} {Q : α → S → Prop} (hs : Good s)
    (hbody : Settles Good (body x) s (fun r s' =>
      match r with
      | .inl x' => Settles Good (Prog.loop body x') s' Q
      | .inr a => Q a s')) : Settles Good (Prog.loop body x) s Q := by
  have hbind : Settles Good (body x >>= goOn body) s Q := by
    refine hbody.bind ?_
    rintro (x' | a) s' hr hs'
    · exact hr
    · exact Settles.pure hs' hr
  -- the loop is that, one unit of fuel later
  rcases hbind with ⟨a, s', ⟨n, hn⟩, hQ, hgood⟩ | ⟨hloops, n, hbad⟩
  · refine Or.inl ⟨a, s', ⟨n + 1, (run_loop_succ body n x s).trans hn⟩, hQ, ?_⟩
    rintro (_ | m)
    · exact hs
    · rw [run_loop_succ]
      exact hgood m
  · refine Or.inr ⟨?_, n + 1, ?_⟩
    · rintro (_ | m)
      · rfl
      · rw [run_loop_succ]
        exact hloops m
    · intro m hm
      obtain ⟨m, rfl⟩ : ∃ k, m = k + 1 := ⟨m - 1, by omega⟩
      rw [run_loop_succ]
      exact hbad m (Nat.le_of_succ_le_succ hm)

/-- **The rule of loops**: each round leaves less to do, or the loop is known to
    settle from here. -/
theorem Settles.loop {body : X → Prog S (X ⊕ α)} {Q : α → S → Prop} (Inv : X → S → Prop)
    (rank : X → S → Nat)
    (hbody : ∀ x s, Inv x s → Settles Good (Prog.loop body x) s Q ∨
      Good s ∧ Settles Good (body x) s (fun r s' =>
        match r with
        | .inl x' => Inv x' s' ∧ rank x' s' < rank x s
        | .inr a => Q a s'))
    {x : X} (hinv : Inv x s) : Settles Good (Prog.loop body x) s Q := by
  induction hn : rank x s using Nat.strongRecOn generalizing x s with
  | ind n ih =>
      rcases hbody x s hinv with h | ⟨hs, hround⟩
      · exact h
      · refine Settles.round hs (hround.weaken ?_)
        rintro (x' | a) s' hr -
        · obtain ⟨hinv', hless⟩ := hr
          exact ih _ (hn ▸ hless) hinv' rfl
        · exact hr

/-- A loop that is stuck: each round gets to a bad state, from where the next one
    does. -/
theorem Settles.stuck {body : X → Prog S (X ⊕ α)} {Stuck : X → S → Prop} {Q : α → S → Prop}
    (hbody : ∀ x s, Stuck x s → ∃ x' s', Stuck x' s' ∧ ¬ Good s' ∧
      ∀ n, (body x).run n s = (some (.inl x'), s'))
    {x : X} (hx : Stuck x s) : Settles Good (Prog.loop body x) s Q := by
  have hrun : ∀ n x s, Stuck x s → ((Prog.loop body x).run n s).1 = none ∧
      (1 ≤ n → ¬ Good ((Prog.loop body x).run n s).2) := by
    intro n
    induction n with
    | zero => exact fun _ _ _ => ⟨rfl, fun h => nomatch h⟩
    | succ n ih =>
        intro x s hx
        obtain ⟨x', s', hx', hbad, hstep⟩ := hbody x s hx
        have hnext : (Prog.loop body x).run (n + 1) s = (Prog.loop body x').run n s' := by
          rw [run_loop_succ, run_bind_some (hstep n)]
          rfl
        rw [hnext]
        refine ⟨(ih x' s' hx').1, fun _ => ?_⟩
        rcases Nat.eq_zero_or_pos n with rfl | hpos
        · exact hbad
        · exact (ih x' s' hx').2 hpos
  exact Or.inr ⟨fun n => (hrun n x s hx).1, 1, fun n hn => (hrun n x s hx).2 hn⟩

/-- **It ends, and well, exactly when all is good on the way.** -/
theorem Settles.ends_iff_good {p : Prog S α} {Q : α → S → Prop} (h : Settles Good p s Q) :
    (∃ n a s', p.run n s = (some a, s') ∧ Q a s') ↔ ∀ n, Good (p.run n s).2 := by
  rcases h with ⟨a, s', ⟨n, hn⟩, hQ, hgood⟩ | ⟨hloops, n, hbad⟩
  · exact ⟨fun _ => hgood, fun _ => ⟨n, a, s', hn, hQ⟩⟩
  · constructor
    · rintro ⟨m, a, s', hm, -⟩
      have hnone := hloops m
      rw [hm] at hnone
      exact nomatch hnone
    · exact fun hgood => absurd (hgood n) (hbad n (Nat.le_refl n))

/-! ## Ending -/

/-- The program ends, with `Q`. -/
def Finishes (p : Prog S α) (s : S) (Q : α → S → Prop) : Prop := Settles (fun _ => True) p s Q

theorem finishes_iff {p : Prog S α} {Q : α → S → Prop} :
    Finishes p s Q ↔ ∃ n a s', p.run n s = (some a, s') ∧ Q a s' := by
  constructor
  · exact fun h => h.ends_iff_good.mpr fun _ => trivial
  · rintro ⟨n, a, s', hn, hQ⟩
    exact Or.inl ⟨a, s', ⟨n, hn⟩, hQ, fun _ => trivial⟩

theorem Finishes.pure {Q : α → S → Prop} {a : α} (hQ : Q a s) :
    Finishes (Pure.pure a : Prog S α) s Q :=
  Settles.pure trivial hQ

theorem Finishes.act {Q : α → S → Prop} {f : S → α × S} (hQ : Q (f s).1 (f s).2) :
    Finishes (Prog.act f) s Q :=
  Settles.act trivial hQ

theorem Finishes.weaken {p : Prog S α} {Q R : α → S → Prop} (h : Finishes p s Q)
    (hQR : ∀ a s', Q a s' → R a s') : Finishes p s R :=
  Settles.weaken h fun a s' hQ _ => hQR a s' hQ

theorem Finishes.bind {p : Prog S α} {f : α → Prog S β} {Q : α → S → Prop} {R : β → S → Prop}
    (hp : Finishes p s Q) (hf : ∀ a s', Q a s' → Finishes (f a) s' R) :
    Finishes (p >>= f) s R :=
  Settles.bind hp fun a s' hQ _ => hf a s' hQ

/-- An action, and then the rest. -/
theorem Finishes.step {g : S → α × S} {f : α → Prog S β} {R : β → S → Prop}
    (hf : Finishes (f (g s).1) (g s).2 R) : Finishes (Prog.act g >>= f) s R := by
  refine Finishes.bind (Q := fun a s' => a = (g s).1 ∧ s' = (g s).2) (Finishes.act ⟨rfl, rfl⟩) ?_
  rintro a s' ⟨rfl, rfl⟩
  exact hf

theorem Finishes.and {p : Prog S α} {Q R : α → S → Prop} (hQ : Finishes p s Q)
    (hR : Finishes p s R) : Finishes p s (fun a s' => Q a s' ∧ R a s') := by
  obtain ⟨n, a, s', hn, hQ⟩ := finishes_iff.mp hQ
  obtain ⟨m, b, t, hm, hR⟩ := finishes_iff.mp hR
  obtain ⟨rfl, rfl⟩ := run_unique hn hm
  exact finishes_iff.mpr ⟨n, a, s', hn, hQ, hR⟩

theorem Finishes.round {body : X → Prog S (X ⊕ α)} {x : X} {Q : α → S → Prop}
    (hbody : Finishes (body x) s (fun r s' =>
      match r with
      | .inl x' => Finishes (Prog.loop body x') s' Q
      | .inr a => Q a s')) : Finishes (Prog.loop body x) s Q :=
  Settles.round trivial hbody

/-- There is one result, so every statement about results is one about that. -/
theorem Finishes.result_iff {p : Prog S α} {v : α} (h : Finishes p s (fun a _ => a = v))
    (P : α → Prop) : (∃ n a s', p.run n s = (some a, s') ∧ P a) ↔ P v := by
  obtain ⟨n, a, s', hn, rfl⟩ := finishes_iff.mp h
  constructor
  · rintro ⟨m, b, t, hm, hP⟩
    obtain ⟨rfl, -⟩ := run_unique hm hn
    exact hP
  · exact fun hP => ⟨n, a, s', hn, hP⟩

theorem Finishes.loop {body : X → Prog S (X ⊕ α)} {Q : α → S → Prop} (Inv : X → S → Prop)
    (rank : X → S → Nat)
    (hbody : ∀ x s, Inv x s → Finishes (body x) s (fun r s' =>
      match r with
      | .inl x' => Inv x' s' ∧ rank x' s' < rank x s
      | .inr a => Q a s'))
    {x : X} (hinv : Inv x s) : Finishes (Prog.loop body x) s Q :=
  Settles.loop Inv rank (fun x s hx => Or.inr ⟨trivial, hbody x s hx⟩) hinv

/-- A program that can not end does not. -/
theorem Settles.loops {p : Prog S α} (h : Settles Good p s (fun _ _ => False)) : Loops p s := by
  rcases h with ⟨_, _, _, hno, -⟩ | ⟨hloops, -⟩
  · exact hno.elim
  · exact hloops

/-! ## Refinement -/

section Refinement

variable {T Y γ : Type} {R : S → T → Prop} {φ : α → γ}

/-- Every run of the program that ends is one of the function: for each state that stands
    for the last one there is a state that stands for the first one, from which the
    function gets there.  It goes backwards, so that the function may be told beforehand
    what the program meets on its way. -/
def Refines (R : S → T → Prop) (φ : α → γ) (p : Prog S α) (f : T → γ × T) : Prop :=
  ∀ n s a s', p.run n s = (some a, s') → ∀ t', R s' t' → ∃ t, R s t ∧ f t = (φ a, t')

theorem Refines.pure {f : T → γ × T} {a : α} (hf : ∀ t, f t = (φ a, t)) :
    Refines R φ (Pure.pure a : Prog S α) f := by
  intro n s b s' hrun t' ht'
  obtain ⟨hb, rfl⟩ := Prod.mk.inj hrun
  obtain rfl : a = b := Option.some.inj hb
  exact ⟨t', ht', hf t'⟩

theorem Refines.act {g : S → α × S} {f : T → γ × T}
    (hf : ∀ s t', R (g s).2 t' → ∃ t, R s t ∧ f t = (φ (g s).1, t')) :
    Refines R φ (Prog.act g) f := by
  intro n s a s' hrun t' ht'
  obtain ⟨ha, rfl⟩ := Prod.mk.inj hrun
  obtain rfl : (g s).1 = a := Option.some.inj ha
  exact hf s t' ht'

/-- A field that both states have. -/
theorem Refines.read {g : S → α} {f : T → γ × T} (hf : ∀ s t, R s t → f t = (φ (g s), t)) :
    Refines R φ (Prog.act (fun s => (g s, s))) f :=
  Refines.act fun s t' ht' => ⟨t', ht', hf s t' ht'⟩

theorem Refines.bind {δ : Type} {ψ : β → δ} {p : Prog S α} {q : α → Prog S β} {f : T → γ × T}
    {g : γ → T → δ × T} {k : T → δ × T} (hp : Refines R φ p f)
    (hq : ∀ a, Refines R ψ (q a) (g (φ a))) (hk : ∀ t, k t = g (f t).1 (f t).2) :
    Refines R ψ (p >>= q) k := by
  intro n s b s' hrun t' ht'
  rw [run_bind, bindRun] at hrun
  cases hmid : p.run n s with
  | mk r s₁ =>
      rw [hmid] at hrun
      cases r with
      | none => exact nomatch (Prod.mk.inj hrun).1
      | some a =>
          obtain ⟨t₁, ht₁, hg⟩ := hq a n s₁ b s' hrun t' ht'
          obtain ⟨t, ht, hf⟩ := hp n s a s₁ hmid t₁ ht₁
          refine ⟨t, ht, ?_⟩
          rw [hk, hf]
          exact hg

/-- The rest only if all is well. -/
theorem Refines.andThen {p : Prog S Bool} {q : Prog S α} {a : α} {f : T → Bool × T}
    {g k : T → γ × T} (hp : Refines R id p f) (hq : Refines R φ q g)
    (hk : ∀ t, k t = if (f t).1 = false then (φ a, (f t).2) else g (f t).2) :
    Refines R φ (p >>= fun ok => if ok then q else Pure.pure a) k := by
  refine hp.bind (g := fun ok t => if ok = false then (φ a, t) else g t) ?_ hk
  rintro (_ | _)
  · exact Refines.pure fun _ => rfl
  · exact hq

/-- What a function does after a round. -/
def follow (f : Y → T → γ × T) : (Y ⊕ γ) × T → γ × T
  | (.inl y, t) => f y t
  | (.inr b, t) => (b, t)

/-- A loop, and a function that is its own first round and what follows it. -/
theorem Refines.loop {χ : X → Y} {body : X → Prog S (X ⊕ α)} {g : Y → T → (Y ⊕ γ) × T}
    {f : Y → T → γ × T} (hbody : ∀ x, Refines R (Sum.map χ φ) (body x) (g (χ x)))
    (hf : ∀ x t, f (χ x) t = follow f (g (χ x) t)) (x : X) :
    Refines R φ (Prog.loop body x) (f (χ x)) := by
  intro n
  induction n generalizing x with
  | zero => exact fun _ _ _ hrun => nomatch (Prod.mk.inj hrun).1
  | succ n ih =>
      intro s a s' hrun t' ht'
      rw [run_loop_succ, run_bind, bindRun] at hrun
      cases hmid : (body x).run n s with
      | mk r s₁ =>
          rw [hmid] at hrun
          rcases r with _ | x' | b
          · exact nomatch (Prod.mk.inj hrun).1
          · obtain ⟨t₁, ht₁, hrest⟩ := ih x' s₁ a s' hrun t' ht'
            obtain ⟨t, ht, hround⟩ := hbody x n s (.inl x') s₁ hmid t₁ ht₁
            refine ⟨t, ht, ?_⟩
            rw [hf, hround]
            exact hrest
          · obtain ⟨hb, rfl⟩ := Prod.mk.inj hrun
            obtain rfl : b = a := Option.some.inj hb
            obtain ⟨t, ht, hround⟩ := hbody x n s (.inr b) s₁ hmid t' ht'
            refine ⟨t, ht, ?_⟩
            rw [hf, hround]
            rfl

end Refinement

/-! ## Following the runs that end well -/

section Mirrors

variable {T Y γ δ : Type} {R R' R'' : S → T → Prop} {φ : α → γ} {ψ : β → δ} {ok : α → Bool}
  {ok' : β → Bool}

/-- A run that ends well, from a state that stands for some other one, ends with what the
    function makes of that one.  It goes forwards, and says nothing of the other runs. -/
def Mirrors (R R' : S → T → Prop) (ok : α → Bool) (φ : α → γ) (p : Prog S α) (f : T → γ × T) :
    Prop :=
  ∀ t, Meets (R · t) p (fun a s => ok a = true → (f t).1 = φ a ∧ R' s (f t).2)

theorem Mirrors.pure {f : T → γ × T} {a : α} (hf : ok a = true → ∀ t, f t = (φ a, t)) :
    Mirrors R R ok φ (Pure.pure a : Prog S α) f := by
  intro t
  refine Meets.pure fun s hs hok => ?_
  rw [hf hok t]
  exact ⟨rfl, hs⟩

theorem Mirrors.act {g : S → α × S} {f : T → γ × T}
    (hf : ∀ s t, R s t → ok (g s).1 = true → (f t).1 = φ (g s).1 ∧ R' (g s).2 (f t).2) :
    Mirrors R R' ok φ (Prog.act g) f :=
  fun t => Meets.act fun s hs => hf s t hs

/-- A field that both states have. -/
theorem Mirrors.read {g : S → α} {f : T → γ × T} (hf : ∀ s t, R s t → f t = (φ (g s), t)) :
    Mirrors R R ok φ (Prog.act (fun s => (g s, s))) f := by
  refine Mirrors.act fun s t hs _ => ?_
  rw [hf s t hs]
  exact ⟨rfl, hs⟩

/-- One program after the other, where the results of the first one have a property; what
    comes after a first part that has not ended well does not end well. -/
theorem Mirrors.bindOf {p : Prog S α} {q : α → Prog S β} {P : α → Prop} {f : T → γ × T}
    {g : γ → T → δ × T} {k : T → δ × T} (hp : Mirrors R R' ok φ p f) (hP : Yields P p)
    (hq : ∀ a, P a → ok a = true → Mirrors R' R'' ok' ψ (q a) (g (φ a)))
    (hno : ∀ a, ok a = false → Yields (fun b => ok' b = false) (q a))
    (hk : ∀ t, k t = g (f t).1 (f t).2) : Mirrors R R'' ok' ψ (p >>= q) k := by
  intro t
  have hfirst : Meets (R · t) p (fun a s => P a ∧
      (ok a = true → (f t).1 = φ a ∧ R' s (f t).2)) :=
    fun n s a s' hs hrun => ⟨hP n s a s' hrun, hp t n s a s' hs hrun⟩
  refine hfirst.bind fun a => ?_
  cases hok : ok a with
  | true =>
      intro n s b s' hs hrun hok'
      obtain ⟨hres, hstate⟩ := hs.2 rfl
      rw [hk, hres]
      exact hq a hs.1 hok (f t).2 n s b s' hstate hrun hok'
  | false =>
      intro n s b s' _ hrun hok'
      have hbad : ok' b = false := hno a hok n s b s' hrun
      rw [hok'] at hbad
      cases hbad

theorem Mirrors.bind {p : Prog S α} {q : α → Prog S β} {f : T → γ × T} {g : γ → T → δ × T}
    {k : T → δ × T} (hp : Mirrors R R' ok φ p f)
    (hq : ∀ a, ok a = true → Mirrors R' R'' ok' ψ (q a) (g (φ a)))
    (hno : ∀ a, ok a = false → Yields (fun b => ok' b = false) (q a))
    (hk : ∀ t, k t = g (f t).1 (f t).2) : Mirrors R R'' ok' ψ (p >>= q) k :=
  hp.bindOf (Yields.trivial p) (fun a _ => hq a) hno hk

/-- The rest only if all is well. -/
theorem Mirrors.andThen {p : Prog S Bool} {q : Prog S α} {a : α} {f : T → Bool × T}
    {g k : T → γ × T} (hp : Mirrors R R' id id p f) (hq : Mirrors R' R'' ok φ q g)
    (ha : ok a = false)
    (hk : ∀ t, k t = if (f t).1 = false then (φ a, (f t).2) else g (f t).2) :
    Mirrors R R'' ok φ (p >>= fun ok => if ok then q else Pure.pure a) k := by
  refine hp.bind (g := fun ok t => if ok = false then (φ a, t) else g t) ?_ ?_ hk
  · rintro b rfl
    exact hq
  · rintro b rfl
    exact Yields.pure ha

/-- A loop, and a function that is its own first round and what follows it. -/
theorem Mirrors.loop {χ : X → Y} {body : X → Prog S (X ⊕ α)} {g : Y → T → (Y ⊕ γ) × T}
    {f : Y → T → γ × T}
    (hbody : ∀ x, Mirrors R R (Sum.elim (fun _ => true) ok) (Sum.map χ φ) (body x) (g (χ x)))
    (hf : ∀ x t, f (χ x) t = follow f (g (χ x) t)) (x : X) :
    Mirrors R R ok φ (Prog.loop body x) (f (χ x)) := by
  intro t
  let Inv : X → S → Prop := fun y s => ∃ t', R s t' ∧ f (χ y) t' = f (χ x) t
  refine (Meets.loop Inv ?_ x).weaken (fun s hs => ⟨t, hs, rfl⟩) fun _ _ h => h
  intro y n s r s' hs hrun
  obtain ⟨t', hs', hsame⟩ := hs
  have hround := hbody y t' n s r s' hs' hrun
  rw [← hsame, hf]
  rcases r with y' | a
  · obtain ⟨hres, hstate⟩ := hround rfl
    refine ⟨(g (χ y) t').2, hstate, ?_⟩
    rw [← hsame, hf y t', show g (χ y) t' = (.inl (χ y'), (g (χ y) t').2) from Prod.ext hres rfl]
    rfl
  · intro hok
    obtain ⟨hres, hstate⟩ := hround hok
    rw [show g (χ y) t' = (.inr (φ a), (g (χ y) t').2) from Prod.ext hres rfl]
    exact ⟨rfl, hstate⟩

end Mirrors

end Fuel
