import Ticosd.Simulation

/-! # A lossy first-in first-out store

    The store keeps items in the order in which they were put.  The first one is handed
    out (`get`) and, once it has been handed out, taken (`take`); until then it stays.
    Putting an item may cost some of the oldest ones.  If it does, an item that was
    handed out can no longer be taken.  Opening the store again forgets what was handed
    out, and nothing else.

    What a user of the store relies on is about the labels alone: what was taken, and
    what still waits behind it, comes from what was put, in the same order and each
    time at most once (`taken_sublist`); and it is exactly that when nothing was lost
    (`taken_eq`). -/

namespace LossyFifo

open Simulation

variable {α : Type}

/-- The items that wait, oldest first, and whether the first has been handed out. -/
structure Fifo (α : Type) where
  waiting : List α
  offered : Bool
  deriving DecidableEq

/-- What a user sees of the store. -/
inductive Act (α : Type) where
  /-- An item is put; so many of the oldest ones are lost. -/
  | put (item : α) (lost : Nat)
  | refuse
  /-- The first item is asked for; without room there is none to be had. -/
  | get (room : Bool) (item : Option α)
  | take (done : Bool)
  | reopen
  deriving DecidableEq

/-- What the store may do. -/
inductive Step : Fifo α → Act α → Fifo α → Prop where
  | put (xs : List α) (b : Bool) (x : α) (k : Nat) :
      Step ⟨xs, b⟩ (.put x k) ⟨xs.drop k ++ [x], b && decide (k = 0)⟩
  | refuse (s : Fifo α) : Step s .refuse s
  | get (xs : List α) (b : Bool) :
      Step ⟨xs, b⟩ (.get true xs.head?) ⟨xs, b || xs.head?.isSome⟩
  | noRoom (s : Fifo α) : Step s (.get false none) s
  | take (x : α) (xs : List α) : Step ⟨x :: xs, true⟩ (.take true) ⟨xs, false⟩
  | takeRefused (xs : List α) : Step ⟨xs, false⟩ (.take false) ⟨xs, false⟩
  | reopen (xs : List α) (b : Bool) : Step ⟨xs, b⟩ .reopen ⟨xs, false⟩

/-- The item that a label puts. -/
def putOf : Act α → List α
  | .put x _ => [x]
  | _ => []

/-- How many of the oldest items it costs. -/
def lost : Act α → Nat
  | .put _ k => k
  | _ => 0

/-- The item that was handed out last. -/
def hold (held : Option α) : Act α → Option α
  | .get _ (some x) => some x
  | _ => held

/-- The item that a label takes: the one that was handed out last. -/
def takenOf (held : Option α) : Act α → List α
  | .take true => held.toList
  | _ => []

/-- The items that were put. -/
def puts (ls : List (Act α)) : List α := ls.flatMap putOf

/-- The items that were taken. -/
def taken : Option α → List (Act α) → List α
  | _, [] => []
  | held, l :: ls => takenOf held l ++ taken (hold held l) ls

/-- An item that may be taken is the one that was handed out last, and the first. -/
def Held (s : Fifo α) (held : Option α) : Prop :=
  s.offered = true → s.waiting ≠ [] ∧ held = s.waiting.head?

variable {s t : Fifo α} {held : Option α} {l : Act α} {ls : List (Act α)}

theorem held_closed (xs : List α) (held : Option α) : Held ⟨xs, false⟩ held :=
  fun h => nomatch h

/-- A put that costs nothing leaves the first item where it is. -/
theorem Held.put {xs : List α} {b : Bool} (h : Held ⟨xs, b⟩ held) (x : α) (k : Nat) :
    Held ⟨xs.drop k ++ [x], b && decide (k = 0)⟩ held := by
  intro hput
  obtain ⟨hb, hk⟩ := Bool.and_eq_true_iff.mp hput
  obtain rfl := of_decide_eq_true hk
  obtain ⟨hne, hh⟩ := h hb
  obtain ⟨y, ys, rfl⟩ := List.exists_cons_of_ne_nil hne
  exact ⟨by simp, hh⟩

/-- **One step**: what it takes, and what waits after it, is what has waited, less what
    is lost, and what it puts. -/
theorem Step.next (h : Step s l t) (hheld : Held s held) :
    Held t (hold held l) ∧ takenOf held l ++ t.waiting = s.waiting.drop (lost l) ++ putOf l := by
  cases h with
  | put xs b x k => exact ⟨hheld.put x k, rfl⟩
  | refuse s => exact ⟨hheld, (List.append_nil _).symm⟩
  | get xs b =>
      refine ⟨?_, (List.append_nil _).symm⟩
      cases xs with
      | nil => exact fun hb => hheld (by simpa using hb)
      | cons x xs => exact fun _ => ⟨by simp, rfl⟩
  | noRoom s => exact ⟨hheld, (List.append_nil _).symm⟩
  | take x xs =>
      obtain ⟨-, rfl⟩ := hheld rfl
      exact ⟨held_closed xs _, (List.append_nil _).symm⟩
  | takeRefused xs => exact ⟨held_closed xs held, (List.append_nil _).symm⟩
  | reopen xs b => exact ⟨held_closed xs held, (List.append_nil _).symm⟩

/-- **In order, and at most once**: what was taken, followed by what waits, is part of
    what waited at the start, followed by what was put. -/
theorem taken_sublist (h : Trace Step s ls t) (hheld : Held s held) :
    (taken held ls ++ t.waiting).Sublist (s.waiting ++ puts ls) := by
  induction h generalizing held with
  | nil t =>
      rw [taken, puts, List.flatMap_nil, List.append_nil]
      exact List.Sublist.refl _
  | @cons s₁ s₂ s₃ l ls hstep _ ih =>
      obtain ⟨hheld', heq⟩ := hstep.next hheld
      have hfirst : (takenOf held l ++ s₂.waiting).Sublist (s₁.waiting ++ putOf l) := by
        rw [heq]
        exact (List.drop_sublist _ _).append_right _
      have hrest := (ih hheld').append_left (takenOf held l)
      rw [taken, puts, List.flatMap_cons, List.append_assoc, ← List.append_assoc s₁.waiting]
      refine hrest.trans ?_
      rw [← List.append_assoc]
      exact hfirst.append_right _

/-- **Exactly once**: if no step has cost anything, nothing else is missing. -/
theorem taken_eq (h : Trace Step s ls t) (hless : ∀ l ∈ ls, lost l = 0) (hheld : Held s held) :
    taken held ls ++ t.waiting = s.waiting ++ puts ls := by
  induction h generalizing held with
  | nil t => rw [taken, puts, List.flatMap_nil, List.append_nil, List.nil_append]
  | @cons s₁ s₂ s₃ l ls hstep _ ih =>
      obtain ⟨hheld', heq⟩ := hstep.next hheld
      rw [hless l List.mem_cons_self, List.drop_zero] at heq
      rw [taken, puts, List.flatMap_cons, List.append_assoc,
        ih (fun k hk => hless k (List.mem_cons_of_mem _ hk)) hheld', ← List.append_assoc, heq,
        List.append_assoc]
      rfl

/-! ## A client

    A client works on one item at a time: it gets it, and is done with it or gives it back.
    Meanwhile the item may be lost from the store; then it is older than all that waits. -/

/-- The items a client is done with, then those that wait, are part of those that were put;
    an item that it works on and that was lost stands between them. -/
structure Settles (s : Fifo α) (flight : Option α) (settled puts : List α) : Prop where
  order : (settled ++ (if s.offered then s.waiting else flight.toList ++ s.waiting)).Sublist puts
  head : s.offered = true → ∀ x, flight = some x → s.waiting.head? = some x

variable {flight : Option α} {settled before : List α}

theorem settles_empty : Settles (α := α) ⟨[], false⟩ none [] [] :=
  ⟨List.Sublist.refl _, fun h => absurd h Bool.false_ne_true⟩

/-- Whatever the client works on, the items it is done with come before those that wait. -/
theorem Settles.sublist (h : Settles s flight settled before) :
    (settled ++ s.waiting).Sublist before := by
  refine List.Sublist.trans (List.Sublist.append_left ?_ settled) h.order
  cases s.offered with
  | true => exact List.Sublist.refl _
  | false => exact List.sublist_append_right _ _

/-- An item is put. -/
theorem Settles.put {x : α} {k : Nat} (h : Settles s flight settled before)
    (hstep : Step s (.put x k) t) : Settles t flight settled (before ++ [x]) := by
  obtain ⟨horder, hhead⟩ := h
  cases hstep with
  | put xs b x k =>
      refine ⟨?_, ?_⟩
      · have hall : (settled ++ (if (b && decide (k = 0)) = true then xs.drop k
            else flight.toList ++ xs.drop k)).Sublist before := by
          refine List.Sublist.trans (List.Sublist.append_left ?_ settled) horder
          cases b with
          | false => exact (List.drop_sublist k xs).append_left _
          | true =>
              by_cases hk : k = 0
              · simp [hk]
              · rw [decide_eq_false hk]
                -- the item that is worked on is the first of those that are lost
                cases flight with
                | none => exact List.drop_sublist k xs
                | some y =>
                    have hy := hhead rfl y rfl
                    cases xs with
                    | nil => exact absurd hy (by simp)
                    | cons z zs =>
                        obtain rfl := Option.some.inj hy
                        obtain ⟨j, rfl⟩ := Nat.exists_eq_succ_of_ne_zero hk
                        exact (List.drop_sublist j zs).cons_cons z
        have happend := hall.append (List.Sublist.refl [x])
        cases hb : (b && decide (k = 0)) with
        | true =>
            rw [hb] at happend
            simpa using happend
        | false =>
            rw [hb] at happend
            simpa using happend
      · intro hput y hy
        obtain ⟨hb, hk⟩ := Bool.and_eq_true_iff.mp hput
        obtain rfl := of_decide_eq_true hk
        have hfirst := hhead hb y hy
        cases xs with
        | nil => exact absurd hfirst (by simp)
        | cons z zs => exact hfirst

/-- The first item is got, if there is one and there is room. -/
theorem Settles.get {room : Bool} {r : Option α} (h : Settles s none settled before)
    (hstep : Step s (.get room r) t) : Settles t r settled before := by
  have horder := h.sublist
  cases hstep with
  | get xs b =>
      cases xs with
      | nil => exact ⟨by simpa using horder, fun _ x hx => absurd hx (by simp)⟩
      | cons x xs => exact ⟨by simpa using horder, fun _ y hy => hy⟩
  | noRoom s => exact ⟨by simpa using horder, fun _ x hx => absurd hx (by simp)⟩

/-- An item is refused. -/
theorem Settles.refuse (h : Settles s flight settled before) (hstep : Step s .refuse t) :
    Settles t flight settled before := by
  cases hstep with
  | refuse s => exact h

/-- The client is done with its item, and takes it if it is still there. -/
theorem Settles.done {x : α} {b : Bool} (h : Settles s (some x) settled before)
    (hstep : Step s (.take b) t) : Settles t none (settled ++ [x]) before := by
  obtain ⟨horder, hhead⟩ := h
  cases hstep with
  | take y ys =>
      have hxy : y = x := Option.some.inj (hhead rfl x rfl)
      subst hxy
      exact ⟨by simpa using horder, fun hb => absurd hb Bool.false_ne_true⟩
  | takeRefused xs => exact ⟨by simpa using horder, fun hb => absurd hb Bool.false_ne_true⟩

/-- The client gives its item back. -/
theorem Settles.giveBack (h : Settles s flight settled before) : Settles s none settled before :=
  ⟨by simpa using h.sublist, fun _ x hx => absurd hx (by simp)⟩

/-- The store is opened again, and the client has forgotten its item. -/
theorem Settles.reopen (h : Settles s flight settled before) (hstep : Step s .reopen t) :
    Settles t none settled before := by
  have horder := h.sublist
  cases hstep with
  | reopen xs b => exact ⟨by simpa using horder, fun hb => absurd hb Bool.false_ne_true⟩

end LossyFifo
