import Mathlib.Logic.Relation
import Mathlib.Combinatorics.Pigeonhole

/-! # Following links

    A program that goes from place to place along links runs for ever when the
    links lead into a circle.  If there are finitely many places it can come to,
    that is the only way: a path longer than their number has met one of them
    twice.

    `R a b` says that the program goes on from `a` to `b`. -/

namespace LinkCircle

open Relation

variable {α : Type} {R : α → α → Prop}

/-- The links from `a` lead into a circle. -/
def Circle (R : α → α → Prop) (a : α) : Prop :=
  ∃ b, ReflTransGen R a b ∧ TransGen R b b

/-- From a place before a circle, or on it, there is a link to another such place. -/
theorem Circle.next {a : α} (h : Circle R a) : ∃ b, R a b ∧ Circle R b := by
  obtain ⟨c, hpath, hloop⟩ := h
  rcases ReflTransGen.cases_head hpath with rfl | ⟨b, hab, hbc⟩
  · obtain ⟨b, hab, hba⟩ := TransGen.head'_iff.mp hloop
    exact ⟨b, hab, a, hba, hloop⟩
  · exact ⟨b, hab, c, hbc, hloop⟩

/-- The stretch of a path from its place `i` on. -/
theorem path_between {f : Nat → α} {len : Nat} (h : ∀ k < len, R (f k) (f (k + 1))) :
    ∀ i d, i + d ≤ len → ReflTransGen R (f i) (f (i + d)) := by
  intro i d
  induction d with
  | zero => intro _; exact ReflTransGen.refl
  | succ d ih =>
      intro hd
      exact (ih (by omega)).tail (h (i + d) (by omega))

/-- **A path with more links than there are places to come to runs into a circle.** -/
theorem circle_of_path {f : Nat → α} {S : Finset α}
    (h : ∀ k < S.card + 1, R (f k) (f (k + 1)))
    (hin : ∀ k < S.card + 1, f (k + 1) ∈ S) : Circle R (f 0) := by
  have hmaps : ∀ k ∈ Finset.range (S.card + 1), f (k + 1) ∈ S := by
    intro k hk
    exact hin k (Finset.mem_range.mp hk)
  have hcard : S.card < (Finset.range (S.card + 1)).card := by
    rw [Finset.card_range]
    exact Nat.lt_succ_self _
  obtain ⟨x, hx, y, hy, hxy, heq⟩ := Finset.exists_ne_map_eq_of_card_lt_of_maps_to hcard hmaps
  rw [Finset.mem_range] at hx hy
  obtain ⟨i, j, hij, hj, heq⟩ : ∃ i j, i < j ∧ j < S.card + 1 ∧ f (i + 1) = f (j + 1) := by
    rcases Nat.lt_or_gt_of_ne hxy with hlt | hlt
    · exact ⟨x, y, hlt, hy, heq⟩
    · exact ⟨y, x, hlt, hx, heq.symm⟩
  have hreach := path_between h 0 (i + 1) (by omega)
  have hround := path_between h (i + 1 + 1) (j - (i + 1)) (by omega)
  rw [Nat.zero_add] at hreach
  rw [show i + 1 + 1 + (j - (i + 1)) = j + 1 by omega, ← heq] at hround
  exact ⟨_, hreach, TransGen.head'_iff.mpr ⟨_, h (i + 1) (by omega), hround⟩⟩

end LinkCircle
