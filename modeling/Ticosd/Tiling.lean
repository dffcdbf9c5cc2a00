import Mathlib

/-! # Tilings — lists of spans laid end to end

    A span (an instance of `Extent`) occupies the indices `start x ≤ i < stop x`.  `Tiles a xs b` says
    that the spans `xs` cover exactly the indices from `a` to `b`, each one
    beginning where its predecessor ends.  It is the shape of a log segment:
    records are appended at `b`, consumed at `a`, and overwritten from `a` on.

    The laws below are the ones a ring of records needs: splitting, appending,
    the bounds of a member, and dropping the members that begin below an
    index. -/

namespace Tiling

/-- Things that occupy a half-open range of indices. -/
class Extent (α : Type) where
  start : α → Nat
  stop : α → Nat

open Extent

variable {α : Type} [Extent α]

/-- `xs` lie end to end from `a` to `b`. -/
def Tiles : Nat → List α → Nat → Prop
  | a, [], b => a = b
  | a, x :: xs, b => start x = a ∧ start x < stop x ∧ Tiles (stop x) xs b

@[simp] theorem tiles_nil {a b : Nat} : Tiles a ([] : List α) b ↔ a = b := Iff.rfl

@[simp] theorem tiles_cons {a b : Nat} {x : α} {xs : List α} :
    Tiles a (x :: xs) b ↔ start x = a ∧ start x < stop x ∧ Tiles (stop x) xs b :=
  Iff.rfl

/-- A tiling splits wherever its list does. -/
theorem tiles_append {a b : Nat} {xs ys : List α} :
    Tiles a (xs ++ ys) b ↔ ∃ c, Tiles a xs c ∧ Tiles c ys b := by
  induction xs generalizing a with
  | nil =>
      constructor
      · intro h
        exact ⟨a, rfl, h⟩
      · rintro ⟨c, hac, h⟩
        rw [tiles_nil] at hac
        rw [hac]
        exact h
  | cons x xs ih =>
      rw [List.cons_append, tiles_cons, ih]
      constructor
      · rintro ⟨hs, hlt, c, h1, h2⟩
        exact ⟨c, ⟨hs, hlt, h1⟩, h2⟩
      · rintro ⟨c, ⟨hs, hlt, h1⟩, h2⟩
        exact ⟨hs, hlt, c, h1, h2⟩

/-- Appending one span at the end. -/
theorem tiles_snoc {a b : Nat} {xs : List α} {x : α} :
    Tiles a (xs ++ [x]) b ↔ Tiles a xs (start x) ∧ start x < stop x ∧ stop x = b := by
  rw [tiles_append]
  constructor
  · rintro ⟨c, h1, hs, hlt, hb⟩
    rw [← hs] at h1
    exact ⟨h1, hlt, hb⟩
  · rintro ⟨h1, hlt, hb⟩
    exact ⟨start x, h1, rfl, hlt, hb⟩

theorem Tiles.le {a b : Nat} {xs : List α} (h : Tiles a xs b) : a ≤ b := by
  induction xs generalizing a with
  | nil => exact Nat.le_of_eq h
  | cons x xs ih =>
      obtain ⟨hs, hlt, hrest⟩ := h
      have := ih hrest
      omega

/-- A member lies inside the tiled range. -/
theorem Tiles.bounds {a b : Nat} {xs : List α} (h : Tiles a xs b) {x : α}
    (hx : x ∈ xs) : a ≤ start x ∧ start x < stop x ∧ stop x ≤ b := by
  induction xs generalizing a with
  | nil => exact nomatch hx
  | cons y ys ih =>
      obtain ⟨hs, hlt, hrest⟩ := h
      have hle := hrest.le
      rcases List.mem_cons.mp hx with heq | hmem
      · rw [heq]
        exact ⟨by omega, hlt, hle⟩
      · have := ih hrest hmem
        exact ⟨by omega, this.2.1, this.2.2⟩

/-- A nonempty tiling has room. -/
theorem Tiles.lt_of_ne_nil {a b : Nat} {xs : List α} (h : Tiles a xs b)
    (hne : xs ≠ []) : a < b := by
  obtain ⟨x, hx⟩ := List.exists_mem_of_ne_nil xs hne
  have := h.bounds hx
  omega

/-- The first span begins the range. -/
theorem Tiles.head_start {a b : Nat} {x : α} {xs : List α}
    (h : Tiles a (x :: xs) b) : start x = a := h.1

/-- The last span ends the range. -/
theorem Tiles.getLast_stop {a b : Nat} {xs : List α} (h : Tiles a xs b)
    (hne : xs ≠ []) : stop (xs.getLast hne) = b := by
  have hsplit := List.dropLast_append_getLast hne
  rw [← hsplit] at h
  exact (tiles_snoc.mp h).2.2

/-- Two spans of a tiling are the same, or one lies before the other. -/
theorem Tiles.eq_or_apart {a b : Nat} {xs : List α} (h : Tiles a xs b) {x y : α}
    (hx : x ∈ xs) (hy : y ∈ xs) : x = y ∨ stop x ≤ start y ∨ stop y ≤ start x := by
  induction xs generalizing a with
  | nil => exact nomatch hx
  | cons z zs ih =>
      obtain ⟨-, -, hrest⟩ := h
      rcases List.mem_cons.mp hx with hxz | hxs
      · rcases List.mem_cons.mp hy with hyz | hys
        · exact Or.inl (hxz.trans hyz.symm)
        · refine Or.inr (Or.inl ?_)
          rw [hxz]
          exact (hrest.bounds hys).1
      · rcases List.mem_cons.mp hy with hyz | hys
        · refine Or.inr (Or.inr ?_)
          rw [hyz]
          exact (hrest.bounds hxs).1
        · exact ih hrest hxs hys

/-- The span that ends the range is the last one. -/
theorem Tiles.getLast?_of_stop {a b : Nat} {xs : List α} (h : Tiles a xs b) {x : α}
    (hx : x ∈ xs) (hstop : stop x = b) : xs.getLast? = some x := by
  have hne := List.ne_nil_of_mem hx
  have hlast := h.getLast_stop hne
  have hb := h.bounds hx
  have hb' := h.bounds (List.getLast_mem hne)
  rw [List.getLast?_eq_some_getLast hne]
  rcases h.eq_or_apart hx (List.getLast_mem hne) with heq | hap
  · rw [heq]
  · omega

/-- A span that does not end the range has another one behind it. -/
theorem Tiles.next_mem {a b : Nat} {xs : List α} (h : Tiles a xs b) {x : α}
    (hx : x ∈ xs) (hlt : stop x < b) : ∃ y ∈ xs, start y = stop x := by
  induction xs generalizing a with
  | nil => exact nomatch hx
  | cons z zs ih =>
      obtain ⟨-, -, hrest⟩ := h
      rcases List.mem_cons.mp hx with hxz | hxs
      · subst hxz
        cases zs with
        | nil => exact absurd (show stop x = b from hrest) (by omega)
        | cons y ys => exact ⟨y, by simp, hrest.1⟩
      · obtain ⟨y, hy, heq⟩ := ih hrest hxs
        exact ⟨y, List.mem_cons_of_mem _ hy, heq⟩

/-- Every index of the range lies in a span. -/
theorem Tiles.exists_covering {a b : Nat} {xs : List α} (h : Tiles a xs b) {i : Nat}
    (hlo : a ≤ i) (hhi : i < b) : ∃ x ∈ xs, start x ≤ i ∧ i < stop x := by
  induction xs generalizing a with
  | nil =>
      rw [tiles_nil] at h
      omega
  | cons y ys ih =>
      obtain ⟨hs, -, hrest⟩ := h
      by_cases hi : i < stop y
      · exact ⟨y, List.mem_cons_self, by omega, hi⟩
      · obtain ⟨x, hx, hcov⟩ := ih hrest (by omega)
        exact ⟨x, List.mem_cons_of_mem _ hx, hcov⟩

/-- From the start of a member on, a tiling is one of the rest of the range. -/
theorem Tiles.from_mem {a b : Nat} {xs : List α} (h : Tiles a xs b) {x : α} (hx : x ∈ xs) :
    ∃ ys, x :: ys <:+ xs ∧ Tiles (start x) (x :: ys) b := by
  obtain ⟨pre, ys, rfl⟩ := List.append_of_mem hx
  obtain ⟨c, -, ht⟩ := tiles_append.mp h
  refine ⟨ys, List.suffix_append pre (x :: ys), ?_⟩
  rw [ht.head_start]
  exact ht

/-! ## Dropping what begins below an index -/

/-- The spans from the first one on that does not begin below `k`. -/
def dropBelow (k : Nat) (xs : List α) : List α :=
  xs.dropWhile (fun x => decide (start x < k))

theorem dropBelow_cons_lt {k : Nat} {x : α} {xs : List α} (h : start x < k) :
    dropBelow k (x :: xs) = dropBelow k xs := by
  simp only [dropBelow, List.dropWhile_cons, h, decide_true, if_true]

theorem dropBelow_cons_ge {k : Nat} {x : α} {xs : List α} (h : k ≤ start x) :
    dropBelow k (x :: xs) = x :: xs := by
  have hno : ¬ start x < k := by omega
  simp only [dropBelow, List.dropWhile_cons, hno, decide_false, Bool.false_eq_true,
    if_false]

/-- What is dropped begins below `k`, what is kept tiles the rest of the range
    and begins at or above `k`. -/
theorem Tiles.dropBelow_spec {a b : Nat} {xs : List α} (h : Tiles a xs b) (k : Nat) :
    ∃ pre c, xs = pre ++ dropBelow k xs ∧ (∀ x ∈ pre, start x < k) ∧
      Tiles a pre c ∧ Tiles c (dropBelow k xs) b ∧
      (dropBelow k xs ≠ [] → k ≤ c) := by
  induction xs generalizing a with
  | nil =>
      rw [tiles_nil] at h
      exact ⟨[], a, rfl, by simp, rfl, h, fun hne => absurd rfl hne⟩
  | cons x xs ih =>
      by_cases hk : start x < k
      · obtain ⟨hs, hlt, hrest⟩ := h
        obtain ⟨pre, c, hxs, hpre, h1, h2, h3⟩ := ih hrest
        rw [dropBelow_cons_lt hk]
        refine ⟨x :: pre, c, ?_, ?_, ⟨hs, hlt, h1⟩, h2, h3⟩
        · rw [List.cons_append, ← hxs]
        · intro y hy
          rcases List.mem_cons.mp hy with heq | hmem
          · rw [heq]
            exact hk
          · exact hpre y hmem
      · rw [dropBelow_cons_ge (by omega)]
        refine ⟨[], a, rfl, by simp, rfl, h, ?_⟩
        intro _
        have := h.1
        omega

theorem dropBelow_suffix (k : Nat) (xs : List α) : dropBelow k xs <:+ xs :=
  List.dropWhile_suffix _

theorem dropBelow_sublist (k : Nat) (xs : List α) : (dropBelow k xs).Sublist xs :=
  List.dropWhile_sublist _

/-- Everything kept begins at or above `k`. -/
theorem Tiles.le_start_of_mem_dropBelow {a b : Nat} {xs : List α} (h : Tiles a xs b)
    {k : Nat} {x : α} (hx : x ∈ dropBelow k xs) : k ≤ start x := by
  obtain ⟨pre, c, -, -, -, h2, h3⟩ := h.dropBelow_spec k
  have hk := h3 (List.ne_nil_of_mem hx)
  have := (h2.bounds hx).1
  omega

/-- Everything not kept begins below `k`. -/
theorem Tiles.start_lt_of_not_mem_dropBelow {a b : Nat} {xs : List α}
    (h : Tiles a xs b) {k : Nat} {x : α} (hx : x ∈ xs) (hno : x ∉ dropBelow k xs) :
    start x < k := by
  obtain ⟨pre, c, hxs, hpre, -, -, -⟩ := h.dropBelow_spec k
  rw [hxs] at hx
  rcases List.mem_append.mp hx with hp | hd
  · exact hpre x hp
  · exact absurd hd hno

end Tiling
