import Mathlib

/-! # Decimal numbers in text — what `printf` writes and `scanf` reads

    Text is a list of bytes.  `intText` is the conversion `%d` / `%ld`;
    `scanNumber` skips white space, takes an optional sign and the longest run of
    digits, and gives back the value and the text behind it, as `strtol` and the
    conversions of `scanf` do.  The round trip needs only that no digit follows
    the number. -/

namespace Decimal

/-- `isspace` in the C locale. -/
def isSpace (b : UInt8) : Bool := b == 32 || (9 ≤ b.toNat && b.toNat ≤ 13)

/-- `isdigit`. -/
def isDigit (b : UInt8) : Bool := 48 ≤ b.toNat && b.toNat ≤ 57

/-- The digit of a number below ten. -/
def digit (d : Nat) : UInt8 := UInt8.ofNat (48 + d)

/-- A number in decimal, without leading zeros. -/
def natText (n : Nat) : List UInt8 :=
  if n < 10 then [digit n] else natText (n / 10) ++ [digit (n % 10)]

/-- The conversion `%ld`. -/
def intText (i : Int) : List UInt8 :=
  if i < 0 then 45 :: natText (-i).toNat else natText i.toNat

/-- The value of a run of digits. -/
def digitsValue (ds : List UInt8) : Nat := ds.foldl (fun v b => 10 * v + (b.toNat - 48)) 0

/-- White space is skipped before a number. -/
def skipSpace (text : List UInt8) : List UInt8 := text.dropWhile isSpace

/-- The sign in front of the digits: `-1` or `1`, and the text behind it. -/
def scanSign : List UInt8 → Int × List UInt8
  | 45 :: text => (-1, text)
  | 43 :: text => (1, text)
  | text => (1, text)

/-- The number at the front of the text, and the text behind it. -/
def scanNumber (text : List UInt8) : Option (Int × List UInt8) :=
  let (sign, rest) := scanSign (skipSpace text)
  let ds := rest.takeWhile isDigit
  if ds = [] then none else some (sign * digitsValue ds, rest.dropWhile isDigit)

/-- `strtol` stays within the range of a `long`. -/
def clampLong (i : Int) : Int := max (-2 ^ 63) (min i (2 ^ 63 - 1))

/-- A `long` stored in an `int`. -/
def toInt32 (i : Int) : Int := Int.bmod i (2 ^ 32)

/-! ## Round trip -/

theorem digit_toNat {d : Nat} (h : d < 10) : (digit d).toNat = 48 + d := by
  simp only [digit, UInt8.toNat_ofNat']
  omega

theorem isDigit_digit {d : Nat} (h : d < 10) : isDigit (digit d) = true := by
  simp only [isDigit, digit_toNat h, Bool.and_eq_true, decide_eq_true_eq]
  omega

theorem natText_ne_nil (n : Nat) : natText n ≠ [] := by
  rw [natText]
  split
  · simp
  · simp

theorem isDigit_of_mem_natText {n : Nat} {b : UInt8} (h : b ∈ natText n) : isDigit b = true := by
  induction n using Nat.strong_induction_on with
  | _ n ih =>
      rw [natText] at h
      by_cases hn : n < 10
      · rw [if_pos hn, List.mem_singleton] at h
        rw [h]
        exact isDigit_digit hn
      · rw [if_neg hn, List.mem_append, List.mem_singleton] at h
        rcases h with h | h
        · exact ih (n / 10) (by omega) h
        · rw [h]
          exact isDigit_digit (by omega)

theorem digitsValue_natText (n : Nat) : digitsValue (natText n) = n := by
  induction n using Nat.strong_induction_on with
  | _ n ih =>
      rw [natText]
      by_cases hn : n < 10
      · rw [if_pos hn]
        simp only [digitsValue, List.foldl_cons, List.foldl_nil, digit_toNat hn]
        omega
      · have hlast := digit_toNat (show n % 10 < 10 by omega)
        have hrec := ih (n / 10) (by omega)
        rw [if_neg hn]
        simp only [digitsValue] at hrec
        simp only [digitsValue, List.foldl_append, List.foldl_cons, List.foldl_nil, hrec, hlast]
        omega

theorem natText_length_le {n k : Nat} (h : n < 10 ^ (k + 1)) : (natText n).length ≤ k + 1 := by
  induction k generalizing n with
  | zero =>
      rw [natText, if_pos (by omega)]
      exact Nat.le_refl 1
  | succ k ih =>
      rw [natText]
      split
      · exact Nat.succ_le_succ (Nat.zero_le _)
      · have hdiv : n / 10 < 10 ^ (k + 1) := by
          rw [Nat.pow_succ] at h
          exact Nat.div_lt_of_lt_mul (by omega)
        have := ih hdiv
        rw [List.length_append, List.length_singleton]
        omega

/-- An `int` has at most eleven characters. -/
theorem intText_length_le {i : Int} (h1 : -2 ^ 31 ≤ i) (h2 : i < 2 ^ 31) :
    (intText i).length ≤ 11 := by
  rw [intText]
  split
  · have := natText_length_le (k := 9) (show (-i).toNat < 10 ^ (9 + 1) by omega)
    rw [List.length_cons]
    omega
  · have := natText_length_le (k := 9) (show i.toNat < 10 ^ (9 + 1) by omega)
    omega

/-- What stands behind the number does not begin with a digit. -/
def NoDigit (rest : List UInt8) : Prop := ∀ b, rest.head? = some b → isDigit b = false

theorem takeWhile_digits {ds rest : List UInt8} (hds : ∀ b ∈ ds, isDigit b = true)
    (hrest : NoDigit rest) : (ds ++ rest).takeWhile isDigit = ds := by
  rw [List.takeWhile_append_of_pos hds]
  cases rest with
  | nil => simp
  | cons b rest => rw [List.takeWhile_cons, hrest b rfl]; simp

theorem dropWhile_digits {ds rest : List UInt8} (hds : ∀ b ∈ ds, isDigit b = true)
    (hrest : NoDigit rest) : (ds ++ rest).dropWhile isDigit = rest := by
  rw [List.dropWhile_append_of_pos hds]
  cases rest with
  | nil => rfl
  | cons b rest => rw [List.dropWhile_cons, hrest b rfl]; simp

theorem not_space_of_digit {b : UInt8} (h : isDigit b = true) : isSpace b = false := by
  have key : ∀ b : UInt8, isDigit b = true → isSpace b = false := by decide +kernel
  exact key b h

/-- A text that begins with a digit has no sign and nothing to skip. -/
theorem scanSign_digit {b : UInt8} {text : List UInt8} (h : isDigit b = true) :
    scanSign (skipSpace (b :: text)) = (1, b :: text) := by
  rw [skipSpace, List.dropWhile_cons, not_space_of_digit h]
  have h45 : b ≠ 45 := by rintro rfl; exact absurd h (by decide)
  have h43 : b ≠ 43 := by rintro rfl; exact absurd h (by decide)
  simp only [Bool.false_eq_true, if_false]
  rw [scanSign]
  · intro t heq
    exact h45 (List.cons_eq_cons.mp heq).1
  · intro t heq
    exact h43 (List.cons_eq_cons.mp heq).1

theorem scanNumber_natText (n : Nat) {rest : List UInt8} (hrest : NoDigit rest) :
    scanNumber (natText n ++ rest) = some ((n : Int), rest) := by
  obtain ⟨b, ds, hds⟩ := List.exists_cons_of_ne_nil (natText_ne_nil n)
  have hall : ∀ c ∈ natText n, isDigit c = true := fun c hc => isDigit_of_mem_natText hc
  have hb : isDigit b = true := hall b (by rw [hds]; exact List.mem_cons_self)
  have hsign : scanSign (skipSpace (natText n ++ rest)) = (1, natText n ++ rest) := by
    rw [hds, List.cons_append]
    exact scanSign_digit hb
  simp only [scanNumber, hsign, takeWhile_digits hall hrest, dropWhile_digits hall hrest,
    natText_ne_nil n, if_false, digitsValue_natText, one_mul]

/-- **Round trip**: a printed number is scanned back. -/
theorem scanNumber_intText (i : Int) {rest : List UInt8} (hrest : NoDigit rest) :
    scanNumber (intText i ++ rest) = some (i, rest) := by
  rw [intText]
  by_cases hi : i < 0
  · rw [if_pos hi, List.cons_append]
    have hall : ∀ c ∈ natText (-i).toNat, isDigit c = true := fun c hc => isDigit_of_mem_natText hc
    have hsign : scanSign (skipSpace (45 :: (natText (-i).toNat ++ rest)))
        = (-1, natText (-i).toNat ++ rest) := rfl
    simp only [scanNumber, hsign, takeWhile_digits hall hrest, dropWhile_digits hall hrest,
      natText_ne_nil, if_false, digitsValue_natText]
    rw [show (-1 : Int) * ((-i).toNat : Int) = i by omega]
  · rw [if_neg hi, scanNumber_natText _ hrest, Int.toNat_of_nonneg (by omega)]

/-! ## Where a scan stops -/

/-- The text behind white space, a sign and digits. -/
def scanRest (text : List UInt8) : List UInt8 :=
  (scanSign (skipSpace text)).2.dropWhile isDigit

/-- The next byte is no part of a number. -/
def Stops (rest : List UInt8) : Prop :=
  ∀ b, rest.head? = some b → isSpace b = false ∧ isDigit b = false ∧ b ≠ 45 ∧ b ≠ 43

theorem dropWhile_append_stop {p : UInt8 → Bool} {text rest : List UInt8}
    (h : text.dropWhile p ≠ [] ∨ ∀ b, rest.head? = some b → p b = false) :
    (text ++ rest).dropWhile p = text.dropWhile p ++ rest := by
  rw [List.dropWhile_append]
  split
  · rename_i hempty
    have hnil : text.dropWhile p = [] := List.isEmpty_iff.mp hempty
    rw [hnil, List.nil_append]
    cases rest with
    | nil => rfl
    | cons b rest =>
        have hb := h.resolve_left (fun hne => hne hnil) b rfl
        rw [List.dropWhile_cons, hb]
        simp
  · rfl

theorem takeWhile_append_stop {p : UInt8 → Bool} {text rest : List UInt8}
    (h : text.dropWhile p ≠ [] ∨ ∀ b, rest.head? = some b → p b = false) :
    (text ++ rest).takeWhile p = text.takeWhile p := by
  have hdrop := dropWhile_append_stop h
  have hsplit := List.takeWhile_append_dropWhile (p := p) (l := text ++ rest)
  rw [hdrop, ← List.append_assoc] at hsplit
  have htext := List.append_cancel_right hsplit
  exact List.append_cancel_right
    (htext.trans (List.takeWhile_append_dropWhile (p := p) (l := text)).symm)

/-- A sign is looked for in the text, or the text is at its end and none
    follows. -/
theorem scanSign_append {text rest : List UInt8} (h : text ≠ [] ∨ Stops rest) :
    scanSign (text ++ rest) = ((scanSign text).1, (scanSign text).2 ++ rest) := by
  cases text with
  | nil =>
      have hstop := h.resolve_left (fun hne => hne rfl)
      cases rest with
      | nil => rfl
      | cons b rest =>
          obtain ⟨-, -, h45, h43⟩ := hstop b rfl
          rw [List.nil_append, scanSign]
          · rfl
          · intro t heq
            exact h45 (List.cons_eq_cons.mp heq).1
          · intro t heq
            exact h43 (List.cons_eq_cons.mp heq).1
  | cons b text =>
      rw [List.cons_append]
      by_cases h45 : b = 45
      · subst h45
        rfl
      · by_cases h43 : b = 43
        · subst h43
          rfl
        · have hne : ∀ t : List UInt8, scanSign (b :: t) = (1, b :: t) := by
            intro t
            rw [scanSign]
            · intro t' heq
              exact h45 (List.cons_eq_cons.mp heq).1
            · intro t' heq
              exact h43 (List.cons_eq_cons.mp heq).1
          rw [hne, hne]
          rfl

/-- **A scan that stops in the text**, or at something that is no part of a
    number, does not depend on what follows. -/
theorem scanNumber_append {text rest : List UInt8} (h : scanRest text ≠ [] ∨ Stops rest) :
    scanNumber (text ++ rest) = (scanNumber text).map (fun p => (p.1, p.2 ++ rest)) := by
  have hspace : skipSpace (text ++ rest) = skipSpace text ++ rest := by
    refine dropWhile_append_stop ?_
    rcases h with hne | hstop
    · refine Or.inl ?_
      intro hnil
      refine hne ?_
      rw [scanRest, skipSpace, hnil]
      rfl
    · exact Or.inr (fun b hb => (hstop b hb).1)
  have hsign : scanSign (skipSpace text ++ rest)
      = ((scanSign (skipSpace text)).1, (scanSign (skipSpace text)).2 ++ rest) := by
    refine scanSign_append ?_
    rcases h with hne | hstop
    · refine Or.inl ?_
      intro hnil
      refine hne ?_
      rw [scanRest, hnil]
      rfl
    · exact Or.inr hstop
  have hdigits : (scanSign (skipSpace text)).2.dropWhile isDigit ≠ [] ∨
      ∀ b, rest.head? = some b → isDigit b = false := by
    rcases h with hne | hstop
    · exact Or.inl hne
    · exact Or.inr (fun b hb => (hstop b hb).2.1)
  simp only [scanNumber, hspace, hsign, takeWhile_append_stop hdigits,
    dropWhile_append_stop hdigits]
  split
  · rfl
  · rfl

/-- What is left of the text when a number is found. -/
theorem scanNumber_rest {text : List UInt8} {p : Int × List UInt8}
    (h : scanNumber text = some p) : p.2 = scanRest text := by
  simp only [scanNumber] at h
  split at h
  · exact nomatch h
  · rw [← Option.some.inj h]
    rfl

theorem clampLong_of_range {i : Int} (h1 : -2 ^ 63 ≤ i) (h2 : i < 2 ^ 63) :
    clampLong i = i := by
  simp only [clampLong]
  omega

theorem toInt32_of_range {i : Int} (h1 : -2 ^ 31 ≤ i) (h2 : i < 2 ^ 31) : toInt32 i = i := by
  simp only [toInt32, Int.bmod_def]
  split <;> omega

end Decimal
