import Mathlib

/-! # C text — strings as bytes

    A `char` array is a list of bytes; the string in it ends before the first NUL.
    Literals of the source are given as ASCII text. -/

namespace CText

/-- The bytes of a literal. -/
def ascii (s : String) : List UInt8 := s.toList.map (fun c => UInt8.ofNat c.toNat)

/-- The bytes of a C string before its NUL. -/
def cString (str : List UInt8) : List UInt8 := str.takeWhile (· ≠ 0)

theorem cString_eq {str : List UInt8} (h : 0 ∉ str) : cString str = str := by
  rw [cString, List.takeWhile_eq_self_iff]
  intro b hb
  simp only [ne_eq, decide_eq_true_eq]
  rintro rfl
  exact h hb

/-- A string is cut at its NUL. -/
theorem cString_length_le (str : List UInt8) : (cString str).length ≤ str.length :=
  (List.takeWhile_sublist _).length_le

/-- What follows a NUL does not matter. -/
theorem cString_append_of_mem {a : List UInt8} (h : 0 ∈ a) (b : List UInt8) :
    cString (a ++ b) = cString a := by
  induction a with
  | nil => exact nomatch h
  | cons x a ih =>
      by_cases hx : x = 0
      · subst hx
        rfl
      · have hmem : 0 ∈ a := (List.mem_cons.mp h).resolve_left (fun heq => hx heq.symm)
        have := ih hmem
        simp only [cString] at this
        simp only [cString, List.cons_append, List.takeWhile_cons, ne_eq, hx, not_false_eq_true,
          decide_true, if_true, this]

/-- Without a NUL the string goes on. -/
theorem cString_append_of_not_mem {a : List UInt8} (h : 0 ∉ a) (b : List UInt8) :
    cString (a ++ b) = a ++ cString b := by
  rw [cString, List.takeWhile_append_of_pos]
  · rfl
  · intro x hx
    simp only [ne_eq, decide_eq_true_eq]
    rintro rfl
    exact h hx

/-- The end of memory or a NUL comes next. -/
def AtNul (b : List UInt8) : Prop := b.headD 0 = 0

instance (b : List UInt8) : Decidable (AtNul b) := inferInstanceAs (Decidable (_ = _))

theorem cString_of_atNul {b : List UInt8} (h : AtNul b) : cString b = [] := by
  cases b with
  | nil => rfl
  | cons x b =>
      have hx : x = 0 := h
      subst hx
      rfl

theorem atNul_zeros (n : Nat) : AtNul (List.replicate n 0) := by
  cases n with
  | zero => rfl
  | succ n => rfl

/-- `strnlen`. -/
def strnlen (str : List UInt8) (maxlen : Nat) : Nat := (cString (str.take maxlen)).length

theorem strnlen_self (str : List UInt8) : strnlen str str.length = (cString str).length := by
  rw [strnlen, List.take_length]

theorem not_mem_cString (str : List UInt8) : 0 ∉ cString str := by
  intro h
  have := List.mem_takeWhile_imp h
  simp at this

end CText
