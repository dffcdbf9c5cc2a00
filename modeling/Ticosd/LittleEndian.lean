import Mathlib

/-! # Little-endian fields — structures in a byte stream

    A C structure without padding is a row of unsigned fields, least significant
    byte first.  `encodeFields` and `decodeFields` go between the values and the
    bytes, given the widths; the round trip needs that each value fits its width. -/

namespace LittleEndian

/-- The `w` bytes of a value. -/
def leBytes : Nat → Nat → List UInt8
  | 0, _ => []
  | w + 1, v => UInt8.ofNat v :: leBytes w (v / 256)

/-- The value of some bytes. -/
def leValue : List UInt8 → Nat
  | [] => 0
  | b :: bs => b.toNat + 256 * leValue bs

/-- The bytes of a row of fields. -/
def encodeFields : List Nat → List Nat → List UInt8
  | w :: ws, v :: vs => leBytes w v ++ encodeFields ws vs
  | _, _ => []

/-- The fields at the front of some bytes. -/
def decodeFields : List Nat → List UInt8 → List Nat
  | [], _ => []
  | w :: ws, bs => leValue (bs.take w) :: decodeFields ws (bs.drop w)

@[simp] theorem leBytes_length (w v : Nat) : (leBytes w v).length = w := by
  induction w generalizing v with
  | zero => rfl
  | succ w ih => rw [leBytes, List.length_cons, ih]

theorem leValue_leBytes {w v : Nat} (h : v < 256 ^ w) : leValue (leBytes w v) = v := by
  induction w generalizing v with
  | zero =>
      rw [Nat.pow_zero] at h
      exact (Nat.lt_one_iff.mp h).symm
  | succ w ih =>
      have hdiv : v / 256 < 256 ^ w := by
        rw [Nat.pow_succ] at h
        exact Nat.div_lt_of_lt_mul (by omega)
      rw [leBytes, leValue, ih hdiv, UInt8.toNat_ofNat']
      omega

/-- Each value fits its field. -/
def Fits (ws vs : List Nat) : Prop := List.Forall₂ (fun w v => v < 256 ^ w) ws vs

instance (ws vs : List Nat) : Decidable (Fits ws vs) :=
  inferInstanceAs (Decidable (List.Forall₂ _ ws vs))

theorem encodeFields_length {ws vs : List Nat} (h : Fits ws vs) :
    (encodeFields ws vs).length = ws.sum := by
  induction h with
  | nil => rfl
  | cons _ _ ih => rw [encodeFields, List.length_append, leBytes_length, ih, List.sum_cons]

/-- Whatever the values are, the fields take no more than their widths. -/
theorem encodeFields_length_le (ws vs : List Nat) : (encodeFields ws vs).length ≤ ws.sum := by
  induction ws generalizing vs with
  | nil => exact Nat.le_refl 0
  | cons w ws ih =>
      cases vs with
      | nil => exact Nat.zero_le _
      | cons v vs =>
          have hrest := ih vs
          rw [encodeFields, List.length_append, leBytes_length, List.sum_cons]
          omega

/-- **Round trip.** -/
theorem decodeFields_encodeFields {ws vs : List Nat} (h : Fits ws vs) (rest : List UInt8) :
    decodeFields ws (encodeFields ws vs ++ rest) = vs := by
  induction h with
  | nil => rfl
  | @cons w v ws vs hv _ ih =>
      have hlen : (leBytes w v).length = w := leBytes_length w v
      rw [encodeFields, decodeFields, List.append_assoc]
      nth_rewrite 1 [← hlen]
      nth_rewrite 3 [← hlen]
      rw [List.take_left, List.drop_left, leValue_leBytes hv, ih]

/-! ## From the bytes -/

theorem leValue_lt (bs : List UInt8) : leValue bs < 256 ^ bs.length := by
  induction bs with
  | nil => exact Nat.one_pos
  | cons b bs ih =>
      have hb := b.toNat_lt
      rw [leValue, List.length_cons, Nat.pow_succ]
      omega

theorem leBytes_leValue (bs : List UInt8) : leBytes bs.length (leValue bs) = bs := by
  induction bs with
  | nil => rfl
  | cons b bs ih =>
      have hb := b.toNat_lt
      have hdiv : (b.toNat + 256 * leValue bs) / 256 = leValue bs := by omega
      have hmod : UInt8.ofNat (b.toNat + 256 * leValue bs) = b := by
        refine UInt8.toNat.inj ?_
        rw [UInt8.toNat_ofNat']
        omega
      rw [leValue, List.length_cons, leBytes, hdiv, hmod, ih]

/-- What has been read from so many bytes fits so many bytes. -/
theorem decodeFields_fits (ws : List Nat) (bs : List UInt8) : Fits ws (decodeFields ws bs) := by
  induction ws generalizing bs with
  | nil => exact List.Forall₂.nil
  | cons w ws ih =>
      refine List.Forall₂.cons ?_ (ih (bs.drop w))
      have hlen : (bs.take w).length ≤ w := List.length_take_le w bs
      exact Nat.lt_of_lt_of_le (leValue_lt _) (Nat.pow_le_pow_right (by omega) hlen)

/-- **Round trip, the other way.** -/
theorem encodeFields_decodeFields {ws : List Nat} {bs : List UInt8} (h : ws.sum ≤ bs.length) :
    encodeFields ws (decodeFields ws bs) = bs.take ws.sum := by
  induction ws generalizing bs with
  | nil => rfl
  | cons w ws ih =>
      rw [List.sum_cons] at h ⊢
      have hlen : (bs.take w).length = w := List.length_take_of_le (by omega)
      have hfirst := leBytes_leValue (bs.take w)
      rw [hlen] at hfirst
      rw [decodeFields, encodeFields, hfirst, ih (by rw [List.length_drop]; omega), ← List.take_add]

end LittleEndian
