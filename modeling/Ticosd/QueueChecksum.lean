import Ticosd.QueueView

/-! # The checksum of a message — what `prv_queue_crc8` misses

    The loop of `prv_queue_crc8` takes a byte into the remainder and shifts it out in
    eight rounds.  A round xors `0x91` before it shifts, so its top bit ends up as bit 6
    and the remainder is seven bits wide.

    The rounds are linear over xor (`crcRounds_xor`): two strings that differ in one byte
    have checksums that differ by the rounds of the difference, taken once for each byte
    from there on (`crc_differs`).  The rounds send `0x91` to zero and nothing else, so
    that difference and no other goes unnoticed. -/

namespace QueueChecksum

open ByteStore QueueModel QueueView

/-! ## The rounds -/

/-- The eight rounds that shift a byte out. -/
def crcRounds (x : UInt8) : UInt8 :=
  crcBit (crcBit (crcBit (crcBit (crcBit (crcBit (crcBit (crcBit x)))))))

theorem crcByte_eq (crc byte : UInt8) : crcByte crc byte = crcRounds (crc ^^^ byte) := rfl

/-- A fact about every byte is a fact about 256 of them. -/
theorem forall_byte {P : UInt8 → Prop} (h : ∀ i : Fin 256, P (UInt8.ofBitVec ⟨i⟩)) (x : UInt8) :
    P x := h x.toBitVec.toFin

/-- What one round does, without the branch: the bit that falls out comes back as the
    shifted polynomial. -/
def carry (x : UInt8) : UInt8 := if x &&& 1 ≠ 0 then 0x48 else 0

theorem crcBit_eq (x : UInt8) : crcBit x = (x >>> 1) ^^^ carry x := by
  revert x
  apply forall_byte
  decide +kernel

theorem low_bit_xor (x y : UInt8) : (x ^^^ y) &&& 1 = (x &&& 1) ^^^ (y &&& 1) := by
  apply UInt8.toBitVec_inj.mp
  ext i
  simp only [UInt8.toBitVec_and, UInt8.toBitVec_xor, BitVec.getElem_and, BitVec.getElem_xor]
  exact Bool.and_xor_distrib_right _ _ _

theorem carry_xor (x y : UInt8) : carry (x ^^^ y) = carry x ^^^ carry y := by
  have hbit : ∀ z : UInt8, z &&& 1 = 0 ∨ z &&& 1 = 1 := by
    apply forall_byte
    decide +kernel
  simp only [carry, low_bit_xor]
  rcases hbit x with hx | hx <;> rcases hbit y with hy | hy <;> simp [hx, hy]

theorem shift_xor (x y : UInt8) : (x ^^^ y) >>> 1 = (x >>> 1) ^^^ (y >>> 1) := by
  apply UInt8.toBitVec_inj.mp
  simp [BitVec.ushiftRight_xor_distrib]

/-- A round is linear. -/
theorem crcBit_xor (x y : UInt8) : crcBit (x ^^^ y) = crcBit x ^^^ crcBit y := by
  rw [crcBit_eq, crcBit_eq, crcBit_eq, carry_xor, shift_xor]
  ac_rfl

theorem crcRounds_xor (x y : UInt8) : crcRounds (x ^^^ y) = crcRounds x ^^^ crcRounds y := by
  simp only [crcRounds, crcBit_xor]

/-- **The rounds lose one difference.** -/
theorem crcRounds_eq_zero (d : UInt8) : crcRounds d = 0 ↔ d = 0 ∨ d = 0x91 := by
  revert d
  apply forall_byte
  decide +kernel

/-- The lost difference has its top bit set, which no remainder has. -/
theorem crcRounds_ne (d : UInt8) : crcRounds d ≠ 0x91 := by
  revert d
  apply forall_byte
  decide +kernel

/-- More rounds lose no more. -/
theorem crcRounds_iterate (k : Nat) (d : UInt8) :
    crcRounds^[k + 1] d = 0 ↔ d = 0 ∨ d = 0x91 := by
  induction k generalizing d with
  | zero => exact crcRounds_eq_zero d
  | succ k ih =>
      rw [Function.iterate_succ_apply, ih, ← crcRounds_eq_zero d]
      constructor
      · rintro (h | h)
        · exact h
        · exact absurd h (crcRounds_ne d)
      · exact Or.inl

/-! ## Strings that differ in one byte -/

/-- A difference in the remainder goes through the rounds of every byte that follows. -/
theorem foldl_xor (data : List UInt8) (c d : UInt8) :
    data.foldl crcByte (c ^^^ d) = data.foldl crcByte c ^^^ crcRounds^[data.length] d := by
  induction data generalizing c d with
  | nil => rfl
  | cons b data ih =>
      have hstep : crcByte (c ^^^ d) b = crcByte c b ^^^ crcRounds d := by
        rw [crcByte_eq, crcByte_eq, ← crcRounds_xor]
        congr 1
        ac_rfl
      rw [List.foldl_cons, List.foldl_cons, hstep, ih, List.length_cons,
        Function.iterate_succ_apply]

theorem xor_eq_zero_iff {x y : UInt8} : x ^^^ y = 0 ↔ x = y := by
  constructor
  · intro h
    calc x = (x ^^^ y) ^^^ y := by simp
      _ = y := by rw [h]; simp
  · rintro rfl
    simp

/-- The checksums of two strings that differ in one byte differ by the iterated rounds of
    the difference. -/
theorem crc_differs (pre suf : List UInt8) (a b : UInt8) :
    prvQueueCrc8 (pre ++ b :: suf)
      = prvQueueCrc8 (pre ++ a :: suf) ^^^ crcRounds^[suf.length + 1] (a ^^^ b) := by
  simp only [prvQueueCrc8, List.foldl_append, List.foldl_cons]
  generalize pre.foldl crcByte 0 = c
  have hstep : crcByte c b = crcByte c a ^^^ crcRounds (a ^^^ b) := by
    rw [crcByte_eq, crcByte_eq, ← crcRounds_xor]
    congr 1
    calc c ^^^ b = c ^^^ (a ^^^ a) ^^^ b := by simp
      _ = c ^^^ a ^^^ (a ^^^ b) := by ac_rfl
  rw [hstep, foldl_xor, ← Function.iterate_succ_apply]

/-- **One byte is noticed exactly when it changes by something other than `0x91`.** -/
theorem crc_ne_iff (pre suf : List UInt8) {a b : UInt8} (hab : a ≠ b) :
    prvQueueCrc8 (pre ++ a :: suf) ≠ prvQueueCrc8 (pre ++ b :: suf) ↔ a ^^^ b ≠ 0x91 := by
  have hlost : prvQueueCrc8 (pre ++ a :: suf) = prvQueueCrc8 (pre ++ b :: suf)
      ↔ crcRounds^[suf.length + 1] (a ^^^ b) = 0 := by
    rw [crc_differs pre suf a b]
    constructor
    · intro h
      rw [← xor_eq_zero_iff] at h
      rw [← h, ← UInt8.xor_assoc]
      simp
    · intro h
      rw [h]
      simp
  rw [ne_eq, hlost, crcRounds_iterate, not_or]
  exact and_iff_right (fun h => hab (xor_eq_zero_iff.mp h))

/-! ## Stored messages -/

/-- A message as it was stored: the header is one, and has the checksum of the payload. -/
def Stored (m : Mem) (ptr : Nat) : Prop :=
  m (4 * ptr) = headerMagicNumber ∧ prvQueueCrc8 (payloadAt m ptr) = m (4 * ptr + 2)

instance (m : Mem) (ptr : Nat) : Decidable (Stored m ptr) := inferInstanceAs (Decidable (_ ∧ _))

/-- The queue with byte `i` of the payload at `ptr` replaced. -/
def damage (q : TicosdQueue) (ptr i : Nat) (v : UInt8) : TicosdQueue :=
  { q with buf := q.buf.storeBytes (4 * ptr + 12 + i) [v] }

theorem damage_frame (q : TicosdQueue) (ptr i : Nat) (v : UInt8) {a : Nat}
    (ha : a ≠ 4 * ptr + 12 + i) : (damage q ptr i v).buf a = q.buf a :=
  q.buf.storeBytes_frame (by rw [List.length_singleton]; omega)

theorem damage_sizeAt (q : TicosdQueue) (ptr i : Nat) (v : UInt8) :
    sizeAt (damage q ptr i v).buf ptr = sizeAt q.buf ptr :=
  Mem.load32_congr (fun a _ h => damage_frame q ptr i v (by omega))

/-- The payload after the damage. -/
theorem damage_payloadAt {q : TicosdQueue} {ptr : Nat} {pre suf : List UInt8} {a : UInt8}
    (h : payloadAt q.buf ptr = pre ++ a :: suf) (b : UInt8) :
    payloadAt (damage q ptr pre.length b).buf ptr = pre ++ b :: suf := by
  have hlen : sizeAt q.buf ptr = (pre ++ a :: suf).length := by
    rw [← h, payloadAt, Mem.loadBytes_length]
  have hi : pre.length < sizeAt q.buf ptr := by
    rw [hlen, List.length_append, List.length_cons]
    omega
  have hin : (damage q ptr pre.length b).buf (4 * ptr + 12 + pre.length) = b :=
    q.buf.storeBytes_inside (i := 0) (by simp)
  rw [payloadAt, Mem.loadBytes_split _ _ hi] at h
  obtain ⟨hpre, hrest⟩ := List.append_inj h (Mem.loadBytes_length _ _ _)
  obtain ⟨-, hsuf⟩ := List.cons_eq_cons.mp hrest
  rw [payloadAt, damage_sizeAt, Mem.loadBytes_split _ _ hi, hin]
  congr 1
  · refine Eq.trans ?_ hpre
    exact Mem.loadBytes_congr (fun a _ h => damage_frame q ptr pre.length b (by omega))
  · congr 1
    refine Eq.trans ?_ hsuf
    exact Mem.loadBytes_congr (fun a h _ => damage_frame q ptr pre.length b (by omega))

/-- **Single-byte damage is caught, unless the byte changes by `0x91`.**  The checksums
    differ in every other case, and `prv_is_msg_valid` rejects a stored message that is
    damaged so; it also rejects one that reaches the last byte of the buffer, damaged or
    not. -/
theorem checksum_detects (pre suf : List UInt8) (a b : UInt8) (hab : a ≠ b) :
    (prvQueueCrc8 (pre ++ a :: suf) ≠ prvQueueCrc8 (pre ++ b :: suf) ↔ a ^^^ b ≠ 0x91) ∧
    ∀ (q : TicosdQueue) (ptr : Nat), Stored q.buf ptr →
      payloadAt q.buf ptr = pre ++ a :: suf →
      ((prvIsMsgValid (damage q ptr pre.length b) ptr).val = false ↔
        a ^^^ b ≠ 0x91 ∨ q.size.bytes ≤ 4 * ptr + 12 + sizeAt q.buf ptr) := by
  have hdiff := crc_ne_iff pre suf hab
  refine ⟨hdiff, ?_⟩
  rintro q ptr ⟨hmagic, hcrc⟩ hpayload
  rw [← hpayload, ← damage_payloadAt hpayload b] at hdiff
  have hm : (damage q ptr pre.length b).buf (4 * ptr) = headerMagicNumber := by
    rw [damage_frame q ptr _ b (by omega), hmagic]
  have hc : (damage q ptr pre.length b).buf (4 * ptr + 2) = prvQueueCrc8 (payloadAt q.buf ptr) := by
    rw [damage_frame q ptr _ b (by omega), hcrc]
  rw [isMsgValid_val, ← Bool.not_eq_true, validAt_iff, damage_sizeAt, hm, hc, ← hdiff]
  have hs : (damage q ptr pre.length b).size = q.size := rfl
  rw [hs, q.size.bytes_eq]
  constructor
  · intro h
    by_cases hb : 4 * ptr + 12 + sizeAt q.buf ptr < 4 * q.size.words
    · exact Or.inl (fun he => h ⟨hb, rfl, he.symm⟩)
    · exact Or.inr (by omega)
  · rintro (h | h) ⟨h1, -, h3⟩
    · exact h h3.symm
    · omega

/-- The smallest queue after one write, of a payload of one zero byte. -/
def zeroMessage : TicosdQueue :=
  (ticosdQueueWrite ⟨QueueSize.ofWords 4 (by omega) (by omega), fun _ => 0, 0, 0, 0, false⟩
    (some [0])).val.2

theorem checksum_detects_zeroMessage :
    (prvQueueCrc8 ([] ++ 0 :: []) ≠ prvQueueCrc8 ([] ++ 1 :: []) ↔ (0 : UInt8) ^^^ 1 ≠ 0x91) ∧
      ((prvIsMsgValid (damage zeroMessage 0 0 1) 0).val = false ↔
        (0 : UInt8) ^^^ 1 ≠ 0x91 ∨
          zeroMessage.size.bytes ≤ 4 * 0 + 12 + sizeAt zeroMessage.buf 0) :=
  have h := checksum_detects [] [] 0 1 (by decide)
  ⟨h.1, h.2 zeroMessage 0 (by decide +kernel) (by decide +kernel)⟩

/-- The byte `0x00` damaged to `0x91`: the checksums agree, and the message is still
    valid. -/
theorem checksum_misses :
    prvQueueCrc8 [0x00] = prvQueueCrc8 [0x91] ∧
      ¬ (∀ (q : TicosdQueue) (ptr i : Nat) (v : UInt8), Stored q.buf ptr →
        i < sizeAt q.buf ptr → v ≠ q.buf (4 * ptr + 12 + i) →
        (prvIsMsgValid (damage q ptr i v) ptr).val = false) := by
  refine ⟨by decide +kernel, fun h => ?_⟩
  have hfalse := h zeroMessage 0 0 0x91 (by decide +kernel) (by decide +kernel)
    (by decide +kernel)
  have htrue : (prvIsMsgValid (damage zeroMessage 0 0 0x91) 0).val = true := by decide +kernel
  rw [hfalse] at htrue
  exact nomatch htrue

end QueueChecksum
