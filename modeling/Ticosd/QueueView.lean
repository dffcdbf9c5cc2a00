import Ticosd.QueueModel

/-! # What the queue functions compute

    The functions of `QueueModel` say what is read and stored, in which order.
    This file says what comes out: each field of a header is a function of the
    memory and an index (`sizeAt`, `readAt`, ...), and each public operation has
    one specification lemma (`readHead_val`, `completeRead_val`, `write_val`) in
    those terms.  Nothing after this file unfolds the monadic code for its
    value. -/

namespace QueueView

open ByteStore QueueModel

/-! ## Header fields -/

/-- The first word of a header, the one compared with `END_POINTER`. -/
def wordAt (m : Mem) (i : Nat) : Nat := m.load32 (4 * i)

/-- `prev_header`. -/
def prevAt (m : Mem) (i : Nat) : Nat := m.load32 (4 * i + 4)

/-- `payload_size_bytes`. -/
def sizeAt (m : Mem) (i : Nat) : Nat := m.load32 (4 * i + 8)

/-- The payload, as long as the header says. -/
def payloadAt (m : Mem) (i : Nat) : List UInt8 := m.loadBytes (4 * i + 12) (sizeAt m i)

/-- The index right after the message at `i`. -/
def stopAt (m : Mem) (i : Nat) : Nat := i + headerLen + prvBytesToWordsRoundUp (sizeAt m i)

/-- Where `prv_get_next_message` goes from `i`. -/
def nextAt (n : Nat) (m : Mem) (i : Nat) : Nat :=
  if n ≤ stopAt m i then 0
  else if wordAt m (stopAt m i) = endPointer then 0 else stopAt m i

/-- `prv_is_msg_read`. -/
def readAt (m : Mem) (i : Nat) : Bool :=
  decide (m (4 * i + 3) &&& headerFlagsFlagReadMask ≠ 0)

/-- `prv_is_msg_valid`, in a buffer of `n` words. -/
def validAt (n : Nat) (m : Mem) (i : Nat) : Bool :=
  decide (4 * i + 12 + sizeAt m i < 4 * n) && decide (m (4 * i) = headerMagicNumber)
    && decide (prvQueueCrc8 (payloadAt m i) = m (4 * i + 2))

/-- The memory once the message at `i` is marked as read. -/
def markRead (m : Mem) (i : Nat) : Mem :=
  m.storeBytes (4 * i + 3) [m (4 * i + 3) ||| headerFlagsFlagReadMask]

theorem words_lt (k : Nat) : prvBytesToWordsRoundUp k < 2 ^ 30 := by
  simp only [prvBytesToWordsRoundUp]
  omega

/-- Without overflow the round-up is exact. -/
theorem words_spec {k : Nat} (h : k + 3 < 2 ^ 32) :
    k ≤ 4 * prvBytesToWordsRoundUp k ∧ 4 * prvBytesToWordsRoundUp k < k + 4 := by
  simp only [prvBytesToWordsRoundUp]
  omega

theorem lt_stopAt (m : Mem) (i : Nat) : i < stopAt m i := by
  simp only [stopAt, headerLen]
  omega

theorem validAt_iff {n : Nat} {m : Mem} {i : Nat} :
    validAt n m i = true ↔ 4 * i + 12 + sizeAt m i < 4 * n ∧
      m (4 * i) = headerMagicNumber ∧ prvQueueCrc8 (payloadAt m i) = m (4 * i + 2) := by
  simp only [validAt, Bool.and_eq_true, decide_eq_true_eq, and_assoc]

/-- A cleared first byte is no header. -/
theorem validAt_zero_byte {n : Nat} {m : Mem} {i : Nat} (h : m (4 * i) = 0) :
    validAt n m i = false := by
  rw [Bool.eq_false_iff]
  intro hv
  have hm := (validAt_iff.mp hv).2.1
  rw [h] at hm
  exact absurd hm (by decide)

/-- `ticosd_queue_reset` leaves no header at index 0. -/
theorem validAt_reset (n : Nat) (m : Mem) :
    validAt n (m.storeBytes 0 (List.replicate (4 * headerLen) 0)) 0 = false := by
  refine validAt_zero_byte ?_
  have hlen : 0 < (List.replicate (4 * headerLen) (0 : UInt8)).length := by decide
  exact m.storeBytes_inside hlen

/-! ## The auxiliary functions -/

section Values

variable (q : TicosdQueue) (ptr : Nat)

/-- `prv_get_next_message` moves to `nextAt`. -/
theorem getNextMessage_val (h : ptr < 2 ^ 31) :
    (prvGetNextMessage q ptr).val = nextAt q.size.words q.buf ptr := by
  have hstop : (ptr + headerLen + prvBytesToWordsRoundUp
      (Traced.load32 q.buf (4 * ptr + 8)).val) % 2 ^ 32 = stopAt q.buf ptr := by
    have hw := words_lt (q.buf.load32 (4 * ptr + 8))
    simp only [stopAt, sizeAt, headerLen, Traced.load32_val]
    omega
  unfold prvGetNextMessage
  rw [Traced.bind_val, hstop]
  by_cases hge : q.size.words ≤ stopAt q.buf ptr
  · rw [if_pos hge, nextAt, if_pos hge, Traced.pure_val]
  · rw [if_neg hge, nextAt, if_neg hge, Traced.bind_val, wordAt]
    by_cases hend : q.buf.load32 (4 * stopAt q.buf ptr) = endPointer
    · rw [if_pos hend, if_pos (by rw [Traced.load32_val]; exact hend), Traced.pure_val]
    · rw [if_neg hend, if_neg (by rw [Traced.load32_val]; exact hend), Traced.pure_val]

theorem isMsgInBounds_val :
    (prvIsMsgInBounds q ptr).val = decide (4 * ptr + 12 + sizeAt q.buf ptr < q.size.bytes) :=
  rfl

@[simp] theorem isMsgRead_val : (prvIsMsgRead q ptr).val = readAt q.buf ptr := rfl

@[simp] theorem isMsgValid_val :
    (prvIsMsgValid q ptr).val = validAt q.size.words q.buf ptr := by
  simp only [prvIsMsgValid, Traced.bind_val, isMsgInBounds_val, q.size.bytes_eq, validAt]
  by_cases hb : 4 * ptr + 12 + sizeAt q.buf ptr < 4 * q.size.words
  · simp only [hb, decide_true, Bool.true_eq_false, if_false, Traced.bind_val,
      Traced.load8_val, Bool.true_and]
    by_cases hm : q.buf (4 * ptr) = headerMagicNumber
    · simp only [hm, ne_eq, not_true_eq_false, if_false, Traced.bind_val,
        Traced.load32_val, Traced.loadBytes_val, Traced.load8_val, decide_true,
        Bool.true_and, payloadAt, sizeAt]
      by_cases hc : prvQueueCrc8 (q.buf.loadBytes (4 * ptr + 12)
          (q.buf.load32 (4 * ptr + 8))) = q.buf (4 * ptr + 2)
      · simp only [hc, not_true_eq_false, if_false, Traced.pure_val, decide_true]
      · simp only [hc, not_false_eq_true, if_true, Traced.pure_val, decide_false]
    · simp only [hm, ne_eq, not_false_eq_true, if_true, Traced.pure_val, decide_false,
        Bool.false_and]
  · simp only [hb, decide_false, if_true, Traced.pure_val, Bool.false_and]

end Values

/-! ## Reading -/

/-- `ticosd_queue_read_head` finds nothing: the reader has caught up. -/
def caughtUp (q : TicosdQueue) : Bool :=
  decide (q.readPtr = q.writePtr) &&
    (!validAt q.size.words q.buf q.readPtr || readAt q.buf q.readPtr)

@[simp] theorem readPtrCaughtUp_val (q : TicosdQueue) :
    (readPtrCaughtUp q).val = caughtUp q := by
  simp only [readPtrCaughtUp, caughtUp]
  by_cases heq : q.readPtr = q.writePtr
  · rw [if_pos heq, decide_eq_true heq, Bool.true_and, Traced.bind_val, isMsgValid_val]
    cases hv : validAt q.size.words q.buf q.readPtr with
    | false => rfl
    | true => rfl
  · rw [if_neg heq, decide_eq_false heq, Bool.false_and, Traced.pure_val]

/-- What `ticosd_queue_read_head` returns, and the state it leaves. -/
theorem readHead_val (q : TicosdQueue) (malloc : Bool) :
    (ticosdQueueReadHead q malloc).val =
      if caughtUp q = true ∨ malloc = false then (none, q)
      else (some (payloadAt q.buf q.readPtr), { q with canCompleteRead := true }) := by
  simp only [ticosdQueueReadHead, Traced.bind_val, readPtrCaughtUp_val]
  cases hc : caughtUp q with
  | true => rfl
  | false =>
      cases malloc with
      | false => rfl
      | true => rfl

/-- What `ticosd_queue_complete_read` returns, and the state it leaves. -/
theorem completeRead_val (q : TicosdQueue) (h : q.readPtr < 2 ^ 31) :
    (ticosdQueueCompleteRead q).val =
      if q.canCompleteRead = false then (false, q)
      else (true, { q with
        buf := markRead q.buf q.readPtr
        readPtr := nextAt q.size.words (markRead q.buf q.readPtr) q.readPtr
        canCompleteRead := false }) := by
  cases hc : q.canCompleteRead with
  | false =>
      simp only [ticosdQueueCompleteRead, hc, if_true, Traced.pure_val]
  | true =>
      simp only [ticosdQueueCompleteRead, hc, Bool.true_eq_false, if_false, Traced.bind_val,
        Traced.load8_val, Traced.storeBytes_val, Traced.pure_val]
      rw [getNextMessage_val _ _ h]
      rfl

/-! ## Writing -/

/-- `message_size_words` for a payload of `k` bytes. -/
def msgWords (k : Nat) : Nat := headerLen + prvBytesToWordsRoundUp k

/-- `ticosd_queue_write` takes the payload. -/
def Accepts (q : TicosdQueue) (k : Nat) : Prop := 0 < k ∧ msgWords k ≤ q.size.words

/-- The message does not fit behind the write pointer: the writer wraps. -/
def Wraps (q : TicosdQueue) (k : Nat) : Prop := q.size.words < q.writePtr + msgWords k

instance (q : TicosdQueue) (k : Nat) : Decidable (Accepts q k) :=
  inferInstanceAs (Decidable (_ ∧ _))

instance (q : TicosdQueue) (k : Nat) : Decidable (Wraps q k) :=
  inferInstanceAs (Decidable (_ < _))

/-- The index at which the message is stored. -/
def startOf (q : TicosdQueue) (k : Nat) : Nat := if Wraps q k then 0 else q.writePtr

/-- The buffer once the end marker, if any, is stored. -/
def endMarked (q : TicosdQueue) (k : Nat) : Mem :=
  if Wraps q k then q.buf.storeBytes (4 * q.writePtr) (le32 endPointer) else q.buf

/-- The bytes of a whole message: header, payload and padding. -/
def msgBytes (prevPtr : Nat) (payload : List UInt8) : List UInt8 :=
  msgHeader prevPtr payload ++ payload
    ++ List.replicate (4 * prvBytesToWordsRoundUp payload.length - payload.length) 0

/-- The move of the read pointer past the new message. -/
def skipTo (n : Nat) (m : Mem) (writeEnd : Nat) : Nat → Nat → Nat
  | 0, i => i
  | fuel + 1, i =>
      if writeEnd ≤ nextAt n m i ∨ nextAt n m i = 0 then nextAt n m i
      else skipTo n m writeEnd fuel (nextAt n m i)

/-- The write runs over the message at the read pointer. -/
def Overruns (q : TicosdQueue) (k : Nat) : Prop :=
  q.readPtr ≠ q.writePtr ∧ startOf q k < q.readPtr ∧
    q.readPtr < startOf q k + msgWords k

instance (q : TicosdQueue) (k : Nat) : Decidable (Overruns q k) :=
  inferInstanceAs (Decidable (_ ∧ _ ∧ _))

/-- The read pointer after the write. -/
def newReadPtr (q : TicosdQueue) (k : Nat) : Nat :=
  if q.readPtr = q.writePtr then startOf q k
  else if Overruns q k then
    skipTo q.size.words (endMarked q k) (startOf q k + msgWords k) q.size.words q.readPtr
  else q.readPtr

/-- The state after a write that took its payload. -/
def afterWrite (q : TicosdQueue) (payload : List UInt8) : TicosdQueue where
  size := q.size
  buf := (endMarked q payload.length).storeBytes (4 * startOf q payload.length)
    (msgBytes q.prevPtr payload)
  readPtr := newReadPtr q payload.length
  writePtr := (startOf q payload.length + msgWords payload.length) % q.size.words
  prevPtr := startOf q payload.length
  canCompleteRead := if Overruns q payload.length then false else q.canCompleteRead

@[simp] theorem msgHeader_length (p : Nat) (payload : List UInt8) :
    (msgHeader p payload).length = 12 := by
  simp [msgHeader]

theorem msgBytes_length (p : Nat) {payload : List UInt8} (h : payload.length + 3 < 2 ^ 32) :
    (msgBytes p payload).length = 4 * msgWords payload.length := by
  have := words_spec h
  simp only [msgBytes, List.length_append, msgHeader_length, List.length_replicate,
    msgWords, headerLen]
  omega

/-- The next index is inside the buffer. -/
theorem nextAt_lt (s : QueueSize) (m : Mem) (i : Nat) : nextAt s.words m i < s.words := by
  have := s.four_le_words
  simp only [nextAt]
  split
  · omega
  · split <;> omega

theorem moveReadPtr_val (q : TicosdQueue) (writeEnd : Nat) :
    ∀ (fuel i : Nat), i < 2 ^ 31 →
      (moveReadPtr q writeEnd fuel i).val = skipTo q.size.words q.buf writeEnd fuel i := by
  intro fuel
  induction fuel with
  | zero => intro i _; rfl
  | succ fuel ih =>
      intro i hi
      have hnext := nextAt_lt q.size q.buf i
      have hle := q.size.words_le
      rw [moveReadPtr, skipTo, Traced.bind_val, getNextMessage_val q i hi]
      by_cases hstop : nextAt q.size.words q.buf i ≥ writeEnd ∨
          nextAt q.size.words q.buf i = 0
      · rw [if_pos hstop, if_pos hstop, Traced.pure_val]
      · rw [if_neg hstop, if_neg hstop]
        exact ih _ (by omega)

theorem addEndMarker_val (q : TicosdQueue) (k : Nat) :
    (addEndMarker q (msgWords k)).val =
      { q with buf := endMarked q k, writePtr := startOf q k } := by
  simp only [addEndMarker, endMarked, startOf]
  by_cases hw : Wraps q k
  · rw [if_pos (show q.writePtr + msgWords k > q.size.words from hw), if_pos hw, if_pos hw]
    rfl
  · rw [if_neg (show ¬ q.writePtr + msgWords k > q.size.words from hw), if_neg hw, if_neg hw]
    rfl

/-- The stores of the padding complete the message. -/
theorem zeroPadding_val (m : Mem) (addr : Nat) {k : Nat} (h : k + 3 < 2 ^ 32) :
    (zeroPadding m addr (prvBytesToWordsRoundUp k) k).val
      = m.storeBytes addr (List.replicate (4 * prvBytesToWordsRoundUp k - k) 0) := by
  have hw := words_spec h
  have hpad : (prvBytesToWordsRoundUp k * 4 + 2 ^ 64 - k) % 2 ^ 64
      = 4 * prvBytesToWordsRoundUp k - k := by omega
  simp only [zeroPadding, hpad]
  by_cases hpos : 4 * prvBytesToWordsRoundUp k - k > 0
  · rw [if_pos hpos]
    rfl
  · rw [if_neg hpos, show 4 * prvBytesToWordsRoundUp k - k = 0 by omega]
    simp only [Traced.pure_val, List.replicate_zero, Mem.storeBytes_nil]

/-- The read pointer and the completion flag after the update. -/
theorem updateReadPtr_val (q : TicosdQueue) (k : Nat) (hr : q.readPtr < 2 ^ 31) :
    (updateReadPtr { q with buf := endMarked q k, writePtr := startOf q k }
        (decide (q.readPtr = q.writePtr)) (startOf q k + msgWords k)).val =
      { q with
        buf := endMarked q k
        readPtr := newReadPtr q k
        writePtr := startOf q k
        canCompleteRead := if Overruns q k then false else q.canCompleteRead } := by
  simp only [updateReadPtr, newReadPtr]
  by_cases heq : q.readPtr = q.writePtr
  · have hno : ¬ Overruns q k := fun h => h.1 heq
    rw [if_pos (decide_eq_true heq), if_pos heq, if_neg hno, Traced.pure_val]
  · rw [if_neg (by simp only [decide_eq_true_eq]; exact heq), if_neg heq]
    by_cases hov : Overruns q k
    · rw [if_pos ⟨hov.2.1, hov.2.2⟩, if_pos hov, if_pos hov, Traced.bind_val,
        moveReadPtr_val _ _ _ _ hr, Traced.pure_val]
    · rw [if_neg (fun h => hov ⟨heq, h.1, h.2⟩), if_neg hov, if_neg hov, Traced.pure_val]

/-- What `ticosd_queue_write` returns, and the state it leaves. -/
theorem write_val (q : TicosdQueue) (payload : List UInt8)
    (hlen : payload.length + 3 < 2 ^ 32) (hr : q.readPtr < 2 ^ 31) :
    (ticosdQueueWrite q (some payload)).val =
      if Accepts q payload.length then (true, afterWrite q payload) else (false, q) := by
  simp only [ticosdQueueWrite]
  by_cases hzero : payload.length = 0
  · rw [if_pos hzero, if_neg (by rintro ⟨h, -⟩; omega), Traced.pure_val]
  rw [if_neg hzero]
  by_cases hbig : headerLen + prvBytesToWordsRoundUp payload.length > q.size.words
  · rw [if_pos hbig, if_neg (by rintro ⟨-, h⟩; simp only [msgWords] at h; omega),
      Traced.pure_val]
  rw [if_neg hbig, if_pos ⟨by omega, by simp only [msgWords]; omega⟩]
  rw [Traced.bind_val, show headerLen + prvBytesToWordsRoundUp payload.length
    = msgWords payload.length from rfl, addEndMarker_val, Traced.bind_val,
    updateReadPtr_val q _ hr]
  simp only [Traced.bind_val, Traced.storeBytes_val, Traced.pure_val, zeroPadding_val _ _ hlen]
  have hmsg : (((endMarked q payload.length).storeBytes (4 * startOf q payload.length)
        (msgHeader q.prevPtr payload)).storeBytes (4 * startOf q payload.length + 12)
        payload).storeBytes (4 * startOf q payload.length + 12 + payload.length)
        (List.replicate (4 * prvBytesToWordsRoundUp payload.length - payload.length) 0)
      = (endMarked q payload.length).storeBytes (4 * startOf q payload.length)
        (msgBytes q.prevPtr payload) := by
    rw [msgBytes, ← Mem.storeBytes_append, ← Mem.storeBytes_append, List.length_append,
      msgHeader_length, ← Nat.add_assoc]
  rw [hmsg]
  rfl

/-! ## Stores -/

theorem getNextMessage_stores (q : TicosdQueue) (i : Nat) :
    (prvGetNextMessage q i).stores = [] := by
  simp only [prvGetNextMessage, Traced.bind_stores]
  split
  · rfl
  · simp only [Traced.bind_stores]
    split <;> rfl

theorem moveReadPtr_stores (q : TicosdQueue) (writeEnd : Nat) :
    ∀ (fuel i : Nat), (moveReadPtr q writeEnd fuel i).stores = [] := by
  intro fuel
  induction fuel with
  | zero => intro i; rfl
  | succ fuel ih =>
      intro i
      rw [moveReadPtr, Traced.bind_stores, getNextMessage_stores, List.nil_append]
      split
      · rfl
      · exact ih _

/-- The end marker, if the write makes one. -/
def markerStores (q : TicosdQueue) (k : Nat) : List (Nat × List UInt8) :=
  if Wraps q k then [(4 * q.writePtr, le32 endPointer)] else []

/-- The zero padding, if the payload needs any. -/
def paddingStores (s : Nat) (k : Nat) : List (Nat × List UInt8) :=
  if 4 * prvBytesToWordsRoundUp k - k > 0 then
    [(4 * s + 12 + k, List.replicate (4 * prvBytesToWordsRoundUp k - k) 0)]
  else []

theorem addEndMarker_stores (q : TicosdQueue) (k : Nat) :
    (addEndMarker q (msgWords k)).stores = markerStores q k := by
  simp only [addEndMarker, markerStores]
  by_cases hw : Wraps q k
  · rw [if_pos (show q.writePtr + msgWords k > q.size.words from hw), if_pos hw]
    rfl
  · rw [if_neg (show ¬ q.writePtr + msgWords k > q.size.words from hw), if_neg hw]
    rfl

theorem updateReadPtr_stores (q : TicosdQueue) (b : Bool) (writeEnd : Nat) :
    (updateReadPtr q b writeEnd).stores = [] := by
  simp only [updateReadPtr]
  split
  · rfl
  · split
    · rw [Traced.bind_stores, moveReadPtr_stores]
      rfl
    · rfl

theorem zeroPadding_stores (m : Mem) (s : Nat) {k : Nat} (h : k + 3 < 2 ^ 32) :
    (zeroPadding m (4 * s + 12 + k) (prvBytesToWordsRoundUp k) k).stores
      = paddingStores s k := by
  have hw := words_spec h
  have hpad : (prvBytesToWordsRoundUp k * 4 + 2 ^ 64 - k) % 2 ^ 64
      = 4 * prvBytesToWordsRoundUp k - k := by omega
  simp only [zeroPadding, paddingStores, hpad]
  split <;> rfl

/-- The stores of a write, in program order: end marker, header, payload,
    padding. -/
theorem write_stores (q : TicosdQueue) (payload : List UInt8)
    (hlen : payload.length + 3 < 2 ^ 32) (hr : q.readPtr < 2 ^ 31)
    (hacc : Accepts q payload.length) :
    (ticosdQueueWrite q (some payload)).stores =
      markerStores q payload.length
        ++ [(4 * startOf q payload.length, msgHeader q.prevPtr payload),
            (4 * startOf q payload.length + 12, payload)]
        ++ paddingStores (startOf q payload.length) payload.length := by
  simp only [ticosdQueueWrite]
  rw [if_neg (show ¬ payload.length = 0 from by have := hacc.1; omega),
    if_neg (show ¬ headerLen + prvBytesToWordsRoundUp payload.length > q.size.words
      from by have := hacc.2; simp only [msgWords] at this; omega)]
  rw [Traced.bind_stores, show headerLen + prvBytesToWordsRoundUp payload.length
    = msgWords payload.length from rfl, addEndMarker_val, addEndMarker_stores,
    Traced.bind_stores, updateReadPtr_stores, updateReadPtr_val q _ hr]
  simp only [Traced.bind_stores, zeroPadding_stores _ _ hlen, Traced.pure_stores,
    List.append_nil, List.nil_append, Traced.storeBytes, List.append_assoc,
    List.cons_append]

end QueueView
