import Ticosd.QueueScan

/-! # What a write does to any queue

    The other files follow queues that have been filled by the queue functions.  Here the
    buffer holds anything, and the three pointers are any indices inside it: a call of
    `ticosd_queue_write` still ends, and stores its message and the end marker and nothing
    else.

    The one loop of the call walks over lengths that it finds in the buffer.  Its index
    grows whatever they are, or it goes to 0 and the loop ends (`moveReadPtr_ends`). -/

namespace QueueWriteEffect

open ByteStore QueueModel QueueView QueueOverwrite QueueScan

/-! ## The loop -/

/-- A run of the loop of `ticosd_queue_write` from one index to the one it leaves with. -/
inductive MoveEnds (q : TicosdQueue) (writeEnd : Nat) : Nat → Nat → Prop where
  | stop {i : Nat} (h : (prvGetNextMessage q i).val ≥ writeEnd ∨ (prvGetNextMessage q i).val = 0) :
      MoveEnds q writeEnd i (prvGetNextMessage q i).val
  | again {i r : Nat}
      (h : ¬ ((prvGetNextMessage q i).val ≥ writeEnd ∨ (prvGetNextMessage q i).val = 0))
      (hr : MoveEnds q writeEnd (prvGetNextMessage q i).val r) : MoveEnds q writeEnd i r

/-- **The loop ends from every index**, whatever the buffer holds. -/
theorem moveReadPtr_ends (q : TicosdQueue) (writeEnd : Nat) : ∀ (fuel i : Nat),
    i < q.size.words → q.size.words ≤ fuel + i →
      MoveEnds q writeEnd i (moveReadPtr q writeEnd fuel i).val := by
  intro fuel
  induction fuel with
  | zero => intro i hi hfuel; omega
  | succ fuel ih =>
      intro i hi hfuel
      have hle := q.size.words_le
      rw [moveReadPtr, Traced.bind_val]
      by_cases hstop : (prvGetNextMessage q i).val ≥ writeEnd ∨ (prvGetNextMessage q i).val = 0
      · rw [if_pos hstop, Traced.pure_val]
        exact .stop hstop
      · rw [if_neg hstop]
        refine .again hstop (ih _ ?_ ?_)
        · rw [getNextMessage_val q i (by omega)]
          exact nextAt_lt q.size q.buf i
        · -- the index grows by a header at least
          have hval := getNextMessage_val q i (by omega)
          have hne : nextAt q.size.words q.buf i ≠ 0 := by
            rw [← hval]
            exact fun h0 => hstop (Or.inr h0)
          have hgrow := lt_stopAt q.buf i
          rw [hval, (nextAt_forward hne).1]
          omega

/-- Where the loop ends. -/
theorem MoveEnds.range {q : TicosdQueue} {writeEnd i r : Nat} (h : MoveEnds q writeEnd i r)
    (hi : i < q.size.words) : r < q.size.words ∧ (writeEnd ≤ r ∨ r = 0) := by
  have hle := q.size.words_le
  induction h with
  | stop h =>
      refine ⟨?_, h⟩
      rw [getNextMessage_val q _ (by omega)]
      exact nextAt_lt q.size q.buf _
  | @again i r _ _ ih =>
      refine ih ?_
      rw [getNextMessage_val q i (by omega)]
      exact nextAt_lt q.size q.buf i

/-! ## The effect -/

/-- The words of a message with a payload of `k` bytes: header and payload, rounded up. -/
def messageWords (k : Nat) : Nat := 3 + (k + 3) / 4

theorem messageWords_eq {k : Nat} (h : k + 3 < 2 ^ 32) : msgWords k = messageWords k := by
  rw [msgWords, prvBytesToWordsRoundUp, headerLen, messageWords, Nat.mod_eq_of_lt h]

/-- Where the message goes: to the write pointer if it fits there, else to the start. -/
def target (q : TicosdQueue) (k : Nat) : Nat :=
  if q.writePtr + messageWords k ≤ q.size.words then q.writePtr else 0

theorem target_eq (q : TicosdQueue) {k : Nat} (h : k + 3 < 2 ^ 32) : startOf q k = target q k := by
  rw [startOf, target]
  have hw : Wraps q k ↔ ¬ q.writePtr + messageWords k ≤ q.size.words := by
    rw [Wraps, messageWords_eq h]
    omega
  by_cases hfits : q.writePtr + messageWords k ≤ q.size.words
  · rw [if_pos hfits, if_neg (fun h => hw.mp h hfits)]
  · rw [if_neg hfits, if_pos (hw.mpr hfits)]

/-- What a write that returns true has done to the queue. -/
structure Effect (q q' : TicosdQueue) (payload : List UInt8) (s : Nat) : Prop where
  size : q'.size = q.size
  /-- Only the words of the message change, and the word at the old write pointer if the
      message does not fit there. -/
  frame : ∀ a, q'.buf a ≠ q.buf a →
    (4 * s ≤ a ∧ a < 4 * (s + messageWords payload.length)) ∨
      (¬ q.writePtr + messageWords payload.length ≤ q.size.words ∧
        4 * q.writePtr ≤ a ∧ a < 4 * q.writePtr + 4)
  marker : ¬ q.writePtr + messageWords payload.length ≤ q.size.words →
    s + messageWords payload.length ≤ q.writePtr → wordAt q'.buf q.writePtr = endPointer
  fits : s + messageWords payload.length ≤ q.size.words
  magic : q'.buf (4 * s) = headerMagicNumber
  version : q'.buf (4 * s + 1) = headerVersionNumber
  crc : q'.buf (4 * s + 2) = prvQueueCrc8 payload
  flags : q'.buf (4 * s + 3) = 0
  prevHeader : prevAt q'.buf s = q.prevPtr
  payloadSizeBytes : sizeAt q'.buf s = payload.length
  data : q'.buf.loadBytes (4 * s + 12) payload.length = payload
  padding : ∀ a, 4 * s + 12 + payload.length ≤ a → a < 4 * (s + messageWords payload.length) →
    q'.buf a = 0
  prevPtr : q'.prevPtr = s
  writePtr : q'.writePtr = (s + messageWords payload.length) % q.size.words
  readPtr_lt : q'.readPtr < q.size.words
  readPtr : ¬ (s < q'.readPtr ∧ q'.readPtr < s + messageWords payload.length)

/-! ## Its parts -/

section Parts

variable {q : TicosdQueue} {payload : List UInt8}

/-- The padding is part of the message. -/
theorem msgBytes_padding (p : Nat) (hlen : payload.length + 3 < 2 ^ 32) {j : Nat}
    (h1 : 12 + payload.length ≤ j) (h2 : j < 4 * msgWords payload.length) :
    (msgBytes p payload).getD j 0 = 0 := by
  have hw := words_spec hlen
  have hj : j - (msgHeader p payload ++ payload).length
      < 4 * prvBytesToWordsRoundUp payload.length - payload.length := by
    rw [List.length_append, msgHeader_length]
    simp only [msgWords, headerLen] at h2
    omega
  rw [msgBytes, List.getD_append_right _ _ _ _ (by
    rw [List.length_append, msgHeader_length]; omega), List.getD_eq_getElem _ _ (by
    rw [List.length_replicate]; exact hj), List.getElem_replicate]

/-- The end marker stays where the message does not cover it. -/
theorem marker_stays (hlen : payload.length + 3 < 2 ^ 32) (hw : Wraps q payload.length)
    (hout : startOf q payload.length + msgWords payload.length ≤ q.writePtr) :
    wordAt (afterWrite q payload).buf q.writePtr = endPointer := by
  refine Mem.load32_of_le32 (by decide) ?_
  intro i hi
  simp only [afterWrite]
  rw [Mem.storeBytes_frame _ (by rw [msgBytes_length _ hlen]; omega), endMarked, if_pos hw]
  exact Mem.storeBytes_inside _ (by rw [le32_length]; exact hi)

/-- The read pointer does not end up inside the message. -/
theorem newReadPtr_range (hr : q.readPtr < q.size.words) (hw : q.writePtr < q.size.words) (k : Nat) :
    newReadPtr q k < q.size.words ∧
      ¬ (startOf q k < newReadPtr q k ∧ newReadPtr q k < startOf q k + msgWords k) := by
  have hle := q.size.words_le
  have hstart := startOf_le q k
  rw [newReadPtr]
  by_cases heq : q.readPtr = q.writePtr
  · rw [if_pos heq]
    omega
  · rw [if_neg heq]
    by_cases hov : Overruns q k
    · rw [if_pos hov]
      have hends := (moveReadPtr_ends { q with buf := endMarked q k, writePtr := startOf q k }
        (startOf q k + msgWords k) q.size.words q.readPtr hr (Nat.le_add_right _ _)).range hr
      rw [moveReadPtr_val _ _ _ _ (by omega)] at hends
      simp only at hends
      omega
    · rw [if_neg hov]
      refine ⟨hr, ?_⟩
      rintro ⟨h1, h2⟩
      exact hov ⟨heq, h1, h2⟩

/-- **What an accepted write does.** -/
theorem effect_afterWrite (hlen : payload.length + 3 < 2 ^ 32) (hr : q.readPtr < q.size.words)
    (hw : q.writePtr < q.size.words) (hp : q.prevPtr < q.size.words)
    (hacc : Accepts q payload.length) :
    Effect q (afterWrite q payload) payload (target q payload.length) := by
  have hle := q.size.words_le
  have hholds := holds_afterWrite (q := q) hlen (by omega)
  have hfits := startOf_fits q _ hacc
  have hread := newReadPtr_range hr hw payload.length
  have hwraps : ¬ q.writePtr + messageWords payload.length ≤ q.size.words →
      Wraps q payload.length := by
    intro h
    rw [Wraps, messageWords_eq hlen]
    omega
  rw [← target_eq q hlen]
  rw [messageWords_eq hlen] at hfits hread
  -- the stored message has most of the fields; what is left is the frame, the marker, the
  -- flags, the payload, the padding and the new write pointer
  refine ⟨rfl, ?_, ?_, hfits, hholds.magic, hholds.version, hholds.crc, ?_, hholds.link,
    hholds.size, ?_, ?_, rfl, ?_, hread.1, hread.2⟩
  · intro a hne
    by_contra hno
    refine hne (afterWrite_frame hlen ?_ ?_)
    · rw [messageWords_eq hlen]
      omega
    · intro hwr
      rw [Wraps, messageWords_eq hlen] at hwr
      omega
  · intro hnofit hout
    refine marker_stays hlen (hwraps hnofit) ?_
    rw [messageWords_eq hlen]
    exact hout
  · have hbyte := afterWrite_inside (q := q) hlen (j := 3) (by
      simp only [msgWords, headerLen]; omega)
    rw [hbyte]
    rfl
  · have hdata := hholds.data
    rw [payloadAt, hholds.size] at hdata
    exact hdata
  · intro a h1 h2
    rw [← messageWords_eq hlen] at h2
    obtain ⟨j, rfl⟩ := Nat.exists_eq_add_of_le (show 4 * startOf q payload.length ≤ a by omega)
    rw [afterWrite_inside hlen (by omega)]
    exact msgBytes_padding _ hlen (by omega) (by omega)
  · show (startOf q payload.length + msgWords payload.length) % q.size.words = _
    rw [messageWords_eq hlen]

end Parts

/-- **A write is all or nothing, and touches its own region only**: for every queue with
    pointers inside its buffer and every payload. -/
theorem write_all_or_nothing (q : TicosdQueue) (payload : List UInt8)
    (hr : q.readPtr < q.size.words) (hw : q.writePtr < q.size.words)
    (hp : q.prevPtr < q.size.words) (hlen : payload.length < 2 ^ 32 - 3) :
    (∀ (p : TicosdQueue) (writeEnd i : Nat), i < p.size.words →
      MoveEnds p writeEnd i (moveReadPtr p writeEnd p.size.words i).val) ∧
    ((ticosdQueueWrite q (some payload)).val.1 = true ↔
      0 < payload.length ∧ messageWords payload.length ≤ q.size.words) ∧
    ((ticosdQueueWrite q (some payload)).val.1 = false →
      (ticosdQueueWrite q (some payload)).val.2 = q) ∧
    ((ticosdQueueWrite q (some payload)).val.1 = true →
      Effect q (ticosdQueueWrite q (some payload)).val.2 payload (target q payload.length)) := by
  have hle := q.size.words_le
  have hlen' : payload.length + 3 < 2 ^ 32 := by omega
  have hval := write_val q payload hlen' (by omega)
  have hacc : Accepts q payload.length ↔
      0 < payload.length ∧ messageWords payload.length ≤ q.size.words := by
    rw [Accepts, messageWords_eq hlen']
  refine ⟨fun p writeEnd i hi => moveReadPtr_ends p writeEnd _ i hi (Nat.le_add_right _ _), ?_⟩
  rw [hval, ← hacc]
  by_cases h : Accepts q payload.length
  · rw [if_pos h]
    exact ⟨⟨fun _ => h, fun _ => rfl⟩, (fun hno => nomatch hno),
      fun _ => effect_afterWrite hlen' hr hw hp h⟩
  · rw [if_neg h]
    exact ⟨⟨(fun hno => nomatch hno), fun h' => absurd h' h⟩, fun _ => rfl,
      (fun hno => nomatch hno)⟩

/-- A queue of five words with garbage in them, the read pointer inside the message to
    come. -/
def garbageQueue : TicosdQueue where
  size := .ofWords 5 (by decide) (by decide)
  buf := fun a => UInt8.ofNat (7 * a)
  readPtr := 2
  writePtr := 4
  prevPtr := 3
  canCompleteRead := true

theorem write_all_or_nothing_garbage :
    (ticosdQueueWrite garbageQueue (some [1, 2])).val.1 = true ∧
      Effect garbageQueue (ticosdQueueWrite garbageQueue (some [1, 2])).val.2 [1, 2] 0 := by
  obtain ⟨-, htrue, -, heffect⟩ := write_all_or_nothing garbageQueue [1, 2] (by decide) (by decide)
    (by decide) (by decide)
  have h := htrue.mpr (by decide)
  exact ⟨h, heffect h⟩

end QueueWriteEffect
