import Ticosd.QueueRing

/-! # Writing into the ring

    What a write stores and what it leaves alone.  `Holds` says that a message
    stands at an index with all its header fields; a write puts one there, and
    every message it does not touch (`Touches`) stays.

    The main result is `Ring.write`: the chain of the reader after a write is
    what is left of the old chain, with the new message at its end.  It also
    says which of the old messages are gone from the chain: those the write ran
    over, and those it left intact but behind the reader (`LeftBehind`). -/

namespace QueueOverwrite

open ByteStore QueueModel QueueView QueueRing Tiling

/-! ## A stored message -/

/-- The message `payload` stands at index `i`, with the link `prev` and the flag
    `read`. -/
structure Holds (m : Mem) (i prev : Nat) (payload : List UInt8) (read : Bool) : Prop where
  magic : m (4 * i) = headerMagicNumber
  version : m (4 * i + 1) = headerVersionNumber
  crc : m (4 * i + 2) = prvQueueCrc8 payload
  flag : readAt m i = read
  link : prevAt m i = prev
  size : sizeAt m i = payload.length
  data : payloadAt m i = payload

variable {n : Nat} {m m' : Mem} {i prev : Nat} {payload : List UInt8} {read : Bool}

theorem Holds.stop (h : Holds m i prev payload read) :
    stopAt m i = i + msgWords payload.length := by
  rw [stopAt, h.size, msgWords, Nat.add_assoc]

/-- The version byte tells a header from an end marker. -/
theorem Holds.not_end (h : Holds m i prev payload read) : wordAt m i ≠ endPointer := by
  have hb0 := (m (4 * i)).toNat_lt
  have hb1 : (m (4 * i + 1)).toNat = 1 := by rw [h.version]; rfl
  intro he
  simp only [wordAt, Mem.load32, hb1, endPointer] at he
  omega

/-- A stored message depends on its own words only. -/
theorem Holds.congr (h : Holds m i prev payload read) (hlen : payload.length + 3 < 2 ^ 32)
    (ha : AgreeOn m m' i (i + msgWords payload.length)) : Holds m' i prev payload read := by
  have h3 : AgreeOn m m' i (i + 3) :=
    ha.mono (Nat.le_refl _) (by simp only [msgWords, headerLen]; omega)
  refine ⟨?_, ?_, ?_, ?_, ?_, ?_, ?_⟩
  · rw [h3 _ (by omega) (by omega)]
    exact h.magic
  · rw [h3 _ (by omega) (by omega)]
    exact h.version
  · rw [h3 _ (by omega) (by omega)]
    exact h.crc
  · rw [readAt_congr (h3.mono (Nat.le_refl _) (by omega))]
    exact h.flag
  · rw [prevAt_congr (h3.mono (Nat.le_refl _) (by omega))]
    exact h.link
  · rw [sizeAt_congr h3]
    exact h.size
  · rw [payloadAt_congr (by rw [h.size]; exact hlen) (by rw [h.stop]; exact ha)]
    exact h.data

/-- Marking the message changes its flag and nothing else. -/
theorem Holds.markRead_self (h : Holds m i prev payload read) :
    Holds (markRead m i) i prev payload true := by
  refine ⟨?_, ?_, ?_, readAt_markRead_self m i, ?_, ?_, ?_⟩
  · rw [markRead_other m (by omega)]
    exact h.magic
  · rw [markRead_other m (by omega)]
    exact h.version
  · rw [markRead_other m (by omega)]
    exact h.crc
  · rw [← h.link]
    exact Mem.load32_congr (fun a h1 h2 => markRead_other m (by omega))
  · rw [sizeAt_markRead_self]
    exact h.size
  · rw [payloadAt_markRead_self]
    exact h.data

/-- The cell of a message of `k` bytes at index `i`. -/
def cellAt (i k : Nat) : Cell := ⟨i, i + msgWords k⟩

@[simp] theorem cellAt_start (i k : Nat) : (cellAt i k).start = i := rfl
@[simp] theorem cellAt_stop (i k : Nat) : (cellAt i k).stop = i + msgWords k := rfl

theorem cellAt_lt (i k : Nat) : Extent.start (cellAt i k) < Extent.stop (cellAt i k) := by
  simp only [start_cell, stop_cell, cellAt_start, cellAt_stop, msgWords, headerLen]
  omega

theorem Holds.inMem (h : Holds m i prev payload read) (hlen : payload.length + 3 < 2 ^ 32)
    (hfit : i + msgWords payload.length ≤ n) : InMem n m (cellAt i payload.length) := by
  refine ⟨h.stop, fun _ => h.not_end, ?_⟩
  have := words_spec hlen
  rw [cellAt_start, h.size]
  simp only [msgWords, headerLen] at hfit
  omega

/-- Validity is strict about the end of the buffer. -/
theorem Holds.valid_iff (h : Holds m i prev payload read) :
    validAt n m i = true ↔ 4 * i + 12 + payload.length < 4 * n := by
  rw [validAt_iff, h.size, h.data]
  constructor
  · intro hv
    exact hv.1
  · intro hb
    exact ⟨hb, h.magic, h.crc.symm⟩

/-! ## The stores of a write -/

section Write

variable (q : TicosdQueue) (k : Nat)

/-- The write stores to a word of the cell. -/
def Touches (c : Cell) : Prop :=
  (startOf q k < c.stop ∧ c.start < startOf q k + msgWords k) ∨
    (Wraps q k ∧ c.start ≤ q.writePtr ∧ q.writePtr < c.stop)

/-- The write does not store to the cell, and still the reader will not come to
    it any more: the pointers were equal, or the writer wrapped and the cell is
    of the lap it has just ended. -/
def LeftBehind (c : Cell) : Prop :=
  q.readPtr = q.writePtr ∨
    (Wraps q k ∧ (q.readPtr = 0 ∨ (q.writePtr < q.readPtr ∧ c.start < q.writePtr)))

instance (c : Cell) : Decidable (Touches q k c) := inferInstanceAs (Decidable (_ ∨ _))

instance (c : Cell) : Decidable (LeftBehind q k c) := inferInstanceAs (Decidable (_ ∨ _))

theorem startOf_wraps (h : Wraps q k) : startOf q k = 0 := if_pos h

theorem startOf_stays (h : ¬ Wraps q k) : startOf q k = q.writePtr := if_neg h

/-- The message fits where it is stored. -/
theorem startOf_fits (h : Accepts q k) : startOf q k + msgWords k ≤ q.size.words := by
  by_cases hw : Wraps q k
  · rw [startOf_wraps q k hw]
    have := h.2
    omega
  · rw [startOf_stays q k hw]
    have : ¬ q.size.words < q.writePtr + msgWords k := hw
    omega

theorem three_lt_msgWords (h : 0 < k) (hlen : k + 3 < 2 ^ 32) : 3 < msgWords k := by
  have := words_spec hlen
  simp only [msgWords, headerLen]
  omega

end Write

section AfterWrite

variable {q : TicosdQueue} {payload : List UInt8}

/-- A write changes nothing outside the cells it touches. -/
theorem afterWrite_frame (hlen : payload.length + 3 < 2 ^ 32) {a : Nat}
    (h1 : a < 4 * startOf q payload.length ∨
      4 * (startOf q payload.length + msgWords payload.length) ≤ a)
    (h2 : Wraps q payload.length → a < 4 * q.writePtr ∨ 4 * q.writePtr + 4 ≤ a) :
    (afterWrite q payload).buf a = q.buf a := by
  simp only [afterWrite]
  rw [Mem.storeBytes_frame _ (by rw [msgBytes_length _ hlen]; omega), endMarked]
  by_cases hw : Wraps q payload.length
  · rw [if_pos hw, Mem.storeBytes_frame _ (by rw [le32_length]; exact h2 hw)]
  · rw [if_neg hw]

theorem agreeOn_afterWrite (hlen : payload.length + 3 < 2 ^ 32) {c : Cell}
    (h : ¬ Touches q payload.length c) :
    AgreeOn q.buf (afterWrite q payload).buf c.start c.stop := by
  intro a h1 h2
  have hno := not_or.mp h
  refine afterWrite_frame hlen ?_ ?_
  · have := hno.1
    omega
  · intro hw
    have : ¬ (c.start ≤ q.writePtr ∧ q.writePtr < c.stop) := fun hc => hno.2 ⟨hw, hc⟩
    omega

/-- The memory inside the new message. -/
theorem afterWrite_inside (hlen : payload.length + 3 < 2 ^ 32) {j : Nat}
    (h : j < 4 * msgWords payload.length) :
    (afterWrite q payload).buf (4 * startOf q payload.length + j)
      = (msgBytes q.prevPtr payload).getD j 0 := by
  simp only [afterWrite]
  exact Mem.storeBytes_inside _ (by rw [msgBytes_length _ hlen]; exact h)

/-- The size in a header. -/
theorem sizeAt_header (hlen : payload.length < 2 ^ 32)
    (hbytes : ∀ j < 12, m (4 * i + j) = (msgHeader prev payload).getD j 0) :
    sizeAt m i = payload.length := by
  refine Mem.load32_of_le32 hlen ?_
  intro j hj
  rw [Nat.add_assoc, hbytes (8 + j) (by omega)]
  match j, hj with
  | 0, _ => rfl
  | 1, _ => rfl
  | 2, _ => rfl
  | 3, _ => rfl

/-- A header in memory, and a payload behind it that has the checksum. -/
theorem holds_of_header {data : List UInt8} (hprev : prev < 2 ^ 32)
    (hbytes : ∀ j < 12, m (4 * i + j) = (msgHeader prev payload).getD j 0)
    (hdata : payloadAt m i = data) (hcrc : prvQueueCrc8 data = prvQueueCrc8 payload) :
    Holds m i prev data false := by
  have hlink : prevAt m i = prev := by
    refine Mem.load32_of_le32 hprev ?_
    intro j hj
    rw [Nat.add_assoc, hbytes (4 + j) (by omega)]
    match j, hj with
    | 0, _ => rfl
    | 1, _ => rfl
    | 2, _ => rfl
    | 3, _ => rfl
  have hsize : sizeAt m i = data.length := by rw [← hdata, payloadAt, Mem.loadBytes_length]
  refine ⟨hbytes 0 (by omega), hbytes 1 (by omega), (hbytes 2 (by omega)).trans hcrc.symm, ?_,
    hlink, hsize, hdata⟩
  rw [readAt, hbytes 3 (by omega), show (msgHeader prev payload).getD 3 0 = 0 from rfl]
  decide

/-- **The new message stands at its place.** -/
theorem holds_afterWrite (hlen : payload.length + 3 < 2 ^ 32) (hprev : q.prevPtr < 2 ^ 32) :
    Holds (afterWrite q payload).buf (startOf q payload.length) q.prevPtr payload false := by
  have h12 : 12 ≤ 4 * msgWords payload.length := by simp only [msgWords, headerLen]; omega
  have hbytes : ∀ j < 12, (afterWrite q payload).buf (4 * startOf q payload.length + j)
      = (msgHeader q.prevPtr payload).getD j 0 := by
    intro j hj
    rw [afterWrite_inside hlen (by omega), msgBytes, List.append_assoc,
      List.getD_append _ _ _ _ (by rw [msgHeader_length]; exact hj)]
  refine holds_of_header hprev hbytes ?_ rfl
  rw [payloadAt, sizeAt_header (by omega) hbytes]
  simp only [afterWrite, msgBytes]
  rw [← Mem.storeBytes_append, ← Mem.storeBytes_append, msgHeader_length,
    Mem.loadBytes_congr (fun a h1 h2 => Mem.storeBytes_frame _ (Or.inl (by
      rw [List.length_append, msgHeader_length]; omega)))]
  exact Mem.loadBytes_storeBytes _ _ _

/-- The new message is a cell in memory. -/
theorem inMem_afterWrite (hacc : Accepts q payload.length)
    (hlen : payload.length + 3 < 2 ^ 32) (hprev : q.prevPtr < 2 ^ 32) :
    InMem q.size.words (afterWrite q payload).buf
      (cellAt (startOf q payload.length) payload.length) :=
  (holds_afterWrite hlen hprev).inMem hlen (startOf_fits q _ hacc)

/-- A cell the write does not touch stays in memory. -/
theorem InMem.afterWrite {c : Cell} (h : InMem q.size.words q.buf c)
    (hlen : payload.length + 3 < 2 ^ 32) (hno : ¬ Touches q payload.length c) :
    InMem q.size.words (afterWrite q payload).buf c :=
  h.congr (agreeOn_afterWrite hlen hno)

/-- The end marker alone leaves the cells that do not contain it. -/
theorem InMem.endMarked {c : Cell} (h : InMem q.size.words q.buf c) {k : Nat}
    (hno : Wraps q k → ¬ (c.start ≤ q.writePtr ∧ q.writePtr < c.stop)) :
    InMem q.size.words (endMarked q k) c := by
  refine h.congr ?_
  intro a h1 h2
  rw [QueueView.endMarked]
  by_cases hw : Wraps q k
  · have := hno hw
    rw [if_pos hw]
    exact Mem.storeBytes_frame _ (by rw [le32_length]; omega)
  · rw [if_neg hw]

end AfterWrite

/-! ## The chain after a write -/

section Ring

variable {q : TicosdQueue} {payload : List UInt8} {passed pending : List Cell}

/-- The messages of the current lap lie between index 0 and the writer. -/
theorem Ring.lap {r w : Nat} (h : Ring n m r w passed pending) :
    ∃ lap, Tiles 0 lap w ∧ ∀ c ∈ lap, c ∈ passed ++ pending := by
  rcases h with h | ⟨tail, lap, rfl, h⟩
  · exact ⟨passed ++ pending, tiles_append.mpr ⟨r, h.before, h.tiles⟩, fun c hc => hc⟩
  · exact ⟨lap, h.tiles, fun c hc => by simp [hc]⟩

/-- The write leaves alone a stretch of cells that ends where the message begins. -/
theorem not_touches_before {k a : Nat} {cs : List Cell} (hle : startOf q k ≤ q.writePtr)
    (ht : Tiles a cs (startOf q k)) : ∀ c ∈ cs, ¬ Touches q k c := by
  intro c hc
  have hb := ht.bounds hc
  simp only [start_cell, stop_cell] at hb
  rintro (h | h)
  · omega
  · omega

theorem startOf_le (q : TicosdQueue) (k : Nat) : startOf q k ≤ q.writePtr := by
  rw [startOf]
  split <;> omega

/-- The read pointer after a write into the tail of a lap. -/
theorem newReadPtr_skip {k e : Nat} {tail : List Cell} (hne : tail ≠ [])
    (ht : Tiles q.readPtr tail e) (he : AtEnd q.size.words (endMarked q k) e)
    (hmem : ∀ c ∈ tail, InMem q.size.words (endMarked q k) c)
    (hrw : q.readPtr ≠ q.writePtr) (hs : startOf q k < q.readPtr) :
    newReadPtr q k = firstStart (dropBelow (startOf q k + msgWords k) tail) := by
  rw [← skip_or_stay q.size.words_le hne ht he hmem, newReadPtr, if_neg hrw]
  by_cases hlt : q.readPtr < startOf q k + msgWords k
  · rw [if_pos hlt, if_pos ⟨hrw, hs, hlt⟩]
  · rw [if_neg hlt, if_neg (fun h => hlt h.2.2)]

/-- **Running into the tail**: the new message follows `lap`, the messages of the
    tail that begin inside it are gone, and the reader stands on the first one
    that is left. -/
theorem ring_skip {e : Nat} {tail lap : List Cell} (hacc : Accepts q payload.length)
    (hlen : payload.length + 3 < 2 ^ 32) (hprev : q.prevPtr < 2 ^ 32)
    (hlap : Tiles 0 lap (startOf q payload.length))
    (hlapmem : ∀ c ∈ lap, InMem q.size.words q.buf c) (hne : tail ≠ [])
    (ht : Tiles q.readPtr tail e) (hmem : ∀ c ∈ tail, InMem q.size.words q.buf c)
    (he : AtEnd q.size.words (endMarked q payload.length) e)
    (hmark : Wraps q payload.length → ∀ c ∈ tail,
      ¬ (c.start ≤ q.writePtr ∧ q.writePtr < c.stop))
    (hrw : q.readPtr ≠ q.writePtr) (hs : startOf q payload.length < q.readPtr) :
    Ring q.size.words (afterWrite q payload).buf (afterWrite q payload).readPtr
      (afterWrite q payload).writePtr []
      (dropBelow (startOf q payload.length + msgWords payload.length) tail ++ lap
        ++ [cellAt (startOf q payload.length) payload.length]) := by
  have hpos : 0 < q.size.words := by have := q.size.four_le_words; omega
  have hnew := inMem_afterWrite hacc hlen hprev
  have hfit := startOf_fits q _ hacc
  have hlap' : ∀ c ∈ lap, InMem q.size.words (afterWrite q payload).buf c :=
    fun c hc => InMem.afterWrite (hlapmem c hc) hlen
      (not_touches_before (startOf_le q _) hlap c hc)
  have hread : (afterWrite q payload).readPtr
      = firstStart (dropBelow (startOf q payload.length + msgWords payload.length) tail) :=
    newReadPtr_skip hne ht he
      (fun c hc => InMem.endMarked (hmem c hc) (fun hw => hmark hw c hc)) hrw hs
  have hlapnew : Tiles 0 (lap ++ [cellAt (startOf q payload.length) payload.length])
      (startOf q payload.length + msgWords payload.length) :=
    tiles_snoc.mpr ⟨hlap, cellAt_lt _ _, rfl⟩
  have hmemnew : ∀ c ∈ lap ++ [cellAt (startOf q payload.length) payload.length],
      InMem q.size.words (afterWrite q payload).buf c := by
    intro c hc
    rcases List.mem_append.mp hc with hc | hc
    · exact hlap' c hc
    · rw [List.mem_singleton.mp hc]
      exact hnew
  obtain ⟨pre, b, hsplit, -, -, hkept, hge⟩ :=
    ht.dropBelow_spec (startOf q payload.length + msgWords payload.length)
  rw [hread, List.append_assoc]
  generalize hdrop : dropBelow (startOf q payload.length + msgWords payload.length) tail = kept
    at *
  cases kept with
  | nil =>
      -- nothing of the tail is left: the reader starts over with the lap
      exact Ring.ofTiles rfl hlapnew hpos hfit (by simp) (by simpa using hmemnew)
  | cons c cs =>
      have hc : c.start = b := hkept.head_start
      have hcge : startOf q payload.length + msgWords payload.length ≤ c.start := by
        rw [hc]
        exact hge (by simp)
      have hmemkept : ∀ d ∈ c :: cs, d ∈ tail := by
        intro d hd
        rw [hsplit]
        exact List.mem_append_right _ hd
      have hcfit := (hmem c (hmemkept c (by simp))).fits
      have hkept' : ∀ d ∈ c :: cs, InMem q.size.words (afterWrite q payload).buf d := by
        intro d hd
        have hb := hkept.bounds hd
        simp only [start_cell, stop_cell] at hb
        refine InMem.afterWrite (hmem d (hmemkept d hd)) hlen ?_
        rintro (h | h)
        · omega
        · exact hmark h.1 d (hmemkept d hd) h.2
      have hlt : startOf q payload.length + msgWords payload.length < q.size.words := by omega
      have hw : (afterWrite q payload).writePtr
          = startOf q payload.length + msgWords payload.length := Nat.mod_eq_of_lt hlt
      have hbe := hkept.lt_of_ne_nil (by simp)
      refine Or.inr ⟨c :: cs, _, rfl, by simp, ⟨e, ?_, ?_⟩, ?_, ?_, ?_, ?_, ?_⟩
      · rw [firstStart, hc]
        exact hkept
      · refine he.congr (Or.inr ?_)
        intro a h1 h2
        simp only [afterWrite]
        exact Mem.storeBytes_frame _ (by rw [msgBytes_length _ hlen]; omega)
      · rw [hw]
        exact hcge
      · rw [hw]
        exact hlapnew
      · intro h
        simp at h
      · intro _
        rfl
      · intro d hd
        rw [List.nil_append] at hd
        rcases List.mem_append.mp hd with hd | hd
        · exact hkept' d hd
        · exact hmemnew d hd

/-- What a write makes of the chain: `kept` is what is left of `pending`, and
    `passed'` lies behind the reader. -/
structure Rewrites (q : TicosdQueue) (payload : List UInt8)
    (passed pending passed' kept : List Cell) : Prop where
  ring : Ring q.size.words (afterWrite q payload).buf (afterWrite q payload).readPtr
    (afterWrite q payload).writePtr passed'
    (kept ++ [cellAt (startOf q payload.length) payload.length])
  sublist : kept.Sublist pending
  suffix : (∀ c ∈ pending, ¬ LeftBehind q payload.length c) → kept <:+ pending
  kept_intact : ∀ c ∈ kept, ¬ Touches q payload.length c
  passed_intact : ∀ c ∈ passed', c ∈ passed ++ pending ∧ ¬ Touches q payload.length c
  passed_old : q.readPtr ≠ q.writePtr → ∀ c ∈ passed', c ∈ passed
  dropped : ∀ c ∈ pending, c ∉ kept →
    Touches q payload.length c ∨ LeftBehind q payload.length c

/-- A write that leaves nothing of the chain and stores behind `base`. -/
theorem rewrites_restart {base : List Cell} (hacc : Accepts q payload.length)
    (hlen : payload.length + 3 < 2 ^ 32) (hprev : q.prevPtr < 2 ^ 32)
    (hmem : ∀ c ∈ passed ++ pending, InMem q.size.words q.buf c)
    (hbase : Tiles 0 base (startOf q payload.length))
    (hsub : ∀ c ∈ base, c ∈ passed ++ pending)
    (hread : (afterWrite q payload).readPtr = startOf q payload.length)
    (hold : q.readPtr ≠ q.writePtr → base = [])
    (hdrop : ∀ c ∈ pending, Touches q payload.length c ∨ LeftBehind q payload.length c) :
    Rewrites q payload passed pending base [] := by
  have hpos : 0 < q.size.words := by have := q.size.four_le_words; omega
  have hnew := inMem_afterWrite hacc hlen hprev
  have hno := not_touches_before (startOf_le q payload.length) hbase
  refine ⟨?_, List.nil_sublist _, (fun _ => List.nil_suffix), (fun c hc => nomatch hc),
    fun c hc => ⟨hsub c hc, hno c hc⟩, ?_, fun c hc _ => hdrop c hc⟩
  · rw [hread]
    refine Ring.ofTiles hbase ⟨rfl, cellAt_lt _ _, rfl⟩ hpos
      (startOf_fits q _ hacc) (by simp) ?_
    intro c hc
    rcases List.mem_append.mp hc with hc | hc
    · exact InMem.afterWrite (hmem c (hsub c hc)) hlen (hno c hc)
    · rw [List.nil_append, List.mem_singleton] at hc
      rw [hc]
      exact hnew
  · intro hne c hc
    rw [hold hne] at hc
    exact nomatch hc

/-- A write that runs into the tail keeps what does not begin inside the new
    message. -/
theorem rewrites_skip {e : Nat} (tail lap : List Cell) (hacc : Accepts q payload.length)
    (hlen : payload.length + 3 < 2 ^ 32) (hprev : q.prevPtr < 2 ^ 32)
    (hlap : Tiles 0 lap (startOf q payload.length))
    (hmem : ∀ c ∈ tail ++ lap, InMem q.size.words q.buf c) (hne : tail ≠ [])
    (ht : Tiles q.readPtr tail e)
    (he : AtEnd q.size.words (endMarked q payload.length) e)
    (hmark : Wraps q payload.length → ∀ c ∈ tail,
      ¬ (c.start ≤ q.writePtr ∧ q.writePtr < c.stop))
    (hrw : q.readPtr ≠ q.writePtr) (hs : startOf q payload.length < q.readPtr)
    (hsub : (tail ++ lap).Sublist pending)
    (hall : (∀ c ∈ pending, ¬ LeftBehind q payload.length c) → pending = tail ++ lap)
    (hdrop : ∀ c ∈ pending, c ∉ tail ++ lap →
      Touches q payload.length c ∨ LeftBehind q payload.length c) :
    Rewrites q payload passed pending []
      (dropBelow (startOf q payload.length + msgWords payload.length) tail ++ lap) := by
  have hlapno := not_touches_before (startOf_le q payload.length) hlap
  have hdsub := dropBelow_sublist (startOf q payload.length + msgWords payload.length) tail
  refine ⟨ring_skip hacc hlen hprev hlap (fun c hc => hmem c (List.mem_append_right _ hc)) hne
    ht (fun c hc => hmem c (List.mem_append_left _ hc)) he hmark hrw hs,
    (hdsub.append_right lap).trans hsub, ?_, ?_, (fun c hc => nomatch hc),
    (fun _ c hc => nomatch hc), ?_⟩
  · intro hleft
    obtain ⟨pre, hpre⟩ :=
      dropBelow_suffix (startOf q payload.length + msgWords payload.length) tail
    refine ⟨pre, ?_⟩
    rw [hall hleft, ← List.append_assoc, hpre]
  · intro c hc
    rcases List.mem_append.mp hc with hc | hc
    · have hge := ht.le_start_of_mem_dropBelow hc
      simp only [start_cell] at hge
      rintro (h | h)
      · omega
      · exact hmark h.1 c (hdsub.subset hc) h.2
    · exact hlapno c hc
  · intro c hc hno
    by_cases hin : c ∈ tail ++ lap
    · rcases List.mem_append.mp hin with hct | hcl
      · have hlt := ht.start_lt_of_not_mem_dropBelow hct
          (fun h => hno (List.mem_append_left _ h))
        have hb := ht.bounds hct
        simp only [start_cell, stop_cell] at hlt hb
        exact Or.inl (Or.inl ⟨by omega, hlt⟩)
      · exact absurd (List.mem_append_right _ hcl) hno
    · exact hdrop c hc hin

/-- The end of a straight chain becomes the end of a lap when the writer wraps. -/
theorem atEnd_endMarked {k : Nat} (hw : Wraps q k) :
    AtEnd q.size.words (endMarked q k) q.writePtr := by
  refine Or.inr (Mem.load32_of_le32 (by decide) ?_)
  intro j hj
  rw [endMarked, if_pos hw]
  exact Mem.storeBytes_inside _ hj

/-- **Writing**: every write turns the chain into what is left of it followed by
    the new message. -/
theorem Ring.write
    (h : Ring q.size.words q.buf q.readPtr q.writePtr passed pending)
    (hacc : Accepts q payload.length) (hlen : payload.length + 3 < 2 ^ 32)
    (hprev : q.prevPtr < 2 ^ 32) :
    ∃ passed' kept, Rewrites q payload passed pending passed' kept := by
  have hmem := h.mem
  by_cases heq : q.readPtr = q.writePtr
  · -- empty or full: the reader moves along with the write
    have hread : (afterWrite q payload).readPtr = startOf q payload.length := by
      simp only [afterWrite, newReadPtr, if_pos heq]
    have hdrop : ∀ c ∈ pending, Touches q payload.length c ∨ LeftBehind q payload.length c :=
      fun c _ => Or.inr (Or.inl heq)
    by_cases hw : Wraps q payload.length
    · exact ⟨[], [], rewrites_restart hacc hlen hprev hmem (startOf_wraps q _ hw).symm
        (fun _ hc => absurd hc List.not_mem_nil) hread (fun _ => rfl) hdrop⟩
    · obtain ⟨lap, hlap, hsub⟩ := Ring.lap h
      refine ⟨lap, [], rewrites_restart hacc hlen hprev hmem ?_ hsub hread
        (fun hne => absurd heq hne) hdrop⟩
      rw [startOf_stays q _ hw]
      exact hlap
  · rcases h with h | ⟨tail, lap, rfl, h⟩
    · have hne : pending ≠ [] := by
        intro hnil
        have ht := h.tiles
        rw [hnil] at ht
        exact heq ht
      have hrw := h.tiles.lt_of_ne_nil hne
      by_cases hw : Wraps q payload.length
      · have hs := startOf_wraps q _ hw
        by_cases hr : q.readPtr = 0
        · -- the reader stands where the new message goes
          refine ⟨[], [], rewrites_restart hacc hlen hprev hmem hs.symm
            (fun _ hc => absurd hc List.not_mem_nil) ?_ (fun _ => rfl)
            (fun c _ => Or.inr (Or.inr ⟨hw, Or.inl hr⟩))⟩
          have hno : ¬ Overruns q payload.length := fun ho => by have := ho.2.1; omega
          show newReadPtr q payload.length = _
          rw [newReadPtr, if_neg heq, if_neg hno, hr, hs]
        · refine ⟨[], _, rewrites_skip pending [] hacc hlen hprev hs.symm ?_ hne h.tiles
            (atEnd_endMarked hw) ?_ heq (by omega) (by simp)
            (fun _ => (List.append_nil _).symm) (by simp_all)⟩
          · intro c hc
            exact hmem c (by simp only [List.append_nil] at hc; simp [hc])
          · intro _ c hc hin
            have hb := h.tiles.bounds hc
            simp only [start_cell, stop_cell] at hb
            omega
      · -- the common case: the new message follows the chain
        have hs := startOf_stays q _ hw
        have hno : ¬ Overruns q payload.length := fun ho => by have := ho.2.1; omega
        have hread : (afterWrite q payload).readPtr = q.readPtr := by
          simp only [afterWrite, newReadPtr, if_neg heq, if_neg hno]
        have hpos : 0 < q.size.words := by have := q.size.four_le_words; omega
        have hnew := inMem_afterWrite hacc hlen hprev
        have hall : ∀ c ∈ passed ++ pending, ¬ Touches q payload.length c :=
          not_touches_before (startOf_le q _)
            (by rw [hs]; exact tiles_append.mpr ⟨_, h.before, h.tiles⟩)
        refine ⟨passed, pending, ?_, List.Sublist.refl _, fun _ => List.suffix_refl _,
          fun c hc => hall c (List.mem_append_right _ hc),
          fun c hc => ⟨List.mem_append_left _ hc, hall c (List.mem_append_left _ hc)⟩,
          fun _ c hc => hc,
          fun c hc hno => absurd hc hno⟩
        rw [hread]
        refine Ring.ofTiles h.before (tiles_snoc.mpr ⟨by rw [start_cell, cellAt_start, hs]; exact h.tiles,
          cellAt_lt _ _, rfl⟩) hpos
          (startOf_fits q _ hacc) (by simp) ?_
        intro c hc
        rw [← List.append_assoc] at hc
        rcases List.mem_append.mp hc with hc | hc
        · exact InMem.afterWrite (hmem c hc) hlen (hall c hc)
        · rw [List.mem_singleton.mp hc]
          exact hnew
    · obtain ⟨e, ht, he⟩ := h.ends
      have hle := h.le
      have hre := ht.lt_of_ne_nil h.ne
      have hmark : ∀ c ∈ tail, ¬ (c.start ≤ q.writePtr ∧ q.writePtr < c.stop) := by
        intro c hc hin
        have hb := ht.bounds hc
        simp only [start_cell, stop_cell] at hb
        omega
      have he' : AtEnd q.size.words (endMarked q payload.length) e := by
        refine he.congr (Or.inr ?_)
        intro a h1 h2
        rw [endMarked]
        split
        · exact Mem.storeBytes_frame _ (by rw [le32_length]; omega)
        · rfl
      by_cases hw : Wraps q payload.length
      · have hs := startOf_wraps q _ hw
        have hlap : ∀ c ∈ lap, LeftBehind q payload.length c := by
          intro c hc
          have hb := h.tiles.bounds hc
          simp only [start_cell, stop_cell] at hb
          exact Or.inr ⟨hw, Or.inr ⟨by omega, by omega⟩⟩
        refine ⟨[], _, rewrites_skip tail [] hacc hlen hprev hs.symm ?_ h.ne ht he'
          (fun _ => hmark) heq (by omega) (by simp) ?_ ?_⟩
        · intro c hc
          exact hmem c (by simp only [List.append_nil] at hc; simp [hc])
        · intro hleft
          have hnil : lap = [] := List.eq_nil_iff_forall_not_mem.mpr
            (fun c hc => hleft c (List.mem_append_right _ hc) (hlap c hc))
          rw [hnil]
        · intro c hc hno
          rw [List.append_nil] at hno
          exact Or.inr (hlap c ((List.mem_append.mp hc).resolve_left hno))
      · have hs := startOf_stays q _ hw
        refine ⟨[], _, rewrites_skip tail lap hacc hlen hprev (by rw [hs]; exact h.tiles)
          (fun c hc => hmem c (List.mem_append_right _ hc)) h.ne ht he' (fun _ => hmark) heq
          (by omega) (List.Sublist.refl _) (fun _ => rfl) (fun c hc hno => absurd hc hno)⟩

end Ring

/-! ## The shape of a queue -/

/-- The ring together with the rest of the handle: the last message of the chain
    is the one at `prev_ptr`; with an empty chain the last written message is
    read, or there is none; a read can only be completed while the chain has a
    message. -/
structure Shape (q : TicosdQueue) (passed pending : List Cell) : Prop where
  ring : Ring q.size.words q.buf q.readPtr q.writePtr passed pending
  last : ∀ c, pending.getLast? = some c → c.start = q.prevPtr
  idle : pending = [] → validAt q.size.words q.buf q.writePtr = false ∨
    readAt q.buf q.prevPtr = true
  prev_lt : q.prevPtr < q.size.words
  flag : q.canCompleteRead = true → pending ≠ []

section Shape

variable {q : TicosdQueue} {payload : List UInt8} {passed pending : List Cell}

theorem Shape.writePtr_lt (h : Shape q passed pending) : q.writePtr < q.size.words := by
  rcases h.ring with hr | ⟨tail, lap, -, hr⟩
  · exact hr.lt
  · obtain ⟨e, ht, -⟩ := hr.ends
    obtain ⟨c, hc⟩ := List.exists_mem_of_ne_nil tail hr.ne
    have hb := ht.bounds hc
    have hf := (hr.mem c (by simp [hc])).fits
    have hle := hr.le
    simp only [start_cell, stop_cell] at hb
    omega

theorem Shape.readPtr_lt (h : Shape q passed pending) : q.readPtr < q.size.words := by
  cases pending with
  | nil =>
      have := (ring_nil h.ring).1
      have := h.writePtr_lt
      omega
  | cons c cs =>
      obtain ⟨hs, hm⟩ := ring_cons h.ring
      have := hm.fits
      omega

theorem Shape.readPtr_small (h : Shape q passed pending) : q.readPtr < 2 ^ 31 := by
  have := h.readPtr_lt
  have := q.size.words_le
  omega

theorem Shape.prevPtr_small (h : Shape q passed pending) : q.prevPtr < 2 ^ 32 := by
  have := h.prev_lt
  have := q.size.words_le
  omega

/-- The handle after a `ticosd_queue_complete_read` that returned true. -/
def afterComplete (q : TicosdQueue) : TicosdQueue :=
  { q with
    buf := markRead q.buf q.readPtr
    readPtr := nextAt q.size.words (markRead q.buf q.readPtr) q.readPtr
    canCompleteRead := false }

/-- **Completing** keeps the shape. -/
theorem Shape.complete {c : Cell} {rest : List Cell} (h : Shape q passed (c :: rest))
    (hok : c.stop = q.writePtr → wordAt q.buf q.writePtr ≠ endPointer) :
    ∃ passed', Shape (afterComplete q) passed' rest ∧ ∀ d ∈ passed', d ∈ passed ∨ d = c := by
  obtain ⟨passed', hring, hsub⟩ := Ring.complete h.ring hok
  refine ⟨passed', ⟨hring, ?_, ?_, h.prev_lt, fun hf => nomatch hf⟩, hsub⟩
  · intro d hd
    refine h.last d ?_
    rw [List.getLast?_cons, hd]
    rfl
  · intro hnil
    subst hnil
    refine Or.inr ?_
    show readAt (markRead q.buf q.readPtr) q.prevPtr = true
    rw [← h.last c rfl, (ring_cons h.ring).1]
    exact readAt_markRead_self _ _

/-- **Writing** keeps the shape. -/
theorem Rewrites.shape {passed' kept : List Cell}
    (h : Rewrites q payload passed pending passed' kept) (hacc : Accepts q payload.length)
    (hlen : payload.length + 3 < 2 ^ 32) :
    Shape (afterWrite q payload) passed'
      (kept ++ [cellAt (startOf q payload.length) payload.length]) := by
  refine ⟨h.ring, ?_, ?_, ?_, ?_⟩
  · intro c hc
    rw [List.getLast?_concat] at hc
    rw [← Option.some.inj hc]
    rfl
  · intro hnil
    exact absurd hnil (by simp)
  · have := startOf_fits q _ hacc
    have := three_lt_msgWords payload.length hacc.1 hlen
    show startOf q payload.length < q.size.words
    omega
  · intro _
    simp

/-- The flag may be set while the chain has a message. -/
theorem Shape.setFlag (h : Shape q passed pending) (hne : pending ≠ []) :
    Shape { q with canCompleteRead := true } passed pending :=
  ⟨h.ring, h.last, h.idle, h.prev_lt, fun _ => hne⟩

end Shape

end QueueOverwrite
