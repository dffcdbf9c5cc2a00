import Ticosd.QueueScan

/-! # Bounds — which bytes the queue touches

    Every function of `QueueModel` records the bytes it reads and the stores it
    makes, so "inside the buffer" is a statement about the code as it runs.  The
    buffer may come from a file with any content: `InitOk` says what the search
    at start of day needs of it, and from there on the shape of the queue
    (`QueueOverwrite.Shape`) keeps every operation inside, as long as the steps
    meet the conditions that the code does not check. -/

namespace QueueBounds

open ByteStore QueueModel QueueView QueueRing QueueOverwrite QueueRun QueueScan Tiling
  GuardedRun Traced

variable {q : TicosdQueue} {i n : Nat} {m : Mem} {passed pending : List Cell}

/-! ## The auxiliary functions -/

theorem inBounds_isMsgInBounds (h : i + 3 ≤ q.size.words) :
    (prvIsMsgInBounds q i).InBounds q.size.bytes := by
  rw [prvIsMsgInBounds, inBounds_bind, inBounds_load32, q.size.bytes_eq]
  exact ⟨by omega, inBounds_pure _ _⟩

theorem inBounds_isMsgRead (h : i < q.size.words) :
    (prvIsMsgRead q i).InBounds q.size.bytes := by
  rw [prvIsMsgRead, inBounds_bind, inBounds_load8, q.size.bytes_eq]
  exact ⟨by omega, inBounds_pure _ _⟩

/-- The validity check reads the header before it knows that there is room for
    one. -/
theorem inBounds_isMsgValid (h : i + 3 ≤ q.size.words) :
    (prvIsMsgValid q i).InBounds q.size.bytes := by
  rw [prvIsMsgValid, inBounds_bind]
  refine ⟨inBounds_isMsgInBounds h, ?_⟩
  rw [isMsgInBounds_val]
  by_cases hb : 4 * i + 12 + sizeAt q.buf i < q.size.bytes
  · rw [if_neg (by simpa using hb), inBounds_bind, inBounds_load8]
    refine ⟨by omega, ?_⟩
    split
    · exact inBounds_pure _ _
    · rw [inBounds_bind, inBounds_load32, inBounds_bind, inBounds_bind, inBounds_load8]
      refine ⟨by omega, inBounds_loadBytes ?_, by omega, ?_⟩
      · rw [load32_val]
        exact Nat.le_of_lt hb
      · split
        · exact inBounds_pure _ _
        · exact inBounds_pure _ _
  · rw [if_pos (by simpa using hb)]
    exact inBounds_pure _ _

theorem inBounds_getNextMessage (h : i + 3 ≤ q.size.words) :
    (prvGetNextMessage q i).InBounds q.size.bytes := by
  have hbytes := q.size.bytes_eq
  rw [prvGetNextMessage, inBounds_bind, inBounds_load32]
  refine ⟨by omega, ?_⟩
  dsimp only
  split
  · exact inBounds_pure _ _
  · rename_i hge
    rw [inBounds_bind, inBounds_load32]
    refine ⟨by omega, ?_⟩
    split
    · exact inBounds_pure _ _
    · exact inBounds_pure _ _

/-- A cell has room for its header. -/
theorem header_fits {c : Cell} (h : InMem n m c) : c.start + 3 ≤ n := by
  have := h.fits
  omega

/-- The move of the read pointer stays on the cells of the tail. -/
theorem inBounds_moveReadPtr (q : TicosdQueue) (writeEnd : Nat) {e : Nat} :
    ∀ (cs : List Cell) (c : Cell) (fuel : Nat), Tiles c.start (c :: cs) e →
      AtEnd q.size.words q.buf e → (∀ d ∈ c :: cs, InMem q.size.words q.buf d) →
      (moveReadPtr q writeEnd fuel c.start).InBounds q.size.bytes := by
  have hn := q.size.words_le
  intro cs
  induction cs with
  | nil =>
      intro c fuel ht he hmem
      have hc := hmem c List.mem_cons_self
      have hfit := header_fits hc
      cases fuel with
      | zero => exact inBounds_pure _ _
      | succ fuel =>
          have hnext : nextAt q.size.words q.buf c.start = 0 :=
            nextAt_atEnd (hc.stop_eq.trans ht.2.2) he
          rw [moveReadPtr, inBounds_bind, getNextMessage_val q _ (by omega), hnext,
            if_pos (Or.inr rfl)]
          exact ⟨inBounds_getNextMessage hfit, inBounds_pure _ _⟩
  | cons d ds ih =>
      intro c fuel ht he hmem
      have hc := hmem c List.mem_cons_self
      have hd := hmem d (by simp)
      have hfit := header_fits hc
      cases fuel with
      | zero => exact inBounds_pure _ _
      | succ fuel =>
          rw [moveReadPtr, inBounds_bind, getNextMessage_val q _ (by omega),
            nextAt_tiles ht hc hd]
          refine ⟨inBounds_getNextMessage hfit, ?_⟩
          split
          · exact inBounds_pure _ _
          · have hstart : d.start = c.stop := ht.2.2.1
            refine ih d fuel ?_ he (fun x hx => hmem x (List.mem_cons_of_mem _ hx))
            rw [hstart]
            exact ht.2.2

/-! ## The operations -/

/-- The tail that a write runs into, as it is once the end marker is stored. -/
theorem overrun_tail {k : Nat}
    (h : Ring q.size.words q.buf q.readPtr q.writePtr passed pending) (hov : Overruns q k) :
    ∃ c cs e, c.start = q.readPtr ∧ Tiles q.readPtr (c :: cs) e ∧
      AtEnd q.size.words (endMarked q k) e ∧
      ∀ d ∈ c :: cs, InMem q.size.words (endMarked q k) d := by
  obtain ⟨hrw, hs, hlt⟩ := hov
  have hle := startOf_le q k
  rcases h with h | ⟨tail, lap, -, h⟩
  · -- the writer wraps and comes from behind
    have hne : pending ≠ [] := by
      intro hnil
      have ht := h.tiles
      rw [hnil] at ht
      exact hrw ht
    have hltw := h.tiles.lt_of_ne_nil hne
    have hw : Wraps q k := by
      by_contra hno
      rw [startOf_stays q k hno] at hs
      omega
    cases pending with
    | nil => exact absurd rfl hne
    | cons c cs =>
        refine ⟨c, cs, _, h.tiles.head_start, h.tiles, atEnd_endMarked hw, ?_⟩
        intro d hd
        have hb := h.tiles.bounds hd
        simp only [start_cell, stop_cell] at hb
        exact InMem.endMarked (h.mem d (List.mem_append_right _ hd)) (fun _ => by omega)
  · obtain ⟨e, ht, he⟩ := h.ends
    have hwr := h.le
    cases tail with
    | nil => exact absurd rfl h.ne
    | cons c cs =>
        have hre := ht.lt_of_ne_nil h.ne
        refine ⟨c, cs, e, ht.head_start, ht, he.congr (Or.inr ?_), ?_⟩
        · intro a h1 h2
          rw [endMarked]
          split
          · exact Mem.storeBytes_frame _ (by rw [le32_length]; omega)
          · rfl
        · intro d hd
          have hb := ht.bounds hd
          simp only [start_cell, stop_cell] at hb
          exact InMem.endMarked (h.mem d (List.mem_append_right _ (List.mem_append_left _ hd)))
            (fun _ => by omega)

theorem inBounds_addEndMarker {k : Nat} (h : q.writePtr < q.size.words) :
    (addEndMarker q (msgWords k)).InBounds q.size.bytes := by
  rw [addEndMarker]
  split
  · rw [inBounds_bind, inBounds_storeBytes, le32_length, q.size.bytes_eq]
    exact ⟨by omega, inBounds_pure _ _⟩
  · exact inBounds_pure _ _

theorem inBounds_updateReadPtr {k : Nat}
    (h : Ring q.size.words q.buf q.readPtr q.writePtr passed pending) :
    (updateReadPtr { q with buf := endMarked q k, writePtr := startOf q k }
      (decide (q.readPtr = q.writePtr)) (startOf q k + msgWords k)).InBounds q.size.bytes := by
  rw [updateReadPtr]
  by_cases heq : q.readPtr = q.writePtr
  · rw [if_pos (decide_eq_true heq)]
    exact inBounds_pure _ _
  · rw [if_neg (by simpa using heq)]
    by_cases hov : Overruns q k
    · rw [if_pos ⟨hov.2.1, hov.2.2⟩, inBounds_bind]
      refine ⟨?_, inBounds_pure _ _⟩
      obtain ⟨c, cs, e, hstart, ht, he, hmem⟩ := overrun_tail h hov
      have hmove := inBounds_moveReadPtr { q with buf := endMarked q k, writePtr := startOf q k }
        (startOf q k + msgWords k) cs c q.size.words (by rw [hstart]; exact ht) he hmem
      rw [hstart] at hmove
      exact hmove
    · rw [if_neg (fun hc => hov ⟨heq, hc.1, hc.2⟩)]
      exact inBounds_pure _ _

/-- `ticosd_queue_write` stays inside the buffer. -/
theorem inBounds_write {payload : List UInt8} (h : Shape q passed pending)
    (hlen : payload.length + 3 < 2 ^ 32) :
    (ticosdQueueWrite q (some payload)).InBounds q.size.bytes := by
  have hbytes := q.size.bytes_eq
  simp only [ticosdQueueWrite]
  by_cases hzero : payload.length = 0
  · rw [if_pos hzero]
    exact inBounds_pure _ _
  rw [if_neg hzero]
  by_cases hbig : headerLen + prvBytesToWordsRoundUp payload.length > q.size.words
  · rw [if_pos hbig]
    exact inBounds_pure _ _
  rw [if_neg hbig]
  have hacc : Accepts q payload.length := ⟨by omega, by simp only [msgWords]; omega⟩
  have hfit := startOf_fits q _ hacc
  have hw := words_spec hlen
  simp only [msgWords, headerLen] at hfit
  rw [inBounds_bind, show headerLen + prvBytesToWordsRoundUp payload.length
    = msgWords payload.length from rfl, addEndMarker_val, inBounds_bind,
    updateReadPtr_val q _ h.readPtr_small]
  refine ⟨inBounds_addEndMarker h.writePtr_lt, inBounds_updateReadPtr h.ring, ?_⟩
  rw [inBounds_bind, inBounds_storeBytes, msgHeader_length, inBounds_bind, inBounds_storeBytes,
    inBounds_bind]
  dsimp only
  refine ⟨by omega, by omega, ?_, inBounds_pure _ _⟩
  rw [zeroPadding]
  split
  · rw [inBounds_storeBytes, List.length_replicate]
    omega
  · exact inBounds_pure _ _

/-- `ticosd_queue_read_head` stays inside the buffer when there is room for a
    header at equal pointers. -/
theorem inBounds_readHead (h : Shape q passed pending) (malloc : Bool)
    (hroom : q.readPtr = q.writePtr → q.readPtr + 3 ≤ q.size.words) :
    (ticosdQueueReadHead q malloc).InBounds q.size.bytes := by
  have hbytes := q.size.bytes_eq
  -- away from equal pointers there is a message at the read pointer
  have hcell : q.readPtr ≠ q.writePtr →
      4 * q.readPtr + 12 + sizeAt q.buf q.readPtr ≤ 4 * q.size.words := by
    intro hne
    cases pending with
    | nil => exact absurd (ring_nil h.ring).1 hne
    | cons c cs =>
        obtain ⟨hs, hm⟩ := ring_cons h.ring
        rw [← hs]
        exact hm.fits
  have hhead : q.readPtr + 3 ≤ q.size.words := by
    by_cases heq : q.readPtr = q.writePtr
    · exact hroom heq
    · have := hcell heq
      omega
  rw [ticosdQueueReadHead, inBounds_bind, readPtrCaughtUp_val]
  refine ⟨?_, ?_⟩
  · rw [readPtrCaughtUp]
    split
    · rw [inBounds_bind]
      refine ⟨inBounds_isMsgValid hhead, ?_⟩
      split
      · exact inBounds_pure _ _
      · exact inBounds_isMsgRead (by omega)
    · exact inBounds_pure _ _
  · cases hc : caughtUp q with
    | true =>
        rw [if_pos rfl]
        exact inBounds_pure _ _
    | false =>
        have hpay : 4 * q.readPtr + 12 + sizeAt q.buf q.readPtr ≤ 4 * q.size.words := by
          by_cases heq : q.readPtr = q.writePtr
          · rw [caughtUp, decide_eq_true heq, Bool.true_and, Bool.or_eq_false_iff,
              Bool.not_eq_false'] at hc
            exact Nat.le_of_lt (validAt_iff.mp hc.1).1
          · exact hcell heq
        rw [if_neg (by simp), inBounds_bind, inBounds_load32]
        refine ⟨by omega, ?_⟩
        split
        · exact inBounds_pure _ _
        · rw [inBounds_bind, load32_val]
          refine ⟨inBounds_loadBytes ?_, inBounds_pure _ _⟩
          rw [hbytes]
          exact hpay

/-- `ticosd_queue_complete_read` stays inside the buffer. -/
theorem inBounds_completeRead (h : Shape q passed pending) :
    (ticosdQueueCompleteRead q).InBounds q.size.bytes := by
  have hbytes := q.size.bytes_eq
  rw [ticosdQueueCompleteRead]
  cases hcan : q.canCompleteRead with
  | false =>
      rw [if_pos rfl]
      exact inBounds_pure _ _
  | true =>
      rw [if_neg (by simp), inBounds_bind, inBounds_load8, inBounds_bind, inBounds_storeBytes]
      cases pending with
      | nil => exact absurd rfl (h.flag hcan)
      | cons c cs =>
          obtain ⟨hs, hm⟩ := ring_cons h.ring
          have hfit := header_fits hm
          rw [hs] at hfit
          refine ⟨by omega, by simp only [List.length_cons, List.length_nil]; omega, ?_⟩
          rw [inBounds_bind]
          refine ⟨?_, inBounds_pure _ _⟩
          exact inBounds_getNextMessage (q := { q with buf := markRead q.buf q.readPtr }) hfit

/-- `ticosd_queue_reset` clears the first header, which is always there. -/
theorem inBounds_reset (q : TicosdQueue) : (ticosdQueueReset q).InBounds q.size.bytes := by
  have hmin := q.size.min
  rw [ticosdQueueReset, inBounds_bind, inBounds_storeBytes, List.length_replicate, headerLen]
  exact ⟨by omega, inBounds_pure _ _⟩

/-! ## The search at start of day -/

/-- Every index the forward scan visits has room for a header. -/
def ScanFits (n : Nat) (m : Mem) : Nat → Nat → Bool → Prop
  | 0, _, _ => True
  | fuel + 1, tmp, lastRead => tmp + 3 ≤ n ∧
      (validAt n m tmp = true → (readAt m tmp = true → lastRead = true) →
        nextAt n m tmp ≠ 0 → ScanFits n m fuel (nextAt n m tmp) (readAt m tmp))

/-- Every link the backward walk looks at leads to an index with room for a
    header. -/
def WalkFits (n : Nat) (m : Mem) : Nat → Nat → Prop
  | 0, _ => True
  | fuel + 1, i => i = prevAt m i ∨ (prevAt m i + 3 ≤ n ∧
      (validAt n m (prevAt m i) = true → readAt m (prevAt m i) = false → 0 < prevAt m i →
        WalkFits n m fuel (prevAt m i)))

/-- A file on which the search stays inside the buffer and ends with pointers that
    make sense.  The links matter when the scan ends with read pointer 0 and
    another write pointer. -/
structure InitOk (size : QueueSize) (file : Mem) : Prop where
  scan_fits : ScanFits size.words file (size.words + 1) 0 true
  walk_fits : ∀ t ∈ scan size.words file (size.words + 1) 0 0 0 true, t.1 = 0 → t.2.1 ≠ 0 →
    WalkFits size.words file (size.words + 1) 0
  links_fit : ∀ t ∈ scan size.words file (size.words + 1) 0 0 0 true, t.1 = 0 → t.2.1 ≠ 0 →
    walk size.words file (size.words + 1) 0 = some 0 ∨
      LinksFit size.words file t.2.1 (size.words + 1) 0

instance decidableScanFits (n : Nat) (m : Mem) :
    ∀ fuel tmp lastRead, Decidable (ScanFits n m fuel tmp lastRead)
  | 0, _, _ => inferInstanceAs (Decidable True)
  | fuel + 1, tmp, _ =>
      have := decidableScanFits n m fuel (nextAt n m tmp) (readAt m tmp)
      inferInstanceAs (Decidable (_ ∧ _))

instance decidableWalkFits (n : Nat) (m : Mem) : ∀ fuel i, Decidable (WalkFits n m fuel i)
  | 0, _ => inferInstanceAs (Decidable True)
  | fuel + 1, i =>
      have := decidableWalkFits n m fuel (prevAt m i)
      inferInstanceAs (Decidable (_ ∨ _))

instance decidableInitOk (size : QueueSize) (file : Mem) : Decidable (InitOk size file) :=
  decidable_of_iff (_ ∧ _ ∧ _)
    ⟨fun h => ⟨h.1, h.2.1, h.2.2⟩, fun h => ⟨h.scan_fits, h.walk_fits, h.links_fit⟩⟩

theorem inBounds_findWritePtr : ∀ (fuel tmp readPtr prevPtr : Nat) (lastRead : Bool),
    ScanFits q.size.words q.buf fuel tmp lastRead →
    (prvFindWritePtr q fuel tmp readPtr prevPtr lastRead).InBounds q.size.bytes := by
  have hn := q.size.words_le
  intro fuel
  induction fuel with
  | zero => intro tmp readPtr prevPtr lastRead _; exact inBounds_pure _ _
  | succ fuel ih =>
      intro tmp readPtr prevPtr lastRead h
      obtain ⟨hfit, hrec⟩ := h
      rw [prvFindWritePtr, inBounds_bind, isMsgValid_val]
      refine ⟨inBounds_isMsgValid hfit, ?_⟩
      cases hv : validAt q.size.words q.buf tmp with
      | false =>
          rw [if_pos rfl]
          exact inBounds_pure _ _
      | true =>
          rw [if_neg (by simp), inBounds_bind, isMsgRead_val]
          refine ⟨inBounds_isMsgRead (by omega), ?_⟩
          by_cases hstop : readAt q.buf tmp = true ∧ lastRead = false
          · rw [if_pos hstop]
            exact inBounds_pure _ _
          · rw [if_neg hstop, inBounds_bind, getNextMessage_val q _ (by omega)]
            refine ⟨inBounds_getNextMessage hfit, ?_⟩
            by_cases hnext : nextAt q.size.words q.buf tmp = 0
            · rw [if_pos hnext]
              exact inBounds_pure _ _
            · rw [if_neg hnext]
              refine ih _ _ _ _ (hrec hv ?_ hnext)
              intro hr
              cases lastRead with
              | true => rfl
              | false => exact absurd ⟨hr, rfl⟩ hstop

theorem inBounds_findReadPtr : ∀ (fuel readPtr : Nat), readPtr + 3 ≤ q.size.words →
    WalkFits q.size.words q.buf fuel readPtr →
    (prvFindReadPtr q fuel readPtr).InBounds q.size.bytes := by
  have hbytes := q.size.bytes_eq
  intro fuel
  induction fuel with
  | zero => intro readPtr _ _; exact inBounds_pure _ _
  | succ fuel ih =>
      intro readPtr hroom h
      have hprev : (Traced.load32 q.buf (4 * readPtr + 4)).val = prevAt q.buf readPtr := rfl
      rw [prvFindReadPtr, inBounds_bind, inBounds_load32, hprev]
      refine ⟨by omega, ?_⟩
      by_cases hself : readPtr = prevAt q.buf readPtr
      · rw [if_pos hself]
        exact inBounds_pure _ _
      rw [if_neg hself, inBounds_bind, isMsgValid_val]
      obtain ⟨hfit, hrec⟩ := h.resolve_left hself
      refine ⟨inBounds_isMsgValid hfit, ?_⟩
      cases hv : validAt q.size.words q.buf (prevAt q.buf readPtr) with
      | false =>
          rw [if_pos rfl]
          exact inBounds_pure _ _
      | true =>
          rw [if_neg (by simp), inBounds_bind, isMsgRead_val]
          refine ⟨inBounds_isMsgRead (by omega), ?_⟩
          cases hr : readAt q.buf (prevAt q.buf readPtr) with
          | true =>
              rw [if_pos rfl]
              exact inBounds_pure _ _
          | false =>
              rw [if_neg (by simp)]
              by_cases hpos : prevAt q.buf readPtr > 0
              · rw [if_pos hpos]
                exact ih _ hfit (hrec hv hr hpos)
              · rw [if_neg hpos]
                exact inBounds_pure _ _

/-- `ticosd_queue_init` stays inside the buffer on such a file. -/
theorem inBounds_init {size : QueueSize} {file : Mem} (h : InitOk size file) :
    (ticosdQueueInit size file).InBounds size.bytes := by
  have hwords := size.four_le_words
  have hpos : 0 < size.words := by omega
  rw [ticosdQueueInit, prvQueueFindReadWritePtr, inBounds_bind,
    findWritePtr_val _ _ _ _ _ _ hpos]
  refine ⟨inBounds_findWritePtr _ _ _ _ _ h.scan_fits, ?_⟩
  dsimp only
  cases hscan : scan size.words file (size.words + 1) 0 0 0 true with
  | none => exact inBounds_pure _ _
  | some t =>
      obtain ⟨readPtr, writePtr, prevPtr⟩ := t
      dsimp only
      rw [inBounds_bind]
      refine ⟨?_, ?_⟩
      · rw [prvFindWrapped]
        split
        · rename_i hc
          obtain ⟨rfl, hw⟩ := hc
          exact inBounds_findReadPtr _ _ (by show 0 + 3 ≤ size.words; omega)
            (h.walk_fits _ hscan rfl hw)
        · exact inBounds_pure _ _
      · split
        · exact inBounds_pure _ _
        · exact inBounds_pure _ _

/-! ## The shape after the search -/

/-- **The search finds a queue with a shape.** -/
theorem shape_init {size : QueueSize} {file : Mem} (h : InitOk size file) :
    ∃ q passed pending, (ticosdQueueInit size file).val = some q ∧ Shape q passed pending := by
  have hwords := size.four_le_words
  have hpos : 0 < size.words := by omega
  obtain ⟨⟨rp, w, p⟩, hscan⟩ := scan_total (n := size.words) (m := file) (size.words + 1) 0 0 0
    true hpos (by omega)
  obtain ⟨reads, unreads, x, ht, hmr, hmu, hp, hres⟩ :=
    scan_any _ _ _ _ hscan hpos (fun hc => absurd hc (Nat.lt_irrefl 0))
  have hmem : ∀ c ∈ reads ++ unreads, InMem size.words file c := by
    intro c hc
    rcases List.mem_append.mp hc with hc | hc
    · exact (hmr c hc).1
    · exact (hmu c hc).1
  have hlast : p < size.words := by
    rw [hp]
    exact lastStart_lt hpos hmem
  rcases hres with ⟨rfl, rfl, rfl, hx, hv⟩ | ⟨rfl, hne, rfl, rfl⟩ | ⟨u, us, rfl, rfl, hw⟩
  · -- everything is read, up to an invalid header
    rw [List.append_nil] at ht
    have hmem' : ∀ c ∈ reads ++ [], InMem size.words file c := hmem
    have hwalk : wrapped size.words file w w = some w := by
      rw [wrapped, if_neg (fun hc => hc.2 hc.1)]
    exact ⟨_, reads, [], queueInit_val hscan hwalk, Or.inl ⟨ht, rfl, hx, hmem'⟩,
      (fun _ hc => absurd hc (by simp)), fun _ => Or.inl hv, hlast, fun hf => absurd hf Bool.false_ne_true⟩
  · -- everything is read, all the way round
    have hwalk : wrapped size.words file 0 0 = some 0 := rfl
    refine ⟨_, [], [], queueInit_val hscan hwalk,
      Or.inl ⟨rfl, rfl, hpos, fun _ hc => absurd hc List.not_mem_nil⟩, (fun _ hc => absurd hc (by simp)),
      fun _ => Or.inr ?_, hlast, fun hf => absurd hf Bool.false_ne_true⟩
    rw [List.append_nil] at hp
    obtain ⟨c, hc, heq⟩ := lastStart_mem 0 hne
    show readAt file p = true
    rw [hp, heq]
    exact (hmr c hc).2.2
  · obtain ⟨b, ht1, ht2⟩ := tiles_append.mp ht
    have hb : u.start = b := ht2.head_start
    rw [← hb] at ht1 ht2
    have hlast' : ∀ c, (u :: us).getLast? = some c → c.start = p := by
      intro c hc
      rw [hp]
      exact getLast_lastStart hc
    rcases hw with ⟨rfl, hx⟩ | ⟨rfl, hend⟩
    · -- unread messages up to the write pointer
      have hux := ht2.lt_of_ne_nil (by simp)
      have hstraight : Straight size.words file u.start w reads (u :: us) :=
        ⟨ht1, ht2, hx, hmem⟩
      by_cases hu : u.start = 0
      · have hwalk0 : wrapped size.words file 0 w = walk size.words file (size.words + 1) 0 := by
          rw [wrapped, if_pos ⟨rfl, by omega⟩]
        rw [hu] at hscan hstraight ht2
        have hlinks := h.links_fit _ hscan rfl (show w ≠ 0 by omega)
        have hzero : walk size.words file (size.words + 1) 0 = some 0 →
            ∃ q passed pending, (ticosdQueueInit size file).val = some q ∧
              Shape q passed pending := fun hwalk =>
          ⟨_, reads, u :: us, queueInit_val hscan (hwalk0.trans hwalk), Or.inl hstraight, hlast',
            fun hc => absurd hc (List.cons_ne_nil _ _), hlast, fun hf => absurd hf Bool.false_ne_true⟩
        rcases hlinks with hwalk | hlinks
        · exact hzero hwalk
        · rcases walk_links_zero hlinks with hwalk | ⟨r, tail, e, hwalk, hne, htail, he, hm, hle⟩
          · exact hzero hwalk
          · -- and the tail of the lap before
            refine ⟨_, [], tail ++ u :: us, queueInit_val hscan (hwalk0.trans hwalk),
              Or.inr ⟨tail, u :: us, rfl, hne, ⟨e, htail, he⟩, hle, ht2, ?_, fun _ => rfl, ?_⟩,
              ?_, ?_, hlast, fun hf => absurd hf Bool.false_ne_true⟩
            · intro hc
              cases hc
            · intro c hc
              rw [List.nil_append] at hc
              rcases List.mem_append.mp hc with hc | hc
              · exact (hm c hc).1
              · exact (hmu c hc).1
            · intro c hc
              rw [List.getLast?_append_of_ne_nil _ (by simp)] at hc
              exact hlast' c hc
            · intro hc
              exact absurd hc (by simp)
      · have hwalk : wrapped size.words file u.start w = some u.start := by
          rw [wrapped, if_neg (fun hc => hu hc.1)]
        exact ⟨_, reads, u :: us, queueInit_val hscan hwalk, Or.inl hstraight, hlast',
          fun hc => absurd hc (List.cons_ne_nil _ _), hlast, fun hf => absurd hf Bool.false_ne_true⟩
    · -- unread messages up to the end of the lap
      have hwalk : wrapped size.words file u.start 0 = some u.start := by
        rw [wrapped, if_neg (fun hc => hc.2 rfl)]
      refine ⟨_, reads, u :: us, queueInit_val hscan hwalk,
        Or.inr ⟨u :: us, [], (List.append_nil _).symm, by simp, ⟨x, ht2, hend⟩, Nat.zero_le _,
          rfl, fun _ => ht1, fun hc => absurd rfl hc, ?_⟩, hlast', fun hc => absurd hc (List.cons_ne_nil _ _), hlast,
        fun hf => absurd hf Bool.false_ne_true⟩
      rw [List.append_nil]
      exact hmem

/-! ## Every run -/

/-- What can be done with the buffer. -/
inductive Act where
  | init
  | write (payload : Option (List UInt8))
  | readHead (malloc : Bool)
  | completeRead
  | reset

/-- The queue after an action.  An `init` whose search does not end gives no new
    queue. -/
def act (q : TicosdQueue) : Act → TicosdQueue
  | .init => (ticosdQueueInit q.size q.buf).val.getD q
  | .write payload => (ticosdQueueWrite q payload).val.2
  | .readHead malloc => (ticosdQueueReadHead q malloc).val.2
  | .completeRead => (ticosdQueueCompleteRead q).val.2
  | .reset => (ticosdQueueReset q).val

/-- Every byte the action reads or stores lies below `limit`. -/
def StaysBelow (limit : Nat) (q : TicosdQueue) : Act → Prop
  | .init => (ticosdQueueInit q.size q.buf).InBounds limit
  | .write payload => (ticosdQueueWrite q payload).InBounds limit
  | .readHead malloc => (ticosdQueueReadHead q malloc).InBounds limit
  | .completeRead => (ticosdQueueCompleteRead q).InBounds limit
  | .reset => (ticosdQueueReset q).InBounds limit

/-- The condition on each action. -/
def ActOk (q : TicosdQueue) : Act → Prop
  | .init => InitOk q.size q.buf
  | .write payload => WriteOk payload
  | .readHead _ => HeadOk q ∧ (q.readPtr = q.writePtr → q.readPtr + 3 ≤ q.size.words)
  | .completeRead => q.canCompleteRead = true → CompleteOk q
  | .reset => q.canCompleteRead = false

instance decidableActOk (q : TicosdQueue) : ∀ a, Decidable (ActOk q a)
  | .init => decidableInitOk q.size q.buf
  | .write _ => inferInstanceAs (Decidable (WriteOk _))
  | .readHead _ => inferInstanceAs (Decidable (_ ∧ _))
  | .completeRead => inferInstanceAs (Decidable (_ → _))
  | .reset => inferInstanceAs (Decidable (_ = _))

/-- A queue of this size that has a shape. -/
def Shaped (size : QueueSize) (q : TicosdQueue) : Prop :=
  q.size = size ∧ ∃ passed pending, Shape q passed pending

theorem staysBelow_of_shaped {size : QueueSize} {a : Act} (h : Shaped size q)
    (hok : ActOk q a) : StaysBelow size.bytes q a := by
  obtain ⟨rfl, passed, pending, h⟩ := h
  cases a with
  | init => exact inBounds_init hok
  | write payload =>
      cases payload with
      | none => exact inBounds_pure _ _
      | some p => exact inBounds_write h (hok p rfl)
  | readHead malloc => exact inBounds_readHead h malloc hok.2
  | completeRead => exact inBounds_completeRead h
  | reset => exact inBounds_reset q

theorem shaped_act {size : QueueSize} {a : Act} (h : Shaped size q) (hok : ActOk q a) :
    Shaped size (act q a) := by
  obtain ⟨rfl, passed, pending, h⟩ := h
  cases a with
  | init =>
      obtain ⟨q', passed', pending', hinit, h'⟩ := shape_init hok
      obtain ⟨_, _, _, _, -, -, heq⟩ := queueInit_some hinit
      rw [act, hinit]
      exact ⟨by rw [Option.getD_some, heq]; rfl, passed', pending', h'⟩
  | write payload =>
      cases payload with
      | none => exact ⟨rfl, passed, pending, h⟩
      | some p =>
          have hlen := hok p rfl
          rw [act, write_val q p hlen h.readPtr_small]
          by_cases hacc : Accepts q p.length
          · rw [if_pos hacc]
            obtain ⟨passed', kept, hrew⟩ := Ring.write h.ring hacc hlen h.prevPtr_small
            exact ⟨rfl, passed', _, hrew.shape hacc hlen⟩
          · rw [if_neg hacc]
            exact ⟨rfl, passed, pending, h⟩
  | readHead malloc =>
      rw [act, readHead_val]
      by_cases hc : caughtUp q = true ∨ malloc = false
      · rw [if_pos hc]
        exact ⟨rfl, passed, pending, h⟩
      · rw [if_neg hc]
        refine ⟨rfl, passed, pending, h.setFlag ?_⟩
        rintro rfl
        exact hc (Or.inl (shape_caughtUp h hok.1))
  | completeRead =>
      rw [act, completeRead_val q h.readPtr_small]
      cases hcan : q.canCompleteRead with
      | false =>
          rw [if_pos rfl]
          exact ⟨rfl, passed, pending, h⟩
      | true =>
          rw [if_neg (by simp)]
          cases pending with
          | nil => exact absurd rfl (h.flag hcan)
          | cons c cs =>
              obtain ⟨hs, hm⟩ := ring_cons h.ring
              obtain ⟨passed', h', -⟩ := h.complete (fun hw => hok hcan (by
                rw [← hs, hm.stop_eq]
                exact hw))
              exact ⟨rfl, passed', cs, h'⟩
  | reset =>
      have hwords := q.size.four_le_words
      have hpos : 0 < q.size.words := by omega
      refine ⟨rfl, [], [], Or.inl ⟨rfl, rfl, hpos, fun c hc => nomatch hc⟩,
        (fun c hc => nomatch hc), fun _ => Or.inl ?_, hpos, ?_⟩
      · exact validAt_reset _ _
      · intro hf
        rw [show (act q .reset).canCompleteRead = q.canCompleteRead from rfl, hok] at hf
        exact nomatch hf

/-- **Every access stays inside the buffer**: the search over a file that meets
    `InitOk` does, it ends, and so does every action of every run after it whose
    actions meet the conditions. -/
theorem accesses_inside (size : QueueSize) (file : Mem) (h : InitOk size file) :
    (ticosdQueueInit size file).InBounds size.bytes ∧
      (∃ q, (ticosdQueueInit size file).val = some q) ∧
      ∀ q, (ticosdQueueInit size file).val = some q →
        ∀ acts, Along act ActOk q acts → ∀ before a after, acts = before ++ a :: after →
          StaysBelow size.bytes (run act q before) a := by
  obtain ⟨q, passed, pending, hinit, hshape⟩ := shape_init h
  obtain ⟨_, _, _, _, -, -, heq⟩ := queueInit_some hinit
  have hshaped : Shaped size q := ⟨by rw [heq]; rfl, passed, pending, hshape⟩
  refine ⟨inBounds_init h, ⟨q, hinit⟩, ?_⟩
  rintro q' hinit' acts hok before a after rfl
  obtain rfl : q = q' := Option.some.inj (hinit.symm.trans hinit')
  obtain ⟨hbefore, ha, -⟩ := along_append.mp hok
  exact staysBelow_of_shaped (invariant (fun _ _ hs hs' => shaped_act hs hs') hshaped hbefore) ha

/-- A file with an unread message, a read one and an unread one of the lap
    before, as in `Test_UnreadWrapAround`. -/
def wrapAroundFile : Mem := Mem.storeBytes (fun _ => 0) 0
  [0xa5, 1, 2, 0, 8, 0, 0, 0, 1, 0, 0, 0, 0x44, 0, 0, 0,
    0xa5, 1, 1, 1, 0, 0, 0, 0, 1, 0, 0, 0, 0x22, 0, 0, 0,
    0xa5, 1, 0x49, 0, 4, 0, 0, 0, 1, 0, 0, 0, 0x33, 0, 0, 0]

/-- The queue is opened on that file; a message is read, one is written over the
    read ones, and the file is opened again. -/
theorem accesses_inside_wrapped :
    StaysBelow 48 (run act (opened (.ofWords 12 (by decide) (by decide)) wrapAroundFile 8 4 0)
      [.readHead true, .completeRead, .write (some [5])]) .init :=
  (accesses_inside (.ofWords 12 (by decide) (by decide)) wrapAroundFile (by decide +kernel)).2.2
    _ (queueInit_val (show scan _ _ _ 0 0 0 true = some (0, 4, 0) by decide +kernel)
      (by decide +kernel))
    [.readHead true, .completeRead, .write (some [5]), .init] (by decide +kernel)
    [.readHead true, .completeRead, .write (some [5])] .init [] rfl

/-- The same file cut off after two messages, as in
    `Test_TruncatedFileWithWrapAround`. -/
def truncatedFile : Mem := Mem.storeBytes (fun _ => 0) 0
  [0xa5, 1, 2, 0, 8, 0, 0, 0, 1, 0, 0, 0, 0x44, 0, 0, 0,
    0xa5, 1, 1, 1, 0, 0, 0, 0, 1, 0, 0, 0, 0x22, 0, 0, 0]

/-- The walk follows the link to index 8 of a buffer of eight words: the search
    reads a payload size at bytes 40 to 43. -/
theorem truncated_file_read_outside :
    ¬ (ticosdQueueInit (.ofWords 8 (by decide) (by decide)) truncatedFile).InBounds
      (QueueSize.ofWords 8 (by decide) (by decide)).bytes := by
  intro h
  have hread : 40 ∈ (ticosdQueueInit (.ofWords 8 (by decide) (by decide)) truncatedFile).loads := by
    decide +kernel
  exact absurd (h.1 40 hread) (by decide)

end QueueBounds
