import Ticosd.QueueCutImage

/-! # Power cut — a write that stops between its stores

    `ticosd_queue_write` stores an end marker, a header, a payload and padding, one after
    the other, and the pointers are in memory only.  If the power goes in between, the
    next start finds the file as the stores so far have left it.

    What the search makes of it depends on where the message goes.

    * At index 0 a header whose payload is not there yet is the end of everything: the
      search stops at once, and the messages behind it are not found
      (`front_incomplete_loses`).
    * Elsewhere an incomplete message is only the end of the chain.
    * A message that is complete belongs to the chain.  The messages ahead of it may begin
      right behind it; then the scan runs on over them, and the chain comes out in the
      order of the buffer (`Aligned`).

    In each case the file has a chain again (`cutChain`), and the restart delivers it under
    the conditions that a restart needs. -/

namespace QueuePowerCut

open ByteStore QueueModel QueueView QueueRing QueueOverwrite QueueRun QueueScan QueueDelivery
  QueueRestart QueueCutImage Tiling GuardedRun

variable {s : Sys} {passed : List Cell} {pend : List Entry} {p : List UInt8} {j : Nat}

/-! ## The file -/

/-- The messages that are intact and not completed. -/
def unread (s : Sys) : List Entry := s.log.filter (fun e => decide e.Unread)

/-- Those of them on which no store of the list falls. -/
def untouched (s : Sys) (stores : List (Nat × List UInt8)) : List Entry :=
  (unread s).filter (fun e => !hits stores e.cell)

/-- The unread messages that a write leaves alone. -/
def survivors (s : Sys) (p : List UInt8) : List Entry :=
  untouched s (ticosdQueueWrite s.q (some p)).stores

/-- A restart delivers these messages, each as often as it is there, and maybe others. -/
def Delivers (fuel : Nat) (size : QueueSize) (buf : Mem) (es : List Entry) : Prop :=
  es ≠ [] → ∃ out, redeliver fuel size buf = some out ∧ (es.map Entry.payload).Subperm out

/-! ## What the search finds -/

/-- The header of the new message is in the file and matches what stands behind it. -/
def Complete (s : Sys) (p : List UInt8) (j : Nat) : Prop :=
  HeaderStored s.q p j ∧
    validAt s.q.size.words (image s.q p j) (startOf s.q p.length) = true

instance (s : Sys) (p : List UInt8) (j : Nat) : Decidable (Complete s p j) :=
  inferInstanceAs (Decidable (_ ∧ _))

/-- The new message, as the file has it. -/
def newMessage (s : Sys) (p : List UInt8) (j : Nat) : Entry :=
  ⟨startOf s.q p.length, payloadAt (image s.q p j) (startOf s.q p.length), s.q.prevPtr,
    false, false⟩

/-- The survivors that the writer would come to next. -/
def ahead (s : Sys) (p : List UInt8) : List Entry :=
  (survivors s p).filter (fun e => decide (startOf s.q p.length ≤ e.start))

/-- The survivors of the lap that the new message is in. -/
def lapped (s : Sys) (p : List UInt8) : List Entry :=
  (survivors s p).filter (fun e => !decide (startOf s.q p.length ≤ e.start))

/-- The messages ahead begin right behind the new one. -/
def Aligned (s : Sys) (p : List UInt8) : Prop :=
  (ahead s p).head?.map Entry.start = some (startOf s.q p.length + msgWords p.length)

instance (s : Sys) (p : List UInt8) : Decidable (Aligned s p) :=
  inferInstanceAs (Decidable (_ = _))

/-- The chain in the file. -/
def cutChain (s : Sys) (p : List UInt8) (j : Nat) : List Entry :=
  if Complete s p j then
    if Aligned s p then lapped s p ++ newMessage s p j :: ahead s p
    else survivors s p ++ [newMessage s p j]
  else untouched s ((ticosdQueueWrite s.q (some p)).stores.take j)

/-- The queue whose pointers lead to a chain, with the write pointer at `w`. -/
def chainQueue (size : QueueSize) (m : Mem) (w : Nat) (chain : List Entry) : TicosdQueue where
  size := size
  buf := m
  readPtr := firstStart (chain.map Entry.cell)
  writePtr := w
  prevPtr := lastStart 0 (chain.map Entry.cell)
  canCompleteRead := false

/-- The index behind the chain in the file. -/
def cutWritePtr (s : Sys) (p : List UInt8) (j : Nat) : Nat :=
  if Complete s p j then
    if Aligned s p then 0 else (startOf s.q p.length + msgWords p.length) % s.q.size.words
  else startOf s.q p.length

/-- The queue that the chain in the file belongs to. -/
def cutQueue (s : Sys) (p : List UInt8) (j : Nat) : TicosdQueue :=
  chainQueue s.q.size (image s.q p j) (cutWritePtr s p j) (cutChain s p j)

/-- A message that goes to index 0 is complete as soon as its header is there, and the
    messages ahead of it are the whole chain. -/
def FrontOk (s : Sys) (p : List UInt8) (j : Nat) : Prop :=
  startOf s.q p.length = 0 → (s.q.readPtr < s.q.writePtr ∨ s.q.writePtr = 0) ∧
    (HeaderStored s.q p j → Complete s p j)

instance (s : Sys) (p : List UInt8) (j : Nat) : Decidable (FrontOk s p j) :=
  inferInstanceAs (Decidable (_ → _))

/-- The condition on a write that is cut after `j` stores: no unread message survives it,
    or nothing has been stored, or the front of the buffer is all right and the words around
    the chain do not lead the search astray. -/
def CutOk (s : Sys) (p : List UInt8) (j : Nat) : Prop :=
  survivors s p = [] ∨ (ticosdQueueWrite s.q (some p)).stores.take j = [] ∨
    (FrontOk s p j ∧ RestartOk (cutQueue s p j) (cutChain s p j))

/-- The condition on each operation of a run: a write that leaves an unread message behind
    the reader runs over all of them. -/
def KeepsOrder (s : Sys) : Op → Prop
  | .write payload => WriteOk payload ∧ ∀ p, payload = some p → Accepts s.q p.length →
      ∀ e ∈ unread s, LeftBehind s.q p.length e.cell →
        ∀ d ∈ unread s, Touches s.q p.length d.cell
  | a => StepOk s a

instance (s : Sys) : (a : Op) → Decidable (KeepsOrder s a)
  | .write none => isTrue ⟨(fun _ h => nomatch h), fun _ h => nomatch h⟩
  | .write (some p) => decidable_of_iff (WriteOk (some p) ∧ (Accepts s.q p.length →
      ∀ e ∈ unread s, LeftBehind s.q p.length e.cell →
        ∀ d ∈ unread s, Touches s.q p.length d.cell))
      ⟨fun h => ⟨h.1, fun _ hp => Option.some.inj hp ▸ h.2⟩, fun h => ⟨h.1, h.2 p rfl⟩⟩
  | .readHead malloc => (inferInstance : Decidable (StepOk s (.readHead malloc)))
  | .completeRead => (inferInstance : Decidable (StepOk s .completeRead))

/-! ## The messages around the new one -/

section Left

variable {st x b : Nat} {m' : Mem} {tail lap : List Entry}

/-- The unread messages that a store of `x` words from `st` on leaves alone. -/
def keptClear (s : Sys) (st x : Nat) : List Entry :=
  (unread s).filter (fun e => decide (e.cell.stop ≤ st ∨ st + x ≤ e.cell.start))

/-- They lie around the words that are stored, and the file has them. -/
structure Left (s : Sys) (m' : Mem) (st x : Nat) (passed : List Cell) (tail lap : List Entry)
    (b : Nat) : Prop where
  kept : keptClear s st x = tail ++ lap
  around : Around s.q.size.words m' st x passed (tail.map Entry.cell) (lap.map Entry.cell) b
  behind : Marked s.q.size.words m' true passed
  suffix : tail ++ lap <:+ unread s
  stored : ∀ e ∈ tail ++ lap, Stored { s.q with buf := m' } e

/-- From the cells to the messages. -/
theorem left_of_around (h : Regular s passed (unread s)) {passed' tail' lap' : List Cell}
    (ha : Around s.q.size.words m' st x passed' tail' lap' b)
    (hclear : clearOf st x ((unread s).map Entry.cell) = tail' ++ lap')
    (hsuffix : tail' ++ lap' <:+ (unread s).map Entry.cell)
    (hagree : ∀ e ∈ unread s, e.cell.stop ≤ st ∨ st + x ≤ e.cell.start →
      AgreeOn s.q.buf m' e.start (e.start + msgWords e.payload.length))
    (hbehind : Marked s.q.size.words m' true passed') :
    ∃ tail lap, Left s m' st x passed' tail lap b ∧ lap.map Entry.cell = lap' := by
  have hcells : (keptClear s st x).map Entry.cell = tail' ++ lap' := by
    rw [← hclear, clearOf, List.filter_map]
    rfl
  rw [← hcells] at hsuffix
  have hkept : keptClear s st x <:+ unread s :=
    suffix_of_map hsuffix (fun e he => (List.mem_filter.mp he).1) h.inv.cell_inj
  have hstored : ∀ e ∈ keptClear s st x, Stored { s.q with buf := m' } e := by
    intro e he
    obtain ⟨hmem, hside⟩ := List.mem_filter.mp he
    have hst := h.inv.stored e (h.inv.pend_mem hmem) (h.inv.unread e hmem).1
    exact ⟨hst.holds.congr hst.len (hagree e hmem (of_decide_eq_true hside)), hst.fits, hst.len⟩
  obtain ⟨tail, lap, heq, rfl, rfl⟩ := List.map_eq_append_iff.mp hcells
  rw [heq] at hkept hstored
  exact ⟨tail, lap, ⟨heq, ha, hbehind, hkept, hstored⟩, rfl⟩

/-- What lies ahead begins behind the words that are stored. -/
theorem Left.tail_ge (h : Left s m' st x passed tail lap b) : ∀ e ∈ tail, st + x ≤ e.start := by
  intro e he
  have hmem : e.cell ∈ tail.map Entry.cell := List.mem_map_of_mem he
  obtain ⟨-, hle, b', ht, -⟩ := h.around.ends (List.ne_nil_of_mem hmem)
  have hb := (ht.bounds hmem).1
  simp only [start_cell, Entry.cell_start] at hb
  omega

/-- What is in the lap ends before them. -/
theorem Left.lap_le (h : Left s m' st x passed tail lap b) : ∀ e ∈ lap, e.cell.stop ≤ st := by
  intro e he
  exact (h.around.runs.bounds (List.mem_map_of_mem he)).2.2

/-- They are unread, and no two of them share a word. -/
theorem Left.apart (hleft : Left s m' st x passed tail lap b)
    {passed' : List Cell} (h : Regular s passed' (unread s)) :
    (∀ e ∈ tail ++ lap, e.Unread) ∧
      (tail ++ lap).Pairwise (fun d e => Apart d.cell e.cell) := by
  have hunread : ∀ e ∈ tail ++ lap, e.Unread :=
    fun e he => h.inv.unread e (hleft.suffix.subset he)
  refine ⟨hunread, ?_⟩
  refine (h.inv.apart.sublist (hleft.suffix.sublist.trans h.inv.sub)).imp_of_mem ?_
  intro d e hd he hap
  exact hap (hunread d hd).1 (hunread e he).1

/-- A write at the write pointer, inside the buffer. -/
theorem left_in_place (h : Regular s passed (unread s)) (hc : Started s.q p j)
    (hstays : ¬ Wraps s.q p.length) (hw : s.q.writePtr ≠ 0) (hx : reachedBy s.q p j ≤ x) :
    ∃ passed' tail lap b, Left s (image s.q p j) s.q.writePtr x passed' tail lap b := by
  have hagree : ∀ lo hi, hi ≤ s.q.writePtr ∨ s.q.writePtr + x ≤ lo →
      AgreeOn s.q.buf (image s.q p j) lo hi := by
    intro lo hi hside
    refine hc.agrees ?_ (fun hwraps => absurd hwraps hstays)
    rw [startOf_stays s.q _ hstays]
    omega
  obtain ⟨passed', tail, lap, b, ha, hclear, hpassed, hsuffix⟩ :=
    Ring.around h.inv.ring (Nat.pos_of_ne_zero hw) hagree
  have hbehind : Marked s.q.size.words s.q.buf true passed' :=
    fun c hcell => h.behind c (hpassed c hcell).1
  obtain ⟨tail, lap, hleft, -⟩ := left_of_around h ha hclear hsuffix
    (fun e _ hside => hagree _ _ hside)
    (hbehind.congr s.q.size.words_le
      (fun c hcell => hagree _ _ (Or.inl (hpassed c hcell).2)))
  exact ⟨passed', tail, lap, b, hleft⟩

/-- The reader is in front of the writer: so are all messages. -/
theorem unread_before_write (h : Regular s passed (unread s)) (hlt : s.q.readPtr < s.q.writePtr) :
    Tiles s.q.readPtr ((unread s).map Entry.cell) s.q.writePtr ∧
      Tiles 0 passed s.q.readPtr := by
  rcases h.inv.ring with hs | ⟨tail, lap, -, hw⟩
  · exact ⟨hs.tiles, hs.before⟩
  · have hle := hw.le
    omega

/-- A write at index 0, with all messages ahead. -/
theorem left_front (h : Regular s passed (unread s)) (hc : Started s.q p j)
    (hfront : startOf s.q p.length = 0) (hside : s.q.readPtr < s.q.writePtr ∨ s.q.writePtr = 0)
    (hne : unread s ≠ []) :
    ∃ tail, Left s (image s.q p j) 0 (msgWords p.length) [] tail [] 0 := by
  have hreach : reachedBy s.q p j ≤ msgWords p.length := reached_le _ _
  have hagree : ∀ lo hi, msgWords p.length ≤ lo →
      AgreeOn (endMarked s.q p.length) (image s.q p j) lo hi := by
    intro lo hi hlo
    refine hc.agrees_marked (Or.inr ?_)
    rw [hfront]
    omega
  -- the chain runs up to an end, and the marker does not fall on it
  obtain ⟨e, ht, he, hmark⟩ : ∃ e, Tiles s.q.readPtr ((unread s).map Entry.cell) e ∧
      AtEnd s.q.size.words (endMarked s.q p.length) e ∧
      ∀ c ∈ (unread s).map Entry.cell, Wraps s.q p.length → c.stop ≤ s.q.writePtr := by
    by_cases hwraps : Wraps s.q p.length
    · have hw : s.q.writePtr ≠ 0 := by
        intro hzero
        have hroom := hc.accepts.2
        rw [Wraps, hzero] at hwraps
        omega
      have ht := (unread_before_write h (hside.resolve_right hw)).1
      exact ⟨_, ht, atEnd_endMarked hwraps, fun c hcell _ => (ht.bounds hcell).2.2⟩
    · have hzero : s.q.writePtr = 0 := by
        rw [startOf_stays s.q _ hwraps] at hfront
        exact hfront
      have hmem := h.inv.ring
      rw [hzero] at hmem
      rw [endMarked, if_neg hwraps]
      rcases hmem with hs | ⟨tail, lap, heq, hw⟩
      · have hlt := hs.tiles.lt_of_ne_nil (fun hnil => hne (List.map_eq_nil_iff.mp hnil))
        omega
      · obtain ⟨e, ht, he⟩ := hw.ends
        have hlap : lap = [] := by
          by_contra hsome
          have := hw.tiles.lt_of_ne_nil hsome
          omega
        rw [heq, hlap, List.append_nil]
        exact ⟨e, ht, he, fun c _ hno => absurd hno hwraps⟩
  have hmem : ∀ c ∈ (unread s).map Entry.cell,
      InMem s.q.size.words (endMarked s.q p.length) c := fun c hcell =>
    (h.inv.ring.mem c (List.mem_append_right _ hcell)).congr
      (agreeOn_endMarked (fun hwraps => Or.inl (hmark c hcell hwraps)))
  obtain ⟨ha, hsuffix⟩ := around_front ht he hmem hagree
  obtain ⟨tail, lap, hleft, hnil⟩ := left_of_around h ha (List.append_nil _).symm
    (by rw [List.append_nil]; exact hsuffix) (by
      intro e hmem hside
      have hlt := e.cell_lt
      refine (agreeOn_endMarked (fun hwraps => Or.inl ?_)).trans (hagree _ _ ?_)
      · exact hmark e.cell (List.mem_map_of_mem hmem) hwraps
      · rw [Entry.cell_start] at hside hlt
        omega)
    (fun _ hcell => absurd hcell List.not_mem_nil)
  rw [List.map_eq_nil_iff.mp hnil] at hleft
  exact ⟨tail, hleft⟩

end Left

/-! ## The chain in the file -/

section Chains

variable {st x b w : Nat} {m' : Mem} {size : QueueSize} {tail lap chain : List Entry}

/-- A chain in memory, with nothing else in the history. -/
theorem inv_of_chain
    (hring : Ring size.words m' (firstStart (chain.map Entry.cell)) w passed
      (chain.map Entry.cell))
    (hne : chain ≠ []) (hstored : ∀ e ∈ chain, Stored (chainQueue size m' w chain) e)
    (hunread : ∀ e ∈ chain, e.Unread)
    (hapart : chain.Pairwise (fun d e => Apart d.cell e.cell)) :
    Inv ⟨chainQueue size m' w chain, chain⟩ passed chain := by
  have hpos : 0 < size.words := by
    have := size.four_le_words
    omega
  refine ⟨⟨hring, ?_, ?_, ?_, fun hcan => nomatch hcan⟩, fun e he _ => hstored e he,
    hapart.imp (fun h _ _ => h), List.Sublist.refl _, hunread⟩
  · intro c hc
    show c.start = lastStart 0 (chain.map Entry.cell)
    simp only [lastStart, hc]
  · intro hnil
    exact absurd (List.map_eq_nil_iff.mp hnil) hne
  · exact lastStart_lt hpos (fun c hc => hring.mem c (List.mem_append_right _ hc))

/-- The new message, once it is complete. -/
theorem newMessage_stored (hc : Started s.q p j) (hprev : s.q.prevPtr < 2 ^ 32)
    (hcomplete : Complete s p j) :
    Stored { s.q with buf := image s.q p j } (newMessage s p j) ∧
      (newMessage s p j).cell.stop = startOf s.q p.length + msgWords p.length := by
  have hlen := hc.len
  have hbytes : ∀ i < 12, image s.q p j (4 * startOf s.q p.length + i)
      = (msgHeader s.q.prevPtr p).getD i 0 := fun i hi => hc.header hi
  have hcrc := (validAt_iff.mp hcomplete.2).2.2
  have hsize : (payloadAt (image s.q p j) (startOf s.q p.length)).length = p.length := by
    rw [payloadAt, Mem.loadBytes_length]
    exact sizeAt_header (by omega) hbytes
  have hstop : (newMessage s p j).cell.stop = startOf s.q p.length + msgWords p.length := by
    rw [Entry.cell_stop, newMessage, hsize]
  refine ⟨⟨holds_of_header hprev hbytes rfl (hcrc.trans (hbytes 2 (by omega))), ?_, ?_⟩, hstop⟩
  · rw [← Entry.cell_stop, hstop]
    exact startOf_fits s.q _ hc.accepts
  · rw [newMessage, hsize]
    exact hlen

/-- Two adjacent stretches of a chain and the message behind them. -/
theorem Left.apart_new (hleft : Left s m' st x passed tail lap b) {e : Entry}
    (hstart : e.start = st) (hstop : e.cell.stop = st + x) :
    ∀ d ∈ tail ++ lap, Apart d.cell e.cell := by
  intro d hd
  rcases List.mem_append.mp hd with hd | hd
  · have hge := hleft.tail_ge d hd
    refine Or.inr ?_
    rw [hstop, Entry.cell_start]
    exact hge
  · have hle := hleft.lap_le d hd
    refine Or.inl ?_
    rw [Entry.cell_start, hstart]
    exact hle

/-- Without the new message. -/
theorem Left.regular {passed' : List Cell} (hleft : Left s m' st x passed tail lap b)
    (h : Regular s passed' (unread s)) (hpos : 0 < st) (hst : st < s.q.size.words)
    (hne : tail ++ lap ≠ []) :
    Regular ⟨chainQueue s.q.size m' st (tail ++ lap), tail ++ lap⟩ passed (tail ++ lap) := by
  obtain ⟨hunread, hapart⟩ := hleft.apart h
  have hring := hleft.around.ring hpos hst (fun hnil => hne (by
    rw [← List.map_append] at hnil
    exact List.map_eq_nil_iff.mp hnil))
  rw [← List.map_append] at hring
  refine ⟨inv_of_chain hring hne (fun e he => ?_) hunread hapart, fun e he _ => he, hleft.behind,
    h.linked.suffix hleft.suffix⟩
  obtain ⟨hholds, hfits, hlen⟩ := hleft.stored e he
  exact ⟨hholds, hfits, hlen⟩

section Complete

variable (hleft : Left s m' st x passed tail lap b) {passed' : List Cell}
  (h : Regular s passed' (unread s)) {e : Entry}
  (hstored : Stored { s.q with buf := m' } e) (hstart : e.start = st)
  (hstop : e.cell.stop = st + x) (hunread : e.Unread)

include hleft h hstored hstart hstop hunread

/-- With the new message at its end. -/
theorem Left.regular_grown (hlink : e.link = s.q.prevPtr) (hne : tail ++ lap ≠ []) :
    Regular ⟨chainQueue s.q.size m' ((st + x) % s.q.size.words) (tail ++ lap ++ [e]),
      tail ++ lap ++ [e]⟩ passed (tail ++ lap ++ [e]) := by
  obtain ⟨hall, hapart⟩ := hleft.apart h
  have hfits := hstored.fits
  rw [← Entry.cell_stop, hstop] at hfits
  have hmem : InMem s.q.size.words m' e.cell :=
    hstored.holds.inMem hstored.len hstored.fits
  have hring := hleft.around.grow (fun hnil => hne (by
    rw [← List.map_append] at hnil
    exact List.map_eq_nil_iff.mp hnil)) hstart hstop hmem hfits
  rw [← List.map_append] at hring
  refine ⟨inv_of_chain ?_ (by simp) ?_ ?_ ?_, fun d hd _ => hd, hleft.behind,
    isChain_suffix_concat hleft.suffix h.linked (fun d hd => ?_)⟩
  · obtain ⟨d, ds, hcons⟩ := List.exists_cons_of_ne_nil hne
    rw [hcons] at hring ⊢
    rw [List.map_append]
    exact hring
  · intro d hd
    rcases List.mem_append.mp hd with hd | hd
    · obtain ⟨hholds, hfit, hlen⟩ := hleft.stored d hd
      exact ⟨hholds, hfit, hlen⟩
    · rw [List.mem_singleton.mp hd]
      obtain ⟨hholds, hfit, hlen⟩ := hstored
      exact ⟨hholds, hfit, hlen⟩
  · intro d hd
    rcases List.mem_append.mp hd with hd | hd
    · exact hall d hd
    · rw [List.mem_singleton.mp hd]
      exact hunread
  · rw [List.pairwise_append]
    refine ⟨hapart, List.pairwise_singleton _ _, ?_⟩
    intro d hd x hx
    rw [List.mem_singleton.mp hx]
    exact hleft.apart_new hstart hstop d hd
  · rw [hlink]
    exact (h.inv.last hd).symm

/-- With the new message between the lap and what lies ahead. -/
theorem Left.inv_round (hne : tail ≠ []) (hfirst : firstStart (tail.map Entry.cell) = st + x) :
    Inv ⟨chainQueue s.q.size m' 0 (lap ++ e :: tail), lap ++ e :: tail⟩ [] (lap ++ e :: tail) ∧
      ∃ b', Tiles 0 ((lap ++ e :: tail).map Entry.cell) b' ∧ AtEnd s.q.size.words m' b' := by
  obtain ⟨hall, hapart⟩ := hleft.apart h
  have hmem : InMem s.q.size.words m' e.cell :=
    hstored.holds.inMem hstored.len hstored.fits
  obtain ⟨b', ht, hend⟩ := hleft.around.round (c := e.cell) hstart hstop hmem
    (fun hnil => hne (List.map_eq_nil_iff.mp hnil)) hfirst
  have hmap : (lap ++ e :: tail).map Entry.cell
      = lap.map Entry.cell ++ e.cell :: tail.map Entry.cell := by
    rw [List.map_append, List.map_cons]
  rw [← hmap] at ht
  have hin : ∀ d ∈ lap ++ e :: tail, d ∈ tail ++ lap ∨ d = e := by
    intro d hd
    rcases List.mem_append.mp hd with hd | hd
    · exact Or.inl (List.mem_append_right _ hd)
    · rcases List.mem_cons.mp hd with hd | hd
      · exact Or.inr hd
      · exact Or.inl (List.mem_append_left _ hd)
  have hcells : ∀ c ∈ (lap ++ e :: tail).map Entry.cell, InMem s.q.size.words m' c := by
    intro c hc
    obtain ⟨d, hd, rfl⟩ := List.mem_map.mp hc
    rcases hin d hd with hd | rfl
    · refine hleft.around.mem _ (List.mem_append_right _ ?_)
      rw [← List.map_append]
      exact List.mem_map_of_mem hd
    · exact hmem
  have hzero : firstStart ((lap ++ e :: tail).map Entry.cell) = 0 := firstStart_eq ht (by simp)
  refine ⟨inv_of_chain (Or.inr ⟨_, [], (List.append_nil _).symm, by simp, ⟨b', ?_, hend⟩,
    Nat.zero_le _, rfl, fun _ => ?_, fun hnil => absurd rfl hnil, ?_⟩) (by simp) ?_ ?_ ?_,
    b', ht, hend⟩
  · rw [hzero]
    exact ht
  · rw [hzero]
    rfl
  · rw [List.append_nil]
    exact hcells
  · intro d hd
    rcases hin d hd with hd | rfl
    · obtain ⟨hholds, hfit, hlen⟩ := hleft.stored d hd
      exact ⟨hholds, hfit, hlen⟩
    · obtain ⟨hholds, hfit, hlen⟩ := hstored
      exact ⟨hholds, hfit, hlen⟩
  · intro d hd
    rcases hin d hd with hd | rfl
    · exact hall d hd
    · exact hunread
  · have hperm : (tail ++ lap ++ [e]).Perm (lap ++ e :: tail) := by
      refine (List.perm_append_comm.append_right [e]).trans ?_
      rw [List.append_assoc]
      exact (List.perm_append_singleton e tail).append_left lap
    refine hperm.pairwise ?_ (fun hap => hap.symm)
    rw [List.pairwise_append]
    refine ⟨hapart, List.pairwise_singleton _ _, ?_⟩
    intro d hd x hx
    rw [List.mem_singleton.mp hx]
    exact hleft.apart_new hstart hstop d hd

end Complete

end Chains

/-! ## The restart -/

section Restart

variable {x b : Nat} {tail lap : List Entry}

/-- The restart finds the chain, ready to be delivered. -/
def Restarts (s : Sys) (p : List UInt8) (j : Nat) : Prop :=
  ∃ q' passed, (ticosdQueueInit s.q.size (image s.q p j)).val = some q' ∧
    Ready ⟨q', cutChain s p j⟩ passed (cutChain s p j)

/-- The messages that the stores so far have left alone, for a write at the write pointer. -/
theorem untouched_eq (hc : Started s.q p j) (hstays : ¬ Wraps s.q p.length) :
    untouched s ((ticosdQueueWrite s.q (some p)).stores.take j)
      = keptClear s s.q.writePtr (reachedBy s.q p j) := by
  refine List.filter_congr fun e _ => ?_
  rw [Bool.eq_iff_iff, Bool.not_eq_true', decide_eq_true_eq]
  exact hc.not_hit_iff hstays e.cell_lt

/-- The messages that the whole write leaves alone, unless the marker falls on one. -/
theorem survivors_eq (hc : Started s.q p j)
    (hmark : Wraps s.q p.length → ∀ e ∈ unread s, e.cell.stop ≤ s.q.writePtr) :
    survivors s p = keptClear s (startOf s.q p.length) (msgWords p.length) := by
  refine List.filter_congr fun e he => ?_
  rw [Bool.eq_iff_iff, Bool.not_eq_true', decide_eq_true_eq, ← Bool.not_eq_true,
    hits_write hc.len hc.reader hc.accepts e.cell_lt, Touches, not_or]
  constructor
  · rintro ⟨hno, -⟩
    omega
  · intro hside
    refine ⟨by omega, ?_⟩
    rintro ⟨hwraps, -, hlt⟩
    have := hmark hwraps e he
    omega

/-- The survivors ahead of the new message, and those of its lap. -/
theorem Left.split (hleft : Left s (image s.q p j) (startOf s.q p.length) x passed tail lap b)
    (hsurvivors : survivors s p = tail ++ lap) : ahead s p = tail ∧ lapped s p = lap := by
  have htail : ∀ e ∈ tail, startOf s.q p.length ≤ e.start := fun e he =>
    Nat.le_trans (Nat.le_add_right _ _) (hleft.tail_ge e he)
  have hlap : ∀ e ∈ lap, ¬ startOf s.q p.length ≤ e.start := by
    intro e he
    have hle := hleft.lap_le e he
    have hlt := e.cell_lt
    rw [Entry.cell_start] at hlt
    omega
  rw [ahead, lapped, hsurvivors, List.filter_append, List.filter_append]
  constructor
  · rw [List.filter_eq_self.mpr (fun e he => decide_eq_true (htail e he)),
      List.filter_eq_nil_iff.mpr (fun e he => by simpa using hlap e he), List.append_nil]
  · rw [List.filter_eq_nil_iff.mpr (fun e he => by simpa using htail e he), List.nil_append,
      List.filter_eq_self.mpr (fun e he => by simpa using hlap e he)]

/-- The queue of a regular chain. -/
theorem restarts_of_regular {w : Nat} (hwrite : cutWritePtr s p j = w)
    (h : Regular ⟨chainQueue s.q.size (image s.q p j) w (cutChain s p j), cutChain s p j⟩ passed
      (cutChain s p j)) (hok : RestartOk (cutQueue s p j) (cutChain s p j)) :
    Restarts s p j := by
  rw [cutQueue, hwrite] at hok
  obtain ⟨q', passed', hinit, -, -, hready⟩ := h.restart hok
  exact ⟨q', passed', hinit, hready⟩

/-- The new message is complete. -/
theorem restarts_complete (h : Regular s passed (unread s)) (hc : Started s.q p j)
    {passed' : List Cell}
    (hleft : Left s (image s.q p j) (startOf s.q p.length) (msgWords p.length) passed' tail lap b)
    (hsurvivors : survivors s p = tail ++ lap) (hne : tail ++ lap ≠ [])
    (hcomplete : Complete s p j) (hok : RestartOk (cutQueue s p j) (cutChain s p j)) :
    Restarts s p j := by
  obtain ⟨hstored, hstop⟩ := newMessage_stored hc h.inv.shape.prevPtr_small hcomplete
  obtain ⟨hahead, hlapped⟩ := hleft.split hsurvivors
  by_cases haligned : Aligned s p
  · -- the scan runs on over the messages ahead
    have hchain : cutChain s p j = lap ++ newMessage s p j :: tail := by
      rw [cutChain, if_pos hcomplete, if_pos haligned, hahead, hlapped]
    have hwrite : cutWritePtr s p j = 0 := by
      rw [cutWritePtr, if_pos hcomplete, if_pos haligned]
    rw [Aligned, hahead] at haligned
    obtain ⟨hinv, e, ht, hend⟩ := hleft.inv_round h hstored rfl hstop ⟨rfl, rfl⟩
      (by rintro rfl; exact nomatch haligned) (by
        cases tail with
        | nil => exact nomatch haligned
        | cons d ds => exact Option.some.inj haligned)
    have hstrict := hok.strict
    rw [hchain] at hstrict
    obtain ⟨d, ds, hcons⟩ := List.exists_cons_of_ne_nil
      (show lap ++ newMessage s p j :: tail ≠ [] by simp)
    rw [hcons] at hinv ht hstrict
    have hstart : firstStart ((d :: ds).map Entry.cell) = 0 := firstStart_eq ht (by simp)
    obtain ⟨q', passed'', hinit, -, -, hready⟩ := restart_to_end hinv
      (fun c hcell => nomatch hcell) hstrict hstart.symm (by
        show Tiles (firstStart ((d :: ds).map Entry.cell)) _ _
        rw [hstart]
        exact ht) hend
    refine ⟨q', passed'', hinit, ?_⟩
    rw [hchain, hcons]
    exact hready
  · have hchain : cutChain s p j = tail ++ lap ++ [newMessage s p j] := by
      rw [cutChain, if_pos hcomplete, if_neg haligned, hsurvivors]
    have hregular := hleft.regular_grown h hstored rfl hstop ⟨rfl, rfl⟩ rfl hne
    rw [← hchain] at hregular
    exact restarts_of_regular (by rw [cutWritePtr, if_pos hcomplete, if_neg haligned]) hregular hok

/-- Only the end marker is there: the chain runs up to it. -/
theorem restarts_marker (h : Regular s passed (unread s)) (hlen : p.length + 3 < 2 ^ 32)
    (hacc : Accepts s.q p.length) (hne : unread s ≠ []) (hwraps : Wraps s.q p.length)
    (hlt : s.q.readPtr < s.q.writePtr) (hj : j = 1)
    (hok : RestartOk (cutQueue s p j) (cutChain s p j)) : Restarts s p j := by
  obtain ⟨ht, hbefore⟩ := unread_before_write h hlt
  have hstop : ∀ c ∈ passed ++ (unread s).map Entry.cell, c.stop ≤ s.q.writePtr := by
    intro c hc
    have hall : Tiles 0 (passed ++ (unread s).map Entry.cell) s.q.writePtr :=
      tiles_append.mpr ⟨s.q.readPtr, hbefore, ht⟩
    exact (hall.bounds hc).2.2
  have htake : (ticosdQueueWrite s.q (some p)).stores.take j = markerStores s.q p.length := by
    rw [write_stores s.q p hlen h.inv.readPtr_small hacc, markerStores, if_pos hwraps, hj]
    rfl
  have himage : image s.q p j = endMarked s.q p.length := by
    rw [image, htake]
    exact applyStores_marker s.q p.length
  have hagree : ∀ c ∈ passed ++ (unread s).map Entry.cell,
      AgreeOn s.q.buf (image s.q p j) c.start c.stop := by
    intro c hc
    rw [himage]
    exact agreeOn_endMarked (fun _ => Or.inl (hstop c hc))
  have hincomplete : ¬ Complete s p j := by
    rintro ⟨hstored, -⟩
    rw [HeaderStored, markerStores, if_pos hwraps, hj] at hstored
    exact Nat.lt_irrefl 1 hstored
  have hchain : cutChain s p j = unread s := by
    rw [cutChain, if_neg hincomplete, htake]
    refine List.filter_eq_self.mpr fun e he => ?_
    have hle := hstop e.cell (List.mem_append_right _ (List.mem_map_of_mem he))
    rw [Bool.not_eq_true', markerStores, if_pos hwraps, hits, List.any_cons, List.any_nil,
      Bool.or_false, decide_eq_false_iff_not]
    rintro ⟨hhit, -⟩
    dsimp only at hhit
    omega
  have hwrite : cutWritePtr s p j = 0 := by
    rw [cutWritePtr, if_neg hincomplete, startOf_wraps s.q _ hwraps]
  have hfirst : firstStart ((unread s).map Entry.cell) = s.q.readPtr :=
    firstStart_eq ht (fun hnil => hne (List.map_eq_nil_iff.mp hnil))
  have hend : AtEnd s.q.size.words (image s.q p j) s.q.writePtr := by
    rw [himage]
    exact atEnd_endMarked hwraps
  have hmem : ∀ c ∈ passed ++ (unread s).map Entry.cell,
      InMem s.q.size.words (image s.q p j) c := fun c hc => (h.inv.ring.mem c hc).congr (hagree c hc)
  have hinv : Inv ⟨chainQueue s.q.size (image s.q p j) 0 (unread s), unread s⟩ passed
      (unread s) := by
    refine inv_of_chain (Or.inr ⟨_, [], (List.append_nil _).symm,
      fun hnil => hne (List.map_eq_nil_iff.mp hnil), ⟨_, ?_, hend⟩, Nat.zero_le _, rfl,
      fun _ => ?_, fun hnil => absurd rfl hnil, ?_⟩) hne ?_ h.inv.unread ?_
    · rw [hfirst]
      exact ht
    · rw [hfirst]
      exact hbefore
    · rw [List.append_nil]
      exact hmem
    · intro e he
      have hst := h.inv.stored e (h.inv.pend_mem he) (h.inv.unread e he).1
      exact ⟨hst.holds.congr hst.len
        (hagree e.cell (List.mem_append_right _ (List.mem_map_of_mem he))), hst.fits, hst.len⟩
    · refine (h.inv.apart.sublist h.inv.sub).imp_of_mem ?_
      intro d e hd he hap
      exact hap (h.inv.unread d hd).1 (h.inv.unread e he).1
  have hbehind : Marked s.q.size.words (image s.q p j) true passed :=
    h.behind.congr s.q.size.words_le (fun c hc => hagree c (List.mem_append_left _ hc))
  have hstrict := hok.strict
  rw [hchain] at hstrict
  rw [Restarts, hchain]
  obtain ⟨d, ds, hcons⟩ := List.exists_cons_of_ne_nil hne
  rw [hcons] at hinv ht hstrict hfirst ⊢
  obtain ⟨q', passed'', hinit, -, -, hready⟩ := restart_to_end hinv hbehind hstrict
    (by
      show Tiles 0 passed (firstStart ((d :: ds).map Entry.cell))
      rw [hfirst]
      exact hbefore)
    (by
      show Tiles (firstStart ((d :: ds).map Entry.cell)) _ _
      rw [hfirst]
      exact ht) hend
  exact ⟨q', passed'', hinit, hready⟩

/-- A message that is refused is not stored. -/
theorem stores_refused {q : TicosdQueue} (h : ¬ Accepts q p.length) :
    (ticosdQueueWrite q (some p)).stores = [] := by
  simp only [ticosdQueueWrite]
  by_cases hpos : p.length = 0
  · rw [if_pos hpos]
    rfl
  · rw [if_neg hpos, if_pos]
    · rfl
    · by_contra hfits
      refine h ⟨Nat.pos_of_ne_zero hpos, ?_⟩
      rw [msgWords]
      omega

/-- What survives the whole write is left alone by the stores so far. -/
theorem survivors_sublist (s : Sys) (p : List UInt8) (j : Nat) :
    (survivors s p).Sublist (untouched s ((ticosdQueueWrite s.q (some p)).stores.take j)) := by
  refine List.monotone_filter_right _ fun e he => ?_
  rw [Bool.not_eq_true', hits, List.any_eq_false] at he ⊢
  exact fun st hst => he st (List.mem_of_mem_take hst)

/-- **The restart after a cut write**: unless nothing has been stored, the search finds the
    chain of the file. -/
theorem cut_restarts (h : Regular s passed (unread s)) (hlen : p.length + 3 < 2 ^ 32)
    (hne : survivors s p ≠ [])
    (hsome : (ticosdQueueWrite s.q (some p)).stores.take j ≠ []) (hfront : FrontOk s p j)
    (hok : RestartOk (cutQueue s p j) (cutChain s p j)) : Restarts s p j := by
  have hacc : Accepts s.q p.length := by
    by_contra hno
    exact hsome (by rw [stores_refused hno, List.take_nil])
  have hunread : unread s ≠ [] := by
    intro hnil
    rw [survivors, untouched, hnil] at hne
    exact hne rfl
  -- a write that wraps has the reader in front of the writer, if its front is all right
  have hwrapped : Wraps s.q p.length → s.q.readPtr < s.q.writePtr := by
    intro hwraps
    refine (hfront (startOf_wraps s.q _ hwraps)).1.resolve_right ?_
    intro hzero
    have hroom := hacc.2
    rw [Wraps, hzero] at hwraps
    omega
  by_cases hstored : HeaderStored s.q p j
  · have hc : Started s.q p j := ⟨hlen, h.inv.readPtr_small, hacc, hstored⟩
    have hsurvivors := survivors_eq hc (fun hwraps e he =>
      ((unread_before_write h (hwrapped hwraps)).1.bounds (List.mem_map_of_mem he)).2.2)
    by_cases hzero : startOf s.q p.length = 0
    · obtain ⟨hside, hcomplete⟩ := hfront hzero
      obtain ⟨tail, hleft⟩ := left_front h hc hzero hside hunread
      rw [← hzero] at hleft
      rw [hleft.kept] at hsurvivors
      rw [hsurvivors] at hne
      exact restarts_complete h hc hleft hsurvivors hne (hcomplete hstored) hok
    · have hstays : ¬ Wraps s.q p.length := fun hwraps => hzero (startOf_wraps s.q _ hwraps)
      have hstart := startOf_stays s.q _ hstays
      have hw : s.q.writePtr ≠ 0 := by
        rw [← hstart]
        exact hzero
      by_cases hcomplete : Complete s p j
      · obtain ⟨passed', tail, lap, b, hleft⟩ := left_in_place h hc hstays hw (reached_le _ _)
        rw [← hstart] at hleft
        rw [hleft.kept] at hsurvivors
        rw [hsurvivors] at hne
        exact restarts_complete h hc hleft hsurvivors hne hcomplete hok
      · obtain ⟨passed', tail, lap, b, hleft⟩ := left_in_place h hc hstays hw (Nat.le_refl _)
        have hchain : cutChain s p j = tail ++ lap := by
          rw [cutChain, if_neg hcomplete, untouched_eq hc hstays, hleft.kept]
        have hsub := survivors_sublist s p j
        rw [untouched_eq hc hstays, hleft.kept] at hsub
        have hregular := hleft.regular h (Nat.pos_of_ne_zero hw) h.inv.shape.writePtr_lt
          (fun hnil => hne (List.sublist_nil.mp (hnil ▸ hsub)))
        rw [← hchain] at hregular
        exact restarts_of_regular (by rw [cutWritePtr, if_neg hcomplete, hstart]) hregular hok
  · have hwraps : Wraps s.q p.length := by
      by_contra hstays
      rw [HeaderStored, markerStores, if_neg hstays, List.length_nil, Nat.not_lt, Nat.le_zero] at hstored
      exact hsome (by rw [hstored, List.take_zero])
    refine restarts_marker h hlen hacc hunread hwraps (hwrapped hwraps) ?_ hok
    rw [HeaderStored, markerStores, if_pos hwraps, List.length_singleton] at hstored
    have hpos : j ≠ 0 := by
      rintro rfl
      exact hsome List.take_zero
    omega

end Restart

/-! ## The front of the buffer -/

/-- Nothing is found behind an invalid header at index 0. -/
theorem redeliver_front_invalid {size : QueueSize} {m : Mem} (h : validAt size.words m 0 = false)
    (fuel : Nat) : redeliver (fuel + 1) size m = some [] := by
  have hscan : scan size.words m (size.words + 1) 0 0 0 true = some (0, 0, 0) := by
    rw [scan, if_pos h]
    rfl
  have hhead : (ticosdQueueReadHead (opened size m 0 0 0) true).val
      = (none, opened size m 0 0 0) := by
    rw [readHead_val, if_pos (Or.inl ?_)]
    show (decide ((0 : Nat) = 0) && (!validAt size.words m 0 || readAt m 0)) = true
    rw [h]
    rfl
  rw [redeliver, queueInit_val hscan rfl, Option.bind_some, QueueRestart.drain, hhead]

/-- So a message there that has a header and is not complete loses whatever is left. -/
theorem front_incomplete_loses (hfront : startOf s.q p.length = 0)
    (hstored : HeaderStored s.q p j) (hno : ¬ Complete s p j) {es : List Entry} (hes : es ≠ [])
    (fuel : Nat) : ¬ Delivers fuel s.q.size (image s.q p j) es := by
  intro hdelivers
  have hinvalid : validAt s.q.size.words (image s.q p j) 0 = false := by
    rw [Complete, hfront] at hno
    exact Bool.eq_false_iff.mpr fun hv => hno ⟨hstored, hv⟩
  obtain ⟨out, hout, hsub⟩ := hdelivers hes
  cases fuel with
  | zero =>
      rw [redeliver] at hout
      obtain ⟨q, -, hnone⟩ := Option.bind_eq_some_iff.mp hout
      cases hnone
  | succ fuel =>
      rw [redeliver_front_invalid hinvalid] at hout
      obtain rfl := Option.some.inj hout
      exact hes (List.map_eq_nil_iff.mp (List.subperm_nil.mp hsub))

/-! ## Every run -/

/-- The states that are reached from an empty buffer by operations that meet the
    condition. -/
def Reached (s : Sys) : Prop :=
  ∃ size file ops, Blank size file ∧ Along Sys.step KeepsOrder (fresh size file) ops ∧
    s = run Sys.step (fresh size file) ops

/-- The chain is regular, and it is what is unread. -/
def Chained (s : Sys) : Prop := ∃ passed, Regular s passed (unread s)

theorem chained_of_regular (h : Regular s passed pend) : Chained s := by
  refine ⟨passed, ?_⟩
  have hpend : pend = unread s := pend_eq_filter h.inv h.full
  rw [← hpend]
  exact h

theorem chained_step {a : Op} (h : Chained s) (hok : KeepsOrder s a) : Chained (s.step a) := by
  obtain ⟨passed, h⟩ := h
  cases a with
  | write payload =>
      cases payload with
      | none => exact ⟨passed, h⟩
      | some p =>
          obtain ⟨hlen, hleft⟩ := hok
          by_cases hacc : Accepts s.q p.length
          · obtain ⟨passed', kept, h'⟩ := h.write (hlen p rfl) hacc (hleft p rfl hacc)
            exact chained_of_regular h'
          · refine ⟨passed, ?_⟩
            rw [Sys.step, Sys.write_refused (hlen p rfl) h.inv.readPtr_small hacc]
            exact h
  | readHead malloc => exact ⟨passed, h.readHead hok malloc⟩
  | completeRead =>
      obtain ⟨passed', pend', h'⟩ := h.completeRead hok
      exact chained_of_regular h'

theorem reached_chained (h : Reached s) : Chained s := by
  obtain ⟨size, file, ops, hblank, hok, rfl⟩ := h
  exact invariant (fun _ _ h hs => chained_step h hs) (chained_of_regular (regular_fresh hblank))
    hok

/-- The chain in the file has the survivors. -/
theorem survivors_subperm (s : Sys) (p : List UInt8) (j : Nat) :
    (survivors s p).Subperm (cutChain s p j) := by
  rw [cutChain]
  by_cases hcomplete : Complete s p j
  · rw [if_pos hcomplete]
    by_cases haligned : Aligned s p
    · rw [if_pos haligned]
      have hparts : (survivors s p).Perm (lapped s p ++ ahead s p) :=
        (List.perm_append_comm.trans (List.filter_append_perm _ _)).symm
      exact hparts.subperm.trans
        (List.Sublist.subperm ((List.sublist_cons_self _ _).append_left (lapped s p)))
    · rw [if_neg haligned]
      exact (List.sublist_append_left _ _).subperm
  · rw [if_neg hcomplete]
    exact (survivors_sublist s p j).subperm

theorem cutChain_length (s : Sys) (p : List UInt8) (j : Nat) :
    (cutChain s p j).length ≤ s.log.length + 1 := by
  have hle : ∀ stores, (untouched s stores).length ≤ s.log.length := fun stores =>
    (List.length_filter_le _ _).trans (List.length_filter_le _ _)
  have hsurvivors : (survivors s p).length ≤ s.log.length := hle _
  have hparts : (lapped s p ++ ahead s p).length = (survivors s p).length :=
    (List.perm_append_comm.trans (List.filter_append_perm _ _)).length_eq
  rw [List.length_append] at hparts
  rw [cutChain]
  by_cases hcomplete : Complete s p j
  · rw [if_pos hcomplete]
    by_cases haligned : Aligned s p
    · rw [if_pos haligned, List.length_append, List.length_cons]
      omega
    · rw [if_neg haligned, List.length_append, List.length_singleton]
      omega
  · rw [if_neg hcomplete]
    exact Nat.le_succ_of_le (hle _)

/-- **Power cut during a write**: in every state that is reached and from whose buffer a
    restart delivers all unread messages, a restart after any number of the stores of a
    further write delivers every unread message that the write leaves alone, if the cut
    meets `CutOk`. -/
theorem power_cut_delivers (hs : Reached s) (hlen : p.length + 3 < 2 ^ 32) {fuel : Nat}
    (hfuel : s.log.length + 1 < fuel)
    (hbefore : Delivers fuel s.q.size s.q.buf (unread s)) (hcut : CutOk s p j) :
    Delivers fuel s.q.size (image s.q p j) (survivors s p) := by
  intro hne
  have hunread : (survivors s p).Sublist (unread s) := List.filter_sublist
  by_cases hnone : (ticosdQueueWrite s.q (some p)).stores.take j = []
  · -- nothing has been stored
    obtain ⟨out, hout, hsub⟩ := hbefore (fun hnil => hne (List.sublist_nil.mp (hnil ▸ hunread)))
    refine ⟨out, ?_, (hunread.map Entry.payload).subperm.trans hsub⟩
    rw [image, hnone]
    exact hout
  · obtain ⟨hfront, hok⟩ := (hcut.resolve_left hne).resolve_left hnone
    obtain ⟨passed, h⟩ := reached_chained hs
    obtain ⟨q', passed', hinit, hready⟩ := cut_restarts h hlen hne hnone hfront hok
    have hdrain := Ready.drain (cutChain s p j) ⟨q', _⟩ passed' hready fuel
      (Nat.lt_of_le_of_lt (cutChain_length s p j) hfuel)
    obtain ⟨es, hperm, hsub⟩ := survivors_subperm s p j
    refine ⟨(cutChain s p j).map Entry.payload, ?_, es.map Entry.payload, hperm.map _, hsub.map _⟩
    rw [redeliver]
    exact (congrArg (Option.bind · (drain fuel)) hinit).trans hdrain

/-- Three messages, the first two read. -/
def lastWaiting : Sys := run Sys.step (blank 16 (by decide) (by decide))
  [.write (some [1]), .write (some [2]), .write (some [3]), .readHead true, .completeRead,
    .readHead true, .completeRead]

/-- A message of five words goes to index 0, and the power goes behind its payload. -/
theorem power_cut_delivers_payload :
    (survivors lastWaiting [5, 6, 7, 8, 9]).map Entry.payload = [[3]] ∧
      Delivers 5 lastWaiting.q.size (image lastWaiting.q [5, 6, 7, 8, 9] 3)
        (survivors lastWaiting [5, 6, 7, 8, 9]) := by
  have hs : Reached lastWaiting :=
    ⟨.ofWords 16 (by decide) (by decide), fun _ => 0, _, fun _ _ => rfl, by decide +kernel, rfl⟩
  have hbefore : Delivers 5 lastWaiting.q.size lastWaiting.q.buf (unread lastWaiting) :=
    fun _ => ⟨[[3]], by decide +kernel, by decide +kernel⟩
  exact ⟨by decide +kernel, power_cut_delivers hs (by decide) (by decide +kernel) hbefore
    (Or.inr (Or.inr ⟨by decide +kernel, by decide +kernel, by decide +kernel, by decide +kernel,
      by decide +kernel, by decide +kernel⟩))⟩

/-- The power goes behind its header. -/
theorem waiting_message_lost :
    Reached lastWaiting ∧ lastWaiting.q.readPtr ≠ lastWaiting.q.writePtr ∧
      Delivers 5 lastWaiting.q.size lastWaiting.q.buf (unread lastWaiting) ∧
      (survivors lastWaiting [5, 6, 7, 8, 9]).map Entry.payload = [[3]] ∧
      ∀ fuel, ¬ Delivers fuel lastWaiting.q.size (image lastWaiting.q [5, 6, 7, 8, 9] 2)
        (survivors lastWaiting [5, 6, 7, 8, 9]) := by
  have hsurvivors : (survivors lastWaiting [5, 6, 7, 8, 9]).map Entry.payload = [[3]] := by
    decide +kernel
  have hs : Reached lastWaiting :=
    ⟨.ofWords 16 (by decide) (by decide), fun _ => 0, _, fun _ _ => rfl, by decide +kernel, rfl⟩
  refine ⟨hs, by decide +kernel, fun _ => ⟨[[3]], by decide +kernel, by decide +kernel⟩,
    hsurvivors, ?_⟩
  refine front_incomplete_loses (by decide +kernel) (by decide +kernel) (by decide +kernel) ?_
  intro hnil
  rw [hnil] at hsurvivors
  exact nomatch hsurvivors

end QueuePowerCut
