import Ticosd.QueueInterleave

/-! # No invented messages

    Every header that a write stores is that of a message, but two functions of the
    queue look for a header where no message may be: `ticosd_queue_read_head` when the
    pointers are equal, and the search at start of day.  They go by the bytes they find
    there, and bytes of a payload can look like a header.

    Everywhere else the reader stands on a message of the history.  `Sound` says where:
    behind the writer on a message of the current lap, elsewhere on one from which known
    messages lie end to end up to the end of a lap.  A write keeps that, whatever it
    runs over, and so does a completed read, also when a left-over end marker sends the
    reader back to index 0.  `HeadOk` and `SearchKnown` are the conditions on the two
    functions that look. -/

namespace QueueGenuine

open ByteStore QueueModel QueueView QueueRing QueueOverwrite QueueRun QueueScan
  QueueInterleave Tiling GuardedRun

variable {s : Sys} {lap : List Cell} {c d : Cell} {n : Nat} {m : Mem}

/-! ## Known messages -/

/-- An intact message of the history begins at the index. -/
def Known (s : Sys) (i : Nat) : Prop := ∃ e ∈ s.log, e.start = i ∧ e.Intact

instance (s : Sys) : DecidablePred (Known s) :=
  fun _ => inferInstanceAs (Decidable (∃ _ ∈ s.log, _))

/-- The words of an intact message of the history. -/
def KnownCell (s : Sys) (c : Cell) : Prop := ∃ e ∈ s.log, e.Intact ∧ e.cell = c

theorem KnownCell.inMem (h : KnownCell s c) (hk : Kept s) :
    InMem s.q.size.words s.q.buf c := by
  obtain ⟨e, he, hi, rfl⟩ := h
  have hst := hk.stored e he hi
  exact hst.holds.inMem hst.len hst.fits

theorem Known.cell {i : Nat} (h : Known s i) (hk : Kept s) :
    KnownCell s (headerCell s.q.buf i) := by
  obtain ⟨e, he, rfl, hi⟩ := h
  refine ⟨e, he, hi, ?_⟩
  rw [headerCell, (hk.stored e he hi).holds.stop]
  rfl

/-- Known cells that share a word are the same. -/
theorem KnownCell.eq_of_overlap (hc : KnownCell s c) (hd : KnownCell s d) (hk : Kept s)
    (h1 : c.start < d.stop) (h2 : d.start < c.stop) : c = d := by
  obtain ⟨e, he, hei, rfl⟩ := hc
  obtain ⟨f, hf, hfi, rfl⟩ := hd
  by_contra hne
  have hap := hk.apart_of_ne he hf hei hfi (fun heq => hne (by rw [heq]))
  simp only [Apart] at hap
  omega

/-! ## Where the reader stands -/

/-- The messages in front of a reader that is not behind the writer: known ones, end to
    end, up to the end of a lap.  While the current lap is empty the last of them is the
    last message written. -/
structure Tail (s : Sys) (tail : List Cell) (e : Nat) : Prop where
  ne : tail ≠ []
  tiles : Tiles s.q.readPtr tail e
  at_end : AtEnd s.q.size.words s.q.buf e
  le : s.q.writePtr ≤ s.q.readPtr
  known : ∀ c ∈ tail, KnownCell s c
  last : s.q.writePtr = 0 → ∀ c, tail.getLast? = some c → c.start = s.q.prevPtr

/-- There are such messages. -/
def Ahead (s : Sys) : Prop := ∃ tail e, Tail s tail e

/-- The current lap consists of known messages, and the reader stands on one of them, in
    front of others, or at the writer with nothing to read. -/
structure Sound (s : Sys) (lap : List Cell) : Prop where
  kept : Kept s
  on_lap : Lap s.q lap
  known : ∀ c ∈ lap, KnownCell s c
  last : ∀ c, lap.getLast? = some c → c.start = s.q.prevPtr
  ahead : s.q.writePtr < s.q.readPtr → Ahead s
  equal : s.q.readPtr = s.q.writePtr →
    Ahead s ∨ validAt s.q.size.words s.q.buf s.q.writePtr = false ∨
      readAt s.q.buf s.q.prevPtr = true
  flag : s.q.canCompleteRead = true → s.q.readPtr = s.q.writePtr → Ahead s

theorem Sound.prev_small (h : Sound s lap) : s.q.prevPtr < 2 ^ 32 := by
  have := h.on_lap.prev_lt
  have := s.q.size.words_le
  omega

/-- The first message in front of the reader. -/
theorem Ahead.head (h : Ahead s) : ∃ c, KnownCell s c ∧ c.start = s.q.readPtr := by
  obtain ⟨tail, e, h⟩ := h
  cases tail with
  | nil => exact absurd rfl h.ne
  | cons c cs => exact ⟨c, h.known c List.mem_cons_self, h.tiles.head_start⟩

/-- A reader that has something to read stands on a known message. -/
theorem Sound.reader (h : Sound s lap) (heq : s.q.readPtr = s.q.writePtr → Ahead s) :
    ∃ c, KnownCell s c ∧ c.start = s.q.readPtr := by
  rcases Nat.lt_trichotomy s.q.readPtr s.q.writePtr with hlt | hrw | hgt
  · obtain ⟨c, hc, hstart⟩ := h.on_lap.on hlt
    exact ⟨c, h.known c hc, hstart⟩
  · exact (heq hrw).head
  · exact (h.ahead hgt).head

/-! ## Reading -/

/-- A head at equal pointers, under the condition on it, is that of a full queue. -/
theorem Sound.ahead_of_head (h : Sound s lap) (hok : HeadOk s.q) (hcaught : caughtUp s.q = false)
    (heq : s.q.readPtr = s.q.writePtr) : Ahead s := by
  rw [caughtUp, decide_eq_true heq, Bool.true_and, Bool.or_eq_false_iff,
    Bool.not_eq_false'] at hcaught
  obtain ⟨hv, hr⟩ := hcaught
  rcases h.equal heq with hahead | hinvalid | hread
  · exact hahead
  · rw [← heq, hv] at hinvalid
    cases hinvalid
  · rw [hok heq hv hr] at hread
    cases hread

/-- **A head was written**: what `ticosd_queue_read_head` returns is the payload of a
    message of the history. -/
theorem Sound.head_written (h : Sound s lap) (hok : HeadOk s.q) {malloc : Bool}
    {p : List UInt8} (hp : (ticosdQueueReadHead s.q malloc).val.1 = some p) :
    ∃ e ∈ s.log, e.payload = p := by
  rw [readHead_val] at hp
  by_cases hc : caughtUp s.q = true ∨ malloc = false
  · rw [if_pos hc] at hp
    exact nomatch hp
  · rw [if_neg hc] at hp
    have hcaught : caughtUp s.q = false := by
      rw [← Bool.not_eq_true]
      exact fun ht => hc (Or.inl ht)
    obtain ⟨_, ⟨e, he, hi, rfl⟩, hstart⟩ := h.reader (h.ahead_of_head hok hcaught)
    refine ⟨e, he, ?_⟩
    rw [← (h.kept.stored e he hi).holds.data, ← Option.some.inj hp]
    exact congrArg _ hstart

theorem Sound.readHead (h : Sound s lap) (hok : HeadOk s.q) (malloc : Bool) :
    Sound (s.step (.readHead malloc)) lap := by
  simp only [Sys.step, readHead_val]
  by_cases hc : caughtUp s.q = true ∨ malloc = false
  · rw [if_pos hc]
    exact h
  · rw [if_neg hc]
    have hcaught : caughtUp s.q = false := by
      rw [← Bool.not_eq_true]
      exact fun ht => hc (Or.inl ht)
    -- nothing but the flag changes
    have hahead : Ahead s → Ahead ⟨{ s.q with canCompleteRead := true }, s.log⟩ := by
      rintro ⟨tail, e, ht⟩
      exact ⟨tail, e, ht.ne, ht.tiles, ht.at_end, ht.le, ht.known, ht.last⟩
    refine ⟨h.kept.handle rfl rfl, ?_, h.known, h.last, fun hlt => hahead (h.ahead hlt),
      fun heq => (h.equal heq).imp_left hahead,
      fun _ heq => hahead (h.ahead_of_head hok hcaught heq)⟩
    exact ⟨h.on_lap.tiles, h.on_lap.mem, h.on_lap.on, h.on_lap.write_lt, h.on_lap.read_lt,
      h.on_lap.prev_lt⟩

/-! ## Completing -/

theorem KnownCell.complete (h : KnownCell s c) (hr : s.q.readPtr < 2 ^ 31)
    (hcan : s.q.canCompleteRead = true) : KnownCell s.completeRead c := by
  obtain ⟨e, he, hi, rfl⟩ := h
  rw [Sys.completeRead_taken hr hcan]
  exact ⟨e.complete s.q.readPtr, List.mem_map_of_mem he, Entry.complete_intact.mpr hi,
    Entry.complete_cell _ _⟩

/-- The handle after a read that was completed. -/
theorem completeRead_handle (hr : s.q.readPtr < 2 ^ 31) (hcan : s.q.canCompleteRead = true) :
    s.completeRead.q = afterComplete s.q := by
  rw [Sys.completeRead_taken hr hcan]

/-- Where completing the read leaves the reader: in front of known messages, or on the
    current lap, or at the writer when the message was the last one written. -/
def Moved (s : Sys) : Prop :=
  (Ahead s.completeRead ∧ s.q.writePtr < (afterComplete s.q).readPtr) ∨
    ((afterComplete s.q).readPtr ≤ s.q.writePtr ∧
      ((afterComplete s.q).readPtr = s.q.writePtr → s.q.prevPtr = s.q.readPtr))

/-- From a message of the current lap. -/
theorem Sound.moved_on_lap (h : Sound s lap) (hlt : s.q.readPtr < s.q.writePtr) : Moved s := by
  -- the message ends at the next one of the lap, or at the writer; a left-over end marker
  -- there sends the reader to index 0
  obtain ⟨c, hc, hcs⟩ := h.on_lap.on hlt
  have hstop := (h.on_lap.complete.mem c hc).stop_eq
  have hb := h.on_lap.tiles.bounds hc
  simp only [start_cell, stop_cell] at hb
  rw [hcs] at hstop
  have hnext : (afterComplete s.q).readPtr
      = nextAt s.q.size.words (afterComplete s.q).buf s.q.readPtr := rfl
  refine Or.inr ?_
  by_cases hz : (afterComplete s.q).readPtr = 0
  · exact ⟨by omega, fun heq => by omega⟩
  · rw [hnext] at hz ⊢
    rw [(nextAt_forward hz).1, hstop]
    refine ⟨hb.2.2, fun heq => ?_⟩
    rw [← h.last c (h.on_lap.tiles.getLast?_of_stop hc heq), hcs]

/-- From a message with known ones behind it. -/
theorem Tail.moved {tail : List Cell} {e : Nat} (ht : Tail s tail e) (hk : Kept s.completeRead)
    (hr : s.q.readPtr < 2 ^ 31) (hcan : s.q.canCompleteRead = true) : Moved s := by
  have hq := completeRead_handle hr hcan
  have hmem : ∀ c ∈ tail, InMem s.q.size.words (afterComplete s.q).buf c := by
    intro c hc
    have hin := ((ht.known c hc).complete hr hcan).inMem hk
    rw [hq] at hin
    exact hin
  have hnext : (afterComplete s.q).readPtr
      = nextAt s.q.size.words (afterComplete s.q).buf s.q.readPtr := rfl
  have htiles := ht.tiles
  cases tail with
  | nil => exact absurd rfl ht.ne
  | cons c cs =>
      have hcs : c.start = s.q.readPtr := htiles.head_start
      have hcm := hmem c List.mem_cons_self
      have hct := hcm.lt
      have hle : c.stop ≤ e := htiles.2.2.le
      have hend : AtEnd s.q.size.words (afterComplete s.q).buf e :=
        ht.at_end.congr (Or.inr (agreeOn_markRead _ (by omega)))
      cases cs with
      | nil =>
          -- the last one of a lap
          have hstop : stopAt (afterComplete s.q).buf s.q.readPtr = e := by
            rw [← hcs, hcm.stop_eq]
            exact htiles.2.2
          rw [Moved, hnext, nextAt_atEnd hstop hend]
          refine Or.inr ⟨Nat.zero_le _, fun heq => ?_⟩
          rw [← ht.last heq.symm c rfl, hcs]
      | cons d ds =>
          have hds : d.start = c.stop := htiles.2.2.1
          have hto : (afterComplete s.q).readPtr = d.start := by
            rw [hnext, ← hcs, nextAt_tiles htiles hcm (hmem d (by simp))]
          have hwd : s.q.writePtr < d.start := by
            have := ht.le
            omega
          refine Or.inl ⟨⟨d :: ds, e, by simp, ?_, ?_, ?_, ?_, ?_⟩, ?_⟩
          · rw [hq, hto, hds]
            exact htiles.2.2
          · rw [hq]
            exact hend
          · rw [hq, hto]
            exact Nat.le_of_lt hwd
          · intro x hx
            exact (ht.known x (List.mem_cons_of_mem _ hx)).complete hr hcan
          · rw [hq]
            intro hz x hx
            exact ht.last hz x (by rw [List.getLast?_cons, hx]; rfl)
          · rw [hto]
            exact hwd

/-- **Completing** moves the reader to the next known message, to index 0 or to the
    writer. -/
theorem Sound.complete (h : Sound s lap) (hcan : s.q.canCompleteRead = true) :
    Sound s.completeRead lap := by
  have hr := h.on_lap.read_small
  obtain ⟨_, ⟨e, he, hi, rfl⟩, hstart⟩ := h.reader (h.flag hcan)
  have hkept := h.kept.complete he hi hstart hr hcan
  have hq := completeRead_handle hr hcan
  have hmoved : Moved s := by
    rcases Nat.lt_trichotomy s.q.readPtr s.q.writePtr with hlt | heq | hgt
    · exact h.moved_on_lap hlt
    · obtain ⟨tail, e, ht⟩ := h.flag hcan heq
      exact ht.moved hkept hr hcan
    · obtain ⟨tail, e, ht⟩ := h.ahead hgt
      exact ht.moved hkept hr hcan
  refine ⟨hkept, ?_, fun c hc => (h.known c hc).complete hr hcan, ?_, ?_, ?_, ?_⟩
  · rw [hq]
    exact h.on_lap.complete
  · rw [hq]
    exact h.last
  · rw [hq]
    intro hlt
    have hlt' : s.q.writePtr < (afterComplete s.q).readPtr := hlt
    exact (hmoved.resolve_right (fun hc => by omega)).1
  · rw [hq]
    intro heq
    have heq' : (afterComplete s.q).readPtr = s.q.writePtr := heq
    refine Or.inr (Or.inr ?_)
    rcases hmoved with hc | hc
    · omega
    · show readAt (markRead s.q.buf s.q.readPtr) s.q.prevPtr = true
      rw [hc.2 heq']
      exact readAt_markRead_self _ _
  · intro hf
    rw [hq] at hf
    exact nomatch hf

/-! ## Writing -/

/-- A known cell that the write does not touch stays known. -/
theorem KnownCell.write {p : List UInt8} (h : KnownCell s c) (hlen : p.length + 3 < 2 ^ 32)
    (hr : s.q.readPtr < 2 ^ 31) (hacc : Accepts s.q p.length) (hno : ¬ Touches s.q p.length c) :
    KnownCell (s.write (some p)) c := by
  obtain ⟨e, he, hi, rfl⟩ := h
  have hsame := Entry.after_untouched hlen hr hacc hno
  rw [Sys.write_taken hlen hr hacc]
  refine ⟨e, List.mem_append_left _ ?_, hi, rfl⟩
  rw [← hsame]
  exact List.mem_map_of_mem he

/-- The new message is known. -/
theorem knownCell_new {p : List UInt8} (hlen : p.length + 3 < 2 ^ 32)
    (hr : s.q.readPtr < 2 ^ 31) (hacc : Accepts s.q p.length) :
    KnownCell (s.write (some p)) (cellAt (startOf s.q p.length) p.length) := by
  rw [Sys.write_taken hlen hr hacc]
  exact ⟨newEntry s.q p, List.mem_append_right _ List.mem_cons_self, rfl, rfl⟩

/-- The messages in front of a reader that the write may run over: the tail of a lap,
    or the rest of the current lap when the writer wraps. -/
theorem Sound.chain (h : Sound s lap) {k : Nat} (hne : s.q.readPtr ≠ s.q.writePtr)
    (hstart : startOf s.q k < s.q.readPtr) :
    ∃ chain e, chain ≠ [] ∧ Tiles s.q.readPtr chain e ∧
      AtEnd s.q.size.words (endMarked s.q k) e ∧ (∀ c ∈ chain, KnownCell s c) ∧
      (Wraps s.q k → ∀ c ∈ chain, ¬ (c.start ≤ s.q.writePtr ∧ s.q.writePtr < c.stop)) := by
  rcases Nat.lt_or_gt_of_ne hne with hlt | hgt
  · -- on the current lap, which the write ends
    have hw : Wraps s.q k := by
      by_contra hw
      rw [startOf_stays _ _ hw] at hstart
      omega
    obtain ⟨c, hc, hcs⟩ := h.on_lap.on hlt
    obtain ⟨cs, hsuf, ht⟩ := h.on_lap.tiles.from_mem hc
    rw [start_cell, hcs] at ht
    refine ⟨c :: cs, s.q.writePtr, by simp, ht, atEnd_endMarked hw,
      fun d hd => h.known d (hsuf.subset hd), ?_⟩
    intro _ d hd
    have hb := ht.bounds hd
    simp only [start_cell, stop_cell] at hb
    omega
  · obtain ⟨tail, e, ht⟩ := h.ahead hgt
    have hre := ht.tiles.le
    refine ⟨tail, e, ht.ne, ht.tiles, ht.at_end.congr (Or.inr ?_), ht.known, ?_⟩
    · intro a h1 h2
      rw [endMarked]
      split
      · exact Mem.storeBytes_frame _ (by rw [le32_length]; omega)
      · rfl
    · intro _ c hc
      have hb := ht.tiles.bounds hc
      simp only [start_cell, stop_cell] at hb
      omega

/-- After a write the reader is behind the writer, or in front of known messages. -/
theorem Sound.write_ahead (h : Sound s lap) {p : List UInt8} (hlen : p.length + 3 < 2 ^ 32)
    (hacc : Accepts s.q p.length) (hle : (afterWrite s.q p).writePtr ≤ newReadPtr s.q p.length) :
    Ahead (s.write (some p)) := by
  have hr := h.on_lap.read_small
  have hM := three_lt_msgWords _ hacc.1 hlen
  have hfit := startOf_fits s.q _ hacc
  have hsle := startOf_le s.q p.length
  obtain ⟨base, hsub, hbase, hon, hlap'⟩ := h.on_lap.write hacc hlen
  have hread := hlap'.read_lt
  have hbaseno := not_touches_before hsle hbase
  have hq : (s.write (some p)).q = afterWrite s.q p := by rw [Sys.write_taken hlen hr hacc]
  have hreadPtr : (s.write (some p)).q.readPtr = newReadPtr s.q p.length := by rw [hq]; rfl
  by_cases hend : startOf s.q p.length + msgWords p.length < s.q.size.words
  · -- the write has run into the messages in front of the reader
    have hw : (afterWrite s.q p).writePtr = startOf s.q p.length + msgWords p.length :=
      Nat.mod_eq_of_lt hend
    rw [hw] at hle
    have hne : s.q.readPtr ≠ s.q.writePtr := by
      intro heq
      rw [newReadPtr, if_pos heq] at hle
      omega
    have hstart : startOf s.q p.length < s.q.readPtr := by
      -- a reader that the write does not move stands above the whole message
      by_cases hov : Overruns s.q p.length
      · exact hov.2.1
      · rw [newReadPtr, if_neg hne, if_neg hov] at hle
        omega
    obtain ⟨chain, e, hcne, ht, hend', hknown, hmark⟩ := h.chain hne hstart
    -- the reader is moved to the first of them that does not begin inside the new message
    have hskip := newReadPtr_skip hcne ht hend'
      (fun c hc => InMem.endMarked ((hknown c hc).inMem h.kept) (fun hw => hmark hw c hc)) hne
      hstart
    obtain ⟨pre, b, -, -, -, htb, -⟩ :=
      ht.dropBelow_spec (startOf s.q p.length + msgWords p.length)
    have hge := fun c (hc : c ∈ dropBelow (startOf s.q p.length + msgWords p.length) chain) =>
      ht.le_start_of_mem_dropBelow hc
    have hin := (dropBelow_sublist (startOf s.q p.length + msgWords p.length) chain).subset
    generalize dropBelow (startOf s.q p.length + msgWords p.length) chain = kept
      at hskip htb hge hin
    cases kept with
    | nil =>
        rw [hskip, firstStart] at hle
        omega
    | cons c cs =>
        have hcs : c.start = newReadPtr s.q p.length := hskip.symm
        have hcb : c.start = b := htb.head_start
        have hbe := htb.le
        refine ⟨c :: cs, e, by simp, ?_, ?_, ?_, ?_, ?_⟩
        · rw [hreadPtr, ← hcs, hcb]
          exact htb
        · rw [hq]
          refine hend'.congr (Or.inr ?_)
          intro a h1 h2
          have hce := hge c List.mem_cons_self
          rw [start_cell] at hce
          exact Mem.storeBytes_frame _ (by rw [msgBytes_length _ hlen]; omega)
        · rw [hreadPtr, hq, hw]
          exact hle
        · intro d hd
          refine (hknown d (hin hd)).write hlen hr hacc ?_
          have hde := hge d hd
          rw [start_cell] at hde
          rintro (ht | ht)
          · omega
          · exact hmark ht.1 d (hin hd) ht.2
        · rw [hq, hw]
          intro hz
          omega
  · -- the message ends with the buffer, and the reader is on the lap it has closed
    obtain ⟨c, hc, hcs⟩ := hon (by
      have hlt : newReadPtr s.q p.length < s.q.size.words := hread
      omega)
    have hfull : Tiles 0 (base ++ [cellAt (startOf s.q p.length) p.length])
        (startOf s.q p.length + msgWords p.length) := tiles_snoc.mpr ⟨hbase, cellAt_lt _ _, rfl⟩
    -- from its message on the lap runs to the end of the buffer
    obtain ⟨cs, hsuf, ht⟩ := hfull.from_mem hc
    rw [start_cell, hcs] at ht
    refine ⟨c :: cs, startOf s.q p.length + msgWords p.length, by simp, ?_, ?_, ?_, ?_, ?_⟩
    · rw [hreadPtr]
      exact ht
    · rw [hq]
      exact Or.inl (Nat.le_of_not_lt hend)
    · rw [hreadPtr, hq]
      exact hle
    · intro d hd
      rcases List.mem_append.mp (hsuf.subset hd) with hd | hd
      · exact (h.known d (hsub d hd)).write hlen hr hacc (hbaseno d hd)
      · rw [List.mem_singleton.mp hd]
        exact knownCell_new hlen hr hacc
    · intro _ d hd
      obtain ⟨pre, hpre⟩ := hsuf
      have hlast := congrArg List.getLast? hpre
      rw [List.getLast?_append_of_ne_nil _ (by simp), hd, List.getLast?_concat] at hlast
      rw [Option.some.inj hlast, hq]
      rfl

/-- **Writing** keeps the reader on known messages. -/
theorem Sound.write (h : Sound s lap) {p : List UInt8} (hlen : p.length + 3 < 2 ^ 32)
    (hacc : Accepts s.q p.length) : ∃ lap', Sound (s.write (some p)) lap' := by
  have hr := h.on_lap.read_small
  obtain ⟨base, hsub, hbase, -, hlap'⟩ := h.on_lap.write hacc hlen
  have hbaseno := not_touches_before (startOf_le s.q p.length) hbase
  have hq : (s.write (some p)).q = afterWrite s.q p := by rw [Sys.write_taken hlen hr hacc]
  have hahead : (s.write (some p)).q.writePtr ≤ (s.write (some p)).q.readPtr →
      Ahead (s.write (some p)) := by
    rw [hq]
    exact h.write_ahead hlen hacc
  refine ⟨lapAfter s.q p.length base, h.kept.write hlen hr h.prev_small hacc, ?_, ?_, ?_,
    fun hlt => hahead (Nat.le_of_lt hlt), fun heq => Or.inl (hahead (Nat.le_of_eq heq.symm)),
    fun _ heq => hahead (Nat.le_of_eq heq.symm)⟩
  · rw [hq]
    exact hlap'
  · intro c hc
    rw [lapAfter] at hc
    split at hc
    · rcases List.mem_append.mp hc with hc | hc
      · exact (h.known c (hsub c hc)).write hlen hr hacc (hbaseno c hc)
      · rw [List.mem_singleton.mp hc]
        exact knownCell_new hlen hr hacc
    · cases hc
  · intro c hc
    rw [lapAfter] at hc
    split at hc
    · rw [List.getLast?_concat] at hc
      rw [← Option.some.inj hc, hq]
      rfl
    · cases hc

/-! ## Start of day -/

section Search

variable (n : Nat) (m : Mem) (known : Nat → Prop)

/-- The headers that the forward loop takes for messages are known. -/
def ScanKnown : Nat → Nat → Bool → Prop
  | 0, _, _ => True
  | fuel + 1, i, lastRead =>
      validAt n m i = true → (readAt m i = true → lastRead = true) →
        known i ∧ (nextAt n m i ≠ 0 → ScanKnown fuel (nextAt n m i) (readAt m i))

/-- From `i` on known messages lie end to end, up to `w` or to the end of a lap. -/
def RunsOn (w : Nat) : Nat → Nat → Prop
  | 0, _ => False
  | fuel + 1, i => i = w ∨ (known i ∧ (nextAt n m i = 0 ∨ RunsOn w fuel (nextAt n m i)))

/-- The messages that the backward loop comes to are followed by known ones. -/
def WalkKnown (w : Nat) : Nat → Nat → Prop
  | 0, _ => True
  | fuel + 1, i => WalkStops n m i ∨ prevAt m i = 0 ∨
      (RunsOn n m known w (n + 1) (prevAt m i) ∧ WalkKnown w fuel (prevAt m i))

instance decidableScanKnown [DecidablePred known] :
    ∀ fuel i lastRead, Decidable (ScanKnown n m known fuel i lastRead)
  | 0, _, _ => inferInstanceAs (Decidable True)
  | fuel + 1, i, _ =>
      have := decidableScanKnown fuel (nextAt n m i) (readAt m i)
      inferInstanceAs (Decidable (_ → _ → _ ∧ (_ → _)))

instance decidableRunsOn [DecidablePred known] (w : Nat) :
    ∀ fuel i, Decidable (RunsOn n m known w fuel i)
  | 0, _ => inferInstanceAs (Decidable False)
  | fuel + 1, i =>
      have := decidableRunsOn w fuel (nextAt n m i)
      inferInstanceAs (Decidable (_ ∨ (_ ∧ (_ ∨ _))))

instance decidableWalkKnown [DecidablePred known] (w : Nat) :
    ∀ fuel i, Decidable (WalkKnown n m known w fuel i)
  | 0, _ => inferInstanceAs (Decidable True)
  | fuel + 1, i =>
      have := decidableWalkKnown w fuel (prevAt m i)
      inferInstanceAs (Decidable (_ ∨ _ ∨ (_ ∧ _)))

end Search

/-- The search at start of day takes no header for a message that is not one of the
    history: the forward loop finds known ones, and the links lead to known ones. -/
def SearchKnown (s : Sys) : Prop :=
  ScanKnown s.q.size.words s.q.buf (Known s) (s.q.size.words + 1) 0 true ∧
    ∀ t ∈ scan s.q.size.words s.q.buf (s.q.size.words + 1) 0 0 0 true, t.1 = 0 → t.2.1 ≠ 0 →
      WalkKnown s.q.size.words s.q.buf (Known s) t.2.1 (s.q.size.words + 1) 0

instance (s : Sys) : Decidable (SearchKnown s) := inferInstanceAs (Decidable (_ ∧ _))

section Search

variable {known : Nat → Prop}

/-- The unread messages that the forward loop has come over are known. -/
theorem known_of_unreads {x : Nat} : ∀ (us : List Cell) (fuel i : Nat) (lastRead : Bool),
    Tiles i us x → Marked n m false us → us.length ≤ fuel →
    ScanKnown n m known fuel i lastRead → ∀ c ∈ us, known c.start := by
  intro us
  induction us with
  | nil => intro fuel i lastRead _ _ _ _ c hc; exact nomatch hc
  | cons u us ih =>
      intro fuel i lastRead ht hm hfuel h c hc
      obtain ⟨fuel, rfl⟩ : ∃ f, fuel = f + 1 :=
        ⟨fuel - 1, by rw [List.length_cons] at hfuel; omega⟩
      obtain ⟨hum, hv, hr⟩ := hm u List.mem_cons_self
      have hstart : u.start = i := ht.head_start
      rw [hstart] at hv hr
      -- an unread message never ends the scan
      obtain ⟨hknown, hrec⟩ := h hv (fun hc => by rw [hr] at hc; exact nomatch hc)
      rcases List.mem_cons.mp hc with rfl | hmem
      · rw [hstart]
        exact hknown
      · cases us with
        | nil => exact nomatch hmem
        | cons d ds =>
            have hnext := nextAt_tiles ht hum (hm d (by simp)).1
            have hds : d.start = u.stop := ht.2.2.1
            have hlt := hum.lt
            rw [hstart] at hnext
            rw [hnext, hds] at hrec
            have hlen : (d :: ds).length ≤ fuel := by
              rw [List.length_cons] at hfuel
              omega
            exact ih fuel u.stop _ ht.2.2 hm.tail hlen (hrec (by omega)) c hmem

/-- And so are all that it has come over. -/
theorem known_of_scan {x : Nat} : ∀ (reads us : List Cell) (fuel i : Nat),
    Tiles i (reads ++ us) x → Marked n m true reads → Marked n m false us →
    (reads ++ us).length ≤ fuel → ScanKnown n m known fuel i true →
    ∀ c ∈ reads ++ us, known c.start := by
  intro reads
  induction reads with
  | nil =>
      intro us fuel i ht _ hm hfuel h
      exact known_of_unreads us fuel i true ht hm hfuel h
  | cons u reads ih =>
      intro us fuel i ht hm hm' hfuel h c hc
      rw [List.cons_append] at ht hfuel hc
      obtain ⟨fuel, rfl⟩ : ∃ f, fuel = f + 1 :=
        ⟨fuel - 1, by rw [List.length_cons] at hfuel; omega⟩
      obtain ⟨hum, hv, hr⟩ := hm u List.mem_cons_self
      have hstart : u.start = i := ht.head_start
      rw [hstart] at hv hr
      -- a read message does not end it either, as long as all before it are read
      obtain ⟨hknown, hrec⟩ := h hv (fun _ => rfl)
      rcases List.mem_cons.mp hc with rfl | hmem
      · rw [hstart]
        exact hknown
      · have hall : ∀ d ∈ reads ++ us, InMem n m d := by
          intro d hd
          rcases List.mem_append.mp hd with hd | hd
          · exact (hm.tail d hd).1
          · exact (hm' d hd).1
        have hnext : nextAt n m i = u.stop := by
          obtain ⟨d, ds, hds⟩ := List.exists_cons_of_ne_nil (List.ne_nil_of_mem hmem)
          rw [hds] at ht hall
          have hnext := nextAt_tiles ht hum (hall d List.mem_cons_self)
          rw [hstart] at hnext
          exact hnext.trans ht.2.2.1
        have hlt := hum.lt
        rw [hnext, hr] at hrec
        exact ih us fuel u.stop ht.2.2 hm.tail hm' (by rw [List.length_cons] at hfuel; omega)
          (hrec (by omega)) c hmem

/-- Above the writer the messages that run on lie end to end up to the end of a lap. -/
theorem RunsOn.tail {w : Nat} : ∀ (fuel i : Nat), RunsOn n m known w fuel i → w < i →
    ∃ cs e, cs ≠ [] ∧ Tiles i cs e ∧ AtEnd n m e ∧
      ∀ c ∈ cs, known c.start ∧ c = headerCell m c.start := by
  intro fuel
  induction fuel with
  | zero => intro i h; exact nomatch h
  | succ fuel ih =>
      intro i h hw
      obtain ⟨hknown, hnext⟩ := h.resolve_left (by omega)
      have hlt := lt_stopAt m i
      have hhead : ∀ c ∈ [headerCell m i], known c.start ∧ c = headerCell m c.start := by
        intro c hc
        rw [List.mem_singleton.mp hc]
        exact ⟨hknown, rfl⟩
      by_cases hz : nextAt n m i = 0
      · exact ⟨[headerCell m i], stopAt m i, by simp, ⟨rfl, hlt, rfl⟩, atEnd_of_next hz, hhead⟩
      · have hstop := (nextAt_forward hz).1
        have hrec := hnext.resolve_left hz
        rw [hstop] at hrec
        obtain ⟨cs, e, -, ht, hend, hcs⟩ := ih _ hrec (by omega)
        refine ⟨headerCell m i :: cs, e, by simp, ⟨rfl, hlt, ht⟩, hend, ?_⟩
        intro c hc
        rcases List.mem_cons.mp hc with rfl | hc
        · exact ⟨hknown, rfl⟩
        · exact hcs c hc

/-- Where the backward loop ends: where it began, at index 0, or at a valid unread
    message that known ones follow. -/
theorem walk_known {w : Nat} : ∀ (fuel i : Nat) {r : Nat}, walk n m fuel i = some r →
    WalkKnown n m known w fuel i → r = i ∨ r = 0 ∨
      (validAt n m r = true ∧ readAt m r = false ∧ RunsOn n m known w (n + 1) r) := by
  intro fuel
  induction fuel with
  | zero => intro i r h; exact nomatch h
  | succ fuel ih =>
      intro i r h hok
      by_cases hstop : WalkStops n m i
      · rw [walk_stops hstop] at h
        exact Or.inl (Option.some.inj h).symm
      obtain ⟨hself, hvu⟩ := not_or.mp hstop
      obtain ⟨hv, hr⟩ := not_not.mp hvu
      by_cases hz : prevAt m i = 0
      · rw [walk_zero hstop hz] at h
        exact Or.inr (Or.inl (Option.some.inj h).symm)
      · rw [walk_step rfl hself hv hr (by omega)] at h
        obtain ⟨hruns, hrec⟩ := (hok.resolve_left hstop).resolve_left hz
        rcases ih _ h hrec with heq | hres
        · rw [heq]
          exact Or.inr (Or.inr ⟨hv, hr, hruns⟩)
        · exact Or.inr hres

end Search

/-- A known message below the writer begins a cell of the lap. -/
theorem start_on_lap {w i : Nat} (hk : Kept s) (ht : Tiles 0 lap w)
    (hlap : ∀ c ∈ lap, KnownCell s c) (hi : Known s i) (hlt : i < w) :
    ∃ c ∈ lap, c.start = i := by
  obtain ⟨c, hc, h1, h2⟩ := ht.exists_covering (Nat.zero_le i) hlt
  simp only [start_cell, stop_cell] at h1 h2
  -- the cell of the lap over this index shares a word with the message, so it is its cell
  have hcell := hi.cell hk
  have hgt := (hcell.inMem hk).lt
  refine ⟨c, hc, ?_⟩
  have heq := (hlap c hc).eq_of_overlap hcell hk (by
    show c.start < (headerCell s.q.buf i).stop
    have hs : (headerCell s.q.buf i).start = i := rfl
    omega) h2
  rw [heq]
  rfl

/-- A fresh handle on the buffer is sound when its pointers are. -/
theorem sound_opened {r w p : Nat} (hk : Kept s) (ht : Tiles 0 lap w)
    (hknown : ∀ c ∈ lap, KnownCell s c)
    (hlast : ∀ c, lap.getLast? = some c → c.start = p)
    (hr : r < s.q.size.words) (hw : w < s.q.size.words) (hp : p < s.q.size.words)
    (hon : r < w → ∃ c ∈ lap, c.start = r)
    (hread : (w ≤ r → Ahead ⟨opened s.q.size s.q.buf r w p, s.log⟩) ∨
      (r = w ∧ (validAt s.q.size.words s.q.buf w = false ∨ readAt s.q.buf p = true))) :
    Sound ⟨opened s.q.size s.q.buf r w p, s.log⟩ lap := by
  refine ⟨hk.handle rfl rfl, ⟨ht, fun c hc => (hknown c hc).inMem hk, hon, hw, hr, hp⟩, hknown,
    hlast, ?_, ?_, fun hf => nomatch hf⟩
  · intro hlt
    rcases hread with hahead | ⟨heq, -⟩
    · exact hahead (Nat.le_of_lt hlt)
    · exact absurd (show w < r from hlt) (by omega)
  · intro heq
    rcases hread with hahead | ⟨-, hidle⟩
    · exact Or.inl (hahead (Nat.le_of_eq (show w = r from heq.symm)))
    · exact Or.inr hidle

/-- **A search that takes known headers only** finds a queue whose reader stands on
    known messages. -/
theorem sound_init {q : TicosdQueue} (hk : Kept s) (hok : SearchKnown s)
    (h : (ticosdQueueInit s.q.size s.q.buf).val = some q) :
    ∃ lap, Sound ⟨q, s.log⟩ lap := by
  have hwords := s.q.size.four_le_words
  have hpos : 0 < s.q.size.words := by omega
  obtain ⟨rp, w, p, r, hscan, hwalk, rfl⟩ := queueInit_some h
  obtain ⟨reads, unreads, x, ht, hmr, hmu, hp, hres⟩ :=
    scan_any _ _ _ _ hscan hpos (fun hc => absurd hc (Nat.lt_irrefl 0))
  obtain ⟨hrp, hwlt, hplt⟩ := scan_lt hscan hpos
  have hr := wrapped_lt hwalk hrp
  have hm : ∀ c ∈ reads ++ unreads, InMem s.q.size.words s.q.buf c := by
    intro c hc
    rcases List.mem_append.mp hc with hc | hc
    · exact (hmr c hc).1
    · exact (hmu c hc).1
  -- the scan ends inside the buffer, so it has come over few enough messages
  have hxle : x ≤ s.q.size.words := by
    by_cases hne : reads ++ unreads = []
    · rw [hne] at ht
      have : (0 : Nat) = x := ht
      omega
    · rw [← ht.getLast_stop hne]
      exact (hm _ (List.getLast_mem hne)).stop_le s.q.size.words_le
  have hlen := tiles_length_le ht
  have hstarts := known_of_scan reads unreads _ 0 ht hmr hmu (by omega) hok.1
  have hknown : ∀ c ∈ reads ++ unreads, KnownCell s c := by
    intro c hc
    have hcell := (hstarts c hc).cell hk
    rw [headerCell, (hm c hc).stop_eq] at hcell
    exact hcell
  -- what the backward loop leaves alone
  have hstay : ¬ (rp = 0 ∧ w ≠ 0) → r = rp := by
    intro hno
    rw [wrapped, if_neg hno] at hwalk
    exact (Option.some.inj hwalk).symm
  rcases hres with ⟨rfl, hrx, hwx, -, hv⟩ | ⟨rfl, hne, hr0, hw0⟩ | ⟨u, us, rfl, hru, hw⟩
  · -- everything is read, up to an invalid header
    have hrr := hstay (fun hc => hc.2 (by omega))
    rw [List.append_nil] at ht hknown hp
    rw [← hwx] at ht hv
    refine ⟨reads, sound_opened hk ht hknown ?_ hr hwlt hplt (fun hlt => by omega)
      (Or.inr ⟨by omega, Or.inl hv⟩)⟩
    intro c hc
    rw [hp]
    exact @getLast_lastStart 0 [] reads c hc
  · -- everything is read, all the way round
    have hrr := hstay (fun hc => hc.2 hw0)
    refine ⟨[], sound_opened hk hw0.symm (fun _ hc => absurd hc List.not_mem_nil)
      (fun _ hc => absurd hc (by simp)) hr hwlt hplt (fun hlt => by omega)
      (Or.inr ⟨by omega, Or.inr ?_⟩)⟩
    rw [List.append_nil] at hp
    obtain ⟨c, hc, heq⟩ := lastStart_mem 0 hne
    rw [hp, heq]
    exact (hmr c hc).2.2
  · have hlast : ∀ c, (u :: us).getLast? = some c → c.start = p := by
      intro c hc
      rw [hp]
      exact getLast_lastStart hc
    obtain ⟨b, -, htu⟩ := tiles_append.mp ht
    have hub : u.start = b := htu.head_start
    rw [← hub] at htu
    have hux := htu.lt_of_ne_nil (by simp)
    rcases hw with ⟨hwx, hxlt⟩ | ⟨hw0, hend⟩
    · -- unread messages up to the writer
      rw [← hwx] at ht hux
      have hlast' : ∀ c, (reads ++ u :: us).getLast? = some c → c.start = p := by
        intro c hc
        rw [List.getLast?_append_of_ne_nil _ (by simp)] at hc
        exact hlast c hc
      by_cases hwrap : rp = 0 ∧ w ≠ 0
      · -- the backward loop is run
        rw [wrapped, if_pos hwrap, hwrap.1] at hwalk
        have hwk : WalkKnown s.q.size.words s.q.buf (Known s) w (s.q.size.words + 1) 0 :=
          hok.2 _ hscan hwrap.1 hwrap.2
        have hzero : r = 0 → ∃ c ∈ reads ++ u :: us, c.start = r := by
          intro hz
          rw [hz]
          exact first_mem ht (by omega)
        rcases walk_known _ _ hwalk hwk with hz | hz | ⟨hv, hread, hruns⟩
        · exact ⟨_, sound_opened hk ht hknown hlast' hr hwlt hplt (fun _ => hzero hz)
            (Or.inl fun hle => by omega)⟩
        · exact ⟨_, sound_opened hk ht hknown hlast' hr hwlt hplt (fun _ => hzero hz)
            (Or.inl fun hle => by omega)⟩
        · -- the links lead to a message on the lap, or above the writer
          have hne : r ≠ w := by
            rintro rfl
            rcases scan_stop_header _ _ _ _ _ hscan with hz | hv' | hread'
            · exact hwrap.2 hz
            · rw [hv] at hv'
              cases hv'
            · rw [hread] at hread'
              cases hread'
          refine ⟨_, sound_opened hk ht hknown hlast' hr hwlt hplt
            (start_on_lap hk ht hknown (hruns.resolve_left hne).1) (Or.inl fun hle => ?_)⟩
          obtain ⟨cs, e, hcne, hcs, hend, hck⟩ := hruns.tail _ _ (by omega)
          refine ⟨cs, e, hcne, hcs, hend, hle, ?_, fun hz => absurd hz hwrap.2⟩
          intro c hc
          obtain ⟨hknow, hcell⟩ := hck c hc
          rw [hcell]
          exact hknow.cell hk
      · have hrr := hstay hwrap
        refine ⟨_, sound_opened hk ht hknown hlast' hr hwlt hplt ?_ (Or.inl fun hle => by omega)⟩
        intro _
        exact ⟨u, by simp, by omega⟩
    · -- unread messages up to the end of a lap
      have hrr := hstay (fun hc => hc.2 hw0)
      refine ⟨[], sound_opened hk hw0.symm (fun _ hc => absurd hc List.not_mem_nil)
        (fun _ hc => absurd hc (by simp)) hr hwlt hplt (fun hlt => by omega)
        (Or.inl fun hle => ?_)⟩
      refine ⟨u :: us, x, by simp, ?_, hend, hle, fun c hc => hknown c (by simp [hc]), fun _ => hlast⟩
      show Tiles r (u :: us) x
      rw [hrr, hru]
      exact htu

/-! ## Every run -/

/-- What can happen: an operation, or a restart of the daemon. -/
inductive Event where
  | op (a : Op)
  | restart

/-- One event.  A restart whose search does not end gives no new queue. -/
def step (s : Sys) : Event → Sys
  | .op a => s.step a
  | .restart =>
      match (ticosdQueueInit s.q.size s.q.buf).val with
      | none => s
      | some q => ⟨q, s.log⟩

/-- The condition on each event.  There is none on completing a read. -/
def EventOk (s : Sys) : Event → Prop
  | .op (.write payload) => WriteOk payload
  | .op (.readHead _) => HeadOk s.q
  | .op .completeRead => True
  | .restart => SearchKnown s

instance (s : Sys) : (a : Event) → Decidable (EventOk s a)
  | .op (.write payload) => inferInstanceAs (Decidable (WriteOk payload))
  | .op (.readHead _) => inferInstanceAs (Decidable (HeadOk s.q))
  | .op .completeRead => inferInstanceAs (Decidable True)
  | .restart => inferInstanceAs (Decidable (SearchKnown s))

theorem sound_fresh {size : QueueSize} {file : Mem} (hblank : Blank size file) :
    Sound (fresh size file) [] := by
  have hwords := size.four_le_words
  have hbytes := size.bytes_eq
  have hpos : 0 < size.words := by omega
  have hinvalid : validAt size.words file 0 = false := validAt_zero_byte (hblank _ (by omega))
  refine ⟨⟨fun e he => (nomatch he), List.Pairwise.nil⟩,
    ⟨rfl, fun c hc => (nomatch hc), fun hlt => absurd hlt (Nat.lt_irrefl 0), hpos, hpos, hpos⟩,
    fun c hc => (nomatch hc), fun c hc => (nomatch hc), fun hlt => absurd hlt (Nat.lt_irrefl 0),
    fun _ => Or.inr (Or.inl hinvalid), fun hf => nomatch hf⟩

/-- Some lap fits the system. -/
def Genuine (s : Sys) : Prop := ∃ lap, Sound s lap

theorem genuine_step {a : Event} (h : Genuine s) (hok : EventOk s a) : Genuine (step s a) := by
  obtain ⟨lap, h⟩ := h
  cases a with
  | op a =>
      cases a with
      | write payload =>
          cases payload with
          | none => exact ⟨lap, h⟩
          | some p =>
              have hlen := hok p rfl
              by_cases hacc : Accepts s.q p.length
              · exact h.write hlen hacc
              · refine ⟨lap, ?_⟩
                rw [step, Sys.step, Sys.write_refused hlen h.on_lap.read_small hacc]
                exact h
      | readHead malloc => exact ⟨lap, h.readHead hok malloc⟩
      | completeRead =>
          cases hcan : s.q.canCompleteRead with
          | false =>
              refine ⟨lap, ?_⟩
              rw [step, Sys.step, Sys.completeRead_refused h.on_lap.read_small hcan]
              exact h
          | true => exact ⟨lap, h.complete hcan⟩
  | restart =>
      rw [step]
      cases hinit : (ticosdQueueInit s.q.size s.q.buf).val with
      | none => exact ⟨lap, h⟩
      | some q => exact sound_init h.kept hok hinit

/-- A `ticosd_queue_write` of the payload that returned true is among the events. -/
def WrittenIn (s : Sys) (events : List Event) (p : List UInt8) : Prop :=
  ∃ before after, events = before ++ .op (.write (some p)) :: after ∧
    (ticosdQueueWrite (run step s before).q (some p)).val.1 = true

theorem WrittenIn.snoc {events : List Event} {p : List UInt8} (h : WrittenIn s events p)
    (a : Event) : WrittenIn s (events ++ [a]) p := by
  obtain ⟨before, after, rfl, hw⟩ := h
  exact ⟨before, after ++ [a], by simp, hw⟩

/-- The messages of the history have been written. -/
theorem log_written {size : QueueSize} {file : Mem} : ∀ (events : List Event),
    ∀ e ∈ (run step (fresh size file) events).log, WrittenIn (fresh size file) events e.payload := by
  intro events
  induction events using List.reverseRecOn with
  | nil => intro e he; exact nomatch he
  | append_singleton events a ih =>
      intro e he
      rw [run_append, run_cons, run_nil] at he
      cases a with
      | op a =>
          cases a with
          | write payload =>
              simp only [step, Sys.step, Sys.write] at he
              split at he
              · rename_i p hval
                rcases List.mem_append.mp he with he | he
                · obtain ⟨d, hd, rfl⟩ := List.mem_map.mp he
                  exact (ih d hd).snoc _
                · rw [List.mem_singleton.mp he]
                  exact ⟨events, [], rfl, hval⟩
              · exact (ih e he).snoc _
          | readHead malloc => exact (ih e he).snoc _
          | completeRead =>
              simp only [step, Sys.step, Sys.completeRead] at he
              split at he
              · obtain ⟨d, hd, rfl⟩ := List.mem_map.mp he
                rw [Entry.complete]
                split
                · exact (ih d hd).snoc _
                · exact (ih d hd).snoc _
              · exact (ih e he).snoc _
      | restart =>
          simp only [step] at he
          split at he
          · exact (ih e he).snoc _
          · exact (ih e he).snoc _

/-- Every payload that `ticosd_queue_read_head` returns in the run is that of an earlier
    successful write. -/
def HeadsWritten (s : Sys) (events : List Event) : Prop :=
  ∀ before malloc after p, events = before ++ .op (.readHead malloc) :: after →
    (ticosdQueueReadHead (run step s before).q malloc).val.1 = some p → WrittenIn s before p

/-- **No invented messages**, in every run from a blank buffer whose events meet the
    conditions. -/
theorem heads_written {size : QueueSize} {file : Mem} (hblank : Blank size file)
    (events : List Event) (hok : Along step EventOk (fresh size file) events) :
    HeadsWritten (fresh size file) events := by
  rintro before malloc after p rfl hp
  obtain ⟨hbefore, hhead, -⟩ := along_append.mp hok
  have hgenuine : Genuine (run step (fresh size file) before) :=
    invariant (fun _ _ h hs => genuine_step h hs) ⟨[], sound_fresh hblank⟩ hbefore
  obtain ⟨lap, hsound⟩ := hgenuine
  obtain ⟨e, he, rfl⟩ := hsound.head_written hhead hp
  exact log_written before e he

theorem four_le_twelve : 4 ≤ 12 := by decide

theorem twelve_le : 12 ≤ 2 ^ 28 := by decide

/-- A buffer of twelve words. -/
def twelve : Sys := fresh (.ofWords 12 four_le_twelve twelve_le) (fun _ => 0)

/-- A message read and one left, a restart, two more messages of which the second is
    stored at index 0 again, another restart, and the reads after it. -/
def restarted : List Event :=
  [.op (.write (some [1])), .op (.write (some [2])), .op (.readHead true), .op .completeRead,
    .restart, .op (.write (some [3])), .op (.readHead true), .op .completeRead,
    .op (.write (some [4])), .restart, .op (.readHead true), .op .completeRead,
    .op (.readHead true)]

theorem heads_written_restarted : HeadsWritten twelve restarted :=
  heads_written (fun _ _ => rfl) restarted (by decide +kernel)

/-- A payload with a header in it, then two short messages that end where that header
    begins; each is read at once. -/
def forged : List Event :=
  [.op (.write (some [0, 0, 0, 0, headerMagicNumber, headerVersionNumber, 0, 0, 0, 0, 0, 0,
      4, 0, 0, 0, 0, 0, 0, 0])),
    .op (.readHead true), .op .completeRead, .op (.write (some [1])), .op (.readHead true),
    .op .completeRead, .op (.write (some [2])), .op (.readHead true), .op .completeRead]

/-- **Bytes of a payload are taken for a message**: the queue is empty, and four zero
    bytes that nobody has written are returned. -/
theorem forged_head_returned : ¬ HeadsWritten twelve (forged ++ [.op (.readHead true)]) := by
  intro h
  obtain ⟨before, after, heq, -⟩ := h forged true [] [0, 0, 0, 0] rfl (by decide +kernel)
  have hmem : Event.op (.write (some [0, 0, 0, 0])) ∈ forged := by
    rw [heq]
    simp
  simp [forged] at hmem

end QueueGenuine
