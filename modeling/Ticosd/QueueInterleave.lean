import Ticosd.QueueScan
import Ticosd.TxQueue

/-! # Two threads — a message in flight

    The transmit thread takes the head of the queue, talks to the network and
    completes the read; the IPC thread writes messages in the meantime.  Each
    queue operation is atomic under the mutex, so an execution is a sequence of
    events, and the message in flight is the one the last
    `ticosd_queue_read_head` returned.

    What protects it is `can_complete_read`, which a write clears when the read
    pointer lies strictly inside the words it stores to.  The invariant needs no
    history: `Lap` says that the headers from index 0 to the writer lie end to
    end and that a reader below the writer stands on one of them, whatever has
    happened before. -/

namespace QueueInterleave

open ByteStore QueueModel QueueView QueueRing QueueOverwrite QueueRun QueueScan Tiling
  GuardedRun TxQueue

/-! ## Events -/

/-- The message the transmit thread is working on, and whether a write has stored
    to one of its words since. -/
structure Flight where
  start : Nat
  payload : List UInt8
  touched : Bool

/-- The words of the message in flight. -/
def Flight.cell (f : Flight) : Cell :=
  ⟨f.start, f.start + headerLen + (f.payload.length + 3) / 4⟩

/-- The queue and the transmit thread: idle, or waiting for the network. -/
structure State where
  q : TicosdQueue
  flight : Option Flight

/-- What can happen. -/
inductive Event where
  | readHead (malloc : Bool)
  | answer (rc : NetworkResult)
  | ipcWrite (payload : Option (List UInt8))
  | restart

/-- One event.  An event of the transmit thread that it is not waiting for changes
    nothing, and neither does a restart whose search does not end. -/
def step (st : State) : Event → State
  | .readHead malloc =>
      match st.flight with
      | some _ => st
      | none =>
          match (ticosdQueueReadHead st.q malloc).val with
          | (none, q) => ⟨q, none⟩
          | (some p, q) => ⟨q, some ⟨st.q.readPtr, p, false⟩⟩
  | .answer rc =>
      match st.flight with
      | none => st
      | some _ =>
          if rc = .errorRetryLater then ⟨st.q, none⟩
          else ⟨(ticosdQueueCompleteRead st.q).val.2, none⟩
  | .ipcWrite payload =>
      let t := ticosdQueueWrite st.q payload
      ⟨t.val.2, st.flight.map (fun f =>
        { f with touched := f.touched || hits t.stores f.cell })⟩
  | .restart =>
      match (ticosdQueueInit st.q.size st.q.buf).val with
      | none => st
      | some q => ⟨q, none⟩

/-- A write does not come while the message in flight is at the write pointer, nor
    does it wrap while that message is at index 0.  A restart does not walk back
    into the current lap. -/
def EventOk (st : State) : Event → Prop
  | .readHead _ => True
  | .answer _ => True
  | .ipcWrite payload => WriteOk payload ∧
      ∀ p f, payload = some p → st.flight = some f → f.touched = false →
        Accepts st.q p.length → st.q.readPtr ≠ st.q.writePtr ∧
          ¬ (st.q.readPtr = 0 ∧ Wraps st.q p.length)
  | .restart => ∀ r w p r', scan st.q.size.words st.q.buf (st.q.size.words + 1) 0 0 0 true
      = some (r, w, p) → wrapped st.q.size.words st.q.buf r w = some r' → r' = r ∨ w ≤ r'

/-! ## The current lap -/

/-- The headers from index 0 to the writer, and the reader among them when it is
    behind the writer. -/
structure Lap (q : TicosdQueue) (lap : List Cell) : Prop where
  tiles : Tiles 0 lap q.writePtr
  mem : ∀ c ∈ lap, InMem q.size.words q.buf c
  on : q.readPtr < q.writePtr → ∃ c ∈ lap, c.start = q.readPtr
  write_lt : q.writePtr < q.size.words
  read_lt : q.readPtr < q.size.words
  prev_lt : q.prevPtr < q.size.words

variable {q : TicosdQueue} {lap : List Cell} {n : Nat} {m : Mem}

theorem Lap.read_small (h : Lap q lap) : q.readPtr < 2 ^ 31 := by
  have := h.read_lt
  have := q.size.words_le
  omega

/-- The first header of a lap is at index 0. -/
theorem first_mem {b : Nat} (ht : Tiles 0 lap b) (hpos : 0 < b) : ∃ c ∈ lap, c.start = 0 := by
  cases lap with
  | nil => exact absurd (show 0 = b from ht) (by omega)
  | cons c cs => exact ⟨c, List.mem_cons_self, ht.head_start⟩

/-- The move of the read pointer ends behind the new message or at index 0. -/
theorem skipTo_spec (m : Mem) (writeEnd : Nat) (hn : 0 < n) :
    ∀ (fuel i : Nat), i < n → n ≤ i + fuel →
      skipTo n m writeEnd fuel i < n ∧
        (skipTo n m writeEnd fuel i = 0 ∨ writeEnd ≤ skipTo n m writeEnd fuel i) := by
  intro fuel
  induction fuel with
  | zero => intro i h1 h2; omega
  | succ fuel ih =>
      intro i h1 h2
      rw [skipTo]
      by_cases hz : nextAt n m i = 0
      · rw [if_pos (Or.inr hz), hz]
        exact ⟨hn, Or.inl rfl⟩
      · obtain ⟨hfwd, hlt, -⟩ := nextAt_forward hz
        have hgt := lt_stopAt m i
        by_cases hge : writeEnd ≤ nextAt n m i
        · rw [if_pos (Or.inl hge)]
          exact ⟨by omega, Or.inr hge⟩
        · rw [if_neg (by omega)]
          exact ih _ (by omega) (by omega)

/-- Completing the read keeps the lap. -/
theorem Lap.complete (h : Lap q lap) :
    Lap (afterComplete q) lap := by
  have hmem : ∀ c ∈ lap, InMem q.size.words (markRead q.buf q.readPtr) c := by
    intro c hc
    have hb := h.tiles.bounds hc
    simp only [start_cell, stop_cell] at hb
    refine (h.mem c hc).markRead ?_
    by_cases hlt : q.readPtr < q.writePtr
    · obtain ⟨d, hd, hstart⟩ := h.on hlt
      rcases h.tiles.eq_or_apart hc hd with heq | hap
      · rw [heq, hstart]
        exact Or.inl (Nat.le_refl _)
      · have hdb := h.tiles.bounds hd
        simp only [start_cell, stop_cell] at hap hdb
        omega
    · exact Or.inr (by omega)
  refine ⟨h.tiles, hmem, ?_, h.write_lt, nextAt_lt _ _ _, h.prev_lt⟩
  intro hlt
  show ∃ c ∈ lap, c.start = nextAt q.size.words (markRead q.buf q.readPtr) q.readPtr
  by_cases hz : nextAt q.size.words (markRead q.buf q.readPtr) q.readPtr = 0
  · rw [hz]
    exact first_mem h.tiles (by rw [← hz]; exact hlt)
  · obtain ⟨hfwd, -, -⟩ := nextAt_forward hz
    have hgt := lt_stopAt (markRead q.buf q.readPtr) q.readPtr
    have hlt' : nextAt q.size.words (markRead q.buf q.readPtr) q.readPtr < q.writePtr := hlt
    obtain ⟨d, hd, hstart⟩ := h.on (by omega)
    have hstop := (hmem d hd).stop_eq
    rw [hstart] at hstop
    obtain ⟨c, hc, heq⟩ := h.tiles.next_mem hd (by simp only [stop_cell]; omega)
    exact ⟨c, hc, by simp only [start_cell, stop_cell] at heq; omega⟩

/-- The lap after a write: what lies before the message and the message, unless that
    ends with the buffer. -/
def lapAfter (q : TicosdQueue) (k : Nat) (base : List Cell) : List Cell :=
  if startOf q k + msgWords k < q.size.words then base ++ [cellAt (startOf q k) k] else []

/-- A write keeps the lap, or begins a new one; a reader that is not behind the new
    message is on one of them. -/
theorem Lap.write {payload : List UInt8} (h : Lap q lap) (hacc : Accepts q payload.length)
    (hlen : payload.length + 3 < 2 ^ 32) :
    ∃ base, (∀ c ∈ base, c ∈ lap) ∧ Tiles 0 base (startOf q payload.length) ∧
      (newReadPtr q payload.length < startOf q payload.length + msgWords payload.length →
        ∃ c ∈ base ++ [cellAt (startOf q payload.length) payload.length],
          c.start = newReadPtr q payload.length) ∧
      Lap (afterWrite q payload) (lapAfter q payload.length base) := by
  have hprev : q.prevPtr < 2 ^ 32 := by
    have := h.prev_lt
    have := q.size.words_le
    omega
  have hfit := startOf_fits q _ hacc
  have hM := three_lt_msgWords _ hacc.1 hlen
  have hle := startOf_le q payload.length
  have hpos : 0 < q.size.words := by omega
  -- what the new message follows
  obtain ⟨base, hbase, hsub, hstay⟩ : ∃ base, Tiles 0 base (startOf q payload.length) ∧
      (∀ c ∈ base, c ∈ lap) ∧ (¬ Wraps q payload.length → base = lap) := by
    by_cases hw : Wraps q payload.length
    · exact ⟨[], (startOf_wraps q _ hw).symm, (fun c hc => nomatch hc), fun hc => absurd hw hc⟩
    · exact ⟨lap, by rw [startOf_stays q _ hw]; exact h.tiles, fun c hc => hc, fun _ => rfl⟩
  have hlap : Tiles 0 (base ++ [cellAt (startOf q payload.length) payload.length])
      (startOf q payload.length + msgWords payload.length) :=
    tiles_snoc.mpr ⟨hbase, cellAt_lt _ _, rfl⟩
  have hmem : ∀ c ∈ base ++ [cellAt (startOf q payload.length) payload.length],
      InMem q.size.words (afterWrite q payload).buf c := by
    intro c hc
    rcases List.mem_append.mp hc with hc | hc
    · exact InMem.afterWrite (h.mem c (hsub c hc)) hlen (not_touches_before hle hbase c hc)
    · rw [List.mem_singleton.mp hc]
      exact inMem_afterWrite hacc hlen hprev
  have hread : newReadPtr q payload.length < q.size.words ∧
      (newReadPtr q payload.length < startOf q payload.length + msgWords payload.length →
        ∃ c ∈ base ++ [cellAt (startOf q payload.length) payload.length],
          c.start = newReadPtr q payload.length) := by
    rw [newReadPtr]
    by_cases heq : q.readPtr = q.writePtr
    · rw [if_pos heq]
      exact ⟨by omega, fun _ => ⟨_, List.mem_append_right _ List.mem_cons_self, rfl⟩⟩
    rw [if_neg heq]
    by_cases hov : Overruns q payload.length
    · rw [if_pos hov]
      obtain ⟨h1, h2⟩ := skipTo_spec (endMarked q payload.length)
        (startOf q payload.length + msgWords payload.length) hpos q.size.words q.readPtr
        h.read_lt (by omega)
      refine ⟨h1, fun hlt => ?_⟩
      rcases h2 with hz | hge
      · rw [hz]
        exact first_mem hlap (by omega)
      · omega
    · rw [if_neg hov]
      refine ⟨h.read_lt, fun hlt => ?_⟩
      have hnot : ¬ startOf q payload.length < q.readPtr := fun hc => hov ⟨heq, hc, hlt⟩
      by_cases hs : q.readPtr = startOf q payload.length
      · exact ⟨_, List.mem_append_right _ List.mem_cons_self, hs.symm⟩
      · -- the reader is on the lap that goes on
        have hw : ¬ Wraps q payload.length := by
          intro hw
          have := startOf_wraps q _ hw
          omega
        have hst := startOf_stays q _ hw
        obtain ⟨c, hc, hcs⟩ := h.on (by omega)
        refine ⟨c, List.mem_append_left _ ?_, hcs⟩
        rw [hstay hw]
        exact hc
  refine ⟨base, hsub, hbase, hread.2, ?_⟩
  rw [lapAfter]
  by_cases hlt : startOf q payload.length + msgWords payload.length < q.size.words
  · have hw : (afterWrite q payload).writePtr
        = startOf q payload.length + msgWords payload.length := Nat.mod_eq_of_lt hlt
    rw [if_pos hlt]
    refine ⟨?_, hmem, ?_, ?_, hread.1, ?_⟩
    · rw [hw]
      exact hlap
    · rw [hw]
      exact hread.2
    · rw [hw]
      exact hlt
    · show startOf q payload.length < q.size.words
      omega
  · -- the message ends with the buffer: the next lap is still empty
    have hw : (afterWrite q payload).writePtr = 0 := by
      have hn : startOf q payload.length + msgWords payload.length = q.size.words := by omega
      show (startOf q payload.length + msgWords payload.length) % q.size.words = 0
      rw [hn, Nat.mod_self]
    rw [if_neg hlt]
    refine ⟨hw.symm, (fun c hc => nomatch hc), ?_, ?_, hread.1, ?_⟩
    · rw [hw]
      intro hlt
      exact absurd hlt (by omega)
    · rw [hw]
      exact hpos
    · show startOf q payload.length < q.size.words
      omega

/-- A restart begins with the lap that the scan has come over. -/
theorem lap_restart {size : QueueSize} {file : Mem} {q : TicosdQueue}
    (h : (ticosdQueueInit size file).val = some q)
    (hok : ∀ r w p r', scan size.words file (size.words + 1) 0 0 0 true = some (r, w, p) →
      wrapped size.words file r w = some r' → r' = r ∨ w ≤ r') : ∃ lap, Lap q lap := by
  have hpos : 0 < size.words := by have := size.four_le_words; omega
  obtain ⟨rp, w, p, r, hscan, hwalk, rfl⟩ := queueInit_some h
  obtain ⟨reads, unreads, x, ht, hmr, hmu, hp, hres⟩ :=
    scan_any _ _ _ _ hscan hpos (fun hc => nomatch hc)
  have hm : ∀ c ∈ reads ++ unreads, InMem size.words file c := by
    intro c hc
    rcases List.mem_append.mp hc with hc | hc
    · exact (hmr c hc).1
    · exact (hmu c hc).1
  obtain ⟨hrp, -, hlast⟩ := scan_lt hscan hpos
  have hrlt : r < size.words := wrapped_lt hwalk hrp
  -- the pointers of the scan are on the lap
  have hptr : (w = x ∧ x < size.words ∨ w = 0) ∧
      (rp = w ∨ rp = 0 ∨ ∃ c ∈ reads ++ unreads, c.start = rp) := by
    rcases hres with ⟨-, hr, hw, hx, -⟩ | ⟨-, -, hr, hw⟩ | ⟨u, us, heq, hr, hw⟩
    · exact ⟨Or.inl ⟨hw, hx⟩, Or.inl (by rw [hr, hw])⟩
    · exact ⟨Or.inr hw, Or.inr (Or.inl hr)⟩
    · refine ⟨hw.imp id (fun hc => hc.1), Or.inr (Or.inr ⟨u, ?_, hr.symm⟩)⟩
      rw [heq]
      simp
  obtain ⟨hw, hr⟩ := hptr
  rcases hw with ⟨rfl, hx⟩ | hw
  · refine ⟨reads ++ unreads, ht, hm, ?_, hx, hrlt, hlast⟩
    intro hlt
    have hlt' : r < w := hlt
    show ∃ c ∈ reads ++ unreads, c.start = r
    have hrr : r = rp := (hok rp w p r hscan hwalk).resolve_right (by omega)
    rw [hrr]
    rcases hr with hr | hr | hr
    · omega
    · rw [hr]
      exact first_mem ht (by omega)
    · exact hr
  · refine ⟨[], hw.symm, (fun c hc => nomatch hc), ?_, ?_, hrlt, hlast⟩
    · intro hlt
      have hlt' : r < w := hlt
      omega
    · show w < size.words
      omega

/-! ## The message in flight -/

/-- The flag guards the message in flight until a write touches it, and not any
    longer. -/
structure Guarded (q : TicosdQueue) (f : Flight) : Prop where
  untouched : f.touched = false → q.canCompleteRead = true ∧ q.readPtr = f.start ∧
    payloadAt q.buf f.start = f.payload
  touched : f.touched = true → q.canCompleteRead = false

/-- The invariant of the two threads. -/
structure Safe (st : State) : Prop where
  lap : ∃ lap, Lap st.q lap
  guarded : ∀ f, st.flight = some f → Guarded st.q f

theorem Flight.cell_lt (f : Flight) : f.cell.start < f.cell.stop := by
  simp only [Flight.cell, headerLen]
  omega

/-- The payload lies inside the words of the message in flight. -/
theorem payloadAt_agree {f : Flight} {m' : Mem} (hp : payloadAt m f.start = f.payload)
    (ha : AgreeOn m m' f.cell.start f.cell.stop) :
    payloadAt m' f.start = f.payload := by
  have hsize : sizeAt m f.start = f.payload.length := by
    rw [← hp, payloadAt, Mem.loadBytes_length]
  have ha' : AgreeOn m m' f.start (f.start + headerLen + (f.payload.length + 3) / 4) := ha
  have h3 : AgreeOn m m' f.start (f.start + 3) :=
    ha'.mono (Nat.le_refl _) (by simp only [headerLen]; omega)
  rw [← hp, payloadAt, payloadAt, sizeAt_congr h3, hsize]
  refine Mem.loadBytes_congr (fun a h1 h2 => ha' a (by omega) ?_)
  simp only [headerLen]
  omega

/-- A write that does not move the read pointer leaves the message in flight
    alone, unless it is one of the two cases that the code misses. -/
theorem not_touches_flight {k : Nat} {f : Flight} (h : Lap q lap)
    (hp : payloadAt q.buf f.start = f.payload) (hf : q.readPtr = f.start)
    (hrw : q.readPtr ≠ q.writePtr) (hwrap : ¬ (q.readPtr = 0 ∧ Wraps q k))
    (hov : ¬ Overruns q k) : ¬ Touches q k f.cell := by
  have hsize : sizeAt q.buf f.start = f.payload.length := by
    rw [← hp, payloadAt, Mem.loadBytes_length]
  -- below the writer, the message ends at or below it
  have hbelow : q.readPtr < q.writePtr → f.cell.stop ≤ q.writePtr := by
    intro hlt
    obtain ⟨c, hc, hstart⟩ := h.on hlt
    have hm := h.mem c hc
    have hb := (h.tiles.bounds hc).2.2
    have hstop := hm.stop_eq
    have hsmall := size_small q.size.words_le hm.fits
    rw [hstart, hf] at hstop hsmall
    simp only [stopAt, prvBytesToWordsRoundUp, hsize] at hstop hsmall
    simp only [stop_cell] at hb
    simp only [Flight.cell]
    omega
  have hstart : f.cell.start = q.readPtr := hf.symm
  have hnot : ¬ (startOf q k < q.readPtr ∧ q.readPtr < startOf q k + msgWords k) :=
    fun hc => hov ⟨hrw, hc.1, hc.2⟩
  rintro (⟨h1, h2⟩ | ⟨hw, h1, h2⟩)
  · rw [hstart] at h2
    by_cases hw : Wraps q k
    · have hs := startOf_wraps q k hw
      have : q.readPtr ≠ 0 := fun hz => hwrap ⟨hz, hw⟩
      omega
    · have hs := startOf_stays q k hw
      have := hbelow
      omega
  · rw [hstart] at h1
    have := hbelow
    omega

/-- A write that is refused stores nothing. -/
theorem write_refused_stores {payload : List UInt8} (h : ¬ Accepts q payload.length) :
    (ticosdQueueWrite q (some payload)).stores = [] := by
  simp only [ticosdQueueWrite]
  by_cases hzero : payload.length = 0
  · rw [if_pos hzero]
    rfl
  · have hbig : headerLen + prvBytesToWordsRoundUp payload.length > q.size.words := by
      by_contra hc
      exact h ⟨by omega, by simp only [msgWords]; omega⟩
    rw [if_neg hzero, if_pos hbig]
    rfl

/-- A write keeps the message in flight guarded. -/
theorem guarded_write {payload : List UInt8} {f : Flight} (h : Lap q lap)
    (hlen : payload.length + 3 < 2 ^ 32) (hacc : Accepts q payload.length)
    (hok : f.touched = false → q.readPtr ≠ q.writePtr ∧
      ¬ (q.readPtr = 0 ∧ Wraps q payload.length))
    (hg : Guarded q f) :
    Guarded (afterWrite q payload) { f with
      touched := f.touched || hits (ticosdQueueWrite q (some payload)).stores f.cell } := by
  have hhit := hits_write hlen h.read_small hacc f.cell_lt
  cases ht : f.touched with
  | true =>
      refine ⟨(fun hf => nomatch hf), fun _ => ?_⟩
      show (if Overruns q payload.length then false else q.canCompleteRead) = false
      rw [hg.touched ht, ite_self]
  | false =>
      obtain ⟨hrw, hwrap⟩ := hok ht
      obtain ⟨hcan, hread, hpay⟩ := hg.untouched ht
      by_cases hov : Overruns q payload.length
      · -- the write runs over the message, and clears the flag
        have htouch : Touches q payload.length f.cell := by
          refine Or.inl ⟨?_, ?_⟩
          · have := f.cell_lt
            have h1 := hov.2.1
            have h2 : f.cell.start = q.readPtr := hread.symm
            omega
          · show f.start < _
            rw [← hread]
            exact hov.2.2
        rw [hhit.mpr htouch]
        refine ⟨(fun hf => nomatch hf), fun _ => ?_⟩
        show (if Overruns q payload.length then false else q.canCompleteRead) = false
        rw [if_pos hov]
      · have hno := not_touches_flight h hpay hread hrw hwrap hov
        have hfalse : hits (ticosdQueueWrite q (some payload)).stores f.cell = false := by
          rw [Bool.eq_false_iff]
          intro hc
          exact hno (hhit.mp hc)
        rw [hfalse]
        refine ⟨fun _ => ⟨?_, ?_, ?_⟩, fun hf => nomatch hf⟩
        · show (if Overruns q payload.length then false else q.canCompleteRead) = true
          rw [if_neg hov, hcan]
        · show newReadPtr q payload.length = f.start
          rw [newReadPtr, if_neg hrw, if_neg hov, hread]
        · exact payloadAt_agree hpay (agreeOn_afterWrite hlen hno)

theorem safe_step {st : State} {ev : Event} (h : Safe st) (hok : EventOk st ev) :
    Safe (step st ev) := by
  obtain ⟨⟨lap, hlap⟩, hg⟩ := h
  cases ev with
  | readHead malloc =>
      cases hf : st.flight with
      | some f =>
          simp only [step, hf]
          exact ⟨⟨lap, hlap⟩, hg⟩
      | none =>
          simp only [step, hf, readHead_val]
          by_cases hc : caughtUp st.q = true ∨ malloc = false
          · rw [if_pos hc]
            exact ⟨⟨lap, hlap⟩, fun f hf => nomatch hf⟩
          · rw [if_neg hc]
            refine ⟨⟨lap, hlap.tiles, hlap.mem, hlap.on, hlap.write_lt, hlap.read_lt,
              hlap.prev_lt⟩, ?_⟩
            intro f hf
            rw [← Option.some.inj hf]
            exact ⟨fun _ => ⟨rfl, rfl, rfl⟩, fun hf => nomatch hf⟩
  | answer rc =>
      cases hf : st.flight with
      | none =>
          simp only [step, hf]
          exact ⟨⟨lap, hlap⟩, hg⟩
      | some f =>
          simp only [step, hf]
          by_cases hrc : rc = .errorRetryLater
          · rw [if_pos hrc]
            exact ⟨⟨lap, hlap⟩, fun f hf => nomatch hf⟩
          · rw [if_neg hrc, completeRead_val st.q hlap.read_small]
            by_cases hcan : st.q.canCompleteRead = false
            · rw [if_pos hcan]
              exact ⟨⟨lap, hlap⟩, fun f hf => nomatch hf⟩
            · rw [if_neg hcan]
              exact ⟨⟨lap, hlap.complete⟩, fun f hf => nomatch hf⟩
  | ipcWrite payload =>
      cases payload with
      | none =>
          refine ⟨⟨lap, hlap⟩, ?_⟩
          intro f hf
          obtain ⟨g, hgf, rfl⟩ := Option.map_eq_some_iff.mp hf
          have hg' := hg g hgf
          have hno : hits (ticosdQueueWrite st.q none).stores g.cell = false := rfl
          rw [hno, Bool.or_false]
          exact hg'
      | some p =>
          have hlen := hok.1 p rfl
          by_cases hacc : Accepts st.q p.length
          · simp only [step, write_val st.q p hlen hlap.read_small, if_pos hacc]
            obtain ⟨base, -, -, -, hlap'⟩ := hlap.write hacc hlen
            refine ⟨⟨_, hlap'⟩, ?_⟩
            intro f hf
            obtain ⟨g, hgf, rfl⟩ := Option.map_eq_some_iff.mp hf
            exact guarded_write hlap hlen hacc (fun ht => hok.2 p g rfl hgf ht hacc) (hg g hgf)
          · simp only [step, write_val st.q p hlen hlap.read_small, if_neg hacc,
              write_refused_stores hacc]
            refine ⟨⟨lap, hlap⟩, ?_⟩
            intro f hf
            obtain ⟨g, hgf, rfl⟩ := Option.map_eq_some_iff.mp hf
            have hno : hits [] g.cell = false := rfl
            rw [hno, Bool.or_false]
            exact hg g hgf
  | restart =>
      cases hinit : (ticosdQueueInit st.q.size st.q.buf).val with
      | none =>
          simp only [step, hinit]
          exact ⟨⟨lap, hlap⟩, hg⟩
      | some q =>
          simp only [step, hinit]
          exact ⟨lap_restart hinit hok, fun f hf => nomatch hf⟩

/-- The queue of a file without content, and an idle transmit thread. -/
def start (size : QueueSize) (file : Mem) : State := ⟨(fresh size file).q, none⟩

theorem safe_start (size : QueueSize) (file : Mem) : Safe (start size file) := by
  have hpos : 0 < size.words := by have := size.four_le_words; omega
  exact ⟨⟨[], rfl, (fun c hc => nomatch hc), (fun hc => absurd hc (by simp [start, fresh])),
    hpos, hpos, hpos⟩, fun f hf => nomatch hf⟩

/-- What the answer of the network does to the message in flight. -/
theorem guarded_completeRead {f : Flight} (h : Lap q lap) (hg : Guarded q f) :
    (f.touched = false → q.readPtr = f.start ∧ payloadAt q.buf f.start = f.payload ∧
      (ticosdQueueCompleteRead q).val.1 = true ∧
      (ticosdQueueCompleteRead q).val.2.buf = markRead q.buf f.start) ∧
    (f.touched = true → (ticosdQueueCompleteRead q).val = (false, q)) := by
  rw [completeRead_val q h.read_small]
  refine ⟨?_, ?_⟩
  · intro ht
    obtain ⟨hcan, hread, hpay⟩ := hg.untouched ht
    rw [if_neg (by rw [hcan]; simp)]
    exact ⟨hread, hpay, rfl, by rw [hread]⟩
  · intro ht
    rw [if_pos (hg.touched ht)]

/-- A flag is set by the answer for the message in flight, or it is a byte that a
    write has stored. -/
theorem flag_set {st : State} {ev : Event} (h : Safe st) (hok : EventOk st ev) {i : Nat}
    (hbefore : readAt st.q.buf i = false) (hafter : readAt (step st ev).q.buf i = true) :
    (∃ f rc, ev = .answer rc ∧ rc ≠ .errorRetryLater ∧ st.flight = some f ∧
      f.touched = false ∧ f.start = i) ∨
    (∃ payload, ev = .ipcWrite payload ∧
      hits (ticosdQueueWrite st.q payload).stores ⟨i, i + 1⟩ = true) := by
  have hsame : (step st ev).q.buf = st.q.buf → False := by
    intro hb
    rw [hb, hbefore] at hafter
    cases hafter
  obtain ⟨⟨lap, hlap⟩, hg⟩ := h
  cases ev with
  | readHead malloc =>
      refine (hsame ?_).elim
      cases hf : st.flight with
      | some f => simp only [step, hf]
      | none =>
          simp only [step, hf, readHead_val]
          by_cases hc : caughtUp st.q = true ∨ malloc = false
          · rw [if_pos hc]
          · rw [if_neg hc]
  | answer rc =>
      cases hf : st.flight with
      | none => exact (hsame (by simp only [step, hf])).elim
      | some f =>
          by_cases hrc : rc = .errorRetryLater
          · exact (hsame (by simp only [step, hf, if_pos hrc])).elim
          · obtain ⟨hun, ht⟩ := guarded_completeRead hlap (hg f hf)
            simp only [step, hf, if_neg hrc] at hafter hsame
            cases htouch : f.touched with
            | true =>
                rw [ht htouch] at hsame
                exact (hsame rfl).elim
            | false =>
                obtain ⟨-, -, -, hbuf⟩ := hun htouch
                refine Or.inl ⟨f, rc, rfl, hrc, rfl, htouch, ?_⟩
                by_contra hne
                rw [hbuf, readAt, markRead_other _ (by omega)] at hafter
                rw [readAt, hafter] at hbefore
                cases hbefore
  | ipcWrite payload =>
      cases payload with
      | none => exact (hsame rfl).elim
      | some p =>
          have hlen := hok.1 p rfl
          by_cases hacc : Accepts st.q p.length
          · refine Or.inr ⟨some p, rfl, (hits_write hlen hlap.read_small hacc (by simp)).mpr ?_⟩
            by_contra hno
            have hagree := agreeOn_afterWrite hlen hno
            simp only [step, write_val st.q p hlen hlap.read_small, if_pos hacc] at hafter
            rw [readAt_congr hagree, hbefore] at hafter
            cases hafter
          · refine (hsame ?_).elim
            simp only [step, write_val st.q p hlen hlap.read_small, if_neg hacc]
  | restart =>
      refine (hsame ?_).elim
      cases hinit : (ticosdQueueInit st.q.size st.q.buf).val with
      | none => simp only [step, hinit]
      | some q =>
          simp only [step, hinit]
          obtain ⟨_, _, _, _, -, -, heq⟩ := queueInit_some hinit
          rw [heq]
          rfl

/-- **No message is acknowledged without having been sent**: in every interleaving
    of the two threads whose events meet the conditions, completing the read
    marks the message in flight, with its payload still in place, and nothing
    else; once a write has touched that message, completing the read does
    nothing.  No other event sets a flag, except by storing the byte. -/
theorem complete_read_marks_message_in_flight (size : QueueSize) (file : Mem)
    (evs : List Event) (hok : Along step EventOk (start size file) evs) :
    (∀ f, (run step (start size file) evs).flight = some f →
      (f.touched = false →
        (run step (start size file) evs).q.readPtr = f.start ∧
        payloadAt (run step (start size file) evs).q.buf f.start = f.payload ∧
        (ticosdQueueCompleteRead (run step (start size file) evs).q).val.1 = true ∧
        (ticosdQueueCompleteRead (run step (start size file) evs).q).val.2.buf
          = markRead (run step (start size file) evs).q.buf f.start) ∧
      (f.touched = true →
        (ticosdQueueCompleteRead (run step (start size file) evs).q).val
          = (false, (run step (start size file) evs).q))) ∧
    (∀ ev i, EventOk (run step (start size file) evs) ev →
      readAt (run step (start size file) evs).q.buf i = false →
      readAt (step (run step (start size file) evs) ev).q.buf i = true →
      (∃ f rc, ev = .answer rc ∧ rc ≠ .errorRetryLater ∧
        (run step (start size file) evs).flight = some f ∧ f.touched = false ∧ f.start = i) ∨
      (∃ payload, ev = .ipcWrite payload ∧
        hits (ticosdQueueWrite (run step (start size file) evs).q payload).stores
          ⟨i, i + 1⟩ = true)) := by
  have hsafe : Safe (run step (start size file) evs) :=
    invariant (fun _ _ h hs => safe_step h hs) (safe_start size file) hok
  refine ⟨?_, fun ev i hev hb ha => flag_set hsafe hev hb ha⟩
  intro f hf
  obtain ⟨⟨lap, hlap⟩, hg⟩ := hsafe
  exact guarded_completeRead hlap (hg f hf)

/-- One message in flight while another one is written behind it. -/
theorem complete_read_marks_message_in_flight_one :
    (ticosdQueueCompleteRead (run step (start (.ofWords 12 (by decide) (by decide))
      (fun _ => 0)) [.ipcWrite (some [1]), .readHead true, .ipcWrite (some [2])]).q).val.1
      = true := by
  have hok : Along step EventOk (start (.ofWords 12 (by decide) (by decide)) (fun _ => 0))
      [.ipcWrite (some [1]), .readHead true, .ipcWrite (some [2])] := by
    refine ⟨⟨by decide +kernel, fun p f hp hf => nomatch hf⟩, trivial,
      ⟨by decide +kernel, fun p f hp hf ht hacc => ?_⟩, trivial⟩
    rw [← Option.some.inj hp]
    decide +kernel
  have h := (complete_read_marks_message_in_flight _ _ _ hok).1 ⟨0, [1], false⟩
  exact ((h (by rfl)).1 rfl).2.2.1

/-- A full buffer of eight words: the first of two messages is in flight when a
    third one takes its place.  The pointers were equal, so the flag stays, and
    the answer for the first message marks the third, which was never sent. -/
theorem unsent_message_acknowledged :
    (run step (start (.ofWords 8 (by decide) (by decide)) (fun _ => 0))
      [.ipcWrite (some [1]), .ipcWrite (some [2]), .readHead true,
        .ipcWrite (some [3])]).flight.map Flight.touched = some true ∧
    (ticosdQueueCompleteRead (run step (start (.ofWords 8 (by decide) (by decide))
      (fun _ => 0)) [.ipcWrite (some [1]), .ipcWrite (some [2]), .readHead true,
        .ipcWrite (some [3])]).q).val.1 = true ∧
    payloadAt (run step (start (.ofWords 8 (by decide) (by decide)) (fun _ => 0))
      [.ipcWrite (some [1]), .ipcWrite (some [2]), .readHead true, .ipcWrite (some [3]),
        .answer .ok]).q.buf 0 = [3] ∧
    readAt (run step (start (.ofWords 8 (by decide) (by decide)) (fun _ => 0))
      [.ipcWrite (some [1]), .ipcWrite (some [2]), .readHead true, .ipcWrite (some [3]),
        .answer .ok]).q.buf 0 = true :=
  ⟨by decide +kernel, by decide +kernel, by decide +kernel, by decide +kernel⟩

end QueueInterleave
