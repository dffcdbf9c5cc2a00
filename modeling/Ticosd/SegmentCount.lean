import Ticosd.CoreElfTransformer

/-! # The number of segments — sixteen bits in, sixteen bits out

    The input says in a 16-bit field how many segments it has.  The transformer keeps the
    NOTE and LOAD segments and adds one of its own; the writer puts the number of
    its segments into a 16-bit field again.  With 65535 segments kept there are 65536,
    and the field says that there are none, with 65536 program headers behind it.

    Nothing here needs the layout: every write appends, so the table stands behind the
    header with one entry for each segment, whatever its offsets come to. -/

namespace SegmentCount

open CoreElf CoreElfReader CoreElfRoundTrip CoreElfNote CoreElfTransformer LittleEndian
open CoreElfWriter hiding Choice NoFailure

/-! ## Every write appends -/

/-- The second output is the first one with more bytes. -/
def Appends (out out' : Output) : Prop := ∃ rest, out'.io.written = out.io.written ++ rest

theorem Appends.refl (out : Output) : Appends out out := ⟨[], (List.append_nil _).symm⟩

theorem Appends.trans {out out' out'' : Output} (h : Appends out out') (h' : Appends out' out'') :
    Appends out out'' := by
  obtain ⟨a, ha⟩ := h
  obtain ⟨b, hb⟩ := h'
  exact ⟨a ++ b, by rw [hb, ha, List.append_assoc]⟩

theorem writeAllLoop_appends (schedule : List CoreElfWriter.Choice) (written data : List UInt8) :
    ∃ rest, (writeAllLoop schedule written data).2.1 = written ++ rest := by
  induction schedule generalizing written data with
  | nil => exact ⟨data, rfl⟩
  | cons c schedule ih =>
      by_cases hnil : data = []
      · refine ⟨[], ?_⟩
        cases c <;> simp only [writeAllLoop, if_pos hnil, List.append_nil]
      · cases c with
        | accept n =>
            obtain ⟨rest, hrest⟩ := ih (written ++ data.take n) (data.drop n)
            refine ⟨data.take n ++ rest, ?_⟩
            simp only [writeAllLoop, if_neg hnil]
            rw [hrest, List.append_assoc]
        | eintr =>
            simp only [writeAllLoop, if_neg hnil]
            exact ih written data
        | failure =>
            simp only [writeAllLoop, if_neg hnil]
            exact ⟨[], (List.append_nil _).symm⟩

theorem prvWriteAll_appends (out : Output) (data : List UInt8) :
    Appends out (prvWriteAll out data).2 := by
  have hloop := writeAllLoop_appends out.io.schedule out.io.written data
  rw [prvWriteAll]
  split
  · exact hloop
  · exact hloop

/-- A write that succeeds appends the data. -/
theorem prvWriteAll_written {out : Output} {data : List UInt8}
    (h : (prvWriteAll out data).1 = true) :
    (prvWriteAll out data).2.io.written = out.io.written ++ data := by
  rw [prvWriteAll] at h ⊢
  split at h
  · cases h
  · rename_i hok
    rw [if_neg hok]
    exact writeAllLoop_true (Bool.eq_true_of_not_eq_false hok)

theorem prvWritePadding_appends (out : Output) (padSize : Nat) :
    Appends out (prvWritePadding out padSize).2 := by
  have hloop : ∀ fuel (out : Output) padSize, Appends out (paddingLoop fuel out padSize).2 := by
    intro fuel
    induction fuel with
    | zero => exact fun out _ => Appends.refl out
    | succ fuel ih =>
        intro out padSize
        have hfirst := prvWriteAll_appends out (List.replicate (min paddingWriteSize padSize) 0)
        rw [paddingLoop]
        dsimp only
        split
        · exact Appends.refl out
        · split
          · exact hfirst
          · exact hfirst.trans (ih _ _)
  exact hloop padSize out padSize

variable {σ : Type}

/-- Writing the data of the segment appends. -/
def DataAppends (s : Segment σ) : Prop :=
  ∀ state out header, Appends out (s.data.write state out header).2.2

theorem writeData_appends {segments : List (Segment σ)} (hdata : ∀ s ∈ segments, DataAppends s)
    (state : σ) (out : Output) : Appends out (writeData segments state out).2.2 := by
  induction segments generalizing state out with
  | nil => exact Appends.refl out
  | cons s segments ih =>
      rw [writeData]
      dsimp only
      have hpad := prvWritePadding_appends out
        ((2 ^ 64 + s.header.offset - out.writeOffset) % 2 ^ 64)
      split
      · exact hpad
      · have hseg := hpad.trans (hdata s List.mem_cons_self state _ s.header)
        split
        · exact hseg
        · split
          · exact hseg
          · exact hseg.trans (ih (fun t ht => hdata t (List.mem_cons_of_mem s ht)) _ _)

/-- **The table**: one header for each segment. -/
theorem writeTable_headers {segments : List (Segment σ)} {offset : Nat} {out : Output}
    (h : (writeTable segments offset out).1 = true) :
    ∃ table : List Phdr, table.length = segments.length ∧
      (writeTable segments offset out).2.2.io.written
        = out.io.written ++ table.flatMap Phdr.encode ∧
      ∀ s ∈ (writeTable segments offset out).2.1, ∃ s' ∈ segments, s.data = s'.data := by
  induction segments generalizing offset out with
  | nil => exact ⟨[], rfl, (List.append_nil _).symm, fun _ hs => absurd hs List.not_mem_nil⟩
  | cons s segments ih =>
      rw [writeTable] at h ⊢
      dsimp only at h ⊢
      generalize ({ s.header with
        offset := (offset + prvCalcPadding offset s.header) % 2 ^ 64 } : Phdr) = q at h ⊢
      split at h
      · cases h
      · rename_i hok
        rw [if_neg hok]
        obtain ⟨table, hlen, hwritten, hsame⟩ := ih h
        have hfirst := prvWriteAll_written (Bool.eq_true_of_not_eq_false hok)
        refine ⟨q :: table, congrArg Nat.succ hlen, ?_, ?_⟩
        · rw [hwritten, hfirst, List.append_assoc, List.flatMap_cons]
        · intro t ht
          rcases List.mem_cons.mp ht with rfl | ht
          · exact ⟨s, List.mem_cons_self, rfl⟩
          · obtain ⟨s', hs', hdata⟩ := hsame t ht
            exact ⟨s', List.mem_cons_of_mem s hs', hdata⟩

/-- **A written core**: the header, one program header for each segment, and what
    follows. -/
theorem write_headers (w : Writer σ) {state : σ} (hout : w.out.io.written = [])
    (hdata : ∀ s ∈ w.segments, DataAppends s) (h : (ticosCoreElfWriterWrite w state).1 = true) :
    ∃ (table : List Phdr) (rest : List UInt8), table.length = w.segments.length ∧
      (ticosCoreElfWriterWrite w state).2.2.io.written
        = (elfHeader w.eMachine w.eFlags w.segments.length).encode
          ++ table.flatMap Phdr.encode ++ rest := by
  rw [ticosCoreElfWriterWrite] at h ⊢
  dsimp only at h ⊢
  split at h
  · cases h
  rename_i hhead
  rw [if_neg hhead]
  have hheader := prvWriteAll_written (Bool.eq_true_of_not_eq_false hhead)
  split at h
  · cases h
  rename_i htable
  rw [if_neg htable]
  obtain ⟨table, hlen, hwritten, hsame⟩ :=
    writeTable_headers (Bool.eq_true_of_not_eq_false htable)
  have hblocks : ∀ out, Appends out (writeData (writeTable w.segments _ _).2.1 state out).2.2 :=
    writeData_appends (fun s hs => by
      obtain ⟨s', hs', heq⟩ := hsame s hs
      intro state out header
      rw [heq]
      exact hdata s' hs' state out header) state
  have hout' : ∀ t : Bool × σ × Output, (if t.1 = false then t else (t.2.2.io.sync, t.2)).2 = t.2 := by
    intro t
    split <;> rfl
  rw [hout']
  obtain ⟨rest, hrest⟩ := hblocks _
  exact ⟨table, rest, hlen, by rw [hrest, hwritten, hheader, hout, List.nil_append]⟩

/-! ## What the transformer gathers -/

/-- A segment that the transformer keeps: a NOTE or a LOAD segment. -/
def isKept (p : Phdr) : Bool := !Other p

/-- The segment that is added for a header: its data are a buffer that fills it, or the
    memory of the process. -/
def AddedFor (s : Segment ProcMem) (p : Phdr) : Prop :=
  s.header = p ∧ (s.data = .callback prvWriteLoadSegmentDataCb ∨
    ∃ data, data.length = p.filesz ∧ s.data = .buffer data)

theorem copyLoop_appends (fuel : Nat) (p : ProcMem) (out : Output) (vaddr bytesRemaining : Nat) :
    Appends out (copyLoop fuel p out vaddr bytesRemaining).2.2 := by
  induction fuel generalizing p out vaddr bytesRemaining with
  | zero => exact Appends.refl out
  | succ fuel ih =>
      have hfirst := prvWriteAll_appends out
        ((p.copyProcMem vaddr (min bytesRemaining procMemCopyBufferSizeBytes)).1.getD
          (List.replicate (min bytesRemaining procMemCopyBufferSizeBytes) 0xef))
      rw [copyLoop]
      dsimp only
      split
      · exact Appends.refl out
      · split
        · exact hfirst
        · exact hfirst.trans (ih _ _ _ _)

theorem AddedFor.appends {s : Segment ProcMem} {p : Phdr} (h : AddedFor s p) : DataAppends s := by
  intro state out header
  rcases h.2 with hdata | ⟨data, -, hdata⟩
  · rw [hdata]
    exact copyLoop_appends header.filesz state out header.vaddr header.filesz
  · rw [hdata]
    exact prvWriteAll_appends out (data.take header.filesz)

theorem added_appends {segments : List (Segment ProcMem)} {ps : List Phdr}
    (h : List.Forall₂ AddedFor segments ps) : ∀ s ∈ segments, DataAppends s := by
  induction h with
  | nil => exact fun s hs => nomatch hs
  | cons hfor _ ih =>
      intro s hs
      rcases List.mem_cons.mp hs with rfl | hs
      · exact hfor.appends
      · exact ih s hs

/-- The transformer after some segments: what does not change, and what the writer has. -/
structure Gathered (t t' : Transformer) (ps : List Phdr) : Prop where
  out : t'.writer.out = t.writer.out
  eMachine : t'.writer.eMachine = t.writer.eMachine
  eFlags : t'.writer.eFlags = t.writer.eFlags
  metadata : t'.metadata = t.metadata
  handler : t'.transformerHandler = t.transformerHandler
  malloc : t'.malloc = t.malloc
  realloc : t'.realloc = t.realloc
  added : List.Forall₂ AddedFor t'.writer.segments ps

variable {t t' : Transformer} {ps : List Phdr}

theorem Gathered.addWarning (h : Gathered t t' ps) (msg : Option String) :
    Gathered t (prvAddWarning t' msg) ps := by
  cases msg with
  | none => exact h
  | some msg =>
      rw [prvAddWarning]
      split
      · exact h
      · exact ⟨h.out, h.eMachine, h.eFlags, h.metadata, h.handler, h.malloc, h.realloc, h.added⟩

/-- A segment is added, as there is memory for it. -/
theorem Gathered.addSegment (h : Gathered t t' ps) (hrealloc : ∀ n, t.realloc n = true)
    {p : Phdr} {data : SegmentData ProcMem} (hfor : AddedFor ⟨p, data⟩ p) :
    (ticosCoreElfWriterAddSegment (t'.realloc t'.writer.segments.length) t'.writer p data).1 = true ∧
      Gathered t { t' with writer := (ticosCoreElfWriterAddSegment
        (t'.realloc t'.writer.segments.length) t'.writer p data).2 } (ps ++ [p]) := by
  obtain ⟨segmentsMax, hadd⟩ := addSegment_succeeds t'.writer p data
  have hmemory : t'.realloc t'.writer.segments.length = true := by
    rw [h.realloc]
    exact hrealloc _
  rw [hmemory, hadd]
  exact ⟨rfl, h.out, h.eMachine, h.eFlags, h.metadata, h.handler, h.malloc, h.realloc,
    List.rel_append h.added (List.Forall₂.cons hfor List.Forall₂.nil)⟩

/-! ## Notes -/

/-- Where the reader stands after the data of a segment have been asked for. -/
def nextPosition (length pos : Nat) (p : Phdr) : Nat :=
  if p.offset < pos then pos else min (p.offset + p.filesz) length

/-- All notes are readable: for each in turn there is memory, and it has no bytes, or its
    bytes lie in the stream and not behind the reader. -/
def NotesReadable (malloc : Nat → Bool) (length : Nat) : Nat → List Phdr → Prop
  | _, [] => True
  | pos, p :: ps =>
      if p.type = ptNote then
        malloc p.filesz = true ∧
          (p.filesz = 0 ∨ pos ≤ p.offset ∧ p.offset + p.filesz ≤ length) ∧
          NotesReadable malloc length (nextPosition length pos p) ps
      else NotesReadable malloc length pos ps

instance NotesReadable.decidable (malloc : Nat → Bool) (length : Nat) :
    (pos : Nat) → (ps : List Phdr) → Decidable (NotesReadable malloc length pos ps)
  | _, [] => inferInstanceAs (Decidable True)
  | pos, p :: ps =>
      have := NotesReadable.decidable malloc length (nextPosition length pos p) ps
      have := NotesReadable.decidable malloc length pos ps
      inferInstanceAs (Decidable (if p.type = ptNote then malloc p.filesz = true ∧
        (p.filesz = 0 ∨ pos ≤ p.offset ∧ p.offset + p.filesz ≤ length) ∧
        NotesReadable malloc length (nextPosition length pos p) ps
      else NotesReadable malloc length pos ps))

variable {stream : List UInt8} {h : Handler Transformer} {r : Reader Transformer}

/-- The reader goes on, by what there is. -/
theorem readAll_follows (hr : Follows stream r) (size : Nat) :
    ∃ r', prvReadAll h r size = ((stream.drop r.streamPos).take size, r') ∧ Follows stream r' ∧
      r'.streamPos = min (r.streamPos + size) stream.length ∧ r'.state = r.state := by
  obtain ⟨s, hs, heq⟩ := prvReadAll_eq h r size hr.reads
  have hlen : ((stream.drop r.streamPos).take size).length
      = min size (stream.length - r.streamPos) := by
    rw [List.length_take, List.length_drop]
  have hinside := hr.inside
  have hpos : r.streamPos + ((stream.drop r.streamPos).take size).length
      = min (r.streamPos + size) stream.length := by
    rw [hlen]
    omega
  rw [hr.rest, hpos, List.drop_drop] at heq
  refine ⟨_, heq, ⟨hs, ?_, Nat.min_le_right _ _⟩, rfl, rfl⟩
  dsimp only
  rcases Nat.le_total (r.streamPos + size) stream.length with hle | hle
  · rw [Nat.min_eq_left hle]
  · rw [Nat.min_eq_right hle, List.drop_eq_nil_of_le hle, List.drop_length]

/-- What a note leaves of the stream, and how much of it is there. -/
theorem readSegmentData_follows (hr : Follows stream r) {p : Phdr}
    (hreadable : p.filesz = 0 ∨ r.streamPos ≤ p.offset ∧ p.offset + p.filesz ≤ stream.length) :
    ∃ bytes r', ticosCoreElfReaderReadSegmentData h r p.offset p.filesz = (bytes, r') ∧
      bytes.length = p.filesz ∧ Follows stream r' ∧ r'.state = r.state ∧
      r'.streamPos = nextPosition stream.length r.streamPos p := by
  have hinside := hr.inside
  rw [ticosCoreElfReaderReadSegmentData, nextPosition]
  by_cases hpast : p.offset < r.streamPos
  · have hzero : p.filesz = 0 := by omega
    rw [if_pos hpast, if_pos hpast]
    exact ⟨[], r, rfl, hzero.symm, hr, rfl, rfl⟩
  · rw [if_neg hpast, if_neg hpast]
    dsimp only
    obtain ⟨q, hq, hfollows, hpos, hstate⟩ := readAll_follows (h := h) hr
      (p.offset - r.streamPos)
    have hskip : ((stream.drop r.streamPos).take (p.offset - r.streamPos)).length
        = min (p.offset - r.streamPos) (stream.length - r.streamPos) := by
      rw [List.length_take, List.length_drop]
    by_cases hgap : p.offset - r.streamPos > 0
    · rw [if_pos hgap, hq]
      by_cases hshort : min (p.offset - r.streamPos) (stream.length - r.streamPos)
          < p.offset - r.streamPos
      · -- the stream ends in the gap: only a note without bytes is readable
        have hzero : p.filesz = 0 := by omega
        rw [if_pos (by rw [hskip]; exact hshort)]
        exact ⟨[], q, rfl, hzero.symm, hfollows, hstate, by omega⟩
      · rw [if_neg (by rw [hskip]; exact hshort)]
        obtain ⟨q', hq', hfollows', hpos', hstate'⟩ := readAll_follows (h := h) hfollows p.filesz
        refine ⟨_, q', hq', ?_, hfollows', hstate'.trans hstate, by omega⟩
        rw [List.length_take, List.length_drop]
        omega
    · rw [if_neg hgap]
      obtain ⟨q', hq', hfollows', hpos', hstate'⟩ := readAll_follows (h := h) hr p.filesz
      refine ⟨_, q', hq', ?_, hfollows', hstate', by omega⟩
      rw [List.length_take, List.length_drop]
      omega

/-- **The loop over the segments** adds one segment for each header that is kept. -/
theorem segmentsLoop_gathers (hrealloc : ∀ n, t.realloc n = true) (segments : List Phdr)
    (hg : Gathered t t' ps) (hr : Follows stream r)
    (hnotes : NotesReadable t.malloc stream.length r.streamPos segments) :
    ∃ t'', (runScript readHandler r (segmentsLoop segments t')).state = writeOut t'' ∧
      Gathered t t'' (ps ++ segments.filter isKept) := by
  induction segments generalizing r t' ps with
  | nil => exact ⟨t', rfl, by rw [List.filter_nil, List.append_nil]; exact hg⟩
  | cons p segments ih =>
      rw [segmentsLoop]
      rw [NotesReadable] at hnotes
      by_cases hnote : p.type = ptNote
      · rw [if_pos hnote] at hnotes ⊢
        obtain ⟨hmalloc, hreadable, hrest⟩ := hnotes
        have hkeep : isKept p = true := by simp [isKept, Other, hnote]
        rw [List.filter_cons_of_pos hkeep, List.append_cons]
        obtain ⟨bytes, q, hq, hlen, hfollows, hstate, hpos⟩ := readSegmentData_follows
          (h := readHandler) (r := { r with state := t' })
          ⟨hr.reads, hr.rest, hr.inside⟩ hreadable
        have hfor : AddedFor ⟨p, .buffer bytes⟩ p := ⟨rfl, Or.inr ⟨bytes, hlen, rfl⟩⟩
        obtain ⟨hok, hadded⟩ := hg.addSegment hrealloc hfor
        rw [prvProcessNoteSegment, if_neg (by rw [hg.malloc, hmalloc]; simp), runScript]
        dsimp only
        rw [hq]
        dsimp only
        rw [if_neg Bool.false_ne_true, if_neg (by rw [hlen]; simp), hstate,
          if_neg (by rw [hok]; simp)]
        refine ih hadded ⟨hfollows.reads, hfollows.rest, hfollows.inside⟩ ?_
        rw [← hpos] at hrest
        exact hrest
      · rw [if_neg hnote] at hnotes ⊢
        by_cases hload : p.type = ptLoad
        · have hkeep : isKept p = true := by simp [isKept, Other, hload]
          rw [if_pos hload, List.filter_cons_of_pos hkeep, List.append_cons]
          exact ih (hg.addSegment hrealloc (show AddedFor ⟨p, .callback prvWriteLoadSegmentDataCb⟩ p from
            ⟨rfl, Or.inl rfl⟩)).2 hr hnotes
        · have hdrop : ¬ isKept p = true := by simp [isKept, Other, hnote, hload]
          rw [if_neg hload, List.filter_cons_of_neg hdrop]
          exact ih (hg.addWarning _) hr hnotes

/-! ## The reader in front of it -/

/-- The segment table of a stream, at `e_phoff`. -/
def tableOf (stream : List UInt8) : List Phdr :=
  decodeTable (headerOf stream).phnum (stream.drop (headerOf stream).phoff)

/-- The end of the table. -/
def tableEnd (stream : List UInt8) : Nat :=
  (headerOf stream).phoff + (headerOf stream).phnum * phdrSize

/-- A stream that the reader accepts: the header of a core, and the table behind it, with
    or without a gap. -/
structure Accepted (stream : List UInt8) (malloc : Nat → Bool) : Prop where
  valid : ticosCoreElfReaderIsValidCoreElf (headerOf stream) = true
  phoff : ehdrSize ≤ (headerOf stream).phoff
  table : tableEnd stream ≤ stream.length
  malloc : (headerOf stream).phnum * phdrSize > 0 →
    malloc ((headerOf stream).phnum * phdrSize) = true

/-- The reader of the transformer in the middle of a stream. -/
def readerAt (io : ReadIo) (malloc : Nat → Bool) (action : Action) (streamPos : Nat)
    (elfHeader : Ehdr) (state : Transformer) (log : List Callback) : Reader Transformer :=
  ⟨io, malloc, some action, streamPos, elfHeader, state, log⟩

theorem loop_done (fuel : Nat) (r : Reader Transformer) :
    actionLoop readHandler (fuel + 1) { r with action := some .done }
      = prvActionDone readHandler r := by
  cases fuel <;> rfl

/-- From the table on: the handler is called with it. -/
theorem headers_read {malloc : Nat → Bool} (hin : Accepted stream malloc) {s : List Choice}
    (hs : NoFailure s) (state : Transformer) (log : List Callback) (fuel : Nat) :
    ∃ r, Follows stream r ∧ r.streamPos = tableEnd stream ∧ r.state = state ∧
      actionLoop readHandler (fuel + 3) (readerAt ⟨stream.drop (headerOf stream).phoff, s⟩ malloc
        .prepareSegmentHeaders (headerOf stream).phoff (headerOf stream) state log)
        = prvActionDone readHandler (runScript readHandler r
            (prvHandleSegments state (tableOf stream))) := by
  have htable := hin.table
  rw [tableEnd] at htable
  obtain ⟨q, hq, hfollows, hpos, hstate⟩ := readAll_follows (h := readHandler)
    (r := readerAt ⟨stream.drop (headerOf stream).phoff, s⟩ malloc .readSegmentHeaders
      (headerOf stream).phoff (headerOf stream) state log)
    ⟨hs, rfl, by show (headerOf stream).phoff ≤ _; omega⟩ ((headerOf stream).phnum * phdrSize)
  have hlen : ((stream.drop (headerOf stream).phoff).take
      ((headerOf stream).phnum * phdrSize)).length = (headerOf stream).phnum * phdrSize := by
    rw [List.length_take, List.length_drop]
    omega
  have hprepare : prvActionPrepareSegmentHeaders readHandler (readerAt
      ⟨stream.drop (headerOf stream).phoff, s⟩ malloc .prepareSegmentHeaders
      (headerOf stream).phoff (headerOf stream) state log)
      = readerAt ⟨stream.drop (headerOf stream).phoff, s⟩ malloc .readSegmentHeaders
        (headerOf stream).phoff (headerOf stream) state log := by
    rw [prvActionPrepareSegmentHeaders]
    dsimp only
    rw [if_neg]
    · rfl
    · rintro ⟨hpos, hno⟩
      exact Bool.false_ne_true (hno.symm.trans (hin.malloc hpos))
  have hheaders : prvActionReadSegmentHeaders readHandler (readerAt
      ⟨stream.drop (headerOf stream).phoff, s⟩ malloc .readSegmentHeaders
      (headerOf stream).phoff (headerOf stream) state log)
      = { runScript readHandler { q with log := q.log ++ [.segments (tableOf stream)] }
          (prvHandleSegments state (tableOf stream)) with action := some .done } := by
    rw [prvActionReadSegmentHeaders]
    dsimp only
    rw [show (readerAt ⟨stream.drop (headerOf stream).phoff, s⟩ malloc .readSegmentHeaders
      (headerOf stream).phoff (headerOf stream) state log).elfHeader = headerOf stream from rfl, hq]
    dsimp only
    rw [show (readerAt ⟨stream.drop (headerOf stream).phoff, s⟩ malloc .readSegmentHeaders
      (headerOf stream).phoff (headerOf stream) state log).streamPos = (headerOf stream).phoff
      from rfl, if_pos hlen, decodeTable_take, hstate]
    rfl
  refine ⟨{ q with log := q.log ++ [.segments (tableOf stream)] },
    ⟨hfollows.reads, hfollows.rest, hfollows.inside⟩, ?_, hstate, ?_⟩
  · show q.streamPos = _
    rw [hpos, tableEnd]
    exact Nat.min_eq_left htable
  · calc actionLoop readHandler (fuel + 3) _
        = actionLoop readHandler (fuel + 2) (prvActionPrepareSegmentHeaders readHandler _) := rfl
      _ = actionLoop readHandler (fuel + 1) (prvActionReadSegmentHeaders readHandler _) := by
          rw [hprepare]
          rfl
      _ = _ := by rw [hheaders, loop_done]

/-- The gap in front of the table is read. -/
theorem gap_read {malloc : Nat → Bool} (hin : Accepted stream malloc) {s : List Choice}
    (hs : NoFailure s) (state : Transformer) (log : List Callback) :
    ∃ s', NoFailure s' ∧ prvActionSkipToSegmentHeaders readHandler (readerAt
      ⟨stream.drop ehdrSize, s⟩ malloc .skipToSegmentHeaders ehdrSize (headerOf stream) state log)
      = readerAt ⟨stream.drop (headerOf stream).phoff, s'⟩ malloc .prepareSegmentHeaders
        (headerOf stream).phoff (headerOf stream) state log := by
  have htable := hin.table
  have hphoff := hin.phoff
  rw [tableEnd] at htable
  obtain ⟨s', hs', hskip⟩ := prvReadAll_eq readHandler (readerAt ⟨stream.drop ehdrSize, s⟩ malloc
    .skipToSegmentHeaders ehdrSize (headerOf stream) state log)
    ((headerOf stream).phoff - ehdrSize) hs
  have hlen : ((stream.drop ehdrSize).take ((headerOf stream).phoff - ehdrSize)).length
      = (headerOf stream).phoff - ehdrSize := by
    rw [List.length_take, List.length_drop]
    omega
  have hsum : ehdrSize + ((headerOf stream).phoff - ehdrSize) = (headerOf stream).phoff := by
    omega
  rw [show (readerAt ⟨stream.drop ehdrSize, s⟩ malloc .skipToSegmentHeaders ehdrSize
    (headerOf stream) state log).io.stream = stream.drop ehdrSize from rfl, hlen,
    List.drop_drop, hsum] at hskip
  refine ⟨s', hs', ?_⟩
  rw [prvActionSkipToSegmentHeaders]
  dsimp only
  rw [show (readerAt ⟨stream.drop ehdrSize, s⟩ malloc .skipToSegmentHeaders ehdrSize
    (headerOf stream) state log).elfHeader.phoff - (readerAt ⟨stream.drop ehdrSize, s⟩ malloc
      .skipToSegmentHeaders ehdrSize (headerOf stream) state log).streamPos
    = (headerOf stream).phoff - ehdrSize from rfl, hskip]
  dsimp only
  rw [if_neg (by rw [hlen]; omega), show (readerAt ⟨stream.drop ehdrSize, s⟩ malloc
    .skipToSegmentHeaders ehdrSize (headerOf stream) state log).streamPos = ehdrSize from rfl, hsum]
  rfl

/-- **The reader's run over an accepted stream**: the handler is called with the table. -/
theorem readAll_accepted {malloc : Nat → Bool} (hin : Accepted stream malloc)
    {reads : List Choice} (hs : NoFailure reads) (t : Transformer) :
    ∃ r, Follows stream r ∧ r.streamPos = tableEnd stream ∧
      (∃ msg, r.state = prvAddWarning (prvHandleElfHeader t (headerOf stream)) msg) ∧
      ticosCoreElfReaderReadAll readHandler (ticosCoreElfReaderInit ⟨stream, reads⟩ malloc t)
        = (true, prvActionDone readHandler (runScript readHandler r
            (prvHandleSegments r.state (tableOf stream)))) := by
  have htable := hin.table
  have hphoff := hin.phoff
  rw [tableEnd] at htable
  obtain ⟨s, hs', hread⟩ := prvReadAll_eq readHandler
    (readerAt ⟨stream, reads⟩ malloc .readElfHeader 0 default t []) ehdrSize hs
  have hlen : (stream.take ehdrSize).length = ehdrSize := List.length_take_of_le (by omega)
  have hdecode : prvActionReadElfHeader readHandler
      (readerAt ⟨stream, reads⟩ malloc .readElfHeader 0 default t [])
        = if (headerOf stream).phoff = ehdrSize then
            readerAt ⟨stream.drop ehdrSize, s⟩ malloc .prepareSegmentHeaders ehdrSize
              (headerOf stream) (prvHandleElfHeader t (headerOf stream))
              [.elfHeader (headerOf stream)]
          else readerAt ⟨stream.drop ehdrSize, s⟩ malloc .skipToSegmentHeaders ehdrSize
            (headerOf stream) (prvAddWarning (prvHandleElfHeader t (headerOf stream))
              (some "Ignoring data between header and segment table"))
            [.elfHeader (headerOf stream),
              .warning "Ignoring data between header and segment table"] := by
    have hstream : (readerAt ⟨stream, reads⟩ malloc .readElfHeader 0 default t []).io.stream
        = stream := rfl
    rw [hstream, hlen] at hread
    rw [prvActionReadElfHeader]
    dsimp only
    rw [hread]
    dsimp only
    rw [if_neg (by rw [hlen]; omega), show Ehdr.decode (stream.take ehdrSize) = headerOf stream
      from rfl, if_neg (by rw [hin.valid]; simp)]
    have hpos : (readerAt ⟨stream, reads⟩ malloc .readElfHeader 0 default t []).streamPos
        + ehdrSize = ehdrSize := Nat.zero_add _
    rw [hpos]
    by_cases hnogap : (headerOf stream).phoff = ehdrSize
    · rw [if_pos hnogap, if_pos hnogap]
      rfl
    · rw [if_neg hnogap, if_neg hnogap, if_pos (by omega)]
      rfl
  have hfirst : ticosCoreElfReaderReadAll readHandler (ticosCoreElfReaderInit ⟨stream, reads⟩
      malloc t) = (true, actionLoop readHandler 4 (prvActionReadElfHeader readHandler
        (readerAt ⟨stream, reads⟩ malloc .readElfHeader 0 default t []))) := rfl
  rw [hfirst, hdecode]
  by_cases hnogap : (headerOf stream).phoff = ehdrSize
  · rw [if_pos hnogap]
    obtain ⟨r, hfollows, hpos, hstate, hloop⟩ := headers_read hin hs'
      (prvHandleElfHeader t (headerOf stream)) [.elfHeader (headerOf stream)] 1
    rw [hnogap] at hloop
    refine ⟨r, hfollows, hpos, ⟨none, hstate⟩, ?_⟩
    rw [hloop, hstate]
  · rw [if_neg hnogap]
    obtain ⟨s', hs'', hskip⟩ := gap_read hin hs'
      (prvAddWarning (prvHandleElfHeader t (headerOf stream))
        (some "Ignoring data between header and segment table"))
      [.elfHeader (headerOf stream), .warning "Ignoring data between header and segment table"]
    obtain ⟨r, hfollows, hpos, hstate, hloop⟩ := headers_read hin hs''
      (prvAddWarning (prvHandleElfHeader t (headerOf stream))
        (some "Ignoring data between header and segment table"))
      [.elfHeader (headerOf stream), .warning "Ignoring data between header and segment table"] 0
    refine ⟨r, hfollows, hpos, ⟨_, hstate⟩, ?_⟩
    rw [hstate, ← hloop, ← hskip]
    rfl

/-! ## The whole run -/

/-- A new transformer. -/
def newTransformer (writerIo : WriteIo) (m : Metadata) (p : ProcMem) (malloc realloc : Nat → Bool) :
    Transformer :=
  ⟨ticosCoreElfWriterInit writerIo, m, p, [], false, false, malloc, realloc⟩

/-- The segment of the metadata note. -/
def noteSegment (m : Metadata) : Phdr :=
  ⟨ptNote, 0, 0, 0, 0, ticosCoreElfMetadataNoteCalculateSize m, 0, 0⟩

/-- The metadata note is added behind the segments. -/
theorem Gathered.metadataNote (h : Gathered t t' ps) (hrealloc : ∀ n, t.realloc n = true)
    (hmeta : (metadataCbor t.metadata).length + 3 < 2 ^ 64)
    (hnote : t.malloc (ticosCoreElfMetadataNoteCalculateSize t.metadata) = true) :
    Gathered t (prvAppendTicosMetadataNote t') (ps ++ [noteSegment t.metadata]) := by
  rw [← h.metadata] at hmeta hnote ⊢
  obtain ⟨hok, hlen, -⟩ := noteWrite_spec hmeta
  have hfor : AddedFor ⟨noteSegment t'.metadata, .buffer (ticosCoreElfMetadataNoteWrite t'.metadata
      (ticosCoreElfMetadataNoteCalculateSize t'.metadata)).2⟩ (noteSegment t'.metadata) :=
    ⟨rfl, Or.inr ⟨_, hlen, rfl⟩⟩
  rw [prvAppendTicosMetadataNote]
  dsimp only
  rw [if_neg (by rw [h.malloc, hnote]; simp), if_neg (by rw [hok]; simp)]
  exact (h.addSegment hrealloc hfor).2

/-- **What the writer has got** when it is asked to write: the segments that are kept, and
    the metadata note. -/
theorem run_gathers {malloc realloc : Nat → Bool} (hin : Accepted stream malloc)
    (hnotes : NotesReadable malloc stream.length (tableEnd stream) (tableOf stream))
    {m : Metadata} (hmeta : (metadataCbor m).length + 3 < 2 ^ 64)
    (hnote : malloc (ticosCoreElfMetadataNoteCalculateSize m) = true)
    (hrealloc : ∀ n, realloc n = true) {reads : List Choice} (hs : NoFailure reads)
    (writerIo : WriteIo) (p : ProcMem) :
    ∃ (w : Writer ProcMem) (t' : Transformer), w.out = ⟨writerIo, 0⟩ ∧
      w.eMachine = (headerOf stream).machine ∧ w.eFlags = (headerOf stream).flags ∧
      List.Forall₂ AddedFor w.segments ((tableOf stream).filter isKept ++ [noteSegment m]) ∧
      ticosCoreElfTransformerRun (ticosCoreElfTransformerInit ⟨stream, reads⟩ writerIo m p
        malloc realloc) = ((ticosCoreElfWriterWrite w p).1, t') ∧
      t'.writer.out = (ticosCoreElfWriterWrite w p).2.2 := by
  obtain ⟨r, hfollows, hpos, ⟨msg, hstate⟩, hread⟩ := readAll_accepted hin hs
    (newTransformer writerIo m p malloc realloc)
  have hstart : Gathered (prvHandleElfHeader (newTransformer writerIo m p malloc realloc)
      (headerOf stream)) r.state [] := by
    rw [hstate]
    exact Gathered.addWarning ⟨rfl, rfl, rfl, rfl, rfl, rfl, rfl, List.Forall₂.nil⟩ msg
  rw [← hpos] at hnotes
  obtain ⟨t'', hrun, hg⟩ := segmentsLoop_gathers hrealloc (tableOf stream) hstart hfollows hnotes
  have hall := hg.metadataNote hrealloc hmeta hnote
  have hhandler : (prvAppendTicosMetadataNote t'').transformerHandler = p := hall.handler
  rw [← hhandler]
  refine ⟨(prvAppendTicosMetadataNote t'').writer, prvHandleDone (writeOut t''), hall.out,
    hall.eMachine, hall.eFlags, hall.added, ?_, rfl⟩
  rw [ticosCoreElfTransformerRun, show ticosCoreElfTransformerInit ⟨stream, reads⟩ writerIo m
    (prvAppendTicosMetadataNote t'').transformerHandler malloc realloc
    = ticosCoreElfReaderInit ⟨stream, reads⟩ malloc (newTransformer writerIo m p malloc realloc)
    from by rw [hhandler]; rfl, hread]
  dsimp only
  have hend : (prvActionDone readHandler (runScript readHandler r
      (prvHandleSegments r.state (tableOf stream)))).state = prvHandleDone (writeOut t'') :=
    congrArg prvHandleDone hrun
  rw [hend]
  rfl

/-- What is left of a count in sixteen bits. -/
theorem mod_eq_iff {n : Nat} (h : n ≤ 65536) : n % 2 ^ 16 = n ↔ n < 65536 := by
  constructor
  · intro hmod
    have hlt := Nat.mod_lt n (show 0 < 2 ^ 16 by decide)
    omega
  · exact fun hlt => Nat.mod_eq_of_lt hlt

/-- The segments that are added describe headers and bytes. -/
theorem added_described (mem : Nat → UInt8) {segments : List (Segment ProcMem)} {ps : List Phdr}
    (h : List.Forall₂ AddedFor segments ps) : ∃ xs : List (Phdr × List UInt8),
      List.Forall₂ (Describes (Reads mem)) segments xs ∧ xs.map Prod.fst = ps ∧
        ∀ s ∈ segments, Succeeds s := by
  induction h with
  | nil => exact ⟨[], List.Forall₂.nil, rfl, fun s hs => nomatch hs⟩
  | @cons s p segments ps hfor _ ih =>
      obtain ⟨xs, hxs, hmap, hsucc⟩ := ih
      obtain ⟨header, data⟩ := s
      obtain ⟨rfl, hdata⟩ := hfor
      have hone : ∃ bytes, Describes (Reads mem) ⟨header, data⟩ (header, bytes) ∧
          Succeeds (⟨header, data⟩ : Segment ProcMem) := by
        rcases hdata with rfl | ⟨bytes, hlen, rfl⟩
        · exact ⟨_, describes_load mem header, succeeds_load header⟩
        · exact ⟨bytes, describes_buffer _ hlen, succeeds_buffer header bytes⟩
      obtain ⟨bytes, hdesc, hs⟩ := hone
      refine ⟨(header, bytes) :: xs, List.Forall₂.cons hdesc hxs, congrArg (header :: ·) hmap, ?_⟩
      intro s' hs'
      rcases List.mem_cons.mp hs' with rfl | hs'
      · exact hs
      · exact hsucc s' hs'

/-- A run over IO objects that do not fail succeeds, if the layout fits. -/
theorem run_succeeds {malloc realloc : Nat → Bool} (hin : Accepted stream malloc)
    (hnotes : NotesReadable malloc stream.length (tableEnd stream) (tableOf stream))
    {m : Metadata} (hmeta : (metadataCbor m).length + 3 < 2 ^ 64)
    (hnote : malloc (ticosCoreElfMetadataNoteCalculateSize m) = true)
    (hrealloc : ∀ n, realloc n = true) {reads : List Choice} (hs : NoFailure reads)
    {writes : List CoreElfWriter.Choice} (hw : CoreElfWriter.NoFailure writes)
    {mem : Nat → UInt8} {p : ProcMem} (hp : Reads mem p)
    (hok : ∀ q ∈ (tableOf stream).filter isKept ++ [noteSegment m], q.Ok ∧ Aligns q)
    (hend : layoutEnd (ehdrSize + phdrSize
        * ((tableOf stream).filter isKept ++ [noteSegment m]).length)
      ((tableOf stream).filter isKept ++ [noteSegment m]) < 2 ^ 63) :
    ∃ t', ticosCoreElfTransformerRun (ticosCoreElfTransformerInit ⟨stream, reads⟩
      ⟨[], writes, true⟩ m p malloc realloc) = (true, t') := by
  obtain ⟨w, t', hout, hmachine, hflags, hadded, hresult, -⟩ := run_gathers hin hnotes hmeta hnote
    hrealloc hs ⟨[], writes, true⟩ p
  obtain ⟨xs, hxs, hmap, hsucc⟩ := added_described mem hadded
  have htable := hin.table
  have hphoff := hin.phoff
  rw [tableEnd] at htable
  obtain ⟨hm, hf⟩ := (Ehdr.decode_ok (List.length_take_of_le (show ehdrSize ≤ stream.length by
    omega))).bounds
  have hlen : xs.length = ((tableOf stream).filter isKept ++ [noteSegment m]).length := by
    rw [← hmap, List.length_map]
  have hwrite := write_succeeds w hxs hsucc hp (by rw [hout]; exact hw) (by rw [hout])
    (by rw [hout]) (by rw [hout]) (by rw [hmachine]; exact hm) (by rw [hflags]; exact hf)
    (fun x hx => hok x.1 (by rw [← hmap]; exact List.mem_map_of_mem hx))
    (by rw [hmap, hlen]; exact hend)
  rw [hwrite] at hresult
  exact ⟨t', hresult⟩

/-- The core of `smallDump`, behind a gap of eight bytes. -/
def gappedDump : List UInt8 :=
  (Ehdr.encode ⟨elfMag ++ [elfClass64, elfData2Lsb, 1, 0, 0, 0, 0, 0, 0, 0, 0, 0], etCore, 62, 1,
    0, 72, 0, 5, 64, 56, 3, 0, 0, 0⟩)
  ++ [0, 0, 0, 0, 0, 0, 0, 0]
  ++ [⟨ptNote, 0, 240, 0, 0, 3, 0, 0⟩, ⟨ptLoad, 6, 4096, 8192, 0, 5, 5, 16⟩,
    ⟨6, 4, 64, 64, 64, 8, 8, 8⟩].flatMap Phdr.encode
  ++ [1, 2, 3]

theorem gappedDump_accepted : Accepted gappedDump (fun _ => true) where
  valid := by decide +kernel
  phoff := by decide +kernel
  table := by decide +kernel
  malloc := fun _ => rfl

/-- A LOAD segment without bytes. -/
def emptyLoad : Phdr := ⟨ptLoad, 0, 0, 0, 0, 0, 0, 0⟩

theorem emptyLoads_ok (n : Nat) : ∀ p ∈ List.replicate n emptyLoad, p.Ok := by
  intro p hp
  rw [List.eq_of_mem_replicate hp]
  decide

/-- Segments without bytes take no place. -/
theorem layoutEnd_emptyLoads (n offset : Nat) (ps : List Phdr) :
    layoutEnd offset (List.replicate n emptyLoad ++ ps) = layoutEnd offset ps := by
  induction n with
  | zero => rfl
  | succ n ih =>
      rw [List.replicate_succ, List.cons_append, layoutEnd]
      exact ih

theorem notesReadable_emptyLoads (malloc : Nat → Bool) (length pos n : Nat) :
    NotesReadable malloc length pos (List.replicate n emptyLoad) := by
  induction n with
  | zero => exact trivial
  | succ n ih =>
      rw [List.replicate_succ, NotesReadable, if_neg (by decide)]
      exact ih

/-- A core with nothing but such segments: all of them are kept, and the count is what
    sixteen bits hold of it. -/
theorem emptyLoads_counted {n : Nat} (hn : n ≤ 65535)
    (hin : Accepted stream (fun _ => true)) (htable : tableOf stream = List.replicate n emptyLoad) :
    ∃ t', ticosCoreElfTransformerRun (ticosCoreElfTransformerInit ⟨stream, []⟩ ⟨[], [], true⟩
      smallMetadata ⟨addressMemory, []⟩ (fun _ => true) (fun _ => true)) = (true, t') ∧
    ∃ (header : Ehdr) (table : List Phdr) (rest : List UInt8),
      t'.writer.out.io.written = header.encode ++ table.flatMap Phdr.encode ++ rest ∧
      header.phnum = (n + 1) % 2 ^ 16 ∧ table.length = n + 1 := by
  have hnotes : NotesReadable (fun _ => true) stream.length (tableEnd stream) (tableOf stream) := by
    rw [htable]
    exact notesReadable_emptyLoads _ _ _ _
  have hkept : (tableOf stream).filter isKept = List.replicate n emptyLoad := by
    rw [htable, List.filter_replicate_of_pos (by decide)]
  have hreads : NoFailure [] := fun e he => nomatch he
  have hwrites : CoreElfWriter.NoFailure [] := fun h => nomatch h
  have hmem : Reads addressMemory ⟨addressMemory, []⟩ := ⟨rfl, List.not_mem_nil⟩
  have hnote : (noteSegment smallMetadata).Ok ∧ (noteSegment smallMetadata).align ≤ 1 := by decide
  have hend : ∀ offset, layoutEnd offset [noteSegment smallMetadata]
      = offset + (noteSegment smallMetadata).filesz := by
    intro offset
    rfl
  have hsize : (noteSegment smallMetadata).filesz < 1000 := by decide
  obtain ⟨t', hrun⟩ := run_succeeds hin hnotes (m := smallMetadata) (by decide) rfl
    (fun _ => rfl) hreads hwrites hmem
    (by
      rw [hkept]
      intro q hq
      rcases List.mem_append.mp hq with hq | hq
      · rw [List.eq_of_mem_replicate hq]
        exact ⟨by decide, Or.inl (by decide)⟩
      · rw [List.mem_singleton.mp hq]
        exact ⟨hnote.1, Or.inl hnote.2⟩)
    (by
      rw [hkept, layoutEnd_emptyLoads, List.length_append, List.length_replicate, hend,
        List.length_singleton, ehdrSize, phdrSize]
      omega)
  obtain ⟨w, t'', hout, -, -, hadded, hresult, hwritten⟩ := run_gathers hin hnotes
    (m := smallMetadata) (by decide) rfl (fun _ => rfl) hreads ⟨[], [], true⟩ ⟨addressMemory, []⟩
  rw [hrun] at hresult
  obtain ⟨hok, rfl⟩ := Prod.mk.inj hresult
  have hcount : w.segments.length = n + 1 := by
    rw [hadded.length_eq, hkept, List.length_append, List.length_replicate, List.length_singleton]
  obtain ⟨table, rest, hlen, hbytes⟩ := write_headers w (by rw [hout]) (added_appends hadded)
    hok.symm
  refine ⟨t', hrun, elfHeader w.eMachine w.eFlags w.segments.length, table, rest, ?_, ?_, ?_⟩
  · rw [hwritten, hbytes]
  · show w.segments.length % 2 ^ 16 = (n + 1) % 2 ^ 16
    rw [hcount]
  · rw [hlen, hcount]

/-- The header of a core with `n` segments. -/
def loadsHeader (n : Nat) : Ehdr :=
  ⟨elfMag ++ [elfClass64, elfData2Lsb, 1, 0, 0, 0, 0, 0, 0, 0, 0, 0], etCore, 62, 1, 0, 64, 0, 0,
    64, 56, n, 0, 0, 0⟩

/-- A core with `n` LOAD segments without bytes. -/
def loadsDump (n : Nat) : List UInt8 :=
  (loadsHeader n).encode ++ (List.replicate n emptyLoad).flatMap Phdr.encode

theorem loadsHeader_ok {n : Nat} (hn : n ≤ 65535) : (loadsHeader n).Ok := by
  refine ⟨rfl, ?_⟩
  show Fits [2, 2, 4, 8, 8, 8, 4, 2, 2, 2, 2, 2, 2] [etCore, 62, 1, 0, 64, 0, 0, 64, 56, n, 0, 0, 0]
  simp only [Fits, List.forall₂_cons, List.forall₂_nil_left_iff]
  exact ⟨by decide, by decide, by decide, by decide, by decide, by decide, by decide, by decide,
    by decide, by omega, by decide, by decide, by decide, trivial⟩

theorem headerOf_loadsDump {n : Nat} (hn : n ≤ 65535) : headerOf (loadsDump n) = loadsHeader n := by
  rw [headerOf, loadsDump, ← Ehdr.encode_length (loadsHeader_ok hn), List.take_left,
    Ehdr.decode_encode (loadsHeader_ok hn)]

theorem tableOf_loadsDump {n : Nat} (hn : n ≤ 65535) :
    tableOf (loadsDump n) = List.replicate n emptyLoad := by
  have htable := decodeTable_encode (emptyLoads_ok n) []
  rw [List.append_nil, List.length_replicate] at htable
  rw [tableOf, headerOf_loadsDump hn, loadsDump, show (loadsHeader n).phoff = ehdrSize from rfl,
    ← Ehdr.encode_length (loadsHeader_ok hn), List.drop_left]
  exact htable

theorem loadsDump_accepted {n : Nat} (hn : n ≤ 65535) :
    Accepted (loadsDump n) (fun _ => true) where
  valid := by
    rw [headerOf_loadsDump hn]
    rfl
  phoff := by
    rw [headerOf_loadsDump hn]
    exact Nat.le_refl _
  table := by
    rw [tableEnd, headerOf_loadsDump hn, loadsDump, List.length_append,
      Ehdr.encode_length (loadsHeader_ok hn), encodeTable_length (emptyLoads_ok n),
      List.length_replicate]
    exact Nat.le_refl _
  malloc := fun _ => rfl

end SegmentCount
