import Ticosd.CoreElfNote
import Ticosd.CoreElfRoundTrip

/-! # Core transformer — `core_elf_transformer.c` between reader and writer

    The transformer is the handler of a reader and owns a writer.  While the reader
    goes through the stream, which it can only do forwards, NOTE segments are read
    into buffers; LOAD segments are left to a callback that copies the memory of the
    process in chunks when the file is written; other segments leave a warning.  The
    metadata note comes last.

    Two facts carry the result.  Reading the notes in the order of their offsets
    keeps the reader's position in front of the next one.  And each segment the
    writer has got, buffer or callback, describes a header and the bytes that belong
    to it, so that the planned layout is the one that is written. -/

namespace CoreElfTransformer

open CoreElf CoreElfReader CoreElfRoundTrip CoreElfNote LittleEndian
open CoreElfWriter hiding Choice NoFailure

/-! ## Process memory -/

/-- What a call of `copy_proc_mem` does: it copies some of the bytes, at least one,
    or returns nothing or an error. -/
inductive CopyChoice where
  | copy (n : Nat)
  | failure

/-- `sTicosCoreElfTransformerHandler`: the memory of the process, and what the next
    calls do; when this is used up, every call copies all. -/
structure ProcMem where
  mem : Nat → UInt8
  schedule : List CopyChoice

/-- The bytes at an address; addresses are machine words. -/
def memoryAt (mem : Nat → UInt8) (vaddr size : Nat) : List UInt8 :=
  (List.range size).map fun i => mem ((vaddr + i) % 2 ^ 64)

/-- `copy_proc_mem`. -/
def ProcMem.copyProcMem (p : ProcMem) (vaddr size : Nat) : Option (List UInt8) × ProcMem :=
  match p.schedule with
  | [] => (some (memoryAt p.mem vaddr size), p)
  | .copy n :: rest => (some (memoryAt p.mem vaddr (min (max n 1) size)), ⟨p.mem, rest⟩)
  | .failure :: rest => (none, ⟨p.mem, rest⟩)

/-- `TICOS_CORE_ELF_TRANSFORMER_PROC_MEM_COPY_BUFFER_SIZE_BYTES`. -/
def procMemCopyBufferSizeBytes : Nat := 4 * 1024

/-- The loop of `prv_write_load_segment_data_cb`; every round copies something, so
    the number of bytes is fuel enough. -/
def copyLoop : Nat → ProcMem → Output → Nat → Nat → Bool × ProcMem × Output
  | 0, p, out, _, _ => (true, p, out)
  | fuel + 1, p, out, vaddr, bytesRemaining =>
      if bytesRemaining = 0 then (true, p, out)
      else
        let sz := min bytesRemaining procMemCopyBufferSizeBytes
        let copied := p.copyProcMem vaddr sz
        -- after an error the bytes are made up
        let buffer := copied.1.getD (List.replicate sz 0xef)
        let t := prvWriteAll out buffer
        if t.1 = false then (false, copied.2, t.2)
        else copyLoop fuel copied.2 t.2 ((vaddr + buffer.length) % 2 ^ 64)
          (bytesRemaining - buffer.length)

/-- `prv_write_load_segment_data_cb`. -/
def prvWriteLoadSegmentDataCb (p : ProcMem) (out : Output) (segment : Phdr) :
    Bool × ProcMem × Output :=
  copyLoop segment.filesz p out segment.vaddr segment.filesz

/-! ## The transformer -/

/-- `sTicosCoreElfTransformer` without its reader.  The check in `prv_add_warning`
    lets one warning more through than the array has room for; `overrun` says that
    this has happened.  `malloc` and `realloc` answer whether there is memory. -/
structure Transformer where
  writer : Writer ProcMem
  metadata : Metadata
  transformerHandler : ProcMem
  warnings : List String
  overrun : Bool
  writeSuccess : Bool
  malloc : Nat → Bool
  realloc : Nat → Bool

/-- `TICOS_ARRAY_SIZE(transformer->warnings)`. -/
def warningsSize : Nat := 16

/-- `prv_add_warning`; the message may be NULL. -/
def prvAddWarning (t : Transformer) : Option String → Transformer
  | none => t
  | some warningMsg =>
      if t.warnings.length > warningsSize then t
      else { t with
        warnings := t.warnings ++ [warningMsg]
        overrun := t.overrun || t.warnings.length == warningsSize }

/-- `ticos_asprintf` and `strdup`. -/
def Transformer.asprintf (t : Transformer) (msg : String) : Option String :=
  if t.malloc (msg.utf8ByteSize + 1) then some msg else none

/-- `prv_handle_elf_header`. -/
def prvHandleElfHeader (t : Transformer) (elfHeader : Ehdr) : Transformer :=
  { t with writer :=
      ticosCoreElfWriterSetElfHeaderFields t.writer elfHeader.machine elfHeader.flags }

/-- `prv_process_note_segment`, with what comes after it. -/
def prvProcessNoteSegment (t : Transformer) (segment : Phdr)
    (next : Transformer → Script Transformer) : Script Transformer :=
  if t.malloc segment.filesz = false then
    next (prvAddWarning t (t.asprintf
      ("Failed to allocate " ++ toString segment.filesz ++ " bytes for note buffer")))
  else .read t segment.offset false segment.filesz fun t sizeRead noteBuffer =>
    if sizeRead ≠ segment.filesz then
      next (prvAddWarning t (t.asprintf ("Failed to read note at " ++ toString segment.offset
        ++ " (" ++ toString segment.filesz ++ " bytes)")))
    else
      let added := ticosCoreElfWriterAddSegment (t.realloc t.writer.segments.length) t.writer
        segment (.buffer noteBuffer)
      let t := { t with writer := added.2 }
      if added.1 = false then next (prvAddWarning t (t.asprintf "Failed to add note to writer"))
      else next t

/-- `prv_process_load_segment`. -/
def prvProcessLoadSegment (t : Transformer) (segmentHeader : Phdr) : Transformer :=
  { t with writer := (ticosCoreElfWriterAddSegment (t.realloc t.writer.segments.length) t.writer
      segmentHeader (.callback prvWriteLoadSegmentDataCb)).2 }

/-- `prv_append_ticos_metadata_note`. -/
def prvAppendTicosMetadataNote (t : Transformer) : Transformer :=
  let noteBufferSize := ticosCoreElfMetadataNoteCalculateSize t.metadata
  if t.malloc noteBufferSize = false then t
  else
    let note := ticosCoreElfMetadataNoteWrite t.metadata noteBufferSize
    if note.1 = false then t
    else { t with writer := (ticosCoreElfWriterAddSegment (t.realloc t.writer.segments.length)
        t.writer ⟨ptNote, 0, 0, 0, 0, noteBufferSize, 0, 0⟩ (.buffer note.2)).2 }

/-- The end of `prv_handle_segments`. -/
def writeOut (t : Transformer) : Transformer :=
  let t := prvAppendTicosMetadataNote t
  let written := ticosCoreElfWriterWrite t.writer t.transformerHandler
  { t with
    writer := { t.writer with out := written.2.2 }
    transformerHandler := written.2.1
    writeSuccess := written.1 }

/-- The loop of `prv_handle_segments`, with its end. -/
def segmentsLoop : List Phdr → Transformer → Script Transformer
  | [], t => .done (writeOut t)
  | segment :: rest, t =>
      if segment.type = ptNote then
        prvProcessNoteSegment t segment (fun t => segmentsLoop rest t)
      else if segment.type = ptLoad then segmentsLoop rest (prvProcessLoadSegment t segment)
      else segmentsLoop rest (prvAddWarning t (t.asprintf
        ("Unexpected segment type: " ++ toString segment.type)))

/-- `prv_handle_segments`. -/
def prvHandleSegments (t : Transformer) (segments : List Phdr) : Script Transformer :=
  segmentsLoop segments t

/-- `prv_handle_done`: `ticos_core_elf_writer_finalize` and `prv_free_warnings`. -/
def prvHandleDone (t : Transformer) : Transformer :=
  { t with writer := { t.writer with segments := [] }, warnings := [] }

/-- `read_handler`. -/
def readHandler : Handler Transformer where
  handleElfHeader := prvHandleElfHeader
  handleSegments := prvHandleSegments
  handleWarning := fun t warningMsg => prvAddWarning t (some warningMsg)
  handleDone := prvHandleDone

/-- `ticos_core_elf_transformer_init`. -/
def ticosCoreElfTransformerInit (readerIo : ReadIo) (writerIo : WriteIo) (metadata : Metadata)
    (transformerHandler : ProcMem) (malloc realloc : Nat → Bool) : Reader Transformer :=
  ticosCoreElfReaderInit readerIo malloc
    { writer := ticosCoreElfWriterInit writerIo
      metadata := metadata
      transformerHandler := transformerHandler
      warnings := []
      overrun := false
      writeSuccess := false
      malloc := malloc
      realloc := realloc }

/-- `ticos_core_elf_transformer_run`, and the transformer afterwards. -/
def ticosCoreElfTransformerRun (r : Reader Transformer) : Bool × Transformer :=
  let t := ticosCoreElfReaderReadAll readHandler r
  (t.1 && t.2.state.writeSuccess, t.2.state)

/-! ## Copying the memory -/

theorem memoryAt_length (mem : Nat → UInt8) (vaddr size : Nat) :
    (memoryAt mem vaddr size).length = size := by
  rw [memoryAt, List.length_map, List.length_range]

/-- Two chunks, the second one where the first one has ended. -/
theorem memoryAt_add (mem : Nat → UInt8) (vaddr a b : Nat) :
    memoryAt mem vaddr (a + b)
      = memoryAt mem vaddr a ++ memoryAt mem ((vaddr + a) % 2 ^ 64) b := by
  rw [memoryAt, memoryAt, memoryAt, List.range_add, List.map_append, List.map_map]
  congr 1
  refine List.map_congr_left ?_
  intro i _
  show mem ((vaddr + (a + i)) % 2 ^ 64) = mem (((vaddr + a) % 2 ^ 64 + i) % 2 ^ 64)
  congr 1
  omega

/-- The memory is `mem`, and no call fails. -/
structure Reads (mem : Nat → UInt8) (p : ProcMem) : Prop where
  mem : p.mem = mem
  copies : CopyChoice.failure ∉ p.schedule

/-- A call copies the next bytes, at least one of them. -/
theorem Reads.copyProcMem {mem : Nat → UInt8} {p : ProcMem} (hp : Reads mem p) (vaddr : Nat)
    {size : Nat} (hsize : 0 < size) :
    ∃ k p', 0 < k ∧ k ≤ size ∧ p.copyProcMem vaddr size = (some (memoryAt mem vaddr k), p') ∧
      Reads mem p' := by
  obtain ⟨mem', schedule⟩ := p
  obtain ⟨rfl, hcopies⟩ := hp
  cases schedule with
  | nil => exact ⟨size, _, hsize, Nat.le_refl _, rfl, rfl, hcopies⟩
  | cons c rest =>
      cases c with
      | copy n =>
          exact ⟨min (max n 1) size, _, by omega, by omega, rfl, rfl,
            fun h => hcopies (List.mem_cons_of_mem _ h)⟩
      | failure => exact absurd List.mem_cons_self hcopies

variable {mem : Nat → UInt8}

/-- The loop writes the memory of the segment. -/
theorem copyLoop_true {fuel bytesRemaining vaddr : Nat} {p : ProcMem} {out : Output}
    (hfuel : bytesRemaining ≤ fuel) (hp : Reads mem p) (hs : out.Sound)
    (hbound : out.writeOffset + bytesRemaining < 2 ^ 64)
    (h : (copyLoop fuel p out vaddr bytesRemaining).1 = true) :
    Grown out (copyLoop fuel p out vaddr bytesRemaining).2.2
      (memoryAt mem vaddr bytesRemaining) ∧
    Reads mem (copyLoop fuel p out vaddr bytesRemaining).2.1 := by
  induction fuel generalizing bytesRemaining vaddr p out with
  | zero =>
      obtain rfl : bytesRemaining = 0 := by omega
      exact ⟨Grown.refl hs, hp⟩
  | succ fuel ih =>
      rw [copyLoop] at h ⊢
      by_cases hzero : bytesRemaining = 0
      · rw [if_pos hzero, hzero]
        exact ⟨Grown.refl hs, hp⟩
      · have hsz : 0 < min bytesRemaining procMemCopyBufferSizeBytes := by
          have : 0 < procMemCopyBufferSizeBytes := by decide
          omega
        obtain ⟨k, p', hk, hle, hcopy, hp'⟩ := hp.copyProcMem vaddr hsz
        rw [if_neg hzero] at h ⊢
        dsimp only at h ⊢
        rw [hcopy] at h ⊢
        dsimp only [Option.getD_some] at h ⊢
        rw [memoryAt_length] at h ⊢
        by_cases hfail : (prvWriteAll out (memoryAt mem vaddr k)).1 = false
        · rw [if_pos hfail] at h
          exact nomatch h
        · rw [if_neg hfail] at h ⊢
          have hfirst := prvWriteAll_true hs (by rw [memoryAt_length]; omega)
            (Bool.eq_true_of_not_eq_false hfail)
          have hoff := hfirst.offset hs
          rw [memoryAt_length] at hoff
          obtain ⟨hrest, hp''⟩ := ih (by omega) hp' hfirst.sound (by omega) h
          have hsplit := memoryAt_add mem vaddr k (bytesRemaining - k)
          rw [Nat.add_sub_cancel' (by omega)] at hsplit
          rw [hsplit]
          exact ⟨hfirst.trans hrest, hp''⟩

/-- It goes on over every error of `copy_proc_mem`. -/
theorem copyLoop_succeeds (fuel : Nat) (p : ProcMem) {out : Output} (vaddr bytesRemaining : Nat)
    (hno : CoreElfWriter.NoFailure out.io.schedule) :
    (copyLoop fuel p out vaddr bytesRemaining).1 = true ∧
      CoreElfWriter.NoFailure (copyLoop fuel p out vaddr bytesRemaining).2.2.io.schedule := by
  induction fuel generalizing p out vaddr bytesRemaining with
  | zero => exact ⟨rfl, hno⟩
  | succ fuel ih =>
      rw [copyLoop]
      by_cases hzero : bytesRemaining = 0
      · rw [if_pos hzero]
        exact ⟨rfl, hno⟩
      · rw [if_neg hzero]
        dsimp only
        obtain ⟨hok, hrest⟩ := prvWriteAll_succeeds hno
          ((p.copyProcMem vaddr (min bytesRemaining procMemCopyBufferSizeBytes)).1.getD
            (List.replicate (min bytesRemaining procMemCopyBufferSizeBytes) 0xef))
        rw [hok, if_neg (by simp)]
        exact ih _ _ _ hrest

/-- A LOAD segment stands for the memory at its address. -/
theorem describes_load (mem : Nat → UInt8) (p : Phdr) :
    Describes (Reads mem) ⟨p, .callback prvWriteLoadSegmentDataCb⟩
      (p, memoryAt mem p.vaddr p.filesz) := by
  refine ⟨rfl, ?_, memoryAt_length mem p.vaddr p.filesz⟩
  intro state out offset hstate hs hbound hok
  rw [memoryAt_length] at hbound
  exact copyLoop_true (Nat.le_refl p.filesz) hstate hs hbound hok

theorem succeeds_load (p : Phdr) :
    Succeeds (⟨p, .callback prvWriteLoadSegmentDataCb⟩ : Segment ProcMem) := by
  intro state out header hno
  exact copyLoop_succeeds header.filesz state header.vaddr header.filesz hno

/-! ## What the transformer is for -/

/-- The header of a stream, and its segments. -/
def headerOf (stream : List UInt8) : Ehdr := Ehdr.decode (stream.take ehdrSize)
def segmentsOf (stream : List UInt8) : List Phdr :=
  decodeTable (headerOf stream).phnum (stream.drop ehdrSize)

/-- The bytes of a segment in a stream. -/
def dataOf (stream : List UInt8) (p : Phdr) : List UInt8 := (stream.drop p.offset).take p.filesz

/-- A segment that is kept, and the bytes it is to have: those of the stream or those
    of the process. -/
def kept (stream : List UInt8) (mem : Nat → UInt8) (p : Phdr) : Option (Phdr × List UInt8) :=
  if p.type = ptNote then some (p, dataOf stream p)
  else if p.type = ptLoad then some (p, memoryAt mem p.vaddr p.filesz)
  else none

/-- A segment that leaves a warning. -/
def Other (p : Phdr) : Bool := p.type ≠ ptNote && p.type ≠ ptLoad

/-- The size of the metadata note, and the segment that holds it. -/
def noteSize (m : Metadata) : Nat :=
  20 + ((metadataCbor m).length + (4 - (metadataCbor m).length % 4) % 4)
def metadataSegment (m : Metadata) : Phdr × List UInt8 :=
  (⟨ptNote, 0, 0, 0, 0, noteSize m, 0, 0⟩, (ticosCoreElfMetadataNoteWrite m (noteSize m)).2)

/-- The segments of the output. -/
def outputSegments (stream : List UInt8) (mem : Nat → UInt8) (m : Metadata) :
    List (Phdr × List UInt8) :=
  (segmentsOf stream).filterMap (kept stream mem) ++ [metadataSegment m]

/-- The second segment does not start in front of the first one, and has no byte in
    common with it. -/
def Before (p q : Phdr) : Prop :=
  p.offset ≤ q.offset ∧ (q.filesz = 0 ∨ p.offset + p.filesz ≤ q.offset)

instance : DecidableRel Before := fun _ _ => inferInstanceAs (Decidable (_ ∧ _))

/-- A stream with a core: a valid header with the table behind it, and the notes
    behind the table, in order. -/
structure IsCore (stream : List UInt8) : Prop where
  valid : ticosCoreElfReaderIsValidCoreElf (headerOf stream) = true
  phoff : (headerOf stream).phoff = ehdrSize
  phnum : (headerOf stream).phnum < 65535
  table : ehdrSize + (headerOf stream).phnum * phdrSize ≤ stream.length
  aligns : ∀ p ∈ segmentsOf stream, Aligns p
  notes : ∀ p ∈ segmentsOf stream, p.type = ptNote →
    ehdrSize + (headerOf stream).phnum * phdrSize ≤ p.offset ∧
      p.offset + p.filesz ≤ stream.length
  order : ((segmentsOf stream).filter (fun p => p.type = ptNote)).Pairwise Before
  others : ((segmentsOf stream).filter Other).length ≤ 16

/-! ## Reading the notes -/

/-- The reader has come to a place in the stream. -/
structure Follows (stream : List UInt8) (r : Reader Transformer) : Prop where
  reads : NoFailure r.io.schedule
  rest : r.io.stream = stream.drop r.streamPos
  inside : r.streamPos ≤ stream.length

variable {stream : List UInt8} {h : Handler Transformer} {r : Reader Transformer}

/-- So many bytes are read, if they are there. -/
theorem Follows.readAll (hr : Follows stream r) {size : Nat}
    (hfit : r.streamPos + size ≤ stream.length) :
    ∃ r', prvReadAll h r size = ((stream.drop r.streamPos).take size, r') ∧ Follows stream r' ∧
      r'.streamPos = r.streamPos + size ∧ r'.state = r.state := by
  obtain ⟨s, hs, heq⟩ := prvReadAll_eq h r size hr.reads
  have hlen : ((stream.drop r.streamPos).take size).length = size := by
    rw [List.length_take, List.length_drop]
    omega
  rw [hr.rest, List.drop_drop, hlen] at heq
  exact ⟨_, heq, ⟨hs, rfl, hfit⟩, rfl, rfl⟩

/-- A note that does not lie behind the reader, or has no bytes, is read as it is. -/
theorem Follows.readSegmentData (hr : Follows stream r) {p : Phdr}
    (hbehind : p.filesz = 0 ∨ r.streamPos ≤ p.offset)
    (hfit : p.offset + p.filesz ≤ stream.length) :
    ∃ r', ticosCoreElfReaderReadSegmentData h r p.offset p.filesz = (dataOf stream p, r') ∧
      Follows stream r' ∧ r'.state = r.state ∧
      (r'.streamPos = r.streamPos ∨ r'.streamPos = p.offset + p.filesz) := by
  rw [ticosCoreElfReaderReadSegmentData]
  by_cases hpast : p.offset < r.streamPos
  · -- nothing is read where nothing is asked for
    have hzero : p.filesz = 0 := by omega
    rw [if_pos hpast, dataOf, hzero]
    exact ⟨r, rfl, hr, rfl, Or.inl rfl⟩
  · rw [if_neg hpast]
    dsimp only
    by_cases hskip : p.offset - r.streamPos > 0
    · obtain ⟨q, hq, hfollows, hpos, hstate⟩ := hr.readAll (h := h)
        (show r.streamPos + (p.offset - r.streamPos) ≤ stream.length by omega)
      have hat : q.streamPos = p.offset := by omega
      have hlen : ((stream.drop r.streamPos).take (p.offset - r.streamPos)).length
          = p.offset - r.streamPos := by
        rw [List.length_take, List.length_drop]
        omega
      obtain ⟨q', hq', hfollows', hpos', hstate'⟩ := hfollows.readAll (h := h)
        (show q.streamPos + p.filesz ≤ stream.length by omega)
      rw [if_pos hskip, hq, if_neg (by rw [hlen]; omega), hq', hat]
      exact ⟨q', rfl, hfollows', hstate'.trans hstate, Or.inr (by omega)⟩
    · have hat : r.streamPos = p.offset := by omega
      obtain ⟨q', hq', hfollows', hpos', hstate'⟩ := hr.readAll (h := h)
        (show r.streamPos + p.filesz ≤ stream.length by omega)
      rw [if_neg hskip, hq', hat]
      exact ⟨q', rfl, hfollows', hstate', Or.inr (by omega)⟩

/-! ## Gathering the segments -/

/-- The transformer with other segments and warnings. -/
def Transformer.holding (t : Transformer) (segments : List (Segment ProcMem)) (segmentsMax : Nat)
    (warnings : List String) : Transformer :=
  { t with
    writer := { t.writer with segments := segments, segmentsMax := segmentsMax }
    warnings := warnings }

variable {t : Transformer} {segments : List (Segment ProcMem)} {segmentsMax : Nat}
  {warnings : List String}

/-- A note is read and added. -/
theorem runScript_note (segments : List (Segment ProcMem)) (segmentsMax : Nat)
    (warnings : List String) (hmalloc : ∀ n, t.malloc n = true) (hrealloc : ∀ n, t.realloc n = true)
    (hr : Follows stream r) {p : Phdr} (hbehind : p.filesz = 0 ∨ r.streamPos ≤ p.offset)
    (hfit : p.offset + p.filesz ≤ stream.length) (next : Transformer → Script Transformer) :
    ∃ r' segmentsMax', Follows stream r' ∧
      (r'.streamPos = r.streamPos ∨ r'.streamPos = p.offset + p.filesz) ∧
      runScript readHandler r (prvProcessNoteSegment (t.holding segments segmentsMax warnings)
        p next) = runScript readHandler r' (next (t.holding
          (segments ++ [⟨p, .buffer (dataOf stream p)⟩]) segmentsMax' warnings)) := by
  have hlen : (dataOf stream p).length = p.filesz := by
    rw [dataOf, List.length_take, List.length_drop]
    omega
  obtain ⟨q, hq, ⟨hreads, hrest, hinside⟩, hstate, hpos⟩ := Follows.readSegmentData
    (h := readHandler) (r := { r with state := t.holding segments segmentsMax warnings })
    ⟨hr.reads, hr.rest, hr.inside⟩ hbehind hfit
  obtain ⟨segmentsMax', hadd⟩ := addSegment_succeeds
    (t.holding segments segmentsMax warnings).writer p (.buffer (dataOf stream p))
  refine ⟨{ q with log := q.log ++ [.segmentData p.offset p.filesz (dataOf stream p).length
    (dataOf stream p)] }, segmentsMax', ⟨hreads, hrest, hinside⟩, hpos, ?_⟩
  rw [prvProcessNoteSegment, if_neg (by rw [Transformer.holding, hmalloc]; simp), runScript]
  dsimp only
  rw [hq]
  dsimp only
  rw [if_neg Bool.false_ne_true, if_neg (by rw [hlen]; simp), hstate,
    show (t.holding segments segmentsMax warnings).realloc
      (t.holding segments segmentsMax warnings).writer.segments.length = true from hrealloc _, hadd]
  rfl

/-- A LOAD segment is added. -/
theorem processLoadSegment_eq (segments : List (Segment ProcMem)) (segmentsMax : Nat)
    (warnings : List String) (hrealloc : ∀ n, t.realloc n = true) (p : Phdr) :
    ∃ segmentsMax', prvProcessLoadSegment (t.holding segments segmentsMax warnings) p
      = t.holding (segments ++ [⟨p, .callback prvWriteLoadSegmentDataCb⟩]) segmentsMax'
        warnings := by
  obtain ⟨segmentsMax', hadd⟩ := addSegment_succeeds
    (t.holding segments segmentsMax warnings).writer p (.callback prvWriteLoadSegmentDataCb)
  refine ⟨segmentsMax', ?_⟩
  rw [prvProcessLoadSegment, show (t.holding segments segmentsMax warnings).realloc
    (t.holding segments segmentsMax warnings).writer.segments.length = true from hrealloc _, hadd]
  rfl

/-- A warning that has a place is kept. -/
theorem addWarning_eq (hmalloc : ∀ n, t.malloc n = true) (hroom : warnings.length < warningsSize)
    (msg : String) :
    prvAddWarning (t.holding segments segmentsMax warnings)
      ((t.holding segments segmentsMax warnings).asprintf msg)
      = t.holding segments segmentsMax (warnings ++ [msg]) := by
  have hmsg : (t.holding segments segmentsMax warnings).asprintf msg = some msg :=
    if_pos (hmalloc _)
  have hnot : ¬ (t.holding segments segmentsMax warnings).warnings.length > warningsSize :=
    Nat.not_lt.mpr (Nat.le_of_lt hroom)
  have hin : (warnings.length == warningsSize) = false := beq_false_of_ne (Nat.ne_of_lt hroom)
  rw [hmsg, prvAddWarning, if_neg hnot, Transformer.holding, Transformer.holding]
  dsimp only
  rw [hin, Bool.or_false]

/-- One more segment with its bytes. -/
theorem described_snoc {x : Phdr × List UInt8} (segment : Segment ProcMem)
    (hxs : List.Forall₂ (Describes (Reads mem)) segments xs) (hsucc : ∀ s ∈ segments, Succeeds s)
    (hx : Describes (Reads mem) segment x) (hs : Succeeds segment) :
    List.Forall₂ (Describes (Reads mem)) (segments ++ [segment]) (xs ++ [x]) ∧
      ∀ s ∈ segments ++ [segment], Succeeds s := by
  refine ⟨List.rel_append hxs (List.Forall₂.cons hx List.Forall₂.nil), ?_⟩
  intro s' hs'
  rcases List.mem_append.mp hs' with hs' | hs'
  · exact hsucc s' hs'
  · rw [List.mem_singleton.mp hs']
    exact hs

/-- **The loop over the segments** gives the writer, in order, the segments that are
    kept, with the bytes they are to have. -/
theorem runScript_segmentsLoop (segmentsMax : Nat) (hmalloc : ∀ n, t.malloc n = true)
    (hrealloc : ∀ n, t.realloc n = true) (ps : List Phdr) {xs : List (Phdr × List UInt8)}
    (hxs : List.Forall₂ (Describes (Reads mem)) segments xs)
    (hsucc : ∀ s ∈ segments, Succeeds s)
    (hwarn : warnings.length + (ps.filter Other).length ≤ warningsSize)
    (hr : Follows stream r)
    (hnotes : ∀ p ∈ ps, p.type = ptNote →
      p.offset + p.filesz ≤ stream.length ∧ (p.filesz = 0 ∨ r.streamPos ≤ p.offset))
    (horder : (ps.filter (fun p => p.type = ptNote)).Pairwise Before) :
    ∃ segments' segmentsMax' warnings',
      List.Forall₂ (Describes (Reads mem)) segments' (xs ++ ps.filterMap (kept stream mem)) ∧
      (∀ s ∈ segments', Succeeds s) ∧
      (runScript readHandler r (segmentsLoop ps (t.holding segments segmentsMax warnings))).state
        = writeOut (t.holding segments' segmentsMax' warnings') := by
  induction ps generalizing r segments segmentsMax warnings xs with
  | nil =>
      refine ⟨segments, segmentsMax, warnings, ?_, hsucc, rfl⟩
      rw [List.filterMap_nil, List.append_nil]
      exact hxs
  | cons p ps ih =>
      have hrest : ∀ q ∈ ps, q.type = ptNote →
          q.offset + q.filesz ≤ stream.length ∧ (q.filesz = 0 ∨ r.streamPos ≤ q.offset) :=
        fun q hq => hnotes q (List.mem_cons_of_mem p hq)
      rw [segmentsLoop]
      by_cases hnote : p.type = ptNote
      · obtain ⟨hfit, hbehind⟩ := hnotes p List.mem_cons_self hnote
        obtain ⟨r', segmentsMax', hr', hpos, hrun⟩ := runScript_note segments segmentsMax warnings
          hmalloc hrealloc hr hbehind hfit (segmentsLoop ps)
        have hkept : kept stream mem p = some (p, dataOf stream p) := if_pos hnote
        have hother : ¬ Other p = true := by
          simp [Other, hnote]
        have hlen : (dataOf stream p).length = p.filesz := by
          rw [dataOf, List.length_take, List.length_drop]
          omega
        rw [List.filter_cons_of_pos (by simpa using hnote), List.pairwise_cons] at horder
        rw [List.filter_cons_of_neg hother] at hwarn
        rw [if_pos hnote, hrun, List.filterMap_cons_some hkept, List.append_cons xs]
        obtain ⟨hxs', hsucc'⟩ :=
          described_snoc _ hxs hsucc (describes_buffer _ hlen) (succeeds_buffer p _)
        refine ih _ hxs' hsucc' hwarn hr' ?_ horder.2
        intro q hq hqnote
        obtain ⟨hqfit, hqbehind⟩ := hrest q hq hqnote
        have hbefore := horder.1 q (List.mem_filter.mpr ⟨hq, by simpa using hqnote⟩)
        refine ⟨hqfit, ?_⟩
        rcases hpos with hpos | hpos
        · rw [hpos]
          exact hqbehind
        · rw [hpos]
          exact hbefore.2
      · rw [List.filter_cons_of_neg (by simpa using hnote)] at horder
        by_cases hload : p.type = ptLoad
        · obtain ⟨segmentsMax', hadd⟩ := processLoadSegment_eq segments segmentsMax warnings
            hrealloc p
          have hkept : kept stream mem p = some (p, memoryAt mem p.vaddr p.filesz) := by
            rw [kept, if_neg hnote, if_pos hload]
          have hother : ¬ Other p = true := by
            simp [Other, hload]
          rw [List.filter_cons_of_neg hother] at hwarn
          rw [if_neg hnote, if_pos hload, hadd, List.filterMap_cons_some hkept,
            List.append_cons xs]
          obtain ⟨hxs', hsucc'⟩ := described_snoc _ hxs hsucc (describes_load mem p)
            (succeeds_load p)
          exact ih _ hxs' hsucc' hwarn hr hrest horder
        · have hkept : kept stream mem p = none := by
            rw [kept, if_neg hnote, if_neg hload]
          have hother : Other p = true := by
            simp [Other, hnote, hload]
          rw [List.filter_cons_of_pos hother, List.length_cons] at hwarn
          rw [if_neg hnote, if_neg hload, addWarning_eq hmalloc (by omega),
            List.filterMap_cons_none hkept]
          refine ih _ hxs hsucc ?_ hr hrest horder
          rw [List.length_append, List.length_singleton]
          omega

/-! ## The output -/

theorem filesz_le_layoutEnd {ps : List Phdr} {p : Phdr} (hp : p ∈ ps) (offset : Nat) :
    p.filesz ≤ layoutEnd offset ps := by
  induction ps generalizing offset with
  | nil => exact nomatch hp
  | cons q ps ih =>
      rw [layoutEnd]
      rcases List.mem_cons.mp hp with rfl | hp
      · have := le_layoutEnd (offset + paddingTo p.align offset + p.filesz) ps
        omega
      · exact ih hp _

/-- In a layout that fits there is room for the note. -/
theorem calculateSize_eq_noteSize {m : Metadata} {xs : List (Phdr × List UInt8)} {offset : Nat}
    (hend : layoutEnd offset ((xs ++ [metadataSegment m]).map Prod.fst) < 2 ^ 63) :
    (metadataCbor m).length + 3 < 2 ^ 64 ∧
      ticosCoreElfMetadataNoteCalculateSize m = noteSize m := by
  have hle := filesz_le_layoutEnd (List.mem_map_of_mem (f := Prod.fst)
    (List.mem_append_right xs (List.mem_singleton_self (metadataSegment m)))) offset
  have hlen : noteSize m < 2 ^ 63 := Nat.lt_of_le_of_lt hle hend
  have hcbor : (metadataCbor m).length + 3 < 2 ^ 64 := by
    rw [noteSize] at hlen
    omega
  exact ⟨hcbor, calculateSize_eq hcbor⟩

/-- The metadata note is added behind the segments, and the file is written. -/
theorem writeOut_spec (segmentsMax : Nat) (warnings : List String)
    {xs : List (Phdr × List UInt8)} (hmalloc : ∀ n, t.malloc n = true)
    (hrealloc : ∀ n, t.realloc n = true) (hp : Reads mem t.transformerHandler)
    (hno : CoreElfWriter.NoFailure t.writer.out.io.schedule) (hsync : t.writer.out.io.sync = true)
    (hout : t.writer.out.io.written = []) (hzero : t.writer.out.writeOffset = 0)
    (hm : t.writer.eMachine < 2 ^ 16) (hf : t.writer.eFlags < 2 ^ 32)
    (hxs : List.Forall₂ (Describes (Reads mem)) segments xs) (hsucc : ∀ s ∈ segments, Succeeds s)
    (hok : ∀ x ∈ xs ++ [metadataSegment t.metadata], x.1.Ok ∧ Aligns x.1)
    (hend : layoutEnd (ehdrSize + phdrSize * (xs ++ [metadataSegment t.metadata]).length)
      ((xs ++ [metadataSegment t.metadata]).map Prod.fst) < 2 ^ 63) :
    (writeOut (t.holding segments segmentsMax warnings)).writeSuccess = true ∧
    (writeOut (t.holding segments segmentsMax warnings)).writer.out.io.written
      = (elfHeader t.writer.eMachine t.writer.eFlags
          (xs ++ [metadataSegment t.metadata]).length).encode
        ++ (placed (ehdrSize + phdrSize * (xs ++ [metadataSegment t.metadata]).length)
          ((xs ++ [metadataSegment t.metadata]).map Prod.fst)).flatMap Phdr.encode
        ++ dataBlocks (ehdrSize + phdrSize * (xs ++ [metadataSegment t.metadata]).length)
          (xs ++ [metadataSegment t.metadata]) := by
  obtain ⟨hcbor, hsize⟩ := calculateSize_eq_noteSize hend
  obtain ⟨hnote, hlen, -⟩ := noteWrite_spec hcbor
  rw [hsize] at hnote hlen
  obtain ⟨segmentsMax', hadd⟩ := addSegment_succeeds
    (t.holding segments segmentsMax warnings).writer ⟨ptNote, 0, 0, 0, 0, noteSize t.metadata, 0, 0⟩
    (.buffer (ticosCoreElfMetadataNoteWrite t.metadata (noteSize t.metadata)).2)
  have happend : prvAppendTicosMetadataNote (t.holding segments segmentsMax warnings)
      = t.holding (segments ++ [⟨(metadataSegment t.metadata).1,
          .buffer (metadataSegment t.metadata).2⟩]) segmentsMax' warnings := by
    rw [prvAppendTicosMetadataNote]
    dsimp only
    rw [show (t.holding segments segmentsMax warnings).metadata = t.metadata from rfl, hsize,
      if_neg (by rw [Transformer.holding, hmalloc]; simp), if_neg (by rw [hnote]; simp),
      show (t.holding segments segmentsMax warnings).realloc
        (t.holding segments segmentsMax warnings).writer.segments.length = true from hrealloc _,
      hadd]
    rfl
  obtain ⟨hall, hsucc'⟩ := described_snoc (x := metadataSegment t.metadata)
    ⟨(metadataSegment t.metadata).1, .buffer (metadataSegment t.metadata).2⟩ hxs hsucc
    (describes_buffer _ hlen) (succeeds_buffer _ _)
  generalize segments ++ [⟨(metadataSegment t.metadata).1, .buffer (metadataSegment t.metadata).2⟩]
    = segments' at happend hall hsucc'
  have hwrite := write_succeeds (t.holding segments' segmentsMax' warnings).writer hall hsucc' hp
    hno hsync hout hzero hm hf hok hend
  have hwritten := write_true (t.holding segments' segmentsMax' warnings).writer hall hp hout hzero
    hm hf hok hend hwrite
  rw [writeOut]
  dsimp only
  rw [happend]
  exact ⟨hwrite, hwritten⟩

/-- The data stands where the layout says. -/
theorem dataOf_blocks {xs : List (Phdr × List UInt8)} (hdata : ∀ x ∈ xs, x.2.length = x.1.filesz)
    (front : List UInt8) :
    List.Forall₂ (fun q x => (∃ at_, q = { x.1 with offset := at_ }) ∧
        dataOf (front ++ dataBlocks front.length xs) q = x.2)
      (placed front.length (xs.map Prod.fst)) xs := by
  induction xs generalizing front with
  | nil => exact List.Forall₂.nil
  | cons x xs ih =>
      obtain ⟨p, data⟩ := x
      have hlen : data.length = p.filesz := hdata _ List.mem_cons_self
      have hfront : (front ++ (List.replicate (paddingTo p.align front.length) 0 ++ data)).length
          = front.length + paddingTo p.align front.length + p.filesz := by
        rw [List.length_append, List.length_append, List.length_replicate, hlen, Nat.add_assoc]
      have hpad : (front ++ List.replicate (paddingTo p.align front.length) 0).length
          = front.length + paddingTo p.align front.length := by
        rw [List.length_append, List.length_replicate]
      rw [List.map_cons, placed, dataBlocks]
      refine List.Forall₂.cons ⟨⟨_, rfl⟩, ?_⟩ ?_
      · rw [dataOf, ← List.append_assoc, place, ← hpad, List.drop_left, ← hlen, List.take_left]
      · have hrest := ih (fun y hy => hdata y (List.mem_cons_of_mem _ hy))
          (front ++ (List.replicate (paddingTo p.align front.length) 0 ++ data))
        rw [hfront] at hrest
        simp only [List.append_assoc] at hrest ⊢
        exact hrest

/-- What has been written is read as a core with these segments. -/
theorem parse_written {eMachine eFlags : Nat} (hm : eMachine < 2 ^ 16) (hf : eFlags < 2 ^ 32)
    {xs : List (Phdr × List UInt8)} (hmax : xs.length ≤ 65535) (hok : ∀ x ∈ xs, x.1.Ok)
    (hdata : ∀ x ∈ xs, x.2.length = x.1.filesz)
    (hend : layoutEnd (ehdrSize + phdrSize * xs.length) (xs.map Prod.fst) < 2 ^ 63)
    {written : List UInt8}
    (h : written = (elfHeader eMachine eFlags xs.length).encode
      ++ (placed (ehdrSize + phdrSize * xs.length) (xs.map Prod.fst)).flatMap Phdr.encode
      ++ dataBlocks (ehdrSize + phdrSize * xs.length) xs) :
    headerOf written = elfHeader eMachine eFlags xs.length ∧
    List.Forall₂ (fun q x => (∃ at_, q = { x.1 with offset := at_ }) ∧ dataOf written q = x.2)
      (segmentsOf written) xs := by
  have hhok := elfHeader_ok hm hf xs.length
  have hhlen := Ehdr.encode_length hhok
  have hphdrs : ∀ q ∈ placed (ehdrSize + phdrSize * xs.length) (xs.map Prod.fst), q.Ok := by
    refine placed_ok (fun p hp => ?_) hend
    obtain ⟨x, hx, rfl⟩ := List.mem_map.mp hp
    exact hok x hx
  have hplaced : (placed (ehdrSize + phdrSize * xs.length) (xs.map Prod.fst)).length
      = xs.length := by
    rw [placed_length, List.length_map]
  have htable := encodeTable_length hphdrs
  have hheader : headerOf written = elfHeader eMachine eFlags xs.length := by
    rw [headerOf, h, List.append_assoc, ← hhlen, List.take_left, Ehdr.decode_encode hhok]
  have hsegments : segmentsOf written
      = placed (ehdrSize + phdrSize * xs.length) (xs.map Prod.fst) := by
    have hnum : (elfHeader eMachine eFlags xs.length).phnum
        = (placed (ehdrSize + phdrSize * xs.length) (xs.map Prod.fst)).length :=
      (Nat.mod_eq_of_lt (by omega)).trans hplaced.symm
    rw [segmentsOf, hheader, hnum, h, List.append_assoc, ← hhlen, List.drop_left]
    rw [hhlen]
    exact decodeTable_encode hphdrs _
  have hfront : ((elfHeader eMachine eFlags xs.length).encode
      ++ (placed (ehdrSize + phdrSize * xs.length) (xs.map Prod.fst)).flatMap Phdr.encode).length
      = ehdrSize + phdrSize * xs.length := by
    rw [List.length_append, hhlen, htable, hplaced, Nat.mul_comm]
  have hblocks := dataOf_blocks hdata ((elfHeader eMachine eFlags xs.length).encode
    ++ (placed (ehdrSize + phdrSize * xs.length) (xs.map Prod.fst)).flatMap Phdr.encode)
  rw [hfront, ← h, ← hsegments] at hblocks
  exact ⟨hheader, hblocks⟩

/-! ## The whole run -/

/-- The metadata note takes no place among the warnings. -/
theorem writeOut_overrun (t : Transformer) : (writeOut t).overrun = t.overrun := by
  have happend : (prvAppendTicosMetadataNote t).overrun = t.overrun := by
    rw [prvAppendTicosMetadataNote]
    dsimp only
    split
    · rfl
    · split <;> rfl
  exact happend

/-- The segments of the output have the bytes that their headers promise, and headers
    that can be placed. -/
theorem outputSegments_ok (hin : IsCore stream) {m : Metadata} {offset : Nat}
    (hend : layoutEnd offset ((outputSegments stream mem m).map Prod.fst) < 2 ^ 63) :
    ∀ x ∈ outputSegments stream mem m,
      (x.1.Ok ∧ Aligns x.1) ∧ x.2.length = x.1.filesz := by
  obtain ⟨hcbor, hsize⟩ := calculateSize_eq_noteSize hend
  have hsmall : noteSize m < 2 ^ 63 := Nat.lt_of_le_of_lt (filesz_le_layoutEnd
    (List.mem_map_of_mem (f := Prod.fst) (List.mem_append_right _
      (List.mem_singleton_self (metadataSegment m)))) offset) hend
  intro x hx
  rcases List.mem_append.mp hx with hx | hx
  · obtain ⟨p, hp, hkept⟩ := List.mem_filterMap.mp hx
    have hpok : p.Ok ∧ Aligns p := ⟨decodeTable_ok _ _ p hp, hin.aligns p hp⟩
    rw [kept] at hkept
    split at hkept
    · rename_i hnote
      obtain rfl := Option.some.inj hkept
      obtain ⟨-, hfit⟩ := hin.notes p hp hnote
      refine ⟨hpok, ?_⟩
      rw [dataOf, List.length_take, List.length_drop]
      show min p.filesz (stream.length - p.offset) = p.filesz
      omega
    · split at hkept
      · obtain rfl := Option.some.inj hkept
        exact ⟨hpok, memoryAt_length mem p.vaddr p.filesz⟩
      · exact nomatch hkept
  · rw [List.mem_singleton.mp hx]
    refine ⟨⟨?_, Or.inl (Nat.zero_le 1)⟩, ?_⟩
    · show Fits [4, 4, 8, 8, 8, 8, 8, 8] [ptNote, 0, 0, 0, 0, noteSize m, 0, 0]
      simp only [Fits, List.forall₂_cons, List.forall₂_nil_left_iff]
      exact ⟨by decide, by decide, by decide, by decide, by decide, by omega, by decide, by decide,
        trivial⟩
    · have hlen := (noteWrite_spec hcbor).2.1
      rw [hsize] at hlen
      exact hlen

/-- The reader's run over a core: the handler gathers the segments that are kept, and
    writes them out. -/
theorem readAll_gathers (mem : Nat → UInt8) (hin : IsCore stream) {reads : List Choice}
    (hreads : NoFailure reads) (hmalloc : ∀ n, t.malloc n = true) (hrealloc : ∀ n, t.realloc n = true) :
    ∃ r segments' segmentsMax' warnings',
      ticosCoreElfReaderReadAll readHandler
        (ticosCoreElfReaderInit ⟨stream, reads⟩ t.malloc (t.holding [] 0 [])) = (true, r) ∧
      r.state = prvHandleDone (writeOut ((prvHandleElfHeader t (headerOf stream)).holding segments'
        segmentsMax' warnings')) ∧
      List.Forall₂ (Describes (Reads mem)) segments'
        ((segmentsOf stream).filterMap (kept stream mem)) ∧
      ∀ s ∈ segments', Succeeds s := by
  have htablefit := hin.table
  have hheadlen : (stream.take ehdrSize).length = ehdrSize := List.length_take_of_le (by omega)
  have hhead : (headerOf stream).encode = stream.take ehdrSize := Ehdr.encode_decode hheadlen
  have hheadok : (headerOf stream).Ok := Ehdr.decode_ok hheadlen
  have hcount : (segmentsOf stream).length = (headerOf stream).phnum := decodeTable_length _ _
  have htable : (segmentsOf stream).flatMap Phdr.encode
      = (stream.drop ehdrSize).take ((headerOf stream).phnum * phdrSize) :=
    encode_decodeTable (by rw [List.length_drop]; omega)
  have hsplit : stream = (headerOf stream).encode ++ ((segmentsOf stream).flatMap Phdr.encode
      ++ stream.drop (ehdrSize + (headerOf stream).phnum * phdrSize)) := by
    rw [hhead, htable, ← List.drop_drop, List.take_append_drop, List.take_append_drop]
  obtain ⟨s, hs, hread⟩ := readAll_val (segmentsOf stream)
    (stream.drop (ehdrSize + (headerOf stream).phnum * phdrSize)) hheadok
    hin.valid hin.phoff (decodeTable_ok _ _) hcount.symm readHandler (t.holding [] 0 []) hmalloc
    hreads
  rw [← hsplit] at hread
  generalize hstart : atData ⟨stream.drop (ehdrSize + (headerOf stream).phnum * phdrSize), s⟩
    t.malloc (headerOf stream) (readHandler.handleElfHeader (t.holding [] 0 []) (headerOf stream))
    (segmentsOf stream) = start at hread
  -- the handler is called at the end of the table
  have hpos : start.streamPos = ehdrSize + (headerOf stream).phnum * phdrSize := by
    rw [← hstart, atData, hcount]
  have hrest : start.io = ⟨stream.drop start.streamPos, s⟩ := by
    rw [hpos, ← hstart]
    rfl
  have hfollows : Follows stream start := by
    refine ⟨?_, ?_, ?_⟩
    · rw [hrest]
      exact hs
    · rw [hrest]
    · rw [hpos]
      exact htablefit
  have hnotes : ∀ p ∈ segmentsOf stream, p.type = ptNote →
      p.offset + p.filesz ≤ stream.length ∧ (p.filesz = 0 ∨ start.streamPos ≤ p.offset) := by
    intro p hp hnote
    obtain ⟨hbehind, hfit⟩ := hin.notes p hp hnote
    rw [hpos]
    exact ⟨hfit, Or.inr hbehind⟩
  have hroom : ([] : List String).length + ((segmentsOf stream).filter Other).length
      ≤ warningsSize := by
    rw [List.length_nil, Nat.zero_add]
    exact hin.others
  obtain ⟨segments', segmentsMax', warnings', hdesc, hsucc, hstate⟩ := runScript_segmentsLoop
    (t := prvHandleElfHeader t (headerOf stream)) 0 hmalloc hrealloc (segmentsOf stream)
    (List.Forall₂.nil (R := Describes (Reads mem))) (fun _ hs => absurd hs List.not_mem_nil) hroom hfollows hnotes
    hin.order
  refine ⟨_, segments', segmentsMax', warnings', hread, ?_, hdesc, hsucc⟩
  exact congrArg prvHandleDone hstate

/-- **The transformer preserves the dump**: for every stream with a core and every
    schedule without failures the run succeeds, and what it has written is a core
    for the same machine with the notes and the loaded segments of the stream in
    their order, with their headers up to the offsets, the notes with the bytes of
    the stream and the loaded segments with those of the process, and the metadata
    note behind them. -/
theorem transformer_preserves_dump {stream : List UInt8} (hin : IsCore stream) (m : Metadata)
    (mem : Nat → UInt8) {reads : List Choice} (hreads : NoFailure reads)
    {writes : List CoreElfWriter.Choice} (hwrites : CoreElfWriter.NoFailure writes)
    {copies : List CopyChoice} (hcopies : CopyChoice.failure ∉ copies)
    {malloc realloc : Nat → Bool} (hmalloc : ∀ n, malloc n = true)
    (hrealloc : ∀ n, realloc n = true)
    (hend : layoutEnd (ehdrSize + phdrSize * (outputSegments stream mem m).length)
      ((outputSegments stream mem m).map Prod.fst) < 2 ^ 63) :
    ∃ t, ticosCoreElfTransformerRun (ticosCoreElfTransformerInit ⟨stream, reads⟩
        ⟨[], writes, true⟩ m ⟨mem, copies⟩ malloc realloc) = (true, t) ∧
      t.overrun = false ∧
      ticosCoreElfReaderIsValidCoreElf (headerOf t.writer.out.io.written) = true ∧
      (headerOf t.writer.out.io.written).phoff = ehdrSize ∧
      (headerOf t.writer.out.io.written).machine = (headerOf stream).machine ∧
      (headerOf t.writer.out.io.written).flags = (headerOf stream).flags ∧
      List.Forall₂ (fun q x => (∃ at_, q = { x.1 with offset := at_ }) ∧
          dataOf t.writer.out.io.written q = x.2)
        (segmentsOf t.writer.out.io.written) (outputSegments stream mem m) ∧
      ((metadataCbor m).length < 2 ^ 32 → (metadataSegment m).2
        = encodeFields [4, 4, 4] [6, (metadataCbor m).length, metadataNoteType]
          ++ (CText.ascii "Ticos" ++ [0, 0, 0]) ++ (metadataCbor m
          ++ List.replicate ((4 - (metadataCbor m).length % 4) % 4) 0)) := by
  have hout := outputSegments_ok hin hend
  have htable := hin.table
  have hheadok : (headerOf stream).Ok := Ehdr.decode_ok (List.length_take_of_le (by omega))
  obtain ⟨hmlt, hflt⟩ := hheadok.bounds
  generalize ht : Transformer.mk (ticosCoreElfWriterInit ⟨[], writes, true⟩) m ⟨mem, copies⟩ []
    false false malloc realloc = t
  obtain ⟨r, segments', segmentsMax', warnings', hread, hstate, hdesc, hsucc⟩ := readAll_gathers
    (t := t) mem hin hreads (by rw [← ht]; exact hmalloc) (by rw [← ht]; exact hrealloc)
  have hinit : ticosCoreElfReaderInit ⟨stream, reads⟩ t.malloc (t.holding [] 0 [])
      = ticosCoreElfTransformerInit ⟨stream, reads⟩ ⟨[], writes, true⟩ m ⟨mem, copies⟩ malloc
        realloc := by
    rw [← ht]
    rfl
  rw [hinit] at hread
  have hmeta : (prvHandleElfHeader t (headerOf stream)).metadata = m := by
    rw [← ht]
    rfl
  have hover : (prvHandleElfHeader t (headerOf stream)).overrun = false := by
    rw [← ht]
    rfl
  obtain ⟨hsuccess, hwritten⟩ := writeOut_spec (t := prvHandleElfHeader t (headerOf stream))
    segmentsMax' warnings' (by rw [← ht]; exact hmalloc) (by rw [← ht]; exact hrealloc)
    (by rw [← ht]; exact ⟨rfl, hcopies⟩) (by rw [← ht]; exact hwrites) (by rw [← ht]; rfl)
    (by rw [← ht]; rfl) (by rw [← ht]; rfl) hmlt hflt hdesc hsucc
    (by rw [hmeta]; exact fun x hx => (hout x hx).1) (by rw [hmeta]; exact hend)
  rw [hmeta] at hwritten
  have hmax : (outputSegments stream mem m).length ≤ 65535 := by
    have hle := List.length_filterMap_le (kept stream mem) (segmentsOf stream)
    have hcount : (segmentsOf stream).length = (headerOf stream).phnum := decodeTable_length _ _
    have hnum := hin.phnum
    rw [outputSegments, List.length_append, List.length_singleton]
    omega
  obtain ⟨hheader, hsegments⟩ := parse_written hmlt hflt hmax (fun x hx => (hout x hx).1.1)
    (fun x hx => (hout x hx).2) hend hwritten
  have hpos : (outputSegments stream mem m).length > 0 := by
    rw [outputSegments, List.length_append, List.length_singleton]
    exact Nat.succ_pos _
  have hdone : r.state.writer.out = (writeOut ((prvHandleElfHeader t (headerOf stream)).holding
      segments' segmentsMax' warnings')).writer.out := by
    rw [hstate]
    rfl
  rw [← hdone] at hheader hsegments
  refine ⟨r.state, ?_, ?_, ?_, ?_, ?_, ?_, hsegments, ?_⟩
  · have hok : r.state.writeSuccess = true := by
      rw [hstate]
      exact hsuccess
    rw [ticosCoreElfTransformerRun, hread]
    dsimp only
    rw [hok]
    rfl
  · rw [hstate]
    exact (writeOut_overrun _).trans hover
  · rw [hheader]
    exact elfHeader_valid hpos
  · rw [hheader]
    exact elfHeader_phoff hpos
  · rw [hheader]
    rfl
  · rw [hheader]
    rfl
  · intro hsmall
    obtain ⟨hcbor, hsize⟩ := calculateSize_eq_noteSize hend
    have hbytes := (noteWrite_spec hcbor).2.2 hsmall
    rw [hsize] at hbytes
    exact hbytes

/-- A core with two notes, a loaded segment between them, and a segment of another
    type. -/
def smallDump : List UInt8 :=
  (Ehdr.encode ⟨elfMag ++ [elfClass64, elfData2Lsb, 1, 0, 0, 0, 0, 0, 0, 0, 0, 0], etCore, 62, 1,
    0, 64, 0, 5, 64, 56, 4, 0, 0, 0⟩)
  ++ [⟨ptNote, 0, 288, 0, 0, 3, 0, 0⟩, ⟨ptLoad, 6, 4096, 8192, 0, 5, 5, 16⟩,
    ⟨6, 4, 64, 64, 64, 8, 8, 8⟩, ⟨ptNote, 0, 292, 0, 0, 2, 0, 1⟩].flatMap Phdr.encode
  ++ [1, 2, 3, 0, 4, 5]

theorem smallDump_isCore : IsCore smallDump := by
  have haligns : ∀ p ∈ segmentsOf smallDump, p.align ≤ 1 ∨ p.align = 2 ^ 3 ∨ p.align = 2 ^ 4 := by
    decide +kernel
  constructor
  · decide +kernel
  · decide +kernel
  · decide +kernel
  · decide +kernel
  · intro p hp
    rcases haligns p hp with h | h | h
    · exact Or.inl h
    · exact Or.inr ⟨3, h⟩
    · exact Or.inr ⟨4, h⟩
  · decide +kernel
  · decide +kernel
  · decide +kernel

def smallMetadata : Metadata :=
  ⟨CText.ascii "1.0", 7, CText.ascii "DEV", CText.ascii "hw", CText.ascii "sw", CText.ascii "2"⟩

/-- The memory in which each byte is its address. -/
def addressMemory (address : Nat) : UInt8 := UInt8.ofNat address

theorem transformer_preserves_dump_small :
    ∃ t, ticosCoreElfTransformerRun (ticosCoreElfTransformerInit ⟨smallDump, [.deliver 1, .eintr]⟩
        ⟨[], [.accept 7, .eintr], true⟩ smallMetadata ⟨addressMemory, [.copy 2]⟩ (fun _ => true)
        (fun _ => true)) = (true, t) ∧
      t.overrun = false ∧
      ticosCoreElfReaderIsValidCoreElf (headerOf t.writer.out.io.written) = true ∧
      (headerOf t.writer.out.io.written).phoff = ehdrSize ∧
      (headerOf t.writer.out.io.written).machine = (headerOf smallDump).machine ∧
      (headerOf t.writer.out.io.written).flags = (headerOf smallDump).flags ∧
      List.Forall₂ (fun q x => (∃ at_, q = { x.1 with offset := at_ }) ∧
          dataOf t.writer.out.io.written q = x.2)
        (segmentsOf t.writer.out.io.written)
        (outputSegments smallDump addressMemory smallMetadata) ∧
      ((metadataCbor smallMetadata).length < 2 ^ 32 → (metadataSegment smallMetadata).2
        = encodeFields [4, 4, 4] [6, (metadataCbor smallMetadata).length, metadataNoteType]
          ++ (CText.ascii "Ticos" ++ [0, 0, 0]) ++ (metadataCbor smallMetadata
          ++ List.replicate ((4 - (metadataCbor smallMetadata).length % 4) % 4) 0)) := by
  refine transformer_preserves_dump smallDump_isCore smallMetadata addressMemory ?_ ?_ ?_
    (fun _ => rfl) (fun _ => rfl) (by decide +kernel)
  · intro e he
    simp at he
  · intro hfail
    simp at hfail
  · intro hfail
    simp at hfail

end CoreElfTransformer
