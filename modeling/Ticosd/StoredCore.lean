import Ticosd.GzipWriter
import Ticosd.LoadCopy

/-! # The stored core — from the process to the file

    `prv_transform_coredump_from_fd_to_file` puts five parts together: the reader, the
    transformer, the writer, the gzip IO and the file IO.  The reader and the transformer
    leave a writer with segments (`Gathered`): the notes in buffers, and callbacks that
    hand over the memory of the process in pieces.  What that writer stores does not
    depend on the pieces, nor on what the kernel and zlib do below it: `image`, which is
    read as a core with the same notes and the same memory, and with the metadata. -/

namespace StoredCore

open CoreElf CoreElfReader CoreElfNote CoreElfTransformer GzipIo GzipWriter WriterRefines Fuel
open CoreElfFileIo hiding prvWriteAll prvIoWriteAll prvWritePadding writeTable writeData
open CoreElfWriter (Output Aligns layoutEnd placed dataBlocks elfHeader Describes)

variable {ζ : Type}

/-- A segment that the transformer has added: a note in a buffer, or the memory of a LOAD
    segment, which `prv_write_load_segment_data_cb` hands over in pieces of its buffer. -/
structure Brings (s : Segment) (x : Phdr × List UInt8) : Prop where
  header : s.header = x.1
  data : (x.1.type = ptNote ∧ s.data = .buffer x.2) ∨ ∃ pieces : List (Nat × List UInt8),
    s.data = .callback (copying pieces) ∧ (pieces.map Prod.snd).flatten = x.2 ∧
      ∀ p ∈ pieces, p.2.length ≤ procMemCopyBufferSizeBytes

/-- The writer when the transformer has gone through a stream: the machine of the stream,
    and the segments of the output. -/
structure Gathered (stream : List UInt8) (mem : Nat → UInt8) (m : Metadata) (w : Writer) :
    Prop where
  machine : w.eMachine = (headerOf stream).machine
  flags : w.eFlags = (headerOf stream).flags
  segments : List.Forall₂ Brings w.segments (outputSegments stream mem m)

/-- A core for the machine of the stream, with the segments of the output in their order:
    each one under its header, but for the offset, and with its bytes. -/
structure IsDumpOf (stream : List UInt8) (mem : Nat → UInt8) (m : Metadata)
    (core : List UInt8) : Prop where
  valid : ticosCoreElfReaderIsValidCoreElf (headerOf core) = true
  machine : (headerOf core).machine = (headerOf stream).machine
  flags : (headerOf core).flags = (headerOf stream).flags
  segments : List.Forall₂ (fun q x => (∃ at_, q = { x.1 with offset := at_ }) ∧
    dataOf core q = x.2) (segmentsOf core) (outputSegments stream mem m)

theorem copying_provides (pieces : List (Nat × List UInt8)) :
    (script (copying pieces)).provides = ((pieces.map Prod.snd).flatten, true, ()) := by
  induction pieces with
  | nil => rfl
  | cons p rest ih =>
      have hwrite : (script (copying (p :: rest))).provides
          = (p.2 ++ (script (copying rest)).provides.1, (script (copying rest)).provides.2) := rfl
      rw [hwrite, ih]
      rfl

theorem copying_short {pieces : List (Nat × List UInt8)}
    (h : ∀ p ∈ pieces, p.2.length ≤ procMemCopyBufferSizeBytes) : ShortPieces (copying pieces) := by
  have hbuffer : procMemCopyBufferSizeBytes = 4096 := rfl
  induction pieces with
  | nil => trivial
  | cons p rest ih =>
      have hp := h p List.mem_cons_self
      refine ⟨?_, ih fun q hq => h q (List.mem_cons_of_mem _ hq)⟩
      rw [Short]
      omega

theorem Brings.tame {s : Segment} {x : Phdr × List UInt8} (h : Brings s x)
    (hx : x.1.type = ptNote → Short x.2) : Tame s.data := by
  rcases h.data with ⟨hnote, hdata⟩ | ⟨pieces, hdata, -, hpieces⟩
  · rw [hdata]
    exact hx hnote
  · rw [hdata]
    exact ⟨copying_short hpieces, copying_reports pieces⟩

/-- What the segment writes is the bytes that belong to it. -/
theorem Brings.describes {s : Segment} {x : Phdr × List UInt8} (h : Brings s x)
    (hlen : x.2.length = x.1.filesz) : Describes (fun _ => True) (toSegment s) x := by
  obtain ⟨header, data⟩ := s
  obtain ⟨p, bytes⟩ := x
  obtain ⟨hheader, hdata⟩ := h
  dsimp only at hheader hdata hlen
  rw [← hheader] at hlen ⊢
  rcases hdata with ⟨-, rfl⟩ | ⟨pieces, rfl, rfl, -⟩
  · exact CoreElfWriter.describes_buffer _ hlen
  · refine ⟨rfl, ?_, hlen⟩
    intro state out offset _ hs hbound hok
    have hprovides := copying_provides pieces
    have hrun := CoreElfLayout.Script.run_true hs
      (Or.inr (script_reports (copying_reports pieces))) (by rw [hprovides]; exact hbound) hok
    rw [hprovides] at hrun
    exact ⟨hrun.1, trivial⟩

theorem Gathered.describes {stream : List UInt8} {mem : Nat → UInt8} {m : Metadata} {w : Writer}
    (h : Gathered stream mem m w)
    (hlen : ∀ x ∈ outputSegments stream mem m, x.2.length = x.1.filesz) :
    List.Forall₂ (Describes fun _ => True) (w.segments.map toSegment)
      (outputSegments stream mem m) := by
  rw [List.forall₂_map_left_iff]
  refine ((List.forall₂_and_left _ _).mpr ⟨hlen, h.segments.flip⟩).flip.imp ?_
  rintro s x ⟨hx, hbrings⟩
  exact Brings.describes hbrings hx

theorem Gathered.tame {stream : List UInt8} {mem : Nat → UInt8} {m : Metadata} {w : Writer}
    (h : Gathered stream mem m w)
    (hshort : ∀ x ∈ outputSegments stream mem m, x.1.type = ptNote → Short x.2) :
    ∀ s ∈ w.segments, Tame s.data := by
  have hall : List.Forall₂ (fun s x => Tame s.data ∧ Brings s x) w.segments
      (outputSegments stream mem m) := by
    refine ((List.forall₂_and_left _ _).mpr ⟨hshort, h.segments.flip⟩).flip.imp ?_
    rintro s x ⟨hx, hbrings⟩
    exact ⟨Brings.tame hbrings hx, hbrings⟩
  exact ((List.forall₂_and_left _ _).mp hall).1

/-- The callback hands its pieces over, as `prv_write_load_segment_data_cb` does. -/
theorem copying_run (pieces : List (Nat × List UInt8)) (out : Output) :
    plain ((script (copying pieces)).run out) = LoadCopy.handOver out (pieces.map Prod.snd) := by
  induction pieces generalizing out with
  | nil => rfl
  | cons p rest ih =>
      have hstep : plain ((script (copying (p :: rest))).run out) =
          plain ((script (if (CoreElfWriter.prvWriteAll out p.2).1 then copying rest
            else .ret false)).run (CoreElfWriter.prvWriteAll out p.2).2) := rfl
      rw [hstep, List.map_cons, LoadCopy.handOver]
      cases (CoreElfWriter.prvWriteAll out p.2).1 with
      | true => exact ih _
      | false => rfl

/-! ## The file of a core -/

/-- The bytes of the core: the ELF header, the headers of the segments with their offsets,
    and the data of each segment at its place. -/
def image (stream : List UInt8) (mem : Nat → UInt8) (m : Metadata) : List UInt8 :=
  let xs := outputSegments stream mem m
  (elfHeader (headerOf stream).machine (headerOf stream).flags xs.length).encode
    ++ (placed (ehdrSize + phdrSize * xs.length) (xs.map Prod.fst)).flatMap Phdr.encode
    ++ dataBlocks (ehdrSize + phdrSize * xs.length) xs

section Image

variable {stream : List UInt8} {mem : Nat → UInt8} {m : Metadata}

theorem headerOf_bounds (hin : IsCore stream) :
    (headerOf stream).machine < 2 ^ 16 ∧ (headerOf stream).flags < 2 ^ 32 := by
  have htable := hin.table
  exact (Ehdr.decode_ok (List.length_take_of_le (by omega))).bounds

theorem outputSegments_count (hin : IsCore stream) (mem : Nat → UInt8) (m : Metadata) :
    0 < (outputSegments stream mem m).length ∧ (outputSegments stream mem m).length ≤ 65535 := by
  have hle := List.length_filterMap_le (kept stream mem) (segmentsOf stream)
  have hcount : (segmentsOf stream).length = (headerOf stream).phnum := decodeTable_length _ _
  have hnum := hin.phnum
  rw [outputSegments, List.length_append, List.length_singleton]
  omega

/-- **The bytes are read as the core.** -/
theorem image_isDump (hin : IsCore stream)
    (hend : layoutEnd (ehdrSize + phdrSize * (outputSegments stream mem m).length)
      ((outputSegments stream mem m).map Prod.fst) < 2 ^ 63) :
    IsDumpOf stream mem m (image stream mem m) := by
  have hout := outputSegments_ok hin hend
  obtain ⟨hm, hf⟩ := headerOf_bounds hin
  obtain ⟨hpos, hmax⟩ := outputSegments_count hin mem m
  obtain ⟨hheader, hsegments⟩ := parse_written hm hf hmax (fun x hx => (hout x hx).1.1)
    (fun x hx => (hout x hx).2) hend (rfl : image stream mem m = _)
  constructor
  · rw [hheader]
    exact CoreElfWriter.elfHeader_valid hpos
  · rw [hheader]
    rfl
  · rw [hheader]
    rfl
  · exact hsegments

/-- **What the writer stores** of a core, if it meets nothing. -/
theorem calmWriter_image (hin : IsCore stream)
    (hend : layoutEnd (ehdrSize + phdrSize * (outputSegments stream mem m).length)
      ((outputSegments stream mem m).map Prod.fst) < 2 ^ 63)
    {w : Writer} (hw : Gathered stream mem m w) (htrue : (calmWriter w).1 = true) :
    (calmWriter w).2.2.io.written = image stream mem m := by
  have hout := outputSegments_ok hin hend
  obtain ⟨hm, hf⟩ := headerOf_bounds hin
  rw [← hw.machine] at hm
  rw [← hw.flags] at hf
  rw [image, ← hw.machine, ← hw.flags]
  exact CoreElfWriter.write_true (toWriter w ⟨⟨[], [], true⟩, 0⟩)
    (hw.describes fun x hx => (hout x hx).2) trivial rfl rfl hm hf (fun x hx => (hout x hx).1)
    hend htrue

/-- **The transformer** writes these bytes to an IO object that takes everything, however
    it reads and copies. -/
theorem transformer_image (hin : IsCore stream)
    (hend : layoutEnd (ehdrSize + phdrSize * (outputSegments stream mem m).length)
      ((outputSegments stream mem m).map Prod.fst) < 2 ^ 63)
    {reads : List Choice} (hreads : NoFailure reads) {copies : List CopyChoice}
    (hcopies : CopyChoice.failure ∉ copies) :
    ∃ t, ticosCoreElfTransformerRun (ticosCoreElfTransformerInit ⟨stream, reads⟩ ⟨[], [], true⟩ m
        ⟨mem, copies⟩ (fun _ => true) (fun _ => true)) = (true, t) ∧
      t.writer.out.io.written = image stream mem m := by
  have hout := outputSegments_ok hin hend
  obtain ⟨hm, hf⟩ := headerOf_bounds hin
  let t : Transformer := ⟨CoreElfWriter.ticosCoreElfWriterInit ⟨[], [], true⟩, m, ⟨mem, copies⟩, [],
    false, false, fun _ => true, fun _ => true⟩
  obtain ⟨r, segments', segmentsMax', warnings', hread, hstate, hdesc, hsucc⟩ := readAll_gathers
    (t := t) mem hin hreads (fun _ => rfl) (fun _ => rfl)
  obtain ⟨hsuccess, hwritten⟩ := writeOut_spec (t := prvHandleElfHeader t (headerOf stream))
    segmentsMax' warnings' (fun _ => rfl) (fun _ => rfl) ⟨rfl, hcopies⟩ (fun h => by cases h) rfl
    rfl rfl hm hf hdesc hsucc (fun x hx => (hout x hx).1) hend
  refine ⟨r.state, ?_, ?_⟩
  · have hok : r.state.writeSuccess = true := by
      rw [hstate]
      exact hsuccess
    have hinit : ticosCoreElfTransformerInit ⟨stream, reads⟩ ⟨[], [], true⟩ m ⟨mem, copies⟩
        (fun _ => true) (fun _ => true)
        = ticosCoreElfReaderInit ⟨stream, reads⟩ t.malloc (t.holding [] 0 []) := rfl
    rw [ticosCoreElfTransformerRun, hinit, hread]
    dsimp only
    rw [hok]
    rfl
  · rw [hstate]
    exact hwritten

end Image

/-! ## What `prv_transform_coredump_from_fd_to_file` leaves -/

/-- A note in its buffer, and any other data in two pieces; the second `pread` was
    interrupted before. -/
def inTwoPieces (x : Phdr × List UInt8) : Segment :=
  ⟨x.1, if x.1.type = ptNote then .buffer x.2
    else .callback (copying [(0, x.2.take 2), (eintr, x.2.drop 2)])⟩

theorem inTwoPieces_brings {x : Phdr × List UInt8} (h : x.2.length ≤ procMemCopyBufferSizeBytes) :
    Brings (inTwoPieces x) x := by
  refine ⟨rfl, ?_⟩
  by_cases hnote : x.1.type = ptNote
  · exact Or.inl ⟨hnote, if_pos hnote⟩
  · refine Or.inr ⟨_, if_neg hnote, ?_, ?_⟩
    · show x.2.take 2 ++ (x.2.drop 2 ++ []) = x.2
      rw [List.append_nil, List.take_append_drop]
    · intro p hp
      rcases List.mem_pair.mp hp with rfl | rfl
      · exact (List.length_take_le' _ _).trans h
      · exact (by rw [List.length_drop]; omega : (x.2.drop 2).length ≤ x.2.length).trans h

/-- The writer for `smallDump`, and a run of it with gzip; the kernel takes a byte more in
    each call. -/
def smallWriter : Writer where
  eMachine := (headerOf smallDump).machine
  eFlags := (headerOf smallDump).flags
  segments := (outputSegments smallDump addressMemory smallMetadata).map inTwoPieces

def smallRun : Option Bool × State TableStream :=
  (ticosCoreElfWriterWrite (gzio tableDeflate (fio (fun i => .accept (i + 1)) true)) smallWriter).run
    60 (ticosCoreElfWriteFileIoInit 4096 ⟨[], none⟩ 0)

theorem smallWriter_short : ∀ x ∈ outputSegments smallDump addressMemory smallMetadata,
    Short x.2 := by
  have hsmall : ∀ x ∈ outputSegments smallDump addressMemory smallMetadata,
      x.2.length < 2 ^ 32 := by decide +kernel
  exact hsmall

theorem smallWriter_gathered : Gathered smallDump addressMemory smallMetadata smallWriter := by
  have hsmall : ∀ x ∈ outputSegments smallDump addressMemory smallMetadata,
      x.2.length ≤ procMemCopyBufferSizeBytes := by decide +kernel
  refine ⟨rfl, rfl, ?_⟩
  rw [smallWriter, List.forall₂_map_left_iff, List.forall₂_same]
  exact fun x hx => inTwoPieces_brings (hsmall x hx)

end StoredCore
