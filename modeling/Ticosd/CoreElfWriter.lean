import Ticosd.CoreElf

/-! # Core writer — `core_elf_writer.c`

    The writer plans the offsets of all segments while it writes the table, before
    any data exists, and then writes the data in the same order, with zeros in
    between.  It never seeks, so the planned offsets and the number of bytes
    written have to agree.

    The IO object follows `write(2)`: a call takes some of the bytes, or is
    interrupted, or fails; a schedule lists what the calls do, and when it is used
    up every call takes all.  The data of a segment is a buffer or is written by a
    callback, which has a state of its own.  Sizes and offsets are `size_t`; the
    second half of the module says what the writer does as long as they do not
    overflow. -/

namespace CoreElfWriter

open CoreElf LittleEndian

/-! ## The IO object -/

/-- What a call of `write` does. -/
inductive Choice where
  | accept (n : Nat)
  | eintr
  | failure

/-- The bytes taken so far, what the next calls do, and the result of `sync`. -/
structure WriteIo where
  written : List UInt8
  schedule : List Choice
  sync : Bool

/-- The loop of `prv_io_write_all`: the result, the bytes taken and the rest of the
    schedule. -/
def writeAllLoop : List Choice → List UInt8 → List UInt8 → Bool × List UInt8 × List Choice
  | [], written, data => (true, written ++ data, [])
  | c :: rest, written, data =>
      if data = [] then (true, written, c :: rest)
      else match c with
        | .accept n => writeAllLoop rest (written ++ data.take n) (data.drop n)
        | .eintr => writeAllLoop rest written data
        | .failure => (false, written, rest)

/-- `prv_io_write_all`. -/
def prvIoWriteAll (io : WriteIo) (data : List UInt8) : Bool × WriteIo :=
  let t := writeAllLoop io.schedule io.written data
  (t.1, { io with written := t.2.1, schedule := t.2.2 })

/-- The IO object and `write_offset`. -/
structure Output where
  io : WriteIo
  writeOffset : Nat

/-- `prv_write_all`, which is `ticos_core_elf_writer_write_segment_data`, too. -/
def prvWriteAll (out : Output) (data : List UInt8) : Bool × Output :=
  let t := prvIoWriteAll out.io data
  if t.1 = false then (false, { out with io := t.2 })
  else (true, ⟨t.2, (out.writeOffset + data.length) % 2 ^ 64⟩)

/-! ## The layout, in machine words -/

/-- `TICOS_ALIGN_UP` on a `size_t`. -/
def ticosAlignUp (size alignment : Nat) : Nat :=
  ((size + (alignment - 1)) % 2 ^ 64) &&& (2 ^ 64 - 1 - (alignment - 1))

/-- `prv_calc_padding`. -/
def prvCalcPadding (offset : Nat) (segment : Phdr) : Nat :=
  if segment.align ≤ 1 then 0
  else (2 ^ 64 + ticosAlignUp offset segment.align - offset) % 2 ^ 64

/-- `PADDING_WRITE_SIZE`. -/
def paddingWriteSize : Nat := 4096

/-- The loop of `prv_write_padding`; every round writes something, so `pad_size` is
    fuel enough. -/
def paddingLoop : Nat → Output → Nat → Bool × Output
  | 0, out, _ => (true, out)
  | fuel + 1, out, padSize =>
      if padSize = 0 then (true, out)
      else
        let sz := min paddingWriteSize padSize
        let t := prvWriteAll out (List.replicate sz 0)
        if t.1 = false then (false, t.2) else paddingLoop fuel t.2 (padSize - sz)

/-- `prv_write_padding`. -/
def prvWritePadding (out : Output) (padSize : Nat) : Bool × Output :=
  paddingLoop padSize out padSize

/-! ## Segments -/

/-- The data of a segment: `segment_data`, or `segment_data_cb` with the state of
    its context. -/
inductive SegmentData (σ : Type) where
  | buffer (data : List UInt8)
  | callback (fn : σ → Output → Phdr → Bool × σ × Output)

/-- `sTicosCoreElfWriterSegment`. -/
structure Segment (σ : Type) where
  header : Phdr
  data : SegmentData σ

/-- `sTicosCoreElfWriter`. -/
structure Writer (σ : Type) where
  out : Output
  eMachine : Nat
  eFlags : Nat
  segments : List (Segment σ)
  segmentsMax : Nat

variable {σ : Type}

/-- `ticos_core_elf_writer_init`. -/
def ticosCoreElfWriterInit (io : WriteIo) : Writer σ where
  out := ⟨io, 0⟩
  eMachine := 0
  eFlags := 0
  segments := []
  segmentsMax := 0

/-- `ticos_core_elf_writer_set_elf_header_fields`. -/
def ticosCoreElfWriterSetElfHeaderFields (w : Writer σ) (eMachine eFlags : Nat) : Writer σ :=
  { w with eMachine := eMachine, eFlags := eFlags }

/-- `SEGMENTS_REALLOC_STEP_SIZE`. -/
def segmentsReallocStepSize : Nat := 32

/-- `prv_alloc_next_segment`: whether there is room for another segment. -/
def prvAllocNextSegment (realloc : Bool) (w : Writer σ) : Bool × Writer σ :=
  if w.segments.length ≥ w.segmentsMax then
    (realloc, { w with segmentsMax := w.segmentsMax + segmentsReallocStepSize })
  else (true, w)

/-- `ticos_core_elf_writer_add_segment_with_buffer` and `.._with_callback`. -/
def ticosCoreElfWriterAddSegment (realloc : Bool) (w : Writer σ) (segment : Phdr)
    (data : SegmentData σ) : Bool × Writer σ :=
  let t := prvAllocNextSegment realloc w
  if t.1 = false then t else (true, { t.2 with segments := t.2.segments ++ [⟨segment, data⟩] })

/-- Some segments with buffers, one after the other, if each call returns true;
    `realloc` answers by the number of segments. -/
def addBuffers (realloc : Nat → Bool) : Writer σ → List (Phdr × List UInt8) → Option (Writer σ)
  | w, [] => some w
  | w, (segment, data) :: rest =>
      match ticosCoreElfWriterAddSegment (realloc w.segments.length) w segment (.buffer data) with
      | (false, _) => none
      | (true, w') => addBuffers realloc w' rest

/-- A segment that was added stands at the end of the list. -/
theorem addSegment_true {realloc : Bool} {w v : Writer σ} {segment : Phdr}
    {data : SegmentData σ}
    (h : ticosCoreElfWriterAddSegment realloc w segment data = (true, v)) :
    v.out = w.out ∧ v.segments = w.segments ++ [⟨segment, data⟩] := by
  have hframe : (prvAllocNextSegment realloc w).2.out = w.out ∧
      (prvAllocNextSegment realloc w).2.segments = w.segments := by
    rw [prvAllocNextSegment]
    split <;> exact ⟨rfl, rfl⟩
  rw [ticosCoreElfWriterAddSegment] at h
  dsimp only at h
  split at h
  · rename_i hno
    rw [h] at hno
    exact nomatch hno
  · rw [← (Prod.mk.inj h).2]
    refine ⟨hframe.1, ?_⟩
    rw [hframe.2]

/-- With memory enough, a segment is added. -/
theorem addSegment_succeeds (w : Writer σ) (segment : Phdr) (data : SegmentData σ) :
    ∃ segmentsMax, ticosCoreElfWriterAddSegment true w segment data
      = (true, { w with segments := w.segments ++ [⟨segment, data⟩], segmentsMax := segmentsMax })
    := by
  by_cases hfull : w.segments.length ≥ w.segmentsMax
  · refine ⟨w.segmentsMax + segmentsReallocStepSize, ?_⟩
    rw [ticosCoreElfWriterAddSegment, prvAllocNextSegment, if_pos hfull]
    rfl
  · refine ⟨w.segmentsMax, ?_⟩
    rw [ticosCoreElfWriterAddSegment, prvAllocNextSegment, if_neg hfull]
    rfl

/-- Some segments, one after the other, if each call returns true. -/
def addSegments (realloc : Nat → Bool) : Writer σ → List (Phdr × SegmentData σ) →
    Option (Writer σ)
  | w, [] => some w
  | w, (segment, data) :: rest =>
      match ticosCoreElfWriterAddSegment (realloc w.segments.length) w segment data with
      | (false, _) => none
      | (true, w') => addSegments realloc w' rest

theorem addBuffers_eq (realloc : Nat → Bool) (w : Writer σ) (xs : List (Phdr × List UInt8)) :
    addBuffers realloc w xs
      = addSegments realloc w (xs.map (fun x => (x.1, .buffer x.2))) := by
  induction xs generalizing w with
  | nil => rfl
  | cons x xs ih =>
      rw [addBuffers, List.map_cons, addSegments]
      split
      · rfl
      · exact ih _

/-- The segments that have been added, in order. -/
theorem addSegments_some {realloc : Nat → Bool} {w w' : Writer σ}
    {xs : List (Phdr × SegmentData σ)} (hadd : addSegments realloc w xs = some w') :
    w'.out = w.out ∧ w'.segments = w.segments ++ xs.map (fun x => ⟨x.1, x.2⟩) := by
  induction xs generalizing w with
  | nil =>
      rw [← Option.some.inj hadd, List.map_nil, List.append_nil]
      exact ⟨rfl, rfl⟩
  | cons x xs ih =>
      rw [addSegments] at hadd
      split at hadd
      · exact nomatch hadd
      · rename_i v hstep
        obtain ⟨hout, hsegs⟩ := ih hadd
        obtain ⟨hout', hsegs'⟩ := addSegment_true hstep
        rw [hout, hsegs, hout', hsegs', List.append_assoc]
        exact ⟨rfl, rfl⟩

theorem addBuffers_some {realloc : Nat → Bool} {w w' : Writer σ}
    {xs : List (Phdr × List UInt8)} (hadd : addBuffers realloc w xs = some w') :
    w'.out = w.out ∧ w'.segments = w.segments ++ xs.map (fun x => ⟨x.1, .buffer x.2⟩) := by
  rw [addBuffers_eq] at hadd
  obtain ⟨hout, hsegs⟩ := addSegments_some hadd
  rw [List.map_map] at hsegs
  exact ⟨hout, hsegs⟩

/-! ## Writing -/

/-- The header that `ticos_core_elf_writer_write` makes. -/
def elfHeader (eMachine eFlags numSegments : Nat) : Ehdr where
  ident := elfMag ++ [elfClass64, elfData2Lsb, 1] ++ List.replicate 9 0
  type := etCore
  machine := eMachine
  version := evCurrent
  entry := 0
  phoff := if numSegments > 0 then ehdrSize else 0
  shoff := 0
  flags := eFlags
  ehsize := ehdrSize
  phentsize := if numSegments > 0 then phdrSize else 0
  phnum := numSegments % 2 ^ 16
  shentsize := 0
  shnum := 0
  shstrndx := 0

/-- The segment table: the segments get their offsets. -/
def writeTable : List (Segment σ) → Nat → Output → Bool × List (Segment σ) × Output
  | [], _, out => (true, [], out)
  | s :: rest, offset, out =>
      let padSize := prvCalcPadding offset s.header
      let header := { s.header with offset := (offset + padSize) % 2 ^ 64 }
      let t := prvWriteAll out header.encode
      if t.1 = false then (false, { s with header := header } :: rest, t.2)
      else
        let r := writeTable rest ((offset + (header.filesz + padSize)) % 2 ^ 64) t.2
        (r.1, { s with header := header } :: r.2.1, r.2.2)

/-- The data of one segment. -/
def SegmentData.write (state : σ) (out : Output) (header : Phdr) :
    SegmentData σ → Bool × σ × Output
  | .buffer data =>
      let t := prvWriteAll out (data.take header.filesz)
      (t.1, state, t.2)
  | .callback fn => fn state out header

/-- The data blocks, each at its planned place. -/
def writeData : List (Segment σ) → σ → Output → Bool × σ × Output
  | [], state, out => (true, state, out)
  | s :: rest, state, out =>
      let padSize := (2 ^ 64 + s.header.offset - out.writeOffset) % 2 ^ 64
      let pad := prvWritePadding out padSize
      if pad.1 = false then (false, state, pad.2)
      else
        let t := s.data.write state pad.2 s.header
        if t.1 = false then t
        else if t.2.2.writeOffset ≠ (s.header.offset + s.header.filesz) % 2 ^ 64 then
          (false, t.2)
        else writeData rest t.2.1 t.2.2

/-- `ticos_core_elf_writer_write`. -/
def ticosCoreElfWriterWrite (w : Writer σ) (state : σ) : Bool × σ × Output :=
  let numSegments := w.segments.length
  let head := prvWriteAll w.out (elfHeader w.eMachine w.eFlags numSegments).encode
  if head.1 = false then (false, state, head.2)
  else
    let offset := (head.2.writeOffset + phdrSize * numSegments) % 2 ^ 64
    let table := writeTable w.segments offset head.2
    if table.1 = false then (false, state, table.2.2)
    else
      let t := writeData table.2.1 state table.2.2
      if t.1 = false then t else (t.2.2.io.sync, t.2)

/-! ## The layout, as numbers -/

/-- What is missing to the next multiple. -/
def paddingTo (align offset : Nat) : Nat :=
  if align ≤ 1 then 0 else (align - offset % align) % align

/-- The segment at its place behind `offset`. -/
def place (offset : Nat) (p : Phdr) : Phdr :=
  { p with offset := offset + paddingTo p.align offset }

/-- The segments, one behind the other. -/
def placed : Nat → List Phdr → List Phdr
  | _, [] => []
  | offset, p :: ps =>
      place offset p :: placed (offset + paddingTo p.align offset + p.filesz) ps

/-- Where the last one ends. -/
def layoutEnd : Nat → List Phdr → Nat
  | offset, [] => offset
  | offset, p :: ps => layoutEnd (offset + paddingTo p.align offset + p.filesz) ps

/-- The bytes behind the table. -/
def dataBlocks : Nat → List (Phdr × List UInt8) → List UInt8
  | _, [] => []
  | offset, (p, data) :: rest =>
      List.replicate (paddingTo p.align offset) 0 ++ (data ++
        dataBlocks (offset + paddingTo p.align offset + p.filesz) rest)

/-- No alignment, or a power of two. -/
def Aligns (p : Phdr) : Prop := p.align ≤ 1 ∨ ∃ k, p.align = 2 ^ k

theorem le_layoutEnd (offset : Nat) (ps : List Phdr) : offset ≤ layoutEnd offset ps := by
  induction ps generalizing offset with
  | nil => exact Nat.le_refl _
  | cons p ps ih =>
      have := ih (offset + paddingTo p.align offset + p.filesz)
      rw [layoutEnd]
      omega

theorem placed_length (offset : Nat) (ps : List Phdr) :
    (placed offset ps).length = ps.length := by
  induction ps generalizing offset with
  | nil => rfl
  | cons p ps ih => rw [placed, List.length_cons, ih, List.length_cons]

/-- The planned offsets fit their fields. -/
theorem placed_ok {offset : Nat} {ps : List Phdr} (hok : ∀ p ∈ ps, p.Ok)
    (hend : layoutEnd offset ps < 2 ^ 63) : ∀ q ∈ placed offset ps, q.Ok := by
  induction ps generalizing offset with
  | nil => exact fun q hq => nomatch hq
  | cons p ps ih =>
      have hend' : layoutEnd (offset + paddingTo p.align offset + p.filesz) ps < 2 ^ 63 := hend
      have hle := le_layoutEnd (offset + paddingTo p.align offset + p.filesz) ps
      intro q hq
      rcases List.mem_cons.mp hq with rfl | hq
      · exact (hok p List.mem_cons_self).setOffset (by omega)
      · exact ih (fun r hr => hok r (List.mem_cons_of_mem p hr)) hend' q hq

/-- Only `p_offset` is filled in. -/
theorem placed_headers (offset : Nat) (ps : List Phdr) :
    List.Forall₂ (fun q p => ∃ at_, q = { p with offset := at_ }) (placed offset ps) ps := by
  induction ps generalizing offset with
  | nil => exact List.Forall₂.nil
  | cons p ps ih => exact List.Forall₂.cons ⟨_, rfl⟩ (ih _)

/-- The mask of an alignment clears the low bits. -/
theorem and_mask {y k : Nat} (hy : y < 2 ^ 64) (hk : k < 64) :
    y &&& (2 ^ 64 - 1 - (2 ^ k - 1)) = y / 2 ^ k * 2 ^ k := by
  have hpow : 2 ^ 64 = 2 ^ (64 - k) * 2 ^ k := by
    rw [← Nat.pow_add, Nat.sub_add_cancel (Nat.le_of_lt hk)]
  have hmask : 2 ^ 64 - 1 - (2 ^ k - 1) = (2 ^ (64 - k) - 1) * 2 ^ k := by
    have hpos := Nat.two_pow_pos k
    rw [Nat.sub_mul, ← hpow]
    omega
  rw [hmask]
  refine Nat.eq_of_testBit_eq ?_
  intro j
  rw [Nat.testBit_and, Nat.testBit_mul_two_pow, Nat.testBit_mul_two_pow,
    Nat.testBit_two_pow_sub_one, Nat.testBit_div_two_pow]
  by_cases hj : k ≤ j
  · rw [Nat.sub_add_cancel hj]
    by_cases hlt : j < 64
    · simp only [hj, decide_true, Bool.true_and, show j - k < 64 - k from by omega,
        Bool.and_true]
    · have hno : y.testBit j = false :=
        Nat.testBit_lt_two_pow (Nat.lt_of_lt_of_le hy (Nat.pow_le_pow_right (by omega) (by omega)))
      rw [hno, Bool.false_and, Bool.and_false]
  · simp only [hj, decide_false, Bool.false_and, Bool.and_false]

/-- The next multiple. -/
theorem next_multiple (x : Nat) {a : Nat} (ha : 0 < a) :
    (x + (a - 1)) / a * a = x + (a - x % a) % a := by
  have hmod := Nat.mod_lt x ha
  obtain ⟨q, r, hr, rfl⟩ : ∃ q r, r < a ∧ x = q * a + r :=
    ⟨x / a, x % a, hmod, (Nat.div_add_mod' x a).symm⟩
  rw [Nat.mul_add_mod', Nat.mod_eq_of_lt hr]
  rcases Nat.eq_zero_or_pos r with rfl | hpos
  · rw [Nat.sub_zero, Nat.mod_self, Nat.add_zero,
      Nat.div_eq_of_lt_le (k := q) (by omega) (by rw [Nat.succ_mul]; omega)]
  · rw [Nat.mod_eq_of_lt (by omega : a - r < a),
      Nat.div_eq_of_lt_le (k := q + 1) (by rw [Nat.succ_mul]; omega)
        (by rw [Nat.succ_mul, Nat.succ_mul]; omega), Nat.succ_mul]
    omega

/-- **The padding of the code is the one of the layout.** -/
theorem prvCalcPadding_eq {p : Phdr} (hok : p.Ok) (ha : Aligns p) {offset : Nat}
    (hoff : offset < 2 ^ 63) : prvCalcPadding offset p = paddingTo p.align offset := by
  rw [prvCalcPadding, paddingTo]
  by_cases hle : p.align ≤ 1
  · rw [if_pos hle, if_pos hle]
  · obtain ⟨k, hpow⟩ := ha.resolve_left hle
    have hk : k < 64 := by
      have hfits : p.align < 2 ^ 64 := hok.align_lt
      rw [hpow] at hfits
      exact (Nat.pow_lt_pow_iff_right (by omega)).mp hfits
    have hbound : 2 ^ k ≤ 2 ^ 63 := Nat.pow_le_pow_right (by omega) (by omega)
    have hpos : 0 < 2 ^ k := Nat.two_pow_pos k
    have hlt := Nat.mod_lt (2 ^ k - offset % 2 ^ k) hpos
    have hsum : offset + (2 ^ k - 1) < 2 ^ 64 := by omega
    rw [hpow] at hle
    rw [hpow, if_neg hle, if_neg hle, ticosAlignUp, Nat.mod_eq_of_lt hsum, and_mask hsum hk,
      next_multiple offset hpos]
    omega

/-! ## What is written -/

/-- The offset counts the bytes. -/
def Output.Sound (out : Output) : Prop := out.writeOffset = out.io.written.length

/-- The output with more bytes. -/
structure Grown (out out' : Output) (data : List UInt8) : Prop where
  sound : out'.Sound
  written : out'.io.written = out.io.written ++ data
  sync : out'.io.sync = out.io.sync

theorem Grown.refl {out : Output} (h : out.Sound) : Grown out out [] :=
  ⟨h, (List.append_nil _).symm, rfl⟩

theorem Grown.trans {out out' out'' : Output} {a b : List UInt8} (h : Grown out out' a)
    (h' : Grown out' out'' b) : Grown out out'' (a ++ b) :=
  ⟨h'.sound, by rw [h'.written, h.written, List.append_assoc], h'.sync.trans h.sync⟩

theorem Grown.offset {out out' : Output} {data : List UInt8} (hs : out.Sound)
    (h : Grown out out' data) : out'.writeOffset = out.writeOffset + data.length := by
  rw [h.sound, h.written, List.length_append, hs]

/-- What a loop that ends well has written. -/
theorem writeAllLoop_true {schedule : List Choice} {written data : List UInt8}
    (h : (writeAllLoop schedule written data).1 = true) :
    (writeAllLoop schedule written data).2.1 = written ++ data := by
  induction schedule generalizing written data with
  | nil => rfl
  | cons c rest ih =>
      by_cases hnil : data = []
      · subst hnil
        cases c <;> simp only [writeAllLoop, if_true, List.append_nil]
      · cases c with
        | accept n =>
            simp only [writeAllLoop, if_neg hnil] at h ⊢
            rw [ih h, List.append_assoc, List.take_append_drop]
        | eintr =>
            simp only [writeAllLoop, if_neg hnil] at h ⊢
            exact ih h
        | failure =>
            simp only [writeAllLoop, if_neg hnil] at h
            exact nomatch h

variable {out : Output} {data : List UInt8}

theorem prvWriteAll_true (hs : out.Sound)
    (hbound : out.writeOffset + data.length < 2 ^ 64)
    (h : (prvWriteAll out data).1 = true) : Grown out (prvWriteAll out data).2 data := by
  rw [prvWriteAll] at h ⊢
  by_cases hfail : (prvIoWriteAll out.io data).1 = false
  · rw [if_pos hfail] at h
    exact nomatch h
  · rw [if_neg hfail]
    have hwritten : (prvIoWriteAll out.io data).2.written = out.io.written ++ data :=
      writeAllLoop_true (by simpa [prvIoWriteAll] using hfail)
    refine ⟨?_, hwritten, rfl⟩
    show (out.writeOffset + data.length) % 2 ^ 64 = (prvIoWriteAll out.io data).2.written.length
    rw [hwritten, List.length_append, Nat.mod_eq_of_lt hbound, hs]

theorem paddingLoop_true {fuel padSize : Nat} (hfuel : padSize ≤ fuel) (hs : out.Sound)
    (hbound : out.writeOffset + padSize < 2 ^ 64)
    (h : (paddingLoop fuel out padSize).1 = true) :
    Grown out (paddingLoop fuel out padSize).2 (List.replicate padSize 0) := by
  induction fuel generalizing out padSize with
  | zero =>
      obtain rfl : padSize = 0 := by omega
      exact Grown.refl hs
  | succ fuel ih =>
      rw [paddingLoop] at h ⊢
      by_cases hzero : padSize = 0
      · rw [if_pos hzero, hzero]
        exact Grown.refl hs
      · rw [if_neg hzero] at h ⊢
        dsimp only at h ⊢
        by_cases hfail :
            (prvWriteAll out (List.replicate (min paddingWriteSize padSize) 0)).1 = false
        · rw [if_pos hfail] at h
          exact nomatch h
        · rw [if_neg hfail] at h ⊢
          have hpos : 0 < paddingWriteSize := by decide
          have hlen : (List.replicate (min paddingWriteSize padSize) (0 : UInt8)).length
              = min paddingWriteSize padSize := List.length_replicate
          have hfirst := prvWriteAll_true hs (by rw [hlen]; omega) (by simpa using hfail)
          have hoff := hfirst.offset hs
          rw [hlen] at hoff
          have hrest := ih (by omega) hfirst.sound (by omega) h
          have hsplit : List.replicate padSize (0 : UInt8)
              = List.replicate (min paddingWriteSize padSize) 0
                ++ List.replicate (padSize - min paddingWriteSize padSize) 0 := by
            rw [← List.replicate_add]
            congr 1
            omega
          rw [hsplit]
          exact hfirst.trans hrest

/-- The segments as the table has left them. -/
def withOffsets (segments : List (Segment σ)) (headers : List Phdr) : List (Segment σ) :=
  List.zipWith (fun s q => { s with header := q }) segments headers

/-- The table: each segment has got its offset, and the headers have been
    written. -/
theorem writeTable_true {segments : List (Segment σ)} {offset : Nat}
    (hok : ∀ s ∈ segments, s.header.Ok ∧ Aligns s.header)
    (hend : layoutEnd offset (segments.map Segment.header) < 2 ^ 63)
    (hs : out.Sound) (hbound : out.writeOffset + segments.length * phdrSize < 2 ^ 64)
    (h : (writeTable segments offset out).1 = true) :
    (writeTable segments offset out).2.1
      = withOffsets segments (placed offset (segments.map Segment.header)) ∧
    Grown out (writeTable segments offset out).2.2
      ((placed offset (segments.map Segment.header)).flatMap Phdr.encode) := by
  induction segments generalizing offset out with
  | nil => exact ⟨rfl, Grown.refl hs⟩
  | cons s rest ih =>
      obtain ⟨hsok, halign⟩ := hok s List.mem_cons_self
      have hend' : layoutEnd (offset + paddingTo s.header.align offset + s.header.filesz)
          (rest.map Segment.header) < 2 ^ 63 := hend
      have hle := le_layoutEnd (offset + paddingTo s.header.align offset + s.header.filesz)
        (rest.map Segment.header)
      -- below `2 ^ 63` no sum of the table wraps, so it is the layout over ℕ
      have hpad := prvCalcPadding_eq hsok halign (show offset < 2 ^ 63 by omega)
      have hplace : ({ s.header with
          offset := (offset + prvCalcPadding offset s.header) % 2 ^ 64 } : Phdr)
          = place offset s.header := by
        rw [hpad, Nat.mod_eq_of_lt (by omega)]
        rfl
      have hnext : (offset + (s.header.filesz + prvCalcPadding offset s.header)) % 2 ^ 64
          = offset + paddingTo s.header.align offset + s.header.filesz := by
        rw [hpad, Nat.mod_eq_of_lt (by omega)]
        omega
      have hlen : (place offset s.header).encode.length = phdrSize :=
        Phdr.encode_length (hsok.setOffset (by omega))
      rw [writeTable] at h ⊢
      dsimp only at h ⊢
      rw [hplace, hnext] at h ⊢
      rw [List.length_cons, Nat.succ_mul] at hbound
      by_cases hfail : (prvWriteAll out (place offset s.header).encode).1 = false
      · rw [if_pos hfail] at h
        exact nomatch h
      · rw [if_neg hfail] at h ⊢
        have hfirst := prvWriteAll_true hs (by rw [hlen]; omega) (by simpa using hfail)
        have hoff := hfirst.offset hs
        rw [hlen] at hoff
        obtain ⟨hsegs, hgrown⟩ := ih (fun t ht => hok t (List.mem_cons_of_mem s ht)) hend'
          hfirst.sound (by omega) h
        refine ⟨?_, ?_⟩
        · rw [hsegs]
          rfl
        · rw [List.map_cons, placed, List.flatMap_cons]
          exact hfirst.trans hgrown

/-- What writing the data of the segment writes, if it succeeds and `I` holds of the
    state; `I` is kept. -/
def Writes (I : σ → Prop) (s : Segment σ) (data : List UInt8) : Prop :=
  ∀ state out offset, I state → out.Sound → out.writeOffset + data.length < 2 ^ 64 →
    (s.data.write state out { s.header with offset := offset }).1 = true →
    Grown out (s.data.write state out { s.header with offset := offset }).2.2 data ∧
      I (s.data.write state out { s.header with offset := offset }).2.1

/-- The segment with its header and its data. -/
structure Describes (I : σ → Prop) (s : Segment σ) (x : Phdr × List UInt8) : Prop where
  header : s.header = x.1
  writes : Writes I s x.2
  length : x.2.length = x.1.filesz

/-- A buffer is written as it is. -/
theorem describes_buffer (I : σ → Prop) {p : Phdr} {data : List UInt8}
    (h : data.length = p.filesz) : Describes I ⟨p, .buffer data⟩ (p, data) := by
  refine ⟨rfl, ?_, h⟩
  intro state out offset hI hs hbound hok
  have htake : data.take p.filesz = data := List.take_of_length_le (Nat.le_of_eq h)
  simp only [SegmentData.write, htake] at hok ⊢
  exact ⟨prvWriteAll_true hs hbound hok, hI⟩

variable {I : σ → Prop}

/-- The padding and the data of one segment, if both are written. -/
theorem block_true {s : Segment σ} {x : Phdr × List UInt8} {state : σ} (hx : Describes I s x)
    (hI : I state) (hs : out.Sound) (hend : out.writeOffset + paddingTo x.1.align out.writeOffset
      + x.1.filesz < 2 ^ 63)
    (hpad : (prvWritePadding out (paddingTo x.1.align out.writeOffset)).1 = true)
    (hdata : (s.data.write state (prvWritePadding out (paddingTo x.1.align out.writeOffset)).2
      (place out.writeOffset x.1)).1 = true) :
    Grown out (s.data.write state (prvWritePadding out
      (paddingTo x.1.align out.writeOffset)).2 (place out.writeOffset x.1)).2.2
      (List.replicate (paddingTo x.1.align out.writeOffset) 0 ++ x.2) ∧
    I (s.data.write state (prvWritePadding out
      (paddingTo x.1.align out.writeOffset)).2 (place out.writeOffset x.1)).2.1 := by
  have hlen := hx.length
  have hzeros := paddingLoop_true (Nat.le_refl (paddingTo x.1.align out.writeOffset)) hs
    (by omega) hpad
  have hoff := hzeros.offset hs
  rw [List.length_replicate] at hoff
  have hwrites := hx.writes state _ (out.writeOffset + paddingTo x.1.align out.writeOffset)
    hI hzeros.sound (by
      show (paddingLoop _ out _).2.writeOffset + _ < _
      omega)
  rw [hx.header] at hwrites
  obtain ⟨hgrown, hI'⟩ := hwrites hdata
  exact ⟨hzeros.trans hgrown, hI'⟩

/-- The padding that the writer computes from the planned offset. -/
theorem padSize_eq {p : Phdr} {offset : Nat}
    (hend : offset + paddingTo p.align offset < 2 ^ 63) :
    (2 ^ 64 + (place offset p).offset - offset) % 2 ^ 64 = paddingTo p.align offset := by
  rw [show (place offset p).offset = offset + paddingTo p.align offset from rfl]
  omega

/-- The data blocks: the data of each segment at its planned place. -/
theorem writeData_true {segments : List (Segment σ)} {xs : List (Phdr × List UInt8)}
    {state : σ} (hx : List.Forall₂ (Describes I) segments xs) (hI : I state) (hs : out.Sound)
    (hend : layoutEnd out.writeOffset (xs.map Prod.fst) < 2 ^ 63)
    (h : (writeData (withOffsets segments (placed out.writeOffset (xs.map Prod.fst)))
      state out).1 = true) :
    Grown out (writeData (withOffsets segments (placed out.writeOffset (xs.map Prod.fst)))
      state out).2.2 (dataBlocks out.writeOffset xs) := by
  induction hx generalizing out state with
  | nil => exact Grown.refl hs
  | @cons s x segments xs hsx _ ih =>
      have hend' : layoutEnd (out.writeOffset + paddingTo x.1.align out.writeOffset + x.1.filesz)
          (xs.map Prod.fst) < 2 ^ 63 := hend
      have hle := le_layoutEnd
        (out.writeOffset + paddingTo x.1.align out.writeOffset + x.1.filesz) (xs.map Prod.fst)
      simp only [withOffsets, List.map_cons, placed, List.zipWith_cons_cons, writeData,
        padSize_eq (show out.writeOffset + paddingTo x.1.align out.writeOffset < 2 ^ 63 by omega)]
        at h ⊢
      split at h
      · exact nomatch h
      rename_i hpad
      rw [if_neg hpad]
      split at h
      · rename_i hdata
        rw [hdata] at h
        exact nomatch h
      rename_i hdata
      rw [if_neg hdata]
      split at h
      · exact nomatch h
      rename_i hplanned
      rw [if_neg hplanned]
      obtain ⟨hblock, hI'⟩ := block_true hsx hI hs (by omega)
        (Bool.eq_true_of_not_eq_false hpad) (Bool.eq_true_of_not_eq_false hdata)
      have hoff := hblock.offset hs
      rw [List.length_append, List.length_replicate, hsx.length, ← Nat.add_assoc] at hoff
      rw [← hoff] at h hend' ⊢
      have hrest := ih hI' hblock.sound hend' h
      rw [dataBlocks, ← List.append_assoc, ← hoff]
      exact hblock.trans hrest

/-- The headers that the segments have before they get their offsets. -/
theorem map_header {segments : List (Segment σ)} {xs : List (Phdr × List UInt8)}
    (h : List.Forall₂ (Describes I) segments xs) :
    segments.map Segment.header = xs.map Prod.fst := by
  induction h with
  | nil => rfl
  | cons hx _ ih => rw [List.map_cons, List.map_cons, hx.header, ih]

theorem headers_ok {segments : List (Segment σ)} {xs : List (Phdr × List UInt8)}
    (h : List.Forall₂ (Describes I) segments xs) (hok : ∀ x ∈ xs, x.1.Ok ∧ Aligns x.1) :
    ∀ s ∈ segments, s.header.Ok ∧ Aligns s.header := by
  intro s hs
  have hmem : s.header ∈ xs.map Prod.fst := by
    rw [← map_header h]
    exact List.mem_map_of_mem hs
  obtain ⟨x, hx, heq⟩ := List.mem_map.mp hmem
  rw [← heq]
  exact hok x hx

/-- The whole table, written behind the header. -/
theorem table_true {segments : List (Segment σ)}
    (hok : ∀ s ∈ segments, s.header.Ok ∧ Aligns s.header)
    (hend : layoutEnd (ehdrSize + phdrSize * segments.length) (segments.map Segment.header)
      < 2 ^ 63)
    (hs : out.Sound) (hoff : out.writeOffset = ehdrSize)
    (h : (writeTable segments (ehdrSize + phdrSize * segments.length) out).1 = true) :
    (writeTable segments (ehdrSize + phdrSize * segments.length) out).2.1
      = withOffsets segments (placed (ehdrSize + phdrSize * segments.length)
        (segments.map Segment.header)) ∧
    Grown out (writeTable segments (ehdrSize + phdrSize * segments.length) out).2.2
      ((placed (ehdrSize + phdrSize * segments.length)
        (segments.map Segment.header)).flatMap Phdr.encode) ∧
    (writeTable segments (ehdrSize + phdrSize * segments.length) out).2.2.writeOffset
      = ehdrSize + phdrSize * segments.length := by
  have hle := le_layoutEnd (ehdrSize + phdrSize * segments.length) (segments.map Segment.header)
  have hbound : out.writeOffset + segments.length * phdrSize < 2 ^ 64 := by
    rw [hoff, Nat.mul_comm]
    omega
  obtain ⟨hsegs, hgrown⟩ := writeTable_true hok hend hs hbound h
  have hoks : ∀ p ∈ segments.map Segment.header, p.Ok := by
    intro p hp
    obtain ⟨s, hs, rfl⟩ := List.mem_map.mp hp
    exact (hok s hs).1
  refine ⟨hsegs, hgrown, ?_⟩
  rw [hgrown.offset hs, encodeTable_length (placed_ok hoks hend), placed_length, List.length_map,
    hoff, Nat.mul_comm]

/-- The header fits its fields. -/
theorem elfHeader_ok {eMachine eFlags : Nat} (hm : eMachine < 2 ^ 16) (hf : eFlags < 2 ^ 32)
    (numSegments : Nat) : (elfHeader eMachine eFlags numSegments).Ok := by
  have hn : numSegments % 2 ^ 16 < 2 ^ 16 := Nat.mod_lt _ (by decide)
  have hident : (elfMag ++ [elfClass64, elfData2Lsb, 1] ++ List.replicate 9 0).length = 16 := by
    decide
  refine ⟨hident, ?_⟩
  show Fits [2, 2, 4, 8, 8, 8, 4, 2, 2, 2, 2, 2, 2]
    [etCore, eMachine, evCurrent, 0, if numSegments > 0 then ehdrSize else 0, 0, eFlags,
      ehdrSize, if numSegments > 0 then phdrSize else 0, numSegments % 2 ^ 16, 0, 0, 0]
  simp only [Fits, List.forall₂_cons, etCore, evCurrent, ehdrSize, phdrSize,
    List.forall₂_nil_left_iff]
  refine ⟨by decide, hm, by decide, by decide, ?_, by decide, hf, by decide, ?_, hn, by decide,
    by decide, by decide, trivial⟩
  · split <;> decide
  · split <;> decide

theorem elfHeader_phoff {eMachine eFlags numSegments : Nat} (h : numSegments > 0) :
    (elfHeader eMachine eFlags numSegments).phoff = ehdrSize := if_pos h

/-- The reader takes it for the header of a core. -/
theorem elfHeader_valid {eMachine eFlags numSegments : Nat} (h : numSegments > 0) :
    ticosCoreElfReaderIsValidCoreElf (elfHeader eMachine eFlags numSegments) = true := by
  have hsize : (elfHeader eMachine eFlags numSegments).phentsize = phdrSize := if_pos h
  have hident : (elfHeader eMachine eFlags numSegments).ident.take 4 = elfMag := rfl
  have hclass : (elfHeader eMachine eFlags numSegments).ident.getD 4 0 = elfClass64 := rfl
  simp only [ticosCoreElfReaderIsValidCoreElf, hsize, hident, hclass]
  rfl

/-! ## An IO object that does not fail -/

/-- No call fails but by an interrupt. -/
def NoFailure (schedule : List Choice) : Prop := Choice.failure ∉ schedule

theorem NoFailure.tail {c : Choice} {rest : List Choice} (h : NoFailure (c :: rest)) :
    NoFailure rest :=
  fun hc => h (List.mem_cons_of_mem c hc)

/-- What is asked for is written. -/
theorem writeAllLoop_succeeds {schedule : List Choice} (hno : NoFailure schedule)
    (written data : List UInt8) :
    (writeAllLoop schedule written data).1 = true ∧
      NoFailure (writeAllLoop schedule written data).2.2 := by
  induction schedule generalizing written data with
  | nil => exact ⟨rfl, hno⟩
  | cons c rest ih =>
      by_cases hnil : data = []
      · subst hnil
        cases c <;> exact ⟨rfl, hno⟩
      · cases c with
        | accept n =>
            simp only [writeAllLoop, if_neg hnil]
            exact ih hno.tail _ _
        | eintr =>
            simp only [writeAllLoop, if_neg hnil]
            exact ih hno.tail _ _
        | failure => exact absurd List.mem_cons_self hno

theorem prvWriteAll_succeeds (hno : NoFailure out.io.schedule) (data : List UInt8) :
    (prvWriteAll out data).1 = true ∧ NoFailure (prvWriteAll out data).2.io.schedule := by
  obtain ⟨hok, hrest⟩ := writeAllLoop_succeeds hno out.io.written data
  have hok' : (prvIoWriteAll out.io data).1 = true := hok
  rw [prvWriteAll, hok', if_neg (by simp)]
  exact ⟨rfl, hrest⟩

theorem paddingLoop_succeeds (hno : NoFailure out.io.schedule) (fuel padSize : Nat) :
    (paddingLoop fuel out padSize).1 = true ∧
      NoFailure (paddingLoop fuel out padSize).2.io.schedule := by
  induction fuel generalizing out padSize with
  | zero => exact ⟨rfl, hno⟩
  | succ fuel ih =>
      rw [paddingLoop]
      by_cases hzero : padSize = 0
      · rw [if_pos hzero]
        exact ⟨rfl, hno⟩
      · obtain ⟨hok, hrest⟩ :=
          prvWriteAll_succeeds hno (List.replicate (min paddingWriteSize padSize) 0)
        rw [if_neg hzero]
        dsimp only
        rw [hok, if_neg (by simp)]
        exact ih hrest _

theorem writeTable_succeeds (hno : NoFailure out.io.schedule) (segments : List (Segment σ))
    (offset : Nat) :
    (writeTable segments offset out).1 = true ∧
      NoFailure (writeTable segments offset out).2.2.io.schedule := by
  induction segments generalizing offset out with
  | nil => exact ⟨rfl, hno⟩
  | cons s rest ih =>
      rw [writeTable]
      dsimp only
      obtain ⟨hok, hrest⟩ := prvWriteAll_succeeds hno ({ s.header with
        offset := (offset + prvCalcPadding offset s.header) % 2 ^ 64 } : Phdr).encode
      rw [hok, if_neg (by simp)]
      exact ih hrest _

/-! ## The whole file -/

/-- Header and table: a writer that returns true has come to the data blocks with the two
    written, and the segments at their places. -/
theorem write_dataPhase (w : Writer σ) {state : σ} (hout : w.out.io.written = [])
    (hzero : w.out.writeOffset = 0) (hm : w.eMachine < 2 ^ 16) (hf : w.eFlags < 2 ^ 32)
    (hok : ∀ s ∈ w.segments, s.header.Ok ∧ Aligns s.header)
    (hend : layoutEnd (ehdrSize + phdrSize * w.segments.length) (w.segments.map Segment.header)
      < 2 ^ 63)
    (h : (ticosCoreElfWriterWrite w state).1 = true) :
    ∃ out, out.Sound ∧ out.writeOffset = ehdrSize + phdrSize * w.segments.length ∧
      out.io.written = (elfHeader w.eMachine w.eFlags w.segments.length).encode
        ++ (placed (ehdrSize + phdrSize * w.segments.length)
          (w.segments.map Segment.header)).flatMap Phdr.encode ∧
      (writeData (withOffsets w.segments (placed out.writeOffset
        (w.segments.map Segment.header))) state out).1 = true ∧
      (ticosCoreElfWriterWrite w state).2 = (writeData (withOffsets w.segments
        (placed out.writeOffset (w.segments.map Segment.header))) state out).2 ∧
      (NoFailure w.out.io.schedule → NoFailure out.io.schedule) := by
  have hs : w.out.Sound := by
    rw [Output.Sound, hzero, hout]
    rfl
  have hheader := Ehdr.encode_length (elfHeader_ok hm hf w.segments.length)
  have hle := le_layoutEnd (ehdrSize + phdrSize * w.segments.length)
    (w.segments.map Segment.header)
  rw [ticosCoreElfWriterWrite] at h ⊢
  dsimp only at h ⊢
  by_cases hfail : (prvWriteAll w.out
      (elfHeader w.eMachine w.eFlags w.segments.length).encode).1 = false
  · rw [if_pos hfail] at h
    exact nomatch h
  rw [if_neg hfail] at h ⊢
  have hhead := prvWriteAll_true hs (by rw [hheader, hzero]; decide)
    (Bool.eq_true_of_not_eq_false hfail)
  have hno := fun (hclean : NoFailure w.out.io.schedule) => (prvWriteAll_succeeds hclean
    (elfHeader w.eMachine w.eFlags w.segments.length).encode).2
  generalize (prvWriteAll w.out
    (elfHeader w.eMachine w.eFlags w.segments.length).encode).2 = out at h hhead hno ⊢
  have hoff := hhead.offset hs
  rw [hzero, hheader, Nat.zero_add] at hoff
  -- the C code reads the place of the data off the output; it is the end of the table
  rw [hoff, Nat.mod_eq_of_lt
    (show ehdrSize + phdrSize * w.segments.length < 2 ^ 64 by omega)] at h ⊢
  split at h
  · exact nomatch h
  rename_i htable
  rw [if_neg htable]
  obtain ⟨htsegs, htgrown, htoff⟩ := table_true hok hend hhead.sound hoff
    (Bool.eq_true_of_not_eq_false htable)
  have hno' := fun (hclean : NoFailure out.io.schedule) => (writeTable_succeeds hclean w.segments
    (ehdrSize + phdrSize * w.segments.length)).2
  generalize (writeTable w.segments (ehdrSize + phdrSize * w.segments.length) out).2.2 = out'
    at h htgrown htoff hno' ⊢
  -- from here on the segments carry the offsets of the table
  have hplaced : (writeTable w.segments (ehdrSize + phdrSize * w.segments.length) out).2.1
      = withOffsets w.segments (placed out'.writeOffset (w.segments.map Segment.header)) := by
    rw [htsegs, htoff]
  rw [hplaced] at h ⊢
  split at h
  · rename_i hdata
    rw [hdata] at h
    exact nomatch h
  rename_i hdata
  rw [if_neg hdata]
  refine ⟨out', htgrown.sound, htoff, ?_, Bool.eq_true_of_not_eq_false hdata, rfl,
    fun hclean => hno' (hno hclean)⟩
  rw [htgrown.written, hhead.written, hout, List.nil_append]

/-- **What a writer writes**: the header, the table of the placed segments, and the
    data at its places. -/
theorem write_true (w : Writer σ) {state : σ} {xs : List (Phdr × List UInt8)}
    (hsegs : List.Forall₂ (Describes I) w.segments xs) (hI : I state) (hout : w.out.io.written = [])
    (hzero : w.out.writeOffset = 0) (hm : w.eMachine < 2 ^ 16) (hf : w.eFlags < 2 ^ 32)
    (hok : ∀ x ∈ xs, x.1.Ok ∧ Aligns x.1)
    (hend : layoutEnd (ehdrSize + phdrSize * xs.length) (xs.map Prod.fst) < 2 ^ 63)
    (h : (ticosCoreElfWriterWrite w state).1 = true) :
    (ticosCoreElfWriterWrite w state).2.2.io.written
      = (elfHeader w.eMachine w.eFlags xs.length).encode
        ++ (placed (ehdrSize + phdrSize * xs.length) (xs.map Prod.fst)).flatMap Phdr.encode
        ++ dataBlocks (ehdrSize + phdrSize * xs.length) xs := by
  have hn : w.segments.length = xs.length := hsegs.length_eq
  have hmap := map_header hsegs
  obtain ⟨out, hs, hoff, hwritten, hdata, hresult, -⟩ := write_dataPhase w hout hzero hm hf
    (headers_ok hsegs hok) (by rw [hn, hmap]; exact hend) h
  rw [hn] at hoff hwritten
  rw [hmap] at hwritten hdata hresult
  have hblocks := writeData_true hsegs hI hs (by rw [hoff]; exact hend) hdata
  rw [hresult, hblocks.written, hwritten, hoff]

/-- Writing the data of the segment succeeds. -/
def Succeeds (s : Segment σ) : Prop :=
  ∀ state out header, NoFailure out.io.schedule →
    (s.data.write state out header).1 = true ∧
      NoFailure (s.data.write state out header).2.2.io.schedule

theorem succeeds_buffer (p : Phdr) (data : List UInt8) :
    Succeeds (⟨p, .buffer data⟩ : Segment σ) := by
  intro state out header hno
  exact prvWriteAll_succeeds hno (data.take header.filesz)

theorem writeData_succeeds {segments : List (Segment σ)}
    {xs : List (Phdr × List UInt8)} {state : σ} (hx : List.Forall₂ (Describes I) segments xs)
    (hsucc : ∀ s ∈ segments, Succeeds s) (hI : I state) (hno : NoFailure out.io.schedule)
    (hs : out.Sound) (hend : layoutEnd out.writeOffset (xs.map Prod.fst) < 2 ^ 63) :
    (writeData (withOffsets segments (placed out.writeOffset (xs.map Prod.fst)))
      state out).1 = true := by
  induction hx generalizing out state with
  | nil => rfl
  | @cons s x segments xs hsx _ ih =>
      have hend' : layoutEnd (out.writeOffset + paddingTo x.1.align out.writeOffset + x.1.filesz)
          (xs.map Prod.fst) < 2 ^ 63 := hend
      have hle := le_layoutEnd
        (out.writeOffset + paddingTo x.1.align out.writeOffset + x.1.filesz) (xs.map Prod.fst)
      obtain ⟨hpad, hno'⟩ := paddingLoop_succeeds hno
        (paddingTo x.1.align out.writeOffset) (paddingTo x.1.align out.writeOffset)
      obtain ⟨hdata, hno''⟩ := hsucc s List.mem_cons_self state
        (prvWritePadding out (paddingTo x.1.align out.writeOffset)).2 (place out.writeOffset x.1)
        hno'
      obtain ⟨hblock, hI'⟩ := block_true hsx hI hs (by omega) hpad hdata
      have hoff := hblock.offset hs
      rw [List.length_append, List.length_replicate, hsx.length, ← Nat.add_assoc] at hoff
      have hplanned : ((place out.writeOffset x.1).offset + (place out.writeOffset x.1).filesz)
          % 2 ^ 64 = out.writeOffset + paddingTo x.1.align out.writeOffset + x.1.filesz :=
        Nat.mod_eq_of_lt (show out.writeOffset + paddingTo x.1.align out.writeOffset
          + x.1.filesz < 2 ^ 64 by omega)
      simp only [withOffsets, List.map_cons, placed, List.zipWith_cons_cons, writeData,
        padSize_eq (show out.writeOffset + paddingTo x.1.align out.writeOffset < 2 ^ 63 by omega)]
      rw [if_neg (by rw [show (prvWritePadding out _).1 = true from hpad]; simp),
        if_neg (by rw [hdata]; simp), if_neg (by rw [hplanned, hoff]; simp), ← hoff]
      rw [← hoff] at hend'
      exact ih (fun t ht => hsucc t (List.mem_cons_of_mem s ht)) hI' hno'' hblock.sound hend'

/-- **A writer whose IO object does not fail succeeds**, if the synchronisation
    does. -/
theorem write_succeeds (w : Writer σ) {state : σ}
    {xs : List (Phdr × List UInt8)} (hsegs : List.Forall₂ (Describes I) w.segments xs)
    (hsucc : ∀ s ∈ w.segments, Succeeds s) (hI : I state)
    (hno : NoFailure w.out.io.schedule) (hsync : w.out.io.sync = true)
    (hout : w.out.io.written = []) (hzero : w.out.writeOffset = 0) (hm : w.eMachine < 2 ^ 16)
    (hf : w.eFlags < 2 ^ 32) (hok : ∀ x ∈ xs, x.1.Ok ∧ Aligns x.1)
    (hend : layoutEnd (ehdrSize + phdrSize * xs.length) (xs.map Prod.fst) < 2 ^ 63) :
    (ticosCoreElfWriterWrite w state).1 = true := by
  have hn : w.segments.length = xs.length := hsegs.length_eq
  have hs : w.out.Sound := by
    rw [Output.Sound, hzero, hout]
    rfl
  have hheader := Ehdr.encode_length (elfHeader_ok hm hf xs.length)
  have hle := le_layoutEnd (ehdrSize + phdrSize * xs.length) (xs.map Prod.fst)
  obtain ⟨hhead, hno'⟩ :=
    prvWriteAll_succeeds hno (elfHeader w.eMachine w.eFlags xs.length).encode
  have hgrown := prvWriteAll_true hs (by rw [hheader, hzero]; decide) hhead
  rw [ticosCoreElfWriterWrite]
  dsimp only
  rw [hn, hhead, if_neg (by simp)]
  generalize (prvWriteAll w.out (elfHeader w.eMachine w.eFlags xs.length).encode).2 = out
    at hgrown hno' ⊢
  have hoff := hgrown.offset hs
  rw [hzero, hheader, Nat.zero_add] at hoff
  rw [hoff, Nat.mod_eq_of_lt (show ehdrSize + phdrSize * xs.length < 2 ^ 64 by omega)]
  obtain ⟨htable, hno''⟩ := writeTable_succeeds hno' w.segments (ehdrSize + phdrSize * xs.length)
  have hmap := map_header hsegs
  obtain ⟨htsegs, htgrown, htoff⟩ := table_true (headers_ok hsegs hok)
    (by rw [hn, hmap]; exact hend) hgrown.sound hoff (by rw [hn]; exact htable)
  rw [hn, hmap] at htsegs htgrown
  rw [hn] at htoff
  rw [htable, if_neg (by simp), htsegs]
  generalize (writeTable w.segments (ehdrSize + phdrSize * xs.length) out).2.2 = out'
    at hno'' htgrown htoff ⊢
  rw [← htoff] at hend ⊢
  have hdata := writeData_succeeds hsegs hsucc hI hno'' htgrown.sound hend
  have hblocks := writeData_true hsegs hI htgrown.sound hend hdata
  rw [hdata, if_neg (by simp)]
  dsimp only
  rw [hblocks.sync, htgrown.sync, hgrown.sync, hsync]

end CoreElfWriter
