import Ticosd.ReaderProtocol

/-! # Skipping on a descriptor — `prv_fio_read` behind `core_elf_reader.c`

    The reader skips bytes by reading into a NULL buffer.  The memory IO of the tests
    moves its cursor on; `read(2)` on a descriptor does not write to NULL and fails with
    `EFAULT`.  So on a descriptor nothing is ever skipped: segment data can be read only
    from where the stream is, and a table that does not follow the header at once is
    given up. -/

namespace DescriptorRead

open CoreElf Fuel ReaderProtocol
open CoreElfReader (Action)

/-! ## Two IO objects -/

/-- `EFAULT`. -/
def efault : Nat := 14

/-- `prv_fio_read`: `read(2)` with a NULL buffer fails, unless it is to read nothing. -/
def prvFioRead (kernel : Nat → Outcome) (i : Nat) (null : Bool) (size : Nat) : Outcome :=
  if null = true ∧ 0 < size then .fail efault else kernel i

/-- `prv_mio_read` of the tests, which looks at the buffer only to copy. -/
def prvMioRead (nextReadSize : Nat) (_ : Nat) (_ : Bool) (_ : Nat) : Outcome :=
  .deliver nextReadSize

/-- `ticos_core_elf_read_file_io_init`. -/
def onDescriptor (env : Environment) (kernel : Nat → Outcome) : Environment :=
  { env with read := prvFioRead kernel }

/-- `ticos_core_elf_read_memory_io_init`. -/
def onMemory (env : Environment) (nextReadSize : Nat) : Environment :=
  { env with read := prvMioRead nextReadSize }

/-- A descriptor that can be read: each call delivers something, or is interrupted, and
    this not for ever. -/
structure Readable (kernel : Nat → Outcome) : Prop where
  delivers : ∀ i, kernel i = .fail eintr ∨ ∃ n, 0 < n ∧ kernel i = .deliver n
  calms : ∃ N, ∀ i, N ≤ i → kernel i ≠ .fail eintr

variable {σ : Type} {stream : List UInt8} {r : Reader σ} {env : Environment} {h : Handler σ}
  {kernel : Nat → Outcome}

theorem Readable.environment_calms (hk : Readable kernel) (env : Environment) :
    (onDescriptor env kernel).Calms := by
  obtain ⟨N, hN⟩ := hk.calms
  refine ⟨N, fun i hi null size => ?_⟩
  show prvFioRead kernel i null size ≠ _
  rw [prvFioRead]
  split
  · exact fun heq => absurd (Outcome.fail.inj heq) (by decide)
  · exact hN i hi

theorem Readable.environment_delivers (hk : Readable kernel) (env : Environment) :
    (onDescriptor env kernel).Delivers false := by
  intro i size
  show prvFioRead kernel i false size = _ ∨ ∃ n, 0 < n ∧ prvFioRead kernel i false size = _
  rw [prvFioRead, if_neg (fun h => nomatch h.1)]
  exact hk.delivers i

theorem memory_calms (env : Environment) (nextReadSize : Nat) :
    (onMemory env nextReadSize).Calms :=
  ⟨0, fun _ _ _ _ => nofun⟩

theorem memory_delivers (env : Environment) {nextReadSize : Nat} (hpos : 0 < nextReadSize)
    (null : Bool) : (onMemory env nextReadSize).Delivers null :=
  fun _ _ => Or.inr ⟨nextReadSize, hpos, rfl⟩

/-! ## Segment data -/

/-- **Segment data is right** if the IO delivers, into NULL, too, or there is nothing to
    skip. -/
theorem readSegmentData_exact (hcalm : env.Calms) {null : Bool} (hdelivers : env.Delivers null)
    {atPos : Nat} (hskips : atPos = r.streamPos ∨ env.Delivers true) (size : Nat)
    (hr : Sound stream r) (haction : r.action = some .readSegmentHeaders)
    (hpos : r.streamPos ≤ atPos) :
    Finishes (ticosCoreElfReaderReadSegmentData env h atPos null size) r
      (fun data _ => data = (stream.drop atPos).take size) := by
  refine assertThat_spec (decide_eq_true haction) ?_
  refine Finishes.step ?_
  dsimp only
  rw [if_neg (Nat.not_lt.mpr hpos)]
  by_cases hskip : atPos - r.streamPos > 0
  · rw [if_pos hskip]
    have hinto := hskips.resolve_left (by omega)
    refine (prvReadAll_full hcalm true _ hr).bind ?_
    rintro skipped t ⟨hskipped, hexact⟩
    have hlen := congrArg List.length (hexact hinto)
    rw [List.length_take, List.length_drop] at hlen
    by_cases hshort : skipped.length < atPos - r.streamPos
    · -- the stream ends before
      rw [if_pos hshort]
      refine Finishes.pure ?_
      rw [List.drop_of_length_le (by omega), List.take_nil]
    · rw [if_neg hshort]
      have hat : t.streamPos = atPos := by
        rw [hskipped.pos]
        omega
      rw [← hat]
      exact (prvReadAll_full hcalm null size hskipped.later.sound).weaken
        fun _ _ hread => hread.2 hdelivers
  · rw [if_neg hskip]
    obtain rfl : atPos = r.streamPos := by omega
    exact (prvReadAll_full hcalm null size hr).weaken fun _ _ hread => hread.2 hdelivers

/-- A descriptor skips nothing. -/
theorem prvReadAll_null (hk : Readable kernel) {size : Nat} (hsize : 0 < size)
    (hr : Sound stream r) :
    Finishes (prvReadAll (onDescriptor env kernel) h true size) r
      (fun got r' => got = [] ∧ HasRead stream size r got r') := by
  have hnothing : Finishes (prvReadAll (onDescriptor env kernel) h true size) r
      (fun got _ => got = []) := by
    rw [prvReadAll, if_neg (Nat.ne_of_gt hsize)]
    refine Finishes.round ?_
    rw [readAllRound, if_neg (Nat.ne_of_gt hsize)]
    refine Finishes.step ?_
    have hfault : (onDescriptor env kernel).read r.calls true size = .fail efault :=
      if_pos ⟨rfl, hsize⟩
    dsimp only
    rw [hfault]
    dsimp only
    rw [if_neg (by decide)]
    exact Finishes.step (Finishes.pure rfl)
  exact hnothing.and (prvReadAll_spec (hk.environment_calms env) true size hr)

/-- Segment data behind the position of the stream is not found. -/
theorem readSegmentData_behind (hk : Readable kernel) {atPos : Nat} (null : Bool) (size : Nat)
    (hr : Sound stream r) (haction : r.action = some .readSegmentHeaders)
    (hpos : r.streamPos < atPos) :
    Finishes (ticosCoreElfReaderReadSegmentData (onDescriptor env kernel) h atPos null size) r
      (fun data _ => data = []) := by
  refine assertThat_spec (decide_eq_true haction) ?_
  refine Finishes.step ?_
  dsimp only
  have hskip : 0 < atPos - r.streamPos := Nat.sub_pos_of_lt hpos
  rw [if_neg (Nat.not_lt.mpr (Nat.le_of_lt hpos)), if_pos hskip]
  refine (prvReadAll_null hk hskip hr).bind ?_
  rintro _ t ⟨rfl, -⟩
  rw [List.length_nil, if_pos hskip]
  exact Finishes.pure rfl

/-! ## The segment table -/

/-- No table has been handed over. -/
def NoTable (log : List Event) : Prop := ∀ table, .segments table ∉ log

theorem NoTable.append {log es : List Event} (h : NoTable log) (hes : ∀ e ∈ es, e.IsRead) :
    NoTable (log ++ es) := by
  intro table hmem
  rcases List.mem_append.mp hmem with hmem | hmem
  · exact h table hmem
  · exact (hes _ hmem).elim

theorem NoTable.later {r' : Reader σ} (h : NoTable r.log)
    (hlater : Later stream Event.IsWarning r r') : NoTable r'.log := by
  obtain ⟨es, hlog, hes⟩ := hlater.events
  rw [hlog]
  exact h.append fun e he => (hes e he).isRead

/-- A warning, and on to another action. -/
theorem warn_setAction (msg : String) (a : Option Action) (hr : Sound stream r)
    (hno : NoTable r.log) :
    Finishes (handleWarning env h msg >>= fun _ => setAction a) r (fun _ r' =>
      Sound stream r' ∧ NoTable r'.log ∧ r'.action = a ∧ r'.elfHeader = r.elfHeader ∧
        r'.streamPos = r.streamPos) := by
  refine (handleWarning_spec env h msg hr).bind ?_
  rintro ⟨⟩ t ⟨hlater, hpos, -⟩
  have hno' := hno.later hlater
  exact Finishes.act ⟨hlater.sound.frame rfl,
    hno', rfl, hlater.elfHeader, hpos⟩

/-- One action of the loop. -/
theorem loop_action {a : Action} {Q : Unit → Reader σ → Prop} (haction : r.action = some a)
    (hperform : Finishes (perform env h a) r
      (fun _ r' => Finishes (Prog.loop (actionRound env h) ()) r' Q)) :
    Finishes (Prog.loop (actionRound env h) ()) r Q := by
  refine Finishes.round (Finishes.step ?_)
  dsimp only
  rw [haction]
  exact hperform.bind fun _ _ hrest => Finishes.pure hrest

theorem loop_end {Q : Unit → Reader σ → Prop} (haction : r.action = none) (hQ : Q () r) :
    Finishes (Prog.loop (actionRound env h) ()) r Q := by
  refine Finishes.round (Finishes.step ?_)
  dsimp only
  rw [haction]
  exact Finishes.pure hQ

/-- The header of the stream. -/
def headerOf (stream : List UInt8) : Ehdr := Ehdr.decode (stream.take ehdrSize)

/-- A header that is accepted, and does not have the table right behind it. -/
structure Gapped (stream : List UInt8) : Prop where
  whole : ehdrSize ≤ stream.length
  valid : ticosCoreElfReaderIsValidCoreElf (headerOf stream) = true
  beyond : ehdrSize < (headerOf stream).phoff

/-- The header is accepted, and there is something to skip. -/
theorem readElfHeader_gapped (hcalm : env.Calms) (hdelivers : env.Delivers false)
    (hgap : Gapped stream) (hr : Sound stream r) (hstart : r.streamPos = 0) (hlog : r.log = []) :
    Finishes (prvActionReadElfHeader env h) r (fun _ r' =>
      Sound stream r' ∧ NoTable r'.log ∧ r'.action = some .skipToSegmentHeaders ∧
        r'.streamPos < r'.elfHeader.phoff) := by
  refine (prvReadAll_full hcalm false ehdrSize hr).bind ?_
  rintro got t ⟨hgot, hexact⟩
  have hbytes : got = stream.take ehdrSize := by
    rw [hexact hdelivers, hstart, List.drop_zero]
  have hlen : got.length = ehdrSize := by
    rw [hbytes, List.length_take, Nat.min_eq_left hgap.whole]
  have hpos : t.streamPos = ehdrSize := by
    rw [hgot.pos, hstart, hlen, Nat.zero_add]
  have hne : ¬ (headerOf stream).phoff = t.streamPos := by
    rw [hpos]
    exact Nat.ne_of_gt hgap.beyond
  have hgt : (headerOf stream).phoff > t.streamPos := by
    rw [hpos]
    exact hgap.beyond
  have hno : NoTable t.log := by
    refine NoTable.later ?_ hgot.later
    rw [hlog]
    exact fun _ => nofun
  refine assertThat_spec (decide_eq_true hgot.size_le) ?_
  rw [hlen, if_neg (Nat.lt_irrefl ehdrSize), hbytes]
  refine Finishes.step ?_
  rw [show Ehdr.decode (stream.take ehdrSize) = headerOf stream from rfl, hgap.valid,
    if_neg (by decide)]
  refine Finishes.step (Finishes.step ?_)
  dsimp only
  rw [if_neg hne, if_pos hgt]
  let t' : Reader σ := { t with
    elfHeader := headerOf stream
    state := h.handleElfHeader t.state (headerOf stream)
    log := t.log ++ [.elfHeader (headerOf stream)] }
  have hsound' : Sound stream t' :=
    hgot.later.sound.frame rfl
  have hno' : NoTable t'.log := by
    intro table hmem
    exact hno table (mem_of_mem_snoc hmem nofun)
  refine (warn_setAction _ _ hsound' hno').weaken ?_
  rintro ⟨⟩ t'' ⟨hsound, hno'', haction, hheader, hpos'⟩
  refine ⟨hsound, hno'', haction, ?_⟩
  rw [hheader, hpos']
  exact hgt

/-- The gap is not skipped. -/
theorem skip_gives_up (hk : Readable kernel) (hr : Sound stream r) (hno : NoTable r.log)
    (hgap : r.streamPos < r.elfHeader.phoff) :
    Finishes (prvActionSkipToSegmentHeaders (onDescriptor env kernel) h) r (fun _ r' =>
      Sound stream r' ∧ NoTable r'.log ∧ r'.action = some .done) := by
  refine assertThat_spec (decide_eq_true (Nat.le_of_lt hgap)) ?_
  refine Finishes.step ?_
  dsimp only
  have hskip : 0 < r.elfHeader.phoff - r.streamPos := Nat.sub_pos_of_lt hgap
  refine (prvReadAll_null hk hskip hr).bind ?_
  rintro _ t ⟨rfl, hgot⟩
  rw [List.length_nil, if_pos hskip]
  refine (warn_setAction _ _ hgot.later.sound (hno.later hgot.later)).weaken ?_
  rintro ⟨⟩ t' ⟨hsound, hno', haction, -⟩
  exact ⟨hsound, hno', haction⟩

/-- **A table behind a gap is never handed over.** -/
theorem gapped_no_table (hk : Readable kernel) (env : Environment) (h : Handler σ)
    (hgap : Gapped stream) (state : σ) :
    Finishes (ticosCoreElfReaderReadAll (onDescriptor env kernel) h)
      (ticosCoreElfReaderInit stream state) (fun ok r => ok = true ∧ NoTable r.log) := by
  refine Finishes.step (Finishes.step ?_)
  have hloop : Finishes (Prog.loop (actionRound (onDescriptor env kernel) h) ())
      { ticosCoreElfReaderInit stream state with action := some .readElfHeader }
      (fun _ r => NoTable r.log) := by
    refine loop_action rfl ?_
    refine (readElfHeader_gapped (hk.environment_calms env) (hk.environment_delivers env) hgap
      ⟨rfl, Nat.zero_le _, rfl⟩ rfl rfl).weaken ?_
    rintro ⟨⟩ t ⟨hsound, hno, haction, hpos⟩
    refine loop_action haction ?_
    refine (skip_gives_up hk hsound hno hpos).weaken ?_
    rintro ⟨⟩ t' ⟨-, hno', haction'⟩
    refine loop_action haction' (Finishes.act (loop_end rfl ?_))
    intro table hmem
    exact hno' table (mem_of_mem_snoc hmem nofun)
  exact hloop.bind fun _ _ hno => Finishes.pure ⟨rfl, hno⟩

/-! ## When skipping works -/

/-- `ticos_core_elf_reader_read_segment_data` copies what the stream has at the place. -/
def ReadsAt (env : Environment) (h : Handler σ) (stream : List UInt8) (r : Reader σ)
    (atPos size : Nat) : Prop :=
  ∃ n data r', (ticosCoreElfReaderReadSegmentData env h atPos false size).run n r = (some data, r') ∧
    data = (stream.drop atPos).take size

/-- The stream has the whole table. -/
def HasTable (stream : List UInt8) : Prop :=
  (headerOf stream).phoff + (headerOf stream).phnum * phdrSize ≤ stream.length

instance (stream : List UInt8) : Decidable (HasTable stream) := inferInstanceAs (Decidable (_ ≤ _))

/-- The handler is given the table of the stream. -/
def GetsTable (env : Environment) (h : Handler σ) (stream : List UInt8) (state : σ) : Prop :=
  ∃ n r, (ticosCoreElfReaderReadAll env h).run n (ticosCoreElfReaderInit stream state)
      = (some true, r) ∧
    .segments (decodeTable (headerOf stream).phnum (stream.drop (headerOf stream).phoff)) ∈ r.log

theorem gapped_not_gets (hk : Readable kernel) (env : Environment) (h : Handler σ)
    (hgap : Gapped stream) (state : σ) :
    ¬ GetsTable (onDescriptor env kernel) h stream state := by
  rintro ⟨n, r, hn, htable⟩
  obtain ⟨m, ok, r', hm, -, hno⟩ := finishes_iff.mp (gapped_no_table hk env h hgap state)
  obtain ⟨-, rfl⟩ := Prog.run_unique hn hm
  exact hno _ htable

/-- Behind the reader's position there is nothing to be read, unless there is nothing. -/
theorem behind_reads_iff (hk : Readable kernel) (env : Environment) (h : Handler σ) {atPos : Nat}
    (size : Nat) (hr : Sound stream r) (haction : r.action = some .readSegmentHeaders)
    (hpos : r.streamPos < atPos) :
    ReadsAt (onDescriptor env kernel) h stream r atPos size ↔
      size = 0 ∨ stream.length ≤ atPos := by
  have hnothing : Finishes
      (ticosCoreElfReaderReadSegmentData (onDescriptor env kernel) h atPos false size) r
      (fun data _ => data = []) :=
    readSegmentData_behind hk false size hr haction hpos
  rw [ReadsAt, hnothing.result_iff (fun data => data = (stream.drop atPos).take size)]
  constructor
  · intro heq
    exact (List.take_eq_nil_iff.mp heq.symm).imp id List.drop_eq_nil_iff.mp
  · rintro (rfl | hend)
    · rw [List.take_zero]
    · rw [List.drop_of_length_le hend, List.take_nil]

/-- **Skipping on a descriptor**: in every reader that handles segments, segment data at
    a place that is not behind the reader is right exactly when there is nothing to
    skip, nothing to read, or nothing there; and for every stream with a gap before
    its table, the handler is given the table whenever the stream has it exactly when
    the stream does not have it. -/
theorem descriptor_skips_iff (hk : Readable kernel) (env : Environment) (h : Handler σ) :
    (∀ (stream : List UInt8) (r : Reader σ) (atPos size : Nat), Sound stream r →
      r.action = some .readSegmentHeaders → r.streamPos ≤ atPos →
      (ReadsAt (onDescriptor env kernel) h stream r atPos size ↔
        atPos = r.streamPos ∨ size = 0 ∨ stream.length ≤ atPos)) ∧
    ∀ (stream : List UInt8) (state : σ), Gapped stream →
      ((HasTable stream → GetsTable (onDescriptor env kernel) h stream state) ↔
        ¬ HasTable stream) := by
  constructor
  · intro stream r atPos size hr haction hpos
    rcases Nat.eq_or_lt_of_le hpos with heq | hlt
    · obtain rfl : atPos = r.streamPos := heq.symm
      have hexact := readSegmentData_exact (h := h) (hk.environment_calms env)
        (hk.environment_delivers env) (Or.inl rfl) size hr haction hpos
      exact iff_of_true ((hexact.result_iff _).mpr rfl) (Or.inl rfl)
    · rw [behind_reads_iff hk env h size hr haction hlt]
      constructor
      · exact Or.inr
      · exact fun hcond => hcond.resolve_left (Nat.ne_of_gt hlt)
  · intro stream state hgap
    have hnever := gapped_not_gets hk env h hgap state
    constructor
    · exact fun hgets htable => hnever (hgets htable)
    · exact fun hno htable => absurd htable hno

/-- A core with eight bytes between the header and its table of one segment, and two bytes
    of data. -/
def gappedCore : List UInt8 :=
  (Ehdr.encode ⟨elfMag ++ [elfClass64, elfData2Lsb, 1, 0, 0, 0, 0, 0, 0, 0, 0, 0], etCore, 62, 1,
    0, 72, 0, 0, 64, 56, 1, 0, 0, 0⟩) ++ List.replicate 8 0
  ++ Phdr.encode ⟨ptLoad, 4, 129, 4096, 0, 1, 1, 0⟩ ++ [7, 8]

theorem gappedCore_gapped : Gapped gappedCore where
  whole := by decide +kernel
  valid := by decide +kernel
  beyond := by decide +kernel

/-- A reader that handles the segments of that core. -/
def handling : Reader Unit :=
  { ticosCoreElfReaderInit gappedCore () with
    action := some .readSegmentHeaders
    streamPos := 128
    rest := gappedCore.drop 128 }

theorem handling_sound : Sound gappedCore handling where
  rest := rfl
  inside := by decide +kernel
  asserts := rfl

theorem byteByByte_readable : Readable (fun _ => .deliver 1) where
  delivers _ := Or.inr ⟨1, Nat.one_pos, rfl⟩
  calms := ⟨0, fun _ _ => nofun⟩

theorem descriptor_skips_iff_gapped :
    (ReadsAt (onDescriptor flaky (fun _ => .deliver 1)) readEverything gappedCore handling 128 2 ↔
      128 = handling.streamPos ∨ 2 = 0 ∨ gappedCore.length ≤ 128) ∧
    ((HasTable gappedCore →
        GetsTable (onDescriptor flaky (fun _ => .deliver 1)) readEverything gappedCore ()) ↔
      ¬ HasTable gappedCore) :=
  ⟨(descriptor_skips_iff byteByByte_readable flaky readEverything).1 gappedCore handling 128 2
      handling_sound rfl (Nat.le_refl 128),
    (descriptor_skips_iff byteByByte_readable flaky readEverything).2 gappedCore ()
      gappedCore_gapped⟩

/-- **Neither works**: the last byte of that core is not read, and its table, which is
    there in full, is not handed over. -/
theorem gap_not_skipped :
    ¬ ReadsAt (onDescriptor flaky (fun _ => .deliver 1)) readEverything gappedCore handling 129 1 ∧
      HasTable gappedCore ∧
      ¬ GetsTable (onDescriptor flaky (fun _ => .deliver 1)) readEverything gappedCore () := by
  refine ⟨?_, by decide +kernel, gapped_not_gets byteByByte_readable flaky readEverything
    gappedCore_gapped ()⟩
  rw [behind_reads_iff byteByByte_readable flaky readEverything 1 handling_sound rfl
    (Nat.lt_succ_self 128)]
  rintro (hsize | hend)
  · exact nomatch hsize
  · exact absurd hend (by decide +kernel)

/-- **The memory IO of the tests skips**: segment data is right at every place. -/
theorem memory_reads_at (env : Environment) (h : Handler σ) {nextReadSize : Nat}
    (hnext : 0 < nextReadSize) {atPos : Nat} (size : Nat) (hr : Sound stream r)
    (haction : r.action = some .readSegmentHeaders) (hpos : r.streamPos ≤ atPos) :
    ReadsAt (onMemory env nextReadSize) h stream r atPos size :=
  ((readSegmentData_exact (memory_calms env nextReadSize) (memory_delivers env hnext false)
    (Or.inr (memory_delivers env hnext true)) size hr haction hpos).result_iff _).mpr rfl

end DescriptorRead
