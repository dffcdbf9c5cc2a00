import Ticosd.CoreElfReader
import Ticosd.CoreElfWriter

/-! # Round trip — the reader takes the writer's file apart

    The writer's bytes are the header, the table of the placed segments and the
    data blocks.  The reader meets them in this order: from the end of one block
    the way to the next is the padding that the writer has put there, so that a
    handler that reads the segments in order gets every buffer back.  The induction
    is on the list of segments, with the offset of the stream in step with the
    layout. -/

namespace CoreElfRoundTrip

open CoreElf CoreElfReader

variable {σ τ : Type} {h : Handler σ} {r : Reader σ}

/-! ## Segment data -/

/-- The script reads the segments one after the other, each in one piece into a
    buffer, whatever it receives. -/
def ReadsInOrder : List Phdr → Script σ → Prop
  | [], .done _ => True
  | p :: ps, .read _ atPos nullBuffer bufferSize next =>
      atPos = p.offset ∧ nullBuffer = false ∧ bufferSize = p.filesz ∧
        ∀ s n bytes, ReadsInOrder ps (next s n bytes)
  | _, _ => False

/-- The calls of such a script, if each segment has its data. -/
def dataCalls (segments : List Phdr) (xs : List (Phdr × List UInt8)) : List Callback :=
  List.zipWith (fun q x => .segmentData q.offset q.filesz x.2.length x.2) segments xs

/-- Bytes that stand behind some padding. -/
theorem readSegmentData_next {pad : Nat} {data rest : List UInt8}
    (hstream : r.io.stream = List.replicate pad 0 ++ (data ++ rest))
    (hs : NoFailure r.io.schedule) :
    ∃ s, NoFailure s ∧
      ticosCoreElfReaderReadSegmentData h r (r.streamPos + pad) data.length
        = (data, { r with io := ⟨rest, s⟩, streamPos := r.streamPos + pad + data.length }) := by
  have hzeros : (List.replicate pad (0 : UInt8)).length = pad := List.length_replicate
  rw [ticosCoreElfReaderReadSegmentData, if_neg (by omega)]
  dsimp only
  rw [show r.streamPos + pad - r.streamPos = pad from by omega]
  by_cases hpad : pad > 0
  · obtain ⟨s, hs', hskip⟩ := prvReadAll_eq h r pad hs
    have htake : r.io.stream.take pad = List.replicate pad 0 := by
      rw [hstream]
      nth_rewrite 1 [← hzeros]
      exact List.take_left
    have hdrop : r.io.stream.drop pad = data ++ rest := by
      rw [hstream]
      nth_rewrite 1 [← hzeros]
      exact List.drop_left
    rw [htake, hdrop, hzeros] at hskip
    rw [if_pos hpad, hskip, if_neg (by rw [hzeros]; omega)]
    obtain ⟨s', hs'', hread⟩ := prvReadAll_eq h
      { r with io := ⟨data ++ rest, s⟩, streamPos := r.streamPos + pad } data.length hs'
    refine ⟨s', hs'', ?_⟩
    rw [hread]
    simp only [List.take_left, List.drop_left]
  · obtain rfl : pad = 0 := by omega
    rw [if_neg hpad]
    obtain ⟨s', hs'', hread⟩ := prvReadAll_eq h r data.length hs
    refine ⟨s', hs'', ?_⟩
    rw [hread, hstream, List.replicate_zero, List.nil_append]
    simp only [List.take_left, List.drop_left, Nat.add_zero]

/-- **Every buffer comes back**, to a script that reads the segments in order. -/
theorem runScript_inOrder {xs : List (Phdr × List UInt8)} {script : Script σ}
    (hlen : ∀ x ∈ xs, x.2.length = x.1.filesz) (hs : NoFailure r.io.schedule)
    (hstream : r.io.stream = CoreElfWriter.dataBlocks r.streamPos xs)
    (hscript : ReadsInOrder (CoreElfWriter.placed r.streamPos (xs.map Prod.fst)) script) :
    (runScript h r script).log
      = r.log ++ dataCalls (CoreElfWriter.placed r.streamPos (xs.map Prod.fst)) xs := by
  induction xs generalizing r script with
  | nil =>
      cases script with
      | done state => exact (List.append_nil _).symm
      | read => exact hscript.elim
  | cons x xs ih =>
      obtain ⟨p, data⟩ := x
      have hfile : data.length = p.filesz := hlen _ List.mem_cons_self
      cases script with
      | done state => exact hscript.elim
      | read state atPos nullBuffer bufferSize next =>
          obtain ⟨hat, hbuf, hsize, hnext⟩ := hscript
          rw [show (CoreElfWriter.place r.streamPos p).offset = r.streamPos
            + CoreElfWriter.paddingTo p.align r.streamPos from rfl] at hat
          rw [show (CoreElfWriter.place r.streamPos p).filesz = data.length from hfile.symm]
            at hsize
          subst hat hbuf hsize
          obtain ⟨s, hs', hread⟩ := readSegmentData_next (h := h)
            (r := { r with state := state }) hstream hs
          rw [runScript]
          dsimp only at hread ⊢
          rw [hread]
          dsimp only
          rw [ih (fun y hy => hlen y (List.mem_cons_of_mem _ hy)) hs' (by rw [hfile])
            (by rw [hfile]; exact hnext _ _ _)]
          simp only [List.map_cons, CoreElfWriter.placed, dataCalls, List.zipWith_cons_cons,
            List.append_assoc, hfile, CoreElfWriter.place, List.cons_append, List.nil_append,
            Bool.false_eq_true, if_false]

/-- A call of `ticos_core_elf_reader_read_segment_data`. -/
def IsSegmentData (c : Callback) : Prop :=
  ∃ atPos bufferSize count bytes, c = .segmentData atPos bufferSize count bytes

/-- Reading segment data makes no calls of its own. -/
theorem readSegmentData_log (hs : NoFailure r.io.schedule) (atPos bufferSize : Nat) :
    ∃ bytes r', ticosCoreElfReaderReadSegmentData h r atPos bufferSize = (bytes, r') ∧
      r'.log = r.log ∧ NoFailure r'.io.schedule := by
  rw [ticosCoreElfReaderReadSegmentData]
  split
  · exact ⟨_, _, rfl, rfl, hs⟩
  · dsimp only
    obtain ⟨s, hs', hskip⟩ := prvReadAll_eq h r (atPos - r.streamPos) hs
    obtain ⟨t, ht, hread⟩ := prvReadAll_eq h r bufferSize hs
    split
    · rw [hskip]
      split
      · exact ⟨_, _, rfl, rfl, hs'⟩
      · obtain ⟨s', hs'', hread'⟩ := prvReadAll_eq h
          { r with io := ⟨r.io.stream.drop (atPos - r.streamPos), s⟩, streamPos :=
              r.streamPos + (r.io.stream.take (atPos - r.streamPos)).length } bufferSize hs'
        exact ⟨_, _, hread', rfl, hs''⟩
    · exact ⟨_, _, hread, rfl, ht⟩

/-- Any script reads segment data and does nothing else. -/
theorem runScript_log {script : Script σ} (hs : NoFailure r.io.schedule) :
    ∃ calls, (∀ c ∈ calls, IsSegmentData c) ∧ (runScript h r script).log = r.log ++ calls := by
  induction script generalizing r with
  | done state => exact ⟨[], (fun c hc => nomatch hc), (List.append_nil _).symm⟩
  | read state atPos nullBuffer bufferSize next ih =>
      obtain ⟨bytes, r', hread, hlog, hs'⟩ := readSegmentData_log (h := h)
        (r := { r with state := state }) hs atPos bufferSize
      rw [runScript]
      dsimp only
      rw [hread]
      dsimp only
      obtain ⟨calls, hcalls, hrest⟩ := ih r'.state bytes.length
        (if nullBuffer then [] else bytes)
        (r := { r' with log := r'.log ++ [.segmentData atPos bufferSize bytes.length
          (if nullBuffer then [] else bytes)] }) hs'
      refine ⟨.segmentData atPos bufferSize bytes.length (if nullBuffer then [] else bytes)
        :: calls, ?_, ?_⟩
      · intro c hc
        rcases List.mem_cons.mp hc with rfl | hc
        · exact ⟨_, _, _, _, rfl⟩
        · exact hcalls c hc
      · rw [hrest, hlog, List.append_assoc]
        rfl

/-! ## The actions -/

/-- A valid header in front, with the table right behind it. -/
theorem readElfHeader_val {header : Ehdr} {rest : List UInt8} (hok : header.Ok)
    (hvalid : ticosCoreElfReaderIsValidCoreElf header = true) (hphoff : header.phoff = ehdrSize)
    (hstream : r.io.stream = header.encode ++ rest) (hpos : r.streamPos = 0)
    (hs : NoFailure r.io.schedule) :
    ∃ s, NoFailure s ∧ prvActionReadElfHeader h r = { r with
      io := ⟨rest, s⟩
      streamPos := ehdrSize
      elfHeader := header
      state := h.handleElfHeader r.state header
      log := r.log ++ [.elfHeader header]
      action := some .prepareSegmentHeaders } := by
  have hlen := Ehdr.encode_length hok
  obtain ⟨s, hs', hread⟩ := prvReadAll_eq h r ehdrSize hs
  have htake : r.io.stream.take ehdrSize = header.encode := by
    rw [hstream, ← hlen, List.take_left]
  have hdrop : r.io.stream.drop ehdrSize = rest := by
    rw [hstream, ← hlen, List.drop_left]
  rw [htake, hdrop, hlen, hpos, Nat.zero_add] at hread
  refine ⟨s, hs', ?_⟩
  rw [prvActionReadElfHeader]
  dsimp only
  rw [hread]
  dsimp only
  rw [if_neg (by rw [hlen]; omega), Ehdr.decode_encode hok, if_neg (by rw [hvalid]; simp),
    if_pos hphoff]

/-- The table is there: the handler is called with it. -/
theorem readSegmentHeaders_val {segments : List Phdr} {rest : List UInt8}
    (hok : ∀ p ∈ segments, p.Ok) (hnum : r.elfHeader.phnum = segments.length)
    (hstream : r.io.stream = segments.flatMap Phdr.encode ++ rest)
    (hs : NoFailure r.io.schedule) :
    ∃ s, NoFailure s ∧ prvActionReadSegmentHeaders h r =
      { runScript h { r with
          io := ⟨rest, s⟩
          streamPos := r.streamPos + segments.length * phdrSize
          log := r.log ++ [.segments segments] } (h.handleSegments r.state segments) with
        action := some .done } := by
  have hlen := encodeTable_length hok
  obtain ⟨s, hs', hread⟩ := prvReadAll_eq h r (segments.length * phdrSize) hs
  have htake : r.io.stream.take (segments.length * phdrSize) = segments.flatMap Phdr.encode := by
    rw [hstream, ← hlen, List.take_left]
  have hdrop : r.io.stream.drop (segments.length * phdrSize) = rest := by
    rw [hstream, ← hlen, List.drop_left]
  rw [htake, hdrop, hlen] at hread
  have htable : decodeTable segments.length (segments.flatMap Phdr.encode) = segments := by
    have := decodeTable_encode hok []
    rw [List.append_nil] at this
    exact this
  refine ⟨s, hs', ?_⟩
  rw [prvActionReadSegmentHeaders]
  dsimp only
  rw [hnum, hread]
  dsimp only
  rw [if_pos hlen, htable]

/-! ## The round trip -/

/-- The reader in `handle_segments`, at the end of the table. -/
def atData (io : ReadIo) (malloc : Nat → Bool) (header : Ehdr) (state : σ)
    (segments : List Phdr) : Reader σ where
  io := io
  malloc := malloc
  action := some .readSegmentHeaders
  streamPos := ehdrSize + segments.length * phdrSize
  elfHeader := header
  state := state
  log := [.elfHeader header, .segments segments]

/-- The whole run over a header, its table and what follows: the handler is called
    with both, and its script finds the reader at the end of the table. -/
theorem readAll_val {header : Ehdr} (segments : List Phdr) (rest : List UInt8)
    (hheader : header.Ok) (hvalid : ticosCoreElfReaderIsValidCoreElf header = true)
    (hphoff : header.phoff = ehdrSize) (hok : ∀ p ∈ segments, p.Ok)
    (hnum : header.phnum = segments.length) (h : Handler σ) (state : σ) {malloc : Nat → Bool}
    (hmalloc : ∀ n, malloc n = true) {schedule : List Choice} (hs : NoFailure schedule) :
    ∃ s, NoFailure s ∧
      ticosCoreElfReaderReadAll h (ticosCoreElfReaderInit
        ⟨header.encode ++ (segments.flatMap Phdr.encode ++ rest), schedule⟩ malloc state)
        = (true, prvActionDone h (runScript h
            (atData ⟨rest, s⟩ malloc header (h.handleElfHeader state header) segments)
            (h.handleSegments (h.handleElfHeader state header) segments))) := by
  obtain ⟨s, hs', hread⟩ := readElfHeader_val (h := h)
    (r := ⟨⟨header.encode ++ (segments.flatMap Phdr.encode ++ rest), schedule⟩, malloc,
      some .readElfHeader, 0, default, state, []⟩) hheader hvalid hphoff rfl rfl hs
  obtain ⟨t, ht, htable⟩ := readSegmentHeaders_val (h := h)
    (r := ⟨⟨segments.flatMap Phdr.encode ++ rest, s⟩, malloc, some .readSegmentHeaders, ehdrSize,
      header, h.handleElfHeader state header, [.elfHeader header]⟩) hok hnum rfl hs'
  have hprepare : ∀ c : Reader σ, c.malloc = malloc →
      prvActionPrepareSegmentHeaders h c = { c with action := some .readSegmentHeaders } := by
    intro c hc
    rw [prvActionPrepareSegmentHeaders]
    dsimp only
    rw [hc, if_neg (by rw [hmalloc]; simp)]
  refine ⟨t, ht, congrArg (Prod.mk true) ?_⟩
  calc actionLoop h 5 ⟨⟨header.encode ++ (segments.flatMap Phdr.encode ++ rest), schedule⟩,
        malloc, some .readElfHeader, 0, default, state, []⟩
      = actionLoop h 4 (prvActionReadElfHeader h
          ⟨⟨header.encode ++ (segments.flatMap Phdr.encode ++ rest), schedule⟩, malloc,
            some .readElfHeader, 0, default, state, []⟩) := rfl
    _ = actionLoop h 3 (prvActionPrepareSegmentHeaders h
          ⟨⟨segments.flatMap Phdr.encode ++ rest, s⟩, malloc, some .prepareSegmentHeaders,
            ehdrSize, header, h.handleElfHeader state header, [.elfHeader header]⟩) := by
        rw [hread]
        rfl
    _ = actionLoop h 2 (prvActionReadSegmentHeaders h
          ⟨⟨segments.flatMap Phdr.encode ++ rest, s⟩, malloc, some .readSegmentHeaders,
            ehdrSize, header, h.handleElfHeader state header, [.elfHeader header]⟩) := by
        rw [hprepare _ rfl]
        rfl
    _ = _ := by
        rw [htable]
        rfl

/-- **Writer and reader are inverse**: what the writer has written for some segments
    with buffers is read without a warning, with one call for the header, one for
    the segments with their offsets filled in, and between that and the last call
    nothing but the segment data that the handler asks for; a handler that asks for
    the segments in order gets their buffers. -/
theorem writer_reader_inverse {xs : List (Phdr × List UInt8)} (hne : xs ≠ [])
    (hmax : xs.length ≤ 65535) (hok : ∀ x ∈ xs, x.1.Ok ∧ CoreElfWriter.Aligns x.1)
    (hlen : ∀ x ∈ xs, x.2.length = x.1.filesz)
    (hend : CoreElfWriter.layoutEnd (ehdrSize + phdrSize * xs.length) (xs.map Prod.fst) < 2 ^ 63)
    {writes : List CoreElfWriter.Choice} {sync : Bool} {realloc : Nat → Bool}
    {w : CoreElfWriter.Writer Unit}
    (hadd : CoreElfWriter.addBuffers realloc
      (CoreElfWriter.ticosCoreElfWriterInit ⟨[], writes, sync⟩) xs = some w)
    {eMachine eFlags : Nat} (hm : eMachine < 2 ^ 16) (hf : eFlags < 2 ^ 32)
    (hwrite : (CoreElfWriter.ticosCoreElfWriterWrite
      (CoreElfWriter.ticosCoreElfWriterSetElfHeaderFields w eMachine eFlags) ()).1 = true)
    (h : Handler σ) (state : σ) {malloc : Nat → Bool} (hmalloc : ∀ n, malloc n = true)
    {schedule : List Choice} (hs : NoFailure schedule) :
    ∃ header segments calls r,
      ticosCoreElfReaderReadAll h (ticosCoreElfReaderInit
        ⟨(CoreElfWriter.ticosCoreElfWriterWrite
          (CoreElfWriter.ticosCoreElfWriterSetElfHeaderFields w eMachine eFlags) ()).2.2.io.written,
          schedule⟩ malloc state) = (true, r) ∧
      r.log = .elfHeader header :: .segments segments :: (calls ++ [.done]) ∧
      header.machine = eMachine ∧ header.flags = eFlags ∧
      List.Forall₂ (fun q p => ∃ at_, q = { p with offset := at_ }) segments
        (xs.map Prod.fst) ∧
      (∀ c ∈ calls, IsSegmentData c) ∧
      (ReadsInOrder segments (h.handleSegments (h.handleElfHeader state header) segments) →
        calls = dataCalls segments xs) := by
  obtain ⟨hout, hsegs⟩ := CoreElfWriter.addBuffers_some hadd
  have hdesc : List.Forall₂ (CoreElfWriter.Describes fun _ => True)
      (CoreElfWriter.ticosCoreElfWriterSetElfHeaderFields w eMachine eFlags).segments xs := by
    rw [show (CoreElfWriter.ticosCoreElfWriterSetElfHeaderFields w eMachine eFlags).segments
      = xs.map (fun x => ⟨x.1, .buffer x.2⟩) from hsegs, List.forall₂_map_left_iff,
      List.forall₂_same]
    exact fun x hx => CoreElfWriter.describes_buffer _ (hlen x hx)
  have hwritten := CoreElfWriter.write_true
    (CoreElfWriter.ticosCoreElfWriterSetElfHeaderFields w eMachine eFlags) hdesc trivial
    (by rw [CoreElfWriter.ticosCoreElfWriterSetElfHeaderFields, hout]; rfl)
    (by rw [CoreElfWriter.ticosCoreElfWriterSetElfHeaderFields, hout]; rfl) hm hf hok hend
    hwrite
  have hpos : xs.length > 0 := List.length_pos_iff.mpr hne
  have hplaced : (CoreElfWriter.placed (ehdrSize + phdrSize * xs.length)
      (xs.map Prod.fst)).length = xs.length := by
    rw [CoreElfWriter.placed_length, List.length_map]
  have hphdrs : ∀ q ∈ CoreElfWriter.placed (ehdrSize + phdrSize * xs.length) (xs.map Prod.fst),
      q.Ok := CoreElfWriter.placed_ok (fun p hp => by
        obtain ⟨x, hx, rfl⟩ := List.mem_map.mp hp
        exact (hok x hx).1) hend
  -- the reader comes to the script of the handler with the data blocks still in front of it
  obtain ⟨s, hs', hread⟩ := readAll_val
    (CoreElfWriter.placed (ehdrSize + phdrSize * xs.length) (xs.map Prod.fst))
    (CoreElfWriter.dataBlocks (ehdrSize + phdrSize * xs.length) xs)
    (CoreElfWriter.elfHeader_ok hm hf xs.length)
    (CoreElfWriter.elfHeader_valid hpos) (CoreElfWriter.elfHeader_phoff hpos) hphdrs
    ((Nat.mod_eq_of_lt (by omega)).trans hplaced.symm) h state hmalloc hs
  rw [hwritten, List.append_assoc]
  -- whatever the handler asks for, only segment data is added to the log
  obtain ⟨calls, hcalls, hlog⟩ := runScript_log (h := h)
    (r := atData ⟨CoreElfWriter.dataBlocks (ehdrSize + phdrSize * xs.length) xs, s⟩ malloc
      (CoreElfWriter.elfHeader eMachine eFlags xs.length)
      (h.handleElfHeader state (CoreElfWriter.elfHeader eMachine eFlags xs.length))
      (CoreElfWriter.placed (ehdrSize + phdrSize * xs.length) (xs.map Prod.fst))) hs'
  refine ⟨CoreElfWriter.elfHeader eMachine eFlags xs.length,
    CoreElfWriter.placed (ehdrSize + phdrSize * xs.length) (xs.map Prod.fst), calls, _, hread, ?_,
    rfl, rfl, CoreElfWriter.placed_headers _ _, hcalls, ?_⟩
  · rw [prvActionDone]
    dsimp only
    rw [hlog]
    rfl
  · intro hscript
    -- the stream position behind the table is where the layout starts
    have hat : (atData ⟨CoreElfWriter.dataBlocks (ehdrSize + phdrSize * xs.length) xs, s⟩ malloc
        (CoreElfWriter.elfHeader eMachine eFlags xs.length)
        (h.handleElfHeader state (CoreElfWriter.elfHeader eMachine eFlags xs.length))
        (CoreElfWriter.placed (ehdrSize + phdrSize * xs.length) (xs.map Prod.fst))).streamPos
        = ehdrSize + phdrSize * xs.length := by
      rw [atData, hplaced, Nat.mul_comm]
    have hlog' := runScript_inOrder (h := h) hlen hs' (by rw [hat]; rfl) (by rw [hat]; exact hscript)
    rw [hlog, hat] at hlog'
    exact List.append_cancel_left hlog'

/-- Two segments of three bytes and one, the second one at a multiple of 16. -/
def twoSegments : List (Phdr × List UInt8) :=
  [(⟨ptNote, 4, 0, 0, 0, 3, 3, 0⟩, [1, 2, 3]), (⟨ptLoad, 6, 0, 4096, 0, 1, 8, 16⟩, [9])]

/-- The writer's calls take seven bytes at first and are interrupted once. -/
def twoWriter : CoreElfWriter.Writer Unit where
  out := ⟨⟨[], [.accept 7, .eintr], true⟩, 0⟩
  eMachine := 0
  eFlags := 0
  segments := twoSegments.map (fun x => ⟨x.1, .buffer x.2⟩)
  segmentsMax := 32

theorem writer_reader_inverse_two : ∃ header segments calls r,
    ticosCoreElfReaderReadAll readEverything (ticosCoreElfReaderInit
      ⟨(CoreElfWriter.ticosCoreElfWriterWrite
        (CoreElfWriter.ticosCoreElfWriterSetElfHeaderFields twoWriter 62 5) ()).2.2.io.written,
        [.deliver 1, .eintr]⟩ (fun _ => true) ()) = (true, r) ∧
    r.log = .elfHeader header :: .segments segments :: (calls ++ [.done]) ∧
    header.machine = 62 ∧ header.flags = 5 ∧
    List.Forall₂ (fun q p => ∃ at_, q = { p with offset := at_ }) segments
      (twoSegments.map Prod.fst) ∧
    (∀ c ∈ calls, IsSegmentData c) ∧
    (ReadsInOrder segments (readEverything.handleSegments
      (readEverything.handleElfHeader () header) segments) → calls = dataCalls segments twoSegments) := by
  have hadd : CoreElfWriter.addBuffers (fun _ => true) (CoreElfWriter.ticosCoreElfWriterInit
      ⟨[], [.accept 7, .eintr], true⟩) twoSegments = some twoWriter := rfl
  refine writer_reader_inverse (by decide) (by decide) ?_ (by decide) (by decide) hadd
    (by decide) (by decide) (by decide +kernel) readEverything () (fun _ => rfl) ?_
  · intro x hx
    rcases List.mem_pair.mp hx with rfl | rfl
    · exact ⟨by decide, Or.inl (by decide)⟩
    · exact ⟨by decide, Or.inr ⟨4, by decide⟩⟩
  · intro e he
    simp at he

end CoreElfRoundTrip
