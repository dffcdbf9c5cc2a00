import Ticosd.CoreElfWriter

/-! # Core layout — segments from buffers and callbacks

    A callback is a row of calls of `ticos_core_elf_writer_write_segment_data`, of any
    number and size, each of which may depend on what the calls before it have
    returned.  The writer learns how much was written only from its own offset: it
    compares where the offset should stand with where it stands.

    `LaidOut` says what the file behind the table is for, with no reference to the
    writer: zeros up to the least aligned offset, the data, and so on.  The induction
    is on the list of segments; the offset of the output is in step with the plan,
    because a segment that ends anywhere else stops the writer. -/

namespace CoreElfLayout

open CoreElf CoreElfWriter

variable {σ : Type}

/-! ## What a file should look like -/

/-- The bytes from an offset on: for each segment zeros up to its place, which is the
    least aligned one, and its data, which fill it. -/
inductive LaidOut : Nat → List Phdr → List (List UInt8) → List UInt8 → Prop where
  | nil {offset : Nat} : LaidOut offset [] [] []
  | cons {offset : Nat} {q : Phdr} {qs : List Phdr} {data : List UInt8}
      {datas : List (List UInt8)} {rest : List UInt8}
      (hplace : IsLeast {o | max q.align 1 ∣ o ∧ offset ≤ o} q.offset)
      (hlength : data.length = q.filesz)
      (hrest : LaidOut (q.offset + q.filesz) qs datas rest) :
      LaidOut offset (q :: qs) (data :: datas)
        (List.replicate (q.offset - offset) 0 ++ (data ++ rest))

/-- Each segment's data stand at its `p_offset`. -/
theorem LaidOut.read {offset : Nat} {qs : List Phdr} {datas : List (List UInt8)}
    {body : List UInt8} (h : LaidOut offset qs datas body) {front : List UInt8}
    (hfront : front.length = offset) :
    List.Forall₂ (fun (q : Phdr) data =>
      ((front ++ body).drop q.offset).take q.filesz = data) qs datas := by
  induction h generalizing front with
  | nil => exact List.Forall₂.nil
  | @cons offset q qs data datas rest hplace hlength hrest ih =>
      have hle : offset ≤ q.offset := hplace.1.2
      have hpad : (front ++ List.replicate (q.offset - offset) 0).length = q.offset := by
        rw [List.length_append, List.length_replicate, hfront]
        omega
      refine List.Forall₂.cons ?_ ?_
      · rw [← List.append_assoc, List.drop_left' hpad, List.take_left' hlength]
      · have hnext := @ih (front ++ List.replicate (q.offset - offset) 0 ++ data) (by
          rw [List.length_append, hpad, hlength])
        simp only [List.append_assoc] at hnext
        exact hnext

/-- Each segment's data are as long as its header says. -/
theorem LaidOut.lengths {offset : Nat} {qs ps : List Phdr} {datas : List (List UInt8)}
    {body : List UInt8} (h : LaidOut offset qs datas body)
    (hsame : List.Forall₂ (fun q p => ∃ at_, q = { p with offset := at_ }) qs ps) :
    List.Forall₂ (fun (p : Phdr) (data : List UInt8) => data.length = p.filesz) ps datas := by
  induction h generalizing ps with
  | nil =>
      cases hsame
      exact List.Forall₂.nil
  | cons hplace hlength hrest ih =>
      cases hsame with
      | cons hq hqs =>
          obtain ⟨at_, rfl⟩ := hq
          exact List.Forall₂.cons hlength (ih hqs)

/-- The padding of the layout goes to the least aligned offset. -/
theorem paddingTo_isLeast (align offset : Nat) :
    IsLeast {o | max align 1 ∣ o ∧ offset ≤ o} (offset + paddingTo align offset) := by
  rw [paddingTo]
  by_cases hle : align ≤ 1
  · rw [if_pos hle, Nat.max_eq_right hle]
    exact ⟨⟨Nat.one_dvd _, Nat.le_refl _⟩, fun o ho => ho.2⟩
  · have hpos : 0 < align := by omega
    rw [if_neg hle, Nat.max_eq_left (by omega), ← next_multiple offset hpos]
    constructor
    · refine ⟨Nat.dvd_mul_left _ _, ?_⟩
      rw [next_multiple offset hpos]
      exact Nat.le_add_right _ _
    · rintro o ⟨⟨k, rfl⟩, hk⟩
      rw [Nat.mul_comm align k] at hk ⊢
      refine Nat.mul_le_mul_right align (Nat.lt_succ_iff.mp (Nat.div_lt_of_lt_mul ?_))
      rw [Nat.mul_succ, Nat.mul_comm align k]
      omega

/-! ## Callbacks -/

/-- What a segment callback does: calls of `ticos_core_elf_writer_write_segment_data`,
    each with what is done after it returns, and at the end the result. -/
inductive Script (σ : Type) where
  | ret (ok : Bool) (state : σ)
  | write (data : List UInt8) (next : Bool → Script σ)

/-- The callback over the output of the writer. -/
def Script.run : Script σ → Output → Bool × σ × Output
  | .ret ok state, out => (ok, state, out)
  | .write data next, out =>
      let t := prvWriteAll out data
      (next t.1).run t.2

/-- The bytes that the callback writes, its result and its state, if no call fails. -/
def Script.provides : Script σ → List UInt8 × Bool × σ
  | .ret ok state => ([], ok, state)
  | .write data next =>
      let t := (next true).provides
      (data ++ t.1, t.2)

/-- The callback returns false, whatever its calls return. -/
def Script.Refuses : Script σ → Prop
  | .ret ok _ => ok = false
  | .write _ next => ∀ b, (next b).Refuses

/-- "True if writing the data succeeded or false if not": no failed call is passed
    over. -/
def Script.Reports : Script σ → Prop
  | .ret _ _ => True
  | .write _ next => (next true).Reports ∧ (next false).Refuses

/-- Where the data of a segment come from. -/
inductive Source (σ : Type) where
  | buffer (data : List UInt8)
  | callback (fn : σ → Phdr → Script σ)

/-- The source, as it is given to the writer. -/
def Source.toData : Source σ → SegmentData σ
  | .buffer data => .buffer data
  | .callback fn => .callback (fun state out header => (fn state header).run out)

/-- The data of one segment, and the state afterwards. -/
def Source.provides (state : σ) (header : Phdr) : Source σ → List UInt8 × σ
  | .buffer data => (data, state)
  | .callback fn => ((fn state header).provides.1, (fn state header).provides.2.2)

/-- The data of all segments, in order; a callback is given the header with its
    `p_offset`. -/
def provided : σ → Nat → List (Phdr × Source σ) → List (List UInt8)
  | _, _, [] => []
  | state, offset, (p, source) :: rest =>
      let t := source.provides state (place offset p)
      t.1 :: provided t.2 (offset + paddingTo p.align offset + p.filesz) rest

/-- Buffers hold `p_filesz` bytes. -/
def Source.Fills (filesz : Nat) : Source σ → Prop
  | .buffer data => data.length = filesz
  | .callback _ => True

/-- A callback reports its failures. -/
def Source.Reports : Source σ → Prop
  | .buffer _ => True
  | .callback fn => ∀ state header, (fn state header).Reports

/-! ## One callback -/

theorem Script.refuses_run {script : Script σ} (h : script.Refuses) (out : Output) :
    (script.run out).1 = false := by
  induction script generalizing out with
  | ret ok state => exact h
  | write data next ih => exact ih _ (h _) _

/-- Either the IO object does not fail, or the callback reports it. -/
def Careful (io : WriteIo) (reports : Prop) : Prop := NoFailure io.schedule ∨ reports

/-- **A callback that succeeds** has written what it provides. -/
theorem Script.run_true {script : Script σ} {out : Output} (hs : out.Sound)
    (hcare : Careful out.io script.Reports)
    (hbound : out.writeOffset + script.provides.1.length < 2 ^ 64)
    (h : (script.run out).1 = true) :
    Grown out (script.run out).2.2 script.provides.1 ∧
      (script.run out).2.1 = script.provides.2.2 ∧
      (NoFailure out.io.schedule → NoFailure (script.run out).2.2.io.schedule) := by
  induction script generalizing out with
  | ret ok state => exact ⟨Grown.refl hs, rfl, fun hno => hno⟩
  | write data next ih =>
      have hlen : (Script.write data next).provides.1.length
          = data.length + (next true).provides.1.length := List.length_append
      rw [hlen] at hbound
      rw [Script.run] at h ⊢
      cases hok : (prvWriteAll out data).1 with
      | true =>
          rw [hok] at h
          have hfirst := prvWriteAll_true hs (by omega) hok
          have hoff := hfirst.offset hs
          have hno := fun (hclean : NoFailure out.io.schedule) => (prvWriteAll_succeeds hclean data).2
          have hcare' : Careful (prvWriteAll out data).2.io (next true).Reports :=
            hcare.imp hno (fun hreports => hreports.1)
          obtain ⟨hgrown, hstate, hno'⟩ := ih true hfirst.sound hcare' (by omega) h
          exact ⟨hfirst.trans hgrown, hstate, fun hclean => hno' (hno hclean)⟩
      | false =>
          -- a call has failed: the callback has to report it
          rw [hok] at h
          rcases hcare with hclean | hreports
          · rw [(prvWriteAll_succeeds hclean data).1] at hok
            exact nomatch hok
          · rw [Script.refuses_run hreports.2] at h
            exact nomatch h

/-- Any source that succeeds. -/
theorem Source.write_true {source : Source σ} {header : Phdr} {state : σ} {out : Output}
    (hs : out.Sound) (hfills : source.Fills header.filesz)
    (hcare : Careful out.io source.Reports)
    (hbound : out.writeOffset + (source.provides state header).1.length < 2 ^ 64)
    (h : (source.toData.write state out header).1 = true) :
    Grown out (source.toData.write state out header).2.2 (source.provides state header).1 ∧
      (source.toData.write state out header).2.1 = (source.provides state header).2 ∧
      (NoFailure out.io.schedule →
        NoFailure (source.toData.write state out header).2.2.io.schedule) := by
  cases source with
  | buffer data =>
      have htake : data.take header.filesz = data := List.take_of_length_le (Nat.le_of_eq hfills)
      simp only [Source.toData, SegmentData.write, Source.provides, htake] at h hbound ⊢
      exact ⟨prvWriteAll_true hs hbound h, trivial, fun hno => (prvWriteAll_succeeds hno data).2⟩
  | callback fn =>
      exact Script.run_true hs (hcare.imp id fun hreports => hreports _ _) hbound h

/-! ## All segments -/

/-- The segments that are added for some headers and sources. -/
def toSegments (xs : List (Phdr × Source σ)) : List (Segment σ) :=
  xs.map (fun x => ⟨x.1, x.2.toData⟩)

theorem toSegments_headers (xs : List (Phdr × Source σ)) :
    (toSegments xs).map Segment.header = xs.map Prod.fst := by
  rw [toSegments, List.map_map]
  rfl

/-- **The data blocks**: a run that succeeds has filled each place exactly. -/
theorem writeData_laidOut {xs : List (Phdr × Source σ)} {state : σ} {out : Output}
    (hs : out.Sound) (hfills : ∀ x ∈ xs, x.2.Fills x.1.filesz)
    (hcare : Careful out.io (∀ x ∈ xs, x.2.Reports))
    (hend : layoutEnd out.writeOffset (xs.map Prod.fst) < 2 ^ 63)
    (hdata : ∀ data ∈ provided state out.writeOffset xs, data.length < 2 ^ 63)
    (h : (writeData (withOffsets (toSegments xs) (placed out.writeOffset (xs.map Prod.fst)))
      state out).1 = true) :
    ∃ body, LaidOut out.writeOffset (placed out.writeOffset (xs.map Prod.fst))
        (provided state out.writeOffset xs) body ∧
      Grown out (writeData (withOffsets (toSegments xs)
        (placed out.writeOffset (xs.map Prod.fst))) state out).2.2 body := by
  induction xs generalizing out state with
  | nil => exact ⟨[], LaidOut.nil, Grown.refl hs⟩
  | cons x xs ih =>
      obtain ⟨p, source⟩ := x
      have hend' : layoutEnd (out.writeOffset + paddingTo p.align out.writeOffset + p.filesz)
          (xs.map Prod.fst) < 2 ^ 63 := hend
      have hle := le_layoutEnd
        (out.writeOffset + paddingTo p.align out.writeOffset + p.filesz) (xs.map Prod.fst)
      have hone : (source.provides state (place out.writeOffset p)).1.length < 2 ^ 63 :=
        hdata _ List.mem_cons_self
      simp only [toSegments, withOffsets, List.map_cons, placed, List.zipWith_cons_cons, writeData,
        padSize_eq (show out.writeOffset + paddingTo p.align out.writeOffset < 2 ^ 63 by omega)]
        at h ⊢
      split at h
      · cases h
      rename_i hpad
      rw [if_neg hpad]
      split at h
      · rename_i hwrite
        rw [hwrite] at h
        cases h
      rename_i hwrite
      rw [if_neg hwrite]
      split at h
      · cases h
      rename_i hplanned
      rw [if_neg hplanned]
      have hzeros := paddingLoop_true (Nat.le_refl (paddingTo p.align out.writeOffset)) hs
        (by omega) (Bool.eq_true_of_not_eq_false hpad)
      have hpadoff := hzeros.offset hs
      rw [List.length_replicate] at hpadoff
      have hnopad := fun (hclean : NoFailure out.io.schedule) => (paddingLoop_succeeds hclean
        (paddingTo p.align out.writeOffset) (paddingTo p.align out.writeOffset)).2
      generalize hout' : (prvWritePadding out (paddingTo p.align out.writeOffset)).2 = out'
        at h hwrite hplanned ⊢
      change (paddingLoop _ out _).2 = out' at hout'
      rw [hout'] at hzeros hpadoff hnopad
      have hfilled : source.Fills (place out.writeOffset p).filesz := hfills _ List.mem_cons_self
      obtain ⟨hblock, hstate, hno⟩ := Source.write_true hzeros.sound hfilled
        (hcare.imp hnopad fun hreports => hreports _ List.mem_cons_self) (by omega)
        (Bool.eq_true_of_not_eq_false hwrite)
      have hoff := hblock.offset hzeros.sound
      rw [hstate] at h ⊢
      generalize (source.toData.write state out' (place out.writeOffset p)).2.2 = out''
        at h hplanned hblock hno hoff ⊢
      -- the output is where the plan is: the place is filled exactly
      have hplace : (place out.writeOffset p).offset
          = out.writeOffset + paddingTo p.align out.writeOffset := rfl
      have hfilesz : (place out.writeOffset p).filesz = p.filesz := rfl
      rw [hplace, hfilesz, Nat.mod_eq_of_lt (by omega), ne_eq, not_not] at hplanned
      have hlength : (source.provides state (place out.writeOffset p)).1.length = p.filesz := by
        omega
      rw [← hplanned] at h hend'
      obtain ⟨body, hbody, hgrown⟩ := ih hblock.sound
        (fun x hx => hfills x (List.mem_cons_of_mem _ hx))
        (hcare.imp (fun hclean => hno (hnopad hclean))
          fun hreports x hx => hreports x (List.mem_cons_of_mem _ hx))
        hend' (fun data hmem => hdata data (List.mem_cons_of_mem _ (by rw [← hplanned]; exact hmem)))
        h
      have hpadding : (place out.writeOffset p).offset - out.writeOffset
          = paddingTo p.align out.writeOffset := Nat.add_sub_cancel_left _ _
      have hrest : LaidOut ((place out.writeOffset p).offset + (place out.writeOffset p).filesz)
          (placed (out.writeOffset + paddingTo p.align out.writeOffset + p.filesz)
            (xs.map Prod.fst))
          (provided (source.provides state (place out.writeOffset p)).2
            (out.writeOffset + paddingTo p.align out.writeOffset + p.filesz) xs) body := by
        rw [hplace, hfilesz, ← hplanned]
        exact hbody
      refine ⟨_, LaidOut.cons (paddingTo_isLeast p.align out.writeOffset) hlength hrest, ?_⟩
      rw [hpadding, ← hplanned, ← List.append_assoc]
      exact (hzeros.trans hblock).trans hgrown

/-- A writer of these segments that returns true. -/
theorem write_laidOut {xs : List (Phdr × Source σ)} {w : Writer σ} {state : σ}
    (hsegs : w.segments = toSegments xs) (hempty : w.out.io.written = [])
    (hzero : w.out.writeOffset = 0) (hm : w.eMachine < 2 ^ 16) (hf : w.eFlags < 2 ^ 32)
    (hok : ∀ x ∈ xs, x.1.Ok ∧ Aligns x.1) (hfills : ∀ x ∈ xs, x.2.Fills x.1.filesz)
    (hcare : Careful w.out.io (∀ x ∈ xs, x.2.Reports))
    (hend : layoutEnd (ehdrSize + phdrSize * xs.length) (xs.map Prod.fst) < 2 ^ 63)
    (hdata : ∀ data ∈ provided state (ehdrSize + phdrSize * xs.length) xs, data.length < 2 ^ 63)
    (h : (ticosCoreElfWriterWrite w state).1 = true) :
    ∃ body,
      LaidOut (ehdrSize + phdrSize * xs.length)
        (placed (ehdrSize + phdrSize * xs.length) (xs.map Prod.fst))
        (provided state (ehdrSize + phdrSize * xs.length) xs) body ∧
      (ticosCoreElfWriterWrite w state).2.2.io.written
        = (elfHeader w.eMachine w.eFlags xs.length).encode
          ++ (placed (ehdrSize + phdrSize * xs.length) (xs.map Prod.fst)).flatMap Phdr.encode
          ++ body := by
  have hlen : w.segments.length = xs.length := by rw [hsegs, toSegments, List.length_map]
  have hheaders : w.segments.map Segment.header = xs.map Prod.fst := by
    rw [hsegs, toSegments_headers]
  obtain ⟨out, hs, hoff, hwritten, hok', hresult, hclean⟩ := write_dataPhase w hempty hzero hm hf
    (by
      rw [hsegs]
      intro s hs
      obtain ⟨x, hx, rfl⟩ := List.mem_map.mp hs
      exact hok x hx)
    (by rw [hlen, hheaders]; exact hend) h
  rw [hlen] at hoff
  rw [hlen, hheaders] at hwritten
  rw [hheaders, hsegs] at hok' hresult
  obtain ⟨body, hbody, hgrown⟩ := writeData_laidOut hs hfills (hcare.imp hclean id)
    (by rw [hoff]; exact hend) (by rw [hoff]; exact hdata) hok'
  rw [hoff] at hbody
  refine ⟨body, hbody, ?_⟩
  rw [hresult, hgrown.written, hwritten]

/-- **The layout of a written core**: for segments with buffers and with callbacks that
    write any number of bytes, if the writer returns true, the bytes are the ELF header
    with the number of segments, their headers with the offsets filled in, and the
    data of each segment at its place, with nothing behind the last one; and if what
    some callback provides is not as long as its segment, the writer returns false. -/
theorem write_lays_out {xs : List (Phdr × Source σ)} (hmax : xs.length ≤ 65535)
    (hok : ∀ x ∈ xs, x.1.Ok ∧ Aligns x.1) (hfills : ∀ x ∈ xs, x.2.Fills x.1.filesz)
    {io : WriteIo} (hempty : io.written = [])
    (hcare : Careful io (∀ x ∈ xs, x.2.Reports))
    (hend : layoutEnd (ehdrSize + phdrSize * xs.length) (xs.map Prod.fst) < 2 ^ 63)
    {state : σ}
    (hdata : ∀ data ∈ provided state (ehdrSize + phdrSize * xs.length) xs, data.length < 2 ^ 63)
    {eMachine eFlags : Nat} (hm : eMachine < 2 ^ 16) (hf : eFlags < 2 ^ 32)
    {realloc : Nat → Bool} {w : Writer σ}
    (hadd : addSegments realloc (ticosCoreElfWriterInit io)
      (xs.map (fun x => (x.1, x.2.toData))) = some w) :
    let r := ticosCoreElfWriterWrite (ticosCoreElfWriterSetElfHeaderFields w eMachine eFlags) state
    let datas := provided state (ehdrSize + phdrSize * xs.length) xs
    (r.1 = true → ∃ header table body,
      r.2.2.io.written = header.encode ++ table.flatMap Phdr.encode ++ body ∧
      header = elfHeader eMachine eFlags xs.length ∧ header.phnum = xs.length ∧
      List.Forall₂ (fun q p => ∃ at_, q = { p with offset := at_ }) table (xs.map Prod.fst) ∧
      LaidOut (ehdrSize + phdrSize * xs.length) table datas body ∧
      List.Forall₂ (fun (q : Phdr) data =>
        (r.2.2.io.written.drop q.offset).take q.filesz = data) table datas) ∧
    (¬ List.Forall₂ (fun (p : Phdr) (data : List UInt8) => data.length = p.filesz)
      (xs.map Prod.fst) datas → r.1 = false) := by
  obtain ⟨hout, hsegs⟩ := addSegments_some hadd
  have hsegs' : (ticosCoreElfWriterSetElfHeaderFields w eMachine eFlags).segments
      = toSegments xs := by
    rw [show (ticosCoreElfWriterSetElfHeaderFields w eMachine eFlags).segments = _ from hsegs,
      List.map_map]
    rfl
  dsimp only
  -- both parts are read off a run that returns true
  have hrun := fun h => write_laidOut hsegs'
    (by rw [ticosCoreElfWriterSetElfHeaderFields, hout]; exact hempty)
    (by rw [ticosCoreElfWriterSetElfHeaderFields, hout]; rfl) hm hf hok hfills
    (by rw [ticosCoreElfWriterSetElfHeaderFields, hout]; exact hcare) hend hdata h
  constructor
  · intro h
    obtain ⟨body, hbody, hwritten⟩ := hrun h
    refine ⟨_, _, body, hwritten, rfl, Nat.mod_eq_of_lt (by omega), placed_headers _ _, hbody, ?_⟩
    rw [hwritten]
    refine hbody.read ?_
    show ((elfHeader eMachine eFlags xs.length).encode ++ _).length = _
    rw [List.length_append, Ehdr.encode_length (elfHeader_ok hm hf xs.length),
      encodeTable_length (placed_ok (fun p hp => ?_) hend), placed_length, List.length_map,
      Nat.mul_comm]
    obtain ⟨x, hx, rfl⟩ := List.mem_map.mp hp
    exact (hok x hx).1
  · intro hwrong
    cases hresult : (ticosCoreElfWriterWrite
        (ticosCoreElfWriterSetElfHeaderFields w eMachine eFlags) state).1 with
    | false => rfl
    | true =>
        obtain ⟨body, hbody, -⟩ := hrun hresult
        exact absurd (hbody.lengths (placed_headers _ _)) hwrong

/-- A buffer of three bytes, and a callback that writes two bytes one by one, at a multiple
    of 16. -/
def bufferAndCallback : List (Phdr × Source Unit) :=
  [(⟨ptNote, 4, 0, 0, 0, 3, 3, 0⟩, .buffer [1, 2, 3]),
    (⟨ptLoad, 6, 0, 4096, 0, 2, 8, 16⟩,
      .callback fun _ _ => .write [8] fun _ => .write [9] fun ok => .ret ok ())]

/-- The writer of these segments; its calls take seven bytes at first and are interrupted
    once. -/
def bufferAndCallbackWriter : Writer Unit where
  out := ⟨⟨[], [.accept 7, .eintr], true⟩, 0⟩
  eMachine := 0
  eFlags := 0
  segments := toSegments bufferAndCallback
  segmentsMax := 32

theorem write_lays_out_two : ∃ header table body,
    (ticosCoreElfWriterWrite (ticosCoreElfWriterSetElfHeaderFields bufferAndCallbackWriter 62 5)
      ()).2.2.io.written = Ehdr.encode header ++ table.flatMap Phdr.encode ++ body ∧
    header = elfHeader 62 5 2 ∧ header.phnum = 2 ∧
    List.Forall₂ (fun q p => ∃ at_, q = { p with offset := at_ }) table
      (bufferAndCallback.map Prod.fst) ∧
    LaidOut 176 table [[1, 2, 3], [8, 9]] body ∧
    List.Forall₂ (fun (q : Phdr) data =>
      ((ticosCoreElfWriterWrite (ticosCoreElfWriterSetElfHeaderFields bufferAndCallbackWriter 62 5)
        ()).2.2.io.written.drop q.offset).take q.filesz = data) table [[1, 2, 3], [8, 9]] := by
  have hadd : addSegments (fun _ => true) (ticosCoreElfWriterInit ⟨[], [.accept 7, .eintr], true⟩)
      (bufferAndCallback.map (fun x => (x.1, x.2.toData))) = some bufferAndCallbackWriter := rfl
  have hclean : Careful ⟨[], [.accept 7, .eintr], true⟩ (∀ x ∈ bufferAndCallback, x.2.Reports) := by
    refine Or.inl ?_
    intro hmem
    simp at hmem
  refine (write_lays_out (by decide) ?_ ?_ rfl hclean (by decide) (by decide) (by decide)
    (by decide) hadd).1 (by decide +kernel)
  · intro x hx
    rcases List.mem_pair.mp hx with rfl | rfl
    · exact ⟨by decide, Or.inl (by decide)⟩
    · exact ⟨by decide, Or.inr ⟨4, by decide⟩⟩
  · intro x hx
    rcases List.mem_pair.mp hx with rfl | rfl
    · exact rfl
    · exact trivial

end CoreElfLayout
