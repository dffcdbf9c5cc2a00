import Ticosd.CoreElfLayout
import Ticosd.WriterEnds

/-! # The writer on a descriptor refines the writer on any IO object

    `CoreElfWriter` writes to an IO object that follows a schedule, `CoreElfFileIo` to
    the file IO with its limit, its counter and `errno`.  Each run of the latter that
    ends is a run of the former, on the schedule of what the calls of `prv_fio_write`
    have done: what is taken is taken, an interrupted call is made again, as is a
    refused one if `errno` happens to be `EINTR`, and any other is a failure.

    So the layout of the writer is the layout of the file (`file_laid_out`). -/

namespace WriterRefines

open CoreElf Fuel CoreElfFileIo
open CoreElfWriter (Output elfHeader Aligns layoutEnd)
open CoreElfLayout (Script Source provided toSegments LaidOut)

variable {ζ : Type} {kernel : Nat → Outcome} {fsync : Bool}

/-! ## The two states -/

/-- The output of the writer, for the state of the file. -/
structure Stands (fsync : Bool) (s : State ζ) (out : Output) : Prop where
  written : out.io.written = s.file
  sync : out.io.sync = fsync
  offset : out.writeOffset = s.writeOffset

/-- A callback, as it is for the layout. -/
def script : Callback → Script Unit
  | .ret ok => .ret ok ()
  | .write data next => .write data (fun ok => script (next ok))
  | .setErrno _ next => script next

/-- A segment's data, as they are for the layout. -/
def source : SegmentData → Source Unit
  | .buffer data => .buffer data
  | .callback fn => .callback (fun _ _ => script fn)

def toSegment (s : Segment) : CoreElfWriter.Segment Unit := ⟨s.header, (source s.data).toData⟩

/-! ## Writing all of a buffer -/

/-- `prv_io_write_all`, as a function on the output. -/
def ioWriteAll (data : List UInt8) (out : Output) : Bool × Output :=
  let t := CoreElfWriter.prvIoWriteAll out.io data
  (t.1, { out with io := t.2 })

/-- One round of it. -/
def writeRound (data : List UInt8) (out : Output) : (List UInt8 ⊕ Bool) × Output :=
  if data = [] then (.inr true, out)
  else
    let io := out.io
    match io.schedule with
    | [] => (.inl [], { out with io := { io with written := io.written ++ data } })
    | .accept n :: rest =>
        (.inl (data.drop n),
          { out with io := { io with written := io.written ++ data.take n, schedule := rest } })
    | .eintr :: rest => (.inl data, { out with io := { io with schedule := rest } })
    | .failure :: rest => (.inr false, { out with io := { io with schedule := rest } })

theorem ioWriteAll_round (data : List UInt8) (out : Output) :
    ioWriteAll data out = follow ioWriteAll (writeRound data out) := by
  obtain ⟨⟨written, schedule, sync⟩, offset⟩ := out
  rw [ioWriteAll, CoreElfWriter.prvIoWriteAll, writeRound]
  by_cases hnil : data = []
  · rw [if_pos hnil, hnil]
    cases schedule with
    | nil =>
        simp only [CoreElfWriter.writeAllLoop, List.append_nil, follow]
    | cons c rest => rfl
  · rw [if_neg hnil]
    rcases schedule with _ | ⟨_ | _ | _, rest⟩
    · simp only [CoreElfWriter.writeAllLoop, follow, ioWriteAll, CoreElfWriter.prvIoWriteAll,
        List.append_nil]
    · simp only [CoreElfWriter.writeAllLoop, if_neg hnil]
      rfl
    · simp only [CoreElfWriter.writeAllLoop, if_neg hnil]
      rfl
    · simp only [CoreElfWriter.writeAllLoop, if_neg hnil]
      rfl

/-- A round that is one call. -/
theorem writeRound_call {data : List UInt8} (hnil : data ≠ []) (c : CoreElfWriter.Choice)
    (file : List UInt8) (schedule : List CoreElfWriter.Choice) (sync : Bool) (offset : Nat) :
    writeRound data ⟨⟨file, c :: schedule, sync⟩, offset⟩ =
      match c with
      | .accept n => (.inl (data.drop n), ⟨⟨file ++ data.take n, schedule, sync⟩, offset⟩)
      | .eintr => (.inl data, ⟨⟨file, schedule, sync⟩, offset⟩)
      | .failure => (.inr false, ⟨⟨file, schedule, sync⟩, offset⟩) := by
  rw [writeRound, if_neg hnil]
  cases c with
  | accept n => rfl
  | eintr => rfl
  | failure => rfl

/-- A call that has failed, by `errno`. -/
def failed (errno : Nat) : CoreElfWriter.Choice :=
  if errno = eintr then .eintr else .failure

theorem writeRound_failed {data : List UInt8} (hnil : data ≠ []) (errno : Nat)
    (file : List UInt8) (schedule : List CoreElfWriter.Choice) (sync : Bool) (offset : Nat) :
    writeRound data ⟨⟨file, failed errno :: schedule, sync⟩, offset⟩ =
      (if errno = eintr then .inl data else .inr false, ⟨⟨file, schedule, sync⟩, offset⟩) := by
  rw [writeRound_call hnil, failed]
  by_cases he : errno = eintr
  · rw [if_pos he, if_pos he]
  · rw [if_neg he, if_neg he]

/-- **A call of `prv_fio_write`** is a call of the IO object, by what becomes of it. -/
theorem writeRound_refines (data : List UInt8) :
    Refines (Stands fsync) (Sum.map id id)
      (writeAllRound (fio kernel fsync) data : Prog (State ζ) (List UInt8 ⊕ Bool))
      (writeRound data) := by
  by_cases hnil : data = []
  · rw [writeAllRound, if_pos hnil]
    refine Refines.pure fun out => ?_
    rw [writeRound, if_pos hnil]
    rfl
  · intro n s r s' hrun out hout
    rw [writeAllRound_run kernel fsync hnil] at hrun
    obtain ⟨hr, rfl⟩ := Prod.mk.inj hrun
    obtain rfl := Option.some.inj hr
    obtain ⟨⟨written, schedule, sync⟩, offset⟩ := out
    obtain ⟨hwritten, hsync, hoffset⟩ := hout
    dsimp only at hwritten hsync hoffset
    rw [Sum.map_id_id, id]
    by_cases hfull : s.maxSize < (s.writtenSize + data.length) % 2 ^ 64
    · -- refused: `errno` is what it was
      rw [prvFioWrite_refused kernel hfull] at hwritten hoffset ⊢
      refine ⟨⟨⟨s.file, failed s.errno :: schedule, sync⟩, offset⟩, ⟨rfl, hsync, hoffset⟩, ?_⟩
      rw [writeRound_failed hnil, hwritten]
    · cases hk : kernel s.calls with
      | accept k =>
          rw [prvFioWrite_accept hfull hk] at hwritten hoffset ⊢
          refine ⟨⟨⟨s.file, .accept (min k data.length) :: schedule, sync⟩, offset⟩,
            ⟨rfl, hsync, hoffset⟩, ?_⟩
          rw [writeRound_call hnil, hwritten]
      | fail e =>
          rw [prvFioWrite_fail hfull hk] at hwritten hoffset ⊢
          refine ⟨⟨⟨s.file, failed e :: schedule, sync⟩, offset⟩, ⟨rfl, hsync, hoffset⟩, ?_⟩
          rw [writeRound_failed hnil, hwritten]

theorem ioWriteAll_refines (data : List UInt8) :
    Refines (Stands fsync) id (prvIoWriteAll (fio kernel fsync) data : Prog (State ζ) Bool)
      (ioWriteAll data) :=
  Refines.loop writeRound_refines ioWriteAll_round data

/-- A buffer, and the offset after it. -/
theorem writeAll_refines (data : List UInt8) :
    Refines (Stands fsync) id (prvWriteAll (fio kernel fsync) data : Prog (State ζ) Bool)
      (fun out => CoreElfWriter.prvWriteAll out data) := by
  refine (ioWriteAll_refines data).andThen (g := fun out =>
    (true, { out with writeOffset := (out.writeOffset + data.length) % 2 ^ 64 }))
    (Refines.act ?_) fun out => rfl
  rintro s ⟨io, offset⟩ ⟨hwritten, hsync, hoffset⟩
  refine ⟨⟨io, s.writeOffset⟩, ⟨hwritten, hsync, rfl⟩, ?_⟩
  obtain rfl : offset = (s.writeOffset + data.length) % 2 ^ 64 := hoffset
  rfl

/-! ## The writer -/

open CoreElfWriter (paddingLoop) in
/-- Fuel enough for the padding. -/
theorem paddingLoop_enough {n m : Nat} {out : Output} {padSize : Nat} (hn : padSize ≤ n)
    (hm : padSize ≤ m) : paddingLoop n out padSize = paddingLoop m out padSize := by
  induction n generalizing m out padSize with
  | zero =>
      obtain rfl : padSize = 0 := by omega
      rcases m with _ | m
      · rfl
      · rfl
  | succ n ih =>
      by_cases hzero : padSize = 0
      · subst hzero
        rcases m with _ | m
        · rfl
        · rfl
      · obtain ⟨m, rfl⟩ : ∃ k, m = k + 1 := ⟨m - 1, by omega⟩
        have hpos : 0 < CoreElfWriter.paddingWriteSize := by decide
        simp only [paddingLoop, if_neg hzero]
        split
        · rfl
        · exact ih (by omega) (by omega)

/-- One round of the padding. -/
def padRound (padSize : Nat) (out : Output) : (Nat ⊕ Bool) × Output :=
  if padSize = 0 then (.inr true, out)
  else
    let sz := min CoreElfWriter.paddingWriteSize padSize
    let t := CoreElfWriter.prvWriteAll out (List.replicate sz 0)
    if t.1 = false then (.inr false, t.2) else (.inl (padSize - sz), t.2)

theorem padRound_refines (padSize : Nat) :
    Refines (Stands fsync) (Sum.map id id)
      (paddingRound (fio kernel fsync) padSize : Prog (State ζ) (Nat ⊕ Bool))
      (padRound padSize) := by
  rw [paddingRound]
  by_cases hzero : padSize = 0
  · rw [if_pos hzero]
    refine Refines.pure fun out => ?_
    rw [padRound, if_pos hzero]
    rfl
  · rw [if_neg hzero]
    refine (writeAll_refines _).andThen (Refines.pure fun _ => rfl) fun out => ?_
    rw [padRound, if_neg hzero]
    rfl

theorem writePadding_round (padSize : Nat) (out : Output) :
    CoreElfWriter.prvWritePadding out padSize =
      follow (fun n o => CoreElfWriter.prvWritePadding o n) (padRound padSize out) := by
  rw [padRound, CoreElfWriter.prvWritePadding]
  by_cases hzero : padSize = 0
  · rw [if_pos hzero, hzero]
    rfl
  · obtain ⟨n, rfl⟩ : ∃ k, padSize = k + 1 := ⟨padSize - 1, by omega⟩
    rw [if_neg hzero, CoreElfWriter.paddingLoop, if_neg hzero]
    dsimp only
    have hpos : 0 < CoreElfWriter.paddingWriteSize := by decide
    split
    · rfl
    · exact paddingLoop_enough (by omega) (Nat.le_refl _)

theorem writePadding_refines (padSize : Nat) :
    Refines (Stands fsync) id (prvWritePadding (fio kernel fsync) padSize : Prog (State ζ) Bool)
      (fun out => CoreElfWriter.prvWritePadding out padSize) :=
  Refines.loop (f := fun n out => CoreElfWriter.prvWritePadding out n) padRound_refines
    writePadding_round padSize

/-- The result and the output, without the state of the callbacks. -/
def plain (t : Bool × Unit × Output) : Bool × Output := (t.1, t.2.2)

/-- A callback makes the same calls. -/
theorem callback_refines (fn : Callback) :
    Refines (Stands fsync) id (fn.call (fio kernel fsync) : Prog (State ζ) Bool)
      (fun out => plain ((script fn).run out)) := by
  induction fn with
  | ret ok => exact Refines.pure fun _ => rfl
  | write data next ih =>
      exact (writeAll_refines data).bind (g := fun ok out => plain ((script (next ok)).run out))
        ih fun _ => rfl
  | setErrno e next ih =>
      -- what a callback leaves in `errno` is in the schedule of the other writer
      refine Refines.bind (φ := id) (f := fun out => ((), out))
        (g := fun _ out => plain ((script next).run out)) (Refines.act ?_) (fun _ => ih)
        fun _ => rfl
      exact fun s out hout => ⟨out, ⟨hout.written, hout.sync, hout.offset⟩, rfl⟩

theorem data_refines (data : SegmentData) (header : Phdr) :
    Refines (Stands fsync) id (data.write (fio kernel fsync) header : Prog (State ζ) Bool)
      (fun out => plain ((source data).toData.write () out header)) := by
  cases data with
  | buffer data => exact writeAll_refines (data.take header.filesz)
  | callback fn => exact callback_refines fn

/-- The table of the other writer, if no call fails. -/
def tableOf (segments : List Segment) (offset : Nat) (out : Output) :
    Option (List (CoreElfWriter.Segment Unit)) × Output :=
  let t := CoreElfWriter.writeTable (segments.map toSegment) offset out
  (if t.1 = false then none else some t.2.1, t.2.2)

/-- The segment with its offset. -/
def planned (s : Segment) (offset : Nat) : Segment :=
  { s with header := { s.header with
    offset := (offset + CoreElfWriter.prvCalcPadding offset s.header) % 2 ^ 64 } }

theorem tableOf_cons (s : Segment) (rest : List Segment) (offset : Nat) (out : Output) :
    tableOf (s :: rest) offset out =
      let t := CoreElfWriter.prvWriteAll out (planned s offset).header.encode
      let next := (offset + (s.header.filesz + CoreElfWriter.prvCalcPadding offset s.header))
        % 2 ^ 64
      if t.1 = false then (none, t.2)
      else ((tableOf rest next t.2).1.map (toSegment (planned s offset) :: ·),
        (tableOf rest next t.2).2) := by
  have htable : CoreElfWriter.writeTable ((s :: rest).map toSegment) offset out =
      let t := CoreElfWriter.prvWriteAll out (planned s offset).header.encode
      if t.1 = false then (false, toSegment (planned s offset) :: rest.map toSegment, t.2)
      else
        let r := CoreElfWriter.writeTable (rest.map toSegment)
          ((offset + (s.header.filesz + CoreElfWriter.prvCalcPadding offset s.header)) % 2 ^ 64) t.2
        (r.1, toSegment (planned s offset) :: r.2.1, r.2.2) := rfl
  rw [tableOf, htable]
  dsimp only
  by_cases hfail :
      (CoreElfWriter.prvWriteAll out (planned s offset).header.encode).1 = false
  · rw [if_pos hfail, if_pos hfail]
    rfl
  · rw [if_neg hfail, if_neg hfail, tableOf]
    dsimp only
    split
    · rfl
    · rfl

theorem writeTable_refines (segments : List Segment) (offset : Nat) :
    Refines (Stands fsync) (Option.map (List.map toSegment))
      (writeTable (fio kernel fsync) segments offset : Prog (State ζ) (Option (List Segment)))
      (tableOf segments offset) := by
  induction segments generalizing offset with
  | nil => exact Refines.pure fun _ => rfl
  | cons s rest ih =>
      have hrest : ∀ next, Refines (Stands fsync) (Option.map (List.map toSegment))
          (writeTable (fio kernel fsync) rest next >>= fun table =>
            pure (table.map (planned s offset :: ·)) : Prog (State ζ) (Option (List Segment)))
          (fun out => ((tableOf rest next out).1.map (toSegment (planned s offset) :: ·),
            (tableOf rest next out).2)) := by
        intro next
        refine (ih next).bind (g := fun table out =>
          (table.map (toSegment (planned s offset) :: ·), out)) (fun table => ?_) fun _ => rfl
        refine Refines.pure fun out => ?_
        cases table with
        | none => rfl
        | some table => rfl
      exact (writeAll_refines _).andThen (hrest _) (tableOf_cons s rest offset)

/-- The place of a segment has been filled, or the writer stops. -/
theorem writeRest_refines {rest : List Segment} (hrest : Refines (Stands fsync) id
      (writeData (fio kernel fsync) rest : Prog (State ζ) Bool)
      (fun out => plain (CoreElfWriter.writeData (rest.map toSegment) () out))) (at_ : Nat) :
    Refines (Stands fsync) id
      (getWriteOffset >>= fun reached =>
        if reached ≠ at_ then pure false else writeData (fio kernel fsync) rest :
          Prog (State ζ) Bool)
      (fun out => if out.writeOffset ≠ at_ then (false, out)
        else plain (CoreElfWriter.writeData (rest.map toSegment) () out)) := by
  refine Refines.bind (φ := id) (f := fun out => (out.writeOffset, out))
    (g := fun reached out => if reached ≠ at_ then (false, out)
      else plain (CoreElfWriter.writeData (rest.map toSegment) () out))
    (Refines.read fun s out hout => ?_) (fun reached => ?_) fun _ => rfl
  · rw [hout.offset]
    rfl
  · by_cases hplace : reached ≠ at_
    · simp only [if_pos hplace, id]
      exact Refines.pure fun _ => rfl
    · simp only [if_neg hplace, id]
      exact hrest

/-- One segment and the ones behind it, from an offset. -/
def writeBlock (s : Segment) (rest : List Segment) (offset : Nat) (out : Output) :
    Bool × Output :=
  let pad := CoreElfWriter.prvWritePadding out ((2 ^ 64 + s.header.offset - offset) % 2 ^ 64)
  if pad.1 = false then (false, pad.2)
  else
    let t := plain ((source s.data).toData.write () pad.2 s.header)
    if t.1 = false then (false, t.2)
    else if t.2.writeOffset ≠ (s.header.offset + s.header.filesz) % 2 ^ 64 then (false, t.2)
    else plain (CoreElfWriter.writeData (rest.map toSegment) () t.2)

theorem writeData_block (s : Segment) (rest : List Segment) (out : Output) :
    plain (CoreElfWriter.writeData ((s :: rest).map toSegment) () out)
      = writeBlock s rest out.writeOffset out := by
  have hdata : CoreElfWriter.writeData ((s :: rest).map toSegment) () out =
      let pad := CoreElfWriter.prvWritePadding out
        ((2 ^ 64 + s.header.offset - out.writeOffset) % 2 ^ 64)
      if pad.1 = false then (false, (), pad.2)
      else
        let t := (source s.data).toData.write () pad.2 s.header
        if t.1 = false then t
        else if t.2.2.writeOffset ≠ (s.header.offset + s.header.filesz) % 2 ^ 64 then (false, t.2)
        else CoreElfWriter.writeData (rest.map toSegment) t.2.1 t.2.2 := rfl
  rw [hdata, writeBlock]
  dsimp only
  generalize CoreElfWriter.prvWritePadding out _ = pad
  obtain ⟨_ | _, out'⟩ := pad
  · rfl
  simp only [Bool.true_eq_false, if_false]
  generalize (source s.data).toData.write () out' s.header = t
  obtain ⟨_ | _, ⟨⟩, out''⟩ := t
  · rfl
  by_cases hplace : out''.writeOffset ≠ (s.header.offset + s.header.filesz) % 2 ^ 64
  · exact (congrArg plain (if_pos hplace)).trans (if_pos hplace).symm
  · exact (congrArg plain (if_neg hplace)).trans (if_neg hplace).symm

theorem writeData_refines (segments : List Segment) :
    Refines (Stands fsync) id (writeData (fio kernel fsync) segments : Prog (State ζ) Bool)
      (fun out => plain (CoreElfWriter.writeData (segments.map toSegment) () out)) := by
  induction segments with
  | nil => exact Refines.pure fun _ => rfl
  | cons s rest ih =>
      have hblock : Refines (Stands fsync) id
          (s.data.write (fio kernel fsync) s.header : Prog (State ζ) Bool)
          (fun out => plain ((source s.data).toData.write () out s.header)) :=
        data_refines s.data s.header
      have hdata := hblock.andThen (a := false)
        (writeRest_refines ih ((s.header.offset + s.header.filesz) % 2 ^ 64)) fun _ => rfl
      refine Refines.bind (φ := id) (f := fun out => (out.writeOffset, out))
        (g := writeBlock s rest) (Refines.read fun s out hout => ?_)
        (fun offset => (writePadding_refines _).andThen hdata fun _ => rfl)
        (writeData_block s rest)
      rw [hout.offset]
      rfl

/-- The rest of the file, when the table is known. -/
def writeBody (table : Option (List (CoreElfWriter.Segment Unit))) (out : Output) :
    Bool × Output :=
  match table with
  | none => (false, out)
  | some table =>
      let t := plain (CoreElfWriter.writeData table () out)
      if t.1 = false then (false, t.2) else (t.2.io.sync, t.2)

/-- The table, behind the header, and the rest. -/
def writeSegments (w : Writer) (offset : Nat) (out : Output) : Bool × Output :=
  let t := tableOf w.segments ((offset + phdrSize * w.segments.length) % 2 ^ 64) out
  writeBody t.1 t.2

/-- The writer of the other module. -/
def toWriter (w : Writer) (out : Output) : CoreElfWriter.Writer Unit where
  out := out
  eMachine := w.eMachine
  eFlags := w.eFlags
  segments := w.segments.map toSegment
  segmentsMax := 0

theorem write_parts (w : Writer) (out : Output) :
    plain (CoreElfWriter.ticosCoreElfWriterWrite (toWriter w out) ()) =
      let t := CoreElfWriter.prvWriteAll out
        (elfHeader w.eMachine w.eFlags w.segments.length).encode
      if t.1 = false then (false, t.2) else writeSegments w t.2.writeOffset t.2 := by
  have hwrite : CoreElfWriter.ticosCoreElfWriterWrite (toWriter w out) () =
      let head := CoreElfWriter.prvWriteAll out
        (elfHeader w.eMachine w.eFlags (w.segments.map toSegment).length).encode
      if head.1 = false then (false, (), head.2)
      else
        let offset := (head.2.writeOffset + phdrSize * (w.segments.map toSegment).length) % 2 ^ 64
        let table := CoreElfWriter.writeTable (w.segments.map toSegment) offset head.2
        if table.1 = false then (false, (), table.2.2)
        else
          let t := CoreElfWriter.writeData table.2.1 () table.2.2
          if t.1 = false then t else (t.2.2.io.sync, t.2) := rfl
  rw [List.length_map] at hwrite
  rw [hwrite]
  dsimp only
  generalize CoreElfWriter.prvWriteAll out _ = head
  obtain ⟨_ | _, out'⟩ := head
  · rfl
  simp only [Bool.true_eq_false, if_false, writeSegments, tableOf]
  generalize CoreElfWriter.writeTable (w.segments.map toSegment) _ out' = table
  obtain ⟨_ | _, segments, out''⟩ := table
  · rfl
  simp only [Bool.true_eq_false, if_false, writeBody]
  generalize CoreElfWriter.writeData segments () out'' = t
  obtain ⟨_ | _, ⟨⟩, last⟩ := t
  · rfl
  · rfl

theorem writeBody_refines (table : Option (List Segment)) :
    Refines (Stands fsync) id
      (match table with
        | none => pure false
        | some table => do
            if ← writeData (fio kernel fsync) table then (fio kernel fsync).sync else pure false :
          Prog (State ζ) Bool)
      (writeBody (table.map (List.map toSegment))) := by
  cases table with
  | none => exact Refines.pure fun _ => rfl
  | some table =>
      have hsync : Refines (Stands fsync) id
          ((fio kernel fsync).sync : Prog (State ζ) Bool) (fun out => (out.io.sync, out)) :=
        Refines.read fun s out hout => congrArg (·, out) hout.sync
      exact (writeData_refines table).andThen hsync fun _ => rfl

/-- **The writer on a descriptor refines the writer**: a run that ends has a result and
    leaves a file that the writer over some IO object has, too. -/
theorem write_refines (w : Writer) :
    Refines (Stands fsync) id
      (ticosCoreElfWriterWrite (fio kernel fsync) w : Prog (State ζ) Bool)
      (fun out => plain (CoreElfWriter.ticosCoreElfWriterWrite (toWriter w out) ())) := by
  refine (writeAll_refines _).andThen (g := fun out => writeSegments w out.writeOffset out)
    (Refines.bind (φ := id) (f := fun out => (out.writeOffset, out)) (g := writeSegments w)
      (Refines.read fun s out hout => ?_) (fun offset =>
        (writeTable_refines w.segments _).bind writeBody_refines fun _ => rfl) fun _ => rfl)
    (write_parts w)
  rw [hout.offset]
  rfl

/-! ## The layout of the file -/

/-- The segments, as they are for the layout. -/
def sources (w : Writer) : List (Phdr × Source Unit) :=
  w.segments.map fun s => (s.header, source s.data)

theorem script_refuses {fn : Callback} (h : fn.Fails) : (script fn).Refuses := by
  induction fn with
  | ret ok => exact h
  | write data next ih => exact fun ok => ih ok (h ok)
  | setErrno e next ih => exact ih h

theorem script_reports {fn : Callback} (h : fn.Reports) : (script fn).Reports := by
  induction fn with
  | ret ok => trivial
  | write data next ih => exact ⟨ih true h.1, script_refuses h.2⟩
  | setErrno e next ih => exact ih h

theorem source_reports {data : SegmentData} (h : data.Reports) : (source data).Reports := by
  cases data with
  | buffer data => trivial
  | callback fn => exact fun _ _ => script_reports h

/-- **The layout of the file**: if the writer on a descriptor returns true, whatever the
    kernel has done, the file is the ELF header, the headers of the segments with their
    offsets, and the data of each segment at its place. -/
theorem file_laid_out {w : Writer} (hm : w.eMachine < 2 ^ 16) (hf : w.eFlags < 2 ^ 32)
    (hok : ∀ x ∈ sources w, x.1.Ok ∧ Aligns x.1)
    (hfills : ∀ x ∈ sources w, x.2.Fills x.1.filesz)
    (hreports : ∀ s ∈ w.segments, s.data.Reports)
    (hend : layoutEnd (ehdrSize + phdrSize * (sources w).length)
      ((sources w).map Prod.fst) < 2 ^ 63)
    (hdata : ∀ data ∈ provided () (ehdrSize + phdrSize * (sources w).length)
      (sources w), data.length < 2 ^ 63)
    {maxSize errno n : Nat} {zs : ζ} {s : State ζ}
    (hrun : (ticosCoreElfWriterWrite (fio kernel fsync) w).run n
      (ticosCoreElfWriteFileIoInit maxSize zs errno) = (some true, s)) :
    ∃ table body, LaidOut (ehdrSize + phdrSize * (sources w).length) table
        (provided () (ehdrSize + phdrSize * (sources w).length) (sources w)) body ∧
      List.Forall₂ (fun q p => ∃ at_, q = { p with offset := at_ }) table
        ((sources w).map Prod.fst) ∧
      s.file = (elfHeader w.eMachine w.eFlags (sources w).length).encode
        ++ table.flatMap Phdr.encode ++ body := by
  -- the run of the other writer that ends with this file
  have hlast : Stands fsync s ⟨⟨s.file, [], fsync⟩, s.writeOffset⟩ := ⟨rfl, rfl, rfl⟩
  obtain ⟨out, hout, hwrite⟩ := write_refines w n _ true s hrun _ hlast
  obtain ⟨hresult, hafter⟩ := Prod.mk.inj hwrite
  have hsegs : (toWriter w out).segments = toSegments (sources w) := by
    rw [toSegments, sources, List.map_map]
    rfl
  have hcare : ∀ x ∈ sources w, x.2.Reports := by
    intro x hx
    obtain ⟨segment, hsegment, rfl⟩ := List.mem_map.mp hx
    exact source_reports (hreports segment hsegment)
  obtain ⟨body, hbody, hwritten⟩ := CoreElfLayout.write_laidOut hsegs hout.written hout.offset
    hm hf hok hfills (Or.inr hcare) hend hdata hresult
  refine ⟨_, body, hbody, CoreElfWriter.placed_headers _ _, ?_⟩
  rw [hafter] at hwritten
  exact hwritten

end WriterRefines
