import Ticosd.WriterRefines
import Ticosd.GzipIo

/-! # A core file behind gzip — the two ways to store it agree

    `WriterRefines` is about the writer on the file IO.  With `"compression": "gzip"` the
    writer stands on the gzip IO, and that on the file IO: three loops, one in the other,
    interrupts and short writes below, and a stream that keeps bytes back.

    What the writer relies on is little: `Carrier` is one fact about `prv_io_write_all`
    on an IO, one about its `sync`, and two about what they leave alone.  A run on any
    such IO that returns true is the run of the writer that meets nothing
    (`write_mirrors`); the file IO and the gzip IO are two of them.  So for one and the
    same core, what is stored with gzip inflates to what is stored without it, whatever
    the kernel and zlib have done on either side. -/

namespace GzipWriter

open CoreElf Fuel CoreElfFileIo GzipIo WriterRefines
open CoreElfWriter (Output elfHeader)

variable {ζ : Type}

/-! ## What the writer relies on -/

/-- A write that `avail_in` can say. -/
def Short (data : List UInt8) : Prop := data.length < 2 ^ 32

/-- An IO that has got some bytes (`Has`); when its `sync` has returned true, they are
    stored (`Done`). -/
structure Carrier (io : WriteIo ζ) (Has Done : List UInt8 → State ζ → Prop) : Prop where
  write : ∀ before data, Short data → Meets (Has before) (prvIoWriteAll io data)
    (fun ok s => ok = true → Has (before ++ data) s)
  sync : ∀ before, Meets (Has before) io.sync (fun ok s => ok = true → Done before s)
  offset : ∀ data offset, Meets (fun s : State ζ => s.writeOffset = offset)
    (prvIoWriteAll io data) (fun _ s => s.writeOffset = offset)
  frame : ∀ {before : List UInt8} {s : State ζ} (offset errno : Nat), Has before s →
    Has before { s with writeOffset := offset, errno := errno }

/-- The output for the state of the IO; nothing is going to happen to it. -/
structure Calm (Has : List UInt8 → State ζ → Prop) (s : State ζ) (out : Output) : Prop where
  has : Has out.io.written s
  offset : out.writeOffset = s.writeOffset
  schedule : out.io.schedule = []
  sync : out.io.sync = true

/-- The pieces that a callback hands over are short, as long as its calls return true. -/
def ShortPieces : Callback → Prop
  | .ret _ => True
  | .write data next => Short data ∧ ShortPieces (next true)
  | .setErrno _ next => ShortPieces next

/-- The data are written in short pieces, and a callback reports what has failed. -/
def Tame : SegmentData → Prop
  | .buffer data => Short data
  | .callback fn => ShortPieces fn ∧ fn.Reports

section Writer

variable {io : WriteIo ζ} {Has Done : List UInt8 → State ζ → Prop}

/-- `prv_io_write_all` on an IO object that takes everything. -/
theorem ioWriteAll_calm {out : Output} (h : out.io.schedule = []) (data : List UInt8) :
    ioWriteAll data out =
      (true, { out with io := { out.io with written := out.io.written ++ data } }) := by
  obtain ⟨⟨written, schedule, sync⟩, offset⟩ := out
  obtain rfl : schedule = [] := h
  rw [ioWriteAll, CoreElfWriter.prvIoWriteAll, CoreElfWriter.writeAllLoop]

theorem ioWriteAll_mirrors (hio : Carrier io Has Done) {data : List UInt8} (hdata : Short data) :
    Mirrors (Calm Has) (Calm Has) id id (prvIoWriteAll io data) (ioWriteAll data) := by
  intro out n s ok s' hs hrun hok
  rw [ioWriteAll_calm hs.schedule]
  have hhas := hio.write out.io.written data hdata n s ok s' hs.has hrun hok
  have hoffset := hio.offset data out.writeOffset n s ok s' hs.offset.symm hrun
  exact ⟨hok.symm, hhas, hoffset.symm, hs.schedule, hs.sync⟩

/-- A buffer, and the offset after it. -/
theorem writeAll_mirrors (hio : Carrier io Has Done) {data : List UInt8} (hdata : Short data) :
    Mirrors (Calm Has) (Calm Has) id id (prvWriteAll io data)
      (fun out => CoreElfWriter.prvWriteAll out data) := by
  refine (ioWriteAll_mirrors hio hdata).andThen (g := fun out =>
    (true, { out with writeOffset := (out.writeOffset + data.length) % 2 ^ 64 }))
    (Mirrors.act fun s out hs _ => ⟨rfl, ?_⟩) rfl fun out => rfl
  exact ⟨hio.frame _ s.errno hs.has, by rw [hs.offset], hs.schedule, hs.sync⟩

theorem short_header (header : Phdr) : Short header.encode :=
  Nat.lt_of_le_of_lt (LittleEndian.encodeFields_length_le phdrWidths header.fields) (by decide)

theorem short_zeros {size : Nat} (h : size ≤ CoreElfWriter.paddingWriteSize) :
    Short (List.replicate size 0) := by
  have hsize : CoreElfWriter.paddingWriteSize = 4096 := rfl
  rw [Short, List.length_replicate]
  omega

theorem padRound_mirrors (hio : Carrier io Has Done) (padSize : Nat) :
    Mirrors (Calm Has) (Calm Has) (Sum.elim (fun _ => true) id) (Sum.map id id)
      (paddingRound io padSize) (padRound padSize) := by
  rw [paddingRound]
  by_cases hzero : padSize = 0
  · rw [if_pos hzero]
    refine Mirrors.pure fun _ out => ?_
    rw [padRound, if_pos hzero]
    rfl
  · rw [if_neg hzero]
    refine (writeAll_mirrors hio (short_zeros (Nat.min_le_left _ _))).andThen
      (Mirrors.pure fun _ _ => rfl) rfl fun out => ?_
    rw [padRound, if_neg hzero]
    rfl

theorem writePadding_mirrors (hio : Carrier io Has Done) (padSize : Nat) :
    Mirrors (Calm Has) (Calm Has) id id (prvWritePadding io padSize)
      (fun out => CoreElfWriter.prvWritePadding out padSize) :=
  Mirrors.loop (f := fun n out => CoreElfWriter.prvWritePadding out n) (padRound_mirrors hio)
    writePadding_round padSize

/-- A callback that has nothing good to say any more. -/
theorem fails_yields {fn : Callback} (h : fn.Fails) :
    Yields (fun ok => ok = false) (fn.call io) := by
  induction fn with
  | ret ok => exact Yields.pure h
  | write data next ih => exact (Yields.trivial _).bind fun ok _ => ih ok (h ok)
  | setErrno e next ih => exact (Yields.trivial _).bind fun _ _ => ih h

theorem callback_mirrors (hio : Carrier io Has Done) {fn : Callback} (hshort : ShortPieces fn)
    (hreports : fn.Reports) :
    Mirrors (Calm Has) (Calm Has) id id (fn.call io) (fun out => plain ((script fn).run out)) := by
  induction fn with
  | ret ok => exact Mirrors.pure fun _ _ => rfl
  | write data next ih =>
      refine (writeAll_mirrors hio hshort.1).bind
        (g := fun ok out => plain ((script (next ok)).run out)) ?_ ?_ fun _ => rfl
      · rintro ok rfl
        exact ih true hshort.2 hreports.1
      · -- the failure of the call is the failure of the callback
        rintro ok rfl
        exact fails_yields hreports.2
  | setErrno e next ih =>
      have hset : Mirrors (Calm Has) (Calm Has) (fun _ => true) id
          (Prog.act fun s : State ζ => ((), { s with errno := e })) (fun out => ((), out)) :=
        Mirrors.act fun s out hs _ =>
          ⟨rfl, hio.frame s.writeOffset e hs.has, hs.offset, hs.schedule, hs.sync⟩
      exact hset.bind (g := fun _ out => plain ((script next).run out))
        (fun _ _ => ih hshort hreports) (fun _ h => Bool.noConfusion h) fun _ => rfl

theorem data_mirrors (hio : Carrier io Has Done) {data : SegmentData} (h : Tame data)
    (header : Phdr) :
    Mirrors (Calm Has) (Calm Has) id id (data.write io header)
      (fun out => plain ((source data).toData.write () out header)) := by
  cases data with
  | buffer data =>
      exact writeAll_mirrors hio (Nat.lt_of_le_of_lt (List.length_take_le' _ _) h)
  | callback fn => exact callback_mirrors hio h.1 h.2

theorem writeTable_mirrors (hio : Carrier io Has Done) (segments : List Segment) (offset : Nat) :
    Mirrors (Calm Has) (Calm Has) Option.isSome (Option.map (List.map toSegment))
      (writeTable io segments offset) (tableOf segments offset) := by
  induction segments generalizing offset with
  | nil => exact Mirrors.pure fun _ _ => rfl
  | cons s rest ih =>
      have hrest : ∀ next, Mirrors (Calm Has) (Calm Has) Option.isSome
          (Option.map (List.map toSegment))
          (writeTable io rest next >>= fun table => pure (table.map (planned s offset :: ·)))
          (fun out => ((tableOf rest next out).1.map (toSegment (planned s offset) :: ·),
            (tableOf rest next out).2)) := by
        intro next
        refine (ih next).bind (g := fun table out =>
          (table.map (toSegment (planned s offset) :: ·), out)) ?_ ?_ fun _ => rfl
        · rintro (_ | table) -
          · exact Mirrors.pure fun _ _ => rfl
          · exact Mirrors.pure fun _ _ => rfl
        · rintro (_ | table) hnone
          · exact Yields.pure rfl
          · exact Bool.noConfusion hnone
      exact (writeAll_mirrors hio (short_header _)).andThen (hrest _) rfl
        (tableOf_cons s rest offset)

/-- The place of a segment has been filled, or the writer stops. -/
theorem writeRest_mirrors {rest : List Segment} (hrest : Mirrors (Calm Has) (Calm Has) id id
      (writeData io rest) (fun out => plain (CoreElfWriter.writeData (rest.map toSegment) () out)))
    (at_ : Nat) :
    Mirrors (Calm Has) (Calm Has) id id
      (getWriteOffset >>= fun reached =>
        if reached ≠ at_ then pure false else writeData io rest)
      (fun out => if out.writeOffset ≠ at_ then (false, out)
        else plain (CoreElfWriter.writeData (rest.map toSegment) () out)) := by
  have hread : Mirrors (Calm Has) (Calm Has) (fun _ => true) id getWriteOffset
      (fun out => (out.writeOffset, out)) :=
    Mirrors.read fun s out hs => by rw [hs.offset]; rfl
  refine hread.bind (g := fun reached out => if reached ≠ at_ then (false, out)
      else plain (CoreElfWriter.writeData (rest.map toSegment) () out)) ?_
    (fun _ h => Bool.noConfusion h) fun _ => rfl
  intro reached _
  by_cases hplace : reached ≠ at_
  · simp only [if_pos hplace, id]
    exact Mirrors.pure fun _ _ => rfl
  · simp only [if_neg hplace, id]
    exact hrest

theorem writeData_mirrors (hio : Carrier io Has Done) {segments : List Segment}
    (h : ∀ s ∈ segments, Tame s.data) :
    Mirrors (Calm Has) (Calm Has) id id (writeData io segments)
      (fun out => plain (CoreElfWriter.writeData (segments.map toSegment) () out)) := by
  induction segments with
  | nil => exact Mirrors.pure fun _ _ => rfl
  | cons s rest ih =>
      have hlast := writeRest_mirrors (ih fun s' hs' => h s' (List.mem_cons_of_mem _ hs'))
        ((s.header.offset + s.header.filesz) % 2 ^ 64)
      have hblock := (data_mirrors hio (h s List.mem_cons_self) s.header).andThen (a := false)
        hlast rfl fun _ => rfl
      have hread : Mirrors (Calm Has) (Calm Has) (fun _ => true) id getWriteOffset
          (fun out => (out.writeOffset, out)) :=
        Mirrors.read fun s out hs => by rw [hs.offset]; rfl
      exact hread.bind (g := writeBlock s rest)
        (fun offset _ => (writePadding_mirrors hio _).andThen hblock rfl fun _ => rfl)
        (fun _ h => Bool.noConfusion h) (writeData_block s rest)

/-- The headers are written, the data stay with their segments. -/
theorem writeTable_tame {segments : List Segment} (h : ∀ s ∈ segments, Tame s.data)
    (offset : Nat) :
    Yields (fun table => ∀ segments' ∈ table, ∀ s ∈ segments', Tame s.data)
      (writeTable io segments offset) := by
  induction segments generalizing offset with
  | nil =>
      refine Yields.pure fun segments' hsome s hs => ?_
      obtain rfl : [] = segments' := Option.some.inj hsome
      exact absurd hs List.not_mem_nil
  | cons s rest ih =>
      refine (Yields.trivial _).bind fun ok _ => ?_
      cases ok with
      | false =>
          refine Yields.pure fun segments' hsome => ?_
          cases hsome
      | true =>
          refine (ih (fun s' hs' => h s' (List.mem_cons_of_mem _ hs')) _).bind fun table htable => ?_
          refine Yields.pure fun segments' hsome s' hs' => ?_
          obtain ⟨segments'', hsome', rfl⟩ := Option.map_eq_some_iff.mp hsome
          rcases List.mem_cons.mp hs' with rfl | hmem
          · exact h s List.mem_cons_self
          · exact htable segments'' hsome' s' hmem

/-- The rest of the file, when the table is known; it has to be a tame one. -/
theorem writeBody_mirrors (hio : Carrier io Has Done) (table : Option (List Segment)) :
    (∀ segments ∈ table, ∀ s ∈ segments, Tame s.data) →
    Mirrors (Calm Has) (fun s out => Done out.io.written s) id id
      (match table with
        | none => pure false
        | some table => do
            if ← writeData io table then io.sync else pure false : Prog (State ζ) Bool)
      (writeBody (table.map (List.map toSegment))) := by
  intro h
  cases table with
  | none => exact fun t => Meets.pure fun s _ hok => Bool.noConfusion hok
  | some table =>
      have hsync : Mirrors (Calm Has) (fun s out => Done out.io.written s) id id io.sync
          (fun out => (out.io.sync, out)) := fun out n s ok s' hs hrun hok =>
        ⟨hs.sync.trans hok.symm, hio.sync out.io.written n s ok s' hs.has hrun hok⟩
      exact (writeData_mirrors hio (h table rfl)).andThen hsync rfl fun _ => rfl

/-- **A run that returns true** is the run of the writer that meets nothing. -/
theorem write_mirrors (hio : Carrier io Has Done) {w : Writer} (h : ∀ s ∈ w.segments, Tame s.data) :
    Mirrors (Calm Has) (fun s out => Done out.io.written s) id id
      (ticosCoreElfWriterWrite io w)
      (fun out => plain (CoreElfWriter.ticosCoreElfWriterWrite (toWriter w out) ())) := by
  have hheader : Short (elfHeader w.eMachine w.eFlags w.segments.length).encode := by
    have hfields := LittleEndian.encodeFields_length_le ehdrWidths
      (elfHeader w.eMachine w.eFlags w.segments.length).fields
    have hsum : ehdrWidths.sum = 48 := rfl
    have hident : (elfHeader w.eMachine w.eFlags w.segments.length).ident.length = 16 := rfl
    rw [Short, Ehdr.encode, List.length_append]
    omega
  have hread : Mirrors (Calm Has) (Calm Has) (fun _ => true) id getWriteOffset
      (fun out => (out.writeOffset, out)) :=
    Mirrors.read fun s out hs => by rw [hs.offset]; rfl
  refine (writeAll_mirrors hio hheader).andThen (g := fun out => writeSegments w out.writeOffset out)
    (hread.bind (g := writeSegments w) (fun offset _ => ?_) (fun _ h => Bool.noConfusion h)
      fun _ => rfl) rfl (write_parts w)
  exact (writeTable_mirrors hio w.segments _).bindOf (writeTable_tame h _)
    (g := writeBody) (fun table htable _ => writeBody_mirrors hio table htable)
    (fun table hnone => by
      cases table with
      | none => exact Yields.pure rfl
      | some table => exact Bool.noConfusion hnone)
    fun _ => rfl

end Writer

/-! ## The file IO -/

section File

variable {kernel : Nat → Outcome} {fsync : Bool}

theorem fio_offset (data : List UInt8) (offset : Nat) :
    Keeps (fun s : State ζ => s.writeOffset = offset) ((fio kernel fsync).write data) := by
  refine Keeps.act fun s hs => ?_
  by_cases hrefused : s.maxSize < (s.writtenSize + data.length) % 2 ^ 64
  · rw [prvFioWrite_refused kernel hrefused]
    exact hs
  · cases hk : kernel s.calls with
    | accept n =>
        rw [prvFioWrite_accept hrefused hk]
        exact hs
    | fail e =>
        rw [prvFioWrite_fail hrefused hk]
        exact hs

/-- What the writer has written stands in the file. -/
theorem fio_carrier : Carrier (fio kernel fsync : WriteIo ζ) (fun before s => s.file = before)
    (fun before s => s.file = before) where
  write before data _ := by
    intro n s ok s' hs hrun hok
    obtain ⟨hfile, -⟩ := fio_takes.appends data s.file s.zs s.nextIn n s ok s' ⟨rfl, rfl, rfl⟩
      hrun hok
    rw [hfile, hs]
  sync before := Meets.pure fun s hs _ => hs
  offset data offset := (prvIoWriteAll_keeps (fio_offset · offset) data).meets
  frame _ _ h := h

end File

/-! ## The gzip IO -/

section Gzip

variable {deflate : Deflate ζ} {inflate : List UInt8 → Option (List UInt8)} {z₀ : ζ}
  {kernel : Nat → Outcome} {fsync : Bool} {io next : WriteIo ζ}

/-- `prv_io_write_all` gives up only if `errno` is not `EINTR`. -/
theorem writeAll_errno (data : List UInt8) :
    Meets (fun _ => True) (prvIoWriteAll io data) (fun ok s => ok = false → s.errno ≠ eintr) := by
  refine Meets.loop (fun _ _ => True) ?_ data
  intro rest
  rw [writeAllRound]
  by_cases hrest : rest = []
  · rw [if_pos hrest]
    exact Meets.pure fun s _ h => Bool.noConfusion h
  · rw [if_neg hrest]
    refine Meets.bind (Q := fun _ _ => True) (fun _ _ _ _ _ _ => trivial) ?_
    rintro (_ | n)
    · refine Meets.bind (Q := fun e s => s.errno = e) (Meets.act fun s _ => rfl) ?_
      intro e
      by_cases he : e = eintr
      · rw [if_pos he]
        exact Meets.pure fun s _ => trivial
      · rw [if_neg he]
        exact Meets.pure fun s hs _ => hs.symm ▸ he
    · exact Meets.pure fun s _ => trivial

/-- A write to the gzip IO: if it fails, it is not made again; else it says that all has been
    taken, and the stream is open. -/
theorem gzWrite_open (progress : Progress deflate) (hnext : Appends next) (data : List UInt8) :
    Meets (fun s : State ζ => progress.Open s.zs) ((gzio deflate next).write data)
      (fun r s => (r = none → s.errno ≠ eintr) ∧
        ∀ k, r = some k → k = data.length ∧ progress.Open s.zs) := by
  have hloop : Meets (fun s : State ζ => progress.Open s.zs)
      (Prog.loop (gzipRound deflate next) ())
      (fun ok s => (ok = false → s.errno ≠ eintr) ∧ (ok = true → progress.Open s.zs)) := by
    refine Meets.loop (fun _ (s : State ζ) => progress.Open s.zs) ?_ ()
    rintro ⟨⟩
    refine Meets.bind (Q := fun availIn (s : State ζ) => progress.Open s.zs ∧ s.nextIn = availIn)
      (Meets.act fun s hs => ⟨hs, rfl⟩) ?_
    intro availIn
    by_cases hempty : availIn = []
    · rw [if_pos hempty]
      exact Meets.pure fun s hs => ⟨fun h => Bool.noConfusion h, fun _ => hs.1⟩
    · rw [if_neg hempty]
      refine Meets.bind (Q := fun p (s : State ζ) => p.1 = zOk ∧ progress.Open s.zs)
        (Meets.act ?_) ?_
      · rintro s ⟨hs, rfl⟩
        obtain ⟨hrv, hopen, -⟩ := progress.noFlush s.zs s.nextIn hs hempty
        exact ⟨hrv, hopen⟩
      · rintro ⟨rv, out⟩
        dsimp only
        by_cases hrv : rv ≠ zOk
        · rw [if_pos hrv]
          exact Meets.pure fun s hs => absurd hs.1 hrv
        · rw [if_neg hrv]
          refine Meets.bind (Q := fun ok s => (ok = false → s.errno ≠ eintr) ∧
            (ok = true → progress.Open s.zs)) ?_ ?_
          · intro n s ok s' hs hrun
            refine ⟨writeAll_errno out n s ok s' trivial hrun, fun hok => ?_⟩
            obtain ⟨-, hzs, -⟩ := hnext out s.file s.zs s.nextIn n s ok s' ⟨rfl, rfl, rfl⟩ hrun hok
            rw [hzs]
            exact hs.2
          · rintro (_ | _)
            · exact Meets.pure fun s hs => ⟨fun _ => hs.1 rfl, fun h => Bool.noConfusion h⟩
            · exact Meets.pure fun s hs => hs.2 rfl
  refine Meets.bind (Q := fun _ s => progress.Open s.zs) (Meets.act fun s hs => hs) ?_
  rintro ⟨⟩
  refine hloop.bind ?_
  rintro (_ | _)
  · exact Meets.pure fun s hs => ⟨fun _ => hs.1 rfl, fun k h => absurd h (by simp)⟩
  · refine Meets.pure fun s hs => ⟨fun h => absurd h (by simp), fun k h => ?_⟩
    exact ⟨(Option.some.inj h).symm, hs.2 rfl⟩

/-- The stream has got the bytes, and is open. -/
def Held (progress : Progress deflate) (z₀ : ζ) (before : List UInt8) (s : State ζ) : Prop :=
  Idle deflate z₀ before s.file s.zs s.nextIn ∧ progress.Open s.zs

theorem gzWrite_held (progress : Progress deflate) (hnext : Appends next) (before : List UInt8)
    {data : List UInt8} (hdata : Short data) :
    Meets (Held progress z₀ before) ((gzio deflate next).write data)
      (fun r s => (r = none → s.errno ≠ eintr) ∧
        ∀ k, r = some k → k = data.length ∧ Held progress z₀ (before ++ data) s) := by
  refine ((write_meets hnext before data).and (gzWrite_open progress hnext data)).weaken
    (fun s hs => hs) ?_
  rintro r s ⟨hidle, herrno, hopen⟩
  refine ⟨herrno, fun k hk => ?_⟩
  obtain ⟨rfl, hzs⟩ := hopen k hk
  rw [received_of_short hdata] at hidle
  exact ⟨rfl, hidle hk, hzs⟩

theorem gzWriteAll_held (progress : Progress deflate) (hnext : Appends next)
    (before : List UInt8) {data : List UInt8} (hdata : Short data) :
    Meets (Held progress z₀ before) (prvIoWriteAll (gzio deflate next) data)
      (fun ok s => ok = true → Held progress z₀ (before ++ data) s) := by
  let Inv : List UInt8 → State ζ → Prop := fun rest s =>
    ∃ front, front ++ rest = data ∧ Held progress z₀ (before ++ front) s
  refine (Meets.loop Inv ?_ data).weaken (fun s hs => ⟨[], rfl, by rwa [List.append_nil]⟩)
    fun _ _ h => h
  intro rest
  rw [writeAllRound]
  by_cases hrest : rest = []
  · rw [if_pos hrest]
    refine Meets.pure ?_
    rintro s ⟨front, rfl, hheld⟩ -
    rw [hrest, List.append_nil]
    exact hheld
  · rw [if_neg hrest]
    refine Meets.bind (Q := fun r s => (r = none → s.errno ≠ eintr) ∧
      ∀ k, r = some k → Inv (rest.drop k) s) ?_ ?_
    · rintro n s r s' ⟨front, rfl, hheld⟩ hrun
      have hshort : Short rest := Nat.lt_of_le_of_lt (by simp) hdata
      obtain ⟨herrno, hnow⟩ :=
        gzWrite_held progress hnext (before ++ front) hshort n s r s' hheld hrun
      refine ⟨herrno, fun k hk => ?_⟩
      obtain ⟨rfl, hheld'⟩ := hnow k hk
      refine ⟨front ++ rest, by rw [List.drop_length, List.append_nil], ?_⟩
      rw [← List.append_assoc]
      exact hheld'
    · rintro (_ | k)
      · refine Meets.bind (Q := fun e _ => e ≠ eintr) (Meets.act fun s hs => hs.1 rfl) ?_
        intro e
        by_cases he : e = eintr
        · rw [if_pos he]
          exact Meets.pure fun s hs => absurd he hs
        · rw [if_neg he]
          exact Meets.pure fun s _ h => Bool.noConfusion h
      · exact Meets.pure fun s hs => hs.2 k rfl

/-- What the next IO keeps, the gzip IO keeps. -/
theorem gzio_keeps {Inv : State ζ → Prop} (hnext : ∀ data, Keeps Inv (next.write data))
    (hframe : ∀ (s : State ζ) zs nextIn, Inv s → Inv { s with zs := zs, nextIn := nextIn }) :
    (∀ data, Keeps Inv ((gzio deflate next).write data)) ∧
      Keeps Inv (gzio deflate next).sync := by
  have hdeflate : ∀ flush, Keeps Inv (callDeflate deflate flush) :=
    fun flush => Keeps.act fun s hs => hframe s _ _ hs
  constructor
  · intro data
    refine Keeps.bind (Keeps.act fun s hs => hframe s s.zs _ hs) fun _ => ?_
    refine Keeps.bind (Keeps.loop (fun _ => ?_) ()) fun ok => ?_
    · refine Keeps.bind (Keeps.act fun _ hs => hs) fun availIn => ?_
      split
      · exact Keeps.pure _
      · refine (hdeflate _).bind ?_
        rintro ⟨rv, out⟩
        dsimp only
        split
        · exact Keeps.pure _
        · refine (prvIoWriteAll_keeps hnext out).bind fun ok => ?_
          split
          · exact Keeps.pure _
          · exact Keeps.pure _
    · split
      · exact Keeps.pure _
      · exact Keeps.pure _
  · refine Keeps.loop (fun _ => ?_) ()
    refine (hdeflate _).bind ?_
    rintro ⟨rv, out⟩
    dsimp only
    split
    · exact Keeps.pure _
    · refine (prvIoWriteAll_keeps hnext out).bind ?_
      rintro (_ | _)
      · exact Keeps.pure _
      · show Keeps Inv (if rv = zStreamEnd then _ else _)
        split
        · exact Keeps.pure _
        · exact Keeps.pure _

/-- What the writer has written has gone into the stream; after the sync, it is what the
    file inflates to. -/
theorem gzio_carrier (hz : Inflates deflate inflate z₀) (progress : Progress deflate) :
    Carrier (gzio deflate (fio kernel fsync)) (Held progress z₀)
      (fun before s => inflate s.file = some before) where
  write before _ hdata := gzWriteAll_held progress fio_takes.appends before hdata
  sync before := (sync_meets fio_takes.appends hz before).weaken (fun _ hs => hs.1) fun _ _ h => h
  offset data offset := (prvIoWriteAll_keeps
    (gzio_keeps (fio_offset · offset) fun _ _ _ hs => hs).1 data).meets
  frame _ _ h := h

end Gzip

/-! ## What is stored -/

/-- The writer that meets nothing. -/
def calmWriter (w : Writer) : Bool × Unit × Output :=
  CoreElfWriter.ticosCoreElfWriterWrite (toWriter w ⟨⟨[], [], true⟩, 0⟩) ()

theorem Carrier.stores {io : WriteIo ζ} {Has Done : List UInt8 → State ζ → Prop}
    (hio : Carrier io Has Done) {w : Writer} (h : ∀ s ∈ w.segments, Tame s.data)
    {maxSize errno n : Nat} {zs : ζ} {s : State ζ}
    (hhas : Has [] (ticosCoreElfWriteFileIoInit maxSize zs errno))
    (hrun : (ticosCoreElfWriterWrite io w).run n (ticosCoreElfWriteFileIoInit maxSize zs errno)
      = (some true, s)) :
    (calmWriter w).1 = true ∧ Done (calmWriter w).2.2.io.written s :=
  write_mirrors hio h ⟨⟨[], [], true⟩, 0⟩ n _ true s ⟨hhas, rfl, rfl, rfl⟩ hrun rfl

section Stored

variable {deflate : Deflate ζ} {inflate : List UInt8 → Option (List UInt8)} {z₀ : ζ}
  {kernel : Nat → Outcome} {fsync : Bool}

theorem gzip_stores (hz : Inflates deflate inflate z₀) (progress : Progress deflate)
    (hopen : progress.Open z₀) {w : Writer} (h : ∀ s ∈ w.segments, Tame s.data)
    {maxSize errno n : Nat} {s : State ζ}
    (hrun : (ticosCoreElfWriterWrite (gzio deflate (fio kernel fsync)) w).run n
      (ticosCoreElfWriteFileIoInit maxSize z₀ errno) = (some true, s)) :
    (calmWriter w).1 = true ∧ inflate s.file = some (calmWriter w).2.2.io.written :=
  (gzio_carrier hz progress).stores h ⟨⟨Stream.opened, rfl⟩, hopen⟩ hrun

theorem file_stores {w : Writer} (h : ∀ s ∈ w.segments, Tame s.data) {maxSize errno n : Nat}
    {zs : ζ} {s : State ζ}
    (hrun : (ticosCoreElfWriterWrite (fio kernel fsync) w).run n
      (ticosCoreElfWriteFileIoInit maxSize zs errno) = (some true, s)) :
    (calmWriter w).1 = true ∧ s.file = (calmWriter w).2.2.io.written :=
  fio_carrier.stores h rfl hrun

/-- **The two ways to store a core agree**: if the writer returns true on the gzip IO over
    a file, and on a file without it, with any two kernels, limits and values of `errno`,
    then the one file inflates to the other. -/
theorem gzip_agrees_with_plain (hz : Inflates deflate inflate z₀) (progress : Progress deflate)
    (hopen : progress.Open z₀) {w : Writer} (h : ∀ s ∈ w.segments, Tame s.data)
    {maxSize errno n : Nat} {s : State ζ}
    (hgzip : (ticosCoreElfWriterWrite (gzio deflate (fio kernel fsync)) w).run n
      (ticosCoreElfWriteFileIoInit maxSize z₀ errno) = (some true, s))
    {kernel' : Nat → Outcome} {fsync' : Bool} {maxSize' errno' n' : Nat} {s' : State Unit}
    (hplain : (ticosCoreElfWriterWrite (fio kernel' fsync') w).run n'
      (ticosCoreElfWriteFileIoInit maxSize' () errno') = (some true, s')) :
    inflate s.file = some s'.file := by
  rw [(file_stores h hplain).2]
  exact (gzip_stores hz progress hopen h hgzip).2

end Stored

/-- The table compressor makes progress: it collects, and then puts out what is left. -/
def tableProgress : Progress tableDeflate where
  Open zs := zs.left = none
  Finishing _ := True
  work zs nextIn :=
    zs.left.elim ((tableGzip (zs.input ++ nextIn)).length + nextIn.length + 1) List.length
  finishing _ _ := trivial
  noFlush := by
    rintro ⟨input, left⟩ nextIn hopen hne
    obtain rfl : left = none := hopen
    have hpos := List.length_pos_iff.mpr hne
    refine ⟨rfl, rfl, ?_⟩
    show (tableGzip ((input ++ nextIn) ++ nextIn.drop nextIn.length)).length
      + (nextIn.drop nextIn.length).length + 1 < (tableGzip (input ++ nextIn)).length + nextIn.length + 1
    rw [List.drop_length, List.append_nil, List.length_nil]
    omega
  finish := by
    rintro ⟨input, left⟩ nextIn -
    cases left with
    | none =>
        by_cases hfits : (tableGzip (input ++ nextIn)).length ≤ gzipCompressionBufferSize
        · exact Or.inl (if_pos hfits)
        · refine Or.inr ⟨if_neg hfits, trivial, ?_⟩
          show ((tableGzip (input ++ nextIn)).drop gzipCompressionBufferSize).length
            < (tableGzip (input ++ nextIn)).length + nextIn.length + 1
          rw [List.length_drop]
          omega
    | some left =>
        by_cases hfits : left.length ≤ gzipCompressionBufferSize
        · exact Or.inl (if_pos hfits)
        · refine Or.inr ⟨if_neg hfits, trivial, ?_⟩
          have hbuffer : gzipCompressionBufferSize = 4096 := rfl
          show (left.drop gzipCompressionBufferSize).length < left.length
          rw [List.length_drop]
          omega

/-- A note of three bytes, and a LOAD segment that is copied in two pieces; the first
    `pread` was interrupted. -/
def noteAndLoad : Writer where
  eMachine := 62
  eFlags := 0
  segments := [⟨⟨ptNote, 0, 0, 0, 0, 3, 0, 0⟩, .buffer [1, 2, 3]⟩,
    ⟨⟨1, 6, 0, 4096, 0, 3, 3, 16⟩, .callback (copying [(eintr, [7, 8]), (0, [9])])⟩]

/-- The two runs: with gzip the kernel is interrupted once, without it takes single
    bytes at first. -/
def noteAndLoadGzip : Option Bool × State TableStream :=
  (ticosCoreElfWriterWrite (gzio tableDeflate (fio interruptedOnce true)) noteAndLoad).run 20
    (ticosCoreElfWriteFileIoInit 4096 ⟨[], none⟩ 0)

def noteAndLoadPlain : Option Bool × State Unit :=
  (ticosCoreElfWriterWrite (fio (fun i => .accept (i + 1)) true) noteAndLoad).run 80
    (ticosCoreElfWriteFileIoInit 4096 () eintr)

theorem run_eq {α σ : Type} {r : Option α × σ} {a : α} (h : r.1 = some a) : r = (some a, r.2) :=
  Prod.ext h rfl

theorem gzip_agrees_with_plain_small :
    tableInflate noteAndLoadGzip.2.file = some noteAndLoadPlain.2.file := by
  refine gzip_agrees_with_plain table_inflates tableProgress rfl (w := noteAndLoad) ?_
    (run_eq (r := noteAndLoadGzip) (by decide +kernel))
    (run_eq (r := noteAndLoadPlain) (by decide +kernel))
  intro s hs
  rcases List.mem_pair.mp hs with rfl | rfl
  · show ([1, 2, 3] : List UInt8).length < 2 ^ 32
    decide
  · have hfirst : Short [7, 8] := by
      show ([7, 8] : List UInt8).length < 2 ^ 32
      decide
    have hsecond : Short [9] := by
      show ([9] : List UInt8).length < 2 ^ 32
      decide
    exact ⟨⟨hfirst, hsecond, trivial⟩, copying_reports _⟩

end GzipWriter
