import Ticosd.CoreElfWriter
import Ticosd.Fuel

/-! # Core files on a descriptor — the IO objects of `core_elf_writer.c`

    The file IO takes no more than `max_size` bytes; it counts in `written_size` what
    `write(2)` returns.  The gzip IO compresses in a buffer of 4096 bytes and writes
    to a further IO.  `prv_io_write_all` stands on both layers and asks `errno`
    whether a call that has failed is to be made again, so the loops need not end:
    programs take fuel.

    The kernel and `deflate` are not part of this code; they are parameters.  The
    file IO makes a note of every call, which is the only addition to the code.
    Writing a message to `stderr` leaves `errno` as it is. -/

namespace CoreElfFileIo

open CoreElf Fuel
open CoreElfWriter (prvCalcPadding paddingWriteSize elfHeader)

/-! ## State -/

/-- `EINTR`. -/
def eintr : Nat := 4

/-- What a call of `write(2)` does: it takes some of the bytes, or fails. -/
inductive Outcome where
  | accept (n : Nat)
  | fail (errno : Nat)
  deriving DecidableEq

/-- `written_size`, and the bytes that the kernel has really taken. -/
structure Counters where
  writtenSize : Nat
  taken : Nat
  deriving DecidableEq

/-- A call of `prv_fio_write`: its `size`, `errno` before it, the outcome of `write(2)`,
    or `none` if the code has refused, and the counters before and after. -/
structure Call where
  size : Nat
  errno : Nat
  outcome : Option Outcome
  before : Counters
  after : Counters
  deriving DecidableEq

/-- The file IO, the gzip stream with `next_in`, `write_offset` and `errno`; the number of
    calls of `write(2)`, what stands in the file, and the calls of `prv_fio_write`, the
    last one first. -/
structure State (ζ : Type) where
  maxSize : Nat
  writtenSize : Nat
  zs : ζ
  nextIn : List UInt8
  writeOffset : Nat
  errno : Nat
  calls : Nat
  file : List UInt8
  log : List Call

/-- `ticos_core_elf_write_file_io_init`, for an empty file. -/
def ticosCoreElfWriteFileIoInit {ζ : Type} (maxSize : Nat) (zs : ζ) (errno : Nat) :
    State ζ where
  maxSize := maxSize
  writtenSize := 0
  zs := zs
  nextIn := []
  writeOffset := 0
  errno := errno
  calls := 0
  file := []
  log := []

variable {ζ : Type}

/-- The counters of a state. -/
def State.counters (s : State ζ) : Counters := ⟨s.writtenSize, s.file.length⟩

/-! ## Writing all of a buffer -/

/-- `sTicosCoreElfWriteIO`: `write` returns `none` for `-1`. -/
structure WriteIo (ζ : Type) where
  write : List UInt8 → Prog (State ζ) (Option Nat)
  sync : Prog (State ζ) Bool

/-- `errno`. -/
def getErrno : Prog (State ζ) Nat := Prog.act (fun s => (s.errno, s))

/-- A round of `prv_io_write_all`, on what is still to be written. -/
def writeAllRound (io : WriteIo ζ) (data : List UInt8) : Prog (State ζ) (List UInt8 ⊕ Bool) :=
  if data = [] then pure (.inr true)
  else do
    match ← io.write data with
    | none =>
        let e ← getErrno
        if e = eintr then pure (.inl data) else pure (.inr false)
    | some n => pure (.inl (data.drop n))

/-- `prv_io_write_all`. -/
def prvIoWriteAll (io : WriteIo ζ) (data : List UInt8) : Prog (State ζ) Bool :=
  Prog.loop (writeAllRound io) data

/-! ## The file IO -/

/-- A `size_t` to which the result `-1` of `write(2)` is added. -/
def addMinusOne : Nat → Nat
  | 0 => 2 ^ 64 - 1
  | n + 1 => n

theorem addMinusOne_eq {size : Nat} (h : size < 2 ^ 64) :
    addMinusOne size = (size + (2 ^ 64 - 1)) % 2 ^ 64 := by
  rcases size with _ | n
  · rfl
  · rw [addMinusOne]
    omega

/-- `prv_fio_write`. -/
def prvFioWrite (kernel : Nat → Outcome) (data : List UInt8) (s : State ζ) :
    Option Nat × State ζ :=
  if s.maxSize < (s.writtenSize + data.length) % 2 ^ 64 then
    (none, { s with log := ⟨data.length, s.errno, none, s.counters, s.counters⟩ :: s.log })
  else
    match kernel s.calls with
    | .accept n =>
        let bytes := min n data.length
        let after : Counters := ⟨(s.writtenSize + bytes) % 2 ^ 64, s.file.length + bytes⟩
        (some bytes,
          { s with
            writtenSize := (s.writtenSize + bytes) % 2 ^ 64
            calls := s.calls + 1
            file := s.file ++ data.take bytes
            log := ⟨data.length, s.errno, some (.accept n), s.counters, after⟩ :: s.log })
    | .fail e =>
        let after : Counters := ⟨addMinusOne s.writtenSize, s.file.length⟩
        (none,
          { s with
            writtenSize := addMinusOne s.writtenSize
            errno := e
            calls := s.calls + 1
            log := ⟨data.length, s.errno, some (.fail e), s.counters, after⟩ :: s.log })

/-- `prv_fio_sync`; `fsync` is the result of `fsync(2)`. -/
def prvFioSync (fsync : Bool) : Prog (State ζ) Bool := pure fsync

/-- `sTicosCoreElfWriteFileIO`. -/
def fio (kernel : Nat → Outcome) (fsync : Bool) : WriteIo ζ where
  write data := Prog.act (prvFioWrite kernel data)
  sync := prvFioSync fsync

/-! ## The gzip IO -/

/-- `Z_OK` and `Z_STREAM_END`. -/
def zOk : Int := 0

def zStreamEnd : Int := 1

/-- What `deflate` does: its result, how much of `next_in` it takes, what it puts out,
    and the stream afterwards. -/
structure Deflated (ζ : Type) where
  rv : Int
  consumed : Nat
  out : List UInt8
  zs : ζ

/-- `Z_NO_FLUSH` and `Z_FINISH`. -/
inductive Flush where
  | noFlush
  | finish
  deriving DecidableEq

/-- `deflate`, on the stream, `next_in` and `avail_out`. -/
abbrev Deflate (ζ : Type) := Flush → ζ → List UInt8 → Nat → Deflated ζ

/-- `GZIP_COMPRESSION_BUFFER_SIZE`. -/
def gzipCompressionBufferSize : Nat := 4096

/-- A call of `deflate` with an empty buffer. -/
def callDeflate (deflate : Deflate ζ) (flush : Flush) : Prog (State ζ) (Int × List UInt8) :=
  Prog.act fun s =>
    let d := deflate flush s.zs s.nextIn gzipCompressionBufferSize
    ((d.rv, d.out), { s with zs := d.zs, nextIn := s.nextIn.drop d.consumed })

/-- A round of the loop of `prv_write`: whether the loop ends, and whether it ends well. -/
def gzipRound (deflate : Deflate ζ) (next : WriteIo ζ) (_ : Unit) :
    Prog (State ζ) (Unit ⊕ Bool) := do
  let availIn ← Prog.act (fun s : State ζ => (s.nextIn, s))
  if availIn = [] then pure (.inr true)
  else
    let (rv, buffer) ← callDeflate deflate .noFlush
    if rv ≠ zOk then pure (.inr false)
    else if ← prvIoWriteAll next buffer then pure (.inl ()) else pure (.inr false)

/-- `prv_write` of the gzip IO; `avail_in` has 32 bits. -/
def prvWrite (deflate : Deflate ζ) (next : WriteIo ζ) (data : List UInt8) :
    Prog (State ζ) (Option Nat) := do
  Prog.act (fun s : State ζ => ((), { s with nextIn := data.take (data.length % 2 ^ 32) }))
  if ← Prog.loop (gzipRound deflate next) () then pure (some data.length) else pure none

/-- A round of the loop of `prv_sync`. -/
def finishRound (deflate : Deflate ζ) (next : WriteIo ζ) (_ : Unit) :
    Prog (State ζ) (Unit ⊕ Bool) := do
  let (rv, buffer) ← callDeflate deflate .finish
  if rv ≠ zOk ∧ rv ≠ zStreamEnd then pure (.inr false)
  else if ← prvIoWriteAll next buffer then
    if rv = zStreamEnd then pure (.inr true) else pure (.inl ())
  else pure (.inr false)

/-- `prv_sync` of the gzip IO. -/
def prvSync (deflate : Deflate ζ) (next : WriteIo ζ) : Prog (State ζ) Bool :=
  Prog.loop (finishRound deflate next) ()

/-- `sTicosCoreElfWriteGzipIO`. -/
def gzio (deflate : Deflate ζ) (next : WriteIo ζ) : WriteIo ζ where
  write := prvWrite deflate next
  sync := prvSync deflate next

/-! ## The writer -/

/-- `prv_write_all`. -/
def prvWriteAll (io : WriteIo ζ) (data : List UInt8) : Prog (State ζ) Bool := do
  if ← prvIoWriteAll io data then
    Prog.act (fun s : State ζ =>
      (true, { s with writeOffset := (s.writeOffset + data.length) % 2 ^ 64 }))
  else pure false

/-- A round of `prv_write_padding`. -/
def paddingRound (io : WriteIo ζ) (padSize : Nat) : Prog (State ζ) (Nat ⊕ Bool) :=
  if padSize = 0 then pure (.inr true)
  else do
    let sz := min paddingWriteSize padSize
    if ← prvWriteAll io (List.replicate sz 0) then pure (.inl (padSize - sz))
    else pure (.inr false)

/-- `prv_write_padding`. -/
def prvWritePadding (io : WriteIo ζ) (padSize : Nat) : Prog (State ζ) Bool :=
  Prog.loop (paddingRound io) padSize

/-- What a `TicosCoreWriterSegmentDataCallback` does: it calls
    `ticos_core_elf_writer_write_segment_data` any number of times, looks at the results,
    does things of its own that set `errno`, and returns. -/
inductive Callback where
  | ret (ok : Bool)
  | write (data : List UInt8) (next : Bool → Callback)
  | setErrno (errno : Nat) (next : Callback)

/-- The callback on a writer. -/
def Callback.call (io : WriteIo ζ) : Callback → Prog (State ζ) Bool
  | .ret ok => pure ok
  | .write data next => do
      let ok ← prvWriteAll io data
      (next ok).call io
  | .setErrno e next => do
      Prog.act (fun s : State ζ => ((), { s with errno := e }))
      next.call io

/-- The data of a segment. -/
inductive SegmentData where
  | buffer (data : List UInt8)
  | callback (fn : Callback)

/-- `sTicosCoreElfWriterSegment`. -/
structure Segment where
  header : Phdr
  data : SegmentData

/-- `sTicosCoreElfWriter`, with the segments that have been added. -/
structure Writer where
  eMachine : Nat
  eFlags : Nat
  segments : List Segment

/-- The segment table; the segments with their offsets, or `none` if a call fails. -/
def writeTable (io : WriteIo ζ) : List Segment → Nat → Prog (State ζ) (Option (List Segment))
  | [], _ => pure (some [])
  | s :: rest, offset => do
      let padSize := prvCalcPadding offset s.header
      let header := { s.header with offset := (offset + padSize) % 2 ^ 64 }
      if ← prvWriteAll io header.encode then
        let table ← writeTable io rest ((offset + (header.filesz + padSize)) % 2 ^ 64)
        pure (table.map ({ s with header := header } :: ·))
      else pure none

/-- The data of one segment. -/
def SegmentData.write (io : WriteIo ζ) (header : Phdr) : SegmentData → Prog (State ζ) Bool
  | .buffer data => prvWriteAll io (data.take header.filesz)
  | .callback fn => fn.call io

/-- `write_offset`. -/
def getWriteOffset : Prog (State ζ) Nat := Prog.act (fun s => (s.writeOffset, s))

/-- The data blocks, each at its planned place. -/
def writeData (io : WriteIo ζ) : List Segment → Prog (State ζ) Bool
  | [] => pure true
  | s :: rest => do
      let offset ← getWriteOffset
      if ← prvWritePadding io ((2 ^ 64 + s.header.offset - offset) % 2 ^ 64) then
        if ← s.data.write io s.header then
          let reached ← getWriteOffset
          if reached ≠ (s.header.offset + s.header.filesz) % 2 ^ 64 then pure false
          else writeData io rest
        else pure false
      else pure false

/-- `ticos_core_elf_writer_write`. -/
def ticosCoreElfWriterWrite (io : WriteIo ζ) (w : Writer) : Prog (State ζ) Bool := do
  let numSegments := w.segments.length
  if ← prvWriteAll io (elfHeader w.eMachine w.eFlags numSegments).encode then
    let offset ← getWriteOffset
    match ← writeTable io w.segments ((offset + phdrSize * numSegments) % 2 ^ 64) with
    | none => pure false
    | some table =>
        if ← writeData io table then io.sync else pure false
  else pure false

/-! ## The size limit -/

/-- Some buffers, one after the other, whatever the results are. -/
def writeSequence (io : WriteIo ζ) : List (List UInt8) → Prog (State ζ) (List Bool)
  | [] => pure []
  | data :: rest => do
      let ok ← prvIoWriteAll io data
      let oks ← writeSequence io rest
      pure (ok :: oks)

/-- After the call, `written_size` is what has been taken, and is in the limit. -/
def Call.Counted (maxSize : Nat) (c : Call) : Prop :=
  c.after.writtenSize = c.after.taken ∧ c.after.taken ≤ maxSize

/-- The call does not get to `write(2)`, or `write(2)` does not fail; and where
    `written_size + size` is too large for a `size_t`, it takes no more than there is
    room for. -/
def Call.Sound (maxSize : Nat) (c : Call) : Prop :=
  match c.outcome with
  | none => True
  | some (.accept n) =>
      c.before.writtenSize + c.size < 2 ^ 64 ∨ min n c.size ≤ maxSize - c.before.writtenSize
  | some (.fail _) => False

/-- The counter is right now, and was right after each call. -/
def State.Counted (maxSize : Nat) (s : State ζ) : Prop :=
  s.writtenSize = s.file.length ∧ s.file.length ≤ maxSize ∧ ∀ c ∈ s.log, c.Counted maxSize

/-- What the calls tell about the counter. -/
structure Tracks (maxSize : Nat) (s : State ζ) : Prop where
  limit : s.maxSize = maxSize
  now : (∀ c ∈ s.log, c.Counted maxSize) → s.writtenSize = s.file.length ∧
    s.file.length ≤ maxSize
  calls : (∀ c ∈ s.log, c.Counted maxSize) ↔ ∀ c ∈ s.log, c.Sound maxSize

theorem Tracks.counted_iff {maxSize : Nat} {s : State ζ} (h : Tracks maxSize s) :
    s.Counted maxSize ↔ ∀ c ∈ s.log, c.Sound maxSize := by
  constructor
  · rintro ⟨-, -, hlog⟩
    exact h.calls.mp hlog
  · intro hlog
    obtain ⟨hnow, hle⟩ := h.now (h.calls.mpr hlog)
    exact ⟨hnow, hle, h.calls.mpr hlog⟩

/-- One call more: where the counter was right, the call decides. -/
theorem Tracks.call {maxSize : Nat} {s s' : State ζ} (h : Tracks maxSize s) (c : Call)
    (hlimit : s'.maxSize = s.maxSize) (hlog : s'.log = c :: s.log) (hafter : s'.counters = c.after)
    (hc : s.writtenSize = s.file.length → s.file.length ≤ maxSize →
      (c.Counted maxSize ↔ c.Sound maxSize)) : Tracks maxSize s' where
  limit := hlimit.trans h.limit
  now := by
    intro hall
    have hlast : c.Counted maxSize := hall c (hlog ▸ List.mem_cons_self)
    rw [Call.Counted, ← hafter] at hlast
    obtain ⟨hsame, hle⟩ := hlast
    exact ⟨hsame.trans rfl, hle⟩
  calls := by
    rw [hlog, List.forall_mem_cons, List.forall_mem_cons, ← h.calls]
    constructor
    · rintro ⟨hlast, hold⟩
      obtain ⟨hnow, hle⟩ := h.now hold
      exact ⟨(hc hnow hle).mp hlast, hold⟩
    · rintro ⟨hlast, hold⟩
      obtain ⟨hnow, hle⟩ := h.now hold
      exact ⟨(hc hnow hle).mpr hlast, hold⟩

/-- The three ways of a call of `prv_fio_write`. -/
theorem prvFioWrite_refused (kernel : Nat → Outcome) {data : List UInt8} {s : State ζ}
    (h : s.maxSize < (s.writtenSize + data.length) % 2 ^ 64) : prvFioWrite kernel data s
      = (none, { s with log := ⟨data.length, s.errno, none, s.counters, s.counters⟩ :: s.log }) :=
  if_pos h

theorem prvFioWrite_accept {kernel : Nat → Outcome} {data : List UInt8} {s : State ζ} {n : Nat}
    (h : ¬ s.maxSize < (s.writtenSize + data.length) % 2 ^ 64) (hk : kernel s.calls = .accept n) :
    prvFioWrite kernel data s = (some (min n data.length),
      { s with
        writtenSize := (s.writtenSize + min n data.length) % 2 ^ 64
        calls := s.calls + 1
        file := s.file ++ data.take (min n data.length)
        log := ⟨data.length, s.errno, some (.accept n), s.counters,
          ⟨(s.writtenSize + min n data.length) % 2 ^ 64,
            s.file.length + min n data.length⟩⟩ :: s.log }) := by
  rw [prvFioWrite, if_neg h, hk]

theorem prvFioWrite_fail {kernel : Nat → Outcome} {data : List UInt8} {s : State ζ} {e : Nat}
    (h : ¬ s.maxSize < (s.writtenSize + data.length) % 2 ^ 64) (hk : kernel s.calls = .fail e) :
    prvFioWrite kernel data s = (none,
      { s with
        writtenSize := addMinusOne s.writtenSize
        errno := e
        calls := s.calls + 1
        log := ⟨data.length, s.errno, some (.fail e), s.counters,
          ⟨addMinusOne s.writtenSize, s.file.length⟩⟩ :: s.log }) := by
  rw [prvFioWrite, if_neg h, hk]

/-- The bytes that have been taken are counted, if they fit. -/
theorem accept_counted_iff {maxSize size n errno : Nat} {before : Counters}
    (hmax : maxSize < 2 ^ 64) (hnow : before.writtenSize = before.taken)
    (hle : before.taken ≤ maxSize) (hroom : ¬ maxSize < (before.writtenSize + size) % 2 ^ 64) :
    Call.Counted maxSize ⟨size, errno, some (.accept n), before,
        ⟨(before.writtenSize + min n size) % 2 ^ 64, before.taken + min n size⟩⟩ ↔
      Call.Sound maxSize ⟨size, errno, some (.accept n), before,
        ⟨(before.writtenSize + min n size) % 2 ^ 64, before.taken + min n size⟩⟩ := by
  rw [Call.Counted, Call.Sound]
  dsimp only
  constructor
  · rintro ⟨-, hfits⟩
    exact Or.inr (by omega)
  · intro hsound
    have hfits : before.writtenSize + min n size ≤ maxSize := by
      rcases hsound with hsmall | hroom'
      · rw [Nat.mod_eq_of_lt hsmall] at hroom
        omega
      · omega
    rw [Nat.mod_eq_of_lt (by omega), ← hnow]
    exact ⟨rfl, hfits⟩

theorem addMinusOne_ne (size : Nat) : addMinusOne size ≠ size := by
  rcases size with _ | n
  · decide
  · exact Nat.ne_of_lt (Nat.lt_succ_self n)

/-- A call that has failed is counted, too: the counter goes back by one, also over
    zero. -/
theorem fail_not_counted {maxSize size errno e : Nat} {before : Counters}
    (hnow : before.writtenSize = before.taken) :
    ¬ Call.Counted maxSize ⟨size, errno, some (.fail e), before,
        ⟨addMinusOne before.writtenSize, before.taken⟩⟩ := by
  rintro ⟨hsame, -⟩
  exact addMinusOne_ne before.writtenSize (hsame.trans hnow.symm)

/-- **A call of `prv_fio_write`.** -/
theorem prvFioWrite_tracks (kernel : Nat → Outcome) (data : List UInt8) {maxSize : Nat}
    (hmax : maxSize < 2 ^ 64) {s : State ζ} (h : Tracks maxSize s) :
    Tracks maxSize (prvFioWrite kernel data s).2 := by
  obtain rfl := h.limit
  by_cases hrefused : s.maxSize < (s.writtenSize + data.length) % 2 ^ 64
  · rw [prvFioWrite_refused kernel hrefused]
    refine h.call _ rfl rfl rfl fun hnow hle => ?_
    exact ⟨fun _ => trivial, fun _ => ⟨hnow, hle⟩⟩
  · cases hk : kernel s.calls with
    | accept n =>
        rw [prvFioWrite_accept hrefused hk]
        refine h.call _ rfl rfl ?_ fun hnow hle => accept_counted_iff hmax hnow hle hrefused
        rw [State.counters, List.length_append, List.length_take, Nat.min_assoc, Nat.min_self]
    | fail e =>
        rw [prvFioWrite_fail hrefused hk]
        refine h.call _ rfl rfl rfl fun hnow hle => ?_
        exact iff_of_false (fail_not_counted hnow) id

/-- What a write to the IO keeps, the loop keeps. -/
theorem prvIoWriteAll_keeps {Inv : State ζ → Prop} {io : WriteIo ζ}
    (hwrite : ∀ data, Keeps Inv (io.write data)) (data : List UInt8) :
    Keeps Inv (prvIoWriteAll io data) := by
  refine Keeps.loop (fun rest => ?_) data
  rw [writeAllRound]
  split
  · exact Keeps.pure _
  · refine (hwrite rest).bind ?_
    rintro (_ | n)
    · refine Keeps.bind (Keeps.act fun _ hs => hs) fun e => ?_
      split
      · exact Keeps.pure _
      · exact Keeps.pure _
    · exact Keeps.pure _

theorem writeSequence_keeps {Inv : State ζ → Prop} {io : WriteIo ζ}
    (hwrite : ∀ data, Keeps Inv (io.write data)) (writes : List (List UInt8)) :
    Keeps Inv (writeSequence io writes) := by
  induction writes with
  | nil => exact Keeps.pure _
  | cons data rest ih =>
      exact (prvIoWriteAll_keeps hwrite data).bind fun _ => ih.bind fun _ => Keeps.pure _

/-- **The size limit**: for every kernel, every limit and every sequence of writes,
    however far it gets, `written_size` is and was what the kernel has taken, and this
    is in the limit, exactly when no call of `write(2)` has failed, and where
    `written_size + size` is too large for a `size_t` no call has taken more than there
    is room for. -/
theorem written_size_exact_iff (kernel : Nat → Outcome) (fsync : Bool)
    (writes : List (List UInt8)) {maxSize : Nat} (hmax : maxSize < 2 ^ 64) (zs : ζ) (errno n : Nat) :
    let s := ((writeSequence (fio kernel fsync) writes).run n
      (ticosCoreElfWriteFileIoInit maxSize zs errno)).2
    s.Counted maxSize ↔ ∀ c ∈ s.log, c.Sound maxSize := by
  have hstart : Tracks maxSize (ticosCoreElfWriteFileIoInit maxSize zs errno) :=
    ⟨rfl, fun _ => ⟨rfl, Nat.zero_le maxSize⟩, Iff.intro (fun _ _ hc => nomatch hc)
      (fun _ _ hc => nomatch hc)⟩
  exact (writeSequence_keeps (fun data => Keeps.act fun s hs =>
    prvFioWrite_tracks kernel data hmax hs) writes n _ hstart).counted_iff

/-- A kernel that takes two bytes of each call. -/
theorem written_size_exact_iff_short :
    let s := ((writeSequence (fio (fun _ => .accept 2) true) [[1, 2, 3], [4, 5]]).run 9
      (ticosCoreElfWriteFileIoInit 4 () 0)).2
    s.Counted 4 ↔ ∀ c ∈ s.log, c.Sound 4 :=
  written_size_exact_iff (fun _ => .accept 2) true [[1, 2, 3], [4, 5]] (by decide) () 0 9

/-- A kernel that is interrupted once. -/
def interruptedOnce : Nat → Outcome
  | 0 => .fail eintr
  | _ + 1 => .accept 4096

/-- **One interrupted call, and the file grows over its limit**: of a limit of four bytes
    four are taken, and then one more, since `written_size` says three. -/
theorem interrupted_write_exceeds :
    let s := ((writeSequence (fio interruptedOnce true) [[1, 2, 3, 4], [5]]).run 9
      (ticosCoreElfWriteFileIoInit 4 () 0)).2
    s.writtenSize = 4 ∧ s.file = [1, 2, 3, 4, 5] ∧ ¬ s.Counted 4 := by
  refine ⟨by decide, by decide, ?_⟩
  rintro ⟨-, hle, -⟩
  exact absurd hle (by decide)

end CoreElfFileIo
