import Ticosd.QueueInterleave
import Ticosd.FileUpload

/-! # Core files — a file and the message that names it

    The coredump plugin writes a core file on the IPC thread and queues a message
    with its name; the transmit thread uploads the file and removes it.  Between
    them stands the queue, which can drop the message in the meantime.

    `State` has the two threads (`QueueInterleave`), the finished files in the core
    directory, the file that `prv_msg_handler` has not queued yet, and the messages
    that wait: written since the last reset, and neither overwritten, nor left
    behind the reader, nor marked as read.  The invariant is that every other
    finished file is named by a waiting message; `EventOk` lists what the code
    does not take care of. -/

namespace CoreFiles

open ByteStore QueueModel QueueView QueueRing QueueOverwrite QueueRun QueueScan QueueInterleave
  Tiling GuardedRun TxQueue FileUpload CText

/-! ## Names and messages -/

/-- The name of a file. -/
abbrev Path := List UInt8

/-- The settings of the plugin; `prv_create_dir` has created the directory, so its
    name is within `PATH_MAX`. -/
structure Config where
  coreDir : Path
  gzipEnabled : Bool
  enableDataCollection : Bool
  no_nul : 0 ∉ coreDir
  short : coreDir.length < 4096

/-- A lower-case hexadecimal digit. -/
def hexDigit (n : Nat) : UInt8 := UInt8.ofNat (if n < 10 then 48 + n else 87 + n)

/-- Two digits for each byte. -/
def hexBytes (bytes : List UInt8) : List UInt8 :=
  bytes.flatMap (fun b => [hexDigit (b.toNat / 16), hexDigit (b.toNat % 16)])

/-- `uuid_unparse_lower`. -/
def uuidUnparseLower (uuid : Vector UInt8 16) : List UInt8 :=
  let bytes := uuid.toList
  hexBytes (bytes.take 4) ++ ascii "-" ++ hexBytes ((bytes.drop 4).take 2) ++ ascii "-"
    ++ hexBytes ((bytes.drop 6).take 2) ++ ascii "-" ++ hexBytes ((bytes.drop 8).take 2)
    ++ ascii "-" ++ hexBytes (bytes.drop 10)

/-- `prv_generate_filename` with the prefix of a core file. -/
def prvGenerateFilename (config : Config) (uuid : Vector UInt8 16) : Path :=
  config.coreDir ++ ascii "/" ++ ascii "corefile-" ++ uuidUnparseLower uuid
    ++ (if config.gzipEnabled then ascii ".gz" else [])

/-- `prv_build_queue_entry` of `coredump.c`, with the size that `ticosd_txdata`
    passes on. -/
def prvBuildQueueEntry (gzipEnabled : Bool) (filename : Path) : List UInt8 :=
  (if gzipEnabled then 'c'.toUInt8 else 'C'.toUInt8) :: (filename ++ [0])

/-- The file that a message asks to upload. -/
def corePathOf (entry : List UInt8) : Option Path :=
  if entry.headD 0 = 'C'.toUInt8 ∨ entry.headD 0 = 'c'.toUInt8 then
    some (cString (entry.drop 1))
  else none

theorem hexDigit_ne {n : Nat} (h : n < 16) : hexDigit n ≠ 0 := by
  have key : ∀ n : Fin 16, hexDigit n.val ≠ 0 := by decide
  exact key ⟨n, h⟩

theorem hexBytes_no_nul (bytes : List UInt8) : 0 ∉ hexBytes bytes := by
  intro h
  obtain ⟨b, -, hb⟩ := List.mem_flatMap.mp h
  have hlt := b.toNat_lt
  rcases List.mem_pair.mp hb with hz | hz
  · exact hexDigit_ne (by omega) hz.symm
  · exact hexDigit_ne (by omega) hz.symm

theorem uuidUnparseLower_no_nul (uuid : Vector UInt8 16) : 0 ∉ uuidUnparseLower uuid := by
  have hdash : (0 : UInt8) ∉ ascii "-" := by decide
  simp only [uuidUnparseLower, List.mem_append, hexBytes_no_nul, hdash, or_self,
    not_false_eq_true]

theorem prvGenerateFilename_no_nul (config : Config) (uuid : Vector UInt8 16) :
    0 ∉ prvGenerateFilename config uuid := by
  have hslash : (0 : UInt8) ∉ ascii "/" := by decide
  have hname : (0 : UInt8) ∉ ascii "corefile-" := by decide
  have hgz : (0 : UInt8) ∉ (if config.gzipEnabled then ascii ".gz" else []) := by
    cases config.gzipEnabled <;> decide
  simp only [prvGenerateFilename, List.mem_append, config.no_nul, hslash, hname, hgz,
    uuidUnparseLower_no_nul, or_self, not_false_eq_true]

/-- **The message of a core file names it.** -/
theorem corePathOf_build (gzipEnabled : Bool) {filename : Path} (h : 0 ∉ filename) :
    corePathOf (prvBuildQueueEntry gzipEnabled filename) = some filename := by
  have hdrop : (prvBuildQueueEntry gzipEnabled filename).drop 1 = filename ++ [0] := rfl
  rw [corePathOf, if_pos, hdrop, cString_append_of_not_mem h,
    cString_of_atNul (show AtNul [0] from rfl), List.append_nil]
  cases gzipEnabled with
  | true => exact Or.inr rfl
  | false => exact Or.inl rfl

/-- The transmit loop makes an upload of it. -/
theorem requestOf_core (env : TxEnv) {entry : List UInt8} {path : Path}
    (h : corePathOf entry = some path) :
    ∃ endpoint gzip, requestOf env entry = some (.networkFileUpload endpoint path gzip) := by
  rw [corePathOf] at h
  split at h
  · rename_i htype
    have hr : entry.headD 0 ≠ 'R'.toUInt8 := by
      rcases htype with ht | ht <;> rw [ht] <;> decide
    refine ⟨"/chunks/" ++ env.deviceId ++ "/url", decide (entry.headD 0 = 'c'.toUInt8), ?_⟩
    simp only [requestOf]
    rw [if_neg hr, if_pos htype, Option.some.inj h]
  · exact nomatch h

/-! ## The state -/

/-- The settings, the two threads, the waiting messages (oldest first), the finished
    core files, and the one that `prv_msg_handler` has not queued yet. -/
structure State where
  config : Config
  threads : QueueInterleave.State
  waiting : List Entry
  files : List Path
  handler : Option Path

/-- `unlink`, which can fail. -/
def removeFile (unlink : Bool) (path : Path) (files : List Path) : List Path :=
  if unlink then files.filter (· ≠ path) else files

/-- The waiting messages after a write that was taken. -/
def waitingAfter (q : TicosdQueue) (p : List UInt8) (waiting : List Entry) : List Entry :=
  waiting.filter (fun e => decide (¬ Touches q p.length e.cell ∧ ¬ LeftBehind q p.length e.cell))
    ++ [newEntry q p]

/-- `ticosd_txdata`. -/
def ticosdTxdata (st : State) (data : List UInt8) : Bool × State :=
  if st.config.enableDataCollection = false then (true, st)
  else
    let taken := (ticosdQueueWrite st.threads.q (some data)).val.1
    (taken, { st with
      threads := QueueInterleave.step st.threads (.ipcWrite (some data))
      waiting := if taken = true then waitingAfter st.threads.q data st.waiting else st.waiting })

/-- What `prv_msg_handler` meets until it has a core file: whether the message, the
    rate limiter and the space on the disk admit it, the allocation of the name, the
    transformation, and the removal of what is left of it. -/
structure HandlerEnv where
  admitted : Bool
  uuid : Vector UInt8 16
  asprintf : Bool
  transform : Bool
  unlink : Bool

/-- `prv_msg_handler` until the transformation is done.  The file is opened with
    `O_EXCL`, so an existing one makes the transformation fail. -/
def coreMessage (st : State) (env : HandlerEnv) : State :=
  if st.config.enableDataCollection = false ∨ env.admitted = false ∨ env.asprintf = false then st
  else
    let outfile := prvGenerateFilename st.config env.uuid
    if env.transform = true ∧ outfile ∉ st.files then
      { st with files := outfile :: st.files, handler := some outfile }
    else { st with files := removeFile env.unlink outfile st.files }

/-- `prv_msg_handler` from there on: the message is built and queued, or the file is
    removed. -/
def coreQueue (st : State) (outfile : Path) (malloc unlink : Bool) : State :=
  if malloc = false then
    { st with files := removeFile unlink outfile st.files, handler := none }
  else
    let t := ticosdTxdata st (prvBuildQueueEntry st.config.gzipEnabled outfile)
    if t.1 = true then { t.2 with handler := none }
    else { t.2 with files := removeFile unlink outfile t.2.files, handler := none }

/-- What the transmit thread meets while it works on a message. -/
structure AnswerEnv where
  deviceId : String
  isoTimestamp : List UInt8 → String
  asprintf : Bool
  post : NetworkResult
  upload : UploadEnv

/-- The surroundings of one round of the transmit loop. -/
def AnswerEnv.tx (a : AnswerEnv) : TxEnv where
  enableDataCollection := some true
  deviceId := a.deviceId
  isoTimestamp := a.isoTimestamp
  malloc := fun _ => true
  asprintf := fun _ => a.asprintf
  network := fun _ request =>
    match request with
    | .networkPost _ _ _ => a.post
    | .networkFileUpload _ _ _ => (ticosdNetworkFileUpload a.upload).1

/-- The files once the message has been worked on. -/
def filesAfter (a : AnswerEnv) (entry : List UInt8) (files : List Path) : List Path :=
  match requestOf a.tx entry with
  | some (.networkFileUpload _ path _) =>
      if a.asprintf = true then removeFile (ticosdNetworkFileUpload a.upload).2 path files
      else files
  | _ => files

/-- One round of `prv_ticosd_process_tx_queue` once it has the message `entry`. -/
def txAnswer (st : State) (entry : List UInt8) (a : AnswerEnv) : State :=
  let rc := sendEntry a.tx 0 entry
  { st with
    threads := QueueInterleave.step st.threads (.answer rc)
    waiting :=
      if rc ≠ .errorRetryLater ∧ st.threads.q.canCompleteRead = true then
        st.waiting.filter (fun e => decide (e.start ≠ st.threads.q.readPtr))
      else st.waiting
    files := filesAfter a entry st.files }

/-- The start of `ticosd_main` on the queue file: the pointers are searched for, and
    the queue is reset when data collection is disabled. -/
def restarted (st : State) (config : Config) : State :=
  match (ticosdQueueInit st.threads.q.size st.threads.q.buf).val with
  | none => st
  | some q =>
      if config.enableDataCollection = true then
        { st with config := config, threads := ⟨q, none⟩, handler := none }
      else ⟨config, ⟨(ticosdQueueReset q).val, none⟩, [], st.files, none⟩

/-! ## Events -/

/-- What can happen. -/
inductive Event where
  | coreMessage (env : HandlerEnv)
  | coreQueue (malloc unlink : Bool)
  | txdata (data : List UInt8)
  | readHead (malloc : Bool)
  | answer (a : AnswerEnv)
  | restart (config : Config)

/-- One event.  An event that a thread is not ready for changes nothing. -/
def step (st : State) : Event → State
  | .coreMessage env =>
      match st.handler with
      | some _ => st
      | none => CoreFiles.coreMessage st env
  | .coreQueue malloc unlink =>
      match st.handler with
      | none => st
      | some outfile => CoreFiles.coreQueue st outfile malloc unlink
  | .txdata data => (ticosdTxdata st data).2
  | .readHead malloc =>
      if st.config.enableDataCollection = false then st
      else { st with threads := QueueInterleave.step st.threads (.readHead malloc) }
  | .answer a =>
      match st.threads.flight with
      | none => st
      | some f => txAnswer st f.payload a
  | .restart config => restarted st config

/-- The first start, with no core file. -/
def start (config : Config) (size : QueueSize) (file : Mem) : State :=
  ⟨config, QueueInterleave.start size file, [], [], none⟩

/-- The message names a file that is there. -/
def NamesFile (st : State) (e : Entry) : Prop := ∃ path ∈ st.files, corePathOf e.payload = some path

instance (st : State) (e : Entry) : Decidable (NamesFile st e) :=
  inferInstanceAs (Decidable (∃ path ∈ st.files, corePathOf e.payload = some path))

/-- No waiting message with a file is overwritten, or left behind the reader. -/
def WriteKeeps (st : State) (data : List UInt8) : Prop :=
  WriteOk (some data) ∧ (Accepts st.threads.q data.length → ∀ e ∈ st.waiting, NamesFile st e →
    ¬ Touches st.threads.q data.length e.cell ∧ ¬ LeftBehind st.threads.q data.length e.cell)

instance (st : State) (data : List UInt8) : Decidable (WriteKeeps st data) :=
  inferInstanceAs (Decidable (_ ∧ (_ → _)))

/-- The file is queued without loss of another one, or removed. -/
def QueueKeeps (st : State) (outfile : Path) (malloc unlink : Bool) : Prop :=
  let data := prvBuildQueueEntry st.config.gzipEnabled outfile
  (malloc = true → WriteKeeps st data) ∧
    (malloc = false ∨ ¬ Accepts st.threads.q data.length → unlink = true)

instance (st : State) (outfile : Path) (malloc unlink : Bool) :
    Decidable (QueueKeeps st outfile malloc unlink) :=
  inferInstanceAs (Decidable ((_ → _) ∧ (_ → _)))

/-- If the answer completes a read: the word that is marked belongs to no waiting
    message with a file but the one in flight, and the upload of that file does not
    end for good with the file in place. -/
def AnswerKeeps (st : State) (f : Flight) (a : AnswerEnv) : Prop :=
  sendEntry a.tx 0 f.payload ≠ .errorRetryLater → st.threads.q.canCompleteRead = true →
    ∀ e ∈ st.waiting, NamesFile st e → e.start ≤ st.threads.q.readPtr →
      st.threads.q.readPtr < e.cell.stop →
      e.start = st.threads.q.readPtr ∧ f.touched = false ∧ UploadOk a.upload

instance (st : State) (f : Flight) (a : AnswerEnv) : Decidable (AnswerKeeps st f a) :=
  inferInstanceAs (Decidable (_ → _ → _))

/-- The condition on each event of a run. -/
def EventOk (st : State) : Event → Prop
  | .coreMessage _ => True
  | .coreQueue malloc unlink => ∀ outfile ∈ st.handler, QueueKeeps st outfile malloc unlink
  | .txdata data => st.config.enableDataCollection = true → WriteKeeps st data
  | .readHead _ => True
  | .answer a => ∀ f ∈ st.threads.flight, AnswerKeeps st f a
  | .restart config => st.handler = none ∧ (config.enableDataCollection = false → st.files = [])

instance (st : State) : (ev : Event) → Decidable (EventOk st ev)
  | .coreMessage _ => isTrue trivial
  | .coreQueue malloc unlink =>
      inferInstanceAs (Decidable (∀ outfile ∈ st.handler, QueueKeeps st outfile malloc unlink))
  | .txdata data => inferInstanceAs (Decidable (_ = true → WriteKeeps st data))
  | .readHead _ => isTrue trivial
  | .answer a => inferInstanceAs (Decidable (∀ f ∈ st.threads.flight, AnswerKeeps st f a))
  | .restart _ => inferInstanceAs (Decidable (_ ∧ (_ → _)))

/-- An unread message that waits in the buffer names the file. -/
def Named (st : State) (path : Path) : Prop :=
  ∃ e ∈ st.waiting, corePathOf e.payload = some path ∧ e.Unread ∧ Stored st.threads.q e

/-! ## The pointers -/

/-- The three pointers are indices of the buffer. -/
structure Inside (q : TicosdQueue) : Prop where
  read_lt : q.readPtr < q.size.words
  write_lt : q.writePtr < q.size.words
  prev_lt : q.prevPtr < q.size.words

variable {q : TicosdQueue} {p : List UInt8}

theorem Inside.read_small (h : Inside q) : q.readPtr < 2 ^ 31 := by
  have := h.read_lt
  have := q.size.words_le
  omega

theorem Inside.prev_small (h : Inside q) : q.prevPtr < 2 ^ 32 := by
  have := h.prev_lt
  have := q.size.words_le
  omega

theorem Inside.write (h : Inside q) : Inside (afterWrite q p) := by
  have hpos : 0 < q.size.words := Nat.lt_of_le_of_lt (Nat.zero_le _) h.write_lt
  have hstart : startOf q p.length < q.size.words :=
    Nat.lt_of_le_of_lt (startOf_le q p.length) h.write_lt
  refine ⟨?_, Nat.mod_lt _ hpos, hstart⟩
  show newReadPtr q p.length < q.size.words
  rw [newReadPtr]
  by_cases heq : q.readPtr = q.writePtr
  · rw [if_pos heq]
    exact hstart
  · rw [if_neg heq]
    by_cases hov : Overruns q p.length
    · rw [if_pos hov]
      exact (skipTo_spec _ _ hpos _ _ h.read_lt (by omega)).1
    · rw [if_neg hov]
      exact h.read_lt

theorem Inside.complete (h : Inside q) : Inside (afterComplete q) :=
  ⟨nextAt_lt _ _ _, h.write_lt, h.prev_lt⟩

/-- The search for the pointers stays inside, whatever the file holds. -/
theorem inside_init {size : QueueSize} {file : Mem}
    (h : (ticosdQueueInit size file).val = some q) : Inside q := by
  have hpos : 0 < size.words := by have := size.four_le_words; omega
  obtain ⟨rp, w, last, r, hscan, hwalk, rfl⟩ := queueInit_some h
  obtain ⟨hrp, hw, hlast⟩ := scan_lt hscan hpos
  exact ⟨wrapped_lt hwalk hrp, hw, hlast⟩

/-! ## The message in flight -/

/-- A message in flight that no write has touched can be completed. -/
def Pending (q : TicosdQueue) (f : Flight) : Prop :=
  f.touched = false → q.canCompleteRead = true ∧ q.readPtr = f.start ∧
    payloadAt q.buf f.start = f.payload

/-- A write that moves the read pointer touches the message there. -/
theorem untouched_pointers {k : Nat} {f : Flight} (hr : q.readPtr = f.start)
    (hno : ¬ Touches q k f.cell) (hpos : 0 < msgWords k) :
    q.readPtr ≠ q.writePtr ∧ ¬ Overruns q k := by
  have hlt := f.cell_lt
  have hstart : f.cell.start = f.start := rfl
  refine ⟨fun heq => hno ?_, fun hov => hno ?_⟩
  · by_cases hw : Wraps q k
    · exact Or.inr ⟨hw, by omega, by omega⟩
    · rw [Touches, startOf_stays q k hw]
      exact Or.inl ⟨by omega, by omega⟩
  · have h1 := hov.2.1
    have h2 := hov.2.2
    exact Or.inl ⟨by omega, by omega⟩

theorem pending_write {f : Flight} (hin : Inside q) (hlen : p.length + 3 < 2 ^ 32)
    (hacc : Accepts q p.length) (h : Pending q f) :
    Pending (afterWrite q p) { f with
      touched := f.touched || hits (ticosdQueueWrite q (some p)).stores f.cell } := by
  intro ht
  obtain ⟨hf, hhit⟩ := Bool.or_eq_false_iff.mp ht
  obtain ⟨hcan, hread, hpay⟩ := h hf
  have hno : ¬ Touches q p.length f.cell := by
    intro hc
    rw [(hits_write hlen hin.read_small hacc f.cell_lt).mpr hc] at hhit
    exact nomatch hhit
  have hwords := three_lt_msgWords p.length hacc.1 hlen
  obtain ⟨hne, hov⟩ := untouched_pointers hread hno (by omega)
  refine ⟨?_, ?_, payloadAt_agree hpay (agreeOn_afterWrite hlen hno)⟩
  · show (if Overruns q p.length then false else q.canCompleteRead) = true
    rw [if_neg hov, hcan]
  · show newReadPtr q p.length = f.start
    rw [newReadPtr, if_neg hne, if_neg hov, hread]

/-! ## The queue, seen from the files -/

variable {st : State} {path : Path}

theorem txdata_disabled (hoff : st.config.enableDataCollection = false) :
    ticosdTxdata st p = (true, st) := by
  rw [ticosdTxdata, if_pos hoff]

/-- A message that was refused changes nothing. -/
theorem txdata_refused (hon : st.config.enableDataCollection = true)
    (hin : Inside st.threads.q) (hlen : p.length + 3 < 2 ^ 32)
    (hacc : ¬ Accepts st.threads.q p.length) : ticosdTxdata st p = (false, st) := by
  have hval : (ticosdQueueWrite st.threads.q (some p)).val = (false, st.threads.q) := by
    rw [write_val st.threads.q p hlen hin.read_small, if_neg hacc]
  have hflight : st.threads.flight.map (fun f =>
      { f with touched := f.touched || hits [] f.cell }) = st.threads.flight := by
    cases st.threads.flight with
    | none => rfl
    | some f =>
        have hno : hits [] f.cell = false := rfl
        rw [Option.map_some, hno, Bool.or_false]
  rw [ticosdTxdata, if_neg (by rw [hon]; simp)]
  simp only [QueueInterleave.step, hval, write_refused_stores hacc, hflight,
    Bool.false_eq_true, if_false]

/-- A message that was taken. -/
theorem txdata_taken (hon : st.config.enableDataCollection = true)
    (hin : Inside st.threads.q) (hlen : p.length + 3 < 2 ^ 32)
    (hacc : Accepts st.threads.q p.length) :
    ticosdTxdata st p = (true, { st with
      threads := ⟨afterWrite st.threads.q p, st.threads.flight.map (fun f => { f with
        touched := f.touched || hits (ticosdQueueWrite st.threads.q (some p)).stores f.cell })⟩
      waiting := waitingAfter st.threads.q p st.waiting }) := by
  have hval : (ticosdQueueWrite st.threads.q (some p)).val = (true, afterWrite st.threads.q p) := by
    rw [write_val st.threads.q p hlen hin.read_small, if_pos hacc]
  rw [ticosdTxdata, if_neg (by rw [hon]; simp)]
  simp only [QueueInterleave.step, hval, if_true]

/-- The parts of the invariant that do not speak of the handler. -/
structure Sound (st : State) : Prop where
  inside : Inside st.threads.q
  pending : ∀ f ∈ st.threads.flight, Pending st.threads.q f

/-- **Queueing**: the names that were there stay, and the new message names its
    file. -/
theorem Sound.txdata (h : Sound st) (hok : st.config.enableDataCollection = true →
    WriteKeeps st p) :
    Sound (ticosdTxdata st p).2 ∧
    (∀ path ∈ st.files, Named st path → Named (ticosdTxdata st p).2 path) ∧
    (st.config.enableDataCollection = true → (ticosdTxdata st p).1 = true →
      ∀ path, corePathOf p = some path → Named (ticosdTxdata st p).2 path) := by
  cases hon : st.config.enableDataCollection with
  | false =>
      rw [txdata_disabled hon]
      exact ⟨h, fun _ _ hn => hn, fun hc => nomatch hc⟩
  | true =>
      obtain ⟨hwrite, hkeep⟩ := hok hon
      have hlen := hwrite p rfl
      by_cases hacc : Accepts st.threads.q p.length
      · rw [txdata_taken hon h.inside hlen hacc]
        have hprev := h.inside.prev_small
        refine ⟨⟨h.inside.write, ?_⟩, ?_, ?_⟩
        · intro f hf
          obtain ⟨g, hg, rfl⟩ := Option.mem_map.mp hf
          exact pending_write h.inside hlen hacc (h.pending g hg)
        · rintro path hpath ⟨e, he, hname, hun, hst⟩
          obtain ⟨hno, hleft⟩ := hkeep hacc e he ⟨path, hpath, hname⟩
          refine ⟨e, ?_, hname, hun, hst.holds.congr hst.len (agreeOn_afterWrite hlen hno),
            hst.fits, hst.len⟩
          exact List.mem_append_left _ (List.mem_filter.mpr ⟨he, decide_eq_true ⟨hno, hleft⟩⟩)
        · intro _ _ path hname
          exact ⟨newEntry st.threads.q p, List.mem_append_right _ (List.mem_singleton.mpr rfl),
            hname, ⟨rfl, rfl⟩, holds_afterWrite hlen hprev, startOf_fits _ _ hacc, hlen⟩
      · rw [txdata_refused hon h.inside hlen hacc]
        exact ⟨h, fun _ _ hn => hn, fun _ hc => nomatch hc⟩

/-- A message that names a file is uploaded: unless the answer is to retry, the
    upload was tried, and its result is the answer. -/
theorem sendEntry_core (a : AnswerEnv) {entry : List UInt8}
    (hname : corePathOf entry = some path)
    (hrc : sendEntry a.tx 0 entry ≠ .errorRetryLater) (files : List Path) :
    sendEntry a.tx 0 entry = (ticosdNetworkFileUpload a.upload).1 ∧
      filesAfter a entry files
        = removeFile (ticosdNetworkFileUpload a.upload).2 path files := by
  obtain ⟨endpoint, gzip, hreq⟩ := requestOf_core a.tx hname
  rw [sendEntry, hreq] at hrc ⊢
  rw [filesAfter, hreq]
  have halloc : a.asprintf = true := by
    cases hc : a.asprintf with
    | true => rfl
    | false => exact absurd (if_pos hc) hrc
  have hif : ¬ a.tx.asprintf 0 = false := by
    rw [show a.tx.asprintf 0 = a.asprintf from rfl, halloc]
    simp
  exact ⟨if_neg hif, if_pos halloc⟩

theorem mem_of_mem_removeFile {unlink : Bool} {name : Path} {files : List Path}
    (h : path ∈ removeFile unlink name files) : path ∈ files := by
  cases unlink with
  | false => exact h
  | true => exact (List.mem_filter.mp h).1

theorem ne_of_mem_removeFile {name : Path} {files : List Path}
    (h : path ∈ removeFile true name files) : path ≠ name :=
  of_decide_eq_true (List.mem_filter.mp h).2

/-- The transmit thread only removes files. -/
theorem mem_of_mem_filesAfter {a : AnswerEnv} {entry : List UInt8} {files : List Path}
    (h : path ∈ filesAfter a entry files) : path ∈ files := by
  rw [filesAfter] at h
  split at h
  · split at h
    · exact mem_of_mem_removeFile h
    · exact h
  · exact h

/-- **Answering**: a file whose message is marked as read is removed. -/
theorem Sound.answer (h : Sound st) {f : Flight} (hf : f ∈ st.threads.flight) {a : AnswerEnv}
    (hok : AnswerKeeps st f a) :
    Sound (txAnswer st f.payload a) ∧
    ∀ path ∈ (txAnswer st f.payload a).files, Named st path →
      Named (txAnswer st f.payload a) path := by
  have hflight : st.threads.flight = some f := hf
  by_cases hrc : sendEntry a.tx 0 f.payload = .errorRetryLater
  · -- the message stays at the head
    simp only [txAnswer, QueueInterleave.step, hflight, hrc, if_true, ne_eq, not_true,
      false_and, if_false]
    exact ⟨⟨h.inside, fun _ hg => absurd hg (Option.not_mem_none _)⟩, fun path _ hn => hn⟩
  cases hcan : st.threads.q.canCompleteRead with
  | false =>
      simp only [txAnswer, QueueInterleave.step, hflight, if_neg hrc,
        completeRead_val st.threads.q h.inside.read_small, hcan, if_true, Bool.false_eq_true,
        and_false, if_false]
      exact ⟨⟨h.inside, fun _ hg => absurd hg (Option.not_mem_none _)⟩, fun path _ hn => hn⟩
  | true =>
      have hq : (ticosdQueueCompleteRead st.threads.q).val.2 = afterComplete st.threads.q := by
        rw [completeRead_val st.threads.q h.inside.read_small, hcan]
        rfl
      simp only [txAnswer, QueueInterleave.step, hflight, hq, hcan, and_true, ne_eq, hrc,
        not_false_eq_true, if_true, if_false]
      refine ⟨⟨h.inside.complete, fun _ hg => absurd hg (Option.not_mem_none _)⟩, ?_⟩
      rintro path hpath ⟨e, he, hname, hun, hst⟩
      have hin : path ∈ st.files := mem_of_mem_filesAfter hpath
      have hlt := e.cell_lt
      rw [Entry.cell_start] at hlt
      by_cases hword : e.start ≤ st.threads.q.readPtr ∧ st.threads.q.readPtr < e.cell.stop
      · -- its own message: the file has been uploaded
        exfalso
        obtain ⟨hstart, htouch, hup⟩ :=
          hok hrc hcan e he ⟨path, hin, hname⟩ hword.1 hword.2
        obtain ⟨-, hread, hpay⟩ := h.pending f hf htouch
        have hsame : f.payload = e.payload := by
          rw [← hpay, ← hread, ← hstart]
          exact hst.holds.data
        obtain ⟨hres, hfiles⟩ := sendEntry_core a (by rw [hsame]; exact hname) hrc st.files
        rw [hres] at hrc
        rcases (uploadOk_iff a.upload).mp hup with hretry | hdone
        · exact hrc hretry
        · rw [hfiles, hdone] at hpath
          exact ne_of_mem_removeFile hpath rfl
      · refine ⟨e, List.mem_filter.mpr ⟨he, decide_eq_true (by omega)⟩, hname, hun, ?_,
          hst.fits, hst.len⟩
        exact hst.holds.congr hst.len (agreeOn_markRead _ (by
          rw [Entry.cell_stop] at hword
          omega))

/-! ## The invariant -/

/-- Every finished core file but the one that is being queued is named by a waiting
    message. -/
structure Kept (st : State) : Prop where
  sound : Sound st
  busy : ∀ outfile ∈ st.handler, st.config.enableDataCollection = true ∧ 0 ∉ outfile
  named : ∀ path ∈ st.files, st.handler ≠ some path → Named st path

/-- Queueing does not change the files, nor what the handler is at. -/
theorem txdata_frame (st : State) (p : List UInt8) :
    (ticosdTxdata st p).2.config = st.config ∧ (ticosdTxdata st p).2.files = st.files ∧
      (ticosdTxdata st p).2.handler = st.handler := by
  rw [ticosdTxdata]
  split <;> exact ⟨rfl, rfl, rfl⟩

theorem kept_coreMessage (h : Kept st) (hidle : st.handler = none) (env : HandlerEnv) :
    Kept (coreMessage st env) := by
  have hnamed : ∀ path ∈ st.files, Named st path :=
    fun path hp => h.named path hp (by rw [hidle]; simp)
  rw [coreMessage]
  split
  · exact h
  · rename_i hgo
    have hon : st.config.enableDataCollection = true := by
      rw [← Bool.not_eq_false]
      exact fun hc => hgo (Or.inl hc)
    dsimp only
    split
    · -- the new file is the one that the handler is at
      refine ⟨⟨h.sound.inside, h.sound.pending⟩, ?_, ?_⟩
      · intro outfile hout
        rw [← Option.some.inj hout]
        exact ⟨hon, prvGenerateFilename_no_nul _ _⟩
      intro path hp hne
      rcases List.mem_cons.mp hp with rfl | hp
      · exact absurd rfl hne
      · exact hnamed path hp
    · exact ⟨⟨h.sound.inside, h.sound.pending⟩, h.busy,
        fun path hp _ => hnamed path (mem_of_mem_removeFile hp)⟩

theorem kept_coreQueue (h : Kept st) {outfile : Path} (hat : outfile ∈ st.handler)
    {malloc unlink : Bool} (hok : QueueKeeps st outfile malloc unlink) :
    Kept (coreQueue st outfile malloc unlink) := by
  obtain ⟨hon, hnul⟩ := h.busy outfile hat
  obtain ⟨hwrite, hremove⟩ := hok
  have hnamed : ∀ path ∈ st.files, path ≠ outfile → Named st path := by
    intro path hp hne
    refine h.named path hp ?_
    rw [Option.mem_def.mp hat]
    exact fun hc => hne (Option.some.inj hc).symm
  rw [coreQueue]
  cases hm : malloc with
  | false =>
      rw [if_pos rfl, hremove (Or.inl hm)]
      refine ⟨⟨h.sound.inside, h.sound.pending⟩, (fun _ hc => nomatch hc), ?_⟩
      intro path hp _
      have hp : path ∈ removeFile true outfile st.files := hp
      exact hnamed path (mem_of_mem_removeFile hp) (ne_of_mem_removeFile hp)
  | true =>
      have hkeeps := hwrite hm
      obtain ⟨hsound, hold, hnew⟩ := h.sound.txdata (fun _ => hkeeps)
      obtain ⟨hconfig, hfiles, -⟩ :=
        txdata_frame st (prvBuildQueueEntry st.config.gzipEnabled outfile)
      rw [if_neg (by simp)]
      dsimp only
      by_cases htaken : (ticosdTxdata st
          (prvBuildQueueEntry st.config.gzipEnabled outfile)).1 = true
      · rw [if_pos htaken]
        refine ⟨⟨hsound.inside, hsound.pending⟩, (fun _ hc => nomatch hc), ?_⟩
        intro path hp _
        have hp' : path ∈ st.files := by
          rw [← hfiles]
          exact hp
        by_cases heq : path = outfile
        · subst heq
          exact hnew hon htaken path (corePathOf_build _ hnul)
        · exact hold path hp' (hnamed path hp' heq)
      · -- refused: the file goes
        have hlen := hkeeps.1 _ rfl
        have hacc : ¬ Accepts st.threads.q
            (prvBuildQueueEntry st.config.gzipEnabled outfile).length := by
          intro hacc
          rw [txdata_taken hon h.sound.inside hlen hacc] at htaken
          exact htaken rfl
        rw [if_neg htaken, hremove (Or.inr hacc)]
        refine ⟨⟨hsound.inside, hsound.pending⟩, (fun _ hc => nomatch hc), ?_⟩
        intro path hp _
        have hp : path ∈ removeFile true outfile _ := hp
        have hp' : path ∈ st.files := by
          rw [← hfiles]
          exact mem_of_mem_removeFile hp
        exact hold path hp' (hnamed path hp' (ne_of_mem_removeFile hp))

theorem kept_txdata (h : Kept st) (hok : st.config.enableDataCollection = true →
    WriteKeeps st p) : Kept (ticosdTxdata st p).2 := by
  obtain ⟨hsound, hold, -⟩ := h.sound.txdata hok
  obtain ⟨hconfig, hfiles, hhandler⟩ := txdata_frame st p
  refine ⟨hsound, ?_, ?_⟩
  · rw [hconfig, hhandler]
    exact h.busy
  · rw [hfiles, hhandler]
    exact fun path hp hne => hold path hp (h.named path hp hne)

theorem kept_readHead (h : Kept st) (malloc : Bool) :
    Kept { st with threads := QueueInterleave.step st.threads (.readHead malloc) } := by
  cases hf : st.threads.flight with
  | some f =>
      simp only [QueueInterleave.step, hf]
      exact h
  | none =>
      simp only [QueueInterleave.step, hf, readHead_val]
      by_cases hc : caughtUp st.threads.q = true ∨ malloc = false
      · rw [if_pos hc]
        exact ⟨⟨h.sound.inside, fun _ hf => absurd hf (Option.not_mem_none _)⟩, h.busy, h.named⟩
      · rw [if_neg hc]
        refine ⟨⟨⟨h.sound.inside.read_lt, h.sound.inside.write_lt, h.sound.inside.prev_lt⟩,
          ?_⟩, h.busy, ?_⟩
        · intro f hf
          rw [← Option.some.inj hf]
          exact fun _ => ⟨rfl, rfl, rfl⟩
        · intro path hp hne
          obtain ⟨e, he, hname, hun, hst⟩ := h.named path hp hne
          exact ⟨e, he, hname, hun, hst.holds, hst.fits, hst.len⟩

theorem kept_answer (h : Kept st) {f : Flight} (hf : f ∈ st.threads.flight) {a : AnswerEnv}
    (hok : AnswerKeeps st f a) : Kept (txAnswer st f.payload a) := by
  obtain ⟨hsound, hold⟩ := h.sound.answer hf hok
  exact ⟨hsound, h.busy, fun path hp hne =>
    hold path hp (h.named path (mem_of_mem_filesAfter hp) hne)⟩

/-- A restart finds the buffer as it is. -/
theorem kept_restart (h : Kept st) {config : Config} (hidle : st.handler = none)
    (hoff : config.enableDataCollection = false → st.files = []) :
    Kept (restarted st config) := by
  rw [restarted]
  cases hinit : (ticosdQueueInit st.threads.q.size st.threads.q.buf).val with
  | none => exact h
  | some q =>
      have hin := inside_init hinit
      obtain ⟨_, _, _, _, -, -, hq⟩ := queueInit_some hinit
      dsimp only
      cases hon : config.enableDataCollection with
      | true =>
          rw [if_pos rfl]
          refine ⟨⟨hin, fun f hf => nomatch hf⟩, (fun _ hc => nomatch hc), ?_⟩
          intro path hp _
          obtain ⟨e, he, hname, hun, hst⟩ := h.named path hp (by rw [hidle]; simp)
          refine ⟨e, he, hname, hun, ?_, ?_, hst.len⟩
          · rw [hq]
            exact hst.holds
          · rw [hq]
            exact hst.fits
      | false =>
          rw [if_neg (by simp)]
          have hpos := Nat.lt_of_le_of_lt (Nat.zero_le _) hin.read_lt
          refine ⟨⟨⟨hpos, hpos, hpos⟩, fun f hf => nomatch hf⟩, (fun _ hc => nomatch hc), ?_⟩
          intro path hp
          rw [hoff hon] at hp
          exact nomatch hp

theorem kept_step {ev : Event} (h : Kept st) (hok : EventOk st ev) : Kept (step st ev) := by
  cases ev with
  | coreMessage env =>
      cases hat : st.handler with
      | some outfile =>
          simp only [step, hat]
          exact h
      | none =>
          simp only [step, hat]
          exact kept_coreMessage h hat env
  | coreQueue malloc unlink =>
      cases hat : st.handler with
      | none =>
          simp only [step, hat]
          exact h
      | some outfile =>
          simp only [step, hat]
          exact kept_coreQueue h hat (hok outfile hat)
  | txdata data => exact kept_txdata h hok
  | readHead malloc =>
      rw [step]
      split
      · exact h
      · exact kept_readHead h malloc
  | answer a =>
      cases hf : st.threads.flight with
      | none =>
          simp only [step, hf]
          exact h
      | some f =>
          simp only [step, hf]
          exact kept_answer h hf (hok f hf)
  | restart config => exact kept_restart h hok.1 hok.2

theorem kept_start (config : Config) (size : QueueSize) (file : Mem) :
    Kept (start config size file) := by
  have hpos : 0 < size.words := by have := size.four_le_words; omega
  exact ⟨⟨⟨hpos, hpos, hpos⟩, fun f hf => nomatch hf⟩, (fun _ hc => nomatch hc),
    fun path hp => nomatch hp⟩

/-- The first start of a daemon that does not compress, with a buffer of forty
    words. -/
def firstStart : State :=
  start ⟨ascii "/core", false, true, by decide, by decide⟩ (.ofWords 40 (by decide) (by decide))
    (fun _ => 0)

/-- A core file with a name of one repeated byte, which is written and queued. -/
def coreFile (b : UInt8) : List Event :=
  [.coreMessage ⟨true, .replicate 16 b, true, true, true⟩, .coreQueue true true]

/-- An upload whose requests are answered with the HTTP code. -/
def uploadEvents (httpCode : Int) : List Event :=
  let reply : Reply := ⟨true, httpCode, true⟩
  [.readHead true, .answer ⟨"device", fun _ => "", true, .ok,
    ⟨true, true, true, reply, reply, true, true, reply, true⟩⟩]

/-- Of two core files one is uploaded, and the other one waits over a restart. -/
def uploadOne : List Event :=
  coreFile 1 ++ coreFile 2 ++ uploadEvents 200 ++ [.restart firstStart.config]

/-- Two core files fill the buffer, and a third message takes the place of the
    first one: the file stays. -/
example : ∃ path ∈ (run step firstStart (coreFile 1 ++ coreFile 2 ++
      [.txdata (List.replicate 40 65)])).files,
    ∀ e ∈ (run step firstStart (coreFile 1 ++ coreFile 2 ++
      [.txdata (List.replicate 40 65)])).waiting, corePathOf e.payload ≠ some path := by
  decide +kernel

end CoreFiles
