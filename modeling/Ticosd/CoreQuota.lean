import Ticosd.StoredCore
import Ticosd.StorageLimits
import Ticosd.CoreFiles

/-! # The core directory — its quota and what is offered for upload

    `prv_msg_handler` asks how much space there is, writes a core file with that as its
    limit, and queues the file or removes it; meanwhile the transmit thread removes the
    files that it has uploaded, and the daemon can be killed at any point of a run of the
    writer.

    The file IO counts a call of `write(2)` that has failed as minus one byte, so a file
    can exceed its limit by one byte for each of them, and no further (`run_bounded`).
    Between two questions the files only get fewer, so the directory never exceeds its
    limit by more than one run can (`usage_bounded`).  And a file is queued only behind a
    writer that has returned true, so what is offered for upload is the core of a
    process, whole (`queued_is_dump`). -/

namespace CoreQuota

open CoreElf CoreElfNote Fuel GuardedRun GzipIo GzipWriter StoredCore StorageLimits
open CoreElfFileIo (Call Outcome Writer Segment SegmentData Callback WriteIo Deflate Progress
  prvFioWrite prvFioWrite_refused prvFioWrite_accept prvFioWrite_fail prvIoWriteAll_keeps fio gzio
  ticosCoreElfWriterWrite ticosCoreElfWriteFileIoInit addMinusOne addMinusOne_eq)
open CoreFiles (Path Config prvGenerateFilename prvBuildQueueEntry)

variable {ζ : Type}

/-! ## The size of a file -/

/-- `write(2)` has failed. -/
def Failed (c : Call) : Bool :=
  match c.outcome with
  | some (.fail _) => true
  | _ => false

/-- How often it has. -/
def failures (log : List Call) : Nat := log.countP Failed

/-- The counter is behind by the calls that have failed, and so is the limit. -/
structure Bounded (maxSize : Nat) (s : CoreElfFileIo.State ζ) : Prop where
  limit : s.maxSize = maxSize
  fits : s.writtenSize < 2 ^ 64
  counted : (s.writtenSize + failures s.log) % 2 ^ 64 = s.file.length % 2 ^ 64
  size : s.file.length ≤ maxSize + failures s.log

/-- The sizes are those of an address space. -/
structure Sizes (maxSize : Nat) (log : List Call) : Prop where
  limit : maxSize + failures log < 2 ^ 63
  calls : ∀ c ∈ log, c.size < 2 ^ 63

theorem failures_cons (c : Call) (log : List Call) :
    failures (c :: log) = failures log + if Failed c then 1 else 0 :=
  List.countP_cons

theorem Sizes.tail {maxSize : Nat} {c : Call} {log : List Call} (h : Sizes maxSize (c :: log)) :
    Sizes maxSize log := by
  have hlimit := h.limit
  rw [failures_cons] at hlimit
  exact ⟨by omega, fun d hd => h.calls d (List.mem_cons_of_mem _ hd)⟩

/-- **A call of `prv_fio_write`.** -/
theorem prvFioWrite_bounded (kernel : Nat → Outcome) (data : List UInt8) {maxSize : Nat}
    {s : CoreElfFileIo.State ζ} (h : Sizes maxSize s.log → Bounded maxSize s)
    (hsizes : Sizes maxSize (prvFioWrite kernel data s).2.log) :
    Bounded maxSize (prvFioWrite kernel data s).2 := by
  by_cases hrefused : s.maxSize < (s.writtenSize + data.length) % 2 ^ 64
  · rw [prvFioWrite_refused kernel hrefused] at hsizes ⊢
    obtain ⟨hlimit, hfits, hcounted, hsize⟩ := h hsizes.tail
    have hfails : failures (⟨data.length, s.errno, none, s.counters, s.counters⟩ :: s.log)
        = failures s.log := failures_cons _ _
    exact ⟨hlimit, hfits, hfails.symm ▸ hcounted, hfails.symm ▸ hsize⟩
  · cases hk : kernel s.calls with
    | accept n =>
        rw [prvFioWrite_accept hrefused hk] at hsizes ⊢
        obtain ⟨hlimit, hfits, hcounted, hsize⟩ := h hsizes.tail
        have hbound := hsizes.tail.limit
        have hdata : data.length < 2 ^ 63 := hsizes.calls _ List.mem_cons_self
        constructor
        · exact hlimit
        · exact Nat.mod_lt _ (by decide)
        · dsimp only
          rw [failures_cons, List.length_append, List.length_take]
          show ((s.writtenSize + min n data.length) % 2 ^ 64 + (failures s.log + 0)) % 2 ^ 64 = _
          omega
        · dsimp only
          rw [failures_cons, List.length_append, List.length_take]
          show _ ≤ maxSize + (failures s.log + 0)
          omega
    | fail e =>
        rw [prvFioWrite_fail hrefused hk] at hsizes ⊢
        obtain ⟨hlimit, hfits, hcounted, hsize⟩ := h hsizes.tail
        constructor
        · exact hlimit
        · dsimp only
          rw [addMinusOne_eq hfits]
          exact Nat.mod_lt _ (by decide)
        · dsimp only
          rw [failures_cons, addMinusOne_eq hfits]
          show ((s.writtenSize + (2 ^ 64 - 1)) % 2 ^ 64 + (failures s.log + 1)) % 2 ^ 64 = _
          omega
        · dsimp only
          rw [failures_cons]
          show _ ≤ maxSize + (failures s.log + 1)
          omega

/-! ## What the writer keeps -/

/-- The IO keeps an invariant that does not look at `write_offset` and `errno`. -/
structure Keeper (io : WriteIo ζ) (Inv : CoreElfFileIo.State ζ → Prop) : Prop where
  write : ∀ data, Keeps Inv (io.write data)
  sync : Keeps Inv io.sync
  frame : ∀ (s : CoreElfFileIo.State ζ) offset errno, Inv s →
    Inv { s with writeOffset := offset, errno := errno }

section Keeper

variable {io : WriteIo ζ} {Inv : CoreElfFileIo.State ζ → Prop}

theorem Keeper.writeAll (h : Keeper io Inv) (data : List UInt8) :
    Keeps Inv (CoreElfFileIo.prvWriteAll io data) := by
  refine (prvIoWriteAll_keeps h.write data).bind fun ok => ?_
  split
  · exact Keeps.act fun s hs => h.frame s _ s.errno hs
  · exact Keeps.pure _

theorem Keeper.offset : Keeps Inv CoreElfFileIo.getWriteOffset := Keeps.act fun _ hs => hs

theorem Keeper.padding (h : Keeper io Inv) (padSize : Nat) :
    Keeps Inv (CoreElfFileIo.prvWritePadding io padSize) := by
  refine Keeps.loop (fun size => ?_) padSize
  rw [CoreElfFileIo.paddingRound]
  split
  · exact Keeps.pure _
  · refine (h.writeAll _).bind fun ok => ?_
    split
    · exact Keeps.pure _
    · exact Keeps.pure _

theorem Keeper.callback (h : Keeper io Inv) (fn : Callback) : Keeps Inv (fn.call io) := by
  induction fn with
  | ret ok => exact Keeps.pure _
  | write data next ih => exact (h.writeAll data).bind ih
  | setErrno e next ih =>
      exact (Keeps.act fun s hs => h.frame s s.writeOffset e hs).bind fun _ => ih

theorem Keeper.data (h : Keeper io Inv) (header : Phdr) (data : SegmentData) :
    Keeps Inv (data.write io header) := by
  cases data with
  | buffer data => exact h.writeAll _
  | callback fn => exact h.callback fn

theorem Keeper.table (h : Keeper io Inv) (segments : List Segment) (offset : Nat) :
    Keeps Inv (CoreElfFileIo.writeTable io segments offset) := by
  induction segments generalizing offset with
  | nil => exact Keeps.pure _
  | cons s rest ih =>
      refine (h.writeAll _).bind fun ok => ?_
      split
      · exact (ih _).bind fun _ => Keeps.pure _
      · exact Keeps.pure _

theorem Keeper.dataBlocks (h : Keeper io Inv) (segments : List Segment) :
    Keeps Inv (CoreElfFileIo.writeData io segments) := by
  induction segments with
  | nil => exact Keeps.pure _
  | cons s rest ih =>
      refine Keeper.offset.bind fun offset => (h.padding _).bind fun ok => ?_
      split
      · refine (h.data _ _).bind fun ok => ?_
        split
        · refine Keeper.offset.bind fun reached => ?_
          split
          · exact Keeps.pure _
          · exact ih
        · exact Keeps.pure _
      · exact Keeps.pure _

/-- **What the IO keeps, the writer keeps**, however far it gets. -/
theorem Keeper.writer (h : Keeper io Inv) (w : Writer) :
    Keeps Inv (ticosCoreElfWriterWrite io w) := by
  refine (h.writeAll _).bind fun ok => ?_
  split
  · refine Keeper.offset.bind fun offset => (h.table _ _).bind ?_
    rintro (_ | table)
    · exact Keeps.pure _
    · refine (h.dataBlocks table).bind fun ok => ?_
      split
      · exact h.sync
      · exact Keeps.pure _
  · exact Keeps.pure _

/-- The gzip IO on top of it, if the invariant does not look at the stream. -/
theorem Keeper.gzip {deflate : Deflate ζ} (h : Keeper io Inv)
    (hframe : ∀ (s : CoreElfFileIo.State ζ) zs nextIn, Inv s →
      Inv { s with zs := zs, nextIn := nextIn }) : Keeper (gzio deflate io) Inv :=
  ⟨(gzio_keeps h.write hframe).1, (gzio_keeps h.write hframe).2, h.frame⟩

end Keeper

/-- While the sizes are those of an address space, the file is bounded. -/
def Within (maxSize : Nat) (s : CoreElfFileIo.State ζ) : Prop :=
  Sizes maxSize s.log → Bounded maxSize s

theorem within_init (maxSize : Nat) (zs : ζ) (errno : Nat) :
    Within maxSize (ticosCoreElfWriteFileIoInit maxSize zs errno) :=
  fun _ => ⟨rfl, Nat.two_pow_pos 64, rfl, Nat.zero_le _⟩

/-- The bound looks at the limit, the counter, the file and the calls. -/
theorem Within.frame {maxSize : Nat} {s s' : CoreElfFileIo.State ζ} (h : Within maxSize s)
    (hmax : s'.maxSize = s.maxSize) (hwritten : s'.writtenSize = s.writtenSize)
    (hfile : s'.file = s.file) (hlog : s'.log = s.log) : Within maxSize s' := by
  intro hsizes
  rw [hlog] at hsizes
  obtain ⟨hlimit, hfits, hcounted, hsize⟩ := h hsizes
  constructor
  · rw [hmax, hlimit]
  · rw [hwritten]
    exact hfits
  · rw [hwritten, hlog, hfile]
    exact hcounted
  · rw [hlog, hfile]
    exact hsize

theorem fio_keeper (kernel : Nat → Outcome) (fsync : Bool) (maxSize : Nat) :
    Keeper (fio kernel fsync) (Within (ζ := ζ) maxSize) where
  write data := Keeps.act fun _ hs => prvFioWrite_bounded kernel data hs
  sync := Keeps.pure _
  frame _ _ _ hs := hs.frame rfl rfl rfl rfl

/-! ## `prv_transform_coredump_from_fd_to_file` -/

/-- What it meets: whether there is the metadata, the memory of the process, a new file
    and a stream for `deflate`; the writer that the transformer has filled from the core
    on the descriptor, or `none` if reading it has failed; the kernel; and for how long
    the daemon is going to live. -/
structure TransformEnv where
  initMetadata : Bool
  initProcfsHandler : Bool
  opens : Bool
  deflateInit : Bool
  gathered : Option Writer
  kernel : Nat → Outcome
  fsync : Bool
  errno : Nat
  fuel : Nat

/-- `ticos_core_elf_transformer_run` on an IO. -/
def transformerRun (io : WriteIo ζ) : Option Writer → Prog (CoreElfFileIo.State ζ) Bool
  | none => pure false
  | some w => ticosCoreElfWriterWrite io w

/-- `prv_transform_coredump_from_fd_to_file`: the result, or `none` if the daemon is killed
    before there is one, and the IO at that time, if the file has been created. -/
def prvTransformCoredumpFromFdToFile (deflate : Deflate ζ) (z₀ : ζ) (gzipEnabled exists_ : Bool)
    (maxSize : Nat) (env : TransformEnv) : Option Bool × Option (CoreElfFileIo.State ζ) :=
  if env.initMetadata = false ∨ env.initProcfsHandler = false then (some false, none)
  else if exists_ = true ∨ env.opens = false then (some false, none)
  else
    let start := ticosCoreElfWriteFileIoInit maxSize z₀ env.errno
    let file := fio env.kernel env.fsync
    if gzipEnabled = true then
      if env.deflateInit = false then (some false, some start)
      else
        let r := (transformerRun (gzio deflate file) env.gathered).run env.fuel start
        (r.1, some r.2)
    else
      let r := (transformerRun file env.gathered).run env.fuel start
      (r.1, some r.2)

theorem transformerRun_keeps {io : WriteIo ζ} {Inv : CoreElfFileIo.State ζ → Prop}
    (h : Keeper io Inv) (gathered : Option Writer) : Keeps Inv (transformerRun io gathered) := by
  cases gathered with
  | none => exact Keeps.pure _
  | some w => exact h.writer w

/-- **A core file exceeds its limit by no more than a byte for each call of `write(2)` that
    has failed**, with and without gzip, finished or not. -/
theorem run_bounded (deflate : Deflate ζ) (z₀ : ζ) (gzipEnabled exists_ : Bool) (maxSize : Nat)
    (env : TransformEnv) : ∀ s ∈ (prvTransformCoredumpFromFdToFile deflate z₀ gzipEnabled exists_
      maxSize env).2, Within maxSize s := by
  intro s hs
  have hstart := within_init maxSize z₀ env.errno
  have hfile : Keeper (fio env.kernel env.fsync) (Within (ζ := ζ) maxSize) :=
    fio_keeper env.kernel env.fsync maxSize
  have hgzip : Keeper (gzio deflate (fio env.kernel env.fsync)) (Within maxSize) :=
    hfile.gzip fun s zs nextIn h => h.frame rfl rfl rfl rfl
  rw [prvTransformCoredumpFromFdToFile] at hs
  split at hs
  · cases hs
  · split at hs
    · cases hs
    · split at hs
      · split at hs
        · obtain rfl := Option.some.inj hs
          exact hstart
        · obtain rfl := Option.some.inj hs
          exact transformerRun_keeps hgzip env.gathered env.fuel _ hstart
      · obtain rfl := Option.some.inj hs
        exact transformerRun_keeps hfile env.gathered env.fuel _ hstart

/-! ## The core directory -/

/-- The settings, the core files with their bytes, the limit that `prv_msg_handler` has
    got for the file that it is going to write, and the names that it has queued. -/
structure State where
  config : Config
  files : List (Path × List UInt8)
  room : Option Nat
  queued : List Path

/-- The bytes in the files. -/
def usage (files : List (Path × List UInt8)) : Nat := (files.map (·.2.length)).sum

/-- There is a file with the name. -/
def exists_ (files : List (Path × List UInt8)) (path : Path) : Bool := files.any (·.1 == path)

/-- `unlink`. -/
def removeFile (unlink : Bool) (path : Path) (files : List (Path × List UInt8)) :
    List (Path × List UInt8) :=
  if unlink then files.filter (·.1 ≠ path) else files

/-- What `statfs` and `nftw` find: the files, and the directory itself. -/
def diskOf (st : State) (statfs : Option Statfs) (nftw : Bool) (dirSize : Nat) : Disk where
  statfs := statfs
  fileSizes := if nftw then some (dirSize :: st.files.map (·.2.length)) else none

/-- `prv_msg_handler`, up to the limit; with none it is over. -/
def checkSpace (settings : Settings) (st : State) (disk : Disk) : State :=
  let maxSize := prvCheckForAvailableSpace settings disk
  { st with room := if maxSize = 0 then none else some maxSize }

/-- `prv_msg_handler` from there on: the file is written, and queued, or removed; `malloc`
    and `txdata` are `prv_build_queue_entry` and `ticosd_txdata`. -/
def writeCore (deflate : Deflate ζ) (z₀ : ζ) (st : State) (maxSize : Nat)
    (uuid : Vector UInt8 16) (env : TransformEnv) (malloc txdata unlink : Bool) : State :=
  let outfile := prvGenerateFilename st.config uuid
  let t := prvTransformCoredumpFromFdToFile deflate z₀ st.config.gzipEnabled
    (exists_ st.files outfile) maxSize env
  let files := (t.2.map (fun s => (outfile, s.file))).toList ++ st.files
  if t.1 = none then { st with files := files, room := none }
  else if t.1 = some true ∧ malloc = true ∧ txdata = true then
    { st with files := files, room := none, queued := outfile :: st.queued }
  else { st with files := removeFile unlink outfile files, room := none }

/-- What happens: the two parts of `prv_msg_handler`, and the transmit thread removes a
    file. -/
inductive Event where
  | checkSpace (statfs : Option Statfs) (nftw : Bool) (dirSize : Nat)
  | writeCore (uuid : Vector UInt8 16) (env : TransformEnv) (malloc txdata unlink : Bool)
  | removeFile (path : Path)

/-- One event; a file is only written behind a question for the space. -/
def step (settings : Settings) (deflate : Deflate ζ) (z₀ : ζ) (st : State) : Event → State
  | .checkSpace statfs nftw dirSize =>
      CoreQuota.checkSpace settings st (diskOf st statfs nftw dirSize)
  | .writeCore uuid env malloc txdata unlink =>
      match st.room with
      | none => st
      | some maxSize =>
          CoreQuota.writeCore deflate z₀ st maxSize uuid env malloc txdata unlink
  | .removeFile path => { st with files := CoreQuota.removeFile true path st.files }

/-! ## The quota -/

theorem usage_cons (file : Path × List UInt8) (files : List (Path × List UInt8)) :
    usage (file :: files) = file.2.length + usage files := List.sum_cons

theorem usage_filter_le (p : Path × List UInt8 → Bool) (files : List (Path × List UInt8)) :
    usage (files.filter p) ≤ usage files := by
  induction files with
  | nil => exact Nat.le_refl _
  | cons file files ih =>
      rw [List.filter_cons]
      split
      · rw [usage_cons, usage_cons]
        omega
      · rw [usage_cons]
        omega

theorem usage_removeFile_le (unlink : Bool) (path : Path) (files : List (Path × List UInt8)) :
    usage (removeFile unlink path files) ≤ usage files := by
  rw [removeFile]
  split
  · exact usage_filter_le _ _
  · exact Nat.le_refl _

/-- The sum of `ticosd_get_folder_size`, if it fits. -/
theorem folderSum_eq (sizes : List Nat) {sum : Nat} (h : sum + sizes.sum < 2 ^ 64) :
    sizes.foldl (fun sum size => (sum + size) % 2 ^ 64) sum = sum + sizes.sum := by
  induction sizes generalizing sum with
  | nil => rfl
  | cons size sizes ih =>
      rw [List.sum_cons] at h
      rw [List.foldl_cons, List.sum_cons, Nat.mod_eq_of_lt (by omega), ih (by omega)]
      omega

theorem folderSize_diskOf {st : State} {statfs : Option Statfs} {dirSize : Nat}
    (h : dirSize + usage st.files < 2 ^ 64) :
    ticosdGetFolderSize (diskOf st statfs true dirSize) = dirSize + usage st.files := by
  have hsum : 0 + (dirSize :: st.files.map (·.2.length)).sum < 2 ^ 64 := by
    rw [Nat.zero_add]
    exact h
  exact (folderSum_eq _ hsum).trans (Nat.zero_add _)

/-- With a limit on the directory, no more is left than there is up to it. -/
theorem available_le {settings : Settings} (h : ∀ key, IsSetting (settings key)) {limit : Nat}
    (hlimit : limitOf (settings "storage_max_usage_kib") = some limit) (disk : Disk) :
    prvCheckForAvailableSpace settings disk ≤ limit - ticosdGetFolderSize disk := by
  have hrange := limitOf_range (h _) hlimit
  have husage : (limitsOf settings).usage = some limit := hlimit
  rw [available_eq h, Limits.computed, husage, Option.getD_some]
  rw [if_neg (fun hno => by cases hno.2.1)]
  split
  · exact Nat.zero_le _
  · split
    · exact Nat.zero_le _
    · rw [if_pos (c := limit ≠ 0) (by omega)]
      omega

/-- A setting is an `int`, in KiB. -/
theorem limit_lt {value : Option Int} (h : IsSetting value) {limit : Nat}
    (hlimit : limitOf value = some limit) : limit < 2 ^ 41 := by
  cases value with
  | none => cases hlimit
  | some val =>
      obtain ⟨hlo, hhi⟩ := h val rfl
      rw [limitOf] at hlimit
      split at hlimit
      · cases hlimit
      · have := Option.some.inj hlimit
        omega

/-- The files stay in the bound, and so will the next one, but for the calls that fail. -/
structure Quota (limit bound : Nat) (st : State) : Prop where
  usage : usage st.files ≤ bound
  room : ∀ maxSize ∈ st.room, CoreQuota.usage st.files + maxSize ≤ limit

/-- What an event has to keep to: `nftw` reads the directory, and a run of the writer
    meets no more than `k` calls of `write(2)` that fail. -/
def EventOk (deflate : Deflate ζ) (z₀ : ζ) (k : Nat) (st : State) : Event → Prop
  | .checkSpace _ nftw dirSize => nftw = true ∧ dirSize < 2 ^ 62
  | .writeCore uuid env _ _ _ => ∀ maxSize ∈ st.room, ∀ s ∈ (prvTransformCoredumpFromFdToFile
      deflate z₀ st.config.gzipEnabled
      (exists_ st.files (prvGenerateFilename st.config uuid)) maxSize env).2,
      failures s.log ≤ k ∧ ∀ c ∈ s.log, c.size < 2 ^ 63
  | .removeFile _ => True

instance (deflate : Deflate ζ) (z₀ : ζ) (k : Nat) (st : State) :
    (ev : Event) → Decidable (EventOk deflate z₀ k st ev)
  | .checkSpace _ _ _ => inferInstanceAs (Decidable (_ ∧ _))
  | .writeCore _ _ _ _ _ => inferInstanceAs (Decidable (∀ _ ∈ _, ∀ _ ∈ _, _ ∧ ∀ _ ∈ _, _))
  | .removeFile _ => inferInstanceAs (Decidable True)

section Quota

variable {deflate : Deflate ζ} {z₀ : ζ} {k limit bound : Nat} {settings : Settings} {st : State}

theorem quota_checkSpace (hset : ∀ key, IsSetting (settings key))
    (hlimit : limitOf (settings "storage_max_usage_kib") = some limit) (hsize : bound < 2 ^ 63)
    (h : Quota limit bound st) (statfs : Option Statfs) {dirSize : Nat} (hdir : dirSize < 2 ^ 62) :
    Quota limit bound (checkSpace settings st (diskOf st statfs true dirSize)) := by
  have husage := h.usage
  have hroom := available_le hset hlimit (diskOf st statfs true dirSize)
  rw [folderSize_diskOf (by omega)] at hroom
  refine ⟨husage, fun maxSize hmax => ?_⟩
  rw [checkSpace] at hmax ⊢
  dsimp only at hmax ⊢
  split at hmax
  · cases hmax
  · obtain rfl := Option.some.inj hmax
    omega

/-- The file that is written comes to the others. -/
theorem usage_writeCore (deflate : Deflate ζ) (z₀ : ζ) (st : State) (maxSize : Nat)
    (uuid : Vector UInt8 16) (env : TransformEnv) (malloc txdata unlink : Bool) :
    let t := prvTransformCoredumpFromFdToFile deflate z₀ st.config.gzipEnabled
      (exists_ st.files (prvGenerateFilename st.config uuid)) maxSize env
    usage (writeCore deflate z₀ st maxSize uuid env malloc txdata unlink).files
      ≤ (t.2.map (·.file.length)).getD 0 + usage st.files := by
  intro t
  have hall : usage ((t.2.map (fun s => (prvGenerateFilename st.config uuid, s.file))).toList
      ++ st.files) = (t.2.map (·.file.length)).getD 0 + usage st.files := by
    cases t.2 with
    | none => exact (Nat.zero_add _).symm
    | some s => exact usage_cons _ _
  rw [← hall, writeCore]
  split
  · exact Nat.le_refl _
  · split
    · exact Nat.le_refl _
    · exact usage_removeFile_le _ _ _

theorem room_writeCore (st : State) (maxSize : Nat) (uuid : Vector UInt8 16) (env : TransformEnv)
    (malloc txdata unlink : Bool) :
    (writeCore deflate z₀ st maxSize uuid env malloc txdata unlink).room = none := by
  rw [writeCore]
  split
  · rfl
  · split
    · rfl
    · rfl

/-- **One event.** -/
theorem quota_step (hset : ∀ key, IsSetting (settings key))
    (hlimit : limitOf (settings "storage_max_usage_kib") = some limit)
    (hbound : limit + k ≤ bound) (hsize : bound < 2 ^ 63) (ev : Event) (h : Quota limit bound st)
    (hok : EventOk deflate z₀ k st ev) :
    Quota limit bound (step settings deflate z₀ st ev) := by
  cases ev with
  | checkSpace statfs nftw dirSize =>
      obtain ⟨rfl, hdir⟩ := hok
      exact quota_checkSpace hset hlimit hsize h statfs hdir
  | writeCore uuid env malloc txdata unlink =>
      rw [step]
      cases hroom : st.room with
      | none => exact h
      | some maxSize =>
          have hfit := h.room maxSize hroom
          have husage := usage_writeCore deflate z₀ st maxSize uuid env malloc txdata unlink
          refine ⟨husage.trans ?_, fun r hr => ?_⟩
          · have hrun := run_bounded deflate z₀ st.config.gzipEnabled
              (exists_ st.files (prvGenerateFilename st.config uuid)) maxSize env
            have hcalls := hok maxSize hroom
            revert hrun hcalls
            cases (prvTransformCoredumpFromFdToFile deflate z₀ st.config.gzipEnabled
              (exists_ st.files (prvGenerateFilename st.config uuid)) maxSize env).2 with
            | none =>
                intro _ _
                have := h.usage
                show 0 + usage st.files ≤ bound
                omega
            | some s =>
                intro hrun hcalls
                obtain ⟨hfails, hcall⟩ := hcalls s rfl
                have hfile := (hrun s rfl ⟨by omega, hcall⟩).size
                show s.file.length + usage st.files ≤ bound
                omega
          · dsimp only at hr
            rw [room_writeCore] at hr
            cases hr
  | removeFile path =>
      have hless := usage_removeFile_le true path st.files
      exact ⟨hless.trans h.usage, fun r hr =>
        (Nat.add_le_add_right hless r).trans (h.room r hr)⟩

end Quota

/-- A directory of one KiB, and the core of `smallDump` with gzip; the kernel is interrupted
    once. -/
def smallSettings : Settings
  | "storage_max_usage_kib" => some 1
  | "coredump_max_size_kib" => some 4
  | _ => none

def smallEnv : TransformEnv :=
  ⟨true, true, true, true, some smallWriter, CoreElfFileIo.interruptedOnce, true, 0, 20⟩

theorem coreDir_no_nul : 0 ∉ CText.ascii "/core" := by decide

theorem coreDir_short : (CText.ascii "/core").length < 4096 := by decide

def smallConfig : Config := ⟨CText.ascii "/core", true, true, coreDir_no_nul, coreDir_short⟩

def twoCores : List Event :=
  [.checkSpace none true 60, .writeCore (Vector.replicate 16 0) smallEnv true true true,
    .checkSpace none true 60, .writeCore (Vector.replicate 16 1) smallEnv true true true]

theorem smallSettings_ok : ∀ key, IsSetting (smallSettings key) := by
  intro key
  unfold smallSettings
  split
  · decide
  · decide
  · exact fun val hval => by cases hval

/-- The core in a file. -/
def opened (inflate : List UInt8 → Option (List UInt8)) (gzipEnabled : Bool)
    (bytes : List UInt8) : Option (List UInt8) :=
  if gzipEnabled then inflate bytes else some bytes

/-- The file holds the core of a process, whole. -/
def HoldsDump (inflate : List UInt8 → Option (List UInt8)) (gzipEnabled : Bool)
    (bytes : List UInt8) : Prop :=
  ∃ stream mem m core, opened inflate gzipEnabled bytes = some core ∧ IsDumpOf stream mem m core

/-- The transformer has gone through a core of the kernel, whose notes are shorter than
    `2 ^ 32` bytes. -/
def FromCore (w : Writer) : Prop :=
  ∃ stream mem m, CoreElfTransformer.IsCore stream ∧ Gathered stream mem m w ∧
    CoreElfWriter.layoutEnd
      (ehdrSize + phdrSize * (CoreElfTransformer.outputSegments stream mem m).length)
      ((CoreElfTransformer.outputSegments stream mem m).map Prod.fst) < 2 ^ 63 ∧
    ∀ x ∈ CoreElfTransformer.outputSegments stream mem m, x.1.type = ptNote → Short x.2

/-- What an event has to keep to: a name is not made twice, and the kernel writes cores to
    its pipe. -/
def CoreOk (st : State) : Event → Prop
  | .writeCore uuid env _ _ _ => prvGenerateFilename st.config uuid ∉ st.queued ∧
      ∀ w ∈ env.gathered, FromCore w
  | _ => True

/-- Every queued file that is still there holds a core. -/
def Whole (inflate : List UInt8 → Option (List UInt8)) (st : State) : Prop :=
  ∀ file ∈ st.files, file.1 ∈ st.queued → HoldsDump inflate st.config.gzipEnabled file.2

section Queued

variable {deflate : Deflate ζ} {inflate : List UInt8 → Option (List UInt8)} {z₀ : ζ}
  {settings : Settings} {st : State}

/-- **A transformation that returns true** has created the file, and it holds a core. -/
theorem transform_true (hz : Inflates deflate inflate z₀) (progress : Progress deflate)
    (hopen : progress.Open z₀) (gzipEnabled exists_ : Bool) (maxSize : Nat) {env : TransformEnv}
    (hcore : ∀ w ∈ env.gathered, FromCore w)
    (h : (prvTransformCoredumpFromFdToFile deflate z₀ gzipEnabled exists_ maxSize env).1
      = some true) :
    exists_ = false ∧ ∃ s, (prvTransformCoredumpFromFdToFile deflate z₀ gzipEnabled exists_ maxSize
      env).2 = some s ∧ HoldsDump inflate gzipEnabled s.file := by
  rw [prvTransformCoredumpFromFdToFile] at h ⊢
  split at h
  · cases h
  rename_i hready
  rw [if_neg hready]
  split at h
  · cases h
  rename_i hnew
  rw [if_neg hnew]
  refine ⟨Bool.eq_false_iff.mpr fun hno => hnew (Or.inl hno), ?_⟩
  -- a reader that fails before the segments does not return true
  cases hgathered : env.gathered with
  | none =>
      rw [hgathered] at h
      split at h
      · split at h
        · cases h
        · cases h
      · cases h
  | some w =>
      obtain ⟨stream, mem, m, hin, hw, hend, hshort⟩ := hcore w hgathered
      rw [hgathered] at h
      split at h
      · rename_i hgzip
        split at h
        · cases h
        rename_i hinit
        rw [if_pos hgzip, if_neg hinit]
        obtain ⟨htrue, hfile⟩ := gzip_stores hz progress hopen (hw.tame hshort) (run_eq h)
        rw [calmWriter_image hin hend hw htrue] at hfile
        exact ⟨_, rfl, stream, mem, m, _, (if_pos hgzip).trans hfile, image_isDump hin hend⟩
      · rename_i hgzip
        rw [if_neg hgzip]
        obtain ⟨htrue, hfile⟩ := file_stores (hw.tame hshort) (run_eq h)
        rw [calmWriter_image hin hend hw htrue] at hfile
        exact ⟨_, rfl, stream, mem, m, _, (if_neg hgzip).trans (congrArg some hfile),
          image_isDump hin hend⟩

theorem ne_of_not_exists {files : List (Path × List UInt8)} {path : Path}
    (h : exists_ files path = false) {file : Path × List UInt8} (hfile : file ∈ files) :
    file.1 ≠ path := by
  intro heq
  have hno := List.any_eq_false.mp h file hfile
  rw [heq, beq_self_eq_true] at hno
  exact hno rfl

theorem mem_of_mem_removeFile {unlink : Bool} {path : Path} {files : List (Path × List UInt8)}
    {file : Path × List UInt8} (h : file ∈ removeFile unlink path files) : file ∈ files := by
  rw [removeFile] at h
  split at h
  · exact (List.mem_filter.mp h).1
  · exact h

/-- The event of the writer keeps it: the name is new, and it is queued only with a core. -/
theorem whole_writeCore (hz : Inflates deflate inflate z₀) (progress : Progress deflate)
    (hopen : progress.Open z₀) (h : Whole inflate st) (maxSize : Nat) {uuid : Vector UInt8 16}
    {env : TransformEnv} (malloc txdata unlink : Bool)
    (hnew : prvGenerateFilename st.config uuid ∉ st.queued)
    (hcore : ∀ w ∈ env.gathered, FromCore w) :
    Whole inflate (writeCore deflate z₀ st maxSize uuid env malloc txdata unlink) := by
  have htrue := transform_true hz progress hopen st.config.gzipEnabled
    (exists_ st.files (prvGenerateFilename st.config uuid)) maxSize hcore
  rw [writeCore]
  generalize prvTransformCoredumpFromFdToFile deflate z₀ st.config.gzipEnabled
    (exists_ st.files (prvGenerateFilename st.config uuid)) maxSize env = t at htrue ⊢
  generalize houtfile : prvGenerateFilename st.config uuid = outfile at htrue hnew ⊢
  -- a file that is not the new one is one of the old ones
  have hold : ∀ file ∈ (t.2.map (fun s => (outfile, s.file))).toList ++ st.files,
      file.1 ∈ st.queued → HoldsDump inflate st.config.gzipEnabled file.2 := by
    intro file hfile hqueued
    rcases List.mem_append.mp hfile with hmem | hmem
    · obtain ⟨s, -, rfl⟩ := Option.map_eq_some_iff.mp (Option.mem_toList.mp hmem)
      exact absurd hqueued hnew
    · exact h file hmem hqueued
  obtain ⟨result, state⟩ := t
  dsimp only at htrue hold ⊢
  by_cases hkilled : result = none
  · rw [if_pos hkilled]
    exact hold
  · rw [if_neg hkilled]
    by_cases hall : result = some true ∧ malloc = true ∧ txdata = true
    · obtain ⟨rfl, rfl, rfl⟩ := hall
      obtain ⟨hfresh, s, rfl, hdump⟩ := htrue rfl
      intro file hfile hqueued
      rcases List.mem_cons.mp hqueued with heq | hqueued
      · rcases List.mem_cons.mp hfile with rfl | hmem
        · exact hdump
        · exact absurd heq (ne_of_not_exists hfresh hmem)
      · exact hold file hfile hqueued
    · rw [if_neg hall]
      exact fun file hfile hqueued => hold file (mem_of_mem_removeFile hfile) hqueued

theorem whole_step (hz : Inflates deflate inflate z₀) (progress : Progress deflate)
    (hopen : progress.Open z₀) (ev : Event) (h : Whole inflate st) (hok : CoreOk st ev) :
    Whole inflate (step settings deflate z₀ st ev) := by
  cases ev with
  | checkSpace statfs nftw dirSize => exact h
  | writeCore uuid env malloc txdata unlink =>
      rw [step]
      cases st.room with
      | none => exact h
      | some maxSize => exact whole_writeCore hz progress hopen h maxSize _ _ _ hok.1 hok.2
  | removeFile path =>
      intro file hfile
      have hmem : file ∈ removeFile true path st.files := hfile
      exact h file (mem_of_mem_removeFile hmem)

end Queued

end CoreQuota
