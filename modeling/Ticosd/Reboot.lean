import Ticosd.CText
import Ticosd.Decimal

/-! # Reboot plugin — one event per boot

    `reboot.c`, `reboot_last_boot_id.c` and `reboot_process_pstore.c`.  At every
    start the daemon compares the boot id of the kernel with the one in the file
    `last_tracked_boot_id`.  If they differ it writes the id and, with data
    collection enabled, reads and deletes the three sources of a reboot reason
    and submits an event with the first reason found.

    The file decides: after any start it holds the id of the boot, so a later
    start of the same boot submits nothing. -/

namespace Reboot

open Decimal CText

/-! ## Reasons and events -/

/-- Values of `eTicosRebootReason`, as `%d` prints them. -/
def kTicosRebootReasonUnknown : Int := 0x0000
def kTicosRebootReasonUserReset : Int := 0x0002
def kTicosRebootReasonFirmwareUpdate : Int := 0x0003
def kTicosRebootReasonKernelPanic : Int := 0x8008

/-- What the plugin reads of the configuration and the device settings; the
    customer's file may have no name in the configuration. -/
structure Config where
  softwareType : List UInt8
  softwareVersion : List UInt8
  hardwareVersion : List UInt8
  lastRebootReasonFile : Bool

/-- The text of a reboot event. -/
def eventText (cfg : Config) (reason : Int) : List UInt8 :=
  ascii "\x7b\"Type\": \"Trace\",\"SoftwareType\": \"" ++ cfg.softwareType ++
  ascii "\",\"SoftwareVersion\": \"" ++ cfg.softwareVersion ++
  ascii "\",\"HardwareVersion\": \"" ++ cfg.hardwareVersion ++
  ascii "\",\"SdkVersion\": \"0.2.0\",\"EventInfo\": \x7b\"Reason\": " ++ intText reason ++
  ascii "\x7d,\"UserInfo\": \x7b\x7d\x7d"

/-- An event given to `ticosd_txdata`: its reason and its payload, a C string. -/
structure RebootEvent where
  reason : Int
  payload : List UInt8
  deriving DecidableEq

/-- `prv_reboot_build_event` without user info: the text and its NUL have 1024
    bytes. -/
def prvRebootBuildEvent (cfg : Config) (reason : Int) : Option RebootEvent :=
  if (eventText cfg reason).length ≥ 1024 then none
  else some ⟨reason, eventText cfg reason ++ [0]⟩

/-! ## Files -/

/-- The files of the plugin; `none` is a file that does not exist. -/
structure Files where
  lastTrackedBootId : Option (List UInt8)
  customer : Option (List UInt8)
  internal : Option (List UInt8)
  /-- The names of the regular files below `PSTORE_DIR`. -/
  pstore : List String

/-- `PSTORE_DMESG_FILE` below `PSTORE_DIR`. -/
def pstoreDmesgFile : String := "dmesg-ramoops-0"

/-- `UUID_STR_LEN - 1`. -/
def uuidLength : Nat := 36

/-- A boot id as the kernel gives it: 36 characters. -/
structure BootId where
  text : List UInt8
  length_eq : text.length = uuidLength
  no_nul : 0 ∉ text

/-- `prv_read_tracked_boot_id`: the first 36 bytes, or nothing. -/
def prvReadTrackedBootId (content : List UInt8) : List UInt8 :=
  if (content.take uuidLength).length ≠ uuidLength then [] else content.take uuidLength

/-- `ticos_reboot_is_untracked_boot_id`: the answer and the file afterwards, which
    opening it for appending creates. -/
def ticosRebootIsUntrackedBootId (file : Option (List UInt8)) (currentBootId : BootId) :
    Bool × Option (List UInt8) :=
  let content := file.getD []
  if cString (prvReadTrackedBootId content) = cString currentBootId.text then
    (false, some content)
  else (true, some (cString currentBootId.text))

/-- The number that `fscanf` finds with `%d`. -/
def scanReason (text : List UInt8) : Option Int :=
  (scanNumber text).map (fun p => toInt32 (clampLong p.1))

/-- `prv_reboot_read_and_clear_reboot_reason_from_file`: the number at the front
    of the file; the file is deleted, with a number in it or not. -/
def prvRebootReadAndClearRebootReasonFromFile (file : Option (List UInt8)) :
    Option Int × Option (List UInt8) :=
  match file with
  | none => (none, none)
  | some text => (scanReason text, none)

/-! ## The sources of a reason -/

/-- `ticos_reboot_process_pstore_files`. -/
def ticosRebootProcessPstoreFiles (f : Files) : Files := { f with pstore := [] }

/-- `prv_reboot_read_and_clear_reboot_reason_pstore`. -/
def prvRebootReadAndClearRebootReasonPstore (f : Files) : Option Int × Files :=
  if pstoreDmesgFile ∈ f.pstore then
    (some kTicosRebootReasonKernelPanic, ticosRebootProcessPstoreFiles f)
  else (none, f)

/-- `prv_reboot_read_and_clear_reboot_reason_customer`. -/
def prvRebootReadAndClearRebootReasonCustomer (cfg : Config) (f : Files) : Option Int × Files :=
  if cfg.lastRebootReasonFile then
    let r := prvRebootReadAndClearRebootReasonFromFile f.customer
    (r.1, { f with customer := r.2 })
  else (none, f)

/-- `prv_reboot_read_and_clear_reboot_reason_internal`. -/
def prvRebootReadAndClearRebootReasonInternal (f : Files) : Option Int × Files :=
  let r := prvRebootReadAndClearRebootReasonFromFile f.internal
  (r.1, { f with internal := r.2 })

/-- `s_reboot_reason_sources`, ordered by priority (high to low). -/
def rebootReasonSources (cfg : Config) : List (Files → Option Int × Files) :=
  [prvRebootReadAndClearRebootReasonPstore,
    prvRebootReadAndClearRebootReasonCustomer cfg,
    prvRebootReadAndClearRebootReasonInternal]

/-- The loop of `prv_resolve_reboot_reason`: every source is read and cleared, the
    first reason found is kept. -/
def resolveLoop : List (Files → Option Int × Files) → Option Int → Files → Option Int × Files
  | [], prioritized, f => (prioritized, f)
  | source :: rest, prioritized, f =>
      let r := source f
      resolveLoop rest (prioritized.or r.1) r.2

/-- `prv_resolve_reboot_reason`. -/
def prvResolveRebootReason (cfg : Config) (f : Files) : Int × Files :=
  let r := resolveLoop (rebootReasonSources cfg) none f
  (r.1.getD kTicosRebootReasonUnknown, r.2)

/-! ## Start of the daemon -/

/-- `prv_track_reboot`: the event given to `ticosd_txdata`, if it could be built. -/
def prvTrackReboot (cfg : Config) (f : Files) : Option RebootEvent × Files :=
  let r := prvResolveRebootReason cfg f
  (prvRebootBuildEvent cfg r.1, r.2)

/-- `prv_run_if_untracked_boot_id`. -/
def prvRunIfUntrackedBootId (cb : Files → Option RebootEvent × Files) (bootId : BootId)
    (f : Files) : Option RebootEvent × Files :=
  let r := ticosRebootIsUntrackedBootId f.lastTrackedBootId bootId
  let f' := { f with lastTrackedBootId := r.2 }
  if r.1 then cb f' else (none, f')

/-- `ticosd_reboot_init`: the event submitted, if any, and the files afterwards.
    With data collection disabled the boot is marked as tracked and the pstore
    cleared. -/
def ticosdRebootInit (cfg : Config) (bootId : BootId) (enableDataCollection : Bool) (f : Files) :
    Option RebootEvent × Files :=
  if !enableDataCollection then
    let r := prvRunIfUntrackedBootId (fun f => (none, f)) bootId f
    (r.1, ticosRebootProcessPstoreFiles r.2)
  else prvRunIfUntrackedBootId (prvTrackReboot cfg) bootId f

/-! ## The tracking file -/

/-- The file begins with the id. -/
def Holds (file : Option (List UInt8)) (bootId : BootId) : Prop :=
  (file.getD []).take uuidLength = bootId.text

instance (file : Option (List UInt8)) (bootId : BootId) : Decidable (Holds file bootId) :=
  inferInstanceAs (Decidable (_ = _))

/-- The comparison of the two strings is one of the first 36 bytes. -/
theorem tracked_iff (content : List UInt8) (bootId : BootId) :
    cString (prvReadTrackedBootId content) = cString bootId.text ↔
      content.take uuidLength = bootId.text := by
  rw [cString_eq bootId.no_nul]
  constructor
  · intro h
    have hlen : (cString (prvReadTrackedBootId content)).length = uuidLength := by
      rw [h, bootId.length_eq]
    have hle := cString_length_le (prvReadTrackedBootId content)
    rw [prvReadTrackedBootId] at h hlen hle
    by_cases hshort : (content.take uuidLength).length ≠ uuidLength
    · rw [if_pos hshort] at hlen
      exact absurd hlen (by decide)
    · rw [if_neg hshort] at h
      have hpre : cString (content.take uuidLength) <+: content.take uuidLength :=
        List.takeWhile_prefix _
      rw [h] at hpre
      exact (hpre.eq_of_length (by rw [bootId.length_eq]; exact (not_not.mp hshort).symm)).symm
  · intro h
    rw [prvReadTrackedBootId, h, bootId.length_eq, if_neg (not_not.mpr rfl),
      cString_eq bootId.no_nul]

/-- The answer is whether the file held the id; afterwards it does. -/
theorem isUntracked_spec (file : Option (List UInt8)) (bootId : BootId) :
    ((ticosRebootIsUntrackedBootId file bootId).1 = true ↔ ¬Holds file bootId) ∧
      Holds (ticosRebootIsUntrackedBootId file bootId).2 bootId := by
  by_cases h : Holds file bootId
  · have heq : ticosRebootIsUntrackedBootId file bootId = (false, some (file.getD [])) :=
      if_pos ((tracked_iff _ _).mpr h)
    rw [heq]
    exact ⟨⟨fun hf => (nomatch hf), fun hn => absurd h hn⟩, h⟩
  · have heq : ticosRebootIsUntrackedBootId file bootId = (true, some (cString bootId.text)) :=
      if_neg (fun hs => h ((tracked_iff _ _).mp hs))
    rw [heq]
    refine ⟨⟨fun _ => h, fun _ => rfl⟩, ?_⟩
    show (cString bootId.text).take uuidLength = bootId.text
    rw [cString_eq bootId.no_nul, ← bootId.length_eq, List.take_length]

/-! ## Resolving the reason -/

/-- The reason of the source with the highest priority among those that yield
    one. -/
def highestPriority (pstore customer internal : Option Int) : Int :=
  (pstore.or (customer.or internal)).getD kTicosRebootReasonUnknown

/-- What the sources yield: the pstore a kernel panic, a file its number. -/
def pstoreReason (f : Files) : Option Int :=
  if pstoreDmesgFile ∈ f.pstore then some kTicosRebootReasonKernelPanic else none

def customerReason (cfg : Config) (f : Files) : Option Int :=
  if cfg.lastRebootReasonFile then f.customer.bind scanReason else none

def internalReason (f : Files) : Option Int := f.internal.bind scanReason

/-- The files after all sources have been cleared. -/
def cleared (cfg : Config) (f : Files) : Files where
  lastTrackedBootId := f.lastTrackedBootId
  customer := if cfg.lastRebootReasonFile then none else f.customer
  internal := none
  pstore := if pstoreDmesgFile ∈ f.pstore then [] else f.pstore

theorem readAndClear_eq (file : Option (List UInt8)) :
    prvRebootReadAndClearRebootReasonFromFile file = (file.bind scanReason, none) := by
  cases file with
  | none => rfl
  | some text => rfl

/-- **All sources are read and cleared, the first reason wins.** -/
theorem resolve_eq (cfg : Config) (f : Files) :
    prvResolveRebootReason cfg f =
      (highestPriority (pstoreReason f) (customerReason cfg f) (internalReason f),
        cleared cfg f) := by
  simp only [prvResolveRebootReason, rebootReasonSources, resolveLoop, Option.none_or,
    prvRebootReadAndClearRebootReasonPstore, prvRebootReadAndClearRebootReasonCustomer,
    prvRebootReadAndClearRebootReasonInternal, readAndClear_eq, highestPriority, pstoreReason,
    customerReason, internalReason, cleared, ticosRebootProcessPstoreFiles]
  -- the pstore file and the configured name each decide what is cleared
  by_cases hp : pstoreDmesgFile ∈ f.pstore
  · cases hc : cfg.lastRebootReasonFile with
    | true => simp only [hp, if_true]; rfl
    | false => simp only [hp, if_true]; rfl
  · cases hc : cfg.lastRebootReasonFile with
    | true => simp only [hp, if_false, if_true]; cases f.customer.bind scanReason <;> rfl
    | false => simp only [hp, if_false]; rfl

/-- What a start does, in the four cases. -/
theorem init_cases (cfg : Config) (bootId : BootId) (collect : Bool) (f : Files) :
    (Holds f.lastTrackedBootId bootId ∨ collect = false) ∧
      (ticosdRebootInit cfg bootId collect f).1 = none ∧
      (ticosdRebootInit cfg bootId collect f).2.customer = f.customer ∧
      (ticosdRebootInit cfg bootId collect f).2.internal = f.internal ∧
      (ticosdRebootInit cfg bootId collect f).2.pstore = (if collect then f.pstore else []) ∨
    (¬Holds f.lastTrackedBootId bootId ∧ collect = true) ∧
      (ticosdRebootInit cfg bootId collect f).1 = prvRebootBuildEvent cfg
        (highestPriority (pstoreReason f) (customerReason cfg f) (internalReason f)) ∧
      (ticosdRebootInit cfg bootId collect f).2 = cleared cfg { f with
        lastTrackedBootId := (ticosRebootIsUntrackedBootId f.lastTrackedBootId bootId).2 } := by
  obtain ⟨hiff, -⟩ := isUntracked_spec f.lastTrackedBootId bootId
  cases collect with
  | false =>
      refine Or.inl ⟨Or.inr rfl, ?_⟩
      simp only [ticosdRebootInit, prvRunIfUntrackedBootId, ticosRebootProcessPstoreFiles,
        Bool.not_false, if_true, ite_self, Bool.false_eq_true, if_false, and_self]
  | true =>
      by_cases h : Holds f.lastTrackedBootId bootId
      · have hfalse : (ticosRebootIsUntrackedBootId f.lastTrackedBootId bootId).1 = false :=
          Bool.eq_false_iff.mpr (fun ht => hiff.mp ht h)
        refine Or.inl ⟨Or.inl h, ?_⟩
        simp only [ticosdRebootInit, prvRunIfUntrackedBootId, hfalse, Bool.not_true,
          Bool.false_eq_true, if_false, if_true, and_self]
      · have htrue := hiff.mpr h
        refine Or.inr ⟨⟨h, rfl⟩, ?_⟩
        simp only [ticosdRebootInit, prvRunIfUntrackedBootId, htrue, Bool.not_true,
          Bool.false_eq_true, if_false, if_true, prvTrackReboot, resolve_eq]
        exact ⟨rfl, trivial⟩

/-- After every start the file holds the id. -/
theorem init_holds (cfg : Config) (bootId : BootId) (collect : Bool) (f : Files) :
    Holds (ticosdRebootInit cfg bootId collect f).2.lastTrackedBootId bootId := by
  obtain ⟨-, hafter⟩ := isUntracked_spec f.lastTrackedBootId bootId
  have htracked : (ticosdRebootInit cfg bootId collect f).2.lastTrackedBootId
      = (ticosRebootIsUntrackedBootId f.lastTrackedBootId bootId).2 := by
    cases collect with
    | false =>
        simp only [ticosdRebootInit, prvRunIfUntrackedBootId, ticosRebootProcessPstoreFiles,
          Bool.not_false, if_true, ite_self]
    | true =>
        simp only [ticosdRebootInit, prvRunIfUntrackedBootId, Bool.not_true, Bool.false_eq_true,
          if_false, prvTrackReboot, resolve_eq]
        split
        · rfl
        · rfl
  rw [htracked]
  exact hafter

/-! ## Sequences of starts -/

/-- A start of the daemon: the data collection flag, and what the sources hold at
    that time. -/
structure Start where
  collect : Bool
  customer : Option (List UInt8)
  internal : Option (List UInt8)
  pstore : List String

/-- A boot and the starts of the daemon before the next one. -/
structure Boot where
  bootId : BootId
  starts : List Start

/-- The files a start finds. -/
def Start.files (st : Start) (tracked : Option (List UInt8)) : Files where
  lastTrackedBootId := tracked
  customer := st.customer
  internal := st.internal
  pstore := st.pstore

/-- One start. -/
def Start.run (cfg : Config) (bootId : BootId) (tracked : Option (List UInt8)) (st : Start) :
    Option RebootEvent × Files :=
  ticosdRebootInit cfg bootId st.collect (st.files tracked)

/-- The starts of a boot: the events submitted and the tracking file afterwards. -/
def runStarts (cfg : Config) (bootId : BootId) :
    Option (List UInt8) → List Start → List RebootEvent × Option (List UInt8)
  | tracked, [] => ([], tracked)
  | tracked, st :: rest =>
      let r := st.run cfg bootId tracked
      let rs := runStarts cfg bootId r.2.lastTrackedBootId rest
      (r.1.toList ++ rs.1, rs.2)

/-- The tracking file after some boots. -/
def trackedAfter (cfg : Config) (tracked : Option (List UInt8)) (boots : List Boot) :
    Option (List UInt8) :=
  boots.foldl (fun tracked b => (runStarts cfg b.bootId tracked b.starts).2) tracked

/-- The events submitted for each boot of a sequence. -/
def eventsOf (cfg : Config) : Option (List UInt8) → List Boot → List (List RebootEvent)
  | _, [] => []
  | tracked, b :: rest =>
      let r := runStarts cfg b.bootId tracked b.starts
      r.1 :: eventsOf cfg r.2 rest

/-- No start of a tracked boot submits anything. -/
theorem runStarts_tracked (cfg : Config) (bootId : BootId) {tracked : Option (List UInt8)}
    (h : Holds tracked bootId) (starts : List Start) :
    (runStarts cfg bootId tracked starts).1 = [] := by
  induction starts generalizing tracked with
  | nil => rfl
  | cons st rest ih =>
      have hnone : (st.run cfg bootId tracked).1 = none := by
        rcases init_cases cfg bootId st.collect (st.files tracked) with ⟨-, h1, -⟩ | ⟨⟨hno, -⟩, -⟩
        · exact h1
        · exact absurd h hno
      simp only [runStarts, hnone, Option.toList_none, List.nil_append]
      exact ih (init_holds cfg bootId st.collect (st.files tracked))

/-- Only the first start of a boot submits an event. -/
theorem runStarts_cons (cfg : Config) (bootId : BootId) (tracked : Option (List UInt8))
    (st : Start) (rest : List Start) :
    (runStarts cfg bootId tracked (st :: rest)).1 = (st.run cfg bootId tracked).1.toList := by
  have hrest := runStarts_tracked cfg bootId
    (init_holds cfg bootId st.collect (st.files tracked)) rest
  simp only [runStarts, Start.run, hrest, List.append_nil]

theorem eventsOf_length (cfg : Config) (tracked : Option (List UInt8)) (boots : List Boot) :
    (eventsOf cfg tracked boots).length = boots.length := by
  induction boots generalizing tracked with
  | nil => rfl
  | cons b rest ih => rw [eventsOf, List.length_cons, List.length_cons, ih]

theorem eventsOf_append (cfg : Config) (tracked : Option (List UInt8)) (pre post : List Boot)
    (b : Boot) :
    eventsOf cfg tracked (pre ++ b :: post) =
      eventsOf cfg tracked pre ++
        (runStarts cfg b.bootId (trackedAfter cfg tracked pre) b.starts).1 ::
        eventsOf cfg (runStarts cfg b.bootId (trackedAfter cfg tracked pre) b.starts).2 post := by
  induction pre generalizing tracked with
  | nil => rfl
  | cons c pre ih =>
      rw [List.cons_append, eventsOf, eventsOf, ih, List.cons_append]
      rfl

theorem toInt32_range (i : Int) : -2 ^ 31 ≤ toInt32 i ∧ toInt32 i < 2 ^ 31 := by
  simp only [toInt32, Int.bmod_def]
  split <;> omega

theorem scanReason_range {text : List UInt8} {r : Int} (h : scanReason text = some r) :
    -2 ^ 31 ≤ r ∧ r < 2 ^ 31 := by
  obtain ⟨p, -, rfl⟩ := Option.map_eq_some_iff.mp h
  exact toInt32_range _

/-- The reason that a start reports. -/
def Start.reason (cfg : Config) (st : Start) : Int :=
  highestPriority (pstoreReason (st.files none)) (customerReason cfg (st.files none))
    (internalReason (st.files none))

theorem reason_range (cfg : Config) (st : Start) :
    -2 ^ 31 ≤ st.reason cfg ∧ st.reason cfg < 2 ^ 31 := by
  have hbind : ∀ {file : Option (List UInt8)} {r : Int}, file.bind scanReason = some r →
      -2 ^ 31 ≤ r ∧ r < 2 ^ 31 := by
    intro file r h
    obtain ⟨text, -, hr⟩ := Option.bind_eq_some_iff.mp h
    exact scanReason_range hr
  have hdefault : ∀ {o : Option Int}, (∀ r, o = some r → -2 ^ 31 ≤ r ∧ r < 2 ^ 31) →
      -2 ^ 31 ≤ o.getD kTicosRebootReasonUnknown ∧ o.getD kTicosRebootReasonUnknown < 2 ^ 31 := by
    intro o ho
    cases o with
    | none => exact ⟨by decide, by decide⟩
    | some r => exact ho r rfl
  refine hdefault ?_
  intro r hr
  rcases Option.or_eq_some_iff.mp hr with h | ⟨-, h⟩
  · rw [pstoreReason] at h
    split at h
    · rw [← Option.some.inj h]
      exact ⟨by decide, by decide⟩
    · exact nomatch h
  · rcases Option.or_eq_some_iff.mp h with h | ⟨-, h⟩
    · rw [customerReason] at h
      split at h
      · exact hbind h
      · exact nomatch h
    · exact hbind h

/-- **One reboot event per boot, with the right reason.**  For every sequence of
    boots and any tracking file at first: at most one event is submitted for each
    boot; if its first start has data collection enabled and finds another id in
    the file, exactly one, with the reason of the source with the highest
    priority that yields one, and right after that start the sources are gone. -/
theorem one_event_per_boot (cfg : Config) (tracked : Option (List UInt8)) (pre post : List Boot)
    (b : Boot)
    (hfit : ∀ reason, -2 ^ 31 ≤ reason → reason < 2 ^ 31 → (eventText cfg reason).length < 1024) :
    ∃ events, (eventsOf cfg tracked (pre ++ b :: post))[pre.length]? = some events ∧
      events.length ≤ 1 ∧
      ∀ first rest, b.starts = first :: rest → first.collect = true →
        ¬Holds (trackedAfter cfg tracked pre) b.bootId →
        events = [⟨first.reason cfg, eventText cfg (first.reason cfg) ++ [0]⟩] ∧
        (cfg.lastRebootReasonFile = true →
          (first.run cfg b.bootId (trackedAfter cfg tracked pre)).2.customer = none) ∧
        (first.run cfg b.bootId (trackedAfter cfg tracked pre)).2.internal = none ∧
        pstoreDmesgFile ∉ (first.run cfg b.bootId (trackedAfter cfg tracked pre)).2.pstore := by
  refine ⟨_, by rw [eventsOf_append, ← eventsOf_length cfg tracked pre, List.getElem?_append_right
    (Nat.le_refl _), Nat.sub_self]; rfl, ?_, ?_⟩
  · -- only the first start of a boot can find another id in the file
    cases hstarts : b.starts with
    | nil => exact Nat.zero_le 1
    | cons first rest =>
        rw [runStarts_cons]
        cases (first.run cfg b.bootId (trackedAfter cfg tracked pre)).1 with
        | none => exact Nat.zero_le 1
        | some ev => exact Nat.le_refl 1
  · intro first rest hstarts hcollect hno
    rw [hstarts, runStarts_cons]
    -- the two early returns are excluded by the hypotheses
    rcases init_cases cfg b.bootId first.collect (first.files (trackedAfter cfg tracked pre)) with
      ⟨hyes | hoff, -⟩ | ⟨-, hev, hfiles⟩
    · exact absurd hyes hno
    · rw [hcollect] at hoff
      exact nomatch hoff
    · obtain ⟨hlo, hhi⟩ := reason_range cfg first
      have hbuild : prvRebootBuildEvent cfg (first.reason cfg)
          = some ⟨first.reason cfg, eventText cfg (first.reason cfg) ++ [0]⟩ :=
        if_neg (Nat.not_le.mpr (hfit _ hlo hhi))
      have hrun : (first.run cfg b.bootId (trackedAfter cfg tracked pre)).1
          = some ⟨first.reason cfg, eventText cfg (first.reason cfg) ++ [0]⟩ := hev.trans hbuild
      refine ⟨by rw [hrun]; rfl, ?_, ?_, ?_⟩
      · intro hfile
        rw [Start.run, hfiles, cleared]
        simp only [hfile, if_true]
      · rw [Start.run, hfiles, cleared]
      · rw [Start.run, hfiles, cleared]
        by_cases hp : pstoreDmesgFile ∈ first.pstore
        · simp only [Start.files, hp, if_true, List.not_mem_nil, not_false_eq_true]
        · simp only [Start.files, hp, if_false, not_false_eq_true]

/-- A device of small names, and two boots: data collection is off at the first
    and on at both starts of the second, which finds 4 in the customer's file and
    2 in the internal one. -/
def smallConfig : Config where
  softwareType := ascii "main"
  softwareVersion := ascii "1.0"
  hardwareVersion := ascii "evt"
  lastRebootReasonFile := true

def idOf (b : UInt8) (h : b ≠ 0) : BootId where
  text := List.replicate 36 b
  length_eq := List.length_replicate
  no_nul := fun hmem => h (List.eq_of_mem_replicate hmem).symm

def firstBoot : Boot := ⟨idOf 97 (by decide), [⟨false, none, none, []⟩]⟩

theorem second_ne_zero : (98 : UInt8) ≠ 0 := by decide

def secondBoot : Boot :=
  ⟨idOf 98 second_ne_zero,
    [⟨true, some (ascii "4"), some (ascii "2"), []⟩, ⟨true, none, some (ascii "3"), []⟩]⟩

theorem smallConfig_fits (reason : Int) (h1 : -2 ^ 31 ≤ reason) (h2 : reason < 2 ^ 31) :
    (eventText smallConfig reason).length < 1024 := by
  obtain ⟨head, tail, hsplit, hhead, htail⟩ : ∃ head tail,
      eventText smallConfig reason = head ++ intText reason ++ tail ∧
      head.length ≤ 500 ∧ tail.length ≤ 500 := ⟨_, _, rfl, by decide +kernel, by decide +kernel⟩
  rw [hsplit, List.length_append, List.length_append]
  have := intText_length_le h1 h2
  omega

theorem one_event_per_boot_second :
    ∃ events, (eventsOf smallConfig none ([firstBoot] ++ secondBoot :: []))[1]? = some events ∧
      events.map RebootEvent.reason = [4] := by
  obtain ⟨events, hget, -, hone⟩ := one_event_per_boot smallConfig none [firstBoot] [] secondBoot
    smallConfig_fits
  obtain ⟨heq, -⟩ := hone _ _ rfl rfl (by decide +kernel)
  refine ⟨events, hget, ?_⟩
  rw [heq]
  decide +kernel

end Reboot
