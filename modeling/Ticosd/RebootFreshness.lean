import Ticosd.Reboot
import Ticosd.GuardedRun

/-! # Reboot reasons over sessions — when a reported reason is fresh

    A session is the time from one boot to the next.  During a session the daemon
    is started and stopped, the customer's file is written, by `ticosctl reboot`
    or otherwise, and a panic fills the pstore.  A `History` is the state of the
    plugin with the session in which each source was written last, what has been
    recorded and what has been reported.

    A start with data collection disabled marks the boot as tracked and leaves
    the customer's and the internal file where they are, so that their reason is
    reported for a later boot.  `Left` names the sources that would go stale; in
    every run in which no start and no boot leaves one behind, every reported
    reason was recorded in the session before. -/

namespace RebootFreshness

open Decimal CText Reboot GuardedRun

/-! ## Stopping and `ticosctl reboot` -/

/-- `prv_reboot_destroy`, with the answers of systemd and of the boot loader: the
    reason written to the internal file. -/
def prvRebootDestroy (handle stopping upgrade : Bool) : Option Int :=
  if handle && stopping then
    some (if upgrade then kTicosRebootReasonFirmwareUpdate else kTicosRebootReasonUserReset)
  else none

/-- `ticosd_is_reboot_reason_valid`. -/
def ticosdIsRebootReasonValid (reason : Int) : Bool :=
  decide (reason ∈ ([0x0000, 0x0001, 0x0002, 0x0003, 0x0004, 0x0005, 0x0006, 0x0007, 0x0008,
    0x0009, 0x000A, 0x8000, 0x8001, 0x8002, 0x8003, 0x8004, 0x8005, 0x8006, 0x8007, 0x8008,
    0x8009, 0x9100, 0x9200, 0x9300, 0x9400, 0x9401] : List Int))

/-- `prv_cmd_reboot` up to the call of `reboot`: the reason written to the
    customer's file, as `%d`. -/
def prvCmdReboot (cfg : Config) (extraArgs : List (List UInt8)) : Option Int :=
  if !cfg.lastRebootReasonFile then none
  else match extraArgs with
    | [] => some kTicosRebootReasonUnknown
    | [option, reasonStr] =>
        if option ≠ ascii "--reason" then none
        else match scanReason reasonStr with
          | none => none
          | some reason => if ticosdIsRebootReasonValid reason then some reason else none
    | _ => none

/-! ## Histories -/

/-- What happens on the device. -/
inductive Event where
  | boot (bootId : BootId)
  | start (collect : Bool)
  | stop (stopping upgrade : Bool)
  | customerFile (content : Option (List UInt8))
  | reboot (extraArgs : List (List UInt8))
  | panic

/-- The device, and what a report is judged by. -/
structure History where
  files : Files
  bootId : BootId
  handle : Bool
  /-- The number of the session, and whether the daemon has been started in it. -/
  session : Nat
  started : Bool
  /-- The session in which each source was written last. -/
  customerAt : Nat
  internalAt : Nat
  pstoreAt : Nat
  /-- Reasons recorded and reasons reported, each with its session. -/
  records : List (Nat × Int)
  reports : List (Nat × Int)

/-- A file with the reason `%d`. -/
def History.writeCustomer (h : History) (text : Option (List UInt8)) (reason : Option Int) :
    History :=
  { h with
    files := { h.files with customer := text }
    customerAt := h.session
    records := h.records ++ reason.toList.map (fun r => (h.session, r)) }

/-- One event. -/
def step (cfg : Config) (h : History) : Event → History
  | .boot bootId =>
      { h with bootId := bootId, handle := false, session := h.session + 1, started := false }
  | .start collect =>
      let r := ticosdRebootInit cfg h.bootId collect h.files
      { h with
        files := r.2
        handle := collect
        started := true
        reports := h.reports ++ r.1.toList.map (fun ev => (h.session, ev.reason)) }
  | .stop stopping upgrade =>
      match prvRebootDestroy h.handle stopping upgrade with
      | none => { h with handle := false }
      | some reason =>
          { h with
            handle := false
            files := { h.files with internal := some (intText reason) }
            internalAt := h.session
            records := h.records ++ [(h.session, reason)] }
  | .customerFile content => h.writeCustomer content (content.bind scanReason)
  | .reboot extraArgs =>
      match prvCmdReboot cfg extraArgs with
      | none => h
      | some reason => h.writeCustomer (some (intText reason)) (some reason)
  | .panic =>
      { h with
        files := { h.files with pstore := pstoreDmesgFile :: h.files.pstore }
        pstoreAt := h.session
        records := h.records ++ [(h.session, kTicosRebootReasonKernelPanic)] }

/-- A device in its first session, with any tracking file. -/
def initial (bootId : BootId) (tracked : Option (List UInt8)) : History where
  files := ⟨tracked, none, none, []⟩
  bootId := bootId
  handle := false
  session := 0
  started := false
  customerAt := 0
  internalAt := 0
  pstoreAt := 0
  records := []
  reports := []

/-- Every reported reason is unknown or was recorded in the session before. -/
def Fresh (h : History) : Prop :=
  ∀ n reason, (n, reason) ∈ h.reports →
    reason = kTicosRebootReasonUnknown ∨ ∃ m, n = m + 1 ∧ (m, reason) ∈ h.records

/-! ## When nothing goes stale -/

/-- A source that exists: the session in which it was written and the reason it
    yields. -/
structure Source where
  since : Nat
  reason : Option Int
  deriving DecidableEq

/-- The sources a start can report, without the pstore if `pstore` is off. -/
def History.sources (cfg : Config) (pstore : Bool) (h : History) : List Source :=
  (if cfg.lastRebootReasonFile then
    h.files.customer.toList.map (fun text => ⟨h.customerAt, scanReason text⟩) else []) ++
  h.files.internal.toList.map (fun text => ⟨h.internalAt, scanReason text⟩) ++
  (if pstore && decide (pstoreDmesgFile ∈ h.files.pstore) then
    [⟨h.pstoreAt, some kTicosRebootReasonKernelPanic⟩] else [])

/-- The condition on an event.  The first start of a session, if it reads the
    sources, finds none written in the same session; if it does not read them
    (data collection is disabled, or the file holds the boot id), it leaves none of
    an earlier session (the pstore is cleared with data collection disabled); and
    a session without a start leaves none of an earlier session. -/
def EventOk (cfg : Config) (h : History) : Event → Prop
  | .start collect =>
      h.started = false →
        if collect = true ∧ ¬Holds h.files.lastTrackedBootId h.bootId then
          ∀ src ∈ h.sources cfg true, src.since ≠ h.session
        else ∀ src ∈ h.sources cfg collect, src.since = h.session
  | .boot _ => h.started = false → ∀ src ∈ h.sources cfg true, src.since = h.session
  | _ => True

instance (cfg : Config) (h : History) : ∀ e, Decidable (EventOk cfg h e)
  | .start _ => inferInstanceAs (Decidable (_ → ite _ _ _))
  | .boot _ => inferInstanceAs (Decidable (_ → _))
  | .stop .. => inferInstanceAs (Decidable True)
  | .customerFile _ => inferInstanceAs (Decidable True)
  | .reboot _ => inferInstanceAs (Decidable True)
  | .panic => inferInstanceAs (Decidable True)

/-! ## The invariant -/

/-- Every source yields a reason recorded in its session, which is the current
    one or, until the daemon has been started, the one before. -/
structure Inv (cfg : Config) (h : History) : Prop where
  fresh : Fresh h
  recorded : ∀ src ∈ h.sources cfg true, ∀ r, src.reason = some r → (src.since, r) ∈ h.records
  age : ∀ src ∈ h.sources cfg true,
    src.since = h.session ∨ h.started = false ∧ src.since + 1 = h.session
  tracked : h.started = true → Holds h.files.lastTrackedBootId h.bootId

variable {cfg : Config} {h h' : History}

theorem inv_initial (bootId : BootId) (tracked : Option (List UInt8)) :
    Inv cfg (initial bootId tracked) where
  fresh := fun n reason hmem => nomatch hmem
  recorded := by
    intro src hsrc
    have hnil : (initial bootId tracked).sources cfg true = [] := by
      simp [History.sources, initial]
    rw [hnil] at hsrc
    exact nomatch hsrc
  age := by
    intro src hsrc
    have hnil : (initial bootId tracked).sources cfg true = [] := by
      simp [History.sources, initial]
    rw [hnil] at hsrc
    exact nomatch hsrc
  tracked := fun hs => nomatch hs

/-- The number behind `%d`. -/
theorem scanReason_intText {r : Int} (h1 : -2 ^ 31 ≤ r) (h2 : r < 2 ^ 31) :
    scanReason (intText r) = some r := by
  have hscan := scanNumber_intText r (fun b hb => nomatch hb : NoDigit [])
  rw [List.append_nil] at hscan
  rw [scanReason, hscan, Option.map_some, clampLong_of_range (by omega) (by omega),
    toInt32_of_range h1 h2]

/-- An event that adds a record of the session. -/
theorem Inv.write (hinv : Inv cfg h)
    (hsources : ∀ src ∈ h'.sources cfg true, src ∈ h.sources cfg true ∨
      src.since = h.session ∧ ∀ r, src.reason = some r → (h.session, r) ∈ h'.records)
    (hrecords : h.records ⊆ h'.records) (hreports : h'.reports = h.reports)
    (hsession : h'.session = h.session) (hstarted : h'.started = h.started)
    (htracked : h'.files.lastTrackedBootId = h.files.lastTrackedBootId)
    (hboot : h'.bootId = h.bootId) : Inv cfg h' where
  fresh := by
    intro n reason hmem
    rw [hreports] at hmem
    rcases hinv.fresh n reason hmem with hunknown | ⟨m, hm, hrec⟩
    · exact Or.inl hunknown
    · exact Or.inr ⟨m, hm, hrecords hrec⟩
  recorded := by
    intro src hsrc r hr
    rcases hsources src hsrc with hold | ⟨hsince, hnew⟩
    · exact hrecords (hinv.recorded src hold r hr)
    · rw [hsince]
      exact hnew r hr
  age := by
    intro src hsrc
    rw [hsession, hstarted]
    rcases hsources src hsrc with hold | ⟨hsince, -⟩
    · exact hinv.age src hold
    · exact Or.inl hsince
  tracked := by
    rw [hstarted, htracked, hboot]
    exact hinv.tracked

theorem mem_sources {pstore : Bool} {src : Source} :
    src ∈ h.sources cfg pstore ↔
      (cfg.lastRebootReasonFile = true ∧ ∃ text, h.files.customer = some text ∧
        src = ⟨h.customerAt, scanReason text⟩) ∨
      (∃ text, h.files.internal = some text ∧ src = ⟨h.internalAt, scanReason text⟩) ∨
      (pstore = true ∧ pstoreDmesgFile ∈ h.files.pstore ∧
        src = ⟨h.pstoreAt, some kTicosRebootReasonKernelPanic⟩) := by
  simp only [History.sources, List.mem_append, or_assoc]
  refine or_congr ?_ (or_congr ?_ ?_)
  · cases cfg.lastRebootReasonFile with
    | true => simp [Option.mem_toList, eq_comm]
    | false => simp
  · simp [Option.mem_toList, eq_comm]
  · by_cases hp : pstoreDmesgFile ∈ h.files.pstore
    · cases pstore with
      | true => simp [hp]
      | false => simp
    · simp [hp]

/-- The reason reported is unknown or that of a source. -/
theorem highestPriority_mem (cfg : Config) (h : History) :
    highestPriority (pstoreReason h.files) (customerReason cfg h.files) (internalReason h.files)
        = kTicosRebootReasonUnknown ∨
      ∃ src ∈ h.sources cfg true, src.reason = some
        (highestPriority (pstoreReason h.files) (customerReason cfg h.files)
          (internalReason h.files)) := by
  rw [highestPriority]
  cases hfound : (pstoreReason h.files).or
      ((customerReason cfg h.files).or (internalReason h.files)) with
  | none => exact Or.inl rfl
  | some r =>
      refine Or.inr ?_
      rw [Option.getD_some]
      rcases Option.or_eq_some_iff.mp hfound with hp | ⟨-, hrest⟩
      · rw [pstoreReason] at hp
        split at hp
        · rename_i hmem
          exact ⟨_, mem_sources.mpr (Or.inr (Or.inr ⟨rfl, hmem, rfl⟩)), hp⟩
        · cases hp
      · rcases Option.or_eq_some_iff.mp hrest with hc | ⟨-, hi⟩
        · rw [customerReason] at hc
          split at hc
          · rename_i hfile
            obtain ⟨text, htext, hr⟩ := Option.bind_eq_some_iff.mp hc
            exact ⟨_, mem_sources.mpr (Or.inl ⟨hfile, text, htext, rfl⟩), hr⟩
          · cases hc
        · obtain ⟨text, htext, hr⟩ := Option.bind_eq_some_iff.mp hi
          exact ⟨_, mem_sources.mpr (Or.inr (Or.inl ⟨text, htext, rfl⟩)), hr⟩

/-! ## One event -/

theorem Inv.boot (hinv : Inv cfg h) {bootId : BootId} (hok : EventOk cfg h (.boot bootId)) :
    Inv cfg (step cfg h (.boot bootId)) where
  fresh := hinv.fresh
  recorded := hinv.recorded
  age := by
    intro src hsrc
    refine Or.inr ⟨rfl, ?_⟩
    show src.since + 1 = h.session + 1
    rcases hinv.age src hsrc with hnow | ⟨hno, -⟩
    · rw [hnow]
    · rw [hok hno src hsrc]
  tracked := fun hs => nomatch hs

theorem Inv.writeCustomer (hinv : Inv cfg h) {text : Option (List UInt8)} {reason : Option Int}
    (hreason : ∀ t, text = some t → scanReason t = reason) :
    Inv cfg (h.writeCustomer text reason) := by
  refine hinv.write ?_ ?_ rfl rfl rfl rfl rfl
  · intro src hsrc
    rcases mem_sources.mp hsrc with ⟨-, t, ht, rfl⟩ | hinternal | hpstore
    · refine Or.inr ⟨rfl, ?_⟩
      intro r hr
      rw [hreason t ht] at hr
      refine List.mem_append_right _ ?_
      rw [show reason = some r from hr]
      exact List.mem_singleton.mpr rfl
    · exact Or.inl (mem_sources.mpr (Or.inr (Or.inl hinternal)))
    · exact Or.inl (mem_sources.mpr (Or.inr (Or.inr hpstore)))
  · exact List.subset_append_left _ _

theorem Inv.stop (hinv : Inv cfg h) (stopping upgrade : Bool) :
    Inv cfg (step cfg h (.stop stopping upgrade)) := by
  cases hd : prvRebootDestroy h.handle stopping upgrade with
  | none =>
      rw [step, hd]
      exact hinv.write (fun src hsrc => Or.inl hsrc) (List.Subset.refl _) rfl rfl rfl rfl rfl
  | some reason =>
      have hrange : -2 ^ 31 ≤ reason ∧ reason < 2 ^ 31 := by
        rw [prvRebootDestroy] at hd
        split at hd
        · rw [← Option.some.inj hd]
          cases upgrade with
          | true => decide
          | false => decide
        · exact nomatch hd
      rw [step, hd]
      refine hinv.write ?_ ?_ rfl rfl rfl rfl rfl
      · intro src hsrc
        rcases mem_sources.mp hsrc with hcustomer | ⟨t, ht, rfl⟩ | hpstore
        · exact Or.inl (mem_sources.mpr (Or.inl hcustomer))
        · refine Or.inr ⟨rfl, ?_⟩
          intro r hr
          rw [← Option.some.inj ht, scanReason_intText hrange.1 hrange.2] at hr
          rw [← Option.some.inj hr]
          exact List.mem_append_right _ (List.mem_singleton.mpr rfl)
        · exact Or.inl (mem_sources.mpr (Or.inr (Or.inr hpstore)))
      · exact List.subset_append_left _ _

theorem Inv.panic (hinv : Inv cfg h) : Inv cfg (step cfg h .panic) := by
  refine hinv.write ?_ ?_ rfl rfl rfl rfl rfl
  · intro src hsrc
    rcases mem_sources.mp hsrc with hcustomer | hinternal | ⟨-, -, rfl⟩
    · exact Or.inl (mem_sources.mpr (Or.inl hcustomer))
    · exact Or.inl (mem_sources.mpr (Or.inr (Or.inl hinternal)))
    · refine Or.inr ⟨rfl, ?_⟩
      intro r hr
      rw [← Option.some.inj hr]
      exact List.mem_append_right _ (List.mem_singleton.mpr rfl)
  · exact List.subset_append_left _ _

/-- What `ticosctl reboot` writes is a number that is read back. -/
theorem prvCmdReboot_range {extraArgs : List (List UInt8)} {reason : Int}
    (hcmd : prvCmdReboot cfg extraArgs = some reason) : -2 ^ 31 ≤ reason ∧ reason < 2 ^ 31 := by
  unfold prvCmdReboot at hcmd
  split at hcmd
  · exact nomatch hcmd
  · split at hcmd
    · rw [← Option.some.inj hcmd]
      decide
    · split at hcmd
      · exact nomatch hcmd
      · split at hcmd
        · exact nomatch hcmd
        · rename_i hscan
          split at hcmd
          · rw [← Option.some.inj hcmd]
            exact scanReason_range hscan
          · exact nomatch hcmd
    · exact nomatch hcmd

/-- A start that leaves the sources alone. -/
theorem Inv.start_left (hinv : Inv cfg h) {collect : Bool}
    (hok : h.started = false → ∀ src ∈ h.sources cfg collect, src.since = h.session)
    (hnone : (ticosdRebootInit cfg h.bootId collect h.files).1 = none)
    (hcustomer : (ticosdRebootInit cfg h.bootId collect h.files).2.customer = h.files.customer)
    (hinternal : (ticosdRebootInit cfg h.bootId collect h.files).2.internal = h.files.internal)
    (hpstore : (ticosdRebootInit cfg h.bootId collect h.files).2.pstore
      = if collect then h.files.pstore else []) :
    Inv cfg (step cfg h (.start collect)) := by
  have hleft : ∀ src ∈ (step cfg h (.start collect)).sources cfg true,
      src ∈ h.sources cfg collect := by
    intro src hsrc
    rcases mem_sources.mp hsrc with ⟨hfile, t, ht, rfl⟩ | ⟨t, ht, rfl⟩ | ⟨-, hp, rfl⟩
    · exact mem_sources.mpr (Or.inl ⟨hfile, t, hcustomer.symm.trans ht, rfl⟩)
    · exact mem_sources.mpr (Or.inr (Or.inl ⟨t, hinternal.symm.trans ht, rfl⟩))
    · have hp' : pstoreDmesgFile ∈ (if collect then h.files.pstore else []) := hpstore ▸ hp
      cases collect with
      | true => exact mem_sources.mpr (Or.inr (Or.inr ⟨rfl, hp', rfl⟩))
      | false => exact absurd hp' (List.not_mem_nil)
  have hall : ∀ src ∈ h.sources cfg collect, src ∈ h.sources cfg true := by
    intro src hsrc
    rcases mem_sources.mp hsrc with hc | hi | ⟨-, hp⟩
    · exact mem_sources.mpr (Or.inl hc)
    · exact mem_sources.mpr (Or.inr (Or.inl hi))
    · exact mem_sources.mpr (Or.inr (Or.inr ⟨rfl, hp⟩))
  have hreports : (step cfg h (.start collect)).reports = h.reports := by
    simp only [step, hnone, Option.toList_none, List.map_nil, List.append_nil]
  refine ⟨?_, ?_, ?_, fun _ => init_holds cfg h.bootId collect h.files⟩
  · intro n reason hmem
    rw [hreports] at hmem
    exact hinv.fresh n reason hmem
  · intro src hsrc
    exact hinv.recorded src (hall src (hleft src hsrc))
  · intro src hsrc
    refine Or.inl ?_
    rcases hinv.age src (hall src (hleft src hsrc)) with hnow | ⟨hno, -⟩
    · exact hnow
    · exact hok hno src (hleft src hsrc)

/-- A start that reads and clears the sources. -/
theorem Inv.start_read (hinv : Inv cfg h)
    (hok : h.started = false → ∀ src ∈ h.sources cfg true, src.since ≠ h.session)
    (hno : ¬Holds h.files.lastTrackedBootId h.bootId)
    (hev : (ticosdRebootInit cfg h.bootId true h.files).1 = prvRebootBuildEvent cfg
      (highestPriority (pstoreReason h.files) (customerReason cfg h.files)
        (internalReason h.files)))
    (hfiles : (ticosdRebootInit cfg h.bootId true h.files).2 = cleared cfg { h.files with
      lastTrackedBootId :=
        (ticosRebootIsUntrackedBootId h.files.lastTrackedBootId h.bootId).2 }) :
    Inv cfg (step cfg h (.start true)) := by
  have hstarted : h.started = false := by
    cases hs : h.started with
    | true => exact absurd (hinv.tracked hs) hno
    | false => rfl
  have hgone : ∀ src, src ∉ (step cfg h (.start true)).sources cfg true := by
    intro src hsrc
    have hafter : (step cfg h (.start true)).files
        = (ticosdRebootInit cfg h.bootId true h.files).2 := rfl
    rcases mem_sources.mp hsrc with ⟨hfile, t, ht, -⟩ | ⟨t, ht, -⟩ | ⟨-, hp, -⟩
    · rw [hafter, hfiles, cleared, if_pos hfile] at ht
      cases ht
    · rw [hafter, hfiles, cleared] at ht
      cases ht
    · rw [hafter, hfiles] at hp
      simp only [cleared] at hp
      split at hp
      · cases hp
      · rename_i hnot
        exact hnot hp
  refine ⟨?_, fun src hsrc => absurd hsrc (hgone src), fun src hsrc => absurd hsrc (hgone src),
    fun _ => init_holds cfg h.bootId true h.files⟩
  intro n reason hmem
  rcases List.mem_append.mp hmem with hold | hnew
  · exact hinv.fresh n reason hold
  · -- the event of this start
    obtain ⟨ev, hevent, hpair⟩ := List.mem_map.mp hnew
    obtain ⟨rfl, rfl⟩ := Prod.mk.inj hpair
    rw [Option.mem_toList, hev, prvRebootBuildEvent] at hevent
    split at hevent
    · cases hevent
    · rw [← Option.some.inj hevent]
      rcases highestPriority_mem cfg h with hunknown | ⟨src, hsrc, hr⟩
      · exact Or.inl hunknown
      · refine Or.inr ⟨src.since, ?_, hinv.recorded src hsrc _ hr⟩
        rcases hinv.age src hsrc with hnow | ⟨-, hbefore⟩
        · exact absurd hnow (hok hstarted src hsrc)
        · exact hbefore.symm

/-- **One event keeps the invariant.** -/
theorem step_inv (h : History) (e : Event) (hinv : Inv cfg h) (hok : EventOk cfg h e) :
    Inv cfg (step cfg h e) := by
  cases e with
  | boot bootId => exact hinv.boot hok
  | stop stopping upgrade => exact hinv.stop stopping upgrade
  | panic => exact hinv.panic
  | customerFile content =>
      refine hinv.writeCustomer ?_
      rintro t rfl
      rfl
  | reboot extraArgs =>
      cases hcmd : prvCmdReboot cfg extraArgs with
      | none =>
          rw [step, hcmd]
          exact hinv
      | some reason =>
          rw [step, hcmd]
          refine hinv.writeCustomer ?_
          intro t ht
          obtain ⟨h1, h2⟩ := prvCmdReboot_range hcmd
          rw [← Option.some.inj ht, scanReason_intText h1 h2]
  | start collect =>
      rcases init_cases cfg h.bootId collect h.files with
        ⟨hleft, hnone, hcustomer, hinternal, hpstore⟩ | ⟨⟨hno, rfl⟩, hev, hfiles⟩
      · -- the plugin returns early and leaves the sources alone
        refine hinv.start_left ?_ hnone hcustomer hinternal hpstore
        intro hstarted
        have hcond := hok hstarted
        rw [if_neg] at hcond
        · exact hcond
        · rintro ⟨hcollect, hno⟩
          rcases hleft with hyes | hoff
          · exact hno hyes
          · rw [hcollect] at hoff
            exact nomatch hoff
      · -- the sources are read and removed
        refine hinv.start_read ?_ hno hev hfiles
        intro hstarted
        have hcond := hok hstarted
        rw [if_pos ⟨rfl, hno⟩] at hcond
        exact hcond

/-- **No stale reboot reason**: in every run whose events meet the condition,
    every reported reason is unknown or was recorded in the session before. -/
theorem reported_reason_fresh (cfg : Config) (bootId : BootId) (tracked : Option (List UInt8))
    (events : List Event)
    (hok : Along (step cfg) (EventOk cfg) (initial bootId tracked) events) :
    Fresh (run (step cfg) (initial bootId tracked) events) :=
  (invariant step_inv (inv_initial bootId tracked) hok).fresh

/-- Data collection is on in each of three sessions; the second ends with
    `ticosctl reboot --reason 4`, after which the daemon is restarted. -/
def freshRun : List Event :=
  [.start true, .boot (idOf 98 (by decide)), .start true,
    .reboot [ascii "--reason", ascii "4"], .stop true false,
    .boot (idOf 99 (by decide)), .start true, .stop false false, .start true]

theorem reported_reason_fresh_reboot :
    (run (step smallConfig) (initial (idOf 97 (by decide)) none) freshRun).reports
        = [(0, 0), (1, 0), (2, 4)] ∧
      Fresh (run (step smallConfig) (initial (idOf 97 (by decide)) none) freshRun) :=
  ⟨by decide +kernel,
    reported_reason_fresh smallConfig (idOf 97 (by decide)) none freshRun (by decide +kernel)⟩

/-- Data collection is off in the second session: the reason of the first is
    reported for the third. -/
def staleRun : List Event :=
  [.start true, .reboot [ascii "--reason", ascii "4"], .stop true false,
    .boot (idOf 98 (by decide)), .start false, .stop true false,
    .boot (idOf 99 (by decide)), .start true]

theorem stale_reason_reported :
    ¬Fresh (run (step smallConfig) (initial (idOf 97 (by decide)) none) staleRun) := by
  have hreports : (2, 4) ∈
      (run (step smallConfig) (initial (idOf 97 (by decide)) none) staleRun).reports := by
    decide +kernel
  have hrecords : (run (step smallConfig) (initial (idOf 97 (by decide)) none) staleRun).records
      = [(0, 4), (0, 2)] := by
    decide +kernel
  intro hfresh
  rcases hfresh 2 4 hreports with hunknown | ⟨m, hm, hrec⟩
  · exact absurd hunknown (by decide)
  · rw [hrecords] at hrec
    have : m = 1 := by omega
    subst this
    exact absurd hrec (by decide)

end RebootFreshness
