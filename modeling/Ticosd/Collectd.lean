import Ticosd.GuardedRun

/-! # Disabling collectd — `prv_reload` of `collectd.c`

    collectd reads two include files when it is restarted.  With data collection on the
    plugin generates them, with data collection off it empties them; either way it then
    has to restart collectd, and the restart can fail.

    Whether a restart is still owed is not recorded.  With data collection off `prv_reload`
    infers it from `was_enabled` and from the sizes of the files, before it empties them.
    `Settled` is the invariant that makes this work: as long as collectd runs with
    something, one of the three shows it.  A failed restart right after the files have
    been emptied breaks it, and so does a restart of the daemon, which forgets
    `was_enabled`. -/

namespace Collectd

/-- An include file; `none` is a file that does not exist. -/
abbrev IncludeFile := Option (List UInt8)

/-- What generating an include file comes to: whether the file can be opened, the text
    that is in it in the end, and the result. -/
structure Generate where
  opens : Bool
  text : List UInt8
  result : Bool

/-- What a call of `prv_reload` gets from its surroundings. -/
structure Outcomes where
  /-- `ticosd_get_boolean(.., "enable_data_collection", ..)`: `none` if it is not set. -/
  enableDataCollection : Option Bool
  /-- `fopen` in `prv_write_empty_file`, for the two files. -/
  headerOpens : Bool
  footerOpens : Bool
  header : Generate
  footer : Generate
  /-- `ticosd_restart_service_if_running("collectd.service")`. -/
  restart : Bool

/-- The plugin and what it acts on. -/
structure Sys where
  /-- `handle->was_enabled`; `none` is a NULL handle. -/
  wasEnabled : Option Bool
  header : IncludeFile
  footer : IncludeFile
  /-- The contents of the include files that collectd runs with. -/
  running : List UInt8 × List UInt8

/-! ## The plugin -/

/-- `prv_get_file_size`; `none` is `-ENOENT`. -/
def prvGetFileSize (file : IncludeFile) : Option Nat := file.map List.length

/-- `prv_write_empty_file`. -/
def prvWriteEmptyFile (opens : Bool) (file : IncludeFile) : IncludeFile :=
  if opens then some [] else file

/-- `should_clear`: the file has something in it. -/
def shouldClear (file : IncludeFile) : Bool := decide (0 < (prvGetFileSize file).getD 0)

/-- One round of the loop over the two files. -/
def clearConfigFile (opens : Bool) (file : IncludeFile) : IncludeFile :=
  if shouldClear file = true ∨ prvGetFileSize file = none then prvWriteEmptyFile opens file
  else file

/-- `prv_clear_config_files_if_not_already_cleared`. -/
def prvClearConfigFilesIfNotAlreadyCleared (x : Outcomes) (s : Sys) : Bool × Sys :=
  (shouldClear s.header || shouldClear s.footer,
    { s with
      header := clearConfigFile x.headerOpens s.header
      footer := clearConfigFile x.footerOpens s.footer })

/-- `prv_generate_header_include` and `prv_generate_footer_include`: `fopen` with `"w+"`
    cuts the old file off. -/
def generateInclude (g : Generate) (file : IncludeFile) : Bool × IncludeFile :=
  if g.opens then (g.result, some g.text) else (false, file)

/-- collectd reads the include files; one that is missing counts as empty. -/
def restarted (s : Sys) : Sys := { s with running := (s.header.getD [], s.footer.getD []) }

/-- The branch of `prv_reload` for data collection that is off. -/
def reloadDisabled (x : Outcomes) (wasEnabled : Bool) (s : Sys) : Bool × Sys :=
  let cleared := prvClearConfigFilesIfNotAlreadyCleared x s
  if wasEnabled || cleared.1 then
    if x.restart then (true, { restarted cleared.2 with wasEnabled := some false })
    else (false, cleared.2)
  else (true, cleared.2)

/-- The branch of `prv_reload` for data collection that is on. -/
def reloadEnabled (x : Outcomes) (s : Sys) : Bool × Sys :=
  let header := generateInclude x.header s.header
  let s := { s with header := header.2 }
  if header.1 = false then (false, s)
  else
    let footer := generateInclude x.footer s.footer
    let s := { s with footer := footer.2 }
    if footer.1 = false then (false, s)
    else if x.restart then (true, { restarted s with wasEnabled := some true })
    else (false, s)

/-- `prv_reload`. -/
def prvReload (x : Outcomes) (s : Sys) : Bool × Sys :=
  match s.wasEnabled with
  | none => (false, s)
  | some wasEnabled =>
      if x.enableDataCollection = some true then reloadEnabled x s
      else reloadDisabled x wasEnabled s

/-- `ticosd_collectd_init` of a daemon that has just been started. -/
def ticosdCollectdInit (calloc : Bool) (x : Outcomes) (s : Sys) : Bool × Sys :=
  if calloc = false then (false, { s with wasEnabled := none })
  else
    (true,
      (prvReload x { s with wasEnabled := some (x.enableDataCollection.getD false) }).2)

/-! ## Runs -/

/-- A start of the daemon, or a call of `prv_reload`. -/
inductive Event where
  | init (calloc : Bool) (x : Outcomes)
  | reload (x : Outcomes)

def Event.outcomes : Event → Outcomes
  | .init _ x => x
  | .reload x => x

/-- The state in which the event calls `prv_reload`. -/
def entered (s : Sys) : Event → Sys
  | .init calloc x =>
      { s with wasEnabled := if calloc then some (x.enableDataCollection.getD false) else none }
  | .reload _ => s

/-- The state after the event. -/
def step (s : Sys) : Event → Sys
  | .init calloc x => (ticosdCollectdInit calloc x s).2
  | .reload x => (prvReload x s).2

theorem step_eq (s : Sys) (e : Event) : step s e = (prvReload e.outcomes (entered s e)).2 := by
  cases e with
  | reload x => rfl
  | init calloc x =>
      cases calloc with
      | true => rfl
      | false => rfl

/-- Before the first start: collectd runs with what the files hold. -/
def installed (header footer : IncludeFile) : Sys :=
  ⟨none, header, footer, (header.getD [], footer.getD [])⟩

/-- Data collection is off in the event. -/
def Disabled (e : Event) : Prop := e.outcomes.enableDataCollection ≠ some true

/-- collectd runs with empty include files. -/
def Idle (s : Sys) : Prop := s.running = ([], [])

instance (s : Sys) : Decidable (Idle s) := inferInstanceAs (Decidable (_ = _))

/-- If `prv_reload` returns true while data collection is off, then collectd runs with
    empty include files. -/
def Reaches (s : Sys) (e : Event) : Prop :=
  Disabled e → (prvReload e.outcomes (entered s e)).1 = true → Idle (step s e)

/-! ## What shows that a restart is owed -/

/-- What `prv_reload` goes by. -/
def Shows (s : Sys) : Prop :=
  s.wasEnabled = some true ∨ shouldClear s.header = true ∨ shouldClear s.footer = true

instance (s : Sys) : Decidable (Shows s) := inferInstanceAs (Decidable (_ ∨ _ ∨ _))

/-- **The invariant**: collectd is idle, or a restart that is owed shows.  Without a
    handle nothing is returned. -/
def Settled (s : Sys) : Prop := s.wasEnabled = none ∨ Idle s ∨ Shows s

/-- With data collection off, a restart that works must find the files emptied, and one
    that fails must leave something that shows: `was_enabled`, or a file that could not be
    emptied. -/
def DisabledOk (x : Outcomes) (s : Sys) : Prop :=
  if x.restart then
    (shouldClear s.header = true → x.headerOpens = true) ∧
      (shouldClear s.footer = true → x.footerOpens = true)
  else
    Idle s ∨ s.wasEnabled = some true ∨
      (shouldClear s.header = true ∧ x.headerOpens = false) ∨
      (shouldClear s.footer = true ∧ x.footerOpens = false)

/-- The two files as far as data collection that is on gets with them. -/
def generated (x : Outcomes) (s : Sys) : IncludeFile × IncludeFile :=
  ((generateInclude x.header s.header).2,
    if (generateInclude x.header s.header).1 then (generateInclude x.footer s.footer).2
    else s.footer)

/-- With data collection on, a restart that is not reached or fails must leave something
    that shows. -/
def EnabledOk (x : Outcomes) (s : Sys) : Prop :=
  ((generateInclude x.header s.header).1 = true ∧
      (generateInclude x.footer s.footer).1 = true ∧ x.restart = true) ∨
    Idle s ∨ s.wasEnabled = some true ∨
    shouldClear (generated x s).1 = true ∨ shouldClear (generated x s).2 = true

/-- The condition on a call of `prv_reload` with a handle. -/
def ReloadOk (x : Outcomes) (s : Sys) : Prop :=
  if x.enableDataCollection = some true then EnabledOk x s
  else Shows s → DisabledOk x s

/-- A daemon that starts with data collection off must find collectd idle, or something
    in the files. -/
def StartOk (s : Sys) : Event → Prop
  | .init calloc x =>
      x.enableDataCollection ≠ some true → Idle s ∨ Shows (entered s (.init calloc x))
  | .reload _ => True

/-- The condition on an event. -/
def EventOk (s : Sys) (e : Event) : Prop :=
  (entered s e).wasEnabled ≠ none → ReloadOk e.outcomes (entered s e) ∧ StartOk s e

/-! ## The two branches -/

theorem shouldClear_clearConfigFile (opens : Bool) (file : IncludeFile) :
    shouldClear (clearConfigFile opens file) = (shouldClear file && !opens) := by
  cases file with
  | none => cases opens <;> rfl
  | some bytes =>
      cases bytes with
      | nil => cases opens <;> rfl
      | cons b bytes => cases opens <;> rfl

/-- A file with nothing in it counts as empty. -/
theorem getD_eq_nil_iff (file : IncludeFile) : file.getD [] = [] ↔ shouldClear file = false := by
  cases file with
  | none => exact ⟨fun _ => rfl, fun _ => rfl⟩
  | some bytes =>
      cases bytes with
      | nil => exact ⟨fun _ => rfl, fun _ => rfl⟩
      | cons b bytes => exact ⟨(fun h => nomatch h), (fun h => nomatch h)⟩

/-- A restart leaves collectd idle if no file has anything in it. -/
theorem idle_restarted_iff (s : Sys) :
    Idle (restarted s) ↔ shouldClear s.header = false ∧ shouldClear s.footer = false := by
  rw [Idle, restarted, Prod.mk.injEq, getD_eq_nil_iff, getD_eq_nil_iff]

/-- The files after the loop over them. -/
def cleared (x : Outcomes) (s : Sys) : Sys := (prvClearConfigFilesIfNotAlreadyCleared x s).2

/-- What `prv_reload` does with data collection off. -/
theorem reloadDisabled_cases (x : Outcomes) {s : Sys} {w : Bool} (hw : s.wasEnabled = some w) :
    (¬ Shows s ∧ reloadDisabled x w s = (true, cleared x s)) ∨
    (Shows s ∧ x.restart = true ∧
      reloadDisabled x w s = (true, { restarted (cleared x s) with wasEnabled := some false })) ∨
    (Shows s ∧ x.restart = false ∧ reloadDisabled x w s = (false, cleared x s)) := by
  have hshows : (w || (shouldClear s.header || shouldClear s.footer)) = true ↔ Shows s := by
    rw [Shows, hw, Bool.or_eq_true, Bool.or_eq_true, Option.some.injEq]
  by_cases hs : Shows s
  · refine Or.inr ?_
    have htest := hshows.mpr hs
    cases hr : x.restart with
    | true =>
        refine Or.inl ⟨hs, rfl, ?_⟩
        simp only [reloadDisabled, hr, if_true]
        exact if_pos htest
    | false =>
        refine Or.inr ⟨hs, rfl, ?_⟩
        simp only [reloadDisabled, hr, Bool.false_eq_true, if_false]
        exact if_pos htest
  · refine Or.inl ⟨hs, ?_⟩
    have htest : ¬ (w || (shouldClear s.header || shouldClear s.footer)) = true :=
      fun h => hs (hshows.mp h)
    simp only [reloadDisabled]
    exact if_neg htest

/-- What `prv_reload` does with data collection on. -/
theorem reloadEnabled_cases (x : Outcomes) (s : Sys) :
    ((generateInclude x.header s.header).1 = true ∧
      (generateInclude x.footer s.footer).1 = true ∧ x.restart = true ∧
      (reloadEnabled x s).2.wasEnabled = some true) ∨
    (¬ ((generateInclude x.header s.header).1 = true ∧
        (generateInclude x.footer s.footer).1 = true ∧ x.restart = true) ∧
      (reloadEnabled x s).2
        = { s with header := (generated x s).1, footer := (generated x s).2 }) := by
  simp only [reloadEnabled, generated]
  cases h1 : (generateInclude x.header s.header).1 with
  | false => exact Or.inr ⟨(fun h => nomatch h.1), rfl⟩
  | true =>
      cases h2 : (generateInclude x.footer s.footer).1 with
      | false => exact Or.inr ⟨(fun h => nomatch h.2.1), rfl⟩
      | true =>
          cases hr : x.restart with
          | false => exact Or.inr ⟨(fun h => nomatch h.2.2), rfl⟩
          | true => exact Or.inl ⟨rfl, rfl, rfl, rfl⟩

/-! ## One event -/

/-- The files do not show anything more once they have been gone over. -/
theorem shows_cleared_iff (x : Outcomes) (s : Sys) : Shows (cleared x s) ↔
    s.wasEnabled = some true ∨ (shouldClear s.header = true ∧ x.headerOpens = false) ∨
      (shouldClear s.footer = true ∧ x.footerOpens = false) := by
  have hh : (cleared x s).header = clearConfigFile x.headerOpens s.header := rfl
  have hf : (cleared x s).footer = clearConfigFile x.footerOpens s.footer := rfl
  have hw : (cleared x s).wasEnabled = s.wasEnabled := rfl
  rw [Shows, hh, hf, hw, shouldClear_clearConfigFile, shouldClear_clearConfigFile]
  simp only [Bool.and_eq_true, Bool.not_eq_true']

/-- After a restart with data collection off, collectd is idle if the files could be
    emptied. -/
theorem idle_cleared_iff (x : Outcomes) (s : Sys) : Idle (restarted (cleared x s)) ↔
    (shouldClear s.header = true → x.headerOpens = true) ∧
      (shouldClear s.footer = true → x.footerOpens = true) := by
  have hh : (cleared x s).header = clearConfigFile x.headerOpens s.header := rfl
  have hf : (cleared x s).footer = clearConfigFile x.footerOpens s.footer := rfl
  rw [idle_restarted_iff, hh, hf, shouldClear_clearConfigFile, shouldClear_clearConfigFile]
  cases shouldClear s.header <;> cases shouldClear s.footer <;> simp

/-- **One call of `prv_reload` with a handle**: its condition says that it reaches collectd
    and that whatever is owed after it shows, provided that it did before. -/
theorem reloadOk_iff (x : Outcomes) {s : Sys} {w : Bool} (hw : s.wasEnabled = some w) :
    (ReloadOk x s ∧ (x.enableDataCollection ≠ some true → Idle s ∨ Shows s)) ↔
      (x.enableDataCollection ≠ some true → (prvReload x s).1 = true → Idle (prvReload x s).2) ∧
        (Idle (prvReload x s).2 ∨ Shows (prvReload x s).2) := by
  rw [prvReload, ReloadOk]
  simp only [hw]
  by_cases hflag : x.enableDataCollection = some true
  · simp only [hflag, if_true, ne_eq, not_true_eq_false, IsEmpty.forall_iff, and_true, true_and]
    rcases reloadEnabled_cases x s with ⟨h1, h2, h3, htrue⟩ | ⟨hno, heq⟩
    · exact ⟨fun _ => Or.inr (Or.inl htrue), fun _ => Or.inl ⟨h1, h2, h3⟩⟩
    · rw [EnabledOk, or_iff_right hno, heq]
      exact Iff.rfl
  · simp only [if_neg hflag]
    simp only [ne_eq, hflag, not_false_eq_true, forall_const]
    rcases reloadDisabled_cases x hw with ⟨hs, heq⟩ | ⟨hs, hr, heq⟩ | ⟨hs, hr, heq⟩
    · -- nothing shows: it returns true and leaves collectd alone
      rw [heq]
      have hidle : Idle (cleared x s) ↔ Idle s := Iff.rfl
      simp only [hs, IsEmpty.forall_iff, true_and, or_false, forall_const, hidle]
      exact ⟨fun h => ⟨h, Or.inl h⟩, fun h => h.1⟩
    · -- the restart works
      rw [heq]
      have hidle : Idle { restarted (cleared x s) with wasEnabled := some false }
          ↔ Idle (restarted (cleared x s)) := Iff.rfl
      simp only [hs, DisabledOk, hr, if_true, forall_const, hidle, or_true, and_true,
        idle_cleared_iff]
      exact ⟨fun h => ⟨h, Or.inl h⟩, fun h => h.1⟩
    · -- the restart fails
      rw [heq]
      have hidle : Idle (cleared x s) ↔ Idle s := Iff.rfl
      simp only [hs, DisabledOk, hr, Bool.false_eq_true, if_false, forall_const, or_true,
        and_true, IsEmpty.forall_iff, true_and, hidle, shows_cleared_iff]

theorem prvReload_none (x : Outcomes) {s : Sys} (hw : s.wasEnabled = none) :
    prvReload x s = (false, s) := by
  rw [prvReload, hw]

/-- A handle is not lost. -/
theorem prvReload_handle (x : Outcomes) {s : Sys} {w : Bool} (hw : s.wasEnabled = some w) :
    ∃ v, (prvReload x s).2.wasEnabled = some v := by
  rw [prvReload]
  simp only [hw]
  split
  · rcases reloadEnabled_cases x s with ⟨-, -, -, htrue⟩ | ⟨-, heq⟩
    · exact ⟨true, htrue⟩
    · rw [heq]
      exact ⟨w, hw⟩
  · rcases reloadDisabled_cases x hw with ⟨-, heq⟩ | ⟨-, -, heq⟩ | ⟨-, -, heq⟩
    · rw [heq]
      exact ⟨w, hw⟩
    · rw [heq]
      exact ⟨false, rfl⟩
    · rw [heq]
      exact ⟨w, hw⟩

/-- The condition on an event with a handle, in the state in which it calls
    `prv_reload`. -/
theorem eventOk_iff {s : Sys} {e : Event} {w : Bool} (hs : Settled s)
    (hw : (entered s e).wasEnabled = some w) :
    EventOk s e ↔ ReloadOk e.outcomes (entered s e) ∧
      (Disabled e → Idle (entered s e) ∨ Shows (entered s e)) := by
  rw [EventOk, hw]
  simp only [ne_eq, reduceCtorEq, not_false_eq_true, forall_const]
  cases e with
  | init calloc x => exact Iff.rfl
  | reload x =>
      have hnone : s.wasEnabled ≠ none := by
        intro h
        have hw' : s.wasEnabled = some w := hw
        rw [h] at hw'
        exact nomatch hw'
      exact and_congr_right (fun _ => ⟨fun _ _ => hs.resolve_left hnone, fun _ => trivial⟩)

/-- **One event** keeps the invariant and reaches collectd. -/
theorem settled_step {s : Sys} {e : Event} (hs : Settled s) (he : EventOk s e) :
    Reaches s e ∧ Settled (step s e) := by
  cases hw : (entered s e).wasEnabled with
  | none =>
      have hstep : step s e = entered s e := by rw [step_eq, prvReload_none _ hw]
      refine ⟨?_, ?_⟩
      · intro _ htrue
        rw [prvReload_none _ hw] at htrue
        exact nomatch htrue
      · rw [hstep]
        exact Or.inl hw
  | some w =>
      obtain ⟨hreach, hafter⟩ := (reloadOk_iff _ hw).mp ((eventOk_iff hs hw).mp he)
      rw [← step_eq] at hreach hafter
      exact ⟨hreach, Or.inr hafter⟩

/-- A call of `prv_reload` with data collection off, for which everything works. -/
def working : Outcomes where
  enableDataCollection := some false
  headerOpens := true
  footerOpens := true
  header := ⟨true, [], true⟩
  footer := ⟨true, [], true⟩
  restart := true

/-- A call for which everything works reaches collectd exactly when what is owed shows. -/
theorem reaches_working_iff {s : Sys} {w : Bool} (hw : s.wasEnabled = some w) :
    Reaches s (.reload working) ↔ Idle s ∨ Shows s := by
  have hreload : prvReload working s = reloadDisabled working w s := by
    rw [prvReload, hw]
    exact if_neg (by decide)
  have hoff : Disabled (.reload working) := by
    intro h
    exact nomatch h
  have hstep : step s (.reload working) = (reloadDisabled working w s).2 := by
    rw [← hreload]
    rfl
  have hresult : (prvReload (Event.reload working).outcomes (entered s (.reload working))).1
      = (reloadDisabled working w s).1 := by
    rw [← hreload]
    rfl
  rw [Reaches, hstep, hresult]
  rcases reloadDisabled_cases working hw with ⟨hs, heq⟩ | ⟨hs, -, heq⟩ | ⟨-, hr, -⟩
  · rw [heq]
    exact ⟨fun h => Or.inl (h hoff rfl), fun h _ _ => h.resolve_right hs⟩
  · rw [heq]
    exact ⟨fun _ => Or.inr hs,
      fun _ _ _ => (idle_cleared_iff working s).mpr ⟨fun _ => rfl, fun _ => rfl⟩⟩
  · exact nomatch hr

/-- **The condition on an event is exact**: it holds if and only if the event reaches
    collectd and so does a call after it for which everything works. -/
theorem eventOk_exact {s : Sys} {e : Event} (hs : Settled s) :
    EventOk s e ↔ Reaches s e ∧ Reaches (step s e) (.reload working) := by
  cases hw : (entered s e).wasEnabled with
  | none =>
      have hstep : step s e = entered s e := by rw [step_eq, prvReload_none _ hw]
      have hvac : ∀ {t : Sys} {f : Event}, (entered t f).wasEnabled = none → Reaches t f := by
        intro t f ht _ htrue
        rw [prvReload_none _ ht] at htrue
        exact nomatch htrue
      refine ⟨fun _ => ⟨hvac hw, ?_⟩, fun _ hne => absurd hw hne⟩
      rw [hstep]
      exact hvac hw
  | some w =>
      obtain ⟨v, hv⟩ := prvReload_handle e.outcomes hw
      rw [← step_eq] at hv
      rw [eventOk_iff hs hw, reaches_working_iff hv, Reaches, step_eq]
      exact reloadOk_iff _ hw

/-! ## Every run -/

/-- **Disabling data collection reaches collectd** in every run whose events all meet their
    condition; and in every state of such a run the condition is exact for the next
    event. -/
theorem disabling_reaches_collectd (header footer : IncludeFile) (es : List Event)
    (hes : GuardedRun.Along step EventOk (installed header footer) es) :
    (∀ as e bs, es = as ++ e :: bs →
      Reaches (GuardedRun.run step (installed header footer) as) e) ∧
    ∀ e, EventOk (GuardedRun.run step (installed header footer) es) e ↔
      Reaches (GuardedRun.run step (installed header footer) es) e ∧
        Reaches (step (GuardedRun.run step (installed header footer) es) e)
          (.reload working) := by
  have hstart : Settled (installed header footer) := Or.inl rfl
  have hinv : ∀ s e, Settled s → EventOk s e → Settled (step s e) :=
    fun s e hs he => (settled_step hs he).2
  refine ⟨?_, fun e => eventOk_exact (GuardedRun.invariant hinv hstart hes)⟩
  rintro as e bs rfl
  obtain ⟨has, he, -⟩ := GuardedRun.along_append.mp hes
  exact (settled_step (GuardedRun.invariant hinv hstart has) he).1

/-- The daemon is started with data collection off; the restart of collectd works or
    not. -/
def startDisabled (restart : Bool) : Event := .init true { working with restart := restart }

theorem disabling_reaches_collectd_start :
    Reaches (GuardedRun.run step (installed (some [73]) none) []) (startDisabled true) :=
  (disabling_reaches_collectd (some [73]) none [startDisabled true]
    ⟨fun _ => ⟨fun _ => ⟨fun _ => rfl, fun _ => rfl⟩, fun _ => Or.inr (Or.inr (Or.inl rfl))⟩,
      trivial⟩).1 [] (startDisabled true) [] rfl

/-- **The restart fails once**: the files are empty then, nothing shows, and the next call
    returns true with collectd running as before. -/
theorem failed_restart_forgotten :
    ¬ (∀ header footer es as e bs, es = as ++ e :: bs →
        Reaches (GuardedRun.run step (installed header footer) as) e) ∧
      (prvReload working
        (GuardedRun.run step (installed (some [73]) none) [startDisabled false])).1 = true ∧
      (step (GuardedRun.run step (installed (some [73]) none) [startDisabled false])
        (.reload working)).running = ([73], []) := by
  have htrue : (prvReload working
      (GuardedRun.run step (installed (some [73]) none) [startDisabled false])).1 = true := by
    decide +kernel
  have hrunning : (step (GuardedRun.run step (installed (some [73]) none) [startDisabled false])
      (.reload working)).running = ([73], []) := by
    decide +kernel
  refine ⟨fun h => ?_, htrue, hrunning⟩
  have hidle := h (some [73]) none [startDisabled false, .reload working] [startDisabled false]
    (.reload working) [] rfl (by intro h; exact nomatch h) htrue
  rw [Idle, hrunning] at hidle
  exact nomatch hidle

end Collectd
