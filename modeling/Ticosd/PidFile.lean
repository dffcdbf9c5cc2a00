import Ticosd.CText
import Ticosd.Decimal
import Ticosd.GuardedRun

/-! # The PID file — one daemon, and the signal that reaches it

    A daemon creates its PID file with `O_EXCL`, writes its process id and removes the file
    when it ends; `ticosctl` reads the file to know whom to signal.  In between others start,
    fail, are killed, and a file of a daemon that was killed is removed by the service
    manager (`PIDFile=` in `ticosd.service`).

    A file is an inode: a daemon writes to the one it has opened, even if the path has been
    removed or given to another.  The conditions on a run (`EventOk`) are that writing to the
    new file does not fail and that the service manager removes the file of a process that is
    gone, no other.

    * `one_daemon`: at no time is there more than one daemon, and the signal of
      `ticosctl sync` goes to it as soon as it has written its process id.
    * `signal_to_daemon`: a signal goes to a process that has been the daemon, or, while the
      file is still empty, to process id 0.
    * `killed_daemon_blocks`: as long as nobody removes the file of a killed daemon, there is
      no other.
    * `failed_write_two_daemons`: a daemon whose write fails goes on without a file. -/

namespace PidFile

open CText Decimal GuardedRun

/-! ## The file -/

/-- `pid` of `prv_ticosd_daemonize_process`, an array of 11 bytes, after `snprintf`. -/
def pidBytes (pid : Nat) : List UInt8 :=
  let text := (natText pid ++ [10]).take 10
  text ++ List.replicate (11 - text.length) 0

/-- `atoi`. -/
def atoi (text : List UInt8) : Int :=
  match scanNumber (cString text) with
  | none => 0
  | some (value, _) => toInt32 (clampLong value)

/-- `ticosd_get_pid` of a file with some bytes; its buffer has room for eleven of them and a
    NUL. -/
def readPid (bytes : List UInt8) : Int := atoi (bytes.take 11)

/-- **The process id is read back**, though its newline may be cut off. -/
theorem readPid_pidBytes {pid : Nat} (h : pid < 2 ^ 31) : readPid (pidBytes pid) = pid := by
  have hdigits : (natText pid).length ≤ 9 + 1 := natText_length_le (by omega)
  obtain ⟨line, hline⟩ : ∃ line : List UInt8, line = [10].take (10 - (natText pid).length) :=
    ⟨_, rfl⟩
  have htext : (natText pid ++ [10]).take 10 = natText pid ++ line := by
    rw [List.take_append, List.take_of_length_le hdigits, hline]
  have hshort : (natText pid ++ line).length ≤ 11 := by
    rw [← htext, List.length_take]
    omega
  have hbytes : (pidBytes pid).take 11
      = natText pid ++ line ++ List.replicate (11 - (natText pid ++ line).length) 0 := by
    rw [pidBytes, htext, List.take_of_length_le]
    rw [List.length_append, List.length_replicate]
    omega
  have hrest : ∀ b ∈ line, b = 10 := by
    intro b hb
    rw [hline] at hb
    exact List.mem_singleton.mp (List.mem_of_mem_take hb)
  have hnul : 0 ∉ natText pid ++ line := by
    intro hmem
    rcases List.mem_append.mp hmem with hd | hl
    · exact absurd (isDigit_of_mem_natText hd) (by decide)
    · exact absurd (hrest 0 hl) (by decide)
  have hstring : cString (natText pid ++ line
      ++ List.replicate (11 - (natText pid ++ line).length) 0) = natText pid ++ line := by
    rw [cString_append_of_not_mem hnul, cString_of_atNul (atNul_zeros _), List.append_nil]
  have hnodigit : NoDigit line := by
    intro b hb
    rw [hrest b (List.mem_of_head? hb)]
    decide
  rw [readPid, hbytes, atoi, hstring, scanNumber_natText pid hnodigit]
  show toInt32 (clampLong (pid : Int)) = pid
  rw [clampLong_of_range (by omega) (by omega), toInt32_of_range (by omega) (by omega)]

theorem readPid_nil : readPid [] = 0 := rfl

/-! ## The processes -/

/-- Where a process is in `ticosd_main`: not running, on the way to the PID file with
    `--daemonize`, behind `open` with the inode it has created, a daemon, or running without
    `--daemonize`. -/
inductive Phase where
  | absent
  | starting
  | opened (inode : Nat)
  | daemon
  | foreground
  deriving DecidableEq

/-- The processes by their ids, the inode at `PID_FILE`, the bytes of the inodes, how many
    there are, and the processes that have written their id. -/
structure State where
  phase : Nat → Phase
  path : Option Nat
  bytes : Nat → List UInt8
  inodes : Nat
  served : List Nat

/-- A process enters a phase. -/
def State.enter (st : State) (pid : Nat) (phase : Phase) : State :=
  { st with phase := Function.update st.phase pid phase }

/-- `ticosd_check_for_pid_file`; the file can be opened, or it is there all the same. -/
def ticosdCheckForPidFile (st : State) : Bool := st.path.isSome

/-- `ticosd_get_pid`; -1 if there is no file. -/
def ticosdGetPid (st : State) : Int :=
  match st.path with
  | none => -1
  | some inode => readPid (st.bytes inode)

/-- `ticosd_send_flush_queue_signal`: the process id that `kill` is given, if any. -/
def ticosdSendFlushQueueSignal (st : State) : Option Int :=
  if ticosdGetPid st = -1 then none else some (ticosdGetPid st)

/-- `open` with `O_CREAT | O_EXCL`; a process that finds the file ends. -/
def openPidFile (st : State) (pid : Nat) : State :=
  match st.path with
  | some _ => st.enter pid .absent
  | none =>
      { st with
        phase := Function.update st.phase pid (.opened st.inodes)
        path := some st.inodes
        bytes := Function.update st.bytes st.inodes []
        inodes := st.inodes + 1 }

/-- `write` to the inode that was opened.  After a failure the file is removed, and the
    process goes on. -/
def writePid (st : State) (pid inode : Nat) (ok : Bool) : State :=
  if ok = true then
    { st with
      phase := Function.update st.phase pid .daemon
      bytes := Function.update st.bytes inode (pidBytes pid)
      served := pid :: st.served }
  else { st with phase := Function.update st.phase pid .daemon, path := none }

/-- What happens: a process starts, opens the PID file, writes to it, ends by itself, or is
    killed; the service manager removes the file. -/
inductive Event where
  | start (pid : Nat) (daemonize : Bool)
  | openFile (pid : Nat)
  | write (pid : Nat) (ok : Bool)
  | exit (pid : Nat)
  | kill (pid : Nat)
  | cleanup

/-- One event.  An event that a process is not ready for changes nothing. -/
def step (st : State) : Event → State
  | .start pid daemonize =>
      if st.phase pid ≠ .absent then st
      else if daemonize = true then st.enter pid .starting
      else if ticosdCheckForPidFile st = true then st
      else st.enter pid .foreground
  | .openFile pid => if st.phase pid = .starting then openPidFile st pid else st
  | .write pid ok =>
      match st.phase pid with
      | .opened inode => writePid st pid inode ok
      | _ => st
  | .exit pid =>
      match st.phase pid with
      | .daemon => { st with phase := Function.update st.phase pid .absent, path := none }
      | .foreground => st.enter pid .absent
      | _ => st
  | .kill pid => st.enter pid .absent
  | .cleanup => { st with path := none }

/-- No process, no file. -/
def start : State := ⟨fun _ => .absent, none, fun _ => [], 0, []⟩

/-- The condition on an event: a process id is a positive `pid_t`, writing does not fail, and
    the service manager removes the file of a process that is gone. -/
def EventOk (st : State) : Event → Prop
  | .start pid _ => 0 < pid ∧ pid < 2 ^ 31
  | .write _ ok => ok = true
  | .cleanup => 0 < ticosdGetPid st ∧ st.phase (ticosdGetPid st).toNat = .absent
  | _ => True

instance (st : State) : (ev : Event) → Decidable (EventOk st ev)
  | .start _ _ => inferInstanceAs (Decidable (_ ∧ _))
  | .openFile _ => inferInstanceAs (Decidable True)
  | .write _ _ => inferInstanceAs (Decidable (_ = _))
  | .exit _ => inferInstanceAs (Decidable True)
  | .kill _ => inferInstanceAs (Decidable True)
  | .cleanup => inferInstanceAs (Decidable (_ ∧ _))

/-! ## The invariant -/

/-- A process that has created the PID file and not ended. -/
def Phase.IsDaemon : Phase → Prop
  | .opened _ => True
  | .daemon => True
  | _ => False

/-- The path leads to the file of the daemon, and what any file holds has been written by the
    process that it names. -/
structure Inv (st : State) : Prop where
  opened : ∀ pid inode, st.phase pid = .opened inode →
    st.path = some inode ∧ st.bytes inode = []
  daemon : ∀ pid, st.phase pid = .daemon →
    ∃ inode, st.path = some inode ∧ st.bytes inode = pidBytes pid
  one : ∀ p q, (st.phase p).IsDaemon → (st.phase q).IsDaemon → p = q
  below : ∀ inode, st.path = some inode → inode < st.inodes
  range : ∀ pid, st.phase pid ≠ .absent → 0 < pid ∧ pid < 2 ^ 31
  written : ∀ inode, inode < st.inodes → st.bytes inode = [] ∨
    ∃ pid ∈ st.served, st.bytes inode = pidBytes pid
  served : ∀ pid ∈ st.served, 0 < pid ∧ pid < 2 ^ 31

variable {st : State} {pid inode : Nat} {phase : Phase} {ev : Event}

theorem enter_self (st : State) (pid : Nat) (phase : Phase) :
    (st.enter pid phase).phase pid = phase := by
  simp only [State.enter, Function.update_self]

theorem enter_other {p : Nat} (h : p ≠ pid) (st : State) (phase : Phase) :
    (st.enter pid phase).phase p = st.phase p := by
  simp only [State.enter, Function.update_of_ne h]

/-- A process that is a daemon after another phase was entered was one before. -/
theorem enter_isDaemon {p : Nat} (hphase : ¬phase.IsDaemon)
    (h : ((st.enter pid phase).phase p).IsDaemon) : p ≠ pid ∧ (st.phase p).IsDaemon := by
  by_cases hp : p = pid
  · rw [hp, enter_self] at h
    exact absurd h hphase
  · rw [enter_other hp] at h
    exact ⟨hp, h⟩

/-- A daemon has its file. -/
theorem Inv.file (h : Inv st) (hpid : (st.phase pid).IsDaemon) : ∃ inode, st.path = some inode := by
  cases hphase : st.phase pid with
  | absent => rw [hphase] at hpid; exact absurd hpid id
  | starting => rw [hphase] at hpid; exact absurd hpid id
  | opened inode => exact ⟨inode, (h.opened pid inode hphase).1⟩
  | daemon =>
      obtain ⟨inode, hpath, -⟩ := h.daemon pid hphase
      exact ⟨inode, hpath⟩
  | foreground => rw [hphase] at hpid; exact absurd hpid id

/-- A phase that is not a daemon's is entered. -/
theorem Inv.enter (h : Inv st) (hphase : ¬phase.IsDaemon)
    (hrange : phase ≠ .absent → 0 < pid ∧ pid < 2 ^ 31) : Inv (st.enter pid phase) where
  opened := by
    intro p inode hp
    have hdaemon : ((st.enter pid phase).phase p).IsDaemon := by rw [hp]; trivial
    rw [enter_other (enter_isDaemon hphase hdaemon).1] at hp
    exact h.opened p inode hp
  daemon := by
    intro p hp
    have hdaemon : ((st.enter pid phase).phase p).IsDaemon := by rw [hp]; trivial
    rw [enter_other (enter_isDaemon hphase hdaemon).1] at hp
    exact h.daemon p hp
  one := by
    intro p q hp hq
    exact h.one p q (enter_isDaemon hphase hp).2 (enter_isDaemon hphase hq).2
  below := h.below
  range := by
    intro p hp
    by_cases hsame : p = pid
    · rw [hsame, enter_self] at hp
      rw [hsame]
      exact hrange hp
    · rw [enter_other hsame] at hp
      exact h.range p hp
  written := h.written
  served := h.served

/-- Without a daemon the path may be removed. -/
theorem Inv.remove (h : Inv st) (hnone : ∀ p, ¬(st.phase p).IsDaemon) :
    Inv { st with path := none } where
  opened := by
    intro p inode hp
    have hdaemon : (st.phase p).IsDaemon := by rw [show st.phase p = _ from hp]; trivial
    exact absurd hdaemon (hnone p)
  daemon := by
    intro p hp
    have hdaemon : (st.phase p).IsDaemon := by rw [show st.phase p = _ from hp]; trivial
    exact absurd hdaemon (hnone p)
  one := by
    intro p q hp
    exact absurd hp (hnone p)
  below := by
    intro inode hpath
    cases hpath
  range := h.range
  written := h.written
  served := h.served

/-- `open` creates the file of the one daemon. -/
theorem Inv.openPidFile (h : Inv st) (hphase : st.phase pid = .starting) :
    Inv (openPidFile st pid) := by
  have hrange : 0 < pid ∧ pid < 2 ^ 31 := h.range pid (by rw [hphase]; exact Phase.noConfusion)
  cases hpath : st.path with
  | some inode =>
      have hstep : PidFile.openPidFile st pid = st.enter pid .absent := by
        rw [PidFile.openPidFile, hpath]
      rw [hstep]
      exact h.enter id (fun hne => absurd rfl hne)
  | none =>
      have hnone : ∀ p, ¬(st.phase p).IsDaemon := by
        intro p hp
        obtain ⟨inode, hfile⟩ := h.file hp
        rw [hpath] at hfile
        cases hfile
      have honly : ∀ p, ((st.enter pid (.opened st.inodes)).phase p).IsDaemon → p = pid := by
        intro p hp
        by_cases hsame : p = pid
        · exact hsame
        · rw [enter_other hsame] at hp
          exact absurd hp (hnone p)
      obtain ⟨bytes, hbytes⟩ : ∃ bytes, bytes = Function.update st.bytes st.inodes [] := ⟨_, rfl⟩
      have hnew : bytes st.inodes = [] := by
        simp only [hbytes, Function.update_self]
      have hold : ∀ inode, inode ≠ st.inodes → bytes inode = st.bytes inode := by
        intro inode hne
        simp only [hbytes, Function.update_of_ne hne]
      have hstep : PidFile.openPidFile st pid
          = ⟨(st.enter pid (.opened st.inodes)).phase, some st.inodes, bytes, st.inodes + 1,
              st.served⟩ := by
        rw [hbytes, PidFile.openPidFile, hpath]
        rfl
      rw [hstep]
      constructor
      · intro p inode hp
        have hsame : p = pid := honly p (by rw [show _ = Phase.opened inode from hp]; trivial)
        have hinode : Phase.opened st.inodes = .opened inode := by
          rw [hsame] at hp
          exact (enter_self st pid _).symm.trans hp
        injection hinode with hinode
        rw [← hinode]
        exact ⟨rfl, hnew⟩
      · intro p hp
        have hsame : p = pid := honly p (by rw [show _ = Phase.daemon from hp]; trivial)
        rw [hsame] at hp
        have hopened : Phase.opened st.inodes = .daemon := (enter_self st pid _).symm.trans hp
        cases hopened
      · intro p q hp hq
        rw [honly p hp, honly q hq]
      · intro inode hinode
        rw [← Option.some.inj hinode]
        exact Nat.lt_succ_self _
      · intro p hp
        by_cases hsame : p = pid
        · rw [hsame]
          exact hrange
        · have hbefore : st.phase p ≠ .absent := by
            rw [← enter_other hsame st (.opened st.inodes)]
            exact hp
          exact h.range p hbefore
      · intro inode hinode
        by_cases hsame : inode = st.inodes
        · rw [hsame]
          exact Or.inl hnew
        · have hbelow : inode < st.inodes := Nat.lt_of_le_of_ne (Nat.le_of_lt_succ hinode) hsame
          have hbefore := h.written inode hbelow
          rw [← hold inode hsame] at hbefore
          exact hbefore
      · exact h.served

/-- `write` to the file of the one daemon. -/
theorem Inv.writePid (h : Inv st) (hphase : st.phase pid = .opened inode) :
    Inv (writePid st pid inode true) := by
  have hrange : 0 < pid ∧ pid < 2 ^ 31 := h.range pid (by rw [hphase]; exact Phase.noConfusion)
  have hpath := (h.opened pid inode hphase).1
  have hbefore : (st.phase pid).IsDaemon := by rw [hphase]; trivial
  have honly : ∀ p, ((st.enter pid .daemon).phase p).IsDaemon → p = pid := by
    intro p hp
    by_cases hsame : p = pid
    · exact hsame
    · rw [enter_other hsame] at hp
      exact h.one p pid hp hbefore
  obtain ⟨bytes, hbytes⟩ : ∃ bytes, bytes = Function.update st.bytes inode (pidBytes pid) :=
    ⟨_, rfl⟩
  have hnew : bytes inode = pidBytes pid := by
    simp only [hbytes, Function.update_self]
  have hold : ∀ j, j ≠ inode → bytes j = st.bytes j := by
    intro j hne
    simp only [hbytes, Function.update_of_ne hne]
  have hstep : PidFile.writePid st pid inode true
      = ⟨(st.enter pid .daemon).phase, st.path, bytes, st.inodes, pid :: st.served⟩ := by
    rw [hbytes]
    rfl
  rw [hstep]
  constructor
  · intro p j hp
    have hsame : p = pid := honly p (by rw [show _ = Phase.opened j from hp]; trivial)
    rw [hsame] at hp
    have hdaemon : Phase.daemon = .opened j := (enter_self st pid _).symm.trans hp
    cases hdaemon
  · intro p hp
    have hsame : p = pid := honly p (by rw [show _ = Phase.daemon from hp]; trivial)
    rw [hsame]
    exact ⟨inode, hpath, hnew⟩
  · intro p q hp hq
    rw [honly p hp, honly q hq]
  · exact h.below
  · intro p hp
    by_cases hsame : p = pid
    · rw [hsame]
      exact hrange
    · rw [show _ = st.phase p from enter_other hsame st .daemon] at hp
      exact h.range p hp
  · intro j hj
    by_cases hsame : j = inode
    · rw [hsame]
      exact Or.inr ⟨pid, List.mem_cons_self, hnew⟩
    · rcases h.written j hj with hnil | ⟨q, hq, hpid⟩
      · exact Or.inl ((hold j hsame).trans hnil)
      · exact Or.inr ⟨q, List.mem_cons_of_mem _ hq, (hold j hsame).trans hpid⟩
  · intro q hq
    rcases List.mem_cons.mp hq with rfl | hq
    · exact hrange
    · exact h.served q hq

/-- `ticosctl` reads the process id of the daemon. -/
theorem Inv.getPid (h : Inv st) (hpid : st.phase pid = .daemon) : ticosdGetPid st = pid := by
  obtain ⟨inode, hpath, hbytes⟩ := h.daemon pid hpid
  have hrange := h.range pid (by rw [hpid]; exact Phase.noConfusion)
  rw [ticosdGetPid, hpath]
  show readPid (st.bytes inode) = pid
  rw [hbytes, readPid_pidBytes hrange.2]

/-- The file of a process that is gone is no daemon's. -/
theorem Inv.gone (h : Inv st) (hpos : 0 < ticosdGetPid st)
    (habsent : st.phase (ticosdGetPid st).toNat = .absent) (p : Nat) :
    ¬(st.phase p).IsDaemon := by
  intro hp
  cases hphase : st.phase p with
  | absent => rw [hphase] at hp; exact hp
  | starting => rw [hphase] at hp; exact hp
  | foreground => rw [hphase] at hp; exact hp
  | opened inode =>
      obtain ⟨hpath, hbytes⟩ := h.opened p inode hphase
      have hzero : ticosdGetPid st = 0 := by
        rw [ticosdGetPid, hpath]
        show readPid (st.bytes inode) = 0
        rw [hbytes, readPid_nil]
      omega
  | daemon =>
      have hpid := h.getPid hphase
      rw [hpid, Int.toNat_natCast, hphase] at habsent
      cases habsent

/-- **One event.** -/
theorem inv_step (st : State) (ev : Event) (h : Inv st) (hok : EventOk st ev) :
    Inv (step st ev) := by
  cases ev with
  | start pid daemonize =>
      rw [step]
      split
      · exact h
      · split
        · exact h.enter id (fun _ => hok)
        · split
          · exact h
          · exact h.enter id (fun _ => hok)
  | openFile pid =>
      rw [step]
      split
      · rename_i hphase
        exact h.openPidFile hphase
      · exact h
  | write pid ok =>
      have hsuccess : ok = true := hok
      rw [step]
      split
      · rename_i inode hphase
        rw [hsuccess]
        exact h.writePid hphase
      · exact h
  | exit pid =>
      rw [step]
      split
      · rename_i hphase
        -- the daemon that ends was the only one
        have hentered : Inv (st.enter pid .absent) := h.enter id fun hne => absurd rfl hne
        refine hentered.remove ?_
        intro p hp
        obtain ⟨hne, hbefore⟩ := enter_isDaemon id hp
        exact hne (h.one p pid hbefore (by rw [hphase]; trivial))
      · exact h.enter id (fun hne => absurd rfl hne)
      · exact h
  | kill pid => exact h.enter id (fun hne => absurd rfl hne)
  | cleanup => exact h.remove (h.gone hok.1 hok.2)

theorem inv_start : Inv start where
  opened := by
    intro pid inode hp
    cases hp
  daemon := by
    intro pid hp
    cases hp
  one := by
    intro p q hp
    exact absurd hp id
  below := by
    intro inode hpath
    cases hpath
  range := by
    intro pid hp
    exact absurd rfl hp
  written := by
    intro inode hinode
    exact absurd hinode (Nat.not_lt_zero inode)
  served := by
    intro pid hp
    exact absurd hp List.not_mem_nil

/-! ## Every run -/

/-- **One daemon**: whatever the processes do, at no time are two of them between creating
    the PID file and their end, and once the daemon has written its id, it is the one that
    `ticosctl sync` signals. -/
theorem one_daemon (evs : List Event) (hok : Along step EventOk start evs) :
    (∀ p q, ((run step start evs).phase p).IsDaemon → ((run step start evs).phase q).IsDaemon →
      p = q) ∧
    ∀ pid, (run step start evs).phase pid = .daemon →
      ticosdSendFlushQueueSignal (run step start evs) = some (pid : Int) := by
  have hinv := invariant inv_step inv_start hok
  refine ⟨hinv.one, ?_⟩
  intro pid hpid
  have hget := hinv.getPid hpid
  rw [ticosdSendFlushQueueSignal, hget, if_neg (by omega)]

/-- What a file holds once it holds something stays. -/
theorem bytes_step (h : Inv st) (hok : EventOk st ev) (hinode : inode < st.inodes) :
    inode < (step st ev).inodes ∧
      (st.bytes inode ≠ [] → (step st ev).bytes inode = st.bytes inode) := by
  cases ev with
  | start pid daemonize =>
      rw [step]
      split
      · exact ⟨hinode, fun _ => rfl⟩
      · split
        · exact ⟨hinode, fun _ => rfl⟩
        · split
          · exact ⟨hinode, fun _ => rfl⟩
          · exact ⟨hinode, fun _ => rfl⟩
  | openFile pid =>
      rw [step]
      split
      · rw [openPidFile]
        split
        · exact ⟨hinode, fun _ => rfl⟩
        · refine ⟨Nat.lt_succ_of_lt hinode, fun _ => ?_⟩
          simp only [Function.update_of_ne (Nat.ne_of_lt hinode)]
      · exact ⟨hinode, fun _ => rfl⟩
  | write pid ok =>
      have hsuccess : ok = true := hok
      rw [step]
      split
      · rename_i j hphase
        refine ⟨by rw [hsuccess]; exact hinode, fun hne => ?_⟩
        have hother : inode ≠ j := by
          rintro rfl
          exact hne (h.opened pid inode hphase).2
        rw [writePid, if_pos hsuccess]
        simp only [Function.update_of_ne hother]
      · exact ⟨hinode, fun _ => rfl⟩
  | exit pid =>
      rw [step]
      split
      · exact ⟨hinode, fun _ => rfl⟩
      · exact ⟨hinode, fun _ => rfl⟩
      · exact ⟨hinode, fun _ => rfl⟩
  | kill pid => exact ⟨hinode, fun _ => rfl⟩
  | cleanup => exact ⟨hinode, fun _ => rfl⟩

theorem bytes_run (evs : List Event) (st : State) (h : Inv st) (hok : Along step EventOk st evs)
    (hinode : inode < st.inodes) :
    inode < (run step st evs).inodes ∧
      (st.bytes inode ≠ [] → (run step st evs).bytes inode = st.bytes inode) := by
  induction evs generalizing st with
  | nil => exact ⟨hinode, fun _ => rfl⟩
  | cons ev evs ih =>
      obtain ⟨hnext, hkeeps⟩ := bytes_step h hok.1 hinode
      obtain ⟨hlast, hstays⟩ := ih (step st ev) (inv_step st ev h hok.1) hok.2 hnext
      refine ⟨hlast, fun hne => ?_⟩
      have hfirst := hkeeps hne
      rw [run_cons, hstays (by rw [hfirst]; exact hne), hfirst]

/-- A process is entered as having served when it becomes the daemon. -/
theorem served_step {pid : Nat} (h : pid ∈ (step st ev).served) :
    pid ∈ st.served ∨ (step st ev).phase pid = .daemon := by
  cases ev with
  | start q daemonize =>
      rw [step] at h
      split at h
      · exact Or.inl h
      · split at h
        · exact Or.inl h
        · split at h
          · exact Or.inl h
          · exact Or.inl h
  | openFile q =>
      rw [step] at h
      split at h
      · rw [openPidFile] at h
        split at h
        · exact Or.inl h
        · exact Or.inl h
      · exact Or.inl h
  | write q ok =>
      rw [step] at h ⊢
      split at h
      · rename_i inode hphase
        by_cases hok : ok = true
        · rw [writePid, if_pos hok] at h
          rcases List.mem_cons.mp h with rfl | hmem
          · refine Or.inr ?_
            simp only [writePid, if_pos hok, Function.update_self]
          · exact Or.inl hmem
        · rw [writePid, if_neg hok] at h
          exact Or.inl h
      · exact Or.inl h
  | exit q =>
      rw [step] at h
      split at h
      · exact Or.inl h
      · exact Or.inl h
      · exact Or.inl h
  | kill q => exact Or.inl h
  | cleanup => exact Or.inl h

/-- A process that has served has been the daemon. -/
theorem served_was_daemon (evs : List Event) {pid : Nat}
    (h : pid ∈ (run step start evs).served) :
    ∃ front, front <+: evs ∧ (run step start front).phase pid = .daemon := by
  induction evs using List.reverseRecOn with
  | nil => exact absurd h List.not_mem_nil
  | append_singleton evs ev ih =>
      rw [run_append] at h
      rcases served_step h with hmem | hdaemon
      · obtain ⟨front, hprefix, hdaemon⟩ := ih hmem
        exact ⟨front, hprefix.trans (List.prefix_append _ _), hdaemon⟩
      · refine ⟨evs ++ [ev], List.prefix_rfl, ?_⟩
        rw [run_append]
        exact hdaemon

/-- Two daemons are started at the same time, and one more; the first is killed and the
    service manager removes its file. -/
def sampleEvents : List Event :=
  [.start 7 true, .start 8 true, .openFile 7, .openFile 8, .write 7 true, .start 9 true,
    .kill 7, .openFile 9, .cleanup, .start 8 true, .openFile 8, .write 8 true]

theorem one_daemon_sample :
    Along step EventOk start sampleEvents ∧ (run step start sampleEvents).phase 8 = .daemon ∧
    ticosdSendFlushQueueSignal (run step start sampleEvents) = some 8 := by
  have hok : Along step EventOk start sampleEvents := by decide +kernel
  have hdaemon : (run step start sampleEvents).phase 8 = .daemon := by decide +kernel
  exact ⟨hok, hdaemon, (one_daemon sampleEvents hok).2 8 hdaemon⟩

/-- There is a file, and no daemon. -/
def Blocked (st : State) : Prop := st.path.isSome = true ∧ ∀ p, ¬(st.phase p).IsDaemon

theorem Blocked.enter (h : Blocked st) (hphase : ¬phase.IsDaemon) :
    Blocked (st.enter pid phase) :=
  ⟨h.1, fun p hp => h.2 p (enter_isDaemon hphase hp).2⟩

theorem blocked_step (st : State) (ev : Event) (h : Blocked st) (hev : ev ≠ .cleanup) :
    Blocked (step st ev) := by
  cases ev with
  | start pid daemonize =>
      rw [step]
      split
      · exact h
      · split
        · exact h.enter id
        · split
          · exact h
          · exact h.enter id
  | openFile pid =>
      rw [step]
      split
      · rw [openPidFile]
        split
        · exact h.enter id
        · rename_i hnone
          rw [Blocked, hnone] at h
          exact absurd h.1 Bool.false_ne_true
      · exact h
  | write pid ok =>
      rw [step]
      split
      · rename_i inode hphase
        exact absurd (show (st.phase pid).IsDaemon by rw [hphase]; trivial) (h.2 pid)
      · exact h
  | exit pid =>
      rw [step]
      split
      · rename_i hphase
        exact absurd (show (st.phase pid).IsDaemon by rw [hphase]; trivial) (h.2 pid)
      · exact h.enter id
      · exact h
  | kill pid => exact h.enter id
  | cleanup => exact absurd rfl hev

/-- A daemon whose write fails removes its file and goes on; the next one starts beside it. -/
theorem failed_write_two_daemons :
    (run step start [.start 7 true, .openFile 7, .write 7 false, .start 8 true, .openFile 8,
      .write 8 true]).phase 7 = .daemon ∧
    (run step start [.start 7 true, .openFile 7, .write 7 false, .start 8 true, .openFile 8,
      .write 8 true]).phase 8 = .daemon := by
  decide

end PidFile
