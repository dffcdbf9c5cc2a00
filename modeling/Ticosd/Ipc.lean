import Ticosd.CText
import Ticosd.Decimal
import Ticosd.GuardedRun

/-! # IPC thread — datagrams, the receive buffer and the plugins

    `prv_ipc_process_thread` of `ticosd.c` receives into one buffer that is never
    cleared, keeps the result of `recvmsg` in an unsigned variable, and hands the
    buffer to the first plugin whose name stands in it.  The handlers then read
    the buffer as a C structure and as C strings.

    What a handler reads is a memory: the received bytes, behind them what earlier
    datagrams left, behind the buffer whatever follows.  `alone` is the effect of a
    datagram on a zeroed buffer.  A run whose outcomes leave nothing to be read
    behind the received bytes (`OutcomeOk`) has the effects of its datagrams
    alone; the others are a receive error and strings that do not end in the
    datagram. -/

namespace Ipc

open CText Decimal GuardedRun

/-- `RX_BUFFER_SIZE`. -/
def rxBufferSize : Nat := 1024

/-- The plugins of `g_plugins`. -/
inductive Plugin where
  | attributes
  | reboot
  | swupdate
  | collectd
  | coredump
  deriving DecidableEq

/-- `ipc_name`. -/
def Plugin.ipcName : Plugin → List UInt8
  | .attributes => ascii "ATTRIBUTES"
  | .reboot => []
  | .swupdate => []
  | .collectd => ascii "COLLECTD"
  | .coredump => ascii "CORE"

/-- What a handler does with a message: an entry is queued, a core file is refused
    or taken for a process, metrics are requested. -/
inductive Effect where
  | queued (entry : List UInt8)
  | coreRejected
  | corePid (pid : Int)
  | metricsRequested
  deriving DecidableEq

/-- The plugins that have been loaded, in the order of the table, and the data
    collection flag. -/
structure Daemon where
  plugins : List Plugin
  enableDataCollection : Bool

/-! ## The handlers -/

/-- `prv_build_queue_entry` of `attributes.c`: the type, the time stamp at offset 16
    of the message and the string at offset 24, with its NUL. -/
def prvBuildQueueEntry (msg : List UInt8) : List UInt8 :=
  65 :: ((msg.drop 16).take 8 ++ (cString (msg.drop 24) ++ [0]))

/-- `ticosd_txdata`. -/
def ticosdTxdata (d : Daemon) (entry : List UInt8) : List Effect :=
  if d.enableDataCollection then [.queued entry] else []

/-- `prv_msg_handler` of `coredump.c` up to the process id; `stream` is the
    descriptor in the control data.  A subtype other than ELF is only logged. -/
def coredumpMsgHandler (buf : List UInt8) (receivedSize : Nat) (stream : Option Int) : Effect :=
  match stream with
  | none => .coreRejected
  | some _ =>
      let offset := strnlen buf receivedSize + 1
      if offset ≥ receivedSize then .coreRejected
      else
        let offset' := offset + strnlen (buf.drop offset) (receivedSize - offset) + 1
        if offset' ≥ receivedSize then .coreRejected
        else match scanNumber (buf.drop offset') with
          | none => .coreRejected
          | some (value, rest) =>
              if rest.headD 0 ≠ 0 then .coreRejected else .corePid (toInt32 (clampLong value))

/-- `plugin_ipc_msg_handler` of each plugin. -/
def Plugin.msgHandler (d : Daemon) (buf : List UInt8) (receivedSize : Nat)
    (stream : Option Int) : Plugin → List Effect
  | .attributes => ticosdTxdata d (prvBuildQueueEntry buf)
  | .collectd => [.metricsRequested]
  | .coredump => [coredumpMsgHandler buf receivedSize stream]
  | .reboot => []
  | .swupdate => []

/-- The test of a plugin: the message is longer than the name, and `strcmp` finds
    the name in the buffer. -/
def Plugin.Matches (buf : List UInt8) (receivedSize : Nat) (p : Plugin) : Prop :=
  p.ipcName ≠ [] ∧ p.ipcName.length < receivedSize ∧ p.ipcName ++ [0] <+: buf

instance (buf : List UInt8) (receivedSize : Nat) (p : Plugin) :
    Decidable (p.Matches buf receivedSize) :=
  inferInstanceAs (Decidable (_ ∧ _ ∧ _))

/-- The loop of `ticosd_plugins_process_ipc`: the first plugin that matches. -/
def findPlugin (buf : List UInt8) (receivedSize : Nat) : List Plugin → Option Plugin
  | [] => none
  | p :: rest =>
      if p.Matches buf receivedSize then some p else findPlugin buf receivedSize rest

/-- `ticosd_plugins_process_ipc`. -/
def ticosdPluginsProcessIpc (d : Daemon) (buf : List UInt8) (receivedSize : Nat)
    (stream : Option Int) : List Effect :=
  match findPlugin buf receivedSize d.plugins with
  | none => []
  | some p => p.msgHandler d buf receivedSize stream

/-! ## The thread -/

/-- What `recvmsg` gives. -/
inductive Received where
  | error
  | datagram (data : List UInt8) (stream : Option Int)

/-- An outcome of `recvmsg`, and the memory behind the buffer at that time. -/
structure Outcome where
  received : Received
  beyond : List UInt8

/-- The value -1 in a `size_t`. -/
def sizeMax : Nat := 2 ^ 64 - 1

/-- One round of `prv_ipc_process_thread`: the effects and the buffer afterwards.
    An error leaves the buffer as it was and passes the test for a size of 0. -/
def round (d : Daemon) (buffer : List UInt8) (o : Outcome) : List Effect × List UInt8 :=
  match o.received with
  | .error => (ticosdPluginsProcessIpc d (buffer ++ o.beyond) sizeMax none, buffer)
  | .datagram data stream =>
      let received := data.take rxBufferSize
      let buffer' := received ++ buffer.drop received.length
      if received.length = 0 then ([], buffer')
      else (ticosdPluginsProcessIpc d (buffer' ++ o.beyond) received.length stream, buffer')

/-- The zeroed buffer of `calloc`. -/
def zeroBuffer : List UInt8 := List.replicate rxBufferSize 0

/-- The effects of an outcome alone: none of an error, those on a zeroed buffer of
    a datagram. -/
def alone (d : Daemon) : Received → List Effect
  | .error => []
  | .datagram data stream => (round d zeroBuffer ⟨.datagram data stream, []⟩).1

/-- The thread: the buffer and the effects so far. -/
structure Thread where
  buffer : List UInt8
  effects : List Effect

/-- One outcome. -/
def step (d : Daemon) (t : Thread) (o : Outcome) : Thread where
  buffer := (round d t.buffer o).2
  effects := t.effects ++ (round d t.buffer o).1

/-- The thread at its start. -/
def initial : Thread := ⟨zeroBuffer, []⟩

/-! ## When nothing behind the datagram is read -/

/-- The part of the message in which the coredump handler looks for the process
    id. -/
def pidText (received : List UInt8) : List UInt8 :=
  let offset := (cString received).length + 1
  received.drop (offset + (cString (received.drop offset)).length + 1)

/-- What a handler reads ends in the datagram: `behind` is the memory behind it.
    The time stamp is received or zero; the attributes end in the datagram, or a
    NUL stands where they go on; so does the process id. -/
def ReadsInside (received behind : List UInt8) (stream : Option Int) : Plugin → Prop
  | .attributes =>
      (∀ b ∈ (behind.take (24 - received.length)).drop (16 - received.length), b = 0) ∧
      (0 ∈ received.drop 24 ∨ AtNul (behind.drop (24 - received.length)))
  | .coredump => stream = none ∨ scanRest (pidText received) ≠ [] ∨ AtNul behind
  | _ => True

instance (received behind : List UInt8) (stream : Option Int) :
    ∀ p, Decidable (ReadsInside received behind stream p)
  | .attributes => inferInstanceAs (Decidable (_ ∧ _))
  | .coredump => inferInstanceAs (Decidable (_ ∨ _ ∨ _))
  | .reboot => inferInstanceAs (Decidable True)
  | .swupdate => inferInstanceAs (Decidable True)
  | .collectd => inferInstanceAs (Decidable True)

/-- The condition on an outcome: an error comes while no plugin's name stands in
    the buffer; the handler of a datagram reads inside it. -/
def OutcomeOk (d : Daemon) (t : Thread) (o : Outcome) : Prop :=
  match o.received with
  | .error => findPlugin (t.buffer ++ o.beyond) sizeMax d.plugins = none
  | .datagram data stream =>
      let received := data.take rxBufferSize
      ∀ p ∈ findPlugin received received.length d.plugins,
        ReadsInside received (t.buffer.drop received.length ++ o.beyond) stream p

instance (d : Daemon) (t : Thread) (o : Outcome) : Decidable (OutcomeOk d t o) :=
  match o with
  | ⟨.error, beyond⟩ =>
      inferInstanceAs (Decidable (findPlugin (t.buffer ++ beyond) sizeMax d.plugins = none))
  | ⟨.datagram data stream, beyond⟩ =>
      inferInstanceAs (Decidable (∀ p ∈ findPlugin (data.take rxBufferSize)
        (data.take rxBufferSize).length d.plugins, ReadsInside (data.take rxBufferSize)
        (t.buffer.drop (data.take rxBufferSize).length ++ beyond) stream p))

/-! ## A message and the memory behind it -/

variable {d : Daemon} {received behind : List UInt8} {stream : Option Int}

theorem matches_append (p : Plugin) :
    p.Matches (received ++ behind) received.length ↔ p.Matches received received.length := by
  refine and_congr_right fun _ => and_congr_right fun hlen => ?_
  constructor
  · intro h
    refine List.prefix_of_prefix_length_le h (List.prefix_append _ _) ?_
    rw [List.length_append, List.length_singleton]
    exact hlen
  · intro h
    exact h.trans (List.prefix_append _ _)

/-- The plugin is found in the received bytes. -/
theorem findPlugin_append (ps : List Plugin) :
    findPlugin (received ++ behind) received.length ps = findPlugin received received.length ps := by
  induction ps with
  | nil => rfl
  | cons p ps ih => simp only [findPlugin, matches_append, ih]

/-- The entry of a message that is read inside the received bytes. -/
theorem buildQueueEntry_inside (hlen : 24 ≤ received.length + behind.length)
    (h : ReadsInside received behind stream .attributes) :
    prvBuildQueueEntry (received ++ behind) =
      65 :: ((received.drop 16).take 8 ++ List.replicate (8 - (received.drop 16).length) 0 ++
        (cString (received.drop 24) ++ [0])) := by
  obtain ⟨hstamp, hjson⟩ := h
  have htime : (behind.drop (16 - received.length)).take (8 - (received.drop 16).length)
      = List.replicate (8 - (received.drop 16).length) 0 := by
    rw [List.eq_replicate_iff]
    have hcount : 8 - (received.drop 16).length
        = 24 - received.length - (16 - received.length) := by
      rw [List.length_drop]
      omega
    rw [hcount]
    constructor
    · rw [List.length_take, List.length_drop]
      omega
    · intro b hb
      rw [← List.drop_take] at hb
      exact hstamp b hb
  have hstring : cString ((received ++ behind).drop 24) = cString (received.drop 24) := by
    rw [List.drop_append]
    by_cases hnul : 0 ∈ received.drop 24
    · exact cString_append_of_mem hnul _
    · rw [cString_append_of_not_mem hnul, cString_of_atNul (hjson.resolve_left hnul),
        List.append_nil, cString_eq hnul]
  rw [prvBuildQueueEntry, hstring, List.drop_append, List.take_append, htime]

theorem stops_of_atNul (h : AtNul behind) : Stops behind := by
  intro b hb
  have hzero : b = 0 := by
    cases behind with
    | nil => exact nomatch hb
    | cons x rest =>
        rw [← Option.some.inj hb]
        exact h
  rw [hzero]
  decide

/-- The coredump handler of a message that is read inside the received bytes. -/
theorem coredumpMsgHandler_inside (h : ReadsInside received behind stream .coredump) :
    coredumpMsgHandler (received ++ behind) received.length stream =
      coredumpMsgHandler received received.length stream := by
  cases stream with
  | none => rfl
  | some fd =>
      have hpid := h.resolve_left (fun hno => nomatch hno)
      have hfirst : strnlen (received ++ behind) received.length
          = strnlen received received.length := by
        rw [strnlen, strnlen, List.take_left, List.take_length]
      simp only [coredumpMsgHandler, hfirst]
      -- each of the two texts is bounded by what is left of the datagram
      by_cases h1 : strnlen received received.length + 1 ≥ received.length
      · rw [if_pos h1, if_pos h1]
      · rw [if_neg h1, if_neg h1]
        have hdrop : ∀ n, n ≤ received.length →
            (received ++ behind).drop n = received.drop n ++ behind :=
          fun n hn => List.drop_append_of_le_length hn
        have hsecond : ∀ n, n ≤ received.length →
            strnlen ((received ++ behind).drop n) (received.length - n)
              = strnlen (received.drop n) (received.length - n) := by
          intro n hn
          rw [hdrop n hn, ← List.length_drop, strnlen_self, strnlen, List.take_left]
        rw [hsecond _ (by omega)]
        by_cases h2 : strnlen received received.length + 1
            + strnlen (received.drop (strnlen received received.length + 1))
              (received.length - (strnlen received received.length + 1)) + 1 ≥ received.length
        · rw [if_pos h2, if_pos h2]
        · rw [if_neg h2, if_neg h2, hdrop _ (by omega)]
          have htext : received.drop (strnlen received received.length + 1
              + strnlen (received.drop (strnlen received received.length + 1))
                (received.length - (strnlen received received.length + 1)) + 1)
              = pidText received := by
            simp only [pidText, ← strnlen_self, List.length_drop]
          -- `strtol` knows no bound; `hpid` is what stops it
          rw [htext, scanNumber_append (hpid.imp_right stops_of_atNul)]
          cases hscan : scanNumber (pidText received) with
          | none => rfl
          | some r =>
              obtain ⟨value, rest⟩ := r
              have hrest : rest = scanRest (pidText received) := scanNumber_rest hscan
              have hhead : (rest ++ behind).headD 0 = rest.headD 0 := by
                cases rest with
                | nil => exact hpid.resolve_left (fun hne => hne hrest.symm)
                | cons b rest => rfl
              simp only [Option.map_some, hhead]

/-- **A handler that reads inside the datagram** does the same with any memory
    behind it. -/
theorem msgHandler_inside {behind' : List UInt8} (p : Plugin)
    (hlen : 24 ≤ received.length + behind.length) (hlen' : 24 ≤ received.length + behind'.length)
    (h : ReadsInside received behind stream p) (h' : ReadsInside received behind' stream p) :
    p.msgHandler d (received ++ behind) received.length stream =
      p.msgHandler d (received ++ behind') received.length stream := by
  cases p with
  | attributes =>
      simp only [Plugin.msgHandler]
      rw [buildQueueEntry_inside hlen h, buildQueueEntry_inside hlen' h']
  | coredump =>
      simp only [Plugin.msgHandler]
      rw [coredumpMsgHandler_inside h, coredumpMsgHandler_inside h']
  | reboot => rfl
  | swupdate => rfl
  | collectd => rfl

/-- Zeros behind the datagram are never read as something else. -/
theorem readsInside_zeros (n : Nat) (p : Plugin) :
    ReadsInside received (List.replicate n 0) stream p := by
  cases p with
  | attributes =>
      constructor
      · intro b hb
        exact List.eq_of_mem_replicate (List.mem_of_mem_take (List.mem_of_mem_drop hb))
      · refine Or.inr ?_
        rw [List.drop_replicate]
        exact atNul_zeros _
  | coredump => exact Or.inr (Or.inr (atNul_zeros n))
  | reboot => trivial
  | swupdate => trivial
  | collectd => trivial

/-! ## Runs -/

/-- The buffer keeps its size. -/
theorem round_buffer_length (d : Daemon) {buffer : List UInt8}
    (h : buffer.length = rxBufferSize) (o : Outcome) :
    (round d buffer o).2.length = rxBufferSize := by
  obtain ⟨received, beyond⟩ := o
  cases received with
  | error => exact h
  | datagram data stream =>
      have hlen : (data.take rxBufferSize
          ++ buffer.drop (data.take rxBufferSize).length).length = rxBufferSize := by
        rw [List.length_append, List.length_drop, h, List.length_take]
        omega
      simp only [round]
      split
      · exact hlen
      · exact hlen

/-- One round has the effects of its outcome alone. -/
theorem round_alone (d : Daemon) {t : Thread} (h : t.buffer.length = rxBufferSize) {o : Outcome}
    (hok : OutcomeOk d t o) : (round d t.buffer o).1 = alone d o.received := by
  obtain ⟨received, beyond⟩ := o
  cases received with
  | error =>
      have hnone : findPlugin (t.buffer ++ beyond) sizeMax d.plugins = none := hok
      simp only [round, alone, ticosdPluginsProcessIpc, hnone]
  | datagram data stream =>
      have hinside : ∀ p ∈ findPlugin (data.take rxBufferSize) (data.take rxBufferSize).length
          d.plugins, ReadsInside (data.take rxBufferSize)
            (t.buffer.drop (data.take rxBufferSize).length ++ beyond) stream p := hok
      have hsize : (data.take rxBufferSize).length ≤ rxBufferSize := by
        rw [List.length_take]
        exact Nat.min_le_left _ _
      simp only [alone, round, List.append_assoc]
      generalize data.take rxBufferSize = received at hinside hsize
      by_cases hzero : received.length = 0
      · rw [if_pos hzero, if_pos hzero]
      · rw [if_neg hzero, if_neg hzero]
        simp only [ticosdPluginsProcessIpc, findPlugin_append]
        cases hfind : findPlugin received received.length d.plugins with
        | none => rfl
        | some p =>
            have hzeros : zeroBuffer.drop received.length ++ []
                = List.replicate (rxBufferSize - received.length) 0 := by
              rw [List.append_nil, zeroBuffer, List.drop_replicate]
            simp only [hzeros]
            have h24 : (24 : Nat) ≤ rxBufferSize := by decide
            refine msgHandler_inside p ?_ ?_ (hinside p hfind) (readsInside_zeros _ p)
            · rw [List.length_append, List.length_drop, h]
              omega
            · rw [List.length_replicate]
              omega

/-- **Each datagram stands alone**: a run whose outcomes all meet the condition has
    the effects of its outcomes alone, one after the other. -/
theorem datagrams_stand_alone (d : Daemon) (outcomes : List Outcome)
    (hok : Along (step d) (OutcomeOk d) initial outcomes) :
    (run (step d) initial outcomes).effects =
      outcomes.flatMap (fun o => alone d o.received) := by
  have key : ∀ (os : List Outcome) (t : Thread), t.buffer.length = rxBufferSize →
      Along (step d) (OutcomeOk d) t os →
      (run (step d) t os).effects = t.effects ++ os.flatMap (fun o => alone d o.received) := by
    intro os
    induction os with
    | nil =>
        intro t _ _
        rw [run_nil, List.flatMap_nil, List.append_nil]
    | cons o os ih =>
        intro t hlen hall
        have hrest := ih (step d t o) (round_buffer_length d hlen o) hall.2
        rw [run_cons, hrest, List.flatMap_cons, ← List.append_assoc]
        show t.effects ++ (round d t.buffer o).1 ++ _ = _
        rw [round_alone d hlen hall.1]
  exact key outcomes initial (List.length_replicate) hok

/-- All plugins, with data collection enabled. -/
def fullDaemon : Daemon where
  plugins := [.attributes, .reboot, .swupdate, .collectd, .coredump]
  enableDataCollection := true

/-- The attributes `[]` at second 1. -/
def emptyAttributes : Outcome where
  received := .datagram (ascii "ATTRIBUTES" ++ [0] ++ List.replicate 5 0 ++
    [1, 0, 0, 0, 0, 0, 0, 0] ++ ascii "[]" ++ [0]) none
  beyond := []

/-- Attributes, a core file of process 12, a metrics request, a message of one
    byte and an error. -/
def goodOutcomes : List Outcome :=
  [emptyAttributes, ⟨.datagram (ascii "CORE" ++ [0] ++ ascii "ELF" ++ [0] ++ ascii "12" ++ [0])
    (some 5), []⟩, ⟨.datagram (ascii "COLLECTD" ++ [0]) none, []⟩, ⟨.datagram [88] none, []⟩,
    ⟨.error, [0, 1]⟩]

theorem datagrams_stand_alone_five :
    (run (step fullDaemon) initial goodOutcomes).effects =
      goodOutcomes.flatMap (fun o => alone fullDaemon o.received) ∧
    (run (step fullDaemon) initial goodOutcomes).effects =
      [.queued ([65, 1, 0, 0, 0, 0, 0, 0, 0] ++ ascii "[]" ++ [0]), .corePid 12,
        .metricsRequested] :=
  ⟨datagrams_stand_alone fullDaemon goodOutcomes (by decide +kernel), by decide +kernel⟩

/-- An error after a message: the message is handled again. -/
theorem error_repeats_message :
    (run (step fullDaemon) initial [emptyAttributes, ⟨.error, []⟩]).effects ≠
      [emptyAttributes, ⟨.error, []⟩].flatMap (fun o => alone fullDaemon o.received) := by
  decide +kernel

end Ipc
