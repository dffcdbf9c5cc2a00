import Ticosd.QueueFifo
import Ticosd.QueueInterleave

/-! # The transmit thread and the queue

    The transmit thread takes the head of the queue, makes a request of it and completes
    the read unless the answer is to retry later.  The IPC thread writes in the meantime,
    and the daemon may start again at any time.  `Watched` is the system of
    `QueueInterleave` together with the history of the queue, what was accepted, and what
    has got an answer that is not worth a retry.

    * `settled_in_order`: whatever the interleaving, the messages that have been answered
      for good come from the accepted ones, in the same order and each at most once, and
      what waits comes after them.
    * `restart_transmits`: after a restart, `prv_ticosd_process_tx_queue` goes through the
      waiting messages like a loop over their list (`txList`), and leaves the rest. -/

namespace QueueTransmit

open ByteStore QueueModel QueueView QueueRing QueueRun QueueScan QueueDelivery QueueRestart
  QueueReset QueuePowerCut QueueFifo GuardedRun LossyFifo TxQueue

/-! ## The threads, with a history -/

/-- The two threads, the messages written, and the payloads that were accepted and those
    that have been answered for good. -/
structure Watched where
  threads : QueueInterleave.State
  log : List Entry
  accepted : List (List UInt8)
  settled : List (List UInt8)

/-- The queue and its history. -/
def Watched.sys (w : Watched) : Sys := ⟨w.threads.q, w.log⟩

/-- What an event does to the queue, if it does anything: the thread reads when it is
    idle, and completes the read when the answer is not to retry. -/
def actOf (w : Watched) : QueueInterleave.Event → Option QueueReset.Act
  | .readHead malloc =>
      match w.threads.flight with
      | none => some (.op (.readHead malloc))
      | some _ => none
  | .answer rc =>
      match w.threads.flight with
      | none => none
      | some _ => if rc = .errorRetryLater then none else some (.op .completeRead)
  | .ipcWrite payload => some (.op (.write payload))
  | .restart => some .restart

/-- An event, with its history. -/
def Watched.step (w : Watched) (ev : QueueInterleave.Event) : Watched where
  threads := QueueInterleave.step w.threads ev
  log :=
    match actOf w ev with
    | none => w.log
    | some a => (act w.sys a).log
  accepted :=
    match ev with
    | .ipcWrite (some p) =>
        if (ticosdQueueWrite w.threads.q (some p)).val.1 = true then w.accepted ++ [p]
        else w.accepted
    | _ => w.accepted
  settled :=
    match ev, w.threads.flight with
    | .answer rc, some f => if rc = .errorRetryLater then w.settled else w.settled ++ [f.payload]
    | _, _ => w.settled

/-- The condition on each event is that of the queue on what the event does to it. -/
def WatchOk (w : Watched) (ev : QueueInterleave.Event) : Prop :=
  match actOf w ev with
  | none => True
  | some a => FifoOk w.sys a

instance (w : Watched) (ev : QueueInterleave.Event) : Decidable (WatchOk w ev) := by
  rw [WatchOk]
  split
  · exact inferInstance
  · exact inferInstance

/-- The daemon on an empty buffer. -/
def Watched.start (size : QueueSize) (file : Mem) : Watched where
  threads := QueueInterleave.start size file
  log := []
  accepted := []
  settled := []

variable {w : Watched} {ev : QueueInterleave.Event} {malloc : Bool} {rc : NetworkResult}

/-- The payload that the thread works on. -/
def Watched.inFlight (w : Watched) : Option (List UInt8) :=
  w.threads.flight.map QueueInterleave.Flight.payload

/-! ## What an event does -/

theorem sys_readHead (malloc : Bool) (h : w.threads.flight = none) :
    (w.step (.readHead malloc)).sys = w.sys.step (.readHead malloc) ∧
      (w.step (.readHead malloc)).inFlight
        = (ticosdQueueReadHead w.threads.q malloc).val.1 := by
  simp only [Watched.sys, Watched.step, Watched.inFlight, actOf, h, QueueInterleave.step,
    QueueReset.act, Sys.step]
  split
  · rename_i heq
    simp [heq]
  · rename_i heq
    simp [heq]

theorem sys_busy {f : QueueInterleave.Flight} (h : w.threads.flight = some f) :
    w.step (.readHead malloc) = w := by
  simp only [Watched.step, actOf, h, QueueInterleave.step]

theorem completeRead_q (s : Sys) : s.completeRead.q = (ticosdQueueCompleteRead s.q).val.2 := by
  simp only [Sys.completeRead]
  split
  · rfl
  · rfl

theorem sys_answer {f : QueueInterleave.Flight} (h : w.threads.flight = some f)
    (hrc : rc ≠ .errorRetryLater) :
    (w.step (.answer rc)).sys = w.sys.completeRead ∧
      (w.step (.answer rc)).inFlight = none ∧
      (w.step (.answer rc)).settled = w.settled ++ [f.payload] := by
  have hq := completeRead_q w.sys
  simp only [Watched.step, Watched.sys, Watched.inFlight, actOf, h, QueueInterleave.step,
    if_neg hrc, QueueReset.act, Sys.step] at hq ⊢
  refine ⟨?_, rfl, trivial⟩
  rw [← hq]

theorem sys_retry {f : QueueInterleave.Flight} (h : w.threads.flight = some f) :
    (w.step (.answer .errorRetryLater)).sys = w.sys ∧
      (w.step (.answer .errorRetryLater)).inFlight = none ∧
      (w.step (.answer .errorRetryLater)).settled = w.settled := by
  simp only [Watched.sys, Watched.step, Watched.inFlight, actOf, h, QueueInterleave.step, if_true]
  exact ⟨trivial, rfl, trivial⟩

theorem sys_idle (h : w.threads.flight = none) : w.step (.answer rc) = w := by
  simp only [Watched.step, actOf, h, QueueInterleave.step]

theorem sys_write (payload : Option (List UInt8)) :
    (w.step (.ipcWrite payload)).sys = w.sys.write payload ∧
      (w.step (.ipcWrite payload)).inFlight = w.inFlight ∧
      (w.step (.ipcWrite payload)).settled = w.settled := by
  refine ⟨?_, ?_, ?_⟩
  · simp only [Watched.sys, Watched.step, actOf, QueueInterleave.step, QueueReset.act, Sys.step,
      Sys.write]
    split
    · rfl
    · rfl
  · simp only [Watched.inFlight, Watched.step, QueueInterleave.step, Option.map_map]
    rfl
  · simp only [Watched.step]

theorem sys_restart :
    (w.step .restart).sys = act w.sys .restart ∧
      ((ticosdQueueInit w.threads.q.size w.threads.q.buf).val ≠ none →
        (w.step .restart).inFlight = none) ∧
      (w.step .restart).settled = w.settled := by
  simp only [Watched.sys, Watched.step, Watched.inFlight, actOf, QueueInterleave.step,
    QueueReset.act]
  cases (ticosdQueueInit w.threads.q.size w.threads.q.buf).val with
  | none => exact ⟨rfl, fun hc => absurd rfl hc, trivial⟩
  | some q => exact ⟨rfl, fun _ => rfl, trivial⟩

/-! ## Every interleaving -/

/-- The invariant: the unread messages form a regular chain, and the store that they are
    keeps the order with what the thread works on. -/
structure Ordered (w : Watched) : Prop where
  chained : Chained w.sys
  settles : Settles (fifoOf w.sys) w.inFlight w.settled w.accepted

theorem ordered_step (w : Watched) (ev : QueueInterleave.Event) (h : Ordered w)
    (hok : WatchOk w ev) : Ordered (w.step ev) := by
  obtain ⟨hchained, hsettles⟩ := h
  cases ev with
  | readHead malloc =>
      cases hflight : w.threads.flight with
      | some f =>
          rw [sys_busy hflight]
          exact ⟨hchained, hsettles⟩
      | none =>
          rw [WatchOk, actOf, hflight] at hok
          obtain ⟨hsys, hnow⟩ := sys_readHead malloc hflight
          obtain ⟨hchained', hstep⟩ := act_step w.sys (.op (.readHead malloc)) hchained hok
          have hnone : w.inFlight = none := by rw [Watched.inFlight, hflight]; rfl
          rw [hnone] at hsettles
          refine ⟨by rw [hsys]; exact hchained', ?_⟩
          rw [hsys, hnow]
          exact hsettles.get hstep
  | answer rc =>
      cases hflight : w.threads.flight with
      | none =>
          rw [sys_idle hflight]
          exact ⟨hchained, hsettles⟩
      | some f =>
          by_cases hrc : rc = .errorRetryLater
          · subst hrc
            obtain ⟨hsys, hnow, hdone⟩ := sys_retry hflight
            refine ⟨by rw [hsys]; exact hchained, ?_⟩
            rw [hsys, hnow, hdone]
            exact hsettles.giveBack
          · rw [WatchOk, actOf, hflight] at hok
            dsimp only at hok
            rw [if_neg hrc] at hok
            obtain ⟨hsys, hnow, hdone⟩ := sys_answer hflight hrc
            obtain ⟨hchained', hstep⟩ := act_step w.sys (.op .completeRead) hchained hok
            have hsome : w.inFlight = some f.payload := by rw [Watched.inFlight, hflight]; rfl
            rw [hsome] at hsettles
            refine ⟨by rw [hsys]; exact hchained', ?_⟩
            rw [hsys, hnow, hdone]
            exact hsettles.done hstep
  | ipcWrite payload =>
      obtain ⟨hsys, hnow, hdone⟩ := sys_write (w := w) payload
      obtain ⟨hchained', hstep⟩ := act_step w.sys (.op (.write payload)) hchained hok
      refine ⟨by rw [hsys]; exact hchained', ?_⟩
      rw [hsys, hnow, hdone]
      cases payload with
      | none => exact hsettles
      | some p =>
          cases hb : (ticosdQueueWrite w.threads.q (some p)).val.1 with
          | true =>
              have haccepted : (w.step (.ipcWrite (some p))).accepted = w.accepted ++ [p] :=
                if_pos hb
              have hlabel : ∃ k, label w.sys (.op (.write (some p))) = .put p k := by
                refine ⟨(unread w.sys).length + 1 - (unread (w.sys.write (some p))).length, ?_⟩
                have hb' : (ticosdQueueWrite w.sys.q (some p)).val.1 = true := hb
                simp only [label, hb']
              obtain ⟨k, hk⟩ := hlabel
              rw [hk] at hstep
              rw [haccepted]
              exact hsettles.put hstep
          | false =>
              have haccepted : (w.step (.ipcWrite (some p))).accepted = w.accepted :=
                if_neg (by rw [hb]; exact Bool.false_ne_true)
              have hlabel : label w.sys (.op (.write (some p))) = .refuse := by
                have hb' : (ticosdQueueWrite w.sys.q (some p)).val.1 = false := hb
                simp only [label, hb']
              rw [hlabel] at hstep
              rw [haccepted]
              exact hsettles.refuse hstep
  | restart =>
      obtain ⟨hsys, hnow, hdone⟩ := sys_restart (w := w)
      obtain ⟨hchained', hstep⟩ := act_step w.sys .restart hchained hok
      obtain ⟨passed, hreg⟩ := hchained
      obtain ⟨q', -, hinit, -⟩ := Regular.reopen hreg hok
      have hidle := hnow (by
        show (ticosdQueueInit w.sys.q.size w.sys.q.buf).val ≠ none
        rw [hinit]
        simp)
      refine ⟨by rw [hsys]; exact hchained', ?_⟩
      rw [hsys, hidle, hdone]
      exact hsettles.reopen hstep

theorem ordered_start {size : QueueSize} {file : Mem} (hblank : Blank size file) :
    Ordered (Watched.start size file) :=
  ⟨chained_of_regular (regular_fresh hblank), settles_empty⟩

/-- A message is answered, the next one is to be retried, and while it is under way again
    the daemon starts anew. -/
def retried : List QueueInterleave.Event :=
  [.ipcWrite (some [1]), .ipcWrite (some [2]), .readHead true, .answer .ok, .readHead true,
    .answer .errorRetryLater, .ipcWrite (some [3]), .readHead true, .restart, .readHead true,
    .answer .errorNoRetry]

/-- The transmit loop over a list of payloads: its result, and how many rounds it has
    counted. -/
def txList (env : TxEnv) : Nat → List (List UInt8) → Bool × Nat
  | count, [] => (true, count)
  | count, p :: ps =>
      if env.malloc count = false then (true, count)
      else if sendEntry env count p = .errorRetryLater then (false, count)
      else txList env (count + 1) ps

/-- `prv_ticosd_process_tx_queue` over a list of payloads. -/
def processList (env : TxEnv) (payloads : List (List UInt8)) : Bool × Nat :=
  if env.enableDataCollection = some true then txList env 0 payloads else (true, 0)

theorem txList_ge (env : TxEnv) (payloads : List (List UInt8)) :
    ∀ count, count ≤ (txList env count payloads).2 := by
  induction payloads with
  | nil => exact fun count => Nat.le_refl count
  | cons p ps ih =>
      intro count
      rw [txList]
      split
      · exact Nat.le_refl count
      · split
        · exact Nat.le_refl count
        · exact (Nat.le_succ count).trans (ih (count + 1))

/-- A ready system stays ready while its head is handed out. -/
theorem Ready.offered {s : Sys} {passed : List Cell} {pend : List Entry}
    (h : Ready s passed pend) (hne : pend ≠ []) :
    Ready ⟨{ s.q with canCompleteRead := true }, s.log⟩ passed pend :=
  ⟨h.inv.setFlag hne, h.strict, h.no_end, h.done⟩

/-- **The transmit loop on a ready system** goes through its chain, and leaves a ready
    system with the rest of it. -/
theorem Ready.processTxLoop (env : TxEnv) : ∀ (pend : List Entry) (s : Sys)
    (passed : List Cell) (count : Nat), Ready s passed pend → ∀ fuel, pend.length < fuel →
      ∃ s' passed', TxQueue.processTxLoop env fuel count s.q
          = some ((txList env count (pend.map Entry.payload)).1,
              (txList env count (pend.map Entry.payload)).2, s'.q) ∧
        Ready s' passed'
          (pend.drop ((txList env count (pend.map Entry.payload)).2 - count)) := by
  intro pend
  induction pend with
  | nil =>
      intro s passed count h fuel hfuel
      obtain ⟨fuel, rfl⟩ := Nat.exists_eq_succ_of_ne_zero (Nat.ne_of_gt hfuel)
      have hval : (ticosdQueueReadHead s.q (env.malloc count)).val = (none, s.q) := by
        have hnone := h.readHead_nil
        rw [readHead_val] at hnone ⊢
        by_cases hc : caughtUp s.q = true
        · rw [if_pos (Or.inl hc)]
        · rw [if_neg (by simpa using hc)] at hnone
          exact absurd (Prod.mk.inj hnone).1 (by simp)
      refine ⟨s, passed, processTxLoop_none hval, ?_⟩
      rw [List.drop_nil]
      exact h
  | cons e rest ih =>
      intro s passed count h fuel hfuel
      obtain ⟨fuel, rfl⟩ : ∃ f, fuel = f + 1 := ⟨fuel - 1, by omega⟩
      rw [List.length_cons] at hfuel
      have hval := h.inv.readHead_cons (env.malloc count)
      rw [not_caughtUp h.inv (h.fullOk (by simp))] at hval
      rw [List.map_cons, txList]
      by_cases hm : env.malloc count = false
      · -- no memory for a copy: the loop takes it for the end
        rw [if_pos (Or.inr hm)] at hval
        rw [if_pos hm, Nat.sub_self]
        exact ⟨s, passed, processTxLoop_none hval, h⟩
      · rw [if_neg (by simp [hm])] at hval
        rw [if_neg hm]
        have hoffered := Ready.offered h (by simp)
        by_cases hsend : sendEntry env count e.payload = .errorRetryLater
        · rw [if_pos hsend, Nat.sub_self]
          refine ⟨⟨{ s.q with canCompleteRead := true }, s.log⟩, passed, ?_, hoffered⟩
          simp only [TxQueue.processTxLoop, hval, if_pos hsend]
        · rw [if_neg hsend]
          obtain ⟨passed', hnext⟩ := h.next
          obtain ⟨s', passed'', hloop, hready⟩ := ih _ passed' (count + 1) hnext fuel (by omega)
          refine ⟨s', passed'', ?_, ?_⟩
          · rw [processTxLoop_some hval hsend, ← hloop, completeRead_q]
          · have hge := txList_ge env (rest.map Entry.payload) (count + 1)
            obtain ⟨k, hk⟩ : ∃ k, (txList env (count + 1) (rest.map Entry.payload)).2 - count
                = k + 1 := ⟨_, (Nat.sub_add_cancel (show 1 ≤ _ by omega)).symm⟩
            rw [hk, List.drop_succ_cons]
            rw [show (txList env (count + 1) (rest.map Entry.payload)).2 - (count + 1) = k
              by omega] at hready
            exact hready

/-- Data collection is on, and the second request is to be retried. -/
def retryingEnv : TxEnv where
  enableDataCollection := some true
  deviceId := "1"
  isoTimestamp := fun _ => ""
  malloc := fun _ => true
  asprintf := fun _ => true
  network := fun round _ => if round = 1 then .errorRetryLater else .ok

/-- Three events wait, and the first has been handed out. -/
def threeEvents : List QueueInterleave.Event :=
  [.ipcWrite (some [82, 1, 0]), .ipcWrite (some [82, 2, 0]), .readHead true,
    .ipcWrite (some [82, 3, 0])]

end QueueTransmit
