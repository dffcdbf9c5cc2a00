import Ticosd.QueueRun
import Ticosd.TxQueue

/-! # Delivery — what the reader of the queue gets

    Three properties of whole runs, each under the conditions on the state
    before a step that the code needs for it and does not check:

    * **at most once** — a completed message is not returned again, and the
      transmit loop ends (`HeadOk`, `CompleteOk`);
    * **oldest first** — the message returned is the first intact unread one of
      the history (also: no write leaves an unread message behind the reader);
    * **nothing stuck** — while there is an intact unread message, there is a
      head (also: a queue that is completely full has its head strictly inside
      the buffer).

    Each is followed by a run in which the conditions fail, and the property
    with them. -/

namespace QueueDelivery

open ByteStore QueueModel QueueView QueueRing QueueOverwrite QueueRun Tiling GuardedRun TxQueue

variable {s : Sys} {passed : List Cell} {pend : List Entry}

/-! ## The history only grows -/

/-- What can become of the entry of a message. -/
structure Later (e e' : Entry) : Prop where
  start : e'.start = e.start
  payload : e'.payload = e.payload
  completed : e.completed = true → e'.completed = true

theorem Later.refl (e : Entry) : Later e e := ⟨rfl, rfl, fun h => h⟩

theorem later_after (stores : List (Nat × List UInt8)) (e : Entry) :
    Later e (e.after stores) := ⟨rfl, rfl, fun h => h⟩

theorem later_complete (i : Nat) (e : Entry) : Later e (e.complete i) := by
  rw [Entry.complete]
  split
  · exact ⟨rfl, rfl, fun _ => rfl⟩
  · exact Later.refl e

/-- The entry of a message keeps its place in the history. -/
theorem log_step (a : Op) {j : Nat} {e : Entry} (h : s.log[j]? = some e) :
    ∃ e', (s.step a).log[j]? = some e' ∧ Later e e' := by
  cases a with
  | write payload =>
      cases payload with
      | none => exact ⟨e, h, Later.refl e⟩
      | some p =>
          cases hb : (ticosdQueueWrite s.q (some p)).val.1 with
          | true =>
              refine ⟨e.after (ticosdQueueWrite s.q (some p)).stores, ?_, later_after _ e⟩
              simp only [Sys.step, Sys.write, hb]
              rw [List.getElem?_append_left, List.getElem?_map, h]
              · rfl
              · rw [List.length_map]
                exact (List.getElem?_eq_some_iff.mp h).1
          | false =>
              refine ⟨e, ?_, Later.refl e⟩
              simp only [Sys.step, Sys.write, hb]
              exact h
  | readHead malloc => exact ⟨e, h, Later.refl e⟩
  | completeRead =>
      simp only [Sys.step, Sys.completeRead]
      split
      · refine ⟨_, ?_, later_complete s.q.readPtr e⟩
        rw [List.getElem?_map, h]
        rfl
      · exact ⟨e, h, Later.refl e⟩

/-- A completed message stays completed. -/
theorem completed_run (ops : List Op) {j : Nat} {e : Entry} (h : s.log[j]? = some e)
    (hc : e.completed = true) :
    ∃ e', (run Sys.step s ops).log[j]? = some e' ∧ e'.completed = true := by
  induction ops generalizing s e with
  | nil => exact ⟨e, h, hc⟩
  | cons a ops ih =>
      obtain ⟨e', h', hl⟩ := log_step a h
      exact ih h' (hl.completed hc)

/-! ## At most once -/

/-- `ticosd_queue_read_head` returns the `j`-th message written: it is intact, it
    stands at the read pointer, and the payload is its own. -/
def Returns (s : Sys) (malloc : Bool) (j : Nat) : Prop :=
  ∃ e, s.log[j]? = some e ∧ e.Intact ∧ e.start = s.q.readPtr ∧
    (ticosdQueueReadHead s.q malloc).val.1 = some e.payload

/-- The head, when there is one, is the first message of the chain. -/
theorem head_of_some (h : Inv s passed pend) (hok : HeadOk s.q) {malloc : Bool}
    {p : List UInt8} (hp : (ticosdQueueReadHead s.q malloc).val.1 = some p) :
    ∃ e rest, pend = e :: rest ∧ e.payload = p := by
  cases pend with
  | nil =>
      rw [h.readHead_nil hok malloc] at hp
      exact nomatch hp
  | cons e rest =>
      refine ⟨e, rest, rfl, ?_⟩
      rw [h.readHead_cons malloc] at hp
      by_cases hc : caughtUp s.q = true ∨ malloc = false
      · rw [if_pos hc] at hp
        exact nomatch hp
      · rw [if_neg hc] at hp
        exact Option.some.inj hp

/-- A message that is returned has not been completed. -/
theorem not_completed_of_returns (h : Inv s passed pend) (hok : HeadOk s.q) {malloc : Bool}
    {j : Nat} (hj : Returns s malloc j) {e : Entry} (he : s.log[j]? = some e) :
    e.completed = false := by
  obtain ⟨d, hd, hdi, hds, hp⟩ := hj
  obtain ⟨hd_eq⟩ : d = e := Option.some.inj (hd.symm.trans he)
  obtain ⟨c, rest, heq, -⟩ := head_of_some h hok hp
  have hc : c ∈ pend := by rw [heq]; exact List.mem_cons_self
  have hdc := h.eq_of_start (List.mem_of_getElem? hd) (h.pend_mem hc) hdi (h.unread c hc).1
    (by rw [hds, h.head_start heq])
  rw [hdc]
  exact (h.unread c hc).2

/-- What is returned is a message of the history. -/
theorem returns_of_some (h : Inv s passed pend) (hok : HeadOk s.q) {malloc : Bool}
    {p : List UInt8} (hp : (ticosdQueueReadHead s.q malloc).val.1 = some p) :
    ∃ j, Returns s malloc j := by
  obtain ⟨e, rest, heq, hpay⟩ := head_of_some h hok hp
  have he : e ∈ pend := by rw [heq]; exact List.mem_cons_self
  obtain ⟨j, hj⟩ := List.getElem?_of_mem (h.pend_mem he)
  exact ⟨j, e, hj, (h.unread e he).1, h.head_start heq, by rw [hp, hpay]⟩

/-- The operations of `k` rounds of the transmit loop, from round `count` on. -/
def drainOps (malloc : Nat → Bool) : Nat → Nat → List Op
  | _, 0 => []
  | count, k + 1 => .readHead (malloc count) :: .completeRead :: drainOps malloc (count + 1) k

/-- The messages that can still be delivered. -/
def unreadCount (s : Sys) : Nat := (s.log.filter (fun e => decide e.Unread)).length

theorem length_le_unread (h : Inv s passed pend) : pend.length ≤ unreadCount s := by
  have hsub := h.sub.filter (fun e => decide e.Unread)
  rw [List.filter_eq_self.mpr (fun e he => decide_eq_true (h.unread e he))] at hsub
  exact hsub.length_le

/-- One round of the loop, when the head is a message. -/
theorem processTxLoop_some {env : TxEnv} {count fuel : Nat} {q q' : TicosdQueue}
    {p : List UInt8} (hhead : (ticosdQueueReadHead q (env.malloc count)).val = (some p, q'))
    (hsend : sendEntry env count p ≠ .errorRetryLater) :
    processTxLoop env (fuel + 1) count q
      = processTxLoop env fuel (count + 1) (ticosdQueueCompleteRead q').val.2 := by
  simp only [processTxLoop, hhead, if_neg hsend]

theorem processTxLoop_none {env : TxEnv} {count fuel : Nat} {q q' : TicosdQueue}
    (hhead : (ticosdQueueReadHead q (env.malloc count)).val = (none, q')) :
    processTxLoop env (fuel + 1) count q = some (true, count, q') := by
  simp only [processTxLoop, hhead]

/-- The loop ends within the length of the chain. -/
theorem processTxLoop_stops {env : TxEnv}
    (hsend : ∀ i p, sendEntry env i p ≠ .errorRetryLater) :
    ∀ (pend : List Entry) (s : Sys) (passed : List Cell) (count : Nat),
      Inv s passed pend →
      (∀ k, processTxLoop env k count s.q = none →
        Along Sys.step StepOk s (drainOps env.malloc count (k + 1))) →
      ∀ fuel, pend.length < fuel →
        ∃ n q', processTxLoop env fuel count s.q = some (true, n, q') ∧
          n ≤ count + pend.length := by
  intro pend
  induction pend with
  | nil =>
      intro s passed count h hok fuel hfuel
      obtain ⟨fuel, rfl⟩ : ∃ f, fuel = f + 1 := ⟨fuel - 1, by omega⟩
      have hhead := (hok 0 rfl).1
      exact ⟨count, s.q, processTxLoop_none (h.readHead_nil hhead _), by omega⟩
  | cons e rest ih =>
      intro s passed count h hok fuel hfuel
      obtain ⟨fuel, rfl⟩ : ∃ f, fuel = f + 1 := ⟨fuel - 1, by omega⟩
      rw [List.length_cons] at hfuel ⊢
      have hval := h.readHead_cons (env.malloc count)
      by_cases hc : caughtUp s.q = true ∨ env.malloc count = false
      · rw [if_pos hc] at hval
        exact ⟨count, s.q, processTxLoop_none hval, by omega⟩
      · rw [if_neg hc] at hval
        -- one message goes out, and the rest of the chain remains
        have hstep : s.step (.readHead (env.malloc count))
            = ⟨{ s.q with canCompleteRead := true }, s.log⟩ := by
          simp only [Sys.step, hval]
        have hrest : ∀ k, Along Sys.step StepOk s (drainOps env.malloc count (k + 1)) →
            CompleteOk s.q ∧ Along Sys.step StepOk
              (Sys.completeRead ⟨{ s.q with canCompleteRead := true }, s.log⟩)
              (drainOps env.malloc (count + 1) k) := by
          intro k hk
          obtain ⟨-, hcomp, htail⟩ := hk
          rw [hstep] at hcomp htail
          exact ⟨hcomp rfl, htail⟩
        have hq : (Sys.completeRead ⟨{ s.q with canCompleteRead := true }, s.log⟩).q
            = (ticosdQueueCompleteRead { s.q with canCompleteRead := true }).val.2 := by
          simp only [Sys.completeRead]
          split <;> rfl
        obtain ⟨passed', hinv, -⟩ := Inv.complete (h.setFlag (by simp))
          (hrest 0 (hok 0 rfl)).1 rfl
        obtain ⟨n, q', hloop, hn⟩ := ih _ passed' (count + 1) hinv
          (by
            intro k hk
            refine (hrest (k + 1) (hok (k + 1) ?_)).2
            rw [processTxLoop_some hval (hsend _ _), ← hq]
            exact hk) fuel (by omega)
        refine ⟨n, q', ?_, by omega⟩
        rw [processTxLoop_some hval (hsend _ _), ← hq]
        exact hloop

/-- **At most once**: in every run whose steps meet the conditions, a message that
    has been completed is not returned by a later `ticosd_queue_read_head`, what
    is returned is a message that was written, and the transmit loop with a
    working network ends after at most as many rounds as there are messages left
    to deliver. -/
theorem completed_message_not_returned {size : QueueSize} {file : Mem}
    (hblank : Blank size file) (ops later : List Op) (malloc : Bool)
    (hok : Along Sys.step StepOk (fresh size file) (ops ++ later ++ [.readHead malloc])) :
    (∀ j e, (run Sys.step (fresh size file) ops).log[j]? = some e → e.completed = true →
      ¬ Returns (run Sys.step (fresh size file) (ops ++ later)) malloc j) ∧
    (∀ p, (ticosdQueueReadHead (run Sys.step (fresh size file) (ops ++ later)).q malloc).val.1
        = some p → ∃ j, Returns (run Sys.step (fresh size file) (ops ++ later)) malloc j) ∧
    (∀ env : TxEnv, (∀ i p, sendEntry env i p ≠ .errorRetryLater) →
      (∀ k, processTxLoop env k 0 (run Sys.step (fresh size file) (ops ++ later)).q = none →
        Along Sys.step StepOk (run Sys.step (fresh size file) (ops ++ later))
          (drainOps env.malloc 0 (k + 1))) →
      ∀ fuel, unreadCount (run Sys.step (fresh size file) (ops ++ later)) < fuel →
        ∃ n q', prvTicosdProcessTxQueue env fuel
            (run Sys.step (fresh size file) (ops ++ later)).q = some (true, n, q') ∧
          n ≤ unreadCount (run Sys.step (fresh size file) (ops ++ later))) := by
  obtain ⟨hrun, hhead, -⟩ := along_append.mp hok
  obtain ⟨passed, pend, h⟩ := good_run hblank hrun
  refine ⟨?_, fun p hp => returns_of_some h hhead hp, ?_⟩
  · intro j e he hc hret
    obtain ⟨e', he', hc'⟩ := completed_run later he hc
    rw [← run_append] at he'
    rw [not_completed_of_returns h hhead hret he'] at hc'
    exact nomatch hc'
  · intro env hsend hdrain fuel hfuel
    have hlen := length_le_unread h
    rw [prvTicosdProcessTxQueue]
    by_cases hen : env.enableDataCollection = some true
    · rw [if_pos hen]
      obtain ⟨n, q', hloop, hn⟩ := processTxLoop_stops hsend pend _ passed 0 h hdrain fuel
        (by omega)
      exact ⟨n, q', hloop, by omega⟩
    · rw [if_neg hen]
      exact ⟨0, _, rfl, Nat.zero_le _⟩

/-- A queue of `n` words without content. -/
def blank (n : Nat) (hmin : 4 ≤ n) (hmax : n ≤ 2 ^ 28) : Sys :=
  fresh (.ofWords n hmin hmax) (fun _ => 0)

/-- One message is written, read and completed, and a second one is written. -/
theorem completed_message_not_returned_once :
    ¬ Returns (run Sys.step (blank 10 (by decide) (by decide))
      [.write (some [1]), .readHead true, .completeRead, .write (some [2])]) true 0 :=
  (@completed_message_not_returned (.ofWords 10 (by decide) (by decide)) (fun _ => 0)
    (fun _ _ => rfl) [.write (some [1]), .readHead true, .completeRead]
    [.write (some [2])] true (by decide +kernel)).1 0 ⟨0, [1], 0, false, true⟩
    (by decide +kernel) rfl

/-- What the two threads do in turn: a write, or a `ticosd_queue_read_head`
    followed at once by a `ticosd_queue_complete_read`. -/
inductive Move where
  | write (payload : List UInt8)
  | consume

/-- The operations of a move. -/
def Move.ops : Move → List Op
  | .write payload => [.write (some payload)]
  | .consume => [.readHead true, .completeRead]

/-- The state after some moves. -/
def play (s : Sys) (moves : List Move) : Sys := run Sys.step s (moves.flatMap Move.ops)

/-- Four messages of four words in a buffer of ten, each read at once: the end
    marker of the first lap is still there when the second one comes by, and the
    third message is delivered twice. -/
theorem message_returned_twice :
    (∃ e, (play (blank 10 (by decide) (by decide))
        [.write [1], .consume, .write [2], .consume, .write [3], .consume]).log[2]? = some e ∧
      e.completed = true) ∧
    Returns (play (blank 10 (by decide) (by decide))
        [.write [1], .consume, .write [2], .consume, .write [3], .consume,
          .write [4], .consume]) true 2 :=
  ⟨⟨⟨0, [3], 4, false, true⟩, by decide +kernel, rfl⟩,
    ⟨0, [3], 4, false, true⟩, by decide +kernel, rfl, by decide +kernel, by decide +kernel⟩

/-! ## Oldest first -/

/-- The write runs over every unread message that it would leave behind. -/
def NoneLeftBehind (s : Sys) (payload : Option (List UInt8)) : Prop :=
  ∀ p, payload = some p → Accepts s.q p.length → ∀ e ∈ s.log, e.Unread →
    LeftBehind s.q p.length e.cell → Touches s.q p.length e.cell

instance (s : Sys) : (payload : Option (List UInt8)) → Decidable (NoneLeftBehind s payload)
  | none => isTrue (fun _ h => nomatch h)
  | some p => decidable_of_iff (Accepts s.q p.length → ∀ e ∈ s.log, e.Unread →
      LeftBehind s.q p.length e.cell → Touches s.q p.length e.cell)
      ⟨fun h _ hp => Option.some.inj hp ▸ h, fun h => h p rfl⟩

/-- The condition on each operation of a run. -/
def OrderOk (s : Sys) : Op → Prop
  | .write payload => WriteOk payload ∧ NoneLeftBehind s payload
  | a => StepOk s a

instance (s : Sys) : (a : Op) → Decidable (OrderOk s a)
  | .write payload => inferInstanceAs (Decidable (WriteOk payload ∧ NoneLeftBehind s payload))
  | .readHead malloc => inferInstanceAs (Decidable (StepOk s (.readHead malloc)))
  | .completeRead => inferInstanceAs (Decidable (StepOk s .completeRead))

/-- The chain has every unread message. -/
def Full (s : Sys) (pend : List Entry) : Prop := ∀ e ∈ s.log, e.Unread → e ∈ pend

/-- The chain is the unread part of the history, in order. -/
theorem pend_eq_filter (h : Inv s passed pend) (hfull : Full s pend) :
    pend = s.log.filter (fun e => decide e.Unread) := by
  have hsub := h.sub.filter (fun e => decide e.Unread)
  rw [List.filter_eq_self.mpr (fun e he => decide_eq_true (h.unread e he))] at hsub
  refine hsub.eq_of_length_le ?_
  have hnodup : (s.log.filter (fun e => decide e.Unread)).Nodup := by
    refine (h.apart.sublist List.filter_sublist).imp_of_mem ?_
    intro a b ha hb hab heq
    subst heq
    have hi := (of_decide_eq_true (List.mem_filter.mp ha).2 : a.Unread).1
    have hap := hab hi hi
    have hlt := a.cell_lt
    simp only [Apart] at hap
    omega
  refine (List.subperm_of_subset hnodup ?_).length_le
  intro e he
  have he' := List.mem_filter.mp he
  exact hfull e he'.1 (of_decide_eq_true he'.2)

/-- A write that leaves nothing behind keeps the chain full. -/
theorem full_write {p : List UInt8} {passed' : List Cell} {kept : List Entry}
    (h : Inv s passed pend) (hfull : Full s pend) (hlen : p.length + 3 < 2 ^ 32)
    (hacc : Accepts s.q p.length) (hnone : NoneLeftBehind s (some p))
    (hstep : Step s p passed pend passed' kept) :
    Full (s.write (some p)) (kept ++ [newEntry s.q p]) := by
  have hr := h.readPtr_small
  intro e' he' hun
  rw [Sys.write_taken hlen hr hacc] at he'
  rcases List.mem_append.mp he' with he' | he'
  · obtain ⟨e, he, rfl⟩ := List.mem_map.mp he'
    obtain ⟨hei, hno, heq⟩ := Entry.intact_after hlen hr hacc hun.1
    rw [heq] at hun ⊢
    refine List.mem_append_left _ ?_
    by_contra hnot
    rcases hstep.dropped e (hfull e he hun) hnot with ht | hl
    · exact hno ht
    · exact hno (hnone p rfl hacc e he hun hl)
  · exact List.mem_append_right _ he'

/-- Completing the head keeps the chain full. -/
theorem full_complete {e : Entry} {rest : List Entry} (h : Inv s passed (e :: rest))
    (hfull : Full s (e :: rest)) (hcan : s.q.canCompleteRead = true) :
    Full s.completeRead rest := by
  intro d' hd' hun
  rw [Sys.completeRead_taken h.readPtr_small hcan] at hd'
  obtain ⟨d, hd, rfl⟩ := List.mem_map.mp hd'
  by_cases hstart : d.start = s.q.readPtr
  · -- the message at the read pointer is completed now
    have hi := Entry.complete_intact.mp hun.1
    have hc : (d.complete s.q.readPtr).completed = true := by
      rw [Entry.complete, if_pos ⟨hstart, hi⟩]
    rw [hun.2] at hc
    cases hc
  · rw [Entry.complete_other hstart] at hun ⊢
    rcases List.mem_cons.mp (hfull d hd hun) with heq | hmem
    · exact absurd (heq ▸ h.head_start rfl) hstart
    · exact hmem

/-- Some full chain fits the system. -/
def GoodFull (s : Sys) : Prop := ∃ passed pend, Inv s passed pend ∧ Full s pend

theorem goodFull_step {a : Op} (h : GoodFull s) (hok : OrderOk s a) : GoodFull (s.step a) := by
  obtain ⟨passed, pend, h, hfull⟩ := h
  cases a with
  | write payload =>
      cases payload with
      | none => exact ⟨passed, pend, h, hfull⟩
      | some p =>
          have hlen := hok.1 p rfl
          by_cases hacc : Accepts s.q p.length
          · obtain ⟨passed', kept, hstep⟩ := h.write hlen hacc
            exact ⟨passed', _, hstep.inv, full_write h hfull hlen hacc hok.2 hstep⟩
          · refine ⟨passed, pend, ?_⟩
            rw [Sys.step, Sys.write_refused hlen h.readPtr_small hacc]
            exact ⟨h, hfull⟩
  | readHead malloc => exact ⟨passed, pend, h.readHead hok malloc, hfull⟩
  | completeRead =>
      cases hcan : s.q.canCompleteRead with
      | false =>
          refine ⟨passed, pend, ?_⟩
          rw [Sys.step, Sys.completeRead_refused h.readPtr_small hcan]
          exact ⟨h, hfull⟩
      | true =>
          cases pend with
          | nil => exact absurd rfl (h.flag hcan)
          | cons e rest =>
              obtain ⟨passed', h', -⟩ := h.complete (hok hcan) hcan
              exact ⟨passed', rest, h', full_complete h hfull hcan⟩

theorem goodFull_run {size : QueueSize} {file : Mem} (hblank : Blank size file)
    {ops : List Op} (hok : Along Sys.step OrderOk (fresh size file) ops) :
    GoodFull (run Sys.step (fresh size file) ops) :=
  invariant (fun _ _ h hs => goodFull_step h hs)
    ⟨[], [], inv_fresh hblank, fun _ he => nomatch he⟩ hok

/-- **Oldest first**: in every run whose steps meet the conditions, the message
    returned by `ticosd_queue_read_head` is the first of the intact unread ones,
    in the order of the writes. -/
theorem head_is_oldest_unread {size : QueueSize} {file : Mem} (hblank : Blank size file)
    (ops : List Op) (malloc : Bool)
    (hok : Along Sys.step OrderOk (fresh size file) (ops ++ [.readHead malloc]))
    {p : List UInt8}
    (hp : (ticosdQueueReadHead (run Sys.step (fresh size file) ops).q malloc).val.1 = some p) :
    ∃ e, ((run Sys.step (fresh size file) ops).log.filter
        (fun e => decide e.Unread)).head? = some e ∧
      e.start = (run Sys.step (fresh size file) ops).q.readPtr ∧ e.payload = p := by
  obtain ⟨hrun, hhead, -⟩ := along_append.mp hok
  obtain ⟨passed, pend, h, hfull⟩ := goodFull_run hblank hrun
  obtain ⟨e, rest, heq, hpay⟩ := head_of_some h hhead hp
  refine ⟨e, ?_, h.head_start heq, hpay⟩
  rw [← pend_eq_filter h hfull, heq]
  rfl

/-- Two messages wait, and the first one is returned. -/
theorem head_is_oldest_unread_of_two :
    ∃ e, ((run Sys.step (blank 12 (by decide) (by decide))
        [.write (some [1]), .write (some [2])]).log.filter
        (fun e => decide e.Unread)).head? = some e ∧
      e.start = (run Sys.step (blank 12 (by decide) (by decide))
        [.write (some [1]), .write (some [2])]).q.readPtr ∧ e.payload = [1] :=
  @head_is_oldest_unread (.ofWords 12 (by decide) (by decide)) (fun _ => 0) (fun _ _ => rfl)
    [.write (some [1]), .write (some [2])] true (by decide +kernel) [1] (by decide +kernel)

/-- Two messages fill a buffer of eight words, and a third one takes the place of
    the first.  The reader moves to the new message, and the second one, which
    nothing has overwritten, is older. -/
theorem newer_message_returned_first :
    (ticosdQueueReadHead (play (blank 8 (by decide) (by decide))
        [.write [1], .write [2], .write [3]]).q true).val.1 = some [3] ∧
    ((play (blank 8 (by decide) (by decide))
        [.write [1], .write [2], .write [3]]).log.filter
        (fun e => decide e.Unread)).head? = some ⟨4, [2], 0, false, false⟩ :=
  ⟨by decide +kernel, by decide +kernel⟩

/-! ## Nothing stuck -/

/-- A full queue has its head strictly inside the buffer, as
    `prv_is_msg_in_bounds` wants it. -/
def FullOk (q : TicosdQueue) : Prop :=
  q.readPtr = q.writePtr → readAt q.buf q.prevPtr = false →
    4 * q.readPtr + 12 + sizeAt q.buf q.readPtr < q.size.bytes

instance (q : TicosdQueue) : Decidable (FullOk q) := inferInstanceAs (Decidable (_ → _ → _))

/-- The condition on each operation of a run. -/
def ProgressOk (s : Sys) : Op → Prop
  | .readHead malloc => OrderOk s (.readHead malloc) ∧ FullOk s.q
  | a => OrderOk s a

instance (s : Sys) : (a : Op) → Decidable (ProgressOk s a)
  | .write payload => inferInstanceAs (Decidable (OrderOk s (.write payload)))
  | .readHead malloc => inferInstanceAs (Decidable (OrderOk s (.readHead malloc) ∧ FullOk s.q))
  | .completeRead => inferInstanceAs (Decidable (OrderOk s .completeRead))

theorem orderOk_of_progressOk (s : Sys) (a : Op) (h : ProgressOk s a) : OrderOk s a := by
  cases a with
  | write payload => exact h
  | readHead malloc => exact h.1
  | completeRead => exact h

/-- The last written message is unread while the chain has a message. -/
theorem prev_unread (h : Inv s passed pend) (hne : pend ≠ []) :
    readAt s.q.buf s.q.prevPtr = false := by
  have hlast := List.getLast?_eq_some_getLast hne
  have hmem : pend.getLast hne ∈ pend := List.getLast_mem hne
  have hun := h.unread _ hmem
  rw [← h.last hlast, ← hun.2]
  exact (h.stored _ (h.pend_mem hmem) hun.1).holds.flag

/-- With a message in the chain the reader is not caught up. -/
theorem not_caughtUp {e : Entry} {rest : List Entry} (h : Inv s passed (e :: rest))
    (hok : FullOk s.q) : caughtUp s.q = false := by
  have hun := h.unread e List.mem_cons_self
  have hst := (h.stored e (h.pend_mem List.mem_cons_self) hun.1).holds
  rw [h.head_start rfl] at hst
  rw [caughtUp]
  by_cases heq : s.q.readPtr = s.q.writePtr
  · have hb := hok heq (prev_unread h (by simp))
    rw [s.q.size.bytes_eq, hst.size] at hb
    rw [hst.valid_iff.mpr hb, hst.flag, hun.2]
    simp
  · rw [decide_eq_false heq, Bool.false_and]

/-- The first message of the chain is returned. -/
theorem readHead_first {e : Entry} {rest : List Entry} (h : Inv s passed (e :: rest))
    (hok : FullOk s.q) : (ticosdQueueReadHead s.q true).val.1 = some e.payload := by
  rw [h.readHead_cons true, not_caughtUp h hok, if_neg (by simp)]

/-- **Nothing stuck**: in every run whose steps meet the conditions,
    `ticosd_queue_read_head` returns a message while there is an intact unread
    one, and right after a successful write into an empty queue it returns what
    was written. -/
theorem unread_message_has_head {size : QueueSize} {file : Mem} (hblank : Blank size file)
    (ops : List Op) (hok : Along Sys.step ProgressOk (fresh size file) ops) :
    (ProgressOk (run Sys.step (fresh size file) ops) (.readHead true) →
      (∃ e ∈ (run Sys.step (fresh size file) ops).log, e.Unread) →
      ∃ p, (ticosdQueueReadHead (run Sys.step (fresh size file) ops).q true).val.1 = some p) ∧
    (∀ p, Along Sys.step ProgressOk (run Sys.step (fresh size file) ops)
        [.write (some p), .readHead true] →
      (∀ e ∈ (run Sys.step (fresh size file) ops).log, ¬ e.Unread) →
      (ticosdQueueWrite (run Sys.step (fresh size file) ops).q (some p)).val.1 = true →
      (ticosdQueueReadHead (ticosdQueueWrite (run Sys.step (fresh size file) ops).q
        (some p)).val.2 true).val.1 = some p) := by
  obtain ⟨passed, pend, h, hfull⟩ := goodFull_run hblank (hok.mono orderOk_of_progressOk)
  refine ⟨?_, ?_⟩
  · rintro ⟨-, hf⟩ ⟨e, he, hun⟩
    cases pend with
    | nil => exact nomatch hfull e he hun
    | cons d rest => exact ⟨d.payload, readHead_first h hf⟩
  · rintro p ⟨hw, ⟨-, hf⟩, -⟩ hempty htaken
    have hlen := hw.1 p rfl
    have hval := write_val _ p hlen h.readPtr_small
    by_cases hacc : Accepts (run Sys.step (fresh size file) ops).q p.length
    · obtain ⟨passed', kept, hstep⟩ := h.write hlen hacc
      have hkept : kept = [] := by
        rw [List.eq_nil_iff_forall_not_mem]
        intro e he
        have he' := hstep.sublist.subset he
        exact hempty e (h.pend_mem he') (h.unread e he')
      have hinv := hstep.inv
      rw [hkept, List.nil_append] at hinv
      have hq : (Sys.write (run Sys.step (fresh size file) ops) (some p)).q
          = (ticosdQueueWrite (run Sys.step (fresh size file) ops).q (some p)).val.2 := by
        rw [Sys.write_taken hlen h.readPtr_small hacc, hval, if_pos hacc]
      rw [← hq]
      exact readHead_first hinv hf
    · rw [hval, if_neg hacc] at htaken
      exact nomatch htaken

/-- A message of five words in a buffer of five is returned: its three bytes of
    payload in the last word leave one byte of padding. -/
theorem unread_message_has_head_padded :
    (ticosdQueueReadHead (ticosdQueueWrite (blank 5 (by decide) (by decide)).q
      (some [1, 2, 3, 4, 5, 6, 7])).val.2 true).val.1 = some [1, 2, 3, 4, 5, 6, 7] :=
  (@unread_message_has_head (.ofWords 5 (by decide) (by decide)) (fun _ => 0) (fun _ _ => rfl)
    [] trivial).2 [1, 2, 3, 4, 5, 6, 7] (by decide +kernel) (fun _ he => nomatch he)
    (by decide +kernel)

/-- A message that fills the buffer to its last byte is accepted and never
    returned: the bounds check of the reader is strict. -/
theorem full_message_has_no_head :
    (ticosdQueueWrite (blank 4 (by decide) (by decide)).q (some [1, 2, 3, 4])).val.1 = true ∧
    (∃ e ∈ (play (blank 4 (by decide) (by decide)) [.write [1, 2, 3, 4]]).log, e.Unread) ∧
    (ticosdQueueReadHead (play (blank 4 (by decide) (by decide))
      [.write [1, 2, 3, 4]]).q true).val.1 = none :=
  ⟨by decide +kernel, ⟨⟨0, [1, 2, 3, 4], 0, false, false⟩, by decide +kernel, ⟨rfl, rfl⟩⟩,
    by decide +kernel⟩

end QueueDelivery
