import Ticosd.QueueFifo

/-! # How long a message stays

    The writer of the queue goes round the buffer and overwrites what it meets.  It leaves
    out the end of the buffer when a message does not fit there, so a message is not safe
    for as many words as the buffer has: at most one end is left out before the writer is
    back, and it is shorter than the message that did not fit.

    `Trail` is this distance between a message and the write pointer.  It does not depend
    on the reader.  A message is retained while its words, the words of what is written
    after it, and the longest of these (less one) fit the buffer (`message_retained`).
    When there is that much room for the unread messages at every write, none of them is
    ever lost: what was acknowledged and what waits is exactly what was accepted
    (`acknowledged_eq_accepted`). -/

namespace QueueRetention

open ByteStore QueueModel QueueView QueueRing QueueOverwrite QueueRun QueueDelivery
  QueueRestart QueueReset QueuePowerCut QueueFifo Tiling GuardedRun Simulation LossyFifo

/-! ## The distance to the writer -/

/-- Behind the `own` words of a message at `start` follow `later` words of other messages
    and, where the end of the buffer was left out, `waste` more; then comes the writer. -/
structure Trail (n start own later waste w : Nat) : Prop where
  fits : start + own ≤ n
  room : own + later + waste ≤ n
  writer : start + own + later + waste < n ∧ w = start + own + later + waste ∨
    n ≤ start + own + later + waste ∧ w + n = start + own + later + waste
  gap : 0 < waste → n ≤ start + own + later + waste ∧ start + own + waste ≤ n

variable {n start own later waste w k : Nat}

/-- Right after the write of a message. -/
theorem Trail.fresh (hpos : 0 < n) (hfits : start + own ≤ n) :
    Trail n start own 0 0 ((start + own) % n) := by
  refine ⟨hfits, by omega, ?_, fun h => absurd h (Nat.lt_irrefl 0)⟩
  rcases Nat.lt_or_ge (start + own) n with hlt | hge
  · rw [Nat.mod_eq_of_lt hlt]
    exact Or.inl ⟨hlt, rfl⟩
  · have heq : start + own = n := by omega
    rw [heq, Nat.mod_self]
    exact Or.inr ⟨by omega, by omega⟩

/-- A message of `k` words that fits behind the writer does not touch the message. -/
theorem Trail.stay (h : Trail n start own later waste w) (hown : 0 < own)
    (hroom : own + (later + k) + waste ≤ n) (hfits : w + k ≤ n) :
    Trail n start own (later + k) waste ((w + k) % n) ∧ (start + own ≤ w ∨ w + k ≤ start) := by
  obtain ⟨h1, h2, h3, h4⟩ := h
  refine ⟨⟨h1, hroom, ?_, ?_⟩, by omega⟩
  · rcases Nat.lt_or_ge (w + k) n with hlt | hge
    · rw [Nat.mod_eq_of_lt hlt]
      omega
    · have heq : w + k = n := by omega
      rw [heq, Nat.mod_self]
      omega
  · intro hwaste
    have := h4 hwaste
    omega

/-- A message of `k` words that does not fit there goes to index 0, in front of the
    message, and leaves out less than `k` words. -/
theorem Trail.wrap (h : Trail n start own later waste w) (hown : 0 < own) (hw : w < n)
    (hroom : own + (later + k) + waste ≤ n) (hgap : own + (later + k) + (k - 1) ≤ n)
    (hwraps : n < w + k) :
    ∃ waste', waste' ≤ k - 1 ∧ Trail n start own (later + k) waste' (k % n) ∧
      k ≤ start ∧ start + own ≤ w := by
  obtain ⟨h1, h2, h3, h4⟩ := h
  -- the writer is still in the lap of the message, and nothing was left out so far
  have hlap : start + own + later + waste < n ∧ w = start + own + later + waste := by
    rcases h3 with h3 | h3
    · exact h3
    · omega
  have hzero : waste = 0 := by
    by_contra hne
    have := h4 (Nat.pos_of_ne_zero hne)
    omega
  have hk : k ≤ start := by omega
  refine ⟨n - w, by omega, ⟨h1, by omega, ?_, fun _ => by omega⟩, hk, by omega⟩
  rw [Nat.mod_eq_of_lt (show k < n by omega)]
  omega

/-! ## The words of messages -/

/-- The words of a message. -/
def words (e : Entry) : Nat := msgWords e.payload.length

/-- The words of some messages. -/
def totalWords (es : List Entry) : Nat := (es.map words).sum

/-- The words of the longest of them. -/
def longest (es : List Entry) : Nat := (es.map words).foldr max 0

variable {es ds : List Entry} {e d : Entry}

theorem words_pos (e : Entry) : 0 < words e := by
  simp only [words, msgWords, headerLen]
  omega

theorem totalWords_append (es ds : List Entry) :
    totalWords (es ++ ds) = totalWords es + totalWords ds := by
  rw [totalWords, List.map_append, List.sum_append]
  rfl

theorem totalWords_singleton (e : Entry) : totalWords [e] = words e := by
  rw [totalWords, List.map_singleton, List.sum_singleton]

theorem longest_append (es ds : List Entry) :
    longest (es ++ ds) = max (longest es) (longest ds) := by
  induction es with
  | nil => exact (Nat.zero_max _).symm
  | cons e es ih =>
      show max (words e) (longest (es ++ ds)) = max (max (words e) (longest es)) (longest ds)
      rw [ih, Nat.max_assoc]

theorem longest_singleton (e : Entry) : longest [e] = words e := Nat.max_zero _

/-- A sublist has no more words, and none that is longer. -/
theorem totalWords_le (h : es.Sublist ds) : totalWords es ≤ totalWords ds := by
  induction h with
  | slnil => exact Nat.le_refl _
  | cons d _ ih => exact ih.trans (Nat.le_add_left _ _)
  | cons_cons d _ ih => exact Nat.add_le_add_left ih _

theorem longest_le (h : es.Sublist ds) : longest es ≤ longest ds := by
  induction h with
  | slnil => exact Nat.le_refl _
  | cons d _ ih => exact ih.trans (Nat.le_max_right _ _)
  | cons_cons d _ ih => exact Nat.max_le.mpr ⟨Nat.le_max_left _ _, ih.trans (Nat.le_max_right _ _)⟩

/-- What happens to a message does not change its words. -/
theorem words_map {f : Entry → Entry} (hf : ∀ e, (f e).payload = e.payload) (es : List Entry) :
    totalWords (es.map f) = totalWords es ∧ longest (es.map f) = longest es := by
  have hmap : (es.map f).map words = es.map words := by
    rw [List.map_map]
    refine List.map_congr_left fun e _ => ?_
    simp only [Function.comp_apply, words, hf]
  rw [totalWords, totalWords, longest, longest, hmap]
  exact ⟨rfl, rfl⟩

/-- There is room behind a message for what is written after it. -/
def Room (n : Nat) (e : Entry) (later : List Entry) : Prop :=
  words e + totalWords later + (longest later - 1) ≤ n

instance (n : Nat) (e : Entry) (later : List Entry) : Decidable (Room n e later) :=
  inferInstanceAs (Decidable (_ ≤ _))

/-! ## The invariant -/

variable {s : Sys} {p : List UInt8} {i : Nat}

/-- While there is room, the message is intact, and the writer is where its words and those
    written after it have led. -/
def Behind (s : Sys) (e : Entry) (later : List Entry) : Prop :=
  Room s.q.size.words e later → e.Intact ∧ ∃ waste, waste ≤ longest later - 1 ∧
    Trail s.q.size.words e.start (words e) (totalWords later) waste s.q.writePtr

/-- That holds of every message of the history. -/
def Retains (s : Sys) : Prop := ∀ i e, s.log[i]? = some e → Behind s e (s.log.drop (i + 1))

/-- Only a write moves the write pointer, and only a write overwrites. -/
theorem retains_map {q : TicosdQueue} {f : Entry → Entry} (h : Retains s)
    (hsize : q.size = s.q.size) (hw : q.writePtr = s.q.writePtr)
    (hf : ∀ e, (f e).payload = e.payload ∧ (f e).start = e.start ∧
      (f e).overwritten = e.overwritten) : Retains ⟨q, s.log.map f⟩ := by
  intro i e' hi hroom
  have hi' : (s.log.map f)[i]? = some e' := hi
  rw [List.getElem?_map] at hi'
  obtain ⟨e, he, rfl⟩ := Option.map_eq_some_iff.mp hi'
  obtain ⟨hp, hs, ho⟩ := hf e
  obtain ⟨htotal, hlongest⟩ := words_map (fun e => (hf e).1) (s.log.drop (i + 1))
  have hown : words (f e) = words e := by rw [words, words, hp]
  have hroom' : Room q.size.words (f e) ((s.log.map f).drop (i + 1)) := hroom
  rw [← List.map_drop, Room, hown, htotal, hlongest, hsize] at hroom'
  obtain ⟨hint, waste, hwaste, htrail⟩ := h i e he hroom'
  refine ⟨ho.trans hint, waste, ?_, ?_⟩
  · show waste ≤ longest ((s.log.map f).drop (i + 1)) - 1
    rw [← List.map_drop, hlongest]
    exact hwaste
  · show Trail q.size.words (f e).start (words (f e)) (totalWords ((s.log.map f).drop (i + 1)))
      waste q.writePtr
    rw [← List.map_drop, htotal, hown, hs, hw, hsize]
    exact htrail

/-- **A write** does not touch a message behind which there is still room, and the writer
    goes on from there. -/
theorem Behind.write {later : List Entry} (h : Behind s e later)
    (hlen : p.length + 3 < 2 ^ 32) (hacc : Accepts s.q p.length)
    (hwlt : s.q.writePtr < s.q.size.words)
    (hroom : Room s.q.size.words e (later ++ [newEntry s.q p])) :
    (e.Intact ∧ ¬ Touches s.q p.length e.cell) ∧
      ∃ waste, waste ≤ longest (later ++ [newEntry s.q p]) - 1 ∧
        Trail s.q.size.words e.start (words e) (totalWords (later ++ [newEntry s.q p])) waste
          (afterWrite s.q p).writePtr := by
  have hk : words (newEntry s.q p) = msgWords p.length := rfl
  have hM := three_lt_msgWords p.length hacc.1 hlen
  have hown := words_pos e
  rw [Room, totalWords_append, longest_append, totalWords_singleton, longest_singleton, hk]
    at hroom
  rw [totalWords_append, longest_append, totalWords_singleton, longest_singleton, hk]
  obtain ⟨hint, waste, hwaste, htrail⟩ := h (by rw [Room]; omega)
  have hcell : e.cell.start = e.start ∧ e.cell.stop = e.start + words e := ⟨rfl, rfl⟩
  by_cases hwraps : Wraps s.q p.length
  · obtain ⟨waste', hle, htrail', hfront, hback⟩ :=
      htrail.wrap hown hwlt (by omega) (by omega) hwraps
    refine ⟨⟨hint, ?_⟩, waste', by omega, ?_⟩
    · rw [Touches, startOf_wraps s.q _ hwraps]
      omega
    · show Trail _ _ _ _ _ ((startOf s.q p.length + msgWords p.length) % s.q.size.words)
      rw [startOf_wraps s.q _ hwraps, Nat.zero_add]
      exact htrail'
  · have hfits : s.q.writePtr + msgWords p.length ≤ s.q.size.words := Nat.le_of_not_lt hwraps
    obtain ⟨htrail', hside⟩ := htrail.stay hown (by omega) hfits
    refine ⟨⟨hint, ?_⟩, waste, by omega, ?_⟩
    · rw [Touches, startOf_stays s.q _ hwraps]
      have hno : ¬ (Wraps s.q p.length ∧ e.cell.start ≤ s.q.writePtr ∧
          s.q.writePtr < e.cell.stop) := fun hc => hwraps hc.1
      omega
    · show Trail _ _ _ _ _ ((startOf s.q p.length + msgWords p.length) % s.q.size.words)
      rw [startOf_stays s.q _ hwraps]
      exact htrail'

theorem Retains.write (h : Retains s) (hlen : p.length + 3 < 2 ^ 32)
    (hr : s.q.readPtr < 2 ^ 31) (hwlt : s.q.writePtr < s.q.size.words)
    (hacc : Accepts s.q p.length) : Retains (s.write (some p)) := by
  rw [Sys.write_taken hlen hr hacc]
  intro i e' hi
  have hi' : (s.log.map (Entry.after (ticosdQueueWrite s.q (some p)).stores)
      ++ [newEntry s.q p])[i]? = some e' := hi
  rcases Nat.lt_or_ge i s.log.length with hlt | hge
  · -- a message that was there before
    have hget : s.log[i]? = some (s.log[i]) := List.getElem?_eq_getElem hlt
    rw [List.getElem?_append_left (by rw [List.length_map]; exact hlt), List.getElem?_map,
      hget] at hi'
    obtain rfl := Option.some.inj hi'
    intro hroom
    have hdrop : (s.log.map (Entry.after (ticosdQueueWrite s.q (some p)).stores)
        ++ [newEntry s.q p]).drop (i + 1)
        = (s.log.drop (i + 1)).map (Entry.after (ticosdQueueWrite s.q (some p)).stores)
          ++ [newEntry s.q p] := by
      rw [List.drop_append_of_le_length (by rw [List.length_map]; omega), List.map_drop]
    obtain ⟨htotal, hlongest⟩ := words_map
      (f := Entry.after (ticosdQueueWrite s.q (some p)).stores) (fun _ => rfl)
      (s.log.drop (i + 1))
    have hroom' : Room s.q.size.words (s.log[i]) (s.log.drop (i + 1) ++ [newEntry s.q p]) := by
      have hroom'' : Room s.q.size.words
          (s.log[i].after (ticosdQueueWrite s.q (some p)).stores)
          ((s.log.map (Entry.after (ticosdQueueWrite s.q (some p)).stores)
            ++ [newEntry s.q p]).drop (i + 1)) := hroom
      rw [hdrop, Room, totalWords_append, longest_append, htotal, hlongest] at hroom''
      rw [Room, totalWords_append, longest_append]
      exact hroom''
    obtain ⟨⟨hint, hno⟩, waste, hwaste, htrail⟩ :=
      (h i _ hget).write hlen hacc hwlt hroom'
    refine ⟨?_, waste, ?_, ?_⟩
    · rw [Entry.after_untouched hlen hr hacc hno]
      exact hint
    · show waste ≤ longest ((s.log.map _ ++ [newEntry s.q p]).drop (i + 1)) - 1
      rw [hdrop, longest_append, hlongest, ← longest_append]
      exact hwaste
    · show Trail s.q.size.words _ _ (totalWords ((s.log.map _ ++ [newEntry s.q p]).drop (i + 1)))
        waste _
      rw [hdrop, totalWords_append, htotal, ← totalWords_append]
      exact htrail
  · -- the new message
    have hlast : i = s.log.length := by
      have hbound := (List.getElem?_eq_some_iff.mp hi').1
      rw [List.length_append, List.length_map, List.length_singleton] at hbound
      omega
    have hmap : (s.log.map (Entry.after (ticosdQueueWrite s.q (some p)).stores)).length
        = s.log.length := List.length_map _
    rw [hlast, List.getElem?_append_right (by omega), hmap, Nat.sub_self] at hi'
    obtain rfl := Option.some.inj hi'
    have hdrop : (s.log.map (Entry.after (ticosdQueueWrite s.q (some p)).stores)
        ++ [newEntry s.q p]).drop (i + 1) = [] := by
      refine List.drop_eq_nil_of_le ?_
      rw [List.length_append, hmap, List.length_singleton, hlast]
    intro _
    refine ⟨rfl, 0, Nat.zero_le _, ?_⟩
    show Trail s.q.size.words (startOf s.q p.length) (msgWords p.length) (totalWords
      ((s.log.map (Entry.after (ticosdQueueWrite s.q (some p)).stores)
        ++ [newEntry s.q p]).drop (i + 1))) 0
      ((startOf s.q p.length + msgWords p.length) % s.q.size.words)
    rw [hdrop]
    exact Trail.fresh (by omega) (startOf_fits s.q _ hacc)

/-- Every operation keeps what it should. -/
theorem retains_step {a : Op} (hgood : Good s) (h : Retains s) (hok : StepOk s a) :
    Retains (s.step a) := by
  obtain ⟨passed, pend, hinv⟩ := hgood
  have hr := hinv.readPtr_small
  cases a with
  | write payload =>
      cases payload with
      | none => exact h
      | some p =>
          have hlen := hok p rfl
          by_cases hacc : Accepts s.q p.length
          · exact h.write hlen hr hinv.shape.writePtr_lt hacc
          · rw [Sys.step, Sys.write_refused hlen hr hacc]
            exact h
  | readHead malloc =>
      have hid := retains_map (q := (ticosdQueueReadHead s.q malloc).val.2) (f := id) h
        (by rcases readHead_state s.q malloc with hq | hq <;> rw [hq])
        (by rcases readHead_state s.q malloc with hq | hq <;> rw [hq])
        (fun _ => ⟨rfl, rfl, rfl⟩)
      rw [List.map_id] at hid
      exact hid
  | completeRead =>
      cases hcan : s.q.canCompleteRead with
      | false =>
          rw [Sys.step, Sys.completeRead_refused hr hcan]
          exact h
      | true =>
          rw [Sys.step, Sys.completeRead_taken hr hcan]
          refine retains_map h rfl rfl fun e => ?_
          rw [Entry.complete]
          split
          · exact ⟨rfl, rfl, rfl⟩
          · exact ⟨rfl, rfl, rfl⟩

theorem size_step {a : Op} (hgood : Good s) (hok : StepOk s a) :
    (s.step a).q.size = s.q.size := by
  obtain ⟨passed, pend, hinv⟩ := hgood
  have hr := hinv.readPtr_small
  cases a with
  | write payload =>
      cases payload with
      | none => rfl
      | some p =>
          have hlen := hok p rfl
          by_cases hacc : Accepts s.q p.length
          · rw [Sys.step, Sys.write_taken hlen hr hacc]
            rfl
          · rw [Sys.step, Sys.write_refused hlen hr hacc]
  | readHead malloc =>
      show (ticosdQueueReadHead s.q malloc).val.2.size = s.q.size
      rcases readHead_state s.q malloc with hq | hq <;> rw [hq]
  | completeRead =>
      cases hcan : s.q.canCompleteRead with
      | false => rw [Sys.step, Sys.completeRead_refused hr hcan]
      | true =>
          rw [Sys.step, Sys.completeRead_taken hr hcan]
          rfl

theorem retains_fresh (size : QueueSize) (file : Mem) : Retains (fresh size file) :=
  fun _ _ h => absurd h (by simp [fresh])

/-- **Retention**: in every run whose steps meet the conditions, a message stays in the
    buffer as it was written while its words, the words of the messages written after it,
    and the longest of these less one word fit the buffer. -/
theorem message_retained {size : QueueSize} {file : Mem} (hblank : Blank size file)
    (ops : List Op) (hok : Along Sys.step StepOk (fresh size file) ops) {i : Nat} {e : Entry}
    (hi : (run Sys.step (fresh size file) ops).log[i]? = some e)
    (hroom : Room size.words e ((run Sys.step (fresh size file) ops).log.drop (i + 1))) :
    e.Intact ∧ Stored (run Sys.step (fresh size file) ops).q e := by
  have hrun : Good (run Sys.step (fresh size file) ops) ∧
      Retains (run Sys.step (fresh size file) ops) ∧
      (run Sys.step (fresh size file) ops).q.size = size :=
    @invariant Sys Op Sys.step StepOk (fun s => Good s ∧ Retains s ∧ s.q.size = size)
      (fun s a h hs => ⟨good_step h.1 hs, retains_step h.1 h.2.1 hs,
        (size_step h.1 hs).trans h.2.2⟩)
      _ _ ⟨⟨[], [], inv_fresh hblank⟩, retains_fresh size file, rfl⟩ hok
  obtain ⟨⟨passed, pend, hinv⟩, hretains, hsize⟩ := hrun
  have hint := (hretains i e hi (by rw [hsize]; exact hroom)).1
  exact ⟨hint, hinv.stored e (List.mem_of_getElem? hi) hint⟩

/-- Six messages in a buffer of twenty-two words: the last one leaves out the last word and
    takes the place of the first. -/
def sixWritten : List Op :=
  [.write (some [1]), .write (some [2]), .write (some [3]), .write (some [4, 4, 4, 4, 4]),
    .write (some [5]), .write (some [6])]

theorem message_retained_six :
    Stored (run Sys.step (blank 22 (by decide) (by decide)) sixWritten).q
      ⟨8, [3], 4, false, false⟩ :=
  (@message_retained (.ofWords 22 (by decide) (by decide)) (fun _ => 0) (fun _ _ => rfl)
    sixWritten (by decide +kernel) 2 ⟨8, [3], 4, false, false⟩ (by decide +kernel)
    (by decide +kernel)).2

/-! ## Nothing is lost -/

/-- There is room for a message behind the unread ones. -/
def RoomFor (s : Sys) (p : List UInt8) : Prop :=
  totalWords (unread s) + msgWords p.length + (max (longest (unread s)) (msgWords p.length) - 1)
    ≤ s.q.size.words

/-- The condition on each operation: that much room at every write, and no stale words in
    the way of the reader. -/
def ExactOk (s : Sys) : Op → Prop
  | .write payload =>
      WriteOk payload ∧ ∀ p, payload = some p → Accepts s.q p.length → RoomFor s p
  | a => StepOk s a

instance (s : Sys) : (a : Op) → Decidable (ExactOk s a)
  | .write none => isTrue ⟨(fun _ h => nomatch h), fun _ h => nomatch h⟩
  | .write (some p) => decidable_of_iff (WriteOk (some p) ∧ (Accepts s.q p.length →
      totalWords (unread s) + msgWords p.length
        + (max (longest (unread s)) (msgWords p.length) - 1) ≤ s.q.size.words))
      ⟨fun h => ⟨h.1, fun _ hp => Option.some.inj hp ▸ h.2⟩, fun h => ⟨h.1, h.2 p rfl⟩⟩
  | .readHead malloc => (inferInstance : Decidable (StepOk s (.readHead malloc)))
  | .completeRead => (inferInstance : Decidable (StepOk s .completeRead))

/-- What a run with enough room has kept: the unread messages are the end of the history,
    and they fit. -/
structure Exact (s : Sys) : Prop where
  chained : Chained s
  retains : Retains s
  suffix : ∃ k, unread s = s.log.drop k
  fits : totalWords (unread s) + (longest (unread s) - 1) ≤ s.q.size.words

/-- An unread message has room for the ones behind it. -/
theorem Exact.room (h : Exact s) {e : Entry} {later : List Entry} (hsuffix : e :: later <:+ unread s) :
    Room s.q.size.words e later := by
  have htotal := totalWords_le hsuffix.sublist
  have hlong := longest_le hsuffix.sublist
  have hfits := h.fits
  have hcons : totalWords (e :: later) = words e + totalWords later ∧
      longest later ≤ longest (e :: later) := ⟨rfl, Nat.le_max_right _ _⟩
  rw [Room]
  omega

/-- The messages behind an unread one in the history are those behind it in the chain. -/
theorem Exact.behind (h : Exact s) {e : Entry} (he : e ∈ unread s) :
    ∃ i later, s.log[i]? = some e ∧ s.log.drop (i + 1) = later ∧ e :: later <:+ unread s := by
  obtain ⟨k, hk⟩ := h.suffix
  obtain ⟨j, hj⟩ := List.getElem?_of_mem he
  rw [hk, List.getElem?_drop] at hj
  refine ⟨k + j, _, hj, rfl, ?_⟩
  rw [hk]
  refine ⟨(s.log.drop k).take j, ?_⟩
  have hbound := (List.getElem?_eq_some_iff.mp hj).1
  have hget := (List.getElem?_eq_some_iff.mp hj).2
  have hsplit := List.take_append_drop j (s.log.drop k)
  rw [List.drop_drop, List.drop_eq_getElem_cons hbound, hget] at hsplit
  exact hsplit

/-- **With room, a write touches no unread message.** -/
theorem Exact.not_touched (h : Exact s) (hlen : p.length + 3 < 2 ^ 32)
    (hacc : Accepts s.q p.length) (hroom : RoomFor s p) :
    ∀ e ∈ unread s, ¬ Touches s.q p.length e.cell := by
  intro e he
  obtain ⟨i, later, hi, hlater, hsuffix⟩ := h.behind he
  obtain ⟨passed, hreg⟩ := h.chained
  have hbehind := h.retains i e hi
  rw [hlater] at hbehind
  have htotal := totalWords_le hsuffix.sublist
  have hlong := longest_le hsuffix.sublist
  have hcons : totalWords (e :: later) = words e + totalWords later ∧
      longest later ≤ longest (e :: later) := ⟨rfl, Nat.le_max_right _ _⟩
  have hk : words (newEntry s.q p) = msgWords p.length := rfl
  refine (hbehind.write hlen hacc hreg.inv.shape.writePtr_lt ?_).1.2
  rw [RoomFor] at hroom
  rw [Room, totalWords_append, longest_append, totalWords_singleton, longest_singleton, hk]
  omega

/-- The head of a full queue is followed by the words that were left out. -/
theorem Exact.fullOk (h : Exact s) (hne : unread s ≠ []) : FullOk s.q := by
  intro hrw _
  obtain ⟨e, rest, hcons⟩ := List.exists_cons_of_ne_nil hne
  obtain ⟨passed, hreg⟩ := h.chained
  have he : e ∈ unread s := by rw [hcons]; exact List.mem_cons_self
  obtain ⟨i, later, hi, hlater, hsuffix⟩ := h.behind he
  have hbehind := h.retains i e hi
  rw [hlater] at hbehind
  obtain ⟨hint, waste, hwaste, htrail⟩ := hbehind (h.room hsuffix)
  have hstart : e.start = s.q.readPtr := hreg.inv.head_start hcons
  have hst := hreg.inv.stored e (hreg.inv.pend_mem he) hint
  have hlt := hreg.inv.shape.writePtr_lt
  have htotal := totalWords_le hsuffix.sublist
  have hlong := longest_le hsuffix.sublist
  have hfits := h.fits
  have hparts : totalWords (e :: later) = words e + totalWords later ∧
      words e ≤ longest (e :: later) := ⟨rfl, Nat.le_max_left _ _⟩
  have hw : words e = headerLen + prvBytesToWordsRoundUp e.payload.length := rfl
  simp only [headerLen] at hw
  obtain ⟨h1, h2, h3, h4⟩ := htrail
  have hgap := h4 (by omega)
  have hwords := words_spec hst.len
  rw [← hstart, hst.holds.size, s.q.size.bytes_eq]
  omega

/-- With room, a write keeps all unread messages, and adds the new one behind them. -/
theorem Exact.write (h : Exact s) (hlen : p.length + 3 < 2 ^ 32)
    (hacc : Accepts s.q p.length) (hroom : RoomFor s p) :
    FifoOk s (.op (.write (some p))) ∧ unread (s.write (some p)) = unread s ++ [newEntry s.q p] ∧
      Exact (s.write (some p)) := by
  have hno := h.not_touched hlen hacc hroom
  obtain ⟨passed, hreg⟩ := h.chained
  have hr := hreg.inv.readPtr_small
  have hback : ∀ e ∈ unread s, ¬ LeftBehind s.q p.length e.cell := by
    intro e he hl
    obtain ⟨d, hd, ht⟩ := leftBehind_touches hreg.inv hacc hlen he hl
    exact hno d hd ht
  have hok : FifoOk s (.op (.write (some p))) := by
    refine ⟨⟨?_, ?_⟩, ?_⟩
    · intro p' hp'
      obtain rfl := Option.some.inj hp'
      exact hlen
    · intro p' hp' _ e he hl
      obtain rfl := Option.some.inj hp'
      exact absurd hl (hback e he)
    · intro p' hp' _ hcan
      obtain rfl := Option.some.inj hp'
      obtain ⟨e, rest, hcons⟩ := List.exists_cons_of_ne_nil (hreg.inv.flag hcan)
      have hmem : e ∈ unread s := by rw [hcons]; exact List.mem_cons_self
      have hl := hback e hmem
      refine ⟨fun heq => hl (Or.inl heq), fun hzero => hl (Or.inr ⟨hzero.2, Or.inl hzero.1⟩)⟩
  obtain ⟨passed', kept, hstep, ⟨pre, hpre⟩, hunread⟩ :=
    unread_write hreg hlen hacc (fun e he hl => absurd hl (hback e he))
  have hkept : kept = unread s := by
    cases pre with
    | nil => exact hpre
    | cons x xs =>
        -- the first message is not gone, and it is not there twice
        have hx : x ∈ unread s := by rw [← hpre]; exact List.mem_cons_self
        have hin : x ∈ kept := by
          by_contra hout
          rcases hstep.dropped x hx hout with ht | hl
          · exact hno x hx ht
          · exact hback x hx hl
        have hinv := hreg.inv
        rw [← hpre, List.cons_append] at hinv
        exact absurd rfl (Inv.start_ne hinv (List.mem_append_right xs hin))
  rw [hkept] at hunread
  refine ⟨hok, hunread, chained_step (a := .write (some p)) ⟨passed, hreg⟩ hok.1,
    h.retains.write hlen hr hreg.inv.shape.writePtr_lt hacc, ?_, ?_⟩
  · obtain ⟨k, hk⟩ := h.suffix
    have hklen : k ≤ s.log.length ∨ unread s = [] := by
      rcases Nat.lt_or_ge s.log.length k with hlt | hge
      · exact Or.inr (by rw [hk]; exact List.drop_eq_nil_of_le (Nat.le_of_lt hlt))
      · exact Or.inl hge
    have hfix : (unread s).map (Entry.after (ticosdQueueWrite s.q (some p)).stores)
        = unread s := by
      have hsame := List.map_congr_left (l := unread s)
        (f := Entry.after (ticosdQueueWrite s.q (some p)).stores) (g := id)
        (fun e he => Entry.after_untouched hlen hr hacc (hno e he))
      rw [hsame, List.map_id]
    have hlog : (s.write (some p)).log = s.log.map
        (Entry.after (ticosdQueueWrite s.q (some p)).stores) ++ [newEntry s.q p] := by
      rw [Sys.write_taken hlen hr hacc]
    rcases hklen with hle | hnil
    · refine ⟨k, ?_⟩
      rw [hunread, hlog, List.drop_append_of_le_length (by rw [List.length_map]; exact hle),
        ← List.map_drop, ← hk, hfix]
    · refine ⟨s.log.length, ?_⟩
      rw [hunread, hlog, hnil, List.drop_append_of_le_length (by rw [List.length_map]),
        List.drop_eq_nil_of_le (by rw [List.length_map])]
  · have hsize : (s.write (some p)).q.size = s.q.size := by
      rw [Sys.write_taken hlen hr hacc]
      rfl
    have hk : words (newEntry s.q p) = msgWords p.length := rfl
    rw [hunread, totalWords_append, longest_append, totalWords_singleton, longest_singleton,
      hk, hsize]
    rw [RoomFor] at hroom
    exact hroom

/-- Completing a read keeps the rest of the chain. -/
theorem Exact.complete (h : Exact s) (hok : CompleteOk s.q)
    (hcan : s.q.canCompleteRead = true) : Exact s.completeRead := by
  obtain ⟨passed, hreg⟩ := h.chained
  have hr := hreg.inv.readPtr_small
  obtain ⟨e, rest, hcons⟩ := List.exists_cons_of_ne_nil (hreg.inv.flag hcan)
  have hstart : e.start = s.q.readPtr := hreg.inv.head_start hcons
  have hreg' := hreg
  rw [hcons] at hreg'
  obtain ⟨passed', hrest⟩ := hreg'.complete hok hcan
  have hunread : unread s.completeRead = rest := (pend_eq_filter hrest.inv hrest.full).symm
  have hlog := Sys.completeRead_taken hr hcan
  have hgood : Good s := ⟨passed, _, hreg.inv⟩
  have hsize := size_step (a := .completeRead) hgood (fun _ => hok)
  refine ⟨chained_of_regular hrest, retains_step (a := .completeRead) hgood h.retains
    (fun _ => hok), ?_, ?_⟩
  · obtain ⟨k, hk⟩ := h.suffix
    refine ⟨k + 1, ?_⟩
    have hdrop : s.log.drop (k + 1) = rest := by
      rw [← List.drop_drop, ← hk, hcons]
      rfl
    have hfix : rest.map (Entry.complete s.q.readPtr) = rest := by
      have hsame := List.map_congr_left (l := rest) (f := Entry.complete s.q.readPtr) (g := id)
        (fun d hd => Entry.complete_other (by
          rw [← hstart]
          exact Inv.start_ne hreg'.inv hd))
      rw [hsame, List.map_id]
    rw [hunread, hlog]
    show rest = (s.log.map (Entry.complete s.q.readPtr)).drop (k + 1)
    rw [← List.map_drop, hdrop, hfix]
  · have htotal := totalWords_le (List.sublist_cons_self e rest)
    have hlong := longest_le (List.sublist_cons_self e rest)
    have hfits := h.fits
    rw [hcons] at hfits
    show totalWords (unread s.completeRead) + (longest (unread s.completeRead) - 1)
      ≤ s.completeRead.q.size.words
    rw [hunread, show s.completeRead.q.size = s.q.size from hsize]
    omega

/-- **One operation** with enough room is a step of the store that costs nothing. -/
theorem exact_step (s : Sys) (a : Op) (h : Exact s) (hok : ExactOk s a) :
    Exact (s.step a) ∧ FifoOk s (.op a) ∧ lost (label s (.op a)) = 0 := by
  have hchained := h.chained
  cases a with
  | write payload =>
      cases payload with
      | none => exact ⟨h, ⟨⟨hok.1, fun _ hp => by cases hp⟩, fun _ hp => by cases hp⟩, rfl⟩
      | some p =>
          obtain ⟨passed, hreg⟩ := h.chained
          have hlen := hok.1 p rfl
          have hr := hreg.inv.readPtr_small
          have hval := write_val s.q p hlen hr
          by_cases hacc : Accepts s.q p.length
          · obtain ⟨hfifo, hunread, hexact⟩ := h.write hlen hacc (hok.2 p rfl hacc)
            rw [if_pos hacc] at hval
            refine ⟨hexact, hfifo, ?_⟩
            simp only [label, hval, lost, hunread, List.length_append, List.length_singleton,
              Nat.sub_self]
          · rw [if_neg hacc] at hval
            have hsame : s.step (.write (some p)) = s := Sys.write_refused hlen hr hacc
            rw [hsame]
            refine ⟨h, ⟨⟨hok.1, ?_⟩, ?_⟩, ?_⟩
            · intro p' hp' hacc'
              obtain rfl := Option.some.inj hp'
              exact absurd hacc' hacc
            · intro p' hp' hacc'
              obtain rfl := Option.some.inj hp'
              exact absurd hacc' hacc
            · simp only [label, hval, lost]
  | readHead malloc =>
      have hgood : Good s := by
        obtain ⟨passed, hreg⟩ := h.chained
        exact ⟨passed, _, hreg.inv⟩
      have hsize := size_step (a := .readHead malloc) hgood hok
      refine ⟨⟨chained_step (a := .readHead malloc) h.chained hok,
        retains_step (a := .readHead malloc) hgood h.retains hok, h.suffix, ?_⟩,
        ⟨hok, h.fullOk⟩, rfl⟩
      rw [hsize]
      exact h.fits
  | completeRead =>
      refine ⟨?_, hok, rfl⟩
      cases hcan : s.q.canCompleteRead with
      | false =>
          obtain ⟨passed, hreg⟩ := h.chained
          rw [Sys.step, Sys.completeRead_refused hreg.inv.readPtr_small hcan]
          exact h
      | true => exact h.complete (hok hcan) hcan

theorem exact_fresh {size : QueueSize} {file : Mem} (hblank : Blank size file) :
    Exact (fresh size file) :=
  ⟨chained_of_regular (regular_fresh hblank), retains_fresh size file, ⟨0, rfl⟩, Nat.zero_le _⟩

/-- What the threads see of some operations. -/
def seenOps (s : Sys) (ops : List Op) : List (LossyFifo.Act (List UInt8)) :=
  shown Sys.step (fun s a => label s (.op a)) s ops

/-- **Nothing is lost**: in every run that has room at each write for the unread messages,
    the new one, and the longest of them again less one word, what has been acknowledged,
    followed by what waits, is exactly what was accepted. -/
theorem acknowledged_eq_accepted {size : QueueSize} {file : Mem} (hblank : Blank size file)
    (ops : List Op) (hok : Along Sys.step ExactOk (fresh size file) ops) :
    taken none (seenOps (fresh size file) ops)
        ++ (unread (run Sys.step (fresh size file) ops)).map Entry.payload
      = puts (seenOps (fresh size file) ops) := by
  have htrace : Trace LossyFifo.Step (fifoOf (fresh size file)) (seenOps (fresh size file) ops)
      (fifoOf (run Sys.step (fresh size file) ops)) :=
    simulate_abs (fun s a h hs => by
      obtain ⟨h', hfifo, -⟩ := exact_step s a h hs
      exact ⟨h', (act_step s (.op a) h.chained hfifo).2⟩) (exact_fresh hblank) hok
  have hless : ∀ l ∈ seenOps (fresh size file) ops, lost l = 0 :=
    shown_forall (fun s a h hs => by
      obtain ⟨h', -, hlost⟩ := exact_step s a h hs
      exact ⟨h', hlost⟩) (exact_fresh hblank) hok
  exact taken_eq htrace hless (held_closed [] none)

/-- Two rounds of the buffer, with at most two messages waiting. -/
def twoRounds : List Op :=
  [.write (some [1]), .write (some [2]), .readHead true, .completeRead, .write (some [3]),
    .readHead true, .completeRead, .write (some [4]), .readHead true, .completeRead,
    .write (some [5])]

theorem acknowledged_eq_accepted_two_rounds :
    taken none (seenOps (blank 15 (by decide) (by decide)) twoRounds)
        ++ (unread (run Sys.step (blank 15 (by decide) (by decide)) twoRounds)).map
          Entry.payload
      = [[1], [2], [3], [4], [5]] :=
  (@acknowledged_eq_accepted (.ofWords 15 (by decide) (by decide)) (fun _ => 0)
    (fun _ _ => rfl) twoRounds (by decide +kernel)).trans (by decide +kernel)

end QueueRetention
