import Ticosd.QueueOverwrite
import Ticosd.GuardedRun

/-! # Runs of the queue, with a history

    A system is a queue together with the history of the messages written to it:
    where each was stored, and what has happened to it since.  The history is
    read off the operations themselves — a message is overwritten when one of
    the traced stores of a later write falls on its words, and completed when a
    `ticosd_queue_complete_read` that returns true finds it at the read pointer.

    `Inv` ties the history to the buffer: intact messages stand in memory, and
    the chain of the reader (`QueueRing.Ring`) consists of unread ones.  It is
    kept by every operation under two conditions on the state before it, which
    the code does not check:

    * `HeadOk` — equal pointers with an unread header between them mean a full
      queue, and not a header left over from an earlier lap;
    * `CompleteOk` — the word at the write pointer is not an end marker left
      over from an earlier lap when the reader is about to reach it. -/

namespace QueueRun

open ByteStore QueueModel QueueView QueueRing QueueOverwrite Tiling GuardedRun

/-! ## Systems -/

/-- A message that was written, and what has happened to it since. -/
structure Entry where
  start : Nat
  payload : List UInt8
  link : Nat
  overwritten : Bool
  completed : Bool
  deriving DecidableEq

/-- The words of the message. -/
def Entry.cell (e : Entry) : Cell := cellAt e.start e.payload.length

/-- None of its words has been overwritten. -/
def Entry.Intact (e : Entry) : Prop := e.overwritten = false

/-- Intact, and not completed. -/
def Entry.Unread (e : Entry) : Prop := e.overwritten = false ∧ e.completed = false

instance (e : Entry) : Decidable e.Intact := inferInstanceAs (Decidable (_ = _))

instance (e : Entry) : Decidable e.Unread := inferInstanceAs (Decidable (_ ∧ _))

/-- Some store of the list falls on a word of the cell. -/
def hits (stores : List (Nat × List UInt8)) (c : Cell) : Bool :=
  stores.any (fun s => decide (s.1 < 4 * c.stop ∧ 4 * c.start < s.1 + s.2.length))

/-- The history of a message after some stores. -/
def Entry.after (stores : List (Nat × List UInt8)) (e : Entry) : Entry :=
  { e with overwritten := e.overwritten || hits stores e.cell }

/-- The history of a message after the one at index `i` is completed. -/
def Entry.complete (i : Nat) (e : Entry) : Entry :=
  if e.start = i ∧ e.overwritten = false then { e with completed := true } else e

/-- A queue and the messages written to it, oldest first. -/
structure Sys where
  q : TicosdQueue
  log : List Entry

/-- The operations of the two threads. -/
inductive Op where
  | write (payload : Option (List UInt8))
  | readHead (malloc : Bool)
  | completeRead

/-- `ticosd_queue_write` with its history. -/
def Sys.write (s : Sys) (payload : Option (List UInt8)) : Sys :=
  let t := ticosdQueueWrite s.q payload
  match payload, t.val.1 with
  | some p, true =>
      ⟨t.val.2, s.log.map (Entry.after t.stores)
        ++ [⟨t.val.2.prevPtr, p, s.q.prevPtr, false, false⟩]⟩
  | _, _ => ⟨t.val.2, s.log⟩

/-- `ticosd_queue_complete_read` with its history. -/
def Sys.completeRead (s : Sys) : Sys :=
  let t := ticosdQueueCompleteRead s.q
  if t.val.1 = true then ⟨t.val.2, s.log.map (Entry.complete s.q.readPtr)⟩
  else ⟨t.val.2, s.log⟩

/-- One operation. -/
def Sys.step (s : Sys) : Op → Sys
  | .write payload => s.write payload
  | .readHead malloc => ⟨(ticosdQueueReadHead s.q malloc).val.2, s.log⟩
  | .completeRead => s.completeRead

/-- The queue of a file without content. -/
def fresh (size : QueueSize) (file : Mem) : Sys where
  q := { size := size, buf := file, readPtr := 0, writePtr := 0, prevPtr := 0,
         canCompleteRead := false }
  log := []

/-- Every byte of the file is zero. -/
def Blank (size : QueueSize) (file : Mem) : Prop := ∀ a, a < size.bytes → file a = 0

/-! ## Conditions -/

/-- `payload_size_bytes` is a `uint32_t`, and the last three values of its range
    make `prv_bytes_to_words_round_up` overflow. -/
def WriteOk (payload : Option (List UInt8)) : Prop :=
  ∀ p, payload = some p → p.length + 3 < 2 ^ 32

/-- An unread header at equal pointers means that the last written message is
    unread, too. -/
def HeadOk (q : TicosdQueue) : Prop :=
  q.readPtr = q.writePtr → validAt q.size.words q.buf q.readPtr = true →
    readAt q.buf q.readPtr = false → readAt q.buf q.prevPtr = false

/-- No end marker stands at the write pointer when the message at the read
    pointer is the last one before it. -/
def CompleteOk (q : TicosdQueue) : Prop :=
  stopAt q.buf q.readPtr = q.writePtr → wordAt q.buf q.writePtr ≠ endPointer

instance : (payload : Option (List UInt8)) → Decidable (WriteOk payload)
  | none => isTrue (fun _ h => nomatch h)
  | some p => decidable_of_iff (p.length + 3 < 2 ^ 32)
      ⟨fun h _ hp => Option.some.inj hp ▸ h, fun h => h p rfl⟩

instance (q : TicosdQueue) : Decidable (HeadOk q) :=
  inferInstanceAs (Decidable (_ → _ → _ → _))

instance (q : TicosdQueue) : Decidable (CompleteOk q) :=
  inferInstanceAs (Decidable (_ → _))

/-- The condition on each operation of a run. -/
def StepOk (s : Sys) : Op → Prop
  | .write payload => WriteOk payload
  | .readHead _ => HeadOk s.q
  | .completeRead => s.q.canCompleteRead = true → CompleteOk s.q

instance (s : Sys) : (a : Op) → Decidable (StepOk s a)
  | .write payload => inferInstanceAs (Decidable (WriteOk payload))
  | .readHead _ => inferInstanceAs (Decidable (HeadOk s.q))
  | .completeRead => inferInstanceAs (Decidable (_ → _))

/-! ## The invariant -/

/-- The message stands in the buffer as it was written. -/
structure Stored (q : TicosdQueue) (e : Entry) : Prop where
  holds : Holds q.buf e.start e.link e.payload e.completed
  fits : e.start + msgWords e.payload.length ≤ q.size.words
  len : e.payload.length + 3 < 2 ^ 32

/-- Two cells share no word. -/
def Apart (c d : Cell) : Prop := c.stop ≤ d.start ∨ d.stop ≤ c.start

/-- The history and the buffer agree: intact messages stand in memory, and no two of
    them share a word. -/
structure Kept (s : Sys) : Prop where
  stored : ∀ e ∈ s.log, e.Intact → Stored s.q e
  apart : s.log.Pairwise (fun d e => d.Intact → e.Intact → Apart d.cell e.cell)

/-- The history, the chain of the reader and the pointers agree. -/
structure Inv (s : Sys) (passed : List Cell) (pend : List Entry) : Prop where
  shape : Shape s.q passed (pend.map Entry.cell)
  stored : ∀ e ∈ s.log, e.Intact → Stored s.q e
  apart : s.log.Pairwise (fun d e => d.Intact → e.Intact → Apart d.cell e.cell)
  sub : pend.Sublist s.log
  unread : ∀ e ∈ pend, e.Unread

/-! ## The operations, in terms of the view -/

variable {s : Sys} {passed : List Cell} {pend : List Entry}

theorem Entry.cell_start (e : Entry) : e.cell.start = e.start := rfl

theorem Entry.cell_stop (e : Entry) :
    e.cell.stop = e.start + msgWords e.payload.length := rfl

theorem Entry.cell_lt (e : Entry) : e.cell.start < e.cell.stop :=
  cellAt_lt e.start e.payload.length

/-- The stores of a write fall on exactly the cells it touches. -/
theorem hits_write {q : TicosdQueue} {payload : List UInt8}
    (hlen : payload.length + 3 < 2 ^ 32) (hr : q.readPtr < 2 ^ 31)
    (hacc : Accepts q payload.length) {c : Cell} (hc : c.start < c.stop) :
    hits (ticosdQueueWrite q (some payload)).stores c = true ↔
      Touches q payload.length c := by
  have hw := words_spec hlen
  have hpos := hacc.1
  rw [write_stores q payload hlen hr hacc, hits, List.any_append, List.any_append,
    Bool.or_eq_true, Bool.or_eq_true]
  have hmark : (markerStores q payload.length).any (fun s =>
      decide (s.1 < 4 * c.stop ∧ 4 * c.start < s.1 + s.2.length)) = true ↔
      Wraps q payload.length ∧ c.start ≤ q.writePtr ∧ q.writePtr < c.stop := by
    rw [markerStores]
    by_cases h : Wraps q payload.length
    · rw [if_pos h]
      simp only [List.any_cons, List.any_nil, Bool.or_false, h, true_and]
      rw [decide_eq_true_eq, le32_length]
      omega
    · rw [if_neg h]
      simp only [List.any_nil, Bool.false_eq_true, h, false_and]
  have hpad : (paddingStores (startOf q payload.length) payload.length).any (fun s =>
      decide (s.1 < 4 * c.stop ∧ 4 * c.start < s.1 + s.2.length)) = true ↔
      payload.length < 4 * prvBytesToWordsRoundUp payload.length ∧
      4 * startOf q payload.length + 12 + payload.length < 4 * c.stop ∧
        4 * c.start < 4 * (startOf q payload.length + msgWords payload.length) := by
    rw [paddingStores]
    by_cases h : 4 * prvBytesToWordsRoundUp payload.length - payload.length > 0
    · simp only [if_pos h, List.any_cons, List.any_nil, Bool.or_false, decide_eq_true_eq,
        List.length_replicate, msgWords, headerLen]
      omega
    · simp only [if_neg h, List.any_nil, Bool.false_eq_true, false_iff]
      omega
  have hbody : [(4 * startOf q payload.length, msgHeader q.prevPtr payload),
      (4 * startOf q payload.length + 12, payload)].any (fun s =>
      decide (s.1 < 4 * c.stop ∧ 4 * c.start < s.1 + s.2.length)) = true ↔
      4 * startOf q payload.length < 4 * c.stop ∧
        4 * c.start < 4 * startOf q payload.length + 12 + payload.length := by
    simp only [List.any_cons, List.any_nil, Bool.or_false, Bool.or_eq_true,
      decide_eq_true_eq, msgHeader_length]
    omega
  rw [hmark, hpad, hbody, or_assoc, or_comm, Touches]
  refine or_congr_left ?_
  simp only [msgWords, headerLen]
  omega

/-- A message that was refused changes nothing. -/
theorem Sys.write_refused {p : List UInt8} (hlen : p.length + 3 < 2 ^ 32)
    (hr : s.q.readPtr < 2 ^ 31) (h : ¬ Accepts s.q p.length) : s.write (some p) = s := by
  simp only [Sys.write, write_val s.q p hlen hr, if_neg h]

/-- The new entry of the history. -/
def newEntry (q : TicosdQueue) (p : List UInt8) : Entry :=
  ⟨startOf q p.length, p, q.prevPtr, false, false⟩

/-- A message that was taken. -/
theorem Sys.write_taken {p : List UInt8} (hlen : p.length + 3 < 2 ^ 32)
    (hr : s.q.readPtr < 2 ^ 31) (h : Accepts s.q p.length) :
    s.write (some p) = ⟨afterWrite s.q p, s.log.map (Entry.after
      (ticosdQueueWrite s.q (some p)).stores) ++ [newEntry s.q p]⟩ := by
  simp only [Sys.write, write_val s.q p hlen hr, if_pos h]
  rfl

/-- An intact message that is not touched keeps its history. -/
theorem Entry.after_untouched {p : List UInt8} (hlen : p.length + 3 < 2 ^ 32)
    (hr : s.q.readPtr < 2 ^ 31) (hacc : Accepts s.q p.length) {e : Entry}
    (hno : ¬ Touches s.q p.length e.cell) :
    e.after (ticosdQueueWrite s.q (some p)).stores = e := by
  have hhit : hits (ticosdQueueWrite s.q (some p)).stores e.cell = false := by
    rw [Bool.eq_false_iff]
    intro h
    exact hno ((hits_write hlen hr hacc e.cell_lt).mp h)
  rw [Entry.after, hhit, Bool.or_false]

/-- A message that is intact after a write was intact before, and not touched. -/
theorem Entry.intact_after {p : List UInt8} (hlen : p.length + 3 < 2 ^ 32)
    (hr : s.q.readPtr < 2 ^ 31) (hacc : Accepts s.q p.length) {e : Entry}
    (h : (e.after (ticosdQueueWrite s.q (some p)).stores).Intact) :
    e.Intact ∧ ¬ Touches s.q p.length e.cell ∧
      e.after (ticosdQueueWrite s.q (some p)).stores = e := by
  have hor : (e.overwritten || hits (ticosdQueueWrite s.q (some p)).stores e.cell) = false := h
  obtain ⟨hint, hhit⟩ := Bool.or_eq_false_iff.mp hor
  have hno : ¬ Touches s.q p.length e.cell := by
    intro ht
    rw [(hits_write hlen hr hacc e.cell_lt).mpr ht] at hhit
    exact nomatch hhit
  exact ⟨hint, hno, Entry.after_untouched hlen hr hacc hno⟩

/-- The members of a list that a map fixes stay a sublist of its image. -/
theorem sublist_map_of_fixed {α : Type} {f : α → α} {xs ys : List α} (h : xs.Sublist ys)
    (hfix : ∀ x ∈ xs, f x = x) : xs.Sublist (ys.map f) := by
  have hmap := h.map f
  rw [List.map_congr_left hfix, List.map_id''] at hmap
  · exact hmap
  · intro x
    rfl

/-- Lists with the same image are the same where the map tells their members
    apart. -/
theorem eq_of_map_eq {α β : Type} {f : α → β} {xs ys : List α}
    (h : xs.map f = ys.map f) (hinj : ∀ x ∈ xs, ∀ y ∈ ys, f x = f y → x = y) : xs = ys := by
  induction xs generalizing ys with
  | nil => exact (List.map_eq_nil_iff.mp h.symm).symm
  | cons x xs ih =>
      cases ys with
      | nil => exact nomatch h
      | cons y ys =>
          rw [List.map_cons, List.map_cons, List.cons_eq_cons] at h
          rw [hinj x List.mem_cons_self y List.mem_cons_self h.1,
            ih h.2 (fun a ha b hb => hinj a (List.mem_cons_of_mem _ ha) b
              (List.mem_cons_of_mem _ hb))]

/-- Members of a list whose image is a suffix of its image are a suffix. -/
theorem suffix_of_map {α β : Type} {f : α → β} {xs ys : List α} (h : xs.map f <:+ ys.map f)
    (hsub : ∀ x ∈ xs, x ∈ ys) (hinj : ∀ x ∈ ys, ∀ y ∈ ys, f x = f y → x = y) : xs <:+ ys := by
  obtain ⟨pre, hpre⟩ := h
  obtain ⟨as, bs, heq, -, hbs⟩ := List.map_eq_append_iff.mp hpre.symm
  have hxs : bs = xs := eq_of_map_eq hbs (fun d hd e he => hinj d
    (by rw [heq]; exact List.mem_append_right _ hd) e (hsub e he))
  rw [heq, hxs]
  exact List.suffix_append _ _

/-! ## The history and the buffer -/

/-- Distinct intact messages share no word. -/
theorem Kept.apart_of_ne (h : Kept s) {d e : Entry} (hd : d ∈ s.log) (he : e ∈ s.log)
    (hdi : d.Intact) (hei : e.Intact) (hne : d ≠ e) : Apart d.cell e.cell := by
  have hsymm : Std.Symm (fun d e : Entry => d.Intact → e.Intact → Apart d.cell e.cell) :=
    ⟨fun a b hab hb ha => (hab ha hb).symm⟩
  exact h.apart.forall hd he hne hdi hei

/-- An intact message is known by its index. -/
theorem Kept.eq_of_start (h : Kept s) {d e : Entry} (hd : d ∈ s.log) (he : e ∈ s.log)
    (hdi : d.Intact) (hei : e.Intact) (hs : d.start = e.start) : d = e := by
  by_contra hne
  have hap := h.apart_of_ne hd he hdi hei hne
  have hdl := d.cell_lt
  have hel := e.cell_lt
  simp only [Apart, Entry.cell_start] at hap hdl hel
  omega

/-- A history that agrees with a buffer agrees with every handle on it. -/
theorem Kept.handle {q : TicosdQueue} (h : Kept s) (hsize : q.size = s.q.size)
    (hbuf : q.buf = s.q.buf) : Kept ⟨q, s.log⟩ := by
  refine ⟨?_, h.apart⟩
  intro e he hi
  obtain ⟨hholds, hfits, hlen⟩ := h.stored e he hi
  refine ⟨?_, ?_, hlen⟩
  · rw [hbuf]
    exact hholds
  · rw [hsize]
    exact hfits

/-- A read that was completed. -/
theorem Sys.completeRead_taken (hr : s.q.readPtr < 2 ^ 31)
    (hcan : s.q.canCompleteRead = true) :
    s.completeRead = ⟨afterComplete s.q, s.log.map (Entry.complete s.q.readPtr)⟩ := by
  simp only [Sys.completeRead, completeRead_val s.q hr, hcan, Bool.true_eq_false, if_false,
    if_true]
  rfl

/-- A read that was not asked for is not completed. -/
theorem Sys.completeRead_refused (hr : s.q.readPtr < 2 ^ 31)
    (hcan : s.q.canCompleteRead = false) : s.completeRead = s := by
  simp only [Sys.completeRead, completeRead_val s.q hr, hcan, if_true, Bool.false_eq_true,
    if_false]

/-- Completing a message other than `e` leaves the history of `e` alone. -/
theorem Entry.complete_other {i : Nat} {e : Entry} (h : e.start ≠ i) : e.complete i = e :=
  if_neg (fun hc => h hc.1)

theorem Entry.complete_intact {i : Nat} {e : Entry} : (e.complete i).Intact ↔ e.Intact := by
  rw [Entry.complete]
  split <;> rfl

theorem Entry.complete_cell (i : Nat) (e : Entry) : (e.complete i).cell = e.cell := by
  rw [Entry.complete]
  split <;> rfl

/-- Completing the read of an intact message keeps the history and the buffer in
    agreement. -/
theorem Kept.complete (h : Kept s) {e : Entry} (he : e ∈ s.log) (hi : e.Intact)
    (hstart : e.start = s.q.readPtr) (hr : s.q.readPtr < 2 ^ 31)
    (hcan : s.q.canCompleteRead = true) : Kept s.completeRead := by
  -- the other intact messages do not contain the marked word
  have hother : ∀ d ∈ s.log, d.Intact → d.start ≠ s.q.readPtr →
      AgreeOn s.q.buf (markRead s.q.buf s.q.readPtr) d.cell.start d.cell.stop := by
    intro d hd hdi hne
    have hap := h.apart_of_ne hd he hdi hi (fun heq => hne (by rw [heq, hstart]))
    have hel := e.cell_lt
    refine agreeOn_markRead _ ?_
    rw [← hstart]
    rcases hap with hap | hap
    · exact Or.inr hap
    · exact Or.inl (by rw [Entry.cell_start] at hel; omega)
  rw [Sys.completeRead_taken hr hcan]
  constructor
  · intro d' hd' hi
    obtain ⟨d, hd, rfl⟩ := List.mem_map.mp hd'
    have hdi := Entry.complete_intact.mp hi
    have hds := h.stored d hd hdi
    by_cases hds' : d.start = s.q.readPtr
    · have heq : d.complete s.q.readPtr = { d with completed := true } :=
        if_pos ⟨hds', hdi⟩
      rw [heq]
      refine ⟨?_, hds.fits, hds.len⟩
      show Holds (markRead s.q.buf s.q.readPtr) d.start d.link d.payload true
      rw [← hds']
      exact hds.holds.markRead_self
    · rw [Entry.complete_other hds']
      exact ⟨hds.holds.congr hds.len (hother d hd hdi hds'), hds.fits, hds.len⟩
  · show List.Pairwise _ (s.log.map (Entry.complete s.q.readPtr))
    rw [List.pairwise_map]
    refine h.apart.imp ?_
    intro a b hab ha hb
    rw [Entry.complete_cell, Entry.complete_cell]
    exact hab (Entry.complete_intact.mp ha) (Entry.complete_intact.mp hb)

/-- A write keeps them in agreement: what it touches is not intact any more. -/
theorem Kept.write (h : Kept s) {p : List UInt8} (hlen : p.length + 3 < 2 ^ 32)
    (hr : s.q.readPtr < 2 ^ 31) (hprev : s.q.prevPtr < 2 ^ 32) (hacc : Accepts s.q p.length) :
    Kept (s.write (some p)) := by
  rw [Sys.write_taken hlen hr hacc]
  constructor
  · intro e' he' hi
    rcases List.mem_append.mp he' with he' | he'
    · obtain ⟨e, he, rfl⟩ := List.mem_map.mp he'
      obtain ⟨hei, hno, heq⟩ := Entry.intact_after hlen hr hacc hi
      have hes := h.stored e he hei
      rw [heq]
      exact ⟨hes.holds.congr hes.len (agreeOn_afterWrite hlen hno), hes.fits, hes.len⟩
    · rw [List.mem_singleton.mp he']
      exact ⟨holds_afterWrite hlen hprev, startOf_fits s.q _ hacc, hlen⟩
  · rw [List.pairwise_append]
    refine ⟨?_, List.pairwise_singleton _ _, ?_⟩
    · rw [List.pairwise_map]
      refine h.apart.imp ?_
      intro a b hab ha hb
      exact hab (Entry.intact_after hlen hr hacc ha).1 (Entry.intact_after hlen hr hacc hb).1
    · intro e' he' d hd hi _
      obtain ⟨e, he, rfl⟩ := List.mem_map.mp he'
      obtain ⟨-, hno, heq⟩ := Entry.intact_after hlen hr hacc hi
      rw [List.mem_singleton.mp hd, heq]
      have hno' := (not_or.mp hno).1
      show e.cell.stop ≤ startOf s.q p.length ∨
        startOf s.q p.length + msgWords p.length ≤ e.cell.start
      omega

/-! ## The invariant along a run -/

section Facts

variable (h : Inv s passed pend)

include h

theorem Inv.ring :
    Ring s.q.size.words s.q.buf s.q.readPtr s.q.writePtr passed (pend.map Entry.cell) :=
  h.shape.ring

theorem Inv.readPtr_small : s.q.readPtr < 2 ^ 31 := h.shape.readPtr_small

theorem Inv.last {e : Entry} (he : pend.getLast? = some e) : e.start = s.q.prevPtr := by
  refine h.shape.last e.cell ?_
  rw [List.getLast?_map, he]
  rfl

theorem Inv.flag (hcan : s.q.canCompleteRead = true) : pend ≠ [] := by
  intro hnil
  exact h.shape.flag hcan (by rw [hnil]; rfl)

theorem Inv.head_start {e : Entry} {es : List Entry} (heq : pend = e :: es) :
    e.start = s.q.readPtr := by
  subst heq
  exact (ring_cons h.ring).1

theorem Inv.pend_mem {e : Entry} (he : e ∈ pend) : e ∈ s.log := h.sub.subset he

theorem Inv.kept : Kept s := ⟨h.stored, h.apart⟩

/-- Distinct intact messages share no word. -/
theorem Inv.apart_of_ne {d e : Entry} (hd : d ∈ s.log) (he : e ∈ s.log) (hdi : d.Intact)
    (hei : e.Intact) (hne : d ≠ e) : Apart d.cell e.cell :=
  h.kept.apart_of_ne hd he hdi hei hne

/-- An intact message is known by its index. -/
theorem Inv.eq_of_start {d e : Entry} (hd : d ∈ s.log) (he : e ∈ s.log) (hdi : d.Intact)
    (hei : e.Intact) (hs : d.start = e.start) : d = e :=
  h.kept.eq_of_start hd he hdi hei hs

/-- A message of the chain is known by its cell. -/
theorem Inv.cell_inj : ∀ d ∈ pend, ∀ e ∈ pend, d.cell = e.cell → d = e := by
  intro d hd e he hcell
  exact h.eq_of_start (h.pend_mem hd) (h.pend_mem he) (h.unread d hd).1 (h.unread e he).1
    (congrArg Cell.start hcell)

/-- The message at the read pointer, as `ticosd_queue_read_head` sees it. -/
theorem Inv.head_payload {e : Entry} {es : List Entry} (heq : pend = e :: es) :
    payloadAt s.q.buf s.q.readPtr = e.payload := by
  have he : e ∈ pend := by rw [heq]; exact List.mem_cons_self
  rw [← h.head_start heq]
  exact (h.stored e (h.pend_mem he) (h.unread e he).1).holds.data

end Facts

/-- **Completing**: the chain loses its first message. -/
theorem Inv.complete {e : Entry} {rest : List Entry} (h : Inv s passed (e :: rest))
    (hok : CompleteOk s.q) (hcan : s.q.canCompleteRead = true) :
    ∃ passed', Inv s.completeRead passed' rest ∧ ∀ c ∈ passed', c ∈ passed ∨ c = e.cell := by
  have hstart := h.head_start rfl
  have hmem : e ∈ s.log := h.pend_mem List.mem_cons_self
  have hun := h.unread e List.mem_cons_self
  have hst := h.stored e hmem hun.1
  have hstop : stopAt s.q.buf s.q.readPtr = e.cell.stop := by
    rw [← hstart]
    exact hst.holds.stop
  obtain ⟨passed', hshape, hsub⟩ := Shape.complete h.shape (fun hw => hok (hstop.trans hw))
  have hrest : ∀ d ∈ rest, d.complete s.q.readPtr = d := by
    intro d hd
    have hpair := List.pairwise_cons.mp (h.apart.sublist h.sub)
    have hap := hpair.1 d hd hun.1 (h.unread d (List.mem_cons_of_mem _ hd)).1
    have hdl := d.cell_lt
    have hel := e.cell_lt
    refine Entry.complete_other ?_
    rw [← hstart]
    simp only [Apart, Entry.cell_start] at hap hdl hel
    omega
  have hkept := h.kept.complete hmem hun.1 hstart h.readPtr_small hcan
  have hlog := Sys.completeRead_taken h.readPtr_small hcan
  refine ⟨passed', ⟨?_, hkept.stored, hkept.apart, ?_, ?_⟩, hsub⟩
  · rw [hlog]
    exact hshape
  · rw [hlog]
    exact sublist_map_of_fixed ((List.sublist_cons_self e rest).trans h.sub) hrest
  · intro d hd
    exact h.unread d (List.mem_cons_of_mem _ hd)

/-- What a write makes of the chain of entries. -/
structure Step (s : Sys) (p : List UInt8) (passed : List Cell) (pend : List Entry)
    (passed' : List Cell) (kept : List Entry) : Prop where
  inv : Inv (s.write (some p)) passed' (kept ++ [newEntry s.q p])
  sublist : kept.Sublist pend
  suffix : (∀ e ∈ pend, ¬ LeftBehind s.q p.length e.cell) → kept <:+ pend
  kept_intact : ∀ e ∈ kept, ¬ Touches s.q p.length e.cell
  passed_intact : ∀ c ∈ passed', c ∈ passed ++ pend.map Entry.cell ∧
    ¬ Touches s.q p.length c
  passed_old : s.q.readPtr ≠ s.q.writePtr → ∀ c ∈ passed', c ∈ passed
  dropped : ∀ e ∈ pend, e ∉ kept →
    Touches s.q p.length e.cell ∨ LeftBehind s.q p.length e.cell

/-- **Writing**: the chain keeps what the write leaves in front of the reader, and
    gains the new message. -/
theorem Inv.write (h : Inv s passed pend) {p : List UInt8} (hlen : p.length + 3 < 2 ^ 32)
    (hacc : Accepts s.q p.length) : ∃ passed' kept, Step s p passed pend passed' kept := by
  have hr := h.readPtr_small
  have hprev := h.shape.prevPtr_small
  obtain ⟨passed', keptCells, hrew⟩ := Ring.write h.ring hacc hlen hprev
  obtain ⟨kept, hksub, rfl⟩ := List.sublist_map_iff.mp hrew.sublist
  have hkno : ∀ e ∈ kept, ¬ Touches s.q p.length e.cell :=
    fun e he => hrew.kept_intact e.cell (List.mem_map_of_mem he)
  have hinj := h.cell_inj
  refine ⟨passed', kept, ?_, hksub, ?_, hkno, hrew.passed_intact, hrew.passed_old, ?_⟩
  · have hkept' := h.kept.write hlen hr hprev hacc
    have hlog := Sys.write_taken hlen hr hacc
    refine ⟨?_, hkept'.stored, hkept'.apart, ?_, ?_⟩
    · rw [hlog, List.map_append]
      exact hrew.shape hacc hlen
    · rw [hlog]
      refine List.Sublist.append ?_ (List.Sublist.refl _)
      exact sublist_map_of_fixed (hksub.trans h.sub)
        (fun e he => Entry.after_untouched hlen hr hacc (hkno e he))
    · intro e he
      rcases List.mem_append.mp he with he | he
      · exact h.unread e (hksub.subset he)
      · rw [List.mem_singleton.mp he]
        exact ⟨rfl, rfl⟩
  · intro hleft
    refine suffix_of_map (hrew.suffix fun c hc => ?_) (fun e he => hksub.subset he) hinj
    obtain ⟨e, he, rfl⟩ := List.mem_map.mp hc
    exact hleft e he
  · intro e he hno
    refine hrew.dropped e.cell (List.mem_map_of_mem he) ?_
    intro hin
    obtain ⟨d, hd, hcell⟩ := List.mem_map.mp hin
    have heq := hinj d (hksub.subset hd) e he hcell
    rw [heq] at hd
    exact hno hd

/-! ## Reading the head -/

/-- With an empty chain the read pointer is caught up. -/
theorem shape_caughtUp {q : TicosdQueue} {cells : List Cell} (h : Shape q cells [])
    (hok : HeadOk q) : caughtUp q = true := by
  obtain ⟨hrw, -, -⟩ := ring_nil h.ring
  rw [caughtUp, decide_eq_true hrw, Bool.true_and]
  cases hv : validAt q.size.words q.buf q.readPtr with
  | false => rfl
  | true =>
      cases hread : readAt q.buf q.readPtr with
      | true => rfl
      | false =>
          exfalso
          have hprev := hok hrw hv hread
          rcases h.idle rfl with hi | hi
          · rw [← hrw, hv] at hi
            cases hi
          · rw [hprev] at hi
            cases hi

/-- With nothing in the chain there is nothing to read. -/
theorem Inv.readHead_nil (h : Inv s passed []) (hok : HeadOk s.q) (malloc : Bool) :
    (ticosdQueueReadHead s.q malloc).val = (none, s.q) := by
  rw [readHead_val, if_pos (Or.inl (shape_caughtUp h.shape hok))]

/-- Otherwise `ticosd_queue_read_head` returns the first message of the chain, if
    it returns anything. -/
theorem Inv.readHead_cons {e : Entry} {rest : List Entry} (h : Inv s passed (e :: rest))
    (malloc : Bool) :
    (ticosdQueueReadHead s.q malloc).val =
      if caughtUp s.q = true ∨ malloc = false then (none, s.q)
      else (some e.payload, { s.q with canCompleteRead := true }) := by
  rw [readHead_val, h.head_payload rfl]

/-- Setting the flag keeps the invariant when the chain is not empty. -/
theorem Inv.setFlag (h : Inv s passed pend) (hne : pend ≠ []) :
    Inv ⟨{ s.q with canCompleteRead := true }, s.log⟩ passed pend :=
  ⟨h.shape.setFlag (by simpa using hne), fun e he hi => ⟨(h.stored e he hi).holds,
    (h.stored e he hi).fits, (h.stored e he hi).len⟩, h.apart, h.sub, h.unread⟩

theorem Inv.readHead (h : Inv s passed pend) (hok : HeadOk s.q) (malloc : Bool) :
    Inv (s.step (.readHead malloc)) passed pend := by
  cases pend with
  | nil =>
      simp only [Sys.step, h.readHead_nil hok malloc]
      exact h
  | cons e rest =>
      simp only [Sys.step, h.readHead_cons malloc]
      by_cases hc : caughtUp s.q = true ∨ malloc = false
      · rw [if_pos hc]
        exact h
      · rw [if_neg hc]
        exact h.setFlag (by simp)

/-! ## Every run -/

/-- Some chain fits the system. -/
def Good (s : Sys) : Prop := ∃ passed pend, Inv s passed pend

/-- A queue without content is empty. -/
theorem inv_fresh {size : QueueSize} {file : Mem} (hblank : Blank size file) :
    Inv (fresh size file) [] [] := by
  have hwords := size.four_le_words
  have hbytes := size.bytes_eq
  have hpos : 0 < size.words := by omega
  refine ⟨⟨Or.inl ⟨rfl, rfl, hpos, fun c hc => nomatch hc⟩, (fun c hc => nomatch hc),
    fun _ => Or.inl ?_, hpos, fun hf => nomatch hf⟩, (fun e he => nomatch he),
    List.Pairwise.nil, List.Sublist.refl _, fun e he => nomatch he⟩
  · show validAt size.words file 0 = false
    exact validAt_zero_byte (hblank _ (by omega))

theorem good_step {a : Op} (h : Good s) (hok : StepOk s a) : Good (s.step a) := by
  obtain ⟨passed, pend, h⟩ := h
  cases a with
  | write payload =>
      cases payload with
      | none => exact ⟨passed, pend, h⟩
      | some p =>
          have hlen := hok p rfl
          by_cases hacc : Accepts s.q p.length
          · obtain ⟨passed', kept, hstep⟩ := h.write hlen hacc
            exact ⟨passed', _, hstep.inv⟩
          · refine ⟨passed, pend, ?_⟩
            rw [Sys.step, Sys.write_refused hlen h.readPtr_small hacc]
            exact h
  | readHead malloc => exact ⟨passed, pend, h.readHead hok malloc⟩
  | completeRead =>
      cases hcan : s.q.canCompleteRead with
      | false =>
          refine ⟨passed, pend, ?_⟩
          rw [Sys.step, Sys.completeRead_refused h.readPtr_small hcan]
          exact h
      | true =>
          cases pend with
          | nil => exact absurd rfl (h.flag hcan)
          | cons e rest =>
              obtain ⟨passed', h', -⟩ := h.complete (hok hcan) hcan
              exact ⟨passed', rest, h'⟩

/-- **The invariant holds after every run that meets the conditions.** -/
theorem good_run {size : QueueSize} {file : Mem} (hblank : Blank size file) {ops : List Op}
    (hok : Along Sys.step StepOk (fresh size file) ops) :
    Good (run Sys.step (fresh size file) ops) :=
  invariant (fun _ _ h hs => good_step h hs) ⟨[], [], inv_fresh hblank⟩ hok

end QueueRun
