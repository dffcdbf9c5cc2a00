import Ticosd.QueueRestart

/-! # Reset — a new life of the buffer

    `ticosd_queue_reset` clears one header and the three pointers, whatever the
    buffer holds.  From there on the history starts anew: a system after a reset
    knows only the messages written since.  The invariant of `QueueRun` holds
    right after the reset for any buffer, so every message that is returned
    later is one of the new ones — as long as the steps meet their conditions,
    which is what the old words beyond the first header endanger. -/

namespace QueueReset

open ByteStore QueueModel QueueView QueueRing QueueOverwrite QueueRun QueueScan QueueDelivery
  QueueRestart Tiling GuardedRun

variable {s : Sys}

/-- An operation of the threads, or a restart of the daemon on the same buffer. -/
inductive Act where
  | op (a : Op)
  | restart

/-- One action.  A search for the pointers that does not end gives no queue; the
    system stays as it is. -/
def act (s : Sys) : Act → Sys
  | .op a => s.step a
  | .restart =>
      match (ticosdQueueInit s.q.size s.q.buf).val with
      | none => s
      | some q => ⟨q, s.log⟩

/-- The system right after `ticosd_queue_reset`. -/
def afterReset (q : TicosdQueue) : Sys := ⟨(ticosdQueueReset q).val, []⟩

/-- The condition on each action: at a restart the unread messages form a regular
    chain that the search can find. -/
def ActOk (s : Sys) : Act → Prop
  | .op a => StepOk s a
  | .restart => ∃ passed pend, Regular s passed pend ∧ RestartOk s.q pend

/-- The first header is cleared, so the queue is empty. -/
theorem inv_afterReset (q : TicosdQueue) (hcan : q.canCompleteRead = false) :
    Inv (afterReset q) [] [] := by
  have hwords := q.size.four_le_words
  have hpos : 0 < q.size.words := by omega
  refine ⟨⟨Or.inl ⟨rfl, rfl, hpos, fun c hc => nomatch hc⟩, (fun c hc => nomatch hc),
    fun _ => Or.inl ?_, hpos, ?_⟩, (fun e he => nomatch he), List.Pairwise.nil,
    List.Sublist.refl _, fun e he => nomatch he⟩
  · exact validAt_reset _ _
  · intro hf
    rw [show (afterReset q).q.canCompleteRead = q.canCompleteRead from rfl, hcan] at hf
    exact nomatch hf

theorem good_act {a : Act} (h : Good s) (hok : ActOk s a) : Good (act s a) := by
  cases a with
  | op a => exact good_step h hok
  | restart =>
      obtain ⟨passed, pend, hreg, hrestart⟩ := hok
      obtain ⟨q', passed', hinit, -, -, hready⟩ := hreg.restart hrestart
      simp only [act, hinit]
      exact ⟨passed', pend, hready.inv⟩

/-- The action asks for the head of the queue. -/
def Act.IsReadHead : Act → Prop
  | .op (.readHead _) => True
  | _ => False

/-- Only `ticosd_queue_read_head` sets the flag. -/
theorem flag_act {a : Act} (h : Good s) (hok : ActOk s a) (hno : ¬ a.IsReadHead)
    (hcan : s.q.canCompleteRead = false) : (act s a).q.canCompleteRead = false := by
  obtain ⟨passed, pend, h⟩ := h
  have hr := h.readPtr_small
  cases a with
  | op a =>
      cases a with
      | write payload =>
          cases payload with
          | none => exact hcan
          | some p =>
              have hlen := hok p rfl
              by_cases hacc : Accepts s.q p.length
              · rw [act, Sys.step, Sys.write_taken hlen hr hacc]
                simp only [afterWrite, hcan, ite_self]
              · rw [act, Sys.step, Sys.write_refused hlen hr hacc]
                exact hcan
      | readHead malloc => exact absurd trivial hno
      | completeRead =>
          rw [act, Sys.step, Sys.completeRead_refused hr hcan]
          exact hcan
  | restart =>
      rw [act]
      split
      · exact hcan
      · obtain ⟨_, _, _, _, -, -, heq⟩ := queueInit_some ‹_›
        rw [heq]
        rfl

/-- **Reset forgets everything**: after a reset of any buffer (with no read under
    way), in every run of operations and restarts that meets the conditions, what
    `ticosd_queue_read_head` returns was written since the reset, and until
    `ticosd_queue_read_head` is called `ticosd_queue_complete_read` does
    nothing. -/
theorem reset_forgets (q : TicosdQueue) (hcan : q.canCompleteRead = false) (acts : List Act)
    (hok : Along act ActOk (afterReset q) acts) :
    (∀ malloc p, HeadOk (run act (afterReset q) acts).q →
      (ticosdQueueReadHead (run act (afterReset q) acts).q malloc).val.1 = some p →
      ∃ j, Returns (run act (afterReset q) acts) malloc j) ∧
    ((∀ a ∈ acts, ¬ a.IsReadHead) →
      (ticosdQueueCompleteRead (run act (afterReset q) acts).q).val
        = (false, (run act (afterReset q) acts).q)) := by
  have hgood : Good (run act (afterReset q) acts) :=
    invariant (fun _ _ h hs => good_act h hs) ⟨[], [], inv_afterReset q hcan⟩ hok
  obtain ⟨passed, pend, h⟩ := hgood
  refine ⟨fun malloc p hhead hp => returns_of_some h hhead hp, ?_⟩
  intro hno
  have hflag : (run act (afterReset q) acts).q.canCompleteRead = false := by
    have key : ∀ (as : List Act) (s : Sys), Good s → s.q.canCompleteRead = false →
        Along act ActOk s as → (∀ a ∈ as, ¬ a.IsReadHead) →
        (run act s as).q.canCompleteRead = false := by
      intro as
      induction as with
      | nil => intro s _ hf _ _; exact hf
      | cons a as ih =>
          intro s hs hf halong hnone
          exact ih (act s a) (good_act hs halong.1)
            (flag_act hs halong.1 (hnone a List.mem_cons_self) hf) halong.2
            (fun b hb => hnone b (List.mem_cons_of_mem _ hb))
    exact key acts (afterReset q) ⟨[], [], inv_afterReset q hcan⟩ hcan hok hno
  rw [completeRead_val _ h.readPtr_small, if_pos hflag]

/-- Two messages wait in a buffer of twelve words. -/
def populated : TicosdQueue :=
  (run Sys.step (blank 12 (by decide) (by decide)) [.write (some [1]), .write (some [2])]).q

/-- After the reset a message of eight words takes the place of both. -/
theorem reset_forgets_long_message :
    ∃ j, Returns (run act (afterReset populated)
      [.op (.write (some (List.replicate 20 3)))]) true j :=
  (reset_forgets populated (by decide +kernel) [.op (.write (some (List.replicate 20 3)))]
    ⟨show WriteOk (some (List.replicate 20 3)) by decide +kernel, trivial⟩).1 true
    (List.replicate 20 3) (by decide +kernel)
    (by decide +kernel)

/-- A short message after the reset ends where an old one begins.  Once it is read,
    the pointers are equal, the old header is valid and unread, and the old
    message is returned. -/
theorem old_message_returned_after_reset :
    (ticosdQueueReadHead (run act (afterReset populated) [.op (.write (some [3])),
      .op (.readHead true), .op .completeRead]).q true).val.1 = some [2] ∧
    (run act (afterReset populated) [.op (.write (some [3])),
      .op (.readHead true), .op .completeRead]).log.map Entry.payload = [[3]] :=
  ⟨by decide +kernel, by decide +kernel⟩

end QueueReset
