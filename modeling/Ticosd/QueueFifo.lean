import Ticosd.QueueReset
import Ticosd.QueuePowerCut
import Ticosd.LossyFifo

/-! # The queue is a first-in first-out store

    `LossyFifo` says what the two threads may expect of the queue; here the operations of
    `queue.c`, and restarts of the daemon on the buffer they leave behind, are shown to
    meet it.  What waits in the store is the unread part of the history, oldest first;
    the first item has been handed out while `can_complete_read` is set.

    The conditions on the steps (`FifoOk`) are on the state before them:

    * a write leaves no unread message behind the reader, unless it runs over all of
      them, and does not come at a full queue, or to index 0, while the message there is
      handed out;
    * a head is asked for when the pointers, if they are equal, are so for a reason, and
      the head of a full queue is strictly inside the buffer;
    * a read is completed when no old end marker stands behind it;
    * a restart finds its way (`RestartOk`). -/

namespace QueueFifo

open ByteStore QueueModel QueueView QueueRing QueueOverwrite QueueRun QueueScan QueueDelivery
  QueueRestart QueueReset QueuePowerCut Tiling GuardedRun Simulation LossyFifo

variable {s : Sys} {passed : List Cell} {pend : List Entry} {p : List UInt8} {n : Nat} {m : Mem}

/-! ## The store that the queue is -/

/-- The unread messages, and whether the first has been handed out. -/
def fifoOf (s : Sys) : Fifo (List UInt8) where
  waiting := (unread s).map Entry.payload
  offered := s.q.canCompleteRead

/-- What the threads see of an action. -/
def label (s : Sys) : QueueReset.Act → LossyFifo.Act (List UInt8)
  | .op (.write payload) =>
      match payload, (ticosdQueueWrite s.q payload).val.1 with
      | some p, true => .put p ((unread s).length + 1 - (unread (s.write payload)).length)
      | _, _ => .refuse
  | .op (.readHead malloc) => .get malloc (ticosdQueueReadHead s.q malloc).val.1
  | .op .completeRead => .take (ticosdQueueCompleteRead s.q).val.1
  | .restart => .reopen

/-- While a message is handed out, a write does not come at equal pointers, and does not
    go to index 0 if that message is there. -/
def SparesOffered (q : TicosdQueue) (payload : Option (List UInt8)) : Prop :=
  ∀ p, payload = some p → Accepts q p.length → q.canCompleteRead = true →
    q.readPtr ≠ q.writePtr ∧ ¬ (q.readPtr = 0 ∧ Wraps q p.length)

/-- The condition on each action. -/
def FifoOk (s : Sys) : QueueReset.Act → Prop
  | .op (.write payload) => KeepsOrder s (.write payload) ∧ SparesOffered s.q payload
  | .op (.readHead _) => HeadOk s.q ∧ (unread s ≠ [] → FullOk s.q)
  | .op .completeRead => s.q.canCompleteRead = true → CompleteOk s.q
  | .restart => RestartOk s.q (unread s)

instance (q : TicosdQueue) : (payload : Option (List UInt8)) →
    Decidable (SparesOffered q payload)
  | none => isTrue (fun _ h => nomatch h)
  | some p => decidable_of_iff (Accepts q p.length → q.canCompleteRead = true →
      q.readPtr ≠ q.writePtr ∧ ¬ (q.readPtr = 0 ∧ Wraps q p.length))
      ⟨fun h _ hp => Option.some.inj hp ▸ h, fun h => h p rfl⟩

instance (q : TicosdQueue) (pend : List Entry) : Decidable (RestartOk q pend) :=
  @decidable_of_iff _ (_ ∧ _ ∧ _ ∧ _ ∧ _)
    ⟨fun ⟨h1, h2, h3, h4, h5⟩ => ⟨h1, h2, h3, h4, h5⟩,
      fun h => ⟨h.strict, h.at_write, h.no_marker, h.link, h.stale⟩⟩
    (@instDecidableAnd _ _ inferInstance (@instDecidableAnd _ _ inferInstance
      (@instDecidableAnd _ _ inferInstance (@instDecidableAnd _ _ inferInstance
        inferInstance))))

instance (s : Sys) : (a : QueueReset.Act) → Decidable (FifoOk s a)
  | .op (.write payload) =>
      inferInstanceAs (Decidable (KeepsOrder s (.write payload) ∧ SparesOffered s.q payload))
  | .op (.readHead _) =>
      inferInstanceAs (Decidable (HeadOk s.q ∧ (unread s ≠ [] → FullOk s.q)))
  | .op .completeRead => inferInstanceAs (Decidable (_ → CompleteOk s.q))
  | .restart => inferInstanceAs (Decidable (RestartOk s.q (unread s)))

/-! ## Writing -/

/-- After a write the unread messages are a suffix of what they were, and the new one. -/
theorem unread_write (h : Regular s passed (unread s)) (hlen : p.length + 3 < 2 ^ 32)
    (hacc : Accepts s.q p.length)
    (hleft : ∀ e ∈ unread s, LeftBehind s.q p.length e.cell →
      ∀ d ∈ unread s, Touches s.q p.length d.cell) :
    ∃ passed' kept, Step s p passed (unread s) passed' kept ∧ kept <:+ unread s ∧
      unread (s.write (some p)) = kept ++ [newEntry s.q p] := by
  obtain ⟨passed', kept, hstep⟩ := h.inv.write hlen hacc
  have hsuffix : kept <:+ unread s := by
    by_cases hall : ∀ e ∈ unread s, ¬ LeftBehind s.q p.length e.cell
    · exact hstep.suffix hall
    · push Not at hall
      obtain ⟨e, he, hl⟩ := hall
      have hnil : kept = [] := List.eq_nil_iff_forall_not_mem.mpr
        (fun d hd => hstep.kept_intact d hd (hleft e he hl d (hstep.sublist.subset hd)))
      rw [hnil]
      exact List.nil_suffix
  have hnone : NoneLeftBehind s (some p) := by
    intro p' hp' _ e he hun hl
    obtain ⟨rfl⟩ : p = p' := Option.some.inj hp'
    exact hleft e (h.full e he hun) hl e (h.full e he hun)
  refine ⟨passed', kept, hstep, hsuffix, ?_⟩
  exact (pend_eq_filter hstep.inv (full_write h.inv h.full hlen hacc hnone hstep)).symm

/-- No two messages of a chain start at the same index. -/
theorem Inv.start_ne {e d : Entry} {es : List Entry} (h : Inv s passed (e :: es))
    (hd : d ∈ es) : d.start ≠ e.start := by
  have hpair := List.pairwise_cons.mp (h.apart.sublist h.sub)
  have hap := hpair.1 d hd (h.unread e List.mem_cons_self).1
    (h.unread d (List.mem_cons_of_mem _ hd)).1
  have hel := e.cell_lt
  have hdl := d.cell_lt
  simp only [Apart, Entry.cell_start] at hap hel hdl
  omega

/-- While a message is handed out, a write that spares it costs unread messages exactly if
    it runs over the one at the read pointer. -/
theorem overruns_iff_lost {passed' : List Cell} {kept : List Entry} (h : Inv s passed pend)
    (hstep : Step s p passed pend passed' kept) (hsuffix : kept <:+ pend)
    (hlen : p.length + 3 < 2 ^ 32) (hacc : Accepts s.q p.length)
    (hcan : s.q.canCompleteRead = true)
    (hspare : s.q.readPtr ≠ s.q.writePtr ∧ ¬ (s.q.readPtr = 0 ∧ Wraps s.q p.length)) :
    Overruns s.q p.length ↔ kept ≠ pend := by
  obtain ⟨e, rest, rfl⟩ := List.exists_cons_of_ne_nil (h.flag hcan)
  have hstart := h.head_start rfl
  have hel := e.cell_lt
  rw [Entry.cell_start, hstart] at hel
  constructor
  · rintro ⟨-, hlt, hend⟩ rfl
    refine hstep.kept_intact e List.mem_cons_self (Or.inl ⟨by omega, ?_⟩)
    rw [Entry.cell_start, hstart]
    exact hend
  · intro hne
    by_contra hno
    have hread : (s.write (some p)).q.readPtr = s.q.readPtr := by
      rw [Sys.write_taken hlen h.readPtr_small hacc]
      show newReadPtr s.q p.length = s.q.readPtr
      rw [newReadPtr, if_neg hspare.1, if_neg hno]
    -- the new chain begins where the old one did, so nothing of it is gone
    obtain ⟨pre, hpre⟩ := hsuffix
    cases kept with
    | nil =>
        have hnew := hstep.inv.head_start (show _ = newEntry s.q p :: [] from rfl)
        have hnew' : startOf s.q p.length = s.q.readPtr := hnew.trans hread
        by_cases hw : Wraps s.q p.length
        · rw [startOf_wraps s.q _ hw] at hnew'
          exact hspare.2 ⟨hnew'.symm, hw⟩
        · rw [startOf_stays s.q _ hw] at hnew'
          exact hspare.1 hnew'.symm
    | cons d ds =>
        have hd := hstep.inv.head_start (show _ = d :: (ds ++ [newEntry s.q p]) from rfl)
        cases pre with
        | nil => exact hne hpre
        | cons x xs =>
            obtain ⟨rfl, hrest⟩ := List.cons_eq_cons.mp hpre
            refine Inv.start_ne h (d := d) ?_ (by rw [hd, hread, hstart])
            rw [← hrest]
            exact List.mem_append_right _ List.mem_cons_self

/-- **A write** puts its payload, or is refused. -/
theorem write_step {payload : Option (List UInt8)} (h : Chained s)
    (hok : FifoOk s (.op (.write payload))) :
    LossyFifo.Step (fifoOf s) (label s (.op (.write payload))) (fifoOf (s.write payload)) := by
  obtain ⟨passed, h⟩ := h
  cases payload with
  | none => exact .refuse _
  | some p =>
      obtain ⟨⟨hlen, hleft⟩, hspare⟩ := hok
      have hlen := hlen p rfl
      have hr := h.inv.readPtr_small
      by_cases hacc : Accepts s.q p.length
      · obtain ⟨passed', kept, hstep, hsuffix, hunread⟩ :=
          unread_write h hlen hacc (hleft p rfl hacc)
        have hval : (ticosdQueueWrite s.q (some p)).val = (true, afterWrite s.q p) := by
          rw [write_val s.q p hlen hr, if_pos hacc]
        have hcount : kept.length ≤ (unread s).length := hsuffix.sublist.length_le
        -- what is kept is what is left when the lost ones are dropped
        obtain ⟨pre, hpre⟩ := hsuffix
        have hpl : pre.length = (unread s).length - kept.length := by
          rw [← hpre, List.length_append, Nat.add_sub_cancel]
        have hlost : (unread s).length + 1 - (unread (s.write (some p))).length = pre.length := by
          rw [hunread, List.length_append, List.length_singleton, Nat.add_sub_add_right, hpl]
        have hdrop : (unread s).drop pre.length = kept := by
          rw [← hpre, List.drop_left]
        have hflag : (s.write (some p)).q.canCompleteRead
            = (s.q.canCompleteRead && decide (pre.length = 0)) := by
          rw [Sys.write_taken hlen hr hacc]
          show (if Overruns s.q p.length then false else s.q.canCompleteRead) = _
          cases hcan : s.q.canCompleteRead with
          | false => rw [ite_self, Bool.false_and]
          | true =>
              have hiff := overruns_iff_lost h.inv hstep ⟨pre, hpre⟩ hlen hacc hcan
                (hspare p rfl hacc hcan)
              have hsame : kept ≠ unread s ↔ pre.length ≠ 0 := by
                rw [← hpre]
                simp
              by_cases hov : Overruns s.q p.length
              · rw [if_pos hov, decide_eq_false (hsame.mp (hiff.mp hov)), Bool.and_false]
              · rw [if_neg hov, decide_eq_true, Bool.and_true]
                by_contra hne
                exact hov (hiff.mpr (hsame.mpr hne))
        have hgoal := LossyFifo.Step.put ((unread s).map Entry.payload) s.q.canCompleteRead p
          pre.length
        rw [← List.map_drop, hdrop, ← hflag] at hgoal
        simp only [label, hval, hlost]
        refine cast ?_ hgoal
        rw [fifoOf, fifoOf, hunread, List.map_append]
        rfl
      · have hval : (ticosdQueueWrite s.q (some p)).val = (false, s.q) := by
          rw [write_val s.q p hlen hr, if_neg hacc]
        rw [Sys.write_refused hlen hr hacc]
        simp only [label, hval]
        exact .refuse _

/-! ## Reading -/

/-- **A read** hands out the first message, if there is room for a copy. -/
theorem readHead_step {malloc : Bool} (h : Chained s)
    (hok : FifoOk s (.op (.readHead malloc))) :
    LossyFifo.Step (fifoOf s) (label s (.op (.readHead malloc)))
      (fifoOf (s.step (.readHead malloc))) := by
  obtain ⟨passed, h⟩ := h
  obtain ⟨hhead, hfull⟩ := hok
  have hinv := h.inv
  cases hpend : unread s with
  | nil =>
      rw [hpend] at hinv
      have hval := hinv.readHead_nil hhead malloc
      have hsame : s.step (.readHead malloc) = s := by simp only [Sys.step, hval]
      rw [hsame]
      simp only [label, hval]
      cases malloc with
      | false => exact .noRoom _
      | true =>
          have hget := LossyFifo.Step.get ([] : List (List UInt8)) s.q.canCompleteRead
          rw [fifoOf, hpend]
          simpa using hget
  | cons e rest =>
      rw [hpend] at hinv
      have hval := hinv.readHead_cons malloc
      rw [not_caughtUp hinv (hfull (by rw [hpend]; simp))] at hval
      cases malloc with
      | false =>
          rw [if_pos (Or.inr rfl)] at hval
          have hsame : s.step (.readHead false) = s := by simp only [Sys.step, hval]
          rw [hsame]
          simp only [label, hval]
          exact .noRoom _
      | true =>
          rw [if_neg (by simp)] at hval
          have hget := LossyFifo.Step.get (e.payload :: rest.map Entry.payload)
            s.q.canCompleteRead
          simp only [label, hval, Sys.step, fifoOf, unread]
          rw [show s.log.filter (fun e => decide e.Unread) = e :: rest from hpend]
          simpa using hget

/-- **Completing** takes the message that was handed out. -/
theorem completeRead_step (h : Chained s) (hok : FifoOk s (.op .completeRead)) :
    LossyFifo.Step (fifoOf s) (label s (.op .completeRead)) (fifoOf s.completeRead) := by
  obtain ⟨passed, h⟩ := h
  have hr := h.inv.readPtr_small
  have hval := completeRead_val s.q hr
  cases hcan : s.q.canCompleteRead with
  | false =>
      rw [if_pos hcan] at hval
      rw [Sys.completeRead_refused hr hcan]
      simp only [label, hval, fifoOf, hcan]
      exact .takeRefused _
  | true =>
      rw [if_neg (by rw [hcan]; simp)] at hval
      cases hpend : unread s with
      | nil => exact absurd hpend (h.inv.flag hcan)
      | cons e rest =>
          rw [hpend] at h
          obtain ⟨passed', h'⟩ := h.complete (hok hcan) hcan
          have hunread : unread s.completeRead = rest :=
            (pend_eq_filter h'.inv h'.full).symm
          have hflag : s.completeRead.q.canCompleteRead = false := by
            rw [Sys.completeRead_taken hr hcan]
            rfl
          simp only [label, hval, fifoOf, hpend, hcan, hunread, hflag, List.map_cons]
          exact .take _ _

/-! ## Restarting -/

/-- Cells in memory that lie end to end are determined by where they begin and end. -/
theorem tiles_unique {a b : Nat} {cs ds : List Cell} (hc : Tiles a cs b) (hd : Tiles a ds b)
    (hcm : ∀ c ∈ cs, InMem n m c) (hdm : ∀ d ∈ ds, InMem n m d) : cs = ds := by
  induction cs generalizing a ds with
  | nil =>
      by_contra hne
      have hlt := hd.lt_of_ne_nil (fun h => hne h.symm)
      rw [tiles_nil] at hc
      omega
  | cons c cs ih =>
      cases ds with
      | nil =>
          have hlt := hc.lt_of_ne_nil (by simp)
          rw [tiles_nil] at hd
          omega
      | cons d ds =>
          have hstart : c.start = d.start := hc.head_start.trans hd.head_start.symm
          have hstop : c.stop = d.stop := by
            rw [← (hcm c List.mem_cons_self).stop_eq, ← (hdm d List.mem_cons_self).stop_eq, hstart]
          have heq : c = d := by
            cases c
            cases d
            simp_all
          subst heq
          rw [ih hc.2.2 hd.2.2 (fun x hx => hcm x (List.mem_cons_of_mem _ hx))
            (fun x hx => hdm x (List.mem_cons_of_mem _ hx))]

/-- What lies behind the reader is given by the reader and the chain. -/
theorem ring_passed {r w w' : Nat} {before before' : List Cell} {c : Cell} {cs : List Cell}
    (h : Ring n m r w before (c :: cs)) (h' : Ring n m r w' before' (c :: cs)) :
    before' = [] ∨ before' = before := by
  -- without a lap in the chain the passed cells tile what is in front of the reader
  have hside : ∀ {w before}, Ring n m r w before (c :: cs) →
      Tiles 0 before r ∨ (before = [] ∧ ∃ d ∈ c :: cs, d.start = 0 ∧ 0 < r) := by
    intro w before h
    rcases h with hs | ⟨tail, lap, heq, hw⟩
    · exact Or.inl hs.before
    · by_cases hlap : lap = []
      · exact Or.inl (hw.before hlap)
      · obtain ⟨d, ds, rfl⟩ := List.exists_cons_of_ne_nil hlap
        have hpos := hw.tiles.lt_of_ne_nil hlap
        have hle := hw.le
        refine Or.inr ⟨hw.passed_nil hlap, d, ?_, hw.tiles.head_start, by omega⟩
        rw [heq]
        exact List.mem_append_right _ List.mem_cons_self
  rcases hside h' with ht' | ⟨hnil, -⟩
  · rcases hside h with ht | ⟨hnil, d, hd, hd0, hpos⟩
    · exact Or.inr (tiles_unique ht' ht (fun x hx => h'.mem x (List.mem_append_left _ hx))
        (fun x hx => h.mem x (List.mem_append_left _ hx)))
    · -- the chain has a cell at index 0, so it cannot run straight from the reader
      refine Or.inl ?_
      rcases h' with hs | ⟨tail, lap, heq, hw⟩
      · have hb := (hs.tiles.bounds hd).1
        rw [start_cell, hd0] at hb
        omega
      · by_cases hlap : lap = []
        · obtain ⟨e, ht, -⟩ := hw.ends
          rw [hlap, List.append_nil] at heq
          rw [← heq] at ht
          have hb := (ht.bounds hd).1
          rw [start_cell, hd0] at hb
          omega
        · exact hw.passed_nil hlap
  · exact Or.inl hnil

/-- **The restart of a regular queue is regular**, and nothing is handed out. -/
theorem Regular.reopen (h : Regular s passed pend) (hok : RestartOk s.q pend) :
    ∃ q' passed', (ticosdQueueInit s.q.size s.q.buf).val = some q' ∧
      q'.canCompleteRead = false ∧ Regular ⟨q', s.log⟩ passed' pend := by
  obtain ⟨q', passed', hinit, hsize, hbuf, hready⟩ := h.restart hok
  have hring := hready.inv.ring
  obtain ⟨_, w, p, r, hscan, hwalk, hq⟩ := queueInit_some hinit
  refine ⟨q', passed', hinit, by rw [hq]; rfl, hready.inv, h.full, ?_, h.linked⟩
  show Marked q'.size.words q'.buf true passed'
  have hring' : Ring q'.size.words q'.buf q'.readPtr q'.writePtr passed'
      (pend.map Entry.cell) := hring
  rw [hsize, hbuf] at hring' ⊢
  cases pend with
  | nil =>
      -- the scan has come over read messages, up to where it stopped
      obtain ⟨hrw, ht, -⟩ := ring_nil hring'
      have hpos : 0 < s.q.size.words := by have := s.q.size.four_le_words; omega
      obtain ⟨cs, x, hm, hcs, hres⟩ := scan_stale _ 0 0 0 (hok.stale rfl) hpos
      have hread : q'.readPtr = x ∨ q'.readPtr = 0 := by
        rw [hq]
        show r = x ∨ r = 0
        rcases hres with ⟨hx, -⟩ | ⟨hx, -⟩
        · rw [hscan] at hx
          obtain ⟨rfl, rfl, -⟩ := Prod.mk.inj (Option.some.inj hx) |>.imp id Prod.mk.inj
          rw [wrapped, if_neg (fun hc => hc.2 hc.1)] at hwalk
          exact Or.inl (Option.some.inj hwalk).symm
        · rw [hscan] at hx
          obtain ⟨rfl, rfl, -⟩ := Prod.mk.inj (Option.some.inj hx) |>.imp id Prod.mk.inj
          rw [wrapped, if_neg (fun hc => hc.2 rfl)] at hwalk
          exact Or.inr (Option.some.inj hwalk).symm
      rcases hread with hx | hz
      · rw [hx] at ht
        rw [tiles_unique ht hcs (fun c hc => hring'.mem c (List.mem_append_left _ hc))
          (fun c hc => (hm c hc).1)]
        exact hm
      · rw [hz] at ht
        have hnil : passed' = [] := by
          by_contra hne
          exact absurd (ht.lt_of_ne_nil hne) (Nat.lt_irrefl 0)
        rw [hnil]
        exact fun c hc => absurd hc List.not_mem_nil
  | cons e rest =>
      -- the read pointer is where it was
      have hr : q'.readPtr = s.q.readPtr := by
        rw [← h.inv.head_start rfl]
        exact (hready.inv.head_start rfl).symm
      rw [hr] at hring'
      rcases ring_passed h.inv.ring hring' with hnil | heq
      · rw [hnil]
        exact fun c hc => absurd hc List.not_mem_nil
      · rw [heq]
        exact h.behind

/-- **A restart** finds what waits, and forgets that it was handed out. -/
theorem restart_step (h : Chained s) (hok : FifoOk s .restart) :
    Chained (act s .restart) ∧
      LossyFifo.Step (fifoOf s) (label s .restart) (fifoOf (act s .restart)) := by
  obtain ⟨passed, h⟩ := h
  obtain ⟨q', passed', hinit, hcan, h'⟩ := Regular.reopen h hok
  have hact : act s .restart = ⟨q', s.log⟩ := by simp only [act, hinit]
  rw [hact]
  refine ⟨chained_of_regular h', ?_⟩
  have hgoal := LossyFifo.Step.reopen ((unread s).map Entry.payload) s.q.canCompleteRead
  rw [← hcan] at hgoal
  exact hgoal

/-! ## Every run -/

/-- **One action** of the queue is one step of the store. -/
theorem act_step (s : Sys) (a : QueueReset.Act) (h : Chained s) (hok : FifoOk s a) :
    Chained (act s a) ∧ LossyFifo.Step (fifoOf s) (label s a) (fifoOf (act s a)) := by
  cases a with
  | op a =>
      cases a with
      | write payload => exact ⟨chained_step h hok.1, write_step h hok⟩
      | readHead malloc =>
          exact ⟨chained_step (a := .readHead malloc) h hok.1, readHead_step h hok⟩
      | completeRead =>
          exact ⟨chained_step (a := .completeRead) h hok, completeRead_step h hok⟩
  | restart => exact restart_step h hok

/-- What the threads see along a run. -/
def seen (s : Sys) (acts : List QueueReset.Act) : List (LossyFifo.Act (List UInt8)) :=
  shown act label s acts

/-- **The queue refines the store**: every run of writes, reads, completions and restarts
    on an empty buffer, whose steps meet the conditions, is a run of the store, and what
    waits in the store at its end are the unread messages of the queue. -/
theorem queue_refines_fifo {size : QueueSize} {file : Mem} (hblank : Blank size file)
    (acts : List QueueReset.Act) (hok : Along act FifoOk (fresh size file) acts) :
    Trace LossyFifo.Step ⟨[], false⟩ (seen (fresh size file) acts)
      (fifoOf (run act (fresh size file) acts)) :=
  simulate_abs act_step (chained_of_regular (regular_fresh hblank)) hok

/-- Two messages wait when the daemon starts again; one of them is sent, and two more are
    written, the second at index 0. -/
def restartedRun : List QueueReset.Act :=
  [.op (.write (some [1])), .op (.write (some [2])), .op (.readHead true), .op .completeRead,
    .restart, .op (.readHead true), .op (.write (some [3])), .op .completeRead,
    .op (.write (some [4])), .op (.readHead true)]

/-- What the threads see of it. -/
def restartedSeen : List (LossyFifo.Act (List UInt8)) :=
  [.put [1] 0, .put [2] 0, .get true (some [1]), .take true, .reopen, .get true (some [2]),
    .put [3] 0, .take true, .put [4] 0, .get true (some [3])]

theorem queue_refines_fifo_restarted :
    Trace LossyFifo.Step ⟨[], false⟩ restartedSeen ⟨[[3], [4]], true⟩ := by
  have h := @queue_refines_fifo (.ofWords 12 (by decide) (by decide)) (fun _ => 0)
    (fun _ _ => rfl) restartedRun (by decide +kernel)
  have hseen : seen (fresh (.ofWords 12 (by decide) (by decide)) fun _ => 0) restartedRun
      = restartedSeen := by decide +kernel
  have hend : fifoOf (run act (fresh (.ofWords 12 (by decide) (by decide)) fun _ => 0)
      restartedRun) = ⟨[[3], [4]], true⟩ := by decide +kernel
  rw [hseen, hend] at h
  exact h

/-- The payloads that have been acknowledged: at each `ticosd_queue_complete_read` that
    returns true, what `ticosd_queue_read_head` returned last. -/
def acknowledged (s : Sys) (acts : List QueueReset.Act) : List (List UInt8) :=
  taken none (seen s acts)

/-- The payloads that `ticosd_queue_write` has accepted. -/
def accepted (s : Sys) (acts : List QueueReset.Act) : List (List UInt8) := puts (seen s acts)

/-- **In order, and at most once**: what has been acknowledged, followed by what waits, is
    part of what was accepted, whatever the order of writes, reads, completions and
    restarts. -/
theorem acknowledged_sublist_accepted {size : QueueSize} {file : Mem}
    (hblank : Blank size file) (acts : List QueueReset.Act)
    (hok : Along act FifoOk (fresh size file) acts) :
    (acknowledged (fresh size file) acts
        ++ (unread (run act (fresh size file) acts)).map Entry.payload).Sublist
      (accepted (fresh size file) acts) :=
  taken_sublist (simulate_abs act_step (chained_of_regular (regular_fresh hblank)) hok)
    (held_closed [] none)

/-- Two messages are sent, two wait. -/
theorem acknowledged_sublist_accepted_restarted :
    ([[1], [2], [3], [4]] : List (List UInt8)).Sublist
      (accepted (blank 12 (by decide) (by decide)) restartedRun) := by
  have h := @acknowledged_sublist_accepted (.ofWords 12 (by decide) (by decide)) (fun _ => 0)
    (fun _ _ => rfl) restartedRun (by decide +kernel)
  have hack : acknowledged (fresh (.ofWords 12 (by decide) (by decide)) fun _ => 0)
      restartedRun = [[1], [2]] := by decide +kernel
  have hwait : (unread (run act (fresh (.ofWords 12 (by decide) (by decide)) fun _ => 0)
      restartedRun)).map Entry.payload = [[3], [4]] := by decide +kernel
  rw [hack, hwait] at h
  exact h

end QueueFifo
