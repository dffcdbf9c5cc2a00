import Ticosd.QueueScan
import Ticosd.QueueDelivery

/-! # Restart — the pointers come back

    After a restart nothing is left but the file.  `Regular` is the shape of the
    buffer in which the search of `QueueScan` can find its way: read messages in
    front of the reader, a linked chain of unread ones from there on.
    `RestartOk` lists what the search needs of the words around the chain, and
    the code does not make sure of.  Under both, `restart` gives back a queue
    that is `Ready`: draining it delivers the chain, message by message. -/

namespace QueueRestart

open ByteStore QueueModel QueueView QueueRing QueueOverwrite QueueRun QueueScan QueueDelivery
  Tiling GuardedRun

variable {s : Sys} {passed : List Cell} {pend : List Entry} {n : Nat} {m : Mem}

/-! ## Draining -/

/-- `ticosd_queue_read_head` and `ticosd_queue_complete_read` in turn until there
    is no head any more: the payloads, or `none` if `fuel` rounds do not do. -/
def drain : Nat → TicosdQueue → Option (List (List UInt8))
  | 0, _ => none
  | fuel + 1, q =>
      match (ticosdQueueReadHead q true).val with
      | (none, _) => some []
      | (some p, q') => (drain fuel (ticosdQueueCompleteRead q').val.2).map (p :: ·)

/-- The memory once the messages at the indices are marked as read. -/
def markAll (m : Mem) (is : List Nat) : Mem := is.foldl markRead m

theorem readAt_markRead_mono (m : Mem) {i j : Nat} (h : readAt m i = true) :
    readAt (markRead m j) i = true := by
  by_cases hij : i = j
  · rw [hij]
    exact readAt_markRead_self m j
  · rw [readAt, markRead_other m (by omega)]
    exact h

/-- Marking never clears a flag. -/
theorem readAt_markAll_mono {i : Nat} (is : List Nat) (h : readAt m i = true) :
    readAt (markAll m is) i = true := by
  induction is generalizing m with
  | nil => exact h
  | cons j is ih => exact ih (readAt_markRead_mono m h)

theorem readAt_markAll_mem {i : Nat} {is : List Nat} (h : i ∈ is) :
    readAt (markAll m is) i = true := by
  induction is generalizing m with
  | nil => exact nomatch h
  | cons j is ih =>
      rcases List.mem_cons.mp h with heq | hmem
      · subst heq
        exact readAt_markAll_mono is (readAt_markRead_self m i)
      · exact ih hmem

/-- Draining this system delivers its chain. -/
structure Ready (s : Sys) (passed : List Cell) (pend : List Entry) : Prop where
  inv : Inv s passed pend
  strict : ∀ e ∈ pend, 4 * e.start + 12 + e.payload.length < 4 * s.q.size.words
  no_end : s.q.writePtr ≠ 0 → wordAt s.q.buf s.q.writePtr ≠ endPointer
  done : validAt s.q.size.words (markAll s.q.buf (pend.map Entry.start)) s.q.writePtr = true →
    readAt (markAll s.q.buf (pend.map Entry.start)) s.q.writePtr = true

/-- A chain that is inside the buffer is not stuck. -/
theorem Ready.fullOk (h : Ready s passed pend) (hne : pend ≠ []) : FullOk s.q := by
  intro _ _
  cases pend with
  | nil => exact absurd rfl hne
  | cons e rest =>
      have hun := h.inv.unread e List.mem_cons_self
      have hst := h.inv.stored e (h.inv.pend_mem List.mem_cons_self) hun.1
      have hb := h.strict e List.mem_cons_self
      rw [← h.inv.head_start rfl, hst.holds.size, s.q.size.bytes_eq]
      exact hb

/-- The head of the message at the read pointer ends before a marker. -/
theorem Ready.completeOk (h : Ready s passed pend) : CompleteOk s.q := by
  intro hstop
  refine h.no_end ?_
  have := lt_stopAt s.q.buf s.q.readPtr
  omega

/-- Nothing is returned once the chain is empty. -/
theorem Ready.readHead_nil (h : Ready s passed []) :
    (ticosdQueueReadHead s.q true).val = (none, s.q) := by
  have hrw := (ring_nil h.inv.ring).1
  rw [readHead_val, if_pos (Or.inl ?_)]
  rw [caughtUp, decide_eq_true hrw, Bool.true_and]
  cases hv : validAt s.q.size.words s.q.buf s.q.readPtr with
  | false => rfl
  | true =>
      have hread := h.done (by rw [hrw] at hv; exact hv)
      rw [hrw]
      simp only [Bool.not_true, Bool.false_or]
      exact hread

/-- One message out, the rest of the chain remains. -/
theorem Ready.next {e : Entry} {rest : List Entry} (h : Ready s passed (e :: rest)) :
    ∃ passed', Ready (Sys.completeRead ⟨{ s.q with canCompleteRead := true }, s.log⟩)
      passed' rest := by
  have hflag := h.inv.setFlag (by simp)
  obtain ⟨passed', hinv, -⟩ := Inv.complete hflag h.completeOk rfl
  have hval := Sys.completeRead_taken hflag.readPtr_small rfl
  refine ⟨passed', hinv, ?_, ?_, ?_⟩
  · intro d hd
    rw [hval]
    exact h.strict d (List.mem_cons_of_mem _ hd)
  · rw [hval]
    intro hw
    show wordAt (markRead s.q.buf s.q.readPtr) s.q.writePtr ≠ endPointer
    by_cases heq : s.q.readPtr = s.q.writePtr
    · rw [heq]
      exact wordAt_markRead_self _ _
    · rw [wordAt_congr (agreeOn_markRead _ (by omega))]
      exact h.no_end hw
  · rw [hval]
    have hdone := h.done
    rw [List.map_cons, h.inv.head_start rfl] at hdone
    exact hdone

/-- **Draining a ready system delivers its chain**, each message once and in
    order. -/
theorem Ready.drain : ∀ (pend : List Entry) (s : Sys) (passed : List Cell),
    Ready s passed pend → ∀ fuel, pend.length < fuel →
      drain fuel s.q = some (pend.map Entry.payload) := by
  intro pend
  induction pend with
  | nil =>
      intro s passed h fuel hfuel
      obtain ⟨fuel, rfl⟩ : ∃ f, fuel = f + 1 := ⟨fuel - 1, by omega⟩
      simp only [QueueRestart.drain, h.readHead_nil, List.map_nil]
  | cons e rest ih =>
      intro s passed h fuel hfuel
      obtain ⟨fuel, rfl⟩ : ∃ f, fuel = f + 1 := ⟨fuel - 1, by omega⟩
      rw [List.length_cons] at hfuel
      have hhead : (ticosdQueueReadHead s.q true).val
          = (some e.payload, { s.q with canCompleteRead := true }) := by
        rw [h.inv.readHead_cons true, not_caughtUp h.inv (h.fullOk (by simp)),
          if_neg (by simp)]
      obtain ⟨passed', hnext⟩ := h.next
      have hq : (Sys.completeRead ⟨{ s.q with canCompleteRead := true }, s.log⟩).q
          = (ticosdQueueCompleteRead { s.q with canCompleteRead := true }).val.2 := by
        simp only [Sys.completeRead]
        split <;> rfl
      simp only [QueueRestart.drain, hhead]
      rw [← hq, ih _ passed' hnext fuel (by omega)]
      rfl

/-! ## Regular states -/

/-- Read messages behind the reader, and in front of it every unread message of
    the history, each one linked to the one before it. -/
structure Regular (s : Sys) (passed : List Cell) (pend : List Entry) : Prop where
  inv : Inv s passed pend
  full : Full s pend
  behind : Marked s.q.size.words s.q.buf true passed
  linked : pend.IsChain (fun d e => e.link = d.start)

/-- Some unread message has been overwritten. -/
def Lost (s : Sys) : Prop := ∃ e ∈ s.log, e.overwritten = true ∧ e.completed = false

/-- A cell behind the reader ends before it. -/
theorem ring_passed_le {r w : Nat} {pending : List Cell}
    (h : Ring n m r w passed pending) {c : Cell} (hc : c ∈ passed) : c.stop ≤ r := by
  rcases h with h | ⟨tail, lap, -, h⟩
  · exact (h.before.bounds hc).2.2
  · by_cases hl : lap = []
    · exact ((h.before hl).bounds hc).2.2
    · rw [h.passed_nil hl] at hc
      exact nomatch hc

/-- A cell that ends inside the buffer is valid when its header is a message's. -/
theorem valid_of_stop_lt {e : Entry} (h : Stored s.q e)
    (hlt : e.cell.stop < s.q.size.words) :
    validAt s.q.size.words s.q.buf e.start = true := by
  rw [h.holds.valid_iff]
  have := words_spec h.len
  simp only [Entry.cell_stop, msgWords, headerLen] at hlt
  omega

/-- A write that leaves an unread message behind runs over another one. -/
theorem leftBehind_touches {p : List UInt8} (h : Inv s passed pend)
    (hacc : Accepts s.q p.length) (hlen : p.length + 3 < 2 ^ 32) {e : Entry}
    (he : e ∈ pend) (hleft : LeftBehind s.q p.length e.cell) :
    ∃ d ∈ pend, Touches s.q p.length d.cell := by
  have hM := three_lt_msgWords p.length hacc.1 hlen
  cases pend with
  | nil => exact nomatch he
  | cons d rest =>
      have hd := h.head_start rfl
      have hdl := d.cell_lt
      rw [Entry.cell_start, hd] at hdl
      rcases hleft with heq | ⟨hw, hr | ⟨hlt, hbelow⟩⟩
      · -- equal pointers: the head itself
        refine ⟨d, List.mem_cons_self, ?_⟩
        by_cases hw : Wraps s.q p.length
        · exact Or.inr ⟨hw, by rw [Entry.cell_start, hd]; omega, by omega⟩
        · refine Or.inl ?_
          rw [startOf_stays s.q _ hw, Entry.cell_start, hd]
          omega
      · refine ⟨d, List.mem_cons_self, Or.inl ?_⟩
        rw [startOf_wraps s.q _ hw, Entry.cell_start, hd]
        omega
      · -- the first message of the lap that ends here
        have hring := h.ring
        rcases hring with hs | ⟨tail, lap, heq, hwr⟩
        · have hle := hs.tiles.le
          omega
        · obtain ⟨b, ht, -⟩ := hwr.ends
          have hmem : e.cell ∈ tail ++ lap := by
            rw [← heq]
            exact List.mem_map_of_mem he
          have hlap : e.cell ∈ lap := by
            rcases List.mem_append.mp hmem with hm | hm
            · have hb := (ht.bounds hm).1
              simp only [start_cell, Entry.cell_start] at hb hbelow
              omega
            · exact hm
          cases lap with
          | nil => exact nomatch hlap
          | cons c cs =>
              have hc : c ∈ (d :: rest).map Entry.cell := by
                rw [heq]
                simp
              obtain ⟨x, hx, hxc⟩ := List.mem_map.mp hc
              have hc0 : c.start = 0 := hwr.tiles.head_start
              have hcl := hwr.tiles.2.1
              simp only [start_cell, stop_cell] at hcl
              refine ⟨x, hx, Or.inl ?_⟩
              rw [startOf_wraps s.q _ hw, hxc]
              omega

/-- A suffix of a chain, with a message behind it that is linked to the last one
    of the chain, is a chain. -/
theorem isChain_suffix_concat {kept : List Entry} {e : Entry} (hsuf : kept <:+ pend)
    (h : pend.IsChain (fun d e => e.link = d.start))
    (hlast : ∀ d, pend.getLast? = some d → e.link = d.start) :
    (kept ++ [e]).IsChain (fun d e => e.link = d.start) := by
  rw [List.isChain_append]
  refine ⟨h.suffix hsuf, List.isChain_singleton _, ?_⟩
  intro d hd x hx
  obtain ⟨rfl⟩ : e = x := Option.some.inj hx
  obtain ⟨pre, rfl⟩ := hsuf
  refine hlast d ?_
  rw [List.getLast?_append, hd]
  rfl

/-- A regular state stays regular under a write that leaves no unread message
    behind the reader, or runs over all of them. -/
theorem Regular.write {p : List UInt8} (h : Regular s passed pend)
    (hlen : p.length + 3 < 2 ^ 32) (hacc : Accepts s.q p.length)
    (hleft : ∀ e ∈ pend, LeftBehind s.q p.length e.cell →
      ∀ d ∈ pend, Touches s.q p.length d.cell) :
    ∃ passed' kept, Regular (s.write (some p)) passed' (kept ++ [newEntry s.q p]) := by
  obtain ⟨passed', kept, hstep⟩ := h.inv.write hlen hacc
  have hsuf : kept <:+ pend := by
    by_cases hall : ∀ e ∈ pend, ¬ LeftBehind s.q p.length e.cell
    · exact hstep.suffix hall
    · push Not at hall
      obtain ⟨e, he, hl⟩ := hall
      have hnil : kept = [] := List.eq_nil_iff_forall_not_mem.mpr
        (fun d hd => hstep.kept_intact d hd (hleft e he hl d (hstep.sublist.subset hd)))
      rw [hnil]
      exact List.nil_suffix
  refine ⟨passed', kept, hstep.inv, full_write h.inv h.full hlen hacc ?_ hstep, ?_,
    isChain_suffix_concat hsuf h.linked (fun d hd => (h.inv.last hd).symm)⟩
  · intro p' hp' _ e he hun hl
    obtain ⟨rfl⟩ : p = p' := Option.some.inj hp'
    exact hleft e (h.full e he hun) hl e (h.full e he hun)
  · have hold : ∀ c ∈ passed', c ∈ passed := by
      intro c hc
      by_cases heq : s.q.readPtr = s.q.writePtr
      · -- the queue is empty, or the write runs over all of it
        obtain ⟨hin, hno⟩ := hstep.passed_intact c hc
        rcases List.mem_append.mp hin with hp | hp
        · exact hp
        · obtain ⟨e, he, rfl⟩ := List.mem_map.mp hp
          exact absurd (hleft e he (Or.inl heq) e he) hno
      · exact hstep.passed_old heq c hc
    have hmarked : Marked s.q.size.words s.q.buf true passed' := fun c hc => h.behind c (hold c hc)
    rw [Sys.write_taken hlen h.inv.readPtr_small hacc]
    exact hmarked.congr s.q.size.words_le
      (fun c hc => agreeOn_afterWrite hlen (hstep.passed_intact c hc).2)

/-- A regular state stays regular when the head is completed. -/
theorem Regular.complete {e : Entry} {rest : List Entry} (h : Regular s passed (e :: rest))
    (hok : CompleteOk s.q) (hcan : s.q.canCompleteRead = true) :
    ∃ passed', Regular s.completeRead passed' rest := by
  obtain ⟨passed', hinv, hsub⟩ := h.inv.complete hok hcan
  refine ⟨passed', hinv, full_complete h.inv h.full hcan, ?_, h.linked.tail⟩
  have hlog := Sys.completeRead_taken h.inv.readPtr_small hcan
  intro c hc
  have hmem := hinv.ring.mem c (List.mem_append_left _ hc)
  rcases hsub c hc with hold | rfl
  · rw [hlog]
    refine h.behind.congr s.q.size.words_le (fun d hd => ?_) c hold
    exact agreeOn_markRead _ (Or.inr (ring_passed_le h.inv.ring hd))
  · -- the message that was completed
    have hstart := h.inv.head_start rfl
    have hlt := hinv.shape.readPtr_lt
    have hle := ring_passed_le hinv.ring hc
    have hst := h.inv.stored e (h.inv.pend_mem List.mem_cons_self)
      (h.inv.unread e List.mem_cons_self).1
    have hsize : s.completeRead.q.size = s.q.size := by rw [hlog]; rfl
    rw [hsize] at hlt
    have hv := valid_of_stop_lt hst (by omega)
    refine ⟨hmem, ?_, ?_⟩
    · rw [hlog, Entry.cell_start, ← hv, hstart]
      exact validAt_markRead_self _ _ _
    · rw [hlog, Entry.cell_start, hstart]
      exact readAt_markRead_self _ _

/-! ## What the search needs -/

/-- From `i` on, valid headers are read ones until the scan stops. -/
def staleOk (n : Nat) (m : Mem) : Nat → Nat → Bool
  | 0, _ => false
  | fuel + 1, i =>
      if validAt n m i = false then true
      else if readAt m i = false then false
      else if nextAt n m i = 0 then true
      else staleOk n m fuel (nextAt n m i)

/-- The words around the chain do not lead the search astray.  The four parts are
    about the bounds check, the header at the write pointer, the end marker at
    the write pointer and the links behind the chain. -/
structure RestartOk (q : TicosdQueue) (pend : List Entry) : Prop where
  strict : ∀ e ∈ pend, 4 * e.start + 12 + e.payload.length < 4 * q.size.words
  at_write : pend ≠ [] → q.writePtr ≠ 0 → wordAt q.buf q.writePtr ≠ endPointer →
    (validAt q.size.words q.buf q.writePtr = true → readAt q.buf q.writePtr = true) ∧
    (validAt q.size.words (markAll q.buf (pend.map Entry.start)) q.writePtr = true →
      readAt (markAll q.buf (pend.map Entry.start)) q.writePtr = true)
  no_marker : pend ≠ [] → q.writePtr ≠ 0 → q.writePtr < q.readPtr →
    wordAt q.buf q.writePtr ≠ endPointer
  link : pend ≠ [] → q.writePtr ≠ 0 → wordAt q.buf q.writePtr ≠ endPointer →
    q.writePtr < q.readPtr ∨ q.readPtr = 0 →
    WalkStops q.size.words q.buf q.readPtr ∨
      (q.readPtr = 0 ∧ prevAt q.buf 0 ∈ pend.map Entry.start)
  stale : pend = [] → staleOk q.size.words q.buf (q.size.words + 1) 0 = true

/-- A read header is no end marker. -/
theorem wordAt_ne_of_read {i : Nat} (h : readAt m i = true) : wordAt m i ≠ endPointer := by
  intro he
  have hb0 := (m (4 * i)).toNat_lt
  have hb1 := (m (4 * i + 1)).toNat_lt
  have hb2 := (m (4 * i + 2)).toNat_lt
  have hflag : m (4 * i + 3) = 0x5a := by
    refine UInt8.toNat_inj.mp ?_
    show _ = 90
    simp only [wordAt, Mem.load32, endPointer] at he
    omega
  rw [readAt, hflag] at h
  exact absurd h (by decide)

/-- A valid read header is a cell. -/
theorem marked_of_valid {i : Nat} (hv : validAt n m i = true) (hr : readAt m i = true) :
    InMem n m ⟨i, stopAt m i⟩ :=
  ⟨rfl, fun _ => wordAt_ne_of_read hr, Nat.le_of_lt (validAt_iff.mp hv).1⟩

/-- The scan over read headers ends at an invalid one, or wraps. -/
theorem scan_stale : ∀ (fuel i readPtr prevPtr : Nat), staleOk n m fuel i = true → i < n →
    ∃ cs x, Marked n m true cs ∧ Tiles i cs x ∧
      ((scan n m fuel i readPtr prevPtr true = some (x, x, lastStart prevPtr cs) ∧
          validAt n m x = false ∧ x < n ∧ (cs ≠ [] → wordAt m x ≠ endPointer)) ∨
        (scan n m fuel i readPtr prevPtr true = some (readPtr, 0, lastStart prevPtr cs) ∧
          cs ≠ [])) := by
  intro fuel
  induction fuel with
  | zero => intro i readPtr prevPtr h; cases h
  | succ fuel ih =>
      intro i readPtr prevPtr h hi
      rw [staleOk] at h
      cases hv : validAt n m i with
      | false =>
          refine ⟨[], i, (fun _ hc => absurd hc List.not_mem_nil), rfl,
            Or.inl ⟨?_, hv, hi, fun h => absurd rfl h⟩⟩
          rw [scan, if_pos hv]
          rfl
      | true =>
          rw [hv, if_neg (by simp)] at h
          cases hr : readAt m i with
          | false =>
              rw [hr, if_pos rfl] at h
              cases h
          | true =>
              rw [hr, if_neg (by simp)] at h
              have hcell := marked_of_valid hv hr
              have hlt := lt_stopAt m i
              by_cases hnext : nextAt n m i = 0
              · refine ⟨[⟨i, stopAt m i⟩], stopAt m i, ?_, ⟨rfl, hlt, rfl⟩, Or.inr ⟨?_, by simp⟩⟩
                · intro c hc
                  rw [List.mem_singleton.mp hc]
                  exact ⟨hcell, hv, hr⟩
                · rw [scan_end hv (fun _ => rfl) hnext, hr]
                  rfl
              · rw [if_neg hnext] at h
                obtain ⟨h3, h1, h2⟩ := nextAt_forward hnext
                rw [h3] at h
                obtain ⟨cs, x, hm, ht, hres⟩ := ih (stopAt m i) readPtr i h h1
                refine ⟨⟨i, stopAt m i⟩ :: cs, x, ?_, ⟨rfl, hlt, ht⟩, ?_⟩
                · intro c hc
                  rcases List.mem_cons.mp hc with heq | hmem
                  · rw [heq]
                    exact ⟨hcell, hv, hr⟩
                  · exact hm c hmem
                · rw [scan_step hv (fun _ => rfl) hnext, hr, h3, lastStart_cons]
                  rcases hres with ⟨h4, h5, h6, h7⟩ | ⟨h4, -⟩
                  · refine Or.inl ⟨h4, h5, h6, fun _ => ?_⟩
                    cases cs with
                    | nil => rw [← (ht : stopAt m i = x)]; exact h2
                    | cons d ds => exact h7 (by simp)
                  · exact Or.inr ⟨h4, by simp⟩

/-! ## The scan of a regular state -/

/-- The chain as the search sees it. -/
theorem chain_marked (h : Inv s passed pend)
    (hstrict : ∀ e ∈ pend, 4 * e.start + 12 + e.payload.length < 4 * s.q.size.words) :
    Marked s.q.size.words s.q.buf false (pend.map Entry.cell) := by
  intro c hc
  have hmem := h.ring.mem c (List.mem_append_right _ hc)
  obtain ⟨e, he, rfl⟩ := List.mem_map.mp hc
  have hun := h.unread e he
  have hst := (h.stored e (h.pend_mem he) hun.1).holds
  exact ⟨hmem, hst.valid_iff.mpr (hstrict e he), hst.flag.trans hun.2⟩

/-- The links as the search sees them. -/
theorem chain_linked (h : Inv s passed pend)
    (hlinked : pend.IsChain (fun d e => e.link = d.start)) :
    ∀ e rest, pend = e :: rest → Linked s.q.buf e.start (rest.map Entry.cell) := by
  have key : ∀ (l : List Entry), (∀ e ∈ l, prevAt s.q.buf e.start = e.link) →
      l.IsChain (fun d e => e.link = d.start) →
      ∀ e rest, l = e :: rest → Linked s.q.buf e.start (rest.map Entry.cell) := by
    intro l
    induction l with
    | nil => intro _ _ e rest heq; exact nomatch heq
    | cons d ds ih =>
        intro hlink hchain e rest heq
        obtain ⟨rfl, rfl⟩ := List.cons_eq_cons.mp heq
        cases ds with
        | nil => exact trivial
        | cons x xs =>
            have hcc := List.isChain_cons_cons.mp hchain
            refine ⟨?_, ih (fun e he => hlink e (List.mem_cons_of_mem _ he)) hcc.2 x xs rfl⟩
            rw [Entry.cell_start, hlink x (by simp), hcc.1]
  refine key pend ?_ hlinked
  intro e he
  exact (h.stored e (h.pend_mem he) (h.unread e he).1).holds.link

/-- Where the last message of the chain starts. -/
theorem lastStart_chain (h : Inv s passed pend) (hne : pend ≠ []) (d : Nat) :
    lastStart d (pend.map Entry.cell) = s.q.prevPtr := by
  have hlast := List.getLast?_eq_some_getLast hne
  rw [lastStart, List.getLast?_map, hlast]
  exact h.last hlast

/-- The scan over what lies behind the reader and the stretch from the reader to
    `b`. -/
theorem scan_regular {c : Cell} {cs : List Cell} {r b : Nat} (hn : n ≤ 2 ^ 28)
    (hb : Tiles 0 passed r) (hbm : Marked n m true passed) (ht : Tiles r (c :: cs) b)
    (hm : Marked n m false (c :: cs)) :
    ∃ k, scan n m (n + 1) 0 0 0 true =
      if n ≤ b ∨ wordAt m b = endPointer then some (r, 0, lastStart c.start cs)
      else scan n m (k + 1) b r (lastStart c.start cs) false := by
  have hc := (hm c List.mem_cons_self).1
  have hstart : c.start = r := ht.head_start
  have hbn : b ≤ n := by
    have hlast := ht.getLast_stop (by simp)
    rw [← hlast]
    exact (hm _ (List.getLast_mem _)).1.stop_le hn
  have hlen1 := tiles_length_le hb
  have hlen2 := tiles_length_le ht
  refine ⟨n - (c :: cs).length - passed.length, ?_⟩
  rw [← hstart] at ht
  cases passed with
  | nil =>
      have hr : (0 : Nat) = r := hb
      have hfuel : n + 1 = (n - (c :: cs).length - 0 + 1) + (c :: cs).length := by omega
      have hmark := scan_marked cs c (n - (c :: cs).length - 0 + 1) 0 0 true ht hm
        (fun h => nomatch h)
      rw [hstart, ← hr] at hmark
      rw [hfuel, hmark, if_pos (show false = false ∧ true = true from ⟨rfl, rfl⟩), hstart,
        ← hr]
      rfl
  | cons d ds =>
      have hd : d.start = 0 := hb.head_start
      have hpos : 0 < r := by
        have hl := hb.lt_of_ne_nil (by simp)
        exact hl
      have hnot : ¬ (n ≤ r ∨ wordAt m r = endPointer) := by
        have hno := hc.not_atEnd (by omega)
        rw [hstart] at hno
        exact hno
      have hfuel : n + 1 = (n - (c :: cs).length - (d :: ds).length + 1 + (c :: cs).length)
          + (d :: ds).length := by omega
      have h1 := scan_marked ds d (n - (c :: cs).length - (d :: ds).length + 1
        + (c :: cs).length) 0 0 true (by rw [hd]; exact hb) hbm (fun _ => rfl)
      rw [if_neg hnot, if_neg (by simp), hd] at h1
      have h2 := scan_marked cs c (n - (c :: cs).length - (d :: ds).length + 1) 0
        (lastStart 0 ds) true ht hm (fun h => nomatch h)
      rw [hstart] at h2
      rw [hfuel, h1, h2, if_pos (show false = false ∧ true = true from ⟨rfl, rfl⟩), hstart]

/-- At the write pointer the scan stops. -/
theorem scan_stops {k b r p : Nat}
    (h : validAt n m b = true → readAt m b = true) :
    scan n m (k + 1) b r p false = some (r, b, p) := by
  rw [scan]
  cases hv : validAt n m b with
  | false => rfl
  | true =>
      rw [if_neg (by simp), if_pos ⟨h hv, rfl⟩]

/-! ## The walk of a regular state -/

/-- Cells that lie end to end start one after the other. -/
theorem tiles_sorted {a b : Nat} {cs : List Cell} (h : Tiles a cs b) :
    cs.Pairwise (fun c d => c.start < d.start) := by
  induction cs generalizing a with
  | nil => exact List.Pairwise.nil
  | cons c cs ih =>
      obtain ⟨hs, hlt, hrest⟩ := h
      refine List.Pairwise.cons ?_ (ih hrest)
      intro d hd
      have := (hrest.bounds hd).1
      simp only [start_cell, stop_cell] at hlt this
      omega

/-- A link from index 0 into the chain that starts there leads back to index 0. -/
theorem walk_round {c : Cell} {cs : List Cell} {b : Nat} (ht : Tiles 0 (c :: cs) b)
    (hb : b ≤ n) (hm : Marked n m false (c :: cs)) (hl : Linked m c.start cs)
    (hin : ∃ d ∈ c :: cs, d.start = prevAt m 0) : walk n m (n + 1) 0 = some 0 := by
  have hc0 : c.start = 0 := ht.head_start
  obtain ⟨d, hd, hlink⟩ := hin
  rcases List.mem_cons.mp hd with heq | hmem
  · refine walk_stops (Or.inl ?_)
    rw [← hlink, heq, hc0]
  · obtain ⟨pre, post, rfl⟩ := List.append_of_mem hmem
    have hlen := tiles_length_le ht
    have hsorted := List.pairwise_cons.mp (tiles_sorted ht)
    -- the part of the chain up to the message the link points to
    have hsplit : pre ++ d :: post = (pre ++ [d]) ++ post := by simp
    rw [hsplit] at hl hm hsorted hlen
    have hl1 := linked_left hl
    have hlast : ∀ k, lastStart k (pre ++ [d]) = d.start := by
      intro k
      simp only [lastStart, List.getLast?_concat]
    obtain ⟨x, xs, hx⟩ := List.exists_cons_of_ne_nil (show pre ++ [d] ≠ [] by simp)
    rw [hx] at hl1 hl hm hsorted hlen hlast
    have hlast' := hlast 0
    rw [lastStart_cons] at hlast'
    have hmark : Marked n m false (x :: xs) := by
      intro y hy
      exact hm y (List.mem_cons_of_mem _ (List.mem_append_left _ hy))
    have hx0 : 0 < x.start := by
      have := hsorted.1 x (by simp)
      omega
    have hd0 : 0 < d.start := by
      have := hsorted.1 d (by rw [← hx]; simp)
      omega
    simp only [List.length_cons, List.length_append] at hlen
    have hfuel : n + 1 = (n - (x :: xs).length + 1) + (x :: xs).length := by
      rw [List.length_cons]
      omega
    rw [hfuel, walk_back xs x hmark hl1.2 (List.pairwise_append.mp hsorted.2).1 hx0
      (by rw [hlast', hlink]) (by omega)]
    -- from its first message the last link leads to index 0
    obtain ⟨-, hv, hr⟩ := hm c List.mem_cons_self
    rw [hc0] at hv hr hl1
    rw [walk, hl1.1, if_neg (by omega), hv, if_neg (by simp), hr, if_neg (by simp),
      if_neg (by omega)]

/-! ## Opening the buffer again -/

/-- The history and the chain do not depend on the handle. -/
theorem inv_opened {r w p : Nat} {passed' : List Cell} (h : Inv s passed pend)
    (hring : Ring s.q.size.words s.q.buf r w passed' (pend.map Entry.cell))
    (hlast : pend ≠ [] → p = s.q.prevPtr)
    (hidle : pend = [] → validAt s.q.size.words s.q.buf w = false ∨ readAt s.q.buf p = true)
    (hp : p < s.q.size.words) :
    Inv ⟨opened s.q.size s.q.buf r w p, s.log⟩ passed' pend := by
  refine ⟨⟨hring, ?_, fun hnil => hidle (List.map_eq_nil_iff.mp hnil), hp,
    fun hf => nomatch hf⟩, ?_, h.apart, h.sub, h.unread⟩
  · intro c hc
    have hne : pend ≠ [] := by
      intro hnil
      rw [hnil] at hc
      exact nomatch hc
    show c.start = p
    rw [hlast hne]
    exact h.shape.last c hc
  · intro e he hi
    have hst := h.stored e he hi
    exact ⟨hst.holds, hst.fits, hst.len⟩

/-- Index 0 holds a read message once the chain is drained. -/
theorem zero_read {e : Entry} {rest : List Entry} (h : Inv s passed (e :: rest))
    (hbehind : Marked s.q.size.words s.q.buf true passed) (hb : Tiles 0 passed s.q.readPtr) :
    readAt (markAll s.q.buf ((e :: rest).map Entry.start)) 0 = true := by
  cases passed with
  | nil =>
      refine readAt_markAll_mem ?_
      have hr : (0 : Nat) = s.q.readPtr := hb
      rw [List.map_cons, h.head_start rfl, ← hr]
      exact List.mem_cons_self
  | cons c cs =>
      have hc : c.start = 0 := hb.head_start
      rw [← hc]
      exact readAt_markAll_mono _ (hbehind c List.mem_cons_self).2.2

/-- **Restart of a chain that runs up to an end**: the search gives up the write pointer, and
    needs no link. -/
theorem restart_to_end {e : Entry} {rest : List Entry} {b : Nat} (h : Inv s passed (e :: rest))
    (hbehind : Marked s.q.size.words s.q.buf true passed)
    (hstrict : ∀ d ∈ e :: rest, 4 * d.start + 12 + d.payload.length < 4 * s.q.size.words)
    (hbefore : Tiles 0 passed s.q.readPtr)
    (ht : Tiles s.q.readPtr ((e :: rest).map Entry.cell) b) (hend : AtEnd s.q.size.words s.q.buf b) :
    ∃ q' passed', (ticosdQueueInit s.q.size s.q.buf).val = some q' ∧
      q'.size = s.q.size ∧ q'.buf = s.q.buf ∧ Ready ⟨q', s.log⟩ passed' (e :: rest) := by
  have hm := chain_marked h hstrict
  have hlast := lastStart_chain h (by simp) 0
  have hmem := h.ring.mem
  have hzero := zero_read h hbehind hbefore
  rw [List.map_cons] at ht hm hlast hmem
  rw [lastStart_cons] at hlast
  obtain ⟨k, hscan⟩ := scan_regular s.q.size.words_le hbefore hbehind ht hm
  rw [if_pos (show s.q.size.words ≤ b ∨ wordAt s.q.buf b = endPointer from hend), hlast] at hscan
  have hwalk : wrapped s.q.size.words s.q.buf s.q.readPtr 0 = some s.q.readPtr := by
    rw [wrapped, if_neg (fun hc => hc.2 rfl)]
  refine ⟨_, passed, queueInit_val hscan hwalk, rfl, rfl, ?_, hstrict,
    fun hw => absurd rfl hw, fun _ => hzero⟩
  refine inv_opened h (Or.inr ⟨_, [], (List.append_nil _).symm, by simp, ⟨b, ht, hend⟩,
    Nat.zero_le _, rfl, fun _ => hbefore, fun hc => absurd rfl hc, ?_⟩) (fun _ => rfl)
    (fun hc => absurd hc (List.cons_ne_nil _ _)) h.shape.prev_lt
  rw [List.append_nil]
  exact hmem

/-- **Restart of an empty queue.** -/
theorem restart_nil (h : Regular s passed []) (hok : RestartOk s.q []) :
    ∃ q' passed', (ticosdQueueInit s.q.size s.q.buf).val = some q' ∧
      q'.size = s.q.size ∧ q'.buf = s.q.buf ∧ Ready ⟨q', s.log⟩ passed' [] := by
  have hpos : 0 < s.q.size.words := by have := s.q.size.four_le_words; omega
  obtain ⟨cs, x, hm, ht, hres⟩ := scan_stale _ 0 0 0 (hok.stale rfl) hpos
  have hlast : lastStart 0 cs < s.q.size.words := lastStart_lt hpos (fun c hc => (hm c hc).1)
  rcases hres with ⟨hscan, hv, hx, hend⟩ | ⟨hscan, hne⟩
  · -- the scan has met an invalid header
    have hwalk : wrapped s.q.size.words s.q.buf x x = some x := by
      rw [wrapped, if_neg (fun hc => hc.2 hc.1)]
    refine ⟨_, cs, queueInit_val hscan hwalk, rfl, rfl, ?_, (fun _ he => absurd he List.not_mem_nil), ?_, ?_⟩
    · exact inv_opened h.inv (Or.inl ⟨ht, rfl, hx, fun c hc => (hm c (by simpa using hc)).1⟩)
        (fun hne => absurd rfl hne) (fun _ => Or.inl hv) hlast
    · intro hw
      refine hend ?_
      intro hnil
      rw [hnil] at ht
      exact hw (ht : 0 = x).symm
    · intro hv'
      rw [show validAt s.q.size.words s.q.buf x = true from hv'] at hv
      cases hv
  · -- the scan has come round over read messages
    have hwalk : wrapped s.q.size.words s.q.buf 0 0 = some 0 := rfl
    obtain ⟨c, hc, heq⟩ := lastStart_mem 0 hne
    refine ⟨_, [], queueInit_val hscan hwalk, rfl, rfl, ?_, (fun _ he => absurd he List.not_mem_nil),
      fun hw => absurd rfl hw, ?_⟩
    · refine inv_opened h.inv (Or.inl ⟨rfl, rfl, hpos, fun _ hc => absurd hc List.not_mem_nil⟩)
        (fun hne => absurd rfl hne) (fun _ => Or.inr ?_) hlast
      rw [heq]
      exact (hm c hc).2.2
    · intro _
      cases cs with
      | nil => exact absurd rfl hne
      | cons d ds =>
          have hd : d.start = 0 := ht.head_start
          show readAt s.q.buf 0 = true
          rw [← hd]
          exact (hm d List.mem_cons_self).2.2

/-- **Restart of a queue with unread messages.** -/
theorem restart_cons {e : Entry} {rest : List Entry} (h : Regular s passed (e :: rest))
    (hok : RestartOk s.q (e :: rest)) :
    ∃ q' passed', (ticosdQueueInit s.q.size s.q.buf).val = some q' ∧
      q'.size = s.q.size ∧ q'.buf = s.q.buf ∧ Ready ⟨q', s.log⟩ passed' (e :: rest) := by
  have hn := s.q.size.words_le
  have hstart := h.inv.head_start rfl
  have hm := chain_marked h.inv hok.strict
  have hl := chain_linked h.inv h.linked e rest rfl
  have hlast := lastStart_chain h.inv (by simp) 0
  rw [List.map_cons] at hm hlast
  rw [lastStart_cons] at hlast
  have hring := h.inv.ring
  rcases hring with hs | ⟨tail, lap, heq, hw⟩
  · -- straight: read messages, then the chain, then the write pointer
    have hrw : s.q.readPtr < s.q.writePtr := hs.tiles.lt_of_ne_nil (by simp)
    have hwn := hs.lt
    obtain ⟨k, hscan⟩ := scan_regular hn hs.before h.behind hs.tiles hm
    by_cases hend : s.q.size.words ≤ s.q.writePtr ∨ wordAt s.q.buf s.q.writePtr = endPointer
    · exact restart_to_end h.inv h.behind hok.strict hs.before hs.tiles hend
    · have hno : wordAt s.q.buf s.q.writePtr ≠ endPointer := fun hc => hend (Or.inr hc)
      obtain ⟨hat, hdone⟩ := hok.at_write (by simp) (by omega) hno
      rw [if_neg hend, scan_stops hat, hlast] at hscan
      have hwalk : wrapped s.q.size.words s.q.buf s.q.readPtr s.q.writePtr
          = some s.q.readPtr := by
        rw [wrapped]
        by_cases hr : s.q.readPtr = 0
        · rw [if_pos ⟨hr, by omega⟩, hr]
          rcases hok.link (by simp) (by omega) hno (Or.inr hr) with hst | ⟨-, hin⟩
          · rw [hr] at hst
            exact walk_stops hst
          · have ht := hs.tiles
            rw [hr] at ht
            obtain ⟨d, hd, hde⟩ := List.mem_map.mp hin
            exact walk_round ht (by omega) hm hl
              ⟨d.cell, List.mem_map_of_mem hd, hde⟩
        · rw [if_neg (fun hc => hr hc.1)]
      exact ⟨_, passed, queueInit_val hscan hwalk, rfl, rfl,
        inv_opened h.inv (Or.inl hs) (fun _ => rfl) (fun hc => absurd hc (List.cons_ne_nil _ _)) h.inv.shape.prev_lt,
        hok.strict, fun _ => hno, hdone⟩
  · obtain ⟨b, ht, hb⟩ := hw.ends
    cases tail with
    | nil => exact absurd rfl hw.ne
    | cons t ts =>
        rw [List.map_cons, List.cons_append] at heq
        obtain ⟨het, hrest⟩ := List.cons_eq_cons.mp heq
        subst het
        cases lap with
        | nil =>
            -- the chain ends with the buffer, and the write pointer is 0
            rw [List.append_nil] at hrest
            rw [← hrest] at ht
            exact restart_to_end h.inv h.behind hok.strict (hw.before rfl) ht hb
        | cons c cs =>
            -- the scan runs over the lap, and the walk goes back over the tail
            have hc0 : c.start = 0 := hw.tiles.head_start
            have hwpos : 0 < s.q.writePtr := hw.tiles.lt_of_ne_nil (by simp)
            have hle := hw.le
            have hrn := h.inv.shape.readPtr_lt
            have hmlap : Marked s.q.size.words s.q.buf false (c :: cs) := by
              intro x hx
              refine hm x (List.mem_cons_of_mem _ ?_)
              rw [hrest]
              exact List.mem_append_right _ hx
            have hmtail : Marked s.q.size.words s.q.buf false (e.cell :: ts) := by
              intro x hx
              rcases List.mem_cons.mp hx with hx | hx
              · rw [hx]
                exact hm _ List.mem_cons_self
              · refine hm x (List.mem_cons_of_mem _ ?_)
                rw [hrest]
                exact List.mem_append_left _ hx
            have hlt : s.q.writePtr < s.q.readPtr := by
              rcases Nat.lt_or_ge s.q.writePtr s.q.readPtr with hc | hc
              · exact hc
              · -- a full queue: its head stands at the write pointer, unread
                exfalso
                have hrw : s.q.writePtr = s.q.readPtr := by omega
                obtain ⟨hmem, hv, hr⟩ := hm e.cell List.mem_cons_self
                rw [Entry.cell_start, hstart, ← hrw] at hv hr
                have hne : wordAt s.q.buf s.q.writePtr ≠ endPointer := by
                  rw [hrw, ← hstart]
                  exact hmem.not_end (by rw [Entry.cell_start]; omega)
                have hat := (hok.at_write (by simp) (by omega) hne).1 hv
                rw [hr] at hat
                cases hat
            have hno := hok.no_marker (by simp) (by omega) hlt
            obtain ⟨hat, hdone⟩ := hok.at_write (by simp) (by omega) hno
            obtain ⟨k, hscan⟩ := scan_regular hn (show Tiles 0 ([] : List Cell) 0 from rfl)
              (fun _ hx => absurd hx List.not_mem_nil) hw.tiles hmlap
            have hend : ¬ (s.q.size.words ≤ s.q.writePtr ∨
                wordAt s.q.buf s.q.writePtr = endPointer) := by
              rintro (hc | hc)
              · omega
              · exact hno hc
            have hlast' : lastStart c.start cs = s.q.prevPtr := by
              rw [← hlast, hrest, lastStart_append]
            rw [if_neg hend, scan_stops hat, hlast'] at hscan
            have hwalk : wrapped s.q.size.words s.q.buf 0 s.q.writePtr
                = some s.q.readPtr := by
              rw [wrapped, if_pos ⟨rfl, by omega⟩]
              rw [hrest] at hl
              have hlink := linked_link hl
              have hlen := tiles_length_le ht
              have hbn : b ≤ s.q.size.words := by
                have hg := ht.getLast_stop (by simp)
                rw [← hg]
                exact (hmtail _ (List.getLast_mem _)).1.stop_le hn
              have hfuel : s.q.size.words + 1 = (s.q.size.words - (e.cell :: ts).length + 1)
                  + (e.cell :: ts).length := by omega
              rw [hc0] at hlink
              have hlast0 : lastStart e.cell.start ts ≠ 0 := by
                obtain ⟨x, hx, hxe⟩ := lastStart_mem 0
                  (show e.cell :: ts ≠ [] by simp)
                rw [lastStart_cons] at hxe
                have := (ht.bounds hx).1
                rw [hxe]
                simp only [start_cell] at this
                omega
              rw [hfuel, walk_back ts e.cell hmtail (linked_left hl) (tiles_sorted ht)
                (by rw [Entry.cell_start]; omega) hlink hlast0, Entry.cell_start, hstart]
              refine walk_stops ?_
              rcases hok.link (by simp) (by omega) hno (Or.inl hlt) with hst | ⟨hr, -⟩
              · exact hst
              · omega
            exact ⟨_, passed, queueInit_val hscan hwalk, rfl, rfl,
              inv_opened h.inv h.inv.ring (fun _ => rfl) (fun hc => absurd hc (List.cons_ne_nil _ _)) h.inv.shape.prev_lt,
              hok.strict, fun _ => hno, hdone⟩

/-- **Restart**: the search finds a queue that is ready to deliver the chain. -/
theorem Regular.restart (h : Regular s passed pend) (hok : RestartOk s.q pend) :
    ∃ q' passed', (ticosdQueueInit s.q.size s.q.buf).val = some q' ∧
      q'.size = s.q.size ∧ q'.buf = s.q.buf ∧ Ready ⟨q', s.log⟩ passed' pend := by
  cases pend with
  | nil => exact restart_nil h hok
  | cons e rest => exact restart_cons h hok

/-! ## Every run -/

theorem lost_step {a : Op} (h : Lost s) : Lost (s.step a) := by
  obtain ⟨e, he, ho, hc⟩ := h
  cases a with
  | write payload =>
      cases payload with
      | none => exact ⟨e, he, ho, hc⟩
      | some p =>
          cases hb : (ticosdQueueWrite s.q (some p)).val.1 with
          | true =>
              refine ⟨e.after (ticosdQueueWrite s.q (some p)).stores, ?_, ?_, hc⟩
              · simp only [Sys.step, Sys.write, hb]
                exact List.mem_append_left _ (List.mem_map_of_mem he)
              · simp only [Entry.after, ho, Bool.true_or]
          | false =>
              refine ⟨e, ?_, ho, hc⟩
              simp only [Sys.step, Sys.write, hb]
              exact he
  | readHead malloc => exact ⟨e, he, ho, hc⟩
  | completeRead =>
      simp only [Sys.step, Sys.completeRead]
      split
      · have hsame : e.complete s.q.readPtr = e := by
          refine if_neg ?_
          rintro ⟨-, hi⟩
          rw [ho] at hi
          cases hi
        exact ⟨e, by rw [← hsame]; exact List.mem_map_of_mem he, ho, hc⟩
      · exact ⟨e, he, ho, hc⟩

/-- Reading the head changes at most the flag. -/
theorem readHead_state (q : TicosdQueue) (malloc : Bool) :
    (ticosdQueueReadHead q malloc).val.2 = q ∨
      (ticosdQueueReadHead q malloc).val.2 = { q with canCompleteRead := true } := by
  rw [readHead_val]
  by_cases hc : caughtUp q = true ∨ malloc = false
  · rw [if_pos hc]
    exact Or.inl rfl
  · rw [if_neg hc]
    exact Or.inr rfl

theorem Regular.readHead (h : Regular s passed pend) (hok : HeadOk s.q) (malloc : Bool) :
    Regular (s.step (.readHead malloc)) passed pend := by
  refine ⟨h.inv.readHead hok malloc, h.full, ?_, h.linked⟩
  simp only [Sys.step]
  rcases readHead_state s.q malloc with heq | heq
  · rw [heq]
    exact h.behind
  · rw [heq]
    exact h.behind

theorem Regular.completeRead (h : Regular s passed pend)
    (hok : s.q.canCompleteRead = true → CompleteOk s.q) :
    ∃ passed' pend', Regular (s.step .completeRead) passed' pend' := by
  cases hcan : s.q.canCompleteRead with
  | false =>
      refine ⟨passed, pend, ?_⟩
      rw [Sys.step, Sys.completeRead_refused h.inv.readPtr_small hcan]
      exact h
  | true =>
      cases pend with
      | nil => exact absurd rfl (h.inv.flag hcan)
      | cons e rest =>
          obtain ⟨passed', h'⟩ := h.complete (hok hcan) hcan
          exact ⟨passed', rest, h'⟩

/-- A state is regular, or an unread message has been overwritten. -/
def RegularOrLost (s : Sys) : Prop := Lost s ∨ ∃ passed pend, Regular s passed pend

theorem regularOrLost_step {a : Op} (h : RegularOrLost s) (hok : StepOk s a) :
    RegularOrLost (s.step a) := by
  rcases h with h | ⟨passed, pend, h⟩
  · exact Or.inl (lost_step h)
  cases a with
  | write payload =>
      cases payload with
      | none => exact Or.inr ⟨passed, pend, h⟩
      | some p =>
          have hlen := hok p rfl
          have hr := h.inv.readPtr_small
          by_cases hacc : Accepts s.q p.length
          · by_cases hno : ∀ e ∈ pend, ¬ Touches s.q p.length e.cell
            · obtain ⟨passed', kept, h'⟩ := h.write hlen hacc (fun e he hl => by
                obtain ⟨d, hd, ht⟩ := leftBehind_touches h.inv hacc hlen he hl
                exact absurd ht (hno d hd))
              exact Or.inr ⟨passed', _, h'⟩
            · push Not at hno
              obtain ⟨e, he, ht⟩ := hno
              refine Or.inl ⟨e.after (ticosdQueueWrite s.q (some p)).stores, ?_, ?_,
                (h.inv.unread e he).2⟩
              · rw [Sys.step, Sys.write_taken hlen hr hacc]
                exact List.mem_append_left _ (List.mem_map_of_mem (h.inv.pend_mem he))
              · simp only [Entry.after, (hits_write hlen hr hacc e.cell_lt).mpr ht, Bool.or_true]
          · refine Or.inr ⟨passed, pend, ?_⟩
            rw [Sys.step, Sys.write_refused hlen hr hacc]
            exact h
  | readHead malloc => exact Or.inr ⟨passed, pend, h.readHead hok malloc⟩
  | completeRead => exact Or.inr (h.completeRead hok)

theorem regular_fresh {size : QueueSize} {file : Mem} (hblank : Blank size file) :
    Regular (fresh size file) [] [] :=
  ⟨inv_fresh hblank, fun _ he => (nomatch he), fun _ hc => (nomatch hc), List.isChain_nil⟩

/-- The messages that were written and not completed. -/
def uncompleted (s : Sys) : List Entry := s.log.filter (fun e => !e.completed)

/-- What a restart of the daemon delivers from the buffer, within `fuel` rounds. -/
def redeliver (fuel : Nat) (size : QueueSize) (buf : Mem) : Option (List (List UInt8)) :=
  (ticosdQueueInit size buf).val.bind (drain fuel)

/-- Where nothing was lost, the chain is what has not been completed. -/
theorem pend_eq_uncompleted (h : Regular s passed pend)
    (hkeep : ∀ e ∈ s.log, e.overwritten = true → e.completed = true) :
    pend = uncompleted s := by
  rw [pend_eq_filter h.inv h.full, uncompleted]
  refine List.filter_congr ?_
  intro e he
  cases hc : e.completed with
  | true =>
      rw [decide_eq_false (fun hu : e.Unread => by rw [hu.2] at hc; exact nomatch hc)]
      rfl
  | false =>
      cases ho : e.overwritten with
      | true =>
          rw [hkeep e he ho] at hc
          exact nomatch hc
      | false =>
          rw [decide_eq_true (show e.Unread from ⟨ho, hc⟩)]
          rfl

/-- **Clean restart**: in every run whose steps meet the conditions and in which no
    write has overwritten an uncompleted message, a restart on a buffer that
    meets `RestartOk` delivers exactly the messages that were written and not
    completed, each once, in the order of the writes. -/
theorem restart_delivers_uncompleted {size : QueueSize} {file : Mem}
    (hblank : Blank size file) (ops : List Op)
    (hok : Along Sys.step StepOk (fresh size file) ops)
    (hkeep : ∀ e ∈ (run Sys.step (fresh size file) ops).log,
      e.overwritten = true → e.completed = true)
    (hrestart : RestartOk (run Sys.step (fresh size file) ops).q
      (uncompleted (run Sys.step (fresh size file) ops)))
    {fuel : Nat} (hfuel : (uncompleted (run Sys.step (fresh size file) ops)).length < fuel) :
    redeliver fuel (run Sys.step (fresh size file) ops).q.size
        (run Sys.step (fresh size file) ops).q.buf
      = some ((uncompleted (run Sys.step (fresh size file) ops)).map Entry.payload) := by
  have hrun : RegularOrLost (run Sys.step (fresh size file) ops) :=
    invariant (fun _ _ h hs => regularOrLost_step h hs)
      (Or.inr ⟨[], [], regular_fresh hblank⟩) hok
  rcases hrun with ⟨e, he, ho, hc⟩ | ⟨passed, pend, h⟩
  · rw [hkeep e he ho] at hc
    exact nomatch hc
  · have hpend := pend_eq_uncompleted h hkeep
    rw [← hpend] at hrestart hfuel ⊢
    obtain ⟨q', passed', hinit, -, -, hready⟩ := h.restart hrestart
    rw [redeliver, hinit]
    exact Ready.drain pend ⟨q', _⟩ passed' hready fuel hfuel

/-- One message read, two waiting, in a buffer of twelve words. -/
def twoWaiting : List Op :=
  [.write (some [1]), .write (some [2]), .readHead true, .completeRead, .write (some [3])]

/-- The two that wait are delivered after a restart. -/
theorem restart_delivers_uncompleted_two :
    redeliver 3 (run Sys.step (blank 12 (by decide) (by decide)) twoWaiting).q.size
      (run Sys.step (blank 12 (by decide) (by decide)) twoWaiting).q.buf = some [[2], [3]] :=
  (@restart_delivers_uncompleted (.ofWords 12 (by decide) (by decide)) (fun _ => 0)
    (fun _ _ => rfl) twoWaiting (by decide +kernel) (by decide +kernel)
    ⟨by decide +kernel, by decide +kernel, by decide +kernel, by decide +kernel,
      by decide +kernel⟩ 3 (by decide +kernel)).trans (by decide +kernel)

/-- One message read, and one that ends with the last byte of a buffer of eight
    words. -/
def flushWaiting : List Op :=
  [.write (some [1]), .readHead true, .completeRead, .write (some [1, 2, 3, 4])]

/-- A message that ends with the last byte of the buffer is gone after a restart:
    the bounds check of the search is strict. -/
theorem flush_message_lost_at_restart :
    (∀ e ∈ (run Sys.step (blank 8 (by decide) (by decide)) flushWaiting).log,
      e.overwritten = false) ∧
    (run Sys.step (blank 8 (by decide) (by decide)) flushWaiting).q.readPtr
      ≠ (run Sys.step (blank 8 (by decide) (by decide)) flushWaiting).q.writePtr ∧
    (uncompleted (run Sys.step (blank 8 (by decide) (by decide)) flushWaiting)).map
      Entry.payload = [[1, 2, 3, 4]] ∧
    redeliver 2 (run Sys.step (blank 8 (by decide) (by decide)) flushWaiting).q.size
      (run Sys.step (blank 8 (by decide) (by decide)) flushWaiting).q.buf = some [] :=
  ⟨by decide +kernel, by decide +kernel, by decide +kernel, by decide +kernel⟩

end QueueRestart
