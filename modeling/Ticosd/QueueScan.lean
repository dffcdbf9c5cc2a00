import Ticosd.QueueRun

/-! # The search for the pointers at start of day

    `prv_queue_find_read_write_ptr` knows nothing but the bytes of the file.  It
    scans forwards from index 0 over valid headers, and walks backwards over
    `prev_header` links from there.  `scan` and `walk` are the two loops as
    functions of the memory; the lemmas below say where they lead when the
    headers on the way are known:

    * over read messages the scan goes on, over unread ones it goes on and
      remembers the first;
    * at the end of a lap it gives up the write pointer and takes 0;
    * the walk goes back along a linked chain of unread messages. -/

namespace QueueScan

open ByteStore QueueModel QueueView QueueRing QueueOverwrite QueueRun Tiling

/-! ## The two loops as functions of the memory -/

/-- The forward loop: read, write and previous pointer. -/
def scan (n : Nat) (m : Mem) : Nat → Nat → Nat → Nat → Bool → Option (Nat × Nat × Nat)
  | 0, _, _, _, _ => none
  | fuel + 1, tmp, readPtr, prevPtr, lastRead =>
      if validAt n m tmp = false then some (if lastRead then tmp else readPtr, tmp, prevPtr)
      else if readAt m tmp = true ∧ lastRead = false then some (readPtr, tmp, prevPtr)
      else if nextAt n m tmp = 0 then
        some (if readAt m tmp = false ∧ lastRead = true then tmp else readPtr, 0, tmp)
      else
        scan n m fuel (nextAt n m tmp)
          (if readAt m tmp = false ∧ lastRead = true then tmp else readPtr) tmp (readAt m tmp)

/-- The backward loop. -/
def walk (n : Nat) (m : Mem) : Nat → Nat → Option Nat
  | 0, _ => none
  | fuel + 1, readPtr =>
      if readPtr = prevAt m readPtr then some readPtr
      else if validAt n m (prevAt m readPtr) = false then some readPtr
      else if readAt m (prevAt m readPtr) = true then some readPtr
      else if prevAt m readPtr > 0 then walk n m fuel (prevAt m readPtr)
      else some (prevAt m readPtr)

/-- The read pointer after the backward loop, if it is run. -/
def wrapped (n : Nat) (m : Mem) (readPtr writePtr : Nat) : Option Nat :=
  if readPtr = 0 ∧ writePtr ≠ 0 then walk n m (n + 1) readPtr else some readPtr

/-- A fresh handle on the buffer `m`. -/
def opened (size : QueueSize) (m : Mem) (readPtr writePtr prevPtr : Nat) : TicosdQueue where
  size := size
  buf := m
  readPtr := readPtr
  writePtr := writePtr
  prevPtr := prevPtr
  canCompleteRead := false

theorem findWritePtr_val (q : TicosdQueue) :
    ∀ (fuel tmp readPtr prevPtr : Nat) (lastRead : Bool), tmp < q.size.words →
      (prvFindWritePtr q fuel tmp readPtr prevPtr lastRead).val
        = scan q.size.words q.buf fuel tmp readPtr prevPtr lastRead := by
  intro fuel
  induction fuel with
  | zero => intro tmp readPtr prevPtr lastRead _; rfl
  | succ fuel ih =>
      intro tmp readPtr prevPtr lastRead htmp
      have hle := q.size.words_le
      rw [prvFindWritePtr, scan, Traced.bind_val, isMsgValid_val]
      by_cases hv : validAt q.size.words q.buf tmp = false
      · rw [if_pos hv, if_pos hv, Traced.pure_val]
      rw [if_neg hv, if_neg hv, Traced.bind_val, isMsgRead_val]
      by_cases hr : readAt q.buf tmp = true ∧ lastRead = false
      · rw [if_pos hr, if_pos hr, Traced.pure_val]
      rw [if_neg hr, if_neg hr, Traced.bind_val, getNextMessage_val q tmp (by omega)]
      by_cases hn : nextAt q.size.words q.buf tmp = 0
      · rw [if_pos hn, if_pos hn, Traced.pure_val]
      · rw [if_neg hn, if_neg hn]
        exact ih _ _ _ _ (nextAt_lt q.size q.buf tmp)

theorem findReadPtr_val (q : TicosdQueue) :
    ∀ (fuel readPtr : Nat), (prvFindReadPtr q fuel readPtr).val
      = walk q.size.words q.buf fuel readPtr := by
  intro fuel
  induction fuel with
  | zero => intro readPtr; rfl
  | succ fuel ih =>
      intro readPtr
      have hprev : (Traced.load32 q.buf (4 * readPtr + 4)).val = prevAt q.buf readPtr := rfl
      rw [prvFindReadPtr, walk, Traced.bind_val, hprev]
      by_cases hself : readPtr = prevAt q.buf readPtr
      · rw [if_pos hself, if_pos hself, Traced.pure_val]
      rw [if_neg hself, if_neg hself, Traced.bind_val, isMsgValid_val]
      by_cases hv : validAt q.size.words q.buf (prevAt q.buf readPtr) = false
      · rw [if_pos hv, if_pos hv, Traced.pure_val]
      rw [if_neg hv, if_neg hv, Traced.bind_val, isMsgRead_val]
      by_cases hr : readAt q.buf (prevAt q.buf readPtr) = true
      · rw [if_pos hr, if_pos hr, Traced.pure_val]
      rw [if_neg hr, if_neg hr]
      by_cases hpos : prevAt q.buf readPtr > 0
      · rw [if_pos hpos, if_pos hpos]
        exact ih _
      · rw [if_neg hpos, if_neg hpos, Traced.pure_val]

theorem findWrapped_val (q : TicosdQueue) (readPtr writePtr : Nat) :
    (prvFindWrapped q readPtr writePtr).val
      = wrapped q.size.words q.buf readPtr writePtr := by
  rw [prvFindWrapped, wrapped]
  by_cases h : readPtr = 0 ∧ writePtr ≠ 0
  · rw [if_pos h, if_pos h, findReadPtr_val]
  · rw [if_neg h, if_neg h, Traced.pure_val]

/-- What `ticosd_queue_init` makes of a file, when both loops end. -/
theorem queueInit_val {size : QueueSize} {file : Mem} {readPtr writePtr prevPtr r : Nat}
    (hscan : scan size.words file (size.words + 1) 0 0 0 true
      = some (readPtr, writePtr, prevPtr))
    (hwalk : wrapped size.words file readPtr writePtr = some r) :
    (ticosdQueueInit size file).val = some (opened size file r writePtr prevPtr) := by
  have hpos : 0 < size.words := by have := size.four_le_words; omega
  rw [ticosdQueueInit, prvQueueFindReadWritePtr, Traced.bind_val,
    findWritePtr_val _ _ _ _ _ _ hpos]
  simp only [hscan, Traced.bind_val, findWrapped_val, hwalk, Traced.pure_val]
  rfl

/-- A queue that `ticosd_queue_init` returns comes from both loops. -/
theorem queueInit_some {size : QueueSize} {file : Mem} {q : TicosdQueue}
    (h : (ticosdQueueInit size file).val = some q) :
    ∃ readPtr writePtr prevPtr r,
      scan size.words file (size.words + 1) 0 0 0 true = some (readPtr, writePtr, prevPtr) ∧
      wrapped size.words file readPtr writePtr = some r ∧
      q = opened size file r writePtr prevPtr := by
  have hpos : 0 < size.words := by have := size.four_le_words; omega
  rw [ticosdQueueInit, prvQueueFindReadWritePtr, Traced.bind_val,
    findWritePtr_val _ _ _ _ _ _ hpos] at h
  cases hscan : scan size.words file (size.words + 1) 0 0 0 true with
  | none =>
      simp only [hscan, Traced.pure_val] at h
      exact nomatch h
  | some t =>
      obtain ⟨readPtr, writePtr, prevPtr⟩ := t
      simp only [hscan, Traced.bind_val, findWrapped_val] at h
      cases hwalk : wrapped size.words file readPtr writePtr with
      | none =>
          simp only [hwalk, Traced.pure_val] at h
          exact nomatch h
      | some r =>
          simp only [hwalk, Traced.pure_val] at h
          exact ⟨readPtr, writePtr, prevPtr, r, rfl, hwalk, (Option.some.inj h).symm⟩

/-! ## The scan over known headers -/

variable {n : Nat} {m : Mem}

/-- Where the last cell of the list starts, or `d` if there is none. -/
def lastStart (d : Nat) (cs : List Cell) : Nat :=
  match cs.getLast? with
  | none => d
  | some c => c.start

theorem lastStart_cons (d : Nat) (c : Cell) (cs : List Cell) :
    lastStart d (c :: cs) = lastStart c.start cs := by
  cases cs with
  | nil => rfl
  | cons e es => simp only [lastStart, List.getLast?_cons_cons]; rfl

theorem lastStart_mem (d : Nat) {cs : List Cell} (hne : cs ≠ []) :
    ∃ c ∈ cs, lastStart d cs = c.start := by
  refine ⟨cs.getLast hne, List.getLast_mem hne, ?_⟩
  rw [lastStart, List.getLast?_eq_some_getLast hne]

/-- The last cell of a list in memory starts inside the buffer. -/
theorem lastStart_lt {cs : List Cell} (hpos : 0 < n) (h : ∀ c ∈ cs, InMem n m c) :
    lastStart 0 cs < n := by
  by_cases hne : cs = []
  · rw [hne]
    exact hpos
  · obtain ⟨c, hc, heq⟩ := lastStart_mem 0 hne
    have := (h c hc).fits
    omega

theorem lastStart_append (d : Nat) (as : List Cell) (c : Cell) (cs : List Cell) :
    lastStart d (as ++ c :: cs) = lastStart c.start cs := by
  induction as generalizing d with
  | nil => exact lastStart_cons d c cs
  | cons a as ih =>
      rw [List.cons_append, lastStart_cons]
      exact ih a.start

/-- The chain the search has found ends at the previous pointer. -/
theorem getLast_lastStart {d : Nat} {as bs : List Cell} {c : Cell}
    (h : bs.getLast? = some c) : c.start = lastStart d (as ++ bs) := by
  rw [lastStart, List.getLast?_append, h]
  rfl

/-- Valid messages, all of them read or all of them not. -/
def Marked (n : Nat) (m : Mem) (flag : Bool) (cs : List Cell) : Prop :=
  ∀ c ∈ cs, InMem n m c ∧ validAt n m c.start = true ∧ readAt m c.start = flag

theorem Marked.tail {flag : Bool} {c : Cell} {cs : List Cell} (h : Marked n m flag (c :: cs)) :
    Marked n m flag cs :=
  fun d hd => h d (List.mem_cons_of_mem _ hd)

/-- Words that stay leave the headers as they are. -/
theorem Marked.congr {m' : Mem} {flag : Bool} {cs : List Cell} (hn : n ≤ 2 ^ 28)
    (h : Marked n m flag cs) (hagree : ∀ c ∈ cs, AgreeOn m m' c.start c.stop) :
    Marked n m' flag cs := by
  intro c hc
  obtain ⟨hmem, hv, hr⟩ := h c hc
  have hsame := hagree c hc
  have hlt := hmem.lt
  refine ⟨hmem.congr hsame, ?_, ?_⟩
  · rw [← hv]
    exact validAt_congr hn hmem.fits (by rw [hmem.stop_eq]; exact hsame)
  · rw [← hr]
    exact readAt_congr (hsame.mono (Nat.le_refl _) (by omega))

/-- One round of the scan over a valid message that does not end it. -/
theorem scan_step {fuel tmp readPtr prevPtr : Nat} {lastRead : Bool}
    (hv : validAt n m tmp = true) (hflag : readAt m tmp = true → lastRead = true)
    (hnext : nextAt n m tmp ≠ 0) :
    scan n m (fuel + 1) tmp readPtr prevPtr lastRead =
      scan n m fuel (nextAt n m tmp)
        (if readAt m tmp = false ∧ lastRead = true then tmp else readPtr) tmp
        (readAt m tmp) := by
  rw [scan, if_neg (by rw [hv]; simp), if_neg ?_, if_neg hnext]
  rintro ⟨h1, h2⟩
  rw [hflag h1] at h2
  exact nomatch h2

/-- The round of the scan in which it meets the end of a lap. -/
theorem scan_end {fuel tmp readPtr prevPtr : Nat} {lastRead : Bool}
    (hv : validAt n m tmp = true) (hflag : readAt m tmp = true → lastRead = true)
    (hnext : nextAt n m tmp = 0) :
    scan n m (fuel + 1) tmp readPtr prevPtr lastRead =
      some (if readAt m tmp = false ∧ lastRead = true then tmp else readPtr, 0, tmp) := by
  rw [scan, if_neg (by rw [hv]; simp), if_neg ?_, if_pos hnext]
  rintro ⟨h1, h2⟩
  rw [hflag h1] at h2
  exact nomatch h2

/-- Where the scan goes from the last cell of a stretch. -/
theorem nextAt_last {a b : Nat} {c : Cell} (ht : Tiles a [c] b) (hc : InMem n m c) :
    nextAt n m c.start = if n ≤ b ∨ wordAt m b = endPointer then 0 else b := by
  have hstop : stopAt m c.start = b := hc.stop_eq.trans ht.2.2
  by_cases hend : n ≤ b ∨ wordAt m b = endPointer
  · rw [if_pos hend]
    exact nextAt_atEnd hstop hend
  · rw [if_neg hend]
    exact nextAt_inside hstop hend

/-- A stretch of the same flag, and what the scan does after it. -/
theorem scan_marked {flag : Bool} {b : Nat} :
    ∀ (cs : List Cell) (c : Cell) (fuel readPtr prevPtr : Nat) (lastRead : Bool),
      Tiles c.start (c :: cs) b → Marked n m flag (c :: cs) → (flag = true → lastRead = true) →
      scan n m (fuel + (c :: cs).length) c.start readPtr prevPtr lastRead =
        if n ≤ b ∨ wordAt m b = endPointer then
          some (if flag = false ∧ lastRead = true then c.start else readPtr, 0,
            lastStart c.start cs)
        else
          scan n m fuel b (if flag = false ∧ lastRead = true then c.start else readPtr)
            (lastStart c.start cs) flag := by
  intro cs
  induction cs with
  | nil =>
      intro c fuel readPtr prevPtr lastRead ht hmark hflag
      obtain ⟨hmem, hv, hr⟩ := hmark c List.mem_cons_self
      have hnext := nextAt_last ht hmem
      -- the last cell of the stretch decides between a wrap and the next stretch
      by_cases hend : n ≤ b ∨ wordAt m b = endPointer
      · rw [if_pos hend] at hnext ⊢
        rw [List.length_singleton, scan_end hv (fun h => hflag (hr.symm.trans h)) hnext, hr]
        rfl
      · rw [if_neg hend] at hnext ⊢
        have hpos : nextAt n m c.start ≠ 0 := by
          have hlt := hmem.lt
          have hb : c.stop = b := ht.2.2
          omega
        rw [List.length_singleton, scan_step hv (fun h => hflag (hr.symm.trans h)) hpos, hnext,
          hr]
        rfl
  | cons d ds ih =>
      intro c fuel readPtr prevPtr lastRead ht hmark hflag
      obtain ⟨hmem, hv, hr⟩ := hmark c List.mem_cons_self
      have hmark' := hmark.tail
      have hd := (hmark' d List.mem_cons_self).1
      have hnext := nextAt_tiles ht hmem hd
      have hstart : d.start = c.stop := ht.2.2.1
      have hlt := hmem.lt
      have htd : Tiles d.start (d :: ds) b := by
        rw [hstart]
        exact ht.2.2
      have hpos : nextAt n m c.start ≠ 0 := by omega
      rw [List.length_cons, ← Nat.add_assoc,
        scan_step hv (fun h => hflag (hr.symm.trans h)) hpos, hnext, hr,
        ih d fuel _ _ flag htd hmark' (fun h => h), lastStart_cons]
      cases flag with
      | true => simp
      | false => simp

/-- Where `prv_get_next_message` goes when it does not wrap. -/
theorem nextAt_forward {i : Nat} (h : nextAt n m i ≠ 0) :
    nextAt n m i = stopAt m i ∧ stopAt m i < n ∧ wordAt m (stopAt m i) ≠ endPointer := by
  rw [nextAt] at h ⊢
  by_cases h1 : n ≤ stopAt m i
  · rw [if_pos h1] at h
    exact absurd rfl h
  · rw [if_neg h1] at h ⊢
    by_cases h2 : wordAt m (stopAt m i) = endPointer
    · rw [if_pos h2] at h
      exact absurd rfl h
    · exact ⟨if_neg h2, by omega, h2⟩

/-! ## The scan over any file -/

/-- What one round of the scan can do. -/
theorem scan_cases {fuel tmp readPtr prevPtr : Nat} {lastRead : Bool} {t : Nat × Nat × Nat}
    (h : scan n m (fuel + 1) tmp readPtr prevPtr lastRead = some t) :
    (validAt n m tmp = false ∧ t = (if lastRead then tmp else readPtr, tmp, prevPtr)) ∨
    (validAt n m tmp = true ∧ readAt m tmp = true ∧ lastRead = false ∧
      t = (readPtr, tmp, prevPtr)) ∨
    (validAt n m tmp = true ∧ (readAt m tmp = true → lastRead = true) ∧ nextAt n m tmp = 0 ∧
      t = (if readAt m tmp = false ∧ lastRead = true then tmp else readPtr, 0, tmp)) ∨
    (validAt n m tmp = true ∧ (readAt m tmp = true → lastRead = true) ∧ nextAt n m tmp ≠ 0 ∧
      scan n m fuel (stopAt m tmp)
        (if readAt m tmp = false ∧ lastRead = true then tmp else readPtr) tmp (readAt m tmp)
        = some t) := by
  rw [scan] at h
  cases hv : validAt n m tmp with
  | false =>
      rw [hv, if_pos rfl] at h
      exact Or.inl ⟨rfl, (Option.some.inj h).symm⟩
  | true =>
      rw [hv, if_neg (by simp)] at h
      refine Or.inr ?_
      by_cases hstop : readAt m tmp = true ∧ lastRead = false
      · rw [if_pos hstop] at h
        exact Or.inl ⟨rfl, hstop.1, hstop.2, (Option.some.inj h).symm⟩
      · rw [if_neg hstop] at h
        have hflag : readAt m tmp = true → lastRead = true := by
          intro hr
          cases lastRead with
          | true => rfl
          | false => exact absurd ⟨hr, rfl⟩ hstop
        refine Or.inr ?_
        by_cases hnext : nextAt n m tmp = 0
        · rw [if_pos hnext] at h
          exact Or.inl ⟨rfl, hflag, hnext, (Option.some.inj h).symm⟩
        · rw [if_neg hnext, (nextAt_forward hnext).1] at h
          exact Or.inr ⟨rfl, hflag, hnext, h⟩

/-- The cell of a valid header. -/
def headerCell (m : Mem) (i : Nat) : Cell := ⟨i, stopAt m i⟩

theorem marked_header {i : Nat} {flag : Bool} (hv : validAt n m i = true)
    (hr : readAt m i = flag) (hend : 0 < i → wordAt m i ≠ endPointer) :
    InMem n m (headerCell m i) ∧ validAt n m (headerCell m i).start = true ∧
      readAt m (headerCell m i).start = flag :=
  ⟨⟨rfl, hend, Nat.le_of_lt (validAt_iff.mp hv).1⟩, hv, hr⟩

theorem marked_cons {flag : Bool} {c : Cell} {cs : List Cell}
    (hc : InMem n m c ∧ validAt n m c.start = true ∧ readAt m c.start = flag)
    (hcs : Marked n m flag cs) : Marked n m flag (c :: cs) := by
  intro d hd
  rcases List.mem_cons.mp hd with heq | hmem
  · rw [heq]
    exact hc
  · exact hcs d hmem

theorem atEnd_of_next {i : Nat} (h : nextAt n m i = 0) : AtEnd n m (stopAt m i) := by
  by_contra hno
  have hgt := lt_stopAt m i
  rw [nextAt_inside rfl hno] at h
  omega

/-- After an unread message the scan runs over unread ones. -/
theorem scan_unread_any : ∀ (fuel tmp readPtr prevPtr : Nat) {r w p : Nat},
    scan n m fuel tmp readPtr prevPtr false = some (r, w, p) → tmp < n →
    (0 < tmp → wordAt m tmp ≠ endPointer) →
    ∃ cs x, Tiles tmp cs x ∧ Marked n m false cs ∧ r = readPtr ∧ p = lastStart prevPtr cs ∧
      (w = x ∧ x < n ∨ w = 0 ∧ AtEnd n m x) := by
  intro fuel
  induction fuel with
  | zero => intro tmp readPtr prevPtr r w p h; exact nomatch h
  | succ fuel ih =>
      intro tmp readPtr prevPtr r w p h htmp hend
      have hlt := lt_stopAt m tmp
      have hnil : Marked n m false [] := fun c hc => nomatch hc
      rcases scan_cases h with ⟨-, ht⟩ | ⟨-, -, -, ht⟩ | ⟨hv, hflag, hnext, ht⟩ |
        ⟨hv, hflag, hnext, hrec⟩
      · obtain ⟨rfl, rfl, rfl⟩ := ht
        exact ⟨[], _, rfl, hnil, rfl, rfl, Or.inl ⟨rfl, htmp⟩⟩
      · obtain ⟨rfl, rfl, rfl⟩ := ht
        exact ⟨[], _, rfl, hnil, rfl, rfl, Or.inl ⟨rfl, htmp⟩⟩
      · obtain ⟨rfl, rfl, rfl⟩ := ht
        have hr : readAt m tmp = false := by
          cases hr : readAt m tmp with
          | true => exact nomatch hflag hr
          | false => rfl
        exact ⟨[headerCell m tmp], stopAt m tmp, ⟨rfl, hlt, rfl⟩,
          marked_cons (marked_header hv hr hend) hnil, if_neg (fun hc => nomatch hc.2), rfl,
          Or.inr ⟨rfl, atEnd_of_next hnext⟩⟩
      · have hr : readAt m tmp = false := by
          cases hr : readAt m tmp with
          | true => exact nomatch hflag hr
          | false => rfl
        obtain ⟨-, hlt', hword⟩ := nextAt_forward hnext
        rw [hr, if_neg (fun hc => nomatch hc.2)] at hrec
        obtain ⟨cs, x, ht, hm, hrp, hp, hw⟩ := ih _ _ _ hrec hlt' (fun _ => hword)
        exact ⟨headerCell m tmp :: cs, x, ⟨rfl, hlt, ht⟩,
          marked_cons (marked_header hv hr hend) hm, hrp, by rw [lastStart_cons]; exact hp, hw⟩

/-- Whatever the file holds, the scan has come over valid headers that lie end to
    end: read ones, then unread ones from the read pointer on. -/
theorem scan_any : ∀ (fuel tmp readPtr prevPtr : Nat) {r w p : Nat},
    scan n m fuel tmp readPtr prevPtr true = some (r, w, p) → tmp < n →
    (0 < tmp → wordAt m tmp ≠ endPointer) →
    ∃ reads unreads x, Tiles tmp (reads ++ unreads) x ∧ Marked n m true reads ∧
      Marked n m false unreads ∧ p = lastStart prevPtr (reads ++ unreads) ∧
      ((unreads = [] ∧ r = x ∧ w = x ∧ x < n ∧ validAt n m x = false) ∨
        (unreads = [] ∧ reads ≠ [] ∧ r = readPtr ∧ w = 0) ∨
        (∃ u us, unreads = u :: us ∧ r = u.start ∧ (w = x ∧ x < n ∨ w = 0 ∧ AtEnd n m x))) := by
  intro fuel
  induction fuel with
  | zero => intro tmp readPtr prevPtr r w p h; exact nomatch h
  | succ fuel ih =>
      intro tmp readPtr prevPtr r w p h htmp hend
      have hlt := lt_stopAt m tmp
      have hnil : ∀ flag, Marked n m flag [] := fun flag c hc => nomatch hc
      rcases scan_cases h with ⟨hv, ht⟩ | ⟨-, -, hl, -⟩ | ⟨hv, -, hnext, ht⟩ |
        ⟨hv, -, hnext, hrec⟩
      · obtain ⟨rfl, rfl, rfl⟩ := ht
        exact ⟨[], [], _, rfl, hnil _, hnil _, rfl, Or.inl ⟨rfl, rfl, rfl, htmp, hv⟩⟩
      · exact nomatch hl
      · obtain ⟨rfl, rfl, rfl⟩ := ht
        cases hr : readAt m tmp with
        | true =>
            rw [if_neg (fun hc => nomatch hc.1)]
            exact ⟨[headerCell m tmp], [], stopAt m tmp, ⟨rfl, hlt, rfl⟩,
              marked_cons (marked_header hv hr hend) (hnil _), hnil _, rfl,
              Or.inr (Or.inl ⟨rfl, by simp, rfl, rfl⟩)⟩
        | false =>
            rw [if_pos ⟨rfl, rfl⟩]
            exact ⟨[], [headerCell m tmp], stopAt m tmp, ⟨rfl, hlt, rfl⟩, hnil _,
              marked_cons (marked_header hv hr hend) (hnil _), rfl,
              Or.inr (Or.inr ⟨_, [], rfl, rfl, Or.inr ⟨rfl, atEnd_of_next hnext⟩⟩)⟩
      · obtain ⟨-, hlt', hword⟩ := nextAt_forward hnext
        cases hr : readAt m tmp with
        | true =>
            rw [hr, if_neg (fun hc => nomatch hc.1)] at hrec
            -- a read header in front of read ones: the result of the rest stands
            obtain ⟨reads, unreads, x, ht, hm, hm', hp, hres⟩ :=
              ih _ _ _ hrec hlt' (fun _ => hword)
            refine ⟨headerCell m tmp :: reads, unreads, x, ⟨rfl, hlt, ht⟩,
              marked_cons (marked_header hv hr hend) hm, hm', ?_, ?_⟩
            · rw [List.cons_append, lastStart_cons]
              exact hp
            · rcases hres with hres | ⟨h1, -, h3, h4⟩ | hres
              · exact Or.inl hres
              · exact Or.inr (Or.inl ⟨h1, by simp, h3, h4⟩)
              · exact Or.inr (Or.inr hres)
        | false =>
            rw [hr, if_pos ⟨rfl, rfl⟩] at hrec
            obtain ⟨cs, x, ht, hm, hrp, hp, hw⟩ :=
              -- the first unread header sets the read pointer, which no later one changes
              scan_unread_any _ _ _ _ hrec hlt' (fun _ => hword)
            refine ⟨[], headerCell m tmp :: cs, x, ⟨rfl, hlt, ht⟩, hnil _,
              marked_cons (marked_header hv hr hend) hm, ?_,
              Or.inr (Or.inr ⟨_, cs, rfl, hrp, hw⟩)⟩
            rw [List.nil_append, lastStart_cons]
            exact hp

/-- No unread message stands where the scan has stopped. -/
theorem scan_stop_header : ∀ (fuel tmp readPtr prevPtr : Nat) (lastRead : Bool) {r w p : Nat},
    scan n m fuel tmp readPtr prevPtr lastRead = some (r, w, p) →
    w = 0 ∨ validAt n m w = false ∨ readAt m w = true := by
  intro fuel
  induction fuel with
  | zero => intro tmp readPtr prevPtr lastRead r w p h; exact nomatch h
  | succ fuel ih =>
      intro tmp readPtr prevPtr lastRead r w p h
      rcases scan_cases h with ⟨hv, ht⟩ | ⟨-, hr, -, ht⟩ | ⟨-, -, -, ht⟩ | ⟨-, -, -, hrec⟩
      · obtain ⟨-, rfl, -⟩ := ht
        exact Or.inr (Or.inl hv)
      · obtain ⟨-, rfl, -⟩ := ht
        exact Or.inr (Or.inr hr)
      · obtain ⟨-, rfl, -⟩ := ht
        exact Or.inl rfl
      · exact ih _ _ _ _ hrec

/-- The pointers that the scan finds are inside the buffer. -/
theorem scan_lt {fuel r w p : Nat} (h : scan n m fuel 0 0 0 true = some (r, w, p))
    (hpos : 0 < n) : r < n ∧ w < n ∧ p < n := by
  obtain ⟨reads, unreads, x, -, hmr, hmu, hp, hres⟩ :=
    scan_any _ _ _ _ h hpos (fun hc => nomatch hc)
  have hm : ∀ c ∈ reads ++ unreads, InMem n m c := by
    intro c hc
    rcases List.mem_append.mp hc with hc | hc
    · exact (hmr c hc).1
    · exact (hmu c hc).1
  have hlast : p < n := by
    rw [hp]
    exact lastStart_lt hpos hm
  rcases hres with ⟨-, hr, hw, hx, -⟩ | ⟨-, -, hr, hw⟩ | ⟨u, us, heq, hr, hw⟩
  · exact ⟨by omega, by omega, hlast⟩
  · exact ⟨by omega, by omega, hlast⟩
  · have hu := (hm u (by rw [heq]; simp)).fits
    exact ⟨by omega, by omega, hlast⟩

/-- The scan ends: its index grows. -/
theorem scan_total : ∀ (fuel tmp readPtr prevPtr : Nat) (lastRead : Bool), tmp < n →
    n < fuel + tmp → ∃ t, scan n m fuel tmp readPtr prevPtr lastRead = some t := by
  intro fuel
  induction fuel with
  | zero => intro tmp readPtr prevPtr lastRead h1 h2; omega
  | succ fuel ih =>
      intro tmp readPtr prevPtr lastRead h1 h2
      rw [scan]
      split
      · exact ⟨_, rfl⟩
      · split
        · exact ⟨_, rfl⟩
        · split
          · exact ⟨_, rfl⟩
          · rename_i hnext
            obtain ⟨hfwd, hlt, -⟩ := nextAt_forward hnext
            have hgt := lt_stopAt m tmp
            rw [hfwd]
            exact ih _ _ _ _ hlt (by omega)

/-! ## The walk over known links -/

/-- The links of a chain: each message points back to the one before it. -/
def Linked (m : Mem) : Nat → List Cell → Prop
  | _, [] => True
  | p, c :: cs => prevAt m c.start = p ∧ Linked m c.start cs

/-- The first part of a linked chain is linked. -/
theorem linked_left {p : Nat} {as bs : List Cell} (h : Linked m p (as ++ bs)) :
    Linked m p as := by
  induction as generalizing p with
  | nil => exact trivial
  | cons a as ih => exact ⟨h.1, ih h.2⟩

/-- The message after the first part points back to its last one. -/
theorem linked_link {p : Nat} {as bs : List Cell} {b : Cell}
    (h : Linked m p (as ++ b :: bs)) : prevAt m b.start = lastStart p as := by
  induction as generalizing p with
  | nil => exact h.1
  | cons a as ih =>
      rw [lastStart_cons]
      exact ih h.2

/-- The walk stops at a message whose link does not lead to another unread one. -/
def WalkStops (n : Nat) (m : Mem) (i : Nat) : Prop :=
  prevAt m i = i ∨ ¬ (validAt n m (prevAt m i) = true ∧ readAt m (prevAt m i) = false)

instance (n : Nat) (m : Mem) (i : Nat) : Decidable (WalkStops n m i) :=
  inferInstanceAs (Decidable (_ ∨ _))

theorem walk_stops {fuel i : Nat} (h : WalkStops n m i) :
    walk n m (fuel + 1) i = some i := by
  rw [walk]
  by_cases hself : i = prevAt m i
  · rw [if_pos hself]
  rw [if_neg hself]
  have hno := h.resolve_left (fun h => hself h.symm)
  cases hv : validAt n m (prevAt m i) with
  | false => rw [if_pos rfl]
  | true =>
      cases hr : readAt m (prevAt m i) with
      | true => rw [if_neg (by simp), if_pos rfl]
      | false => exact absurd ⟨hv, hr⟩ hno

theorem valid_lt {i : Nat} (h : validAt n m i = true) : i < n := by
  have := (validAt_iff.mp h).1
  omega

/-- The walk ends inside the buffer. -/
theorem walk_lt : ∀ (fuel i : Nat) {r : Nat}, walk n m fuel i = some r → i < n → r < n := by
  intro fuel
  induction fuel with
  | zero => intro i r h; exact nomatch h
  | succ fuel ih =>
      intro i r h hi
      rw [walk] at h
      by_cases hself : i = prevAt m i
      · rw [if_pos hself] at h
        rw [← Option.some.inj h]
        exact hi
      rw [if_neg hself] at h
      by_cases hv : validAt n m (prevAt m i) = false
      · rw [if_pos hv] at h
        rw [← Option.some.inj h]
        exact hi
      rw [if_neg hv] at h
      have hlt : prevAt m i < n := valid_lt (m := m) (by simpa using hv)
      by_cases hr : readAt m (prevAt m i) = true
      · rw [if_pos hr] at h
        rw [← Option.some.inj h]
        exact hi
      rw [if_neg hr] at h
      by_cases hpos : prevAt m i > 0
      · rw [if_pos hpos] at h
        exact ih _ h hlt
      · rw [if_neg hpos] at h
        rw [← Option.some.inj h]
        exact hlt

/-- And so the read pointer is inside after both loops. -/
theorem wrapped_lt {rp w r : Nat} (h : wrapped n m rp w = some r) (hrp : rp < n) : r < n := by
  rw [wrapped] at h
  split at h
  · exact walk_lt _ _ h hrp
  · rw [← Option.some.inj h]
    exact hrp

/-- One round of the walk along a link to an unread message. -/
theorem walk_step {fuel i p : Nat} (hlink : prevAt m i = p) (hne : p ≠ i)
    (hv : validAt n m p = true) (hr : readAt m p = false) (hpos : 0 < p) :
    walk n m (fuel + 1) i = walk n m fuel p := by
  rw [walk, hlink, if_neg (fun h => hne h.symm), if_neg (by rw [hv]; simp),
    if_neg (by rw [hr]; simp), if_pos hpos]

/-- A link to an unread message at index 0 is the last one the walk follows. -/
theorem walk_zero {fuel i : Nat} (hstop : ¬ WalkStops n m i) (hz : prevAt m i = 0) :
    walk n m (fuel + 1) i = some 0 := by
  obtain ⟨hself, hvu⟩ := not_or.mp hstop
  obtain ⟨hv, hr⟩ := not_not.mp hvu
  rw [walk, if_neg (fun h => hself h.symm), if_neg (by rw [hv]; simp),
    if_neg (by rw [hr]; simp), if_neg (by omega), hz]

/-- The walk goes back over a linked chain to its first message. -/
theorem walk_back {x fuel : Nat} :
    ∀ (cs : List Cell) (c : Cell), Marked n m false (c :: cs) →
      Linked m c.start cs → (c :: cs).Pairwise (fun a b => a.start < b.start) → 0 < c.start →
      prevAt m x = lastStart c.start cs → lastStart c.start cs ≠ x →
      walk n m (fuel + (c :: cs).length) x = walk n m fuel c.start := by
  intro cs
  induction cs using List.reverseRecOn generalizing x fuel with
  | nil =>
      intro c hmark _ _ hpos hlink hne
      obtain ⟨-, hv, hr⟩ := hmark c List.mem_cons_self
      exact walk_step hlink hne hv hr hpos
  | append_singleton ds d ih =>
      intro c hmark hlinks hsorted hpos hlink hne
      have hlast : ∀ k, lastStart k (ds ++ [d]) = d.start := by
        intro k
        simp only [lastStart, List.getLast?_concat]
      rw [hlast] at hlink hne
      obtain ⟨-, hv, hr⟩ := hmark d (by simp)
      have hsorted' := hsorted
      rw [← List.cons_append, List.pairwise_append] at hsorted'
      obtain ⟨hs1, -, hs2⟩ := hsorted'
      have hcd := hs2 c List.mem_cons_self d (by simp)
      have hne' : lastStart c.start ds ≠ d.start := by
        cases ds using List.reverseRecOn with
        | nil =>
            show c.start ≠ d.start
            omega
        | append_singleton es e =>
            have := hs2 e (by simp) d (by simp)
            simp only [lastStart, List.getLast?_concat]
            omega
      have hmark' : Marked n m false (c :: ds) := by
        intro e he
        refine hmark e ?_
        rcases List.mem_cons.mp he with he | he
        · rw [he]
          exact List.mem_cons_self
        · exact List.mem_cons_of_mem _ (List.mem_append_left _ he)
      rw [List.length_cons, List.length_append, List.length_singleton, ← Nat.add_assoc,
        ← Nat.add_assoc, walk_step hlink hne hv hr (by omega), Nat.add_assoc,
        ← List.length_cons]
      exact ih c hmark' (linked_left hlinks) hs1 hpos (linked_link hlinks) hne'

/-! ## The walk over links that fit -/

/-- The links the walk follows lead to messages of the lap before: at or above the
    write pointer, and each one right before the message it was found at. -/
def LinksFit (n : Nat) (m : Mem) (w : Nat) : Nat → Nat → Prop
  | 0, _ => False
  | fuel + 1, i => WalkStops n m i ∨ (0 < prevAt m i ∧ w ≤ prevAt m i ∧
      nextAt n m (prevAt m i) = i ∧ wordAt m (prevAt m i) ≠ endPointer ∧
      LinksFit n m w fuel (prevAt m i))

instance decidableLinksFit (n : Nat) (m : Mem) (w : Nat) :
    ∀ fuel i, Decidable (LinksFit n m w fuel i)
  | 0, _ => inferInstanceAs (Decidable False)
  | fuel + 1, i =>
      have := decidableLinksFit n m w fuel (prevAt m i)
      inferInstanceAs (Decidable (_ ∨ _))

/-- Above index 0 the walk over fitting links has come over cells that lie end to
    end. -/
theorem walk_links {w : Nat} : ∀ (fuel x : Nat), 0 < x → LinksFit n m w fuel x →
    ∃ r pre, walk n m fuel x = some r ∧ Tiles r pre x ∧ Marked n m false pre ∧
      (w ≤ x → w ≤ r) := by
  intro fuel
  induction fuel with
  | zero => intro x _ h; exact nomatch h
  | succ fuel ih =>
      intro x hx h
      by_cases hstop : WalkStops n m x
      · exact ⟨x, [], walk_stops hstop, rfl, (fun c hc => nomatch hc), fun hw => hw⟩
      · obtain ⟨hpos, hw, hnext, hword, hrec⟩ := h.resolve_left hstop
        obtain ⟨hself, hvu⟩ := not_or.mp hstop
        obtain ⟨hv, hr⟩ := not_not.mp hvu
        obtain ⟨r, pre, hwalk, ht, hm, hle⟩ := ih _ hpos hrec
        have hne : nextAt n m (prevAt m x) ≠ 0 := by omega
        have hcell := marked_header hv hr (fun _ => hword)
        refine ⟨r, pre ++ [headerCell m (prevAt m x)], ?_, ?_, ?_, fun _ => hle hw⟩
        · rw [walk_step rfl hself hv hr hpos]
          exact hwalk
        · refine tiles_snoc.mpr ⟨ht, lt_stopAt m _, ?_⟩
          show stopAt m (prevAt m x) = x
          rw [← (nextAt_forward hne).1]
          exact hnext
        · intro c hc
          rcases List.mem_append.mp hc with hc | hc
          · exact hm c hc
          · rw [List.mem_singleton.mp hc]
            exact hcell

/-- From index 0 the walk stays there, or comes over a tail of the lap before. -/
theorem walk_links_zero {w fuel : Nat} (h : LinksFit n m w fuel 0) :
    walk n m fuel 0 = some 0 ∨
      ∃ r tail e, walk n m fuel 0 = some r ∧ tail ≠ [] ∧ Tiles r tail e ∧ AtEnd n m e ∧
        Marked n m false tail ∧ w ≤ r := by
  cases fuel with
  | zero => exact nomatch h
  | succ fuel =>
      by_cases hstop : WalkStops n m 0
      · exact Or.inl (walk_stops hstop)
      · obtain ⟨hpos, hw, hnext, hword, hrec⟩ := h.resolve_left hstop
        obtain ⟨hself, hvu⟩ := not_or.mp hstop
        obtain ⟨hv, hr⟩ := not_not.mp hvu
        obtain ⟨r, pre, hwalk, ht, hm, hle⟩ := walk_links _ _ hpos hrec
        refine Or.inr ⟨r, pre ++ [headerCell m (prevAt m 0)], stopAt m (prevAt m 0), ?_,
          by simp, tiles_snoc.mpr ⟨ht, lt_stopAt m _, rfl⟩, atEnd_of_next hnext, ?_, hle hw⟩
        · rw [walk_step rfl hself hv hr hpos]
          exact hwalk
        · intro c hc
          rcases List.mem_append.mp hc with hc | hc
          · exact hm c hc
          · rw [List.mem_singleton.mp hc]
            exact marked_header hv hr (fun _ => hword)

end QueueScan
