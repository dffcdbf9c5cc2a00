import Ticosd.QueueView
import Ticosd.Tiling

/-! # The ring — where the messages lie

    The pointers of the queue make sense only together with the shape of what
    lies between them.  `Ring n m r w passed pending` is that shape for a buffer
    of `n` words:

    * `pending` is the chain of messages the reader at `r` still has to visit
      before it meets the writer at `w`;
    * **straight** — the chain runs from `r` up to `w`, and `passed` covers the
      indices from 0 to `r`;
    * **wrapped** — the chain runs from `r` up to an end (`AtEnd`), continues at
      index 0 with the current lap, and ends at `w ≤ r`.

    Only positions matter here: a cell is a start and a stop, and `InMem` says
    that the header at the start leads to the stop.  The three step lemmas,
    `Ring.complete`, `Ring.write` and the case analysis `ring_nil` / `ring_cons`,
    carry every invariant of the queue built on top. -/

namespace QueueRing

open ByteStore QueueModel QueueView Tiling

/-- The words of one message. -/
structure Cell where
  start : Nat
  stop : Nat
  deriving DecidableEq

instance : Extent Cell where
  start := Cell.start
  stop := Cell.stop

@[simp] theorem start_cell (c : Cell) : Extent.start c = c.start := rfl
@[simp] theorem stop_cell (c : Cell) : Extent.stop c = c.stop := rfl

/-! ## Frame laws for header fields -/

/-- Two memories agree on the words `lo ≤ i < hi`. -/
def AgreeOn (m m' : Mem) (lo hi : Nat) : Prop :=
  ∀ a, 4 * lo ≤ a → a < 4 * hi → m' a = m a

theorem AgreeOn.mono {m m' : Mem} {lo hi lo' hi' : Nat} (h : AgreeOn m m' lo hi)
    (h1 : lo ≤ lo') (h2 : hi' ≤ hi) : AgreeOn m m' lo' hi' :=
  fun a ha hb => h a (by omega) (by omega)

theorem AgreeOn.trans {m m' m'' : Mem} {lo hi : Nat} (h : AgreeOn m m' lo hi)
    (h' : AgreeOn m' m'' lo hi) : AgreeOn m m'' lo hi :=
  fun a ha hb => (h' a ha hb).trans (h a ha hb)

theorem wordAt_congr {m m' : Mem} {i : Nat} (h : AgreeOn m m' i (i + 1)) :
    wordAt m' i = wordAt m i :=
  Mem.load32_congr (fun a h1 h2 => h a h1 (by omega))

theorem prevAt_congr {m m' : Mem} {i : Nat} (h : AgreeOn m m' i (i + 2)) :
    prevAt m' i = prevAt m i :=
  Mem.load32_congr (fun a h1 h2 => h a (by omega) (by omega))

theorem sizeAt_congr {m m' : Mem} {i : Nat} (h : AgreeOn m m' i (i + 3)) :
    sizeAt m' i = sizeAt m i :=
  Mem.load32_congr (fun a h1 h2 => h a (by omega) (by omega))

theorem stopAt_congr {m m' : Mem} {i : Nat} (h : AgreeOn m m' i (i + 3)) :
    stopAt m' i = stopAt m i := by
  rw [stopAt, stopAt, sizeAt_congr h]

theorem readAt_congr {m m' : Mem} {i : Nat} (h : AgreeOn m m' i (i + 1)) :
    readAt m' i = readAt m i := by
  rw [readAt, readAt, h (4 * i + 3) (by omega) (by omega)]

/-- The payload lies inside the words of its message. -/
theorem payload_end_le {m : Mem} {i : Nat} (h : sizeAt m i + 3 < 2 ^ 32) :
    4 * i + 12 + sizeAt m i ≤ 4 * stopAt m i := by
  have := words_spec h
  simp only [stopAt, headerLen]
  omega

theorem payloadAt_congr {m m' : Mem} {i : Nat} (hsize : sizeAt m i + 3 < 2 ^ 32)
    (h : AgreeOn m m' i (stopAt m i)) : payloadAt m' i = payloadAt m i := by
  have hstop := payload_end_le hsize
  have h3 : AgreeOn m m' i (i + 3) := h.mono (Nat.le_refl _)
    (by simp only [stopAt, headerLen]; omega)
  rw [payloadAt, payloadAt, sizeAt_congr h3]
  exact Mem.loadBytes_congr (fun a h1 h2 => h a (by omega) (by omega))

/-- A header in bounds announces a size far from overflow. -/
theorem size_small {n : Nat} (hn : n ≤ 2 ^ 28) {m : Mem} {i : Nat}
    (h : 4 * i + 12 + sizeAt m i ≤ 4 * n) : sizeAt m i + 3 < 2 ^ 32 := by
  omega

/-- Validity depends on the words of the message only. -/
theorem validAt_congr {n : Nat} (hn : n ≤ 2 ^ 28) {m m' : Mem} {i : Nat}
    (hb : 4 * i + 12 + sizeAt m i ≤ 4 * n) (h : AgreeOn m m' i (stopAt m i)) :
    validAt n m' i = validAt n m i := by
  have hsize := size_small hn hb
  have h3 : AgreeOn m m' i (i + 3) := h.mono (Nat.le_refl _)
    (by simp only [stopAt, headerLen]; omega)
  simp only [validAt]
  rw [sizeAt_congr h3, payloadAt_congr hsize h, h3 (4 * i) (by omega) (by omega),
    h3 (4 * i + 2) (by omega) (by omega)]

/-! ## Marking a message as read -/

theorem markRead_other (m : Mem) {i a : Nat} (h : a ≠ 4 * i + 3) : markRead m i a = m a :=
  Mem.storeBytes_frame _ (by simp only [List.length_cons, List.length_nil]; omega)

theorem markRead_flags (m : Mem) (i : Nat) :
    markRead m i (4 * i + 3) = m (4 * i + 3) ||| headerFlagsFlagReadMask :=
  m.storeBytes_inside (i := 0) (by simp)

/-- Words other than the marked one are untouched. -/
theorem agreeOn_markRead (m : Mem) {i lo hi : Nat} (h : i < lo ∨ hi ≤ i) :
    AgreeOn m (markRead m i) lo hi :=
  fun _ ha hb => markRead_other m (by omega)

theorem sizeAt_markRead_self (m : Mem) (i : Nat) : sizeAt (markRead m i) i = sizeAt m i :=
  Mem.load32_congr (fun _ h1 h2 => markRead_other m (by omega))

theorem stopAt_markRead_self (m : Mem) (i : Nat) : stopAt (markRead m i) i = stopAt m i := by
  rw [stopAt, stopAt, sizeAt_markRead_self]

theorem payloadAt_markRead_self (m : Mem) (i : Nat) :
    payloadAt (markRead m i) i = payloadAt m i := by
  rw [payloadAt, payloadAt, sizeAt_markRead_self]
  exact Mem.loadBytes_congr (fun _ h1 h2 => markRead_other m (by omega))

theorem validAt_markRead_self (n : Nat) (m : Mem) (i : Nat) :
    validAt n (markRead m i) i = validAt n m i := by
  simp only [validAt]
  rw [sizeAt_markRead_self, payloadAt_markRead_self, markRead_other m (by omega),
    markRead_other m (by omega)]

/-- Setting the flag sets the flag. -/
theorem readAt_markRead_self (m : Mem) (i : Nat) : readAt (markRead m i) i = true := by
  have key : ∀ b : UInt8, decide ((b ||| headerFlagsFlagReadMask)
      &&& headerFlagsFlagReadMask ≠ 0) = true := by decide +kernel
  rw [readAt, markRead_flags]
  exact key _

/-- The end marker has an even top byte, a marked header an odd one. -/
theorem wordAt_markRead_self (m : Mem) (i : Nat) :
    wordAt (markRead m i) i ≠ endPointer := by
  have key : ∀ b : UInt8, (b ||| headerFlagsFlagReadMask).toNat % 2 = 1 := by
    decide +kernel
  have hodd := key (m (4 * i + 3))
  have hb0 := (markRead m i (4 * i)).toNat_lt
  have hb1 := (markRead m i (4 * i + 1)).toNat_lt
  have hb2 := (markRead m i (4 * i + 2)).toNat_lt
  intro h
  simp only [wordAt, Mem.load32, markRead_flags, endPointer] at h
  omega

/-! ## Cells in memory -/

/-- The header at the start of the cell leads to its stop, does not look like an
    end marker (nobody looks at index 0), and announces a payload inside the
    buffer. -/
structure InMem (n : Nat) (m : Mem) (c : Cell) : Prop where
  stop_eq : stopAt m c.start = c.stop
  not_end : 0 < c.start → wordAt m c.start ≠ endPointer
  fits : 4 * c.start + 12 + sizeAt m c.start ≤ 4 * n

/-- The end of a lap: the end of the buffer or an end marker. -/
def AtEnd (n : Nat) (m : Mem) (e : Nat) : Prop := n ≤ e ∨ wordAt m e = endPointer

variable {n : Nat} {m m' : Mem} {r w : Nat}

theorem InMem.lt {c : Cell} (h : InMem n m c) : c.start + 3 ≤ c.stop := by
  have := h.stop_eq
  simp only [stopAt, headerLen] at this
  omega

theorem InMem.stop_le (hn : n ≤ 2 ^ 28) {c : Cell} (h : InMem n m c) : c.stop ≤ n := by
  have h1 := h.stop_eq
  have h2 := h.fits
  have h3 := words_spec (size_small hn h2)
  simp only [stopAt, headerLen] at h1
  omega

theorem InMem.congr {c : Cell} (h : InMem n m c) (ha : AgreeOn m m' c.start c.stop) :
    InMem n m' c := by
  have hlt := h.lt
  have h3 : AgreeOn m m' c.start (c.start + 3) := ha.mono (Nat.le_refl _) (by omega)
  have h1 : AgreeOn m m' c.start (c.start + 1) := ha.mono (Nat.le_refl _) (by omega)
  refine ⟨?_, ?_, ?_⟩
  · rw [stopAt_congr h3]
    exact h.stop_eq
  · rw [wordAt_congr h1]
    exact h.not_end
  · rw [sizeAt_congr h3]
    exact h.fits

/-- Marking a message that is not strictly inside the cell keeps the cell. -/
theorem InMem.markRead {c : Cell} (h : InMem n m c) {i : Nat}
    (hi : i ≤ c.start ∨ c.stop ≤ i) : InMem n (markRead m i) c := by
  by_cases heq : i = c.start
  · subst heq
    refine ⟨?_, fun _ => wordAt_markRead_self m c.start, ?_⟩
    · rw [stopAt_markRead_self]
      exact h.stop_eq
    · rw [sizeAt_markRead_self]
      exact h.fits
  · exact h.congr (agreeOn_markRead m (by omega))

theorem AtEnd.congr {e : Nat} (h : AtEnd n m e) (ha : n ≤ e ∨ AgreeOn m m' e (e + 1)) :
    AtEnd n m' e := by
  rcases h with hn | hw
  · exact Or.inl hn
  · rcases ha with hn | ha
    · exact Or.inl hn
    · refine Or.inr ?_
      rw [wordAt_congr ha]
      exact hw

/-- At the end of a lap the next message is at index 0. -/
theorem nextAt_atEnd {i e : Nat} (hstop : stopAt m i = e) (h : AtEnd n m e) :
    nextAt n m i = 0 := by
  rw [nextAt, hstop]
  by_cases hn : n ≤ e
  · rw [if_pos hn]
  · rw [if_neg hn, if_pos (h.resolve_left hn)]

/-- Elsewhere it is right behind. -/
theorem nextAt_inside {i e : Nat} (hstop : stopAt m i = e) (h : ¬ AtEnd n m e) :
    nextAt n m i = e := by
  have hn : ¬ n ≤ e := fun hn => h (Or.inl hn)
  have hw : ¬ wordAt m e = endPointer := fun hw => h (Or.inr hw)
  rw [nextAt, hstop, if_neg hn, if_neg hw]

/-- The start of a cell in memory is no end. -/
theorem InMem.not_atEnd {c : Cell} (h : InMem n m c) (hpos : 0 < c.start) :
    ¬ AtEnd n m c.start := by
  rintro (hn | hw)
  · have := h.fits
    omega
  · exact h.not_end hpos hw

/-! ## The ring -/

/-- The chain runs straight from the reader to the writer. -/
structure Straight (n : Nat) (m : Mem) (r w : Nat) (passed pending : List Cell) : Prop where
  before : Tiles 0 passed r
  tiles : Tiles r pending w
  lt : w < n
  mem : ∀ c ∈ passed ++ pending, InMem n m c

/-- The chain runs to an end and continues with the current lap. -/
structure Wrapped (n : Nat) (m : Mem) (r w : Nat) (passed tail lap : List Cell) : Prop where
  ne : tail ≠ []
  ends : ∃ e, Tiles r tail e ∧ AtEnd n m e
  le : w ≤ r
  tiles : Tiles 0 lap w
  before : lap = [] → Tiles 0 passed r
  passed_nil : lap ≠ [] → passed = []
  mem : ∀ c ∈ passed ++ (tail ++ lap), InMem n m c

/-- The shape of the buffer between the pointers. -/
def Ring (n : Nat) (m : Mem) (r w : Nat) (passed pending : List Cell) : Prop :=
  Straight n m r w passed pending ∨
    ∃ tail lap, pending = tail ++ lap ∧ Wrapped n m r w passed tail lap

variable {passed pending : List Cell}

theorem Ring.mem (h : Ring n m r w passed pending) :
    ∀ c ∈ passed ++ pending, InMem n m c := by
  rcases h with h | ⟨tail, lap, rfl, h⟩
  · exact h.mem
  · exact h.mem

/-- No message left: the reader has met the writer. -/
theorem ring_nil (h : Ring n m r w passed []) : r = w ∧ Tiles 0 passed r ∧ w < n := by
  rcases h with h | ⟨tail, lap, heq, h⟩
  · exact ⟨h.tiles, h.before, h.lt⟩
  · have := List.append_eq_nil_iff.mp heq.symm
    exact absurd this.1 h.ne

/-- The next message is the one at the read pointer. -/
theorem ring_cons {c : Cell} {rest : List Cell} (h : Ring n m r w passed (c :: rest)) :
    c.start = r ∧ InMem n m c := by
  refine ⟨?_, h.mem c (by simp)⟩
  rcases h with h | ⟨tail, lap, heq, h⟩
  · exact h.tiles.head_start
  · obtain ⟨e, ht, -⟩ := h.ends
    cases tail with
    | nil => exact absurd rfl h.ne
    | cons t ts =>
        obtain ⟨rfl, -⟩ := List.cons_eq_cons.mp heq
        exact ht.head_start

/-- A chain that tiles `r` to `c` behind what tiles 0 to `r` is a ring whose
    writer stands at `c`, or at 0 when `c` is the end of the buffer. -/
theorem Ring.ofTiles {c : Nat} (h1 : Tiles 0 passed r) (h2 : Tiles r pending c)
    (hpos : 0 < n) (hc : c ≤ n) (hne : pending ≠ [])
    (hmem : ∀ c ∈ passed ++ pending, InMem n m c) :
    Ring n m r (c % n) passed pending := by
  rcases Nat.lt_or_ge c n with hlt | hge
  · rw [Nat.mod_eq_of_lt hlt]
    exact Or.inl ⟨h1, h2, hlt, hmem⟩
  · have hcn : c = n := by omega
    subst hcn
    rw [Nat.mod_self]
    refine Or.inr ⟨pending, [], (List.append_nil _).symm, hne, ⟨c, h2, Or.inl (Nat.le_refl _)⟩,
      Nat.zero_le _, rfl, fun _ => h1, fun h => absurd rfl h, ?_⟩
    rw [List.append_nil]
    exact hmem

/-! ## Completing the message at the read pointer -/

/-- The cell after the first one of a tiling is where `prv_get_next_message`
    goes. -/
theorem nextAt_tiles {a b : Nat} {c d : Cell} {rest : List Cell}
    (ht : Tiles a (c :: d :: rest) b) (hc : InMem n m c) (hd : InMem n m d) :
    nextAt n m c.start = d.start := by
  have hstart : d.start = c.stop := ht.2.2.1
  have hlt := hc.lt
  rw [hstart]
  refine nextAt_inside hc.stop_eq ?_
  rw [← hstart]
  exact hd.not_atEnd (by omega)

/-- Marking the first message of a straight stretch keeps the stretch. -/
theorem inMem_markRead_tiles {a b : Nat} {cs : List Cell} (ht : Tiles a cs b)
    (hmem : ∀ c ∈ cs, InMem n m c) {i : Nat} (hi : i ≤ a ∨ b ≤ i) :
    ∀ c ∈ cs, InMem n (markRead m i) c := by
  intro c hc
  have hb := ht.bounds hc
  simp only [start_cell, stop_cell] at hb
  exact (hmem c hc).markRead (by omega)

/-- **Completing**: unless a left-over end marker stands at the write pointer, the
    reader moves on to the rest of its chain. -/
theorem Ring.complete {c : Cell} {rest : List Cell}
    (h : Ring n m r w passed (c :: rest)) (hok : c.stop = w → wordAt m w ≠ endPointer) :
    ∃ passed', Ring n (markRead m r) (nextAt n (markRead m r) r) w passed' rest ∧
      ∀ d ∈ passed', d ∈ passed ∨ d = c := by
  obtain ⟨hstart, hcmem⟩ := ring_cons h
  have hcmem' : InMem n (markRead m r) c := hcmem.markRead (by omega)
  rcases h with h | ⟨tail, lap, heq, h⟩
  · -- straight: the writer is ahead
    obtain ⟨-, hlt, hrest⟩ := h.tiles
    have hp : ∀ d ∈ passed, InMem n (markRead m r) d :=
      inMem_markRead_tiles h.before (fun d hd => h.mem d (by simp [hd])) (Or.inr (Nat.le_refl _))
    have hr : ∀ d ∈ rest, InMem n (markRead m r) d :=
      inMem_markRead_tiles hrest (fun d hd => h.mem d (by simp [hd]))
        (Or.inl (by simp only [start_cell, stop_cell] at hlt ⊢; omega))
    have hnext : nextAt n (markRead m r) r = c.stop := by
      rw [← hstart]
      refine nextAt_inside (hstart ▸ hcmem'.stop_eq) ?_
      rw [hstart]
      cases rest with
      | nil =>
          have hw : c.stop = w := hrest
          rintro (hn | he)
          · have := h.lt
            omega
          · refine hok hw ?_
            rw [← he, hw]
            have hrw : r < w := by simp only [start_cell, stop_cell] at hlt; omega
            exact (wordAt_congr (agreeOn_markRead m (Or.inl hrw))).symm
      | cons d ds =>
          have hd : d.start = c.stop := hrest.1
          rw [← hd]
          exact (hr d (by simp)).not_atEnd (by have := hcmem.lt; omega)
    refine ⟨passed ++ [c], Or.inl ⟨?_, ?_, h.lt, ?_⟩, ?_⟩
    · rw [hnext]
      exact tiles_snoc.mpr ⟨by rw [start_cell, hstart]; exact h.before, hlt, rfl⟩
    · rw [hnext]
      exact hrest
    · intro d hd
      simp only [List.mem_append, List.mem_singleton] at hd
      rcases hd with (hd | hd) | hd
      · exact hp d hd
      · rw [hd]
        exact hcmem'
      · exact hr d hd
    · intro d hd
      simp only [List.mem_append, List.mem_singleton] at hd
      exact hd
  · -- wrapped: the chain continues at index 0 after the end
    obtain ⟨e, ht, he⟩ := h.ends
    cases tail with
    | nil => exact absurd rfl h.ne
    | cons t ts =>
        obtain ⟨rfl, rfl⟩ := List.cons_eq_cons.mp heq
        obtain ⟨-, hlt, hrest⟩ := ht
        simp only [start_cell, stop_cell] at hlt hrest
        have hts : ∀ d ∈ ts, InMem n (markRead m r) d :=
          inMem_markRead_tiles hrest (fun d hd => h.mem d (by simp [hd]))
            (Or.inl (by omega))
        have hlap : ∀ d ∈ lap, InMem n (markRead m r) d :=
          inMem_markRead_tiles h.tiles (fun d hd => h.mem d (by simp [hd])) (Or.inr h.le)
        have hle := hrest.le
        have he' : AtEnd n (markRead m r) e :=
          he.congr (Or.inr (agreeOn_markRead m (Or.inl (by omega))))
        cases ts with
        | nil =>
            have hce : c.stop = e := hrest
            have hnext : nextAt n (markRead m r) r = 0 := by
              rw [← hstart]
              exact nextAt_atEnd (hstart ▸ hcmem'.stop_eq.trans hce) (hstart ▸ he')
            have hwn : w < n := by
              have := hcmem.fits
              have := h.le
              omega
            refine ⟨[], Or.inl ⟨?_, ?_, hwn, ?_⟩, fun d hd => nomatch hd⟩
            · rw [hnext]
              rfl
            · rw [hnext]
              exact h.tiles
            · intro d hd
              exact hlap d (by simpa using hd)
        | cons d ds =>
            have hd : d.start = c.stop := hrest.1
            have hnext : nextAt n (markRead m r) r = c.stop := by
              rw [← hstart]
              refine nextAt_inside (hstart ▸ hcmem'.stop_eq) ?_
              rw [hstart, ← hd]
              exact (hts d (by simp)).not_atEnd (by have := hcmem.lt; omega)
            refine ⟨if lap = [] then passed ++ [c] else [], Or.inr ⟨d :: ds, lap, rfl, ?_⟩, ?_⟩
            · refine ⟨by simp, ⟨e, by rw [hnext]; exact hrest, he'⟩, ?_, h.tiles, ?_, ?_, ?_⟩
              · rw [hnext]
                have := h.le
                omega
              · intro hl
                rw [hnext, if_pos hl]
                exact tiles_snoc.mpr ⟨by rw [start_cell, hstart]; exact h.before hl, hlt, rfl⟩
              · intro hl
                rw [if_neg hl]
              · intro x hx
                rcases List.mem_append.mp hx with hx | hx
                · by_cases hl : lap = []
                  · rw [if_pos hl] at hx
                    simp only [List.mem_append, List.mem_singleton] at hx
                    rcases hx with hx | hx
                    · exact inMem_markRead_tiles (h.before hl)
                        (fun d hd => h.mem d (by simp [hd])) (Or.inr (Nat.le_refl _)) x hx
                    · rw [hx]
                      exact hcmem'
                  · rw [if_neg hl] at hx
                    exact nomatch hx
                · rcases List.mem_append.mp hx with hx | hx
                  · exact hts x hx
                  · exact hlap x hx
            · intro x hx
              by_cases hl : lap = []
              · rw [if_pos hl] at hx
                simp only [List.mem_append, List.mem_singleton] at hx
                exact hx
              · rw [if_neg hl] at hx
                exact nomatch hx

/-! ## The move of the read pointer -/

/-- The index of the first cell of a list, or 0 if there is none. -/
def firstStart : List Cell → Nat
  | [] => 0
  | c :: _ => c.start

/-- It is where a tiling begins. -/
theorem firstStart_eq {a b : Nat} {cs : List Cell} (h : Tiles a cs b) (hne : cs ≠ []) :
    firstStart cs = a := by
  cases cs with
  | nil => exact absurd rfl hne
  | cons c cs => exact h.head_start

theorem tiles_length_le {a b : Nat} {cs : List Cell} (h : Tiles a cs b) :
    a + cs.length ≤ b := by
  induction cs generalizing a with
  | nil => exact Nat.le_of_eq h
  | cons c cs ih =>
      obtain ⟨hs, hlt, hrest⟩ := h
      have := ih hrest
      simp only [start_cell, stop_cell] at hs hlt this
      rw [List.length_cons]
      omega

/-- The loop of `ticosd_queue_write` moves along the chain to its first message
    that the write leaves alone, or to index 0. -/
theorem skipTo_eq {writeEnd e : Nat} :
    ∀ (cs : List Cell) (c : Cell) (fuel : Nat), Tiles c.start (c :: cs) e → AtEnd n m e →
      (∀ d ∈ c :: cs, InMem n m d) → c.start < writeEnd → cs.length < fuel →
      skipTo n m writeEnd fuel c.start = firstStart (dropBelow writeEnd (c :: cs)) := by
  intro cs
  induction cs with
  | nil =>
      intro c fuel ht he hmem hlt hfuel
      obtain ⟨fuel, rfl⟩ : ∃ f, fuel = f + 1 := ⟨fuel - 1, by omega⟩
      have hnext : nextAt n m c.start = 0 :=
        -- the chain ends here, and with it the file
        nextAt_atEnd ((hmem c (by simp)).stop_eq.trans ht.2.2) he
      rw [skipTo, if_pos (Or.inr hnext), hnext, dropBelow_cons_lt hlt]
      rfl
  | cons d ds ih =>
      intro c fuel ht he hmem hlt hfuel
      obtain ⟨fuel, rfl⟩ : ∃ f, fuel = f + 1 :=
        ⟨fuel - 1, by rw [List.length_cons] at hfuel; omega⟩
      have hnext : nextAt n m c.start = d.start :=
        nextAt_tiles ht (hmem c (by simp)) (hmem d (by simp))
      have hpos : d.start ≠ 0 := by
        have h1 := ht.2.1
        have h2 : d.start = c.stop := ht.2.2.1
        simp only [start_cell, stop_cell] at h1
        omega
      have htd : Tiles d.start (d :: ds) e := by
        have h2 : d.start = c.stop := ht.2.2.1
        rw [h2]
        exact ht.2.2
      rw [skipTo, hnext, dropBelow_cons_lt hlt]
      by_cases hge : writeEnd ≤ d.start
      · rw [if_pos (Or.inl hge), dropBelow_cons_ge hge]
        rfl
      · rw [if_neg (by omega)]
        exact ih d fuel htd he (fun x hx => hmem x (List.mem_cons_of_mem _ hx)) (by omega)
          (by rw [List.length_cons] at hfuel; omega)

/-- The read pointer after the move, also when the first cell needs no move. -/
theorem skip_or_stay {writeEnd e : Nat} (hn : n ≤ 2 ^ 28) {cs : List Cell}
    (hne : cs ≠ []) (ht : Tiles r cs e) (he : AtEnd n m e) (hmem : ∀ d ∈ cs, InMem n m d) :
    (if r < writeEnd then skipTo n m writeEnd n r else r)
      = firstStart (dropBelow writeEnd cs) := by
  cases cs with
  | nil => exact absurd rfl hne
  | cons c cs =>
      have hstart : c.start = r := ht.head_start
      by_cases hlt : r < writeEnd
      · have hlen := tiles_length_le ht
        have hstop : e ≤ n := by
          have hlast := ht.getLast_stop (by simp)
          rw [← hlast]
          exact (hmem _ (List.getLast_mem _)).stop_le hn
        rw [if_pos hlt, ← hstart]
        rw [← hstart] at ht hlt
        exact skipTo_eq cs c n ht he hmem hlt (by rw [List.length_cons] at hlen; omega)
      · rw [if_neg hlt, dropBelow_cons_ge (by rw [start_cell]; omega)]
        exact hstart.symm

end QueueRing
