import Ticosd.QueueRestart

/-! # The file of a cut write

    A write of the queue is several stores, one after the other: an end marker if the writer
    wraps, a header, a payload and padding.  `image` is the file after the first of them.
    Two things are said about it here.

    * **Stores** — the words outside the message are as the marker has left them, the header
      stands as it is stored, and a cell is hit exactly if it reaches into the words that the
      stores have come to (`Started`).
    * **Cells** — the cells that such a store leaves alone lie around it: a lap that runs up
      to the message, and a tail behind it that runs up to an end (`Around`).  From there the
      chain of the file is a ring again, without the message (`Around.ring`), with the
      message as its last one (`Around.grow`), or with the message in the middle
      (`Around.round`). -/

namespace QueueCutImage

open ByteStore QueueModel QueueView QueueRing QueueOverwrite QueueRun QueueRestart Tiling

variable {p : List UInt8} {j : Nat}

/-- The file after the first `j` stores of a write. -/
def image (q : TicosdQueue) (p : List UInt8) (j : Nat) : Mem :=
  applyStores q.buf ((ticosdQueueWrite q (some p)).stores.take j)

/-- The stores so far are more than an end marker. -/
def HeaderStored (q : TicosdQueue) (p : List UInt8) (j : Nat) : Prop :=
  (markerStores q p.length).length < j

instance (q : TicosdQueue) (p : List UInt8) (j : Nat) : Decidable (HeaderStored q p j) :=
  inferInstanceAs (Decidable (_ < _))

/-! ## The stores so far -/

section Stores

variable {q : TicosdQueue}

/-- How many words behind its start the first `i` stores of a message reach. -/
def reached (k i : Nat) : Nat := if i = 1 then headerLen else msgWords k

theorem reached_le (k i : Nat) : reached k i ≤ msgWords k := by
  rw [reached, msgWords]
  split <;> omega

/-- A write that is taken, from its header on. -/
structure Started (q : TicosdQueue) (p : List UInt8) (j : Nat) : Prop where
  len : p.length + 3 < 2 ^ 32
  reader : q.readPtr < 2 ^ 31
  accepts : Accepts q p.length
  stored : HeaderStored q p j

/-- The stores of the message so far. -/
def bodyStores (q : TicosdQueue) (p : List UInt8) (i : Nat) : List (Nat × List UInt8) :=
  (4 * startOf q p.length, msgHeader q.prevPtr p)
    :: ((4 * startOf q p.length + 12, p) :: paddingStores (startOf q p.length) p.length).take (i - 1)

theorem Started.eq (h : Started q p j) : (ticosdQueueWrite q (some p)).stores.take j
    = markerStores q p.length ++ bodyStores q p (j - (markerStores q p.length).length) := by
  have hstored : (markerStores q p.length).length < j := h.stored
  obtain ⟨i, rfl⟩ : ∃ i, j = (markerStores q p.length).length + (i + 1) :=
    ⟨j - (markerStores q p.length).length - 1, by omega⟩
  rw [write_stores q p h.len h.reader h.accepts, List.append_assoc, List.take_length_add_append,
    Nat.add_sub_cancel_left]
  rfl

theorem bodyStores_within (hlen : p.length + 3 < 2 ^ 32) {i : Nat} (hi : 0 < i)
    {st : Nat × List UInt8} (hst : st ∈ bodyStores q p i) :
    4 * startOf q p.length ≤ st.1 ∧
      st.1 + st.2.length ≤ 4 * (startOf q p.length + reached p.length i) := by
  have hwords := words_spec hlen
  rw [reached]
  rcases List.mem_cons.mp hst with rfl | hst
  · dsimp only
    rw [msgHeader_length]
    simp only [msgWords, headerLen]
    split <;> omega
  · have hone : i ≠ 1 := by
      rintro rfl
      cases hst
    rw [if_neg hone, msgWords, headerLen]
    rcases List.mem_cons.mp (List.mem_of_mem_take hst) with rfl | hpad
    · dsimp only
      omega
    · rw [paddingStores] at hpad
      by_cases hneeds : 4 * prvBytesToWordsRoundUp p.length - p.length > 0
      · rw [if_pos hneeds, List.mem_singleton] at hpad
        subst hpad
        rw [List.length_replicate]
        omega
      · rw [if_neg hneeds] at hpad
        cases hpad

/-- Words on which no store falls stay. -/
theorem agreeOn_applyStores {lo hi : Nat} (stores : List (Nat × List UInt8)) (m : Mem)
    (h : ∀ st ∈ stores, st.1 + st.2.length ≤ 4 * lo ∨ 4 * hi ≤ st.1) :
    AgreeOn m (applyStores m stores) lo hi := by
  induction stores generalizing m with
  | nil => exact fun a _ _ => rfl
  | cons st rest ih =>
      intro a hlo hhi
      have hst := h st List.mem_cons_self
      have hrest := ih (m.storeBytes st.1 st.2) (fun x hx => h x (List.mem_cons_of_mem _ hx))
      exact (hrest a hlo hhi).trans (Mem.storeBytes_frame _ (by omega))

theorem applyStores_marker (q : TicosdQueue) (k : Nat) :
    applyStores q.buf (markerStores q k) = endMarked q k := by
  rw [markerStores, endMarked]
  by_cases hw : Wraps q k
  · rw [if_pos hw, if_pos hw]
    rfl
  · rw [if_neg hw, if_neg hw]
    rfl

/-- The marker changes the word at the write pointer only. -/
theorem agreeOn_endMarked {k lo hi : Nat}
    (hmark : Wraps q k → hi ≤ q.writePtr ∨ q.writePtr < lo) :
    AgreeOn q.buf (endMarked q k) lo hi := by
  intro a hlo hhi
  rw [endMarked]
  by_cases hw : Wraps q k
  · have hside := hmark hw
    rw [if_pos hw]
    exact Mem.storeBytes_frame _ (by rw [le32_length]; omega)
  · rw [if_neg hw]

theorem Started.image_eq (h : Started q p j) : image q p j
    = applyStores (endMarked q p.length)
      (bodyStores q p (j - (markerStores q p.length).length)) := by
  rw [image, h.eq, applyStores, List.foldl_append]
  exact congrArg (applyStores · _) (applyStores_marker q p.length)

/-- How far the stores of the message reach. -/
def reachedBy (q : TicosdQueue) (p : List UInt8) (j : Nat) : Nat :=
  reached p.length (j - (markerStores q p.length).length)

/-- The stores of the message leave alone what the marker has left. -/
theorem Started.agrees_marked (h : Started q p j) {lo hi : Nat}
    (hside : hi ≤ startOf q p.length ∨ startOf q p.length + reachedBy q p j ≤ lo) :
    AgreeOn (endMarked q p.length) (image q p j) lo hi := by
  have hstored : (markerStores q p.length).length < j := h.stored
  rw [h.image_eq]
  refine agreeOn_applyStores _ _ fun st hst => ?_
  have hin := bodyStores_within h.len (by omega) hst
  rw [reachedBy] at hside
  omega

theorem Started.agrees (h : Started q p j) {lo hi : Nat}
    (hside : hi ≤ startOf q p.length ∨ startOf q p.length + reachedBy q p j ≤ lo)
    (hmark : Wraps q p.length → hi ≤ q.writePtr ∨ q.writePtr < lo) :
    AgreeOn q.buf (image q p j) lo hi :=
  (agreeOn_endMarked hmark).trans (h.agrees_marked hside)

/-- The header is in the file. -/
theorem Started.header (h : Started q p j) {i : Nat} (hi : i < 12) :
    image q p j (4 * startOf q p.length + i) = (msgHeader q.prevPtr p).getD i 0 := by
  have hrest : AgreeOn
      ((endMarked q p.length).storeBytes (4 * startOf q p.length) (msgHeader q.prevPtr p))
      (image q p j) (startOf q p.length) (startOf q p.length + 3) := by
    rw [h.image_eq]
    refine agreeOn_applyStores _ _ fun st hst => Or.inr ?_
    rcases List.mem_cons.mp (List.mem_of_mem_take hst) with rfl | hpad
    · dsimp only
      omega
    · rw [paddingStores] at hpad
      by_cases hneeds : 4 * prvBytesToWordsRoundUp p.length - p.length > 0
      · rw [if_pos hneeds, List.mem_singleton] at hpad
        subst hpad
        dsimp only
        omega
      · rw [if_neg hneeds] at hpad
        cases hpad
  exact (hrest _ (by omega) (by omega)).trans
    (Mem.storeBytes_inside _ (by rw [msgHeader_length]; exact hi))

/-- The cells that the stores of a message at the write pointer leave alone. -/
theorem Started.not_hit_iff (h : Started q p j) (hstays : ¬ Wraps q p.length) {c : Cell}
    (hc : c.start < c.stop) :
    hits ((ticosdQueueWrite q (some p)).stores.take j) c = false ↔
      c.stop ≤ q.writePtr ∨ q.writePtr + reachedBy q p j ≤ c.start := by
  have hstored : (markerStores q p.length).length < j := h.stored
  have hmarker : markerStores q p.length = [] := if_neg hstays
  have hstart := startOf_stays q p.length hstays
  have heq := h.eq
  rw [hmarker, List.nil_append] at heq
  rw [hmarker] at hstored
  rw [heq, hits, List.any_eq_false, reachedBy, hmarker, List.length_nil, Nat.sub_zero]
  constructor
  · intro hno
    have hall : ∀ st ∈ bodyStores q p j, ¬ (st.1 < 4 * c.stop ∧ 4 * c.start < st.1 + st.2.length) :=
      fun st hst hhit => hno st hst (decide_eq_true hhit)
    have hwords := words_spec h.len
    have hpos := h.accepts.1
    have hhead := hall _ List.mem_cons_self
    dsimp only at hhead
    rw [msgHeader_length, hstart] at hhead
    rw [reached]
    by_cases hone : j = 1
    · rw [if_pos hone, headerLen]
      omega
    · have hpay := hall (4 * startOf q p.length + 12, p) (List.mem_cons_of_mem _ (by
        obtain ⟨i, hi⟩ : ∃ i, j - 1 = i + 1 := ⟨j - 2, by
          rw [List.length_nil] at hstored
          omega⟩
        rw [hi]
        exact List.mem_cons_self))
      dsimp only at hpay
      rw [hstart] at hpay
      rw [if_neg hone, msgWords, headerLen]
      omega
  · intro hside st hst hhit
    have hin := bodyStores_within h.len hstored hst
    have := of_decide_eq_true hhit
    omega

end Stores

/-! ## The chain around the message -/

section Chain

variable {n r w x b e : Nat} {m m' : Mem} {passed pending tail lap : List Cell} {c : Cell}

/-- The cells that a store to the words from `w` on, `x` of them, leaves alone. -/
def clearOf (w x : Nat) (cs : List Cell) : List Cell :=
  cs.filter (fun c => decide (c.stop ≤ w ∨ w + x ≤ c.start))

/-- Cells in front of the store. -/
theorem clearOf_before {a : Nat} {cs : List Cell} (ht : Tiles a cs w) : clearOf w x cs = cs := by
  refine List.filter_eq_self.mpr fun c hc => decide_eq_true (Or.inl ?_)
  have hb := ht.bounds hc
  simp only [stop_cell] at hb
  omega

/-- Of the cells behind it, those that begin behind it. -/
theorem clearOf_behind {a b : Nat} {cs : List Cell} (ht : Tiles a cs b) (hle : w ≤ a) :
    clearOf w x cs = dropBelow (w + x) cs := by
  induction cs generalizing a with
  | nil => rfl
  | cons c cs ih =>
      have hrest := ht.2.2
      have hb := ht.bounds (List.mem_cons_self (a := c))
      simp only [start_cell, stop_cell] at hb hrest
      by_cases hc : w + x ≤ c.start
      · rw [dropBelow_cons_ge hc]
        refine List.filter_eq_self.mpr fun d hd => decide_eq_true (Or.inr ?_)
        rcases List.mem_cons.mp hd with rfl | hd
        · exact hc
        · have hbd := (hrest.bounds hd).1
          simp only [start_cell] at hbd
          omega
      · have hnot : ¬ (c.stop ≤ w ∨ w + x ≤ c.start) := by omega
        rw [dropBelow_cons_lt (show c.start < w + x by omega), ← ih hrest (by omega), clearOf,
          clearOf, List.filter_cons_of_neg (by simpa using hnot)]

/-- What lies around the words from `w` to `w + x`: a lap that runs up to them, and a tail
    behind them that runs up to an end.  With a tail the lap begins at index 0. -/
structure Around (n : Nat) (m : Mem) (w x : Nat) (passed tail lap : List Cell) (b : Nat) :
    Prop where
  before : Tiles 0 passed b
  runs : Tiles b lap w
  ends : tail ≠ [] → b = 0 ∧ w + x ≤ firstStart tail ∧
    ∃ e, Tiles (firstStart tail) tail e ∧ AtEnd n m e
  mem : ∀ d ∈ passed ++ (tail ++ lap), InMem n m d

theorem Around.passed_nil (h : Around n m w x passed tail lap b) (hne : tail ≠ []) :
    passed = [] := by
  by_contra hsome
  have hlt := h.before.lt_of_ne_nil hsome
  have := (h.ends hne).1
  omega

/-- Without the message: the chain ends in front of it. -/
theorem Around.ring (h : Around n m w x passed tail lap b) (hpos : 0 < w) (hw : w < n)
    (hne : tail ++ lap ≠ []) : Ring n m (firstStart (tail ++ lap)) w passed (tail ++ lap) := by
  cases tail with
  | nil =>
      rw [List.nil_append, firstStart_eq h.runs hne]
      exact Or.inl ⟨h.before, h.runs, hw, h.mem⟩
  | cons c cs =>
      obtain ⟨rfl, hle, e, ht, he⟩ := h.ends (by simp)
      have hlap : lap ≠ [] := by
        rintro rfl
        have h0 : 0 = w := h.runs
        omega
      refine Or.inr ⟨c :: cs, lap, rfl, by simp, ⟨e, ht, he⟩, ?_, h.runs,
        fun hnil => absurd hnil hlap, fun _ => h.passed_nil (by simp), h.mem⟩
      exact Nat.le_trans (Nat.le_add_right w x) hle

/-- With the message at the end of the chain. -/
theorem Around.grow (h : Around n m w x passed tail lap b) (hne : tail ++ lap ≠ [])
    (hstart : c.start = w) (hstop : c.stop = w + x) (hmem : InMem n m c) (hn : w + x ≤ n) :
    Ring n m (firstStart (tail ++ lap)) ((w + x) % n) passed (tail ++ lap ++ [c]) := by
  have hlt := hmem.lt
  have htiles : Tiles b (lap ++ [c]) (w + x) :=
    tiles_snoc.mpr ⟨by rw [start_cell, hstart]; exact h.runs, by rw [start_cell, stop_cell]; omega,
      hstop⟩
  have hall : ∀ d ∈ passed ++ (tail ++ (lap ++ [c])), InMem n m d := by
    intro d hd
    rw [← List.append_assoc, ← List.append_assoc] at hd
    rcases List.mem_append.mp hd with hd | hd
    · exact h.mem d (by rw [← List.append_assoc]; exact hd)
    · rw [List.mem_singleton.mp hd]
      exact hmem
  rw [List.append_assoc]
  cases tail with
  | nil =>
      rw [List.nil_append, List.nil_append, firstStart_eq h.runs hne]
      exact Ring.ofTiles h.before htiles (by omega) hn (by simp) hall
  | cons d ds =>
      obtain ⟨rfl, hle, e, ht, he⟩ := h.ends (by simp)
      have hfits := (h.mem d (by simp)).fits
      rw [firstStart] at hle
      rw [Nat.mod_eq_of_lt (by omega)]
      exact Or.inr ⟨d :: ds, lap ++ [c], rfl, by simp, ⟨e, ht, he⟩, hle, htiles,
        fun hnil => by simp at hnil, fun _ => h.passed_nil (by simp), hall⟩

/-- With the message between the lap and the tail. -/
theorem Around.round (h : Around n m w x passed tail lap b) (hstart : c.start = w)
    (hstop : c.stop = w + x) (hmem : InMem n m c) (hne : tail ≠ [])
    (hfirst : firstStart tail = w + x) :
    ∃ e, Tiles 0 (lap ++ c :: tail) e ∧ AtEnd n m e := by
  have hlt := hmem.lt
  obtain ⟨rfl, -, e, ht, he⟩ := h.ends hne
  rw [hfirst, ← hstop] at ht
  refine ⟨e, tiles_append.mpr ⟨w, h.runs, hstart, ?_, ht⟩, he⟩
  rw [start_cell, stop_cell]
  omega

/-- **A store at the write pointer**: what it leaves alone lies around it. -/
theorem Ring.around (h : Ring n m r w passed pending) (hpos : 0 < w)
    (hagree : ∀ lo hi, hi ≤ w ∨ w + x ≤ lo → AgreeOn m m' lo hi) :
    ∃ passed' tail lap b, Around n m' w x passed' tail lap b ∧
      clearOf w x pending = tail ++ lap ∧ (∀ d ∈ passed', d ∈ passed ∧ d.stop ≤ w) ∧
      tail ++ lap <:+ pending := by
  rcases h with h | ⟨tail, lap, rfl, h⟩
  · -- straight: the store is behind the chain
    have hbefore : ∀ d ∈ passed ++ pending, d.stop ≤ w := by
      intro d hd
      have ht : Tiles 0 (passed ++ pending) w := tiles_append.mpr ⟨r, h.before, h.tiles⟩
      exact (ht.bounds hd).2.2
    refine ⟨passed, [], pending, r, ⟨h.before, h.tiles, fun hnil => absurd rfl hnil, ?_⟩,
      clearOf_before h.tiles, fun d hd => ⟨hd, hbefore d (List.mem_append_left _ hd)⟩,
      List.suffix_refl _⟩
    intro d hd
    exact (h.mem d hd).congr (hagree _ _ (Or.inl (hbefore d hd)))
  · -- wrapped: the store may run into the tail
    obtain ⟨e, ht, he⟩ := h.ends
    have hle := h.le
    have hlap : lap ≠ [] := by
      rintro rfl
      have h0 : 0 = w := h.tiles
      omega
    refine ⟨[], dropBelow (w + x) tail, lap, 0, ⟨rfl, h.tiles, fun hne => ?_, ?_⟩, ?_,
      (fun d hd => nomatch hd), ?_⟩
    · obtain ⟨-, a, -, -, -, hrest, hge⟩ := ht.dropBelow_spec (w + x)
      have hlt := hrest.lt_of_ne_nil hne
      have ha := hge hne
      rw [firstStart_eq hrest hne]
      exact ⟨rfl, ha, e, hrest, he.congr (Or.inr (hagree e (e + 1) (Or.inr (by omega))))⟩
    · intro d hd
      rw [List.nil_append] at hd
      rcases List.mem_append.mp hd with hd | hd
      · have hmem := (dropBelow_sublist (w + x) tail).subset hd
        exact (h.mem d (by simp [hmem])).congr
          (hagree _ _ (Or.inr (ht.le_start_of_mem_dropBelow hd)))
      · exact (h.mem d (by simp [hd])).congr (hagree _ _ (Or.inl (h.tiles.bounds hd).2.2))
    · rw [clearOf, List.filter_append]
      exact congrArg₂ (· ++ ·) (clearOf_behind ht h.le) (clearOf_before h.tiles)
    · obtain ⟨pre, hpre⟩ := dropBelow_suffix (w + x) tail
      exact ⟨pre, by rw [← List.append_assoc, hpre]⟩

/-- **A store at index 0**, under a chain that runs up to an end. -/
theorem around_front (ht : Tiles r pending e) (he : AtEnd n m e)
    (hmem : ∀ d ∈ pending, InMem n m d) (hagree : ∀ lo hi, x ≤ lo → AgreeOn m m' lo hi) :
    Around n m' 0 x [] (clearOf 0 x pending) [] 0 ∧ clearOf 0 x pending <:+ pending := by
  have hclear := clearOf_behind (x := x) ht (Nat.zero_le r)
  rw [Nat.zero_add] at hclear
  rw [hclear]
  refine ⟨⟨rfl, rfl, fun hne => ?_, ?_⟩, dropBelow_suffix x pending⟩
  · obtain ⟨-, a, -, -, -, hrest, hge⟩ := ht.dropBelow_spec x
    have hlt := hrest.lt_of_ne_nil hne
    have ha := hge hne
    rw [firstStart_eq hrest hne, Nat.zero_add]
    exact ⟨rfl, ha, e, hrest, he.congr (Or.inr (hagree e (e + 1) (by omega)))⟩
  · intro d hd
    rw [List.nil_append, List.append_nil] at hd
    exact (hmem d ((dropBelow_sublist x pending).subset hd)).congr
      (hagree _ _ (ht.le_start_of_mem_dropBelow hd))

end Chain

end QueueCutImage
