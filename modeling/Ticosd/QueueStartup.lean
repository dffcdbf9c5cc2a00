import Ticosd.LinkCircle
import Ticosd.QueueScan

/-! # The search for the pointers on any file

    The forward loop of `prv_queue_find_read_write_ptr` always ends: its index
    grows with every round.  The backward loop follows `prev_header` links, and
    these are whatever the file holds.  Its only guards are a link to itself, a
    link to a message that is invalid or read, and index 0; a circle of valid
    unread messages above index 0 gets past all of them.

    `ends_iff` says that such a circle is the only obstacle: the loop runs at all
    when index 0 begins a run of unread messages that ends inside the buffer, and
    it goes on for ever exactly when the links from index 0 lead into a circle. -/

namespace QueueStartup

open ByteStore QueueModel QueueView QueueScan Tiling LinkCircle

variable {n : Nat} {m : Mem}

/-! ## The backward loop as a relation -/

/-- The backward loop goes on from `i` to `j`. -/
def Back (n : Nat) (m : Mem) (i j : Nat) : Prop :=
  ¬WalkStops n m i ∧ prevAt m i = j ∧ 0 < j

instance (n : Nat) (m : Mem) (i j : Nat) : Decidable (Back n m i j) :=
  inferInstanceAs (Decidable (_ ∧ _ ∧ _))

/-- A link that the loop follows leads to a valid unread message. -/
theorem Back.spec {i j : Nat} (h : Back n m i j) :
    prevAt m i = j ∧ j ≠ i ∧ validAt n m j = true ∧ readAt m j = false ∧ 0 < j := by
  obtain ⟨hstop, rfl, hpos⟩ := h
  obtain ⟨hself, hvu⟩ := not_or.mp hstop
  obtain ⟨hv, hr⟩ := not_not.mp hvu
  exact ⟨rfl, hself, hv, hr, hpos⟩

theorem Back.lt {i j : Nat} (h : Back n m i j) : j < n :=
  valid_lt h.spec.2.2.1

theorem Back.walk {i j : Nat} (h : Back n m i j) (fuel : Nat) :
    walk n m (fuel + 1) i = walk n m fuel j := by
  obtain ⟨hlink, hne, hv, hr, hpos⟩ := h.spec
  exact walk_step hlink hne hv hr hpos

/-- One round of the loop ends it or follows a link. -/
theorem walk_cases (fuel i : Nat) :
    (∃ r, walk n m (fuel + 1) i = some r) ∨ Back n m i (prevAt m i) := by
  by_cases hstop : WalkStops n m i
  · exact Or.inl ⟨i, walk_stops hstop⟩
  by_cases hpos : 0 < prevAt m i
  · exact Or.inr ⟨hstop, rfl, hpos⟩
  · exact Or.inl ⟨0, walk_zero hstop (by omega)⟩

/-! ## A circle is never left -/

theorem walk_none : ∀ (fuel : Nat) {i : Nat}, Circle (Back n m) i → walk n m fuel i = none := by
  intro fuel
  induction fuel with
  | zero => intro i _; rfl
  | succ fuel ih =>
      intro i h
      obtain ⟨j, hij, hj⟩ := h.next
      rw [hij.walk]
      exact ih hj

/-! ## Without a circle the loop ends -/

/-- A loop that has not ended has followed a link in every round. -/
theorem back_of_walk_none : ∀ (fuel : Nat) {i : Nat}, walk n m fuel i = none →
    ∀ k < fuel, Back n m ((prevAt m)^[k] i) ((prevAt m)^[k + 1] i) := by
  intro fuel
  induction fuel with
  | zero => intro i _ k hk; omega
  | succ fuel ih =>
      intro i h k hk
      -- a round that does not end the loop follows the link
      have hback : Back n m i (prevAt m i) := by
        rcases walk_cases (n := n) (m := m) fuel i with ⟨r, hr⟩ | hback
        · rw [hr] at h
          exact nomatch h
        · exact hback
      cases k with
      | zero => exact hback
      | succ k =>
          rw [hback.walk] at h
          have hk' := ih h k (by omega)
          rw [← Function.iterate_succ_apply, ← Function.iterate_succ_apply] at hk'
          exact hk'

/-- A loop that outlives the buffer runs in a circle. -/
theorem circle_of_walk_none {i : Nat} (h : walk n m (n + 1) i = none) : Circle (Back n m) i := by
  have hback := back_of_walk_none _ h
  refine circle_of_path (f := fun k => (prevAt m)^[k] i) (S := Finset.range n) ?_ ?_
  · intro k hk
    rw [Finset.card_range] at hk
    exact hback k hk
  · intro k hk
    rw [Finset.card_range] at hk
    exact Finset.mem_range.mpr (hback k hk).lt

/-- The backward loop ends exactly when there is no circle, and then within one
    round more than the buffer has words. -/
theorem walk_ends_iff {i : Nat} :
    (∃ fuel r, walk n m fuel i = some r) ↔ ¬Circle (Back n m) i := by
  constructor
  · rintro ⟨fuel, r, h⟩ hcircle
    rw [walk_none fuel hcircle] at h
    exact nomatch h
  · intro hcircle
    cases h : walk n m (n + 1) i with
    | none => exact absurd (circle_of_walk_none h) hcircle
    | some r => exact ⟨n + 1, r, h⟩

/-! ## When the backward loop is run -/

/-- The run of unread messages from `i` on ends inside the buffer. -/
def RunEnds (n : Nat) (m : Mem) : Nat → Nat → Prop
  | 0, _ => False
  | fuel + 1, i => ¬(validAt n m i = true ∧ readAt m i = false) ∨
      (nextAt n m i ≠ 0 ∧ RunEnds n m fuel (nextAt n m i))

instance decidableRunEnds (n : Nat) (m : Mem) : ∀ fuel i, Decidable (RunEnds n m fuel i)
  | 0, _ => inferInstanceAs (Decidable False)
  | fuel + 1, i =>
      have := decidableRunEnds n m fuel (nextAt n m i)
      inferInstanceAs (Decidable (_ ∨ (_ ∧ _)))

/-- Index 0 begins a run of unread messages that ends inside the buffer, so there
    may be more of them after the wrap-around. -/
def NeedsWalk (n : Nat) (m : Mem) : Prop :=
  validAt n m 0 = true ∧ readAt m 0 = false ∧ nextAt n m 0 ≠ 0 ∧ RunEnds n m n (nextAt n m 0)

instance (n : Nat) (m : Mem) : Decidable (NeedsWalk n m) :=
  inferInstanceAs (Decidable (_ ∧ _ ∧ _ ∧ _))

/-- After an unread message the scan keeps the read pointer, and its write pointer
    is above 0 when the run of unread messages ends inside. -/
theorem scan_run_ends : ∀ (fuel i readPtr prevPtr : Nat) {r w p : Nat},
    scan n m fuel i readPtr prevPtr false = some (r, w, p) → 0 < i →
    r = readPtr ∧ (w ≠ 0 ↔ RunEnds n m fuel i) := by
  intro fuel
  induction fuel with
  | zero => intro i readPtr prevPtr r w p h; exact nomatch h
  | succ fuel ih =>
      intro i readPtr prevPtr r w p h hi
      have hunread : (readAt m i = true → false = true) → readAt m i = false := by
        intro hflag
        cases hr : readAt m i with
        | true => exact nomatch hflag hr
        | false => rfl
      rcases scan_cases h with ⟨hv, ht⟩ | ⟨hv, hr, -, ht⟩ | ⟨hv, hflag, hnext, ht⟩ |
        ⟨hv, hflag, hnext, hrec⟩
      · -- an invalid header
        obtain ⟨rfl, rfl, rfl⟩ := ht
        have hends : RunEnds n m (fuel + 1) i := Or.inl (by rw [hv]; simp)
        exact ⟨rfl, iff_of_true (Nat.pos_iff_ne_zero.mp hi) hends⟩
      · -- a read message
        obtain ⟨rfl, rfl, rfl⟩ := ht
        have hends : RunEnds n m (fuel + 1) i := Or.inl (by rw [hr]; simp)
        exact ⟨rfl, iff_of_true (Nat.pos_iff_ne_zero.mp hi) hends⟩
      · -- the end of a lap
        obtain ⟨rfl, rfl, rfl⟩ := ht
        refine ⟨if_neg (fun hc => nomatch hc.2), iff_of_false (fun hc => hc rfl) ?_⟩
        rintro (hstop | ⟨hfwd, -⟩)
        · exact hstop ⟨hv, hunread hflag⟩
        · exact hfwd hnext
      · -- one more unread message
        have hr := hunread hflag
        have hfwd := (nextAt_forward hnext).1
        rw [hr, if_neg (fun hc => nomatch hc.2)] at hrec
        obtain ⟨hrp, hw⟩ := ih _ _ _ hrec (Nat.lt_of_le_of_lt (Nat.zero_le i) (lt_stopAt m i))
        refine ⟨hrp, hw.trans ?_⟩
        constructor
        · intro hends
          refine Or.inr ⟨hnext, ?_⟩
          rw [hfwd]
          exact hends
        · rintro (hstop | ⟨-, hends⟩)
          · exact absurd ⟨hv, hr⟩ hstop
          · rw [hfwd] at hends
            exact hends

/-- Once the scan has left index 0 over a read message, the read pointer is above 0
    or the write pointer is 0. -/
theorem scan_read_first {fuel i prevPtr r w p : Nat}
    (h : scan n m fuel i 0 prevPtr true = some (r, w, p)) (hi : 0 < i) (hlt : i < n)
    (hend : wordAt m i ≠ endPointer) : ¬(r = 0 ∧ w ≠ 0) := by
  rintro ⟨hr, hw⟩
  obtain ⟨reads, unreads, x, ht, -, -, -, hres⟩ := scan_any _ _ _ _ h hlt (fun _ => hend)
  rcases hres with ⟨-, hrx, hwx, -, -⟩ | ⟨-, -, -, hw0⟩ | ⟨u, us, rfl, hru, -⟩
  · exact hw (by rw [hwx, ← hrx, hr])
  · exact hw hw0
  · obtain ⟨b, ht1, ht2⟩ := tiles_append.mp ht
    have hle := ht1.le
    have hb : u.start = b := ht2.head_start
    omega

/-- The backward loop is run exactly when `NeedsWalk` says so. -/
theorem needsWalk_iff {r w p : Nat} (h : scan n m (n + 1) 0 0 0 true = some (r, w, p)) :
    r = 0 ∧ w ≠ 0 ↔ NeedsWalk n m := by
  -- what the first round of the scan, at index 0, has found
  rcases scan_cases h with ⟨hv, ht⟩ | ⟨-, -, hl, -⟩ | ⟨-, -, hnext, ht⟩ |
    ⟨hv, -, hnext, hrec⟩
  · obtain ⟨rfl, rfl, rfl⟩ := ht
    refine iff_of_false (fun hc => hc.2 rfl) ?_
    rintro ⟨hv', -⟩
    rw [hv] at hv'
    exact nomatch hv'
  · exact nomatch hl
  · obtain ⟨rfl, rfl, rfl⟩ := ht
    exact iff_of_false (fun hc => hc.2 rfl) (fun hc => hc.2.2.1 hnext)
  · obtain ⟨hfwd, hlt, hword⟩ := nextAt_forward hnext
    have hpos : 0 < stopAt m 0 := lt_stopAt m 0
    cases hr : readAt m 0 with
    | true =>
        rw [hr, if_neg (fun hc => nomatch hc.1)] at hrec
        refine iff_of_false (scan_read_first hrec hpos hlt hword) ?_
        rintro ⟨-, hr', -⟩
        rw [hr] at hr'
        exact nomatch hr'
    | false =>
        rw [hr, if_pos ⟨rfl, rfl⟩] at hrec
        obtain ⟨rfl, hw⟩ := scan_run_ends _ _ _ _ hrec hpos
        rw [← hfwd] at hw
        constructor
        · rintro ⟨-, hne⟩
          exact ⟨hv, hr, hnext, hw.mp hne⟩
        · rintro ⟨-, -, -, hends⟩
          exact ⟨rfl, hw.mpr hends⟩

/-! ## Both loops -/

/-- Both loops of `prv_queue_find_read_write_ptr` end on the file, after some number
    of rounds, and the three pointers they leave are indices of the buffer. -/
def StartupEnds (size : QueueSize) (file : Mem) : Prop :=
  ∃ fuel readPtr writePtr prevPtr r,
    (prvFindWritePtr (opened size file 0 0 0) fuel 0 0 0 true).val
      = some (readPtr, writePtr, prevPtr) ∧
    (if readPtr = 0 ∧ writePtr ≠ 0 then
        (prvFindReadPtr (opened size file 0 0 0) fuel readPtr).val
      else some readPtr) = some r ∧
    r < size.words ∧ writePtr < size.words ∧ prevPtr < size.words

/-- More rounds change nothing once the scan has ended. -/
theorem scan_mono : ∀ (fuel k i readPtr prevPtr : Nat) (lastRead : Bool) {t : Nat × Nat × Nat},
    scan n m fuel i readPtr prevPtr lastRead = some t →
    scan n m (fuel + k) i readPtr prevPtr lastRead = some t := by
  intro fuel
  induction fuel with
  | zero => intro k i readPtr prevPtr lastRead t h; exact nomatch h
  | succ fuel ih =>
      intro k i readPtr prevPtr lastRead t h
      rw [scan] at h
      rw [Nat.succ_add, scan]
      by_cases hv : validAt n m i = false
      · rw [if_pos hv] at h ⊢
        exact h
      rw [if_neg hv] at h ⊢
      by_cases hr : readAt m i = true ∧ lastRead = false
      · rw [if_pos hr] at h ⊢
        exact h
      rw [if_neg hr] at h ⊢
      by_cases hnext : nextAt n m i = 0
      · rw [if_pos hnext] at h ⊢
        exact h
      · rw [if_neg hnext] at h ⊢
        exact ih _ _ _ _ _ h

/-- However many rounds the scan was given, it has found what it finds in one round
    more than the buffer has words. -/
theorem scan_full {fuel : Nat} {t : Nat × Nat × Nat} (hpos : 0 < n)
    (h : scan n m fuel 0 0 0 true = some t) : scan n m (n + 1) 0 0 0 true = some t := by
  -- both results hold with the rounds of both
  obtain ⟨t', ht'⟩ := scan_total (n := n) (m := m) (n + 1) 0 0 0 true hpos (by omega)
  have h1 := scan_mono fuel (n + 1) 0 0 0 true h
  have h2 := scan_mono (n + 1) fuel 0 0 0 true ht'
  rw [Nat.add_comm, h2] at h1
  rw [ht', h1]

/-- **The search for the pointers ends unless the links run in a circle.**  Only
    when index 0 begins a run of unread messages that ends inside the buffer does the
    search follow links, and only a circle of valid unread messages keeps it from
    ending. -/
theorem ends_iff (size : QueueSize) (file : Mem) :
    StartupEnds size file ↔
      (NeedsWalk size.words file → ¬Circle (Back size.words file) 0) := by
  have hpos : 0 < size.words := by have := size.four_le_words; omega
  constructor
  · rintro ⟨fuel, rp, w, p, r, hscan, hwalk, -⟩ hneeds
    rw [findWritePtr_val _ _ _ _ _ _ hpos] at hscan
    obtain ⟨hrp, hw⟩ := (needsWalk_iff (scan_full hpos hscan)).mpr hneeds
    rw [if_pos ⟨hrp, hw⟩, findReadPtr_val, hrp] at hwalk
    exact walk_ends_iff.mp ⟨fuel, r, hwalk⟩
  · intro hcircle
    obtain ⟨⟨rp, w, p⟩, hscan⟩ :=
      scan_total (n := size.words) (m := file) (size.words + 1) 0 0 0 true hpos (by omega)
    obtain ⟨hrp, hw, hp⟩ := scan_lt hscan hpos
    have hval := (findWritePtr_val (opened size file 0 0 0) (size.words + 1) 0 0 0 true
      hpos).trans hscan
    by_cases hwalk : rp = 0 ∧ w ≠ 0
    · -- the links are followed, to their end
      have hno := hcircle ((needsWalk_iff hscan).mp hwalk)
      cases hr : walk size.words file (size.words + 1) 0 with
      | none => exact absurd (circle_of_walk_none hr) hno
      | some r =>
          refine ⟨size.words + 1, rp, w, p, r, hval, ?_, walk_lt _ _ hr hpos, hw, hp⟩
          rw [if_pos hwalk, findReadPtr_val, hwalk.1]
          exact hr
    · exact ⟨size.words + 1, rp, w, p, rp, hval, if_neg hwalk, hrp, hw, hp⟩

/-- The model's bound on the rounds loses no run: the search that is given one round
    more than the buffer has words ends when any does. -/
theorem init_some_iff (size : QueueSize) (file : Mem) :
    (∃ q, (ticosdQueueInit size file).val = some q) ↔
      (NeedsWalk size.words file → ¬Circle (Back size.words file) 0) := by
  have hpos : 0 < size.words := by have := size.four_le_words; omega
  constructor
  · rintro ⟨q, hq⟩ hneeds
    obtain ⟨rp, w, p, r, hscan, hwalk, -⟩ := queueInit_some hq
    have hrp := (needsWalk_iff hscan).mpr hneeds
    rw [wrapped, if_pos hrp, hrp.1] at hwalk
    exact walk_ends_iff.mp ⟨_, r, hwalk⟩
  · intro hcircle
    obtain ⟨⟨rp, w, p⟩, hscan⟩ :=
      scan_total (n := size.words) (m := file) (size.words + 1) 0 0 0 true hpos (by omega)
    by_cases hrun : rp = 0 ∧ w ≠ 0
    · have hno := hcircle ((needsWalk_iff hscan).mp hrun)
      cases hr : walk size.words file (size.words + 1) 0 with
      | none => exact absurd (circle_of_walk_none hr) hno
      | some r =>
          refine ⟨_, queueInit_val (r := r) hscan ?_⟩
          rw [wrapped, if_pos hrun, hrun.1]
          exact hr
    · refine ⟨_, queueInit_val (r := rp) hscan ?_⟩
      rw [wrapped, if_neg hrun]

/-! ## A file whose links run in a circle -/

/-- An unread message of four zero bytes, as it lies in a file: `prev` is the link. -/
def messageBytes (prev : UInt8) : List UInt8 :=
  [headerMagicNumber, headerVersionNumber, 0, 0, prev, 0, 0, 0, 4, 0, 0, 0, 0, 0, 0, 0]

/-- Messages at 0, 4 and 8.  The first two links say where the message before lies
    in a lap that went round; the third closes a circle between 4 and 8. -/
def circleFile : Mem := fun a =>
  (messageBytes 4 ++ messageBytes 8 ++ messageBytes 4).getD a 0

/-- **The search does not end on every file.** -/
theorem circle_never_ends :
    ¬StartupEnds (QueueSize.ofWords 16 (by decide) (by decide)) circleFile := by
  rw [ends_iff]
  intro h
  refine h (by decide +kernel) ⟨4, ?_, ?_⟩
  · exact .single (by decide +kernel)
  · exact .head (b := 8) (by decide +kernel) (.single (by decide +kernel))

end QueueStartup
