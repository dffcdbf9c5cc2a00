import Ticosd.Decimal
import Ticosd.GuardedRun

/-! # Rate limiter — a sliding window that survives restarts

    `rate_limiter.c` keeps the times of the last `count` accepted events, newest
    first, and writes them to a text file after each one.  A restart reads the
    file back.  The oldest of the times decides: an event is accepted when that
    time is at least `duration` seconds ago.

    `Inv` says that the history is the front of the list of all accepted times,
    filled up with zeros, and that the file holds the same.  From it, no time
    interval of length `duration` has more than `count` accepted events. -/

namespace RateLimiter

open Decimal

/-- `struct TicosdRateLimiter` with the contents of its file; `none` is a file
    that does not exist.  Times are `time_t` values, and the sum with the
    duration is taken without overflow. -/
structure TicosdRateLimiter where
  count : Nat
  duration : Int
  history : List Int
  file : Option (List UInt8)

/-! ## Checking an event -/

/-- The loop that moves the first `i + 1` times one place to the right. -/
def shuffleRight : Nat → List Int → List Int
  | 0, history => history
  | i + 1, history => shuffleRight i (history.set (i + 1) (history.getD i 0))

/-- The text of the history file, `"%ld "` for each time. -/
def historyText (history : List Int) : List UInt8 :=
  history.flatMap (fun t => intText t ++ [32])

/-- `ticosd_rate_limiter_check_event` at the clock value `now`, with a history
    file that can be written. -/
def ticosdRateLimiterCheckEvent (h : TicosdRateLimiter) (now : Int) :
    Bool × TicosdRateLimiter :=
  if h.history.getD (h.count - 1) 0 + h.duration > now then (false, h)
  else
    let history := (shuffleRight (h.count - 1) h.history).set 0 now
    (true, { h with history := history, file := some (historyText history) })

/-! ## Start of day -/

/-- The loop of `ticosd_rate_limiter_init` over the file: `"%ld "` as long as there
    is a number; the rest stays zero. -/
def scanHistory : Nat → List UInt8 → List Int
  | 0, _ => []
  | i + 1, text =>
      match scanNumber text with
      | some (t, rest) => clampLong t :: scanHistory i (skipSpace rest)
      | none => List.replicate (i + 1) 0

/-- `ticosd_rate_limiter_init`. -/
def ticosdRateLimiterInit (count : Nat) (duration : Int) (file : Option (List UInt8)) :
    TicosdRateLimiter where
  count := count
  duration := duration
  history := match file with
    | none => List.replicate count 0
    | some text => scanHistory count text
  file := file

/-! ## Runs -/

/-- What happens to the limiter. -/
inductive Event where
  | check (now : Int64)
  | restart

/-- A limiter, and the times of the calls that returned true, newest first. -/
structure Sys where
  limiter : TicosdRateLimiter
  accepted : List Int

/-- One event. -/
def Sys.step (s : Sys) : Event → Sys
  | .check now =>
      match ticosdRateLimiterCheckEvent s.limiter now.toInt with
      | (true, h) => ⟨h, now.toInt :: s.accepted⟩
      | (false, h) => ⟨h, s.accepted⟩
  | .restart =>
      ⟨ticosdRateLimiterInit s.limiter.count s.limiter.duration s.limiter.file, s.accepted⟩

/-- The clock values of a run. -/
def clocks : List Event → List Int
  | [] => []
  | .check now :: evs => now.toInt :: clocks evs
  | .restart :: evs => clocks evs

/-! ## The history array -/

/-- Moving right repeats the first time and loses the one at index `k`. -/
theorem shuffleRight_eq : ∀ (k : Nat) (t : Int) (ts : List Int), k ≤ ts.length →
    shuffleRight k (t :: ts) = t :: ((t :: ts).take k ++ ts.drop k) := by
  intro k
  induction k with
  | zero => intro t ts _; rfl
  | succ k ih =>
      intro t ts hk
      have hlt : k < ts.length := by omega
      have hdrop : (ts.set k ((t :: ts).getD k 0)).drop k
          = (t :: ts).getD k 0 :: ts.drop (k + 1) := by
        rw [List.drop_set, if_neg (by omega), Nat.sub_self, List.drop_eq_getElem_cons hlt]
        rfl
      have htake : (t :: ts.set k ((t :: ts).getD k 0)).take k = (t :: ts).take k := by
        rw [← List.set_cons_succ, List.take_set_of_le (by omega)]
      rw [shuffleRight, List.set_cons_succ, ih _ _ (by rw [List.length_set]; omega), hdrop, htake,
        List.take_add_one, List.getElem?_eq_getElem (by rw [List.length_cons]; omega),
        List.getD_eq_getElem _ _ (by rw [List.length_cons]; omega), Option.toList_some,
        List.append_assoc]
      rfl

/-- The new history: the new time in front, the oldest one gone. -/
theorem history_after {history : List Int} (now : Int) (hne : history ≠ []) :
    (shuffleRight (history.length - 1) history).set 0 now = now :: history.dropLast := by
  obtain ⟨t, ts, rfl⟩ := List.exists_cons_of_ne_nil hne
  rw [shuffleRight_eq _ _ _ (by simp), List.set_cons_zero, List.length_cons, Nat.add_sub_cancel,
    List.drop_length, List.append_nil, List.dropLast_eq_take, List.length_cons, Nat.add_sub_cancel]

/-! ## The history file -/

theorem noDigit_space (rest : List UInt8) : NoDigit (32 :: rest) := by
  intro b hb
  rw [← Option.some.inj hb]
  decide

/-- A printed number begins with no white space. -/
theorem skipSpace_intText (i : Int) (rest : List UInt8) :
    skipSpace (intText i ++ rest) = intText i ++ rest := by
  rw [intText]
  by_cases hi : i < 0
  · rw [if_pos hi]
    rfl
  · rw [if_neg hi]
    obtain ⟨b, ds, hds⟩ := List.exists_cons_of_ne_nil (natText_ne_nil i.toNat)
    have hb : isDigit b = true :=
      isDigit_of_mem_natText (by rw [hds]; exact List.mem_cons_self)
    rw [hds, List.cons_append, skipSpace, List.dropWhile_cons, not_space_of_digit hb]
    simp

/-- The space behind a number is skipped, up to the next number. -/
theorem skipSpace_historyText (history : List Int) :
    skipSpace (32 :: historyText history) = historyText history := by
  rw [skipSpace, List.dropWhile_cons, show isSpace 32 = true from rfl, if_pos rfl]
  cases history with
  | nil => rfl
  | cons t ts =>
      rw [historyText, List.flatMap_cons, List.append_assoc]
      exact skipSpace_intText t _

/-- A `time_t`. -/
def InRange (t : Int) : Prop := -2 ^ 63 ≤ t ∧ t < 2 ^ 63

/-- **The file holds the history.** -/
theorem scanHistory_historyText (history : List Int) (h : ∀ t ∈ history, InRange t) :
    scanHistory history.length (historyText history) = history := by
  induction history with
  | nil => rfl
  | cons t ts ih =>
      have ht := h t List.mem_cons_self
      have hscan : scanNumber (historyText (t :: ts)) = some (t, 32 :: historyText ts) := by
        rw [historyText, List.flatMap_cons, List.append_assoc]
        exact scanNumber_intText t (noDigit_space _)
      rw [List.length_cons, scanHistory, hscan]
      show clampLong t :: scanHistory ts.length (skipSpace (32 :: historyText ts)) = t :: ts
      rw [skipSpace_historyText, ih (fun u hu => h u (List.mem_cons_of_mem _ hu)),
        clampLong_of_range ht.1 ht.2]

/-! ## The invariant -/

/-- The half-open interval of length `duration` from `x` on. -/
def inWindow (x duration t : Int) : Bool := decide (x ≤ t ∧ t < x + duration)

/-- The history is the front of the accepted times, filled up with zeros; the file
    holds the same, and no interval has too many accepted times. -/
structure Inv (count : Nat) (duration : Int) (s : Sys) : Prop where
  count_eq : s.limiter.count = count
  duration_eq : s.limiter.duration = duration
  history : s.limiter.history = (s.accepted ++ List.replicate count 0).take count
  file : s.limiter.file = none ∧ s.accepted = [] ∨
    s.limiter.file = some (historyText s.limiter.history)
  range : ∀ t ∈ s.accepted, InRange t
  sorted : s.accepted.Pairwise (fun a b => b ≤ a)
  window : ∀ x, (s.accepted.filter (inWindow x duration)).length ≤ count

variable {count : Nat} {duration : Int} {s : Sys}

theorem Inv.length (h : Inv count duration s) : s.limiter.history.length = count := by
  rw [h.history, List.length_take, List.length_append, List.length_replicate]
  omega

theorem Inv.history_range (h : Inv count duration s) : ∀ t ∈ s.limiter.history, InRange t := by
  intro t ht
  rw [h.history] at ht
  rcases List.mem_append.mp (List.mem_of_mem_take ht) with ha | hz
  · exact h.range t ha
  · rw [(List.mem_replicate.mp hz).2]
    exact ⟨by decide, by decide⟩

theorem inv_start (count : Nat) (duration : Int) :
    Inv count duration ⟨ticosdRateLimiterInit count duration none, []⟩ :=
  ⟨rfl, rfl, by simp [ticosdRateLimiterInit], Or.inl ⟨rfl, rfl⟩, (fun t ht => nomatch ht),
    List.Pairwise.nil, fun x => Nat.zero_le _⟩

/-- A restart finds the history in the file. -/
theorem Inv.restart (h : Inv count duration s) : s.step .restart = s := by
  have hhist : (ticosdRateLimiterInit s.limiter.count s.limiter.duration s.limiter.file).history
      = s.limiter.history := by
    rcases h.file with ⟨hnone, hacc⟩ | hsome
    · rw [hnone, h.history, hacc, h.count_eq]
      simp [ticosdRateLimiterInit]
    · rw [hsome, h.count_eq, ← h.length]
      exact scanHistory_historyText _ h.history_range
  simp only [Sys.step, ticosdRateLimiterInit] at hhist ⊢
  rw [hhist]

/-- The times of an interval that ends after `now` are among the newest ones when
    the oldest remembered one is long ago. -/
theorem window_front {accepted : List Int} {x now : Int}
    (hsorted : accepted.Pairwise (fun a b => b ≤ a)) (hnow : now < x + duration)
    (hold : ∀ t, accepted[count - 1]? = some t → t + duration ≤ now) :
    (accepted.filter (inWindow x duration)).length ≤ count - 1 := by
  have hsplit := List.take_append_drop (count - 1) accepted
  have hnone : (accepted.drop (count - 1)).filter (inWindow x duration) = [] := by
    rw [List.filter_eq_nil_iff]
    intro t ht hin
    have hin' := of_decide_eq_true hin
    cases hd : accepted.drop (count - 1) with
    | nil =>
        rw [hd] at ht
        exact nomatch ht
    | cons o os =>
        have ho : accepted[count - 1]? = some o := by
          rw [← List.head?_drop, hd]
          rfl
        have hpair := (List.pairwise_append.mp (hsplit.symm ▸ hsorted)).2.1
        rw [hd] at ht hpair
        have hto : t ≤ o := by
          rcases List.mem_cons.mp ht with heq | hmem
          · rw [heq]
          · exact (List.pairwise_cons.mp hpair).1 t hmem
        have := hold o ho
        omega
  calc (accepted.filter (inWindow x duration)).length
      = ((accepted.take (count - 1)).filter (inWindow x duration)).length := by
        rw [← hsplit, List.filter_append, hnone, List.append_nil, hsplit]
    _ ≤ (accepted.take (count - 1)).length := List.length_filter_le _ _
    _ ≤ count - 1 := List.length_take_le _ _

/-- An accepted event keeps the invariant. -/
theorem Inv.accept (hcount : 1 ≤ count) (h : Inv count duration s) {now : Int}
    (hrange : InRange now) (hlast : ∀ t ∈ s.accepted, t ≤ now)
    (hold : s.limiter.history.getD (count - 1) 0 + duration ≤ now) :
    Inv count duration
      ⟨{ s.limiter with
          history := now :: s.limiter.history.dropLast
          file := some (historyText (now :: s.limiter.history.dropLast)) },
        now :: s.accepted⟩ := by
  have hlen := h.length
  refine ⟨h.count_eq, h.duration_eq, ?_, Or.inr rfl, ?_, ?_, ?_⟩
  · obtain ⟨k, rfl⟩ : ∃ k, count = k + 1 := ⟨count - 1, by omega⟩
    rw [List.dropLast_eq_take, hlen, h.history, List.take_take, List.cons_append,
      List.take_succ_cons, Nat.min_eq_left (by omega)]
    rfl
  · intro t ht
    rcases List.mem_cons.mp ht with heq | hmem
    · rw [heq]
      exact hrange
    · exact h.range t hmem
  · exact List.pairwise_cons.mpr ⟨hlast, h.sorted⟩
  · intro x
    rw [List.filter_cons]
    by_cases hin : inWindow x duration now = true
    · -- a full window would reach back to the oldest of `count` times, which has expired
      rw [if_pos hin, List.length_cons]
      have hin' := of_decide_eq_true hin
      have hfront := window_front h.sorted hin'.2 (by
        intro t ht
        have hget : s.limiter.history.getD (count - 1) 0 = t := by
          have hlt := (List.getElem?_eq_some_iff.mp ht).1
          rw [List.getD_eq_getElem?_getD, h.history, List.getElem?_take_of_lt (by omega),
            List.getElem?_append_left hlt, ht]
          rfl
        rw [hget] at hold
        exact hold)
      omega
    · rw [if_neg hin]
      exact h.window x

theorem Inv.step (hcount : 1 ≤ count) (h : Inv count duration s) (ev : Event)
    (hlast : ∀ now, ev = .check now → ∀ t ∈ s.accepted, t ≤ now.toInt) :
    Inv count duration (s.step ev) := by
  cases ev with
  | restart =>
      rw [h.restart]
      exact h
  | check now =>
      have hlen := h.length
      simp only [Sys.step, ticosdRateLimiterCheckEvent]
      by_cases hrej : s.limiter.history.getD (s.limiter.count - 1) 0 + s.limiter.duration
          > now.toInt
      · rw [if_pos hrej]
        exact h
      · rw [if_neg hrej]
        rw [h.count_eq, h.duration_eq] at hrej
        have hne : s.limiter.history ≠ [] := by
          intro hnil
          rw [hnil] at hlen
          exact absurd hlen (by simp only [List.length_nil]; omega)
        have hhist := history_after now.toInt hne
        rw [hlen, ← h.count_eq] at hhist
        simp only [hhist]
        exact h.accept hcount ⟨now.le_toInt, now.toInt_lt⟩ (hlast now rfl) (by omega)

/-- What a check accepts is its own time. -/
theorem mem_accepted_check {now : Int64} {t : Int} (ht : t ∈ (s.step (.check now)).accepted) :
    t = now.toInt ∨ t ∈ s.accepted := by
  simp only [Sys.step, ticosdRateLimiterCheckEvent] at ht
  by_cases hrej : s.limiter.history.getD (s.limiter.count - 1) 0 + s.limiter.duration > now.toInt
  · rw [if_pos hrej] at ht
    exact Or.inr ht
  · rw [if_neg hrej] at ht
    exact List.mem_cons.mp ht

/-- The limiter between two events of a run whose clock does not go back. -/
structure Ready (count : Nat) (duration : Int) (s : Sys) (evs : List Event) : Prop where
  inv : Inv count duration s
  past : ∀ t ∈ s.accepted, ∀ now ∈ clocks evs, t ≤ now
  clock : (clocks evs).Pairwise (· ≤ ·)

theorem Ready.step {ev : Event} {evs : List Event} (hcount : 1 ≤ count)
    (h : Ready count duration s (ev :: evs)) : Ready count duration (s.step ev) evs := by
  cases ev with
  | restart =>
      rw [h.inv.restart]
      exact ⟨h.inv, h.past, h.clock⟩
  | check now =>
      obtain ⟨hfirst, hrest⟩ := List.pairwise_cons.mp h.clock
      refine ⟨h.inv.step hcount _ ?_, ?_, hrest⟩
      · intro now' heq t ht
        obtain ⟨rfl⟩ := Event.check.inj heq
        exact h.past t ht _ List.mem_cons_self
      · intro t ht u hu
        rcases mem_accepted_check ht with heq | hold
        · rw [heq]
          exact hfirst u hu
        · exact h.past t hold u (List.mem_cons_of_mem _ hu)

/-- Calls at clock values that do not go back, and restarts, keep the invariant. -/
theorem Ready.run (hcount : 1 ≤ count) (evs : List Event) (h : Ready count duration s evs) :
    Inv count duration (evs.foldl Sys.step s) := by
  induction evs generalizing s with
  | nil => exact h.inv
  | cons ev evs ih => exact ih (h.step hcount)

theorem ready_start {evs : List Event} (hclock : (clocks evs).Pairwise (· ≤ ·)) :
    Ready count duration ⟨ticosdRateLimiterInit count duration none, []⟩ evs :=
  ⟨inv_start count duration, (fun _ ht => nomatch ht), hclock⟩

/-- **Rate limit**: from a start without a history file, at clock values that do
    not go back, with any restarts in between, no half-open interval of length
    `duration` has more than `count` calls that returned true. -/
theorem at_most_count_per_window {count : Nat} {duration : Int} (hcount : 1 ≤ count)
    (evs : List Event) (hclock : (clocks evs).Pairwise (· ≤ ·))
    (x : Int) :
    (((evs.foldl Sys.step ⟨ticosdRateLimiterInit count duration none, []⟩).accepted).filter
      (inWindow x duration)).length ≤ count := by
  exact ((ready_start hclock).run hcount evs).window x

/-- Two events in ten seconds, with a restart after the second one: the third is
    refused. -/
theorem at_most_count_per_window_restart :
    (((([.check 100, .check 101, .restart, .check 102] : List Event).foldl Sys.step
      ⟨ticosdRateLimiterInit 2 10 none, []⟩).accepted).filter (inWindow 95 10)).length ≤ 2 :=
  at_most_count_per_window (by decide) _ (by decide +kernel) 95

/-! ## Rejections -/

/-- A call that returns false has had `count` calls accepted, each less than `duration`
    before it. -/
def Caused (count : Nat) (duration : Int) (s : Sys) : Event → Prop
  | .check now => (ticosdRateLimiterCheckEvent s.limiter now.toInt).1 = false →
      count ≤ (s.accepted.filter (fun t => decide (now.toInt - duration < t))).length
  | .restart => True

instance (count : Nat) (duration : Int) (s : Sys) :
    ∀ ev, Decidable (Caused count duration s ev)
  | .check _ => inferInstanceAs (Decidable (_ → _))
  | .restart => inferInstanceAs (Decidable True)

/-- A check is rejected by its oldest remembered time. -/
theorem Inv.rejected_iff (h : Inv count duration s) (now : Int) :
    (ticosdRateLimiterCheckEvent s.limiter now).1 = false ↔
      s.limiter.history.getD (count - 1) 0 + duration > now := by
  rw [ticosdRateLimiterCheckEvent, h.count_eq, h.duration_eq]
  by_cases hrej : s.limiter.history.getD (count - 1) 0 + duration > now
  · rw [if_pos hrej]
    exact iff_of_true rfl hrej
  · rw [if_neg hrej]
    exact iff_of_false (fun h => nomatch h) hrej

/-- The oldest remembered time is that of the accepted call number `count`, counted
    from the newest one, or 0 if there have not been so many. -/
theorem Inv.oldest (hcount : 1 ≤ count) (h : Inv count duration s) :
    s.limiter.history.getD (count - 1) 0 = s.accepted.getD (count - 1) 0 := by
  rw [h.history, List.getD_eq_getElem?_getD, List.getElem?_take_of_lt (by omega),
    List.getD_eq_getElem?_getD]
  by_cases hlt : count - 1 < s.accepted.length
  · rw [List.getElem?_append_left hlt]
  · rw [List.getElem?_append_right (by omega), List.getElem?_replicate,
      List.getElem?_eq_none (Nat.not_lt.mp hlt)]
    split
    · rfl
    · rfl

/-- From `duration` on, a call is rejected for a cause. -/
theorem Inv.caused (hcount : 1 ≤ count) (h : Inv count duration s) {now : Int64}
    (hnow : duration ≤ now.toInt) : Caused count duration s (.check now) := by
  intro hrej
  have hold := (h.rejected_iff now.toInt).mp hrej
  rw [h.oldest hcount] at hold
  -- the slot is not one that `calloc` has left at 0, since that is `duration` ago
  have hlt : count - 1 < s.accepted.length := by
    by_contra hge
    rw [List.getD_eq_default _ _ (by omega)] at hold
    omega
  have hget : s.accepted.getD (count - 1) 0 = s.accepted[count - 1] :=
    List.getD_eq_getElem _ _ hlt
  have hall : (s.accepted.take count).filter (fun t => decide (now.toInt - duration < t))
      = s.accepted.take count := by
    rw [List.filter_eq_self]
    intro t ht
    obtain ⟨i, hi, rfl⟩ := List.mem_take_iff_getElem.mp ht
    have hle : s.accepted[count - 1] ≤ s.accepted[i] := by
      rcases Nat.lt_or_ge i (count - 1) with hlt' | hge
      · exact List.pairwise_iff_getElem.mp h.sorted i (count - 1) _ _ hlt'
      · obtain rfl : i = count - 1 := by omega
        exact Int.le_refl _
    exact decide_eq_true (by omega)
  calc count = (s.accepted.take count).length := by rw [List.length_take]; omega
    _ = ((s.accepted.take count).filter (fun t => decide (now.toInt - duration < t))).length := by
        rw [hall]
    _ ≤ (s.accepted.filter (fun t => decide (now.toInt - duration < t))).length :=
        ((List.take_sublist count s.accepted).filter _).length_le

/-- Before that, the first call of a run is rejected without a cause. -/
theorem Inv.not_caused (hcount : 1 ≤ count) (h : Inv count duration s) (hnone : s.accepted = [])
    {now : Int64} (hnow : now.toInt < duration) : ¬Caused count duration s (.check now) := by
  intro hcaused
  have hrej : (ticosdRateLimiterCheckEvent s.limiter now.toInt).1 = false := by
    rw [h.rejected_iff, h.oldest hcount, hnone, List.getD_nil]
    omega
  have hle := hcaused hrej
  rw [hnone, List.filter_nil, List.length_nil] at hle
  omega

/-- **When a rejection has a cause**: from a start without a history file, at clock
    values that do not go back, with any restarts in between, every call that returns
    false has had `count` calls accepted within `duration` before it, if and only if
    no call is made at a clock value below `duration`. -/
theorem rejections_caused_iff {count : Nat} {duration : Int} (hcount : 1 ≤ count)
    (evs : List Event) (hclock : (clocks evs).Pairwise (· ≤ ·)) :
    GuardedRun.Along Sys.step (Caused count duration)
        ⟨ticosdRateLimiterInit count duration none, []⟩ evs ↔
      ∀ now ∈ clocks evs, duration ≤ now := by
  have hready : Ready count duration ⟨ticosdRateLimiterInit count duration none, []⟩ evs :=
    ready_start hclock
  have hnone : (⟨ticosdRateLimiterInit count duration none, []⟩ : Sys).accepted = [] := rfl
  generalize (⟨ticosdRateLimiterInit count duration none, []⟩ : Sys) = s at hready hnone ⊢
  constructor
  · -- up to the first check nothing is accepted, and the clock does not go back behind it
    intro halong
    induction evs generalizing s with
    | nil => exact fun now hnow => nomatch hnow
    | cons ev evs ih =>
        cases ev with
        | restart =>
            have hstay := hready.inv.restart
            refine ih hclock s (hstay ▸ hready.step hcount) hnone ?_
            have := halong.2
            rw [hstay] at this
            exact this
        | check now =>
            have hle : duration ≤ now.toInt := by
              by_contra hlt
              exact hready.inv.not_caused hcount hnone (by omega) halong.1
            intro u hu
            rcases List.mem_cons.mp hu with heq | hlater
            · rw [heq]
              exact hle
            · exact Int.le_trans hle ((List.pairwise_cons.mp hclock).1 u hlater)
  · intro hlate
    clear hnone
    induction evs generalizing s with
    | nil => trivial
    | cons ev evs ih =>
        cases ev with
        | restart => exact ⟨trivial, ih hclock _ (hready.step hcount) hlate⟩
        | check now =>
            refine ⟨hready.inv.caused hcount (hlate _ List.mem_cons_self), ?_⟩
            exact ih (List.pairwise_cons.mp hclock).2 _ (hready.step hcount)
              (fun u hu => hlate u (List.mem_cons_of_mem _ hu))

/-- A call at every second from 10 on, with a restart, and room for two in ten seconds. -/
theorem rejections_caused_iff_restart :
    GuardedRun.Along Sys.step (Caused 2 10) ⟨ticosdRateLimiterInit 2 10 none, []⟩
        [.check 10, .check 11, .restart, .check 12] ↔
      ∀ now ∈ clocks [.check 10, .check 11, .restart, .check 12], 10 ≤ now :=
  rejections_caused_iff (by decide) _ (by decide +kernel)

/-- Five seconds after the epoch a limit of one event an hour rejects the first one. -/
theorem first_event_rejected :
    ¬GuardedRun.Along Sys.step (Caused 1 3600) ⟨ticosdRateLimiterInit 1 3600 none, []⟩
      [.check 5] := by
  decide +kernel

end RateLimiter
