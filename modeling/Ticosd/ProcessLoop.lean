import Ticosd.CInt
import Ticosd.GuardedRun

/-! # The main loop — `prv_ticosd_process_loop` of `ticosd.c`

    Each round of the loop empties the transmit queue and sleeps.  After a round
    that failed the sleep is the smaller of a back-off and the refresh interval,
    and the back-off is doubled; a round that succeeded sets it back.

    The back-off is an `int` with no cap of its own.  `overrideInterval_run` has its
    value after any rounds: sixty doubled once for every failure since the last
    success, as far as 32 bits hold it.  They hold it for 25 failures. -/

namespace ProcessLoop

open CInt

/-- `NETWORK_FAILURE_FIRST_BACKOFF_SECONDS`. -/
def networkFailureFirstBackoffSeconds : Int := 60

/-- `NETWORK_FAILURE_BACKOFF_MULTIPLIER`. -/
def networkFailureBackoffMultiplier : Int := 2

/-- The locals that live from one round to the next. -/
structure Loop where
  nextTelemetryPoll : Int
  overrideInterval : Int
  deriving DecidableEq

/-- What a round gets from its surroundings: the clock at both ends of it, the
    setting `refresh_interval_seconds` (`none` if it is not set), the result of
    `prv_ticosd_process_tx_queue` and `handle->terminate` after it. -/
structure Round where
  lastWakeup : Int
  refreshIntervalSeconds : Option Int
  processTxQueue : Bool
  now : Int
  terminate : Bool

/-- The local `interval` as the settings leave it; an hour is the default. -/
def refreshInterval (x : Round) : Int := x.refreshIntervalSeconds.getD (1 * 60 * 60)

/-- The local `interval` at the end of the round. -/
def interval (s : Loop) (x : Round) : Int :=
  if x.processTxQueue then refreshInterval x
  else min s.overrideInterval (refreshInterval x)

/-- The argument of `sleep`, if the round sleeps. -/
def sleepSeconds (s : Loop) (x : Round) : Option Int :=
  if x.terminate = false ∧ x.lastWakeup + interval s x > x.now then
    some (x.lastWakeup + interval s x - x.now)
  else none

/-- The locals before the first round. -/
def start : Loop := ⟨0, networkFailureFirstBackoffSeconds⟩

/-- One round of `prv_ticosd_process_loop`. -/
def processRound (s : Loop) (x : Round) : Loop where
  nextTelemetryPoll :=
    if s.nextTelemetryPoll + refreshInterval x ≥ x.lastWakeup then
      x.lastWakeup + refreshInterval x
    else s.nextTelemetryPoll
  overrideInterval :=
    if x.processTxQueue then networkFailureFirstBackoffSeconds
    else int32 (s.overrideInterval * networkFailureBackoffMultiplier)

/-- The locals after the rounds. -/
def run (xs : List Round) : Loop := GuardedRun.run processRound start xs

/-- The rounds that failed since the last success, or since the start. -/
def failures (xs : List Round) : Nat := (xs.reverse.takeWhile (fun x => !x.processTxQueue)).length

/-! ## The back-off -/

theorem run_snoc (xs : List Round) (x : Round) :
    run (xs ++ [x]) = processRound (run xs) x := by
  rw [run, GuardedRun.run_append]
  rfl

theorem failures_snoc (xs : List Round) (x : Round) :
    failures (xs ++ [x]) = if x.processTxQueue then 0 else failures xs + 1 := by
  rw [failures, List.reverse_append, List.reverse_singleton, List.singleton_append,
    List.takeWhile_cons]
  cases x.processTxQueue with
  | true => rfl
  | false => rfl

/-- **The back-off after any rounds.** -/
theorem overrideInterval_run (xs : List Round) :
    (run xs).overrideInterval = int32 (60 * 2 ^ failures xs) := by
  induction xs using List.reverseRecOn with
  | nil => rfl
  | append_singleton xs x ih =>
      rw [run_snoc, failures_snoc]
      cases hx : x.processTxQueue with
      | true => simp only [processRound, hx, if_true]; rfl
      | false =>
          simp only [processRound, hx, Bool.false_eq_true, if_false]
          rw [ih, networkFailureBackoffMultiplier, int32_double, mul_assoc, ← pow_succ]

/-- Up to 25 doublings fit. -/
theorem int32_fits {n : Nat} (h : n ≤ 25) : int32 (60 * 2 ^ n) = 60 * 2 ^ n := by
  have hp : (2 : Int) ^ n ≤ 2 ^ 25 := pow_le_pow_right₀ (by omega) h
  have hpos : (0 : Int) < 2 ^ n := by positivity
  exact int32_of_fits (by omega) (by omega)

/-- From 26 doublings on nothing positive is left: four of them land in the negative
    half, and from 30 on all bits of the product are out of range. -/
theorem int32_lost {n : Nat} (h : 26 ≤ n) : int32 (60 * 2 ^ n) ≤ 0 := by
  rcases Nat.lt_or_ge n 30 with hn | hn
  · interval_cases n <;> decide
  · obtain ⟨k, rfl⟩ := Nat.exists_eq_add_of_le hn
    have : (60 * 2 ^ (30 + k) : Int) = (15 * 2 ^ k) * ((2 ^ 32 : Nat) : Int) := by
      rw [pow_add]
      push_cast
      ring
    rw [int32, this, Int.mul_bmod_left]

/-! ## The interval after a failure -/

/-- The interval that a failing round uses. -/
theorem interval_failed (xs : List Round) {x : Round} (hx : x.processTxQueue = false) :
    interval (run xs) x = min (int32 (60 * 2 ^ failures xs)) (refreshInterval x) := by
  rw [interval, hx, overrideInterval_run]
  rfl

/-- The documented interval: sixty seconds, doubled with each further failure, up to the
    refresh interval. -/
def backoff (n : Nat) (r : Int) : Int := min (60 * 2 ^ n) r

theorem backoff_pos (n : Nat) {r : Int} (hr : 0 < r) : 0 < backoff n r :=
  lt_min (by positivity) hr

theorem backoff_mono {m n : Nat} (h : m ≤ n) (r : Int) : backoff m r ≤ backoff n r := by
  apply min_le_min_right
  have : (2 : Int) ^ m ≤ 2 ^ n := pow_le_pow_right₀ (by omega) h
  omega

/-- The round `x` after the rounds `xs` backs off as documented: its interval is the
    documented one, it is positive, and it is at least that of the round before, if that
    failed too and the setting is still the same. -/
def BacksOff (xs : List Round) (x : Round) : Prop :=
  interval (run xs) x = backoff (failures xs) (refreshInterval x) ∧
    0 < interval (run xs) x ∧
    ∀ ys y, xs = ys ++ [y] → y.processTxQueue = false → refreshInterval y = refreshInterval x →
      interval (run ys) y ≤ interval (run xs) x

/-- **The back-off is right for the first 26 failures in a row, and for no later one.** -/
theorem backsOff_iff (xs : List Round) (x : Round) (hx : x.processTxQueue = false)
    (hr : 0 < refreshInterval x) : BacksOff xs x ↔ failures xs ≤ 25 := by
  constructor
  · rintro ⟨-, hpos, -⟩
    by_contra hn
    rw [interval_failed xs hx] at hpos
    have := int32_lost (n := failures xs) (by omega)
    omega
  · intro hn
    have hint : interval (run xs) x = backoff (failures xs) (refreshInterval x) := by
      rw [interval_failed xs hx, int32_fits hn, backoff]
    refine ⟨hint, ?_, ?_⟩
    · rw [hint]
      exact backoff_pos _ hr
    · rintro ys y rfl hy hyx
      rw [failures_snoc, hy] at hn hint
      simp only [Bool.false_eq_true, if_false] at hn hint
      rw [hint, interval_failed ys hy, int32_fits (by omega), hyx]
      exact backoff_mono (Nat.le_succ _) _

/-- A round without a network, an hour as refresh interval. -/
def outage : Round := ⟨1000, none, false, 1000, false⟩

theorem backsOff_iff_outage : BacksOff [outage] outage ↔ failures [outage] ≤ 25 :=
  backsOff_iff [outage] outage rfl (by decide)

/-- **The 27th failure in a row** uses a negative interval, and does not sleep. -/
theorem backoff_overflows :
    ¬ (∀ xs x, x.processTxQueue = false → 0 < refreshInterval x → BacksOff xs x) ∧
      interval (run (List.replicate 26 outage)) outage = -268435456 ∧
      sleepSeconds (run (List.replicate 26 outage)) outage = none := by
  have hi : interval (run (List.replicate 26 outage)) outage = -268435456 := by decide +kernel
  refine ⟨fun h => ?_, hi, by decide +kernel⟩
  have hpos := (h (List.replicate 26 outage) outage rfl (by decide)).2.1
  rw [hi] at hpos
  omega

/-! ## Once the bits are lost -/

/-- From the 27th failure in a row on no round sleeps, unless the clock is set back: the
    rest of the outage is spent spinning. -/
theorem spins_from_the_27th (xs : List Round) {x : Round} (hx : x.processTxQueue = false)
    (hn : 26 ≤ failures xs) (ht : x.lastWakeup ≤ x.now) : sleepSeconds (run xs) x = none := by
  have hint : interval (run xs) x ≤ 0 := by
    rw [interval_failed xs hx]
    exact le_trans (min_le_left _ _) (int32_lost hn)
  rw [sleepSeconds, if_neg]
  rintro ⟨-, h⟩
  omega

end ProcessLoop
