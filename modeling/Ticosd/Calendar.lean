import Ticosd.CText
import Ticosd.Decimal

/-! # Calendar — `gmtime` and the ISO form of a time

    Seconds since 1970-01-01T00:00:00Z are broken down in the Gregorian calendar:
    400 years have 146097 days, the rest is counted off year by year and month by
    month.  `isoText` is what `strftime` makes of `%FT%TZ`. -/

namespace Calendar

open Decimal CText

/-- A broken-down time, with the year and the month as they are written. -/
structure Tm where
  year : Int
  month : Nat
  day : Nat
  hour : Nat
  minute : Nat
  second : Nat

def isLeap (year : Nat) : Bool := year % 4 = 0 && (year % 100 ≠ 0 || year % 400 = 0)

def yearLength (year : Nat) : Nat := if isLeap year then 366 else 365

def monthLengths (year : Nat) : List Nat :=
  [31, if isLeap year then 29 else 28, 31, 30, 31, 30, 31, 31, 30, 31, 30, 31]

/-- The year, and the day in it, of a day counted from the first of January of
    `year`; at most `fuel` years are counted off. -/
def yearLoop : Nat → Nat → Nat → Nat × Nat
  | 0, year, days => (year, days)
  | fuel + 1, year, days =>
      if days < yearLength year then (year, days)
      else yearLoop fuel (year + 1) (days - yearLength year)

/-- The month, and the day in it. -/
def monthLoop : List Nat → Nat → Nat → Nat × Nat
  | [], month, days => (month, days + 1)
  | len :: rest, month, days =>
      if days < len then (month, days + 1) else monthLoop rest (month + 1) (days - len)

/-- `gmtime`. -/
def gmtime (t : Int) : Tm :=
  let days := t / 86400
  let secs := (t % 86400).toNat
  let yd := yearLoop 400 1970 (days % 146097).toNat
  let md := monthLoop (monthLengths yd.1) 1 yd.2
  { year := yd.1 + 400 * (days / 146097)
    month := md.1
    day := md.2
    hour := secs / 3600
    minute := secs / 60 % 60
    second := secs % 60 }

/-- The conversions `%m`, `%d`, `%H`, `%M`, `%S`. -/
def twoDigits (n : Nat) : List UInt8 := [digit (n / 10), digit (n % 10)]

/-- `-%m-%dT%H:%M:%SZ`. -/
def afterYear (tm : Tm) : List UInt8 :=
  [45] ++ twoDigits tm.month ++ [45] ++ twoDigits tm.day ++ [84] ++ twoDigits tm.hour ++ [58] ++
    twoDigits tm.minute ++ [58] ++ twoDigits tm.second ++ [90]

/-- `%FT%TZ`. -/
def isoText (tm : Tm) : List UInt8 := intText tm.year ++ afterYear tm

example : isoText (gmtime 1669807440) = ascii "2022-11-30T11:24:00Z" := by decide +kernel

/-- `strftime` into an array of `maxsize` bytes; `none` is a result that does not
    fit. -/
def strftimeIso (maxsize : Nat) (t : Int) : Option (List UInt8) :=
  if (isoText (gmtime t)).length + 1 ≤ maxsize then some (isoText (gmtime t)) else none

/-! ## The first second -/

theorem digit_inj {m n : Nat} (hm : m < 10) (hn : n < 10) (h : digit m = digit n) : m = n := by
  have := congrArg UInt8.toNat h
  rw [digit_toNat hm, digit_toNat hn] at this
  omega

theorem twoDigits_inj {m n : Nat} (hm : m < 100) (hn : n < 100)
    (h : twoDigits m = twoDigits n) : m = n := by
  obtain ⟨h1, h2, -⟩ : digit (m / 10) = digit (n / 10) ∧ digit (m % 10) = digit (n % 10) ∧ True := by
    simpa [twoDigits] using h
  have hq := digit_inj (by omega) (by omega) h1
  have hr := digit_inj (by omega) (by omega) h2
  omega

/-- Years only grow. -/
theorem le_yearLoop (fuel year days : Nat) : year ≤ (yearLoop fuel year days).1 := by
  induction fuel generalizing year days with
  | zero => exact Nat.le_refl year
  | succ fuel ih =>
      rw [yearLoop]
      split
      · exact Nat.le_refl year
      · exact Nat.le_trans (Nat.le_succ year) (ih (year + 1) (days - yearLength year))

/-- The first year is that of its own days. -/
theorem yearLoop_first {fuel year days : Nat} (h : (yearLoop (fuel + 1) year days).1 = year) :
    days < yearLength year ∧ yearLoop (fuel + 1) year days = (year, days) := by
  rw [yearLoop] at h ⊢
  by_cases hlt : days < yearLength year
  · rw [if_pos hlt]
    exact ⟨hlt, rfl⟩
  · rw [if_neg hlt] at h
    have := le_yearLoop fuel (year + 1) (days - yearLength year)
    omega

/-- The two halves of an ISO text. -/
theorem isoText_split {tm tm' : Tm} (h : isoText tm = isoText tm') :
    tm.year = tm'.year ∧ afterYear tm = afterYear tm' := by
  have hdash : ∀ tm : Tm, NoDigit (afterYear tm) := by
    intro tm b hb
    rw [← Option.some.inj hb]
    decide
  have heq := congrArg scanNumber h
  rw [isoText, isoText, scanNumber_intText tm.year (hdash tm),
    scanNumber_intText tm'.year (hdash tm')] at heq
  exact Prod.mk.inj (Option.some.inj heq)

theorem afterYear_split {tm tm' : Tm} (h : afterYear tm = afterYear tm') :
    (twoDigits tm.month = twoDigits tm'.month ∧ twoDigits tm.day = twoDigits tm'.day) ∧
    twoDigits tm.hour = twoDigits tm'.hour ∧ twoDigits tm.minute = twoDigits tm'.minute ∧
    twoDigits tm.second = twoDigits tm'.second := by
  simp only [afterYear, twoDigits, List.cons_append, List.nil_append, List.cons.injEq,
    true_and, and_true] at h
  simp only [twoDigits, List.cons.injEq, and_true]
  obtain ⟨h1, h2, h3, h4, h5, h6, h7, h8, h9, h10⟩ := h
  exact ⟨⟨⟨h1, h2⟩, h3, h4⟩, ⟨h5, h6⟩, ⟨h7, h8⟩, h9, h10⟩

/-- The first of January is the only day of 1970 written so. -/
theorem first_of_january : ∀ days : Fin 365,
    twoDigits (monthLoop (monthLengths 1970) 1 days.val).1 = twoDigits 1 →
    twoDigits (monthLoop (monthLengths 1970) 1 days.val).2 = twoDigits 1 → days.val = 0 := by
  decide +kernel

/-- Nothing but the first second has its ISO text. -/
theorem isoText_one {t : Int} (hpos : 0 < t) (h : isoText (gmtime t) = isoText (gmtime 1)) :
    t = 1 := by
  obtain ⟨hyear, hrest⟩ := isoText_split h
  obtain ⟨⟨hmonth, hday⟩, hhour, hminute, hsecond⟩ := afterYear_split hrest
  have hfirst : (yearLoop 400 1970 (t / 86400 % 146097).toNat).1 = 1970 ∧
      t / 86400 / 146097 = 0 := by
    have hle := le_yearLoop 400 1970 (t / 86400 % 146097).toNat
    have hsum : ((yearLoop 400 1970 (t / 86400 % 146097).toNat).1 : Int)
        + 400 * (t / 86400 / 146097) = 1970 := hyear
    omega
  obtain ⟨hlt, hloop⟩ := yearLoop_first hfirst.1
  have hdays : (t / 86400 % 146097).toNat = 0 := by
    have hlt' : (t / 86400 % 146097).toNat < 365 := hlt
    refine first_of_january ⟨_, hlt'⟩ ?_ ?_
    · have := hmonth
      simp only [gmtime, hloop] at this
      exact this
    · have := hday
      simp only [gmtime, hloop] at this
      exact this
  have hh : (t % 86400).toNat / 3600 = 0 := twoDigits_inj (by omega) (by omega) hhour
  have hm : (t % 86400).toNat / 60 % 60 = 0 := twoDigits_inj (by omega) (by omega) hminute
  have hs : (t % 86400).toNat % 60 = 1 := twoDigits_inj (by omega) (by omega) hsecond
  omega

end Calendar
