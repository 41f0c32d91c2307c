import Mathlib.Algebra.Order.Ring.Int
import Mathlib.Logic.Equiv.Defs
import Mathlib.Tactic.Ring

/-!
# The Gregorian calendar by day numbers

A date of the proleptic Gregorian calendar carries that there is such a day (`Civil`). `toDay`
numbers the dates, day 0 being 1970-01-01, and `ofDay` reads the number back: the two are inverse
(`Civil.equivDay`), and later dates have greater numbers (`Civil.toDay_lt_iff`). The year of a day
is computed from a guess that is at most one year off (`yearOf_spec`), its month by counting the
months of the year down (`monthOf_spec`).
-/

namespace Civil

/-- A leap year. -/
def IsLeap (year : ℤ) : Prop := year % 4 = 0 ∧ (year % 100 ≠ 0 ∨ year % 400 = 0)

instance (year : ℤ) : Decidable (IsLeap year) := inferInstanceAs (Decidable (_ ∧ _))

/-- The days of a year. -/
def yearLength (year : ℤ) : ℤ := if IsLeap year then 366 else 365

/-- The days of a month, 1 being January. -/
def daysIn (year : ℤ) (month : ℕ) : ℕ :=
  if month = 2 then if IsLeap year then 29 else 28
  else if month = 4 ∨ month = 6 ∨ month = 9 ∨ month = 11 then 30
  else 31

/-- The day number of the first of January. -/
def dayFromYear (year : ℤ) : ℤ :=
  365 * (year - 1970) + (year - 1969) / 4 - (year - 1901) / 100 + (year - 1601) / 400

/-- The days of the first `months` months of a year. -/
def daysBefore (year : ℤ) : ℕ → ℕ
  | 0 => 0
  | months + 1 => daysBefore year months + daysIn year (months + 1)

/-- The year of a day: a guess from the mean length of a year, put right by one. -/
def yearOf (day : ℤ) : ℤ :=
  let guess := 1970 + day * 400 / 146097
  if day < dayFromYear guess then guess - 1
  else if dayFromYear (guess + 1) ≤ day then guess + 1
  else guess

/-- The month and the day of the month that lies `rest` days after the first of `month`, at
most `months` months on. -/
def monthOf (year : ℤ) : ℕ → ℕ → ℕ → ℕ × ℕ
  | 0, month, rest => (month, rest + 1)
  | months + 1, month, rest =>
    if rest < daysIn year month then (month, rest + 1)
    else monthOf year months (month + 1) (rest - daysIn year month)

/-! ## Years -/

variable {year year' i : ℤ} {m n : ℕ}

/-- A year begins after the days of the one before. -/
theorem dayFromYear_succ : dayFromYear (year + 1) = dayFromYear year + yearLength year := by
  unfold dayFromYear yearLength
  by_cases h : IsLeap year
  · rw [if_pos h]
    unfold IsLeap at h
    omega
  · rw [if_neg h]
    unfold IsLeap at h
    omega

/-- A year has at least 365 days. -/
theorem yearLength_pos : 365 ≤ yearLength year := by
  unfold yearLength
  split <;> omega

/-- Years begin in their order. -/
theorem dayFromYear_lt_iff : dayFromYear year < dayFromYear year' ↔ year < year' := by
  have hmono : StrictMono dayFromYear := strictMono_int_of_lt_succ fun year => by
    rw [dayFromYear_succ]
    have := @yearLength_pos year
    omega
  exact hmono.lt_iff_lt

/-- So they do with equality. -/
theorem dayFromYear_le_iff : dayFromYear year ≤ dayFromYear year' ↔ year ≤ year' := by
  rw [← not_lt, dayFromYear_lt_iff, not_lt]

/-- A day lies in its year. -/
theorem yearOf_spec : dayFromYear (yearOf i) ≤ i ∧ i < dayFromYear (yearOf i + 1) := by
  have hlow : dayFromYear (1970 + i * 400 / 146097 - 1) ≤ i := by
    unfold dayFromYear
    omega
  have hhigh : i < dayFromYear (1970 + i * 400 / 146097 + 1 + 1) := by
    unfold dayFromYear
    omega
  unfold yearOf
  dsimp only
  split
  · exact ⟨hlow, by rwa [Int.sub_add_cancel]⟩
  · split
    · exact ⟨by assumption, hhigh⟩
    · exact ⟨by omega, by omega⟩

/-! ## Months -/

/-- A month has at least 28 days. -/
theorem daysIn_pos : 28 ≤ daysIn year m := by
  unfold daysIn
  split_ifs <;> omega

/-- A month has at most 31 days. -/
theorem daysIn_le : daysIn year m ≤ 31 := by
  unfold daysIn
  split_ifs <;> omega

/-- Later months begin later in the year. -/
theorem daysBefore_mono (year : ℤ) (h : m ≤ n) : daysBefore year m ≤ daysBefore year n := by
  induction h with
  | refl => exact Nat.le_refl _
  | step _ ih => exact ih.trans (Nat.le_add_right _ _)

/-- Twelve months make a year. -/
theorem daysBefore_twelve : (daysBefore year 12 : ℤ) = yearLength year := by
  by_cases h : IsLeap year <;> simp [daysBefore, daysIn, yearLength, h]

/-- Counting the months down from the `m + 1`-th finds the month a day of the year lies in. -/
theorem monthOf_spec {rest : ℕ} (hm : m + n = 11)
    (hrest : daysBefore year m + rest < daysBefore year 12) :
    let found := monthOf year n (m + 1) rest
    m < found.1 ∧ found.1 ≤ 12 ∧ 1 ≤ found.2 ∧ found.2 ≤ daysIn year found.1 ∧
      daysBefore year (found.1 - 1) + found.2 = daysBefore year m + rest + 1 := by
  induction n generalizing m rest with
  | zero =>
    obtain rfl : m = 11 := by omega
    have htwelve : daysBefore year 12 = daysBefore year 11 + daysIn year (11 + 1) := rfl
    simp only [monthOf]
    exact ⟨by omega, by omega, by omega, by omega, rfl⟩
  | succ n ih =>
    rw [monthOf]
    split
    · next hlt => exact ⟨by simp, by simp; omega, by simp, hlt, rfl⟩
    · next hlt =>
      have hstep : daysBefore year (m + 1) = daysBefore year m + daysIn year (m + 1) := rfl
      obtain ⟨hfound, htwelve, hpos, hle, heq⟩ :=
        @ih (m + 1) (rest - daysIn year (m + 1)) (by omega) (by omega)
      exact ⟨by omega, htwelve, hpos, hle, by omega⟩

end Civil

/-- A date of the calendar. -/
structure Civil where
  year : ℤ
  month : ℕ
  day : ℕ
  one_le_month : 1 ≤ month
  month_le : month ≤ 12
  one_le_day : 1 ≤ day
  day_le : day ≤ Civil.daysIn year month
  deriving DecidableEq, Repr

namespace Civil

/-- The number of a date. -/
def toDay (c : Civil) : ℤ := dayFromYear c.year + daysBefore c.year (c.month - 1) + c.day - 1

/-- A date lies before the next month. -/
theorem daysBefore_add_day_le (c : Civil) :
    daysBefore c.year (c.month - 1) + c.day ≤ daysBefore c.year c.month := by
  obtain ⟨month, hmonth⟩ := Nat.exists_eq_add_of_le' c.one_le_month
  have hle := c.day_le
  rw [hmonth] at hle ⊢
  exact Nat.add_le_add_left hle _

/-- A date lies in its year. -/
theorem toDay_bounds (c : Civil) :
    dayFromYear c.year ≤ c.toDay ∧ c.toDay < dayFromYear (c.year + 1) := by
  have hle := c.daysBefore_add_day_le.trans (daysBefore_mono c.year c.month_le)
  have htwelve := @daysBefore_twelve c.year
  have hpos := c.one_le_day
  rw [dayFromYear_succ]
  unfold toDay
  omega

/-- The order of dates by year, month and day. -/
def Before (c c' : Civil) : Prop :=
  c.year < c'.year ∨ c.year = c'.year ∧ (c.month < c'.month ∨ c.month = c'.month ∧ c.day < c'.day)

/-- Earlier dates have smaller numbers. -/
theorem Before.toDay_lt {c c' : Civil} (h : c.Before c') : c.toDay < c'.toDay := by
  rcases h with hyear | ⟨hyear, hmonth | ⟨hmonth, hday⟩⟩
  · have hle : dayFromYear (c.year + 1) ≤ dayFromYear c'.year :=
      dayFromYear_le_iff.2 hyear
    exact (c.toDay_bounds.2.trans_le hle).trans_le c'.toDay_bounds.1
  · have hle := c.daysBefore_add_day_le.trans
      (daysBefore_mono c.year (show c.month ≤ c'.month - 1 by omega))
    have hpos := c'.one_le_day
    unfold toDay
    rw [← hyear]
    omega
  · unfold toDay
    rw [← hyear, ← hmonth]
    omega

/-- Of two dates one comes first, or they are the same. -/
theorem Before.trichotomy (c c' : Civil) : c.Before c' ∨ c = c' ∨ c'.Before c := by
  obtain ⟨year, month, day, _, _, _, _⟩ := c
  obtain ⟨year', month', day', _, _, _, _⟩ := c'
  simp only [Before, mk.injEq]
  omega

/-- Dates in order have their numbers in order. -/
theorem toDay_lt_iff {c c' : Civil} : c.toDay < c'.toDay ↔ c.Before c' := by
  refine ⟨fun h => ?_, Before.toDay_lt⟩
  rcases Before.trichotomy c c' with hlt | rfl | hlt
  · exact hlt
  · exact absurd h (lt_irrefl _)
  · exact absurd h hlt.toDay_lt.asymm

/-- Different dates are different days. -/
theorem toDay_injective : Function.Injective toDay := by
  intro c c' h
  rcases Before.trichotomy c c' with hlt | heq | hlt
  · exact absurd hlt.toDay_lt (by rw [h]; exact lt_irrefl _)
  · exact heq
  · exact absurd hlt.toDay_lt (by rw [h]; exact lt_irrefl _)

/-- The day of the year, counted from 0. -/
theorem rest_lt : daysBefore (yearOf i) 0 + (i - dayFromYear (yearOf i)).toNat <
    daysBefore (yearOf i) 12 := by
  obtain ⟨hlow, hhigh⟩ := @yearOf_spec i
  have htwelve := @daysBefore_twelve (yearOf i)
  rw [dayFromYear_succ] at hhigh
  simp only [daysBefore, Nat.zero_add] at htwelve ⊢
  omega

/-- The date with a number. -/
def ofDay (i : ℤ) : Civil :=
  let found := monthOf (yearOf i) 11 1 (i - dayFromYear (yearOf i)).toNat
  have hfound := monthOf_spec (m := 0) (n := 11) rfl (rest_lt (i := i))
  { year := yearOf i
    month := found.1
    day := found.2
    one_le_month := hfound.1
    month_le := hfound.2.1
    one_le_day := hfound.2.2.1
    day_le := hfound.2.2.2.1 }

/-- The date of a day is that day. -/
@[simp] theorem toDay_ofDay (i : ℤ) : (ofDay i).toDay = i := by
  obtain ⟨-, -, -, -, heq⟩ := monthOf_spec (m := 0) (n := 11) rfl (rest_lt (i := i))
  have hlow := (@yearOf_spec i).1
  unfold toDay ofDay
  simp only [daysBefore, Nat.zero_add] at heq ⊢
  omega

/-- The day of a date has that date. -/
@[simp] theorem ofDay_toDay (c : Civil) : ofDay c.toDay = c := toDay_injective (toDay_ofDay _)

/-- Dates and day numbers correspond one to one. -/
def equivDay : Civil ≃ ℤ := ⟨toDay, ofDay, ofDay_toDay, toDay_ofDay⟩

/-- A day is in a year or later from the first of January of that year on. -/
theorem le_year_ofDay {y : ℤ} : y ≤ (ofDay i).year ↔ dayFromYear y ≤ i := by
  obtain ⟨hlow, hhigh⟩ := (ofDay i).toDay_bounds
  rw [toDay_ofDay] at hlow hhigh
  constructor
  · intro h
    exact (dayFromYear_le_iff.2 h).trans hlow
  · intro h
    exact Int.lt_add_one_iff.1 (dayFromYear_lt_iff.1 (h.trans_lt hhigh))

/-- The dates of a month have successive numbers. -/
theorem toDay_add_day (c c' : Civil) (hy : c.year = c'.year) (hm : c.month = c'.month) :
    c.toDay + c'.day = c'.toDay + c.day := by
  unfold toDay
  rw [hy, hm]
  omega

end Civil
