import Mathlib.Data.Int.Basic
import RxVision.Database

/-!
# Zones, clock times and shift-days (`timezone.ts`, `break-schedule.ts`)

A zone gives the offset of its wall clock at every instant, in whole seconds. A day key is the
number of its day, so the calendar fields of a wall clock are one number and the time of the day.
Everything is computed as the source computes it, the two guesses of `zonedMinutesToUtc` included;
on a zone of constant offset (`Zone.Constant`) they collapse to one formula, and the rules at the
end say where an instant stands against the clock times of a day.
-/

namespace RxVision

/-- A timezone: local time minus UTC at an instant, in seconds. -/
structure Zone where
  offsetSec : ℤ → ℤ

/-- A zone whose clock is never put forward or back. -/
def Zone.Constant (tz : Zone) : Prop := ∀ t t', tz.offsetSec t = tz.offsetSec t'

/-- `ZonedParts`: wall-clock components. -/
structure ZonedParts where
  date : DateKey
  hour : ℤ
  minute : ℤ
  second : ℤ
  deriving DecidableEq, Repr

/-- `zonedParts`. -/
def zonedParts (t : ℤ) (tz : Zone) : ZonedParts :=
  let sec := t / 1000 + tz.offsetSec t
  { date := ⟨sec / 86400⟩
    hour := sec % 86400 / 3600
    minute := sec % 3600 / 60
    second := sec % 60 }

/-- `Date.UTC` of a day and minutes after its midnight. -/
def dateUtc (dateKey : DateKey) (minutes : ℤ) : ℤ := dateKey.day * 86400000 + minutes * 60000

/-- `offsetMs`. -/
def offsetMs (utcMs : ℤ) (tz : Zone) : ℤ :=
  let p := zonedParts utcMs tz
  dateUtc p.date (p.hour * 60 + p.minute) + p.second * 1000 - utcMs / 1000 * 1000

/-- `dateKeyInZone`. -/
def dateKeyInZone (t : ℤ) (tz : Zone) : DateKey := (zonedParts t tz).date

/-- `zonedMinutesToUtc`: a first guess, corrected when the offset differs at the result. -/
def zonedMinutesToUtc (dateKey : DateKey) (minutes : ℤ) (tz : Zone) : ℤ :=
  let guess := dateUtc dateKey minutes
  let first := offsetMs guess tz
  let utc := guess - first
  let second := offsetMs utc tz
  if second ≠ first then guess - second else utc

/-- `addDaysToKey`. -/
def addDaysToKey (dateKey : DateKey) (days : ℤ) : DateKey := ⟨dateKey.day + days⟩

/-- `isoWeekdayOfKey`: 1 is Monday; day 0 was a Thursday. -/
def isoWeekdayOfKey (dateKey : DateKey) : ℤ := (dateKey.day + 3) % 7 + 1

/-- A clock time `HH:MM`, in minutes after midnight (`hmToMinutes`). -/
structure Hm where
  minutes : ℕ
  lt : minutes < 1440
  deriving DecidableEq, Repr

/-- `ShiftClock`: the end is after the start, on the next day when overnight. -/
structure ShiftClock where
  startMin : ℤ
  endMin : ℤ
  overnight : Bool
  start_nonneg : 0 ≤ startMin
  start_lt : startMin < 1440
  lt : startMin < endMin
  le : endMin ≤ startMin + 1440
  end_le : overnight = false → endMin < 1440
  le_end : overnight = true → 1440 ≤ endMin

/-- `clockOf`, of the start and end of a shift. -/
def clockOf (start stop : Hm) : ShiftClock where
  startMin := start.minutes
  endMin := if stop.minutes ≤ start.minutes then stop.minutes + 1440 else stop.minutes
  overnight := stop.minutes ≤ start.minutes
  start_nonneg := by omega
  start_lt := by have := start.lt; omega
  lt := by have := start.lt; split <;> omega
  le := by have := stop.lt; split <;> omega
  end_le := by
    intro h
    have := stop.lt
    rw [if_neg (of_decide_eq_false h)]
    omega
  le_end := by
    intro h
    rw [if_pos (of_decide_eq_true h)]
    omega

/-- `shiftMinutes`: a clock time of the shift, after the shift-day's midnight. -/
def shiftMinutes (clock : ShiftClock) (hm : Hm) : ℤ :=
  if clock.overnight && hm.minutes < clock.startMin then hm.minutes + 1440 else hm.minutes

/-- `shiftDayKey`: which shift-day a moment belongs to. -/
def shiftDayKey (clock : ShiftClock) (now : ℤ) (tz : Zone) : DateKey :=
  let p := zonedParts now tz
  if !clock.overnight then p.date
  else
    let nowMin := p.hour * 60 + p.minute
    if nowMin < clock.endMin - 1440 then addDaysToKey p.date (-1) else p.date

/-- `shiftBounds`: absolute start and end of the shift on a shift-day. -/
def shiftBounds (clock : ShiftClock) (dateKey : DateKey) (tz : Zone) : ℤ × ℤ :=
  (zonedMinutesToUtc dateKey clock.startMin tz, zonedMinutesToUtc dateKey clock.endMin tz)

/-! ## Zones of constant offset -/

variable {tz : Zone} {t now : ℤ} {d : DateKey} {m : ℤ}

/-- The offset of a zone in milliseconds. -/
theorem offsetMs_eq : offsetMs t tz = tz.offsetSec t * 1000 := by
  unfold offsetMs zonedParts dateUtc
  dsimp only
  omega

/-- Without changes of the clock, the first guess is right. -/
theorem Zone.Constant.zonedMinutesToUtc (hz : tz.Constant) :
    zonedMinutesToUtc d m tz = d.day * 86400000 + m * 60000 - tz.offsetSec 0 * 1000 := by
  unfold RxVision.zonedMinutesToUtc
  dsimp only
  rw [offsetMs_eq, offsetMs_eq, hz (dateUtc d m - _) (dateUtc d m), if_neg (not_not.2 rfl),
    hz (dateUtc d m) 0, dateUtc]

/-- An instant is on a day from its midnight to the next. -/
theorem Zone.Constant.dateKeyInZone_eq (hz : tz.Constant) :
    dateKeyInZone t tz = d ↔
      RxVision.zonedMinutesToUtc d 0 tz ≤ t ∧ t < RxVision.zonedMinutesToUtc d 1440 tz := by
  rw [hz.zonedMinutesToUtc, hz.zonedMinutesToUtc]
  unfold dateKeyInZone zonedParts
  rw [hz t 0]
  cases d with
  | mk day =>
    simp only [DateKey.mk.injEq]
    omega

/-- The wall clock shows less than `m` minutes before the instant `m` minutes after midnight. -/
theorem Zone.Constant.clock_lt (hz : tz.Constant) :
    (zonedParts t tz).hour * 60 + (zonedParts t tz).minute < m ↔
      t < RxVision.zonedMinutesToUtc (dateKeyInZone t tz) m tz := by
  rw [hz.zonedMinutesToUtc]
  unfold dateKeyInZone zonedParts
  rw [hz t 0]
  dsimp only
  omega

/-- A clock time of the next day is one of this day a day later. -/
theorem Zone.Constant.add_day (hz : tz.Constant) :
    RxVision.zonedMinutesToUtc (addDaysToKey d 1) m tz =
      RxVision.zonedMinutesToUtc d (m + 1440) tz := by
  rw [hz.zonedMinutesToUtc, hz.zonedMinutesToUtc]
  simp only [addDaysToKey]
  omega

/-- On a constant offset later minutes are later instants. -/
theorem Zone.Constant.lt_iff (hz : tz.Constant) {m' : ℤ} :
    RxVision.zonedMinutesToUtc d m tz < RxVision.zonedMinutesToUtc d m' tz ↔ m < m' := by
  rw [hz.zonedMinutesToUtc, hz.zonedMinutesToUtc]
  omega

/-- So they are with equality. -/
theorem Zone.Constant.le_iff (hz : tz.Constant) {m' : ℤ} :
    RxVision.zonedMinutesToUtc d m tz ≤ RxVision.zonedMinutesToUtc d m' tz ↔ m ≤ m' := by
  rw [← not_lt, hz.lt_iff, not_lt]

/-- Days are added one after another. -/
@[simp] theorem addDaysToKey_add (a b : ℤ) :
    addDaysToKey (addDaysToKey d a) b = addDaysToKey d (a + b) := by
  simp only [addDaysToKey, Int.add_assoc]

/-- No days change nothing. -/
@[simp] theorem addDaysToKey_zero : addDaysToKey d 0 = d := by simp [addDaysToKey]

/-- Some days lead to another one. -/
theorem addDaysToKey_ne {n : ℤ} (hn : n ≠ 0) : addDaysToKey d n ≠ d := by
  intro h
  have hday := congrArg DateKey.day h
  simp only [addDaysToKey] at hday
  omega

/-- On a zone of constant offset a moment belongs to the evening before exactly in the early hours
of an overnight shift. -/
theorem shiftDayKey_eq (clock : ShiftClock) :
    shiftDayKey clock now tz =
      if clock.overnight = true ∧
        (zonedParts now tz).hour * 60 + (zonedParts now tz).minute < clock.endMin - 1440 then
        addDaysToKey (dateKeyInZone now tz) (-1)
      else dateKeyInZone now tz := by
  unfold shiftDayKey dateKeyInZone
  cases clock.overnight <;> simp

end RxVision
