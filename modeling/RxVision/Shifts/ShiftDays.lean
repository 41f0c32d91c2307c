import RxVision.Shifts.BreakWindows

/-!
# Shift-days and shift bounds (`shiftDayKey`, `shiftBounds`)

On a zone of constant offset the shift-day of an instant is the day of a wall clock put back by the
early hours of an overnight shift (`Zone.Constant.shiftDayKey_day`). So it never goes back in time,
and it is `d` for every instant within the bounds of the shift on `d` (`shiftDays_agree`).
-/

namespace RxVision

/-- The minutes after midnight that still belong to the evening before. -/
def ShiftClock.earlyMin (clock : ShiftClock) :
    ℤ := if clock.overnight then clock.endMin - 1440 else 0

/-- The early hours end before the next shift starts. -/
theorem ShiftClock.earlyMin_bounds (clock : ShiftClock) :
    0 ≤ clock.earlyMin ∧ clock.earlyMin ≤ clock.startMin ∧ clock.endMin ≤ clock.earlyMin +
    1440 := by
  have hlt := clock.lt
  have hle := clock.le
  have hstart := clock.start_nonneg
  unfold earlyMin
  split
  · next ho =>
    have := clock.le_end ho
    omega
  · next ho =>
    have := clock.end_le (Bool.not_eq_true _ ▸ ho)
    omega

namespace Zone.Constant

variable {tz : Zone} {clock : ShiftClock} {t t' : ℤ} {d : DateKey}

/-- The shift-day is the day that a clock put back by the early hours shows. -/
theorem shiftDayKey_day (hz : tz.Constant) :
    (shiftDayKey clock t tz).day = (t / 1000 + tz.offsetSec 0 - clock.earlyMin * 60) / 86400 := by
  obtain ⟨h0, hstart, hend⟩ := clock.earlyMin_bounds
  have hlt := clock.start_lt
  rw [shiftDayKey_eq, ShiftClock.earlyMin] at *
  cases ho : clock.overnight with
  | false =>
    rw [if_neg (by simp), if_neg (by simp), dateKeyInZone, zonedParts, hz t 0]
    dsimp only
    omega
  | true =>
    rw [ho, if_pos rfl] at h0 hstart
    simp only [true_and, if_true, dateKeyInZone, zonedParts, hz t 0, addDaysToKey]
    split <;> dsimp only <;> omega

/-- The instants of a shift-day: from the end of the early hours to those of the next day. -/
theorem shiftDayKey_eq_iff (hz : tz.Constant) :
    shiftDayKey clock t tz = d ↔
      RxVision.zonedMinutesToUtc d clock.earlyMin tz ≤ t ∧
        t < RxVision.zonedMinutesToUtc d (clock.earlyMin + 1440) tz := by
  have hday : shiftDayKey clock t tz = d ↔ (shiftDayKey clock t tz).day = d.day := by
    cases shiftDayKey clock t tz
    cases d
    simp
  rw [hday, hz.shiftDayKey_day, hz.zonedMinutesToUtc, hz.zonedMinutesToUtc]
  omega

/-- A later instant never belongs to an earlier shift-day. -/
theorem shiftDayKey_mono (hz : tz.Constant) (h : t ≤ t') :
    (shiftDayKey clock t tz).day ≤ (shiftDayKey clock t' tz).day := by
  rw [hz.shiftDayKey_day, hz.shiftDayKey_day]
  omega

end Zone.Constant

/-- An instant within the bounds of a shift on a date belongs to that date, the bounds of
consecutive dates do not overlap, and the shift-day never goes back. -/
theorem shiftDays_agree {tz : Zone} (hz : tz.Constant) (start stop : Hm) :
    let clock := clockOf start stop
    (∀ d t, (shiftBounds clock d tz).1 ≤ t → t < (shiftBounds clock d tz).2 →
      shiftDayKey clock t tz = d) ∧
    (∀ d, (shiftBounds clock d tz).2 ≤ (shiftBounds clock (addDaysToKey d 1) tz).1) ∧
    ∀ t t', t ≤ t' → (shiftDayKey clock t tz).day ≤ (shiftDayKey clock t' tz).day := by
  intro clock
  obtain ⟨-, hstart, hend⟩ := clock.earlyMin_bounds
  refine ⟨fun d t h1 h2 => hz.shiftDayKey_eq_iff.2 ⟨?_, ?_⟩, fun d => ?_,
    fun t t' => hz.shiftDayKey_mono⟩
  · exact (hz.le_iff.2 hstart).trans h1
  · exact h2.trans_le (hz.le_iff.2 hend)
  · show zonedMinutesToUtc d clock.endMin tz ≤ zonedMinutesToUtc (addDaysToKey d 1)
      clock.startMin tz
    rw [hz.add_day, hz.le_iff]
    exact clock.le

/-- Kolkata, a shift from 22:00 to 06:00: half past five in the morning belongs to the evening
before, and the bounds of the two days keep clear of each other. -/
theorem shiftDays_agree_overnight :
    let clock := clockOf (clockTime 1320) (clockTime 360)
    let tz : Zone := ⟨fun _ => 19800⟩
    shiftDayKey clock 1767225600000 tz = ⟨20453⟩ ∧
      (shiftBounds clock ⟨20453⟩ tz).2 ≤ (shiftBounds clock ⟨20454⟩ tz).1 := by
  intro clock tz
  have hz : tz.Constant := fun _ _ => rfl
  obtain ⟨hday, hbounds, -⟩ := shiftDays_agree hz (clockTime 1320) (clockTime 360)
  exact ⟨hday _ _ (by decide) (by decide), hbounds ⟨20453⟩⟩

end RxVision
