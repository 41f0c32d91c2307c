import RxVision.Shifts.BreakWindows
import RxVision.Worktime.Hourly

/-!
# Local times across a clock change (`zonedMinutesToUtc`)

The conversion takes the offset at the local time read as UTC, and corrects it once at the result.
Near a date with one change of the clock it therefore takes the offset before the change for some
minutes and the one after it for the others (`ClockChange.zonedMinutesToUtc_eq`). A local time that
exists is always converted right (`ClockChange.reads_back`). When the clock is put forward, the
skipped local times fall on either side: the instants go back by the hour less a minute where the
first minute is taken with the new offset, and a shift that starts before that minute ends before it
starts. `converts_iff` says that nothing else goes wrong.
-/

namespace RxVision

/-- The minutes of a date that the schedules ask for: windows open up to four hours before a shift
that may start at midnight, and close up to eight hours after one that may end on the next day. -/
def InReach (m : ℤ) : Prop := -240 ≤ m ∧ m ≤ 3360

/-- A zone whose offset changes at most once, by at most one hour, within two days of a date. No
zone is sixteen hours away from UTC, and a change is on a whole second. -/
structure ClockChange (tz : Zone) (dateKey : DateKey) where
  changeAt : ℤ
  before : ℤ
  after : ℤ
  offset_eq : ∀ t, dateUtc dateKey (-2 * 1440) ≤ t → t < dateUtc dateKey (3 * 1440) →
    tz.offsetSec t = if t < changeAt then before else after
  bounded : ∀ t, -57600 < tz.offsetSec t ∧ tz.offsetSec t < 57600
  small : -3600 ≤ after - before ∧ after - before ≤ 3600
  whole : 1000 ∣ changeAt

/-- The wall clock shows the date and the minutes, on the minute. -/
def Reads (tz : Zone) (dateKey : DateKey) (m t : ℤ) : Prop :=
  zonedParts t tz =
    { date := addDaysToKey dateKey (m / 1440), hour := m % 1440 / 60, minute := m % 60,
      second := 0 }

/-- The instants of a slot are in the order of its minutes, inside the shift. -/
structure BreakSlot.InOrder (slot : BreakSlot) (bounds : ℤ × ℤ) : Prop where
  open_le_ring : slot.windowOpen ≤ slot.ringStart
  ring : slot.ringStart ≤ slot.ringEnd
  ring_le_close : slot.ringEnd ≤ slot.windowClose
  open_le_start : slot.windowOpen ≤ slot.scheduledStart
  start_le_close : slot.scheduledStart ≤ slot.windowClose
  start_le_end : slot.scheduledStart ≤ slot.scheduledEnd
  inside : bounds.1 ≤ slot.scheduledStart ∧ slot.scheduledEnd ≤ bounds.2

/-- The local times of a date are converted soundly. -/
structure Converts (tz : Zone) (dateKey : DateKey) : Prop where
  reads_back : ∀ m, InReach m → (∃ t, Reads tz dateKey m t) →
    Reads tz dateKey m (zonedMinutesToUtc dateKey m tz)
  mono : ∀ m m', InReach m → InReach m' → m ≤ m' →
    zonedMinutesToUtc dateKey m tz ≤ zonedMinutesToUtc dateKey m' tz
  bounds : ∀ clock, (shiftBounds clock dateKey tz).1 ≤ (shiftBounds clock dateKey tz).2
  slots : ∀ s : ShiftDefinition, s.validateShiftDefinition = [] →
    (∀ slot ∈ s.breakSlots dateKey tz, slot.InOrder (shiftBounds s.clock dateKey tz)) ∧
      (s.breakSlots dateKey tz).Pairwise fun a z => a.windowClose ≤ z.windowOpen
  hours : ∀ w ∈ hourWindows dateKey tz, w.start ≤ w.stop

namespace ClockChange

variable {tz : Zone} {dateKey : DateKey} {m t : ℤ}

/-- The minute is taken with the offset after the change. -/
def TakesAfter (c : ClockChange tz dateKey) (m : ℤ) : Prop :=
  if dateUtc dateKey m < c.changeAt then c.changeAt + c.before * 1000 ≤ dateUtc dateKey m
  else c.changeAt + c.after * 1000 ≤ dateUtc dateKey m

instance (c : ClockChange tz dateKey) : DecidablePred c.TakesAfter := fun m => by
  unfold TakesAfter
  infer_instance

/-- The conversion ends with one of the two offsets, the one after the change when the
local time takes it. -/
theorem zonedMinutesToUtc_eq (c : ClockChange tz dateKey) (hm : InReach m) :
    zonedMinutesToUtc dateKey m tz =
      dateUtc dateKey m - (if c.TakesAfter m then c.after else c.before) * 1000 := by
  have hguess := c.offset_eq (dateUtc dateKey m) (by unfold dateUtc InReach at *; omega)
    (by unfold dateUtc InReach at *; omega)
  have hbound := c.bounded (dateUtc dateKey m)
  have hutc := c.offset_eq (dateUtc dateKey m - tz.offsetSec (dateUtc dateKey m) * 1000)
    (by unfold dateUtc InReach at *; omega) (by unfold dateUtc InReach at *; omega)
  unfold zonedMinutesToUtc TakesAfter
  dsimp only
  rw [offsetMs_eq, offsetMs_eq, hutc, hguess]
  grind

/-- The reading of an instant near the date. -/
theorem reads_iff : Reads tz dateKey m t ↔
    (t / 1000 + tz.offsetSec t) * 1000 = dateUtc dateKey m := by
  unfold Reads zonedParts dateUtc addDaysToKey
  simp only [ZonedParts.mk.injEq, DateKey.mk.injEq]
  omega

/-- An instant shows a local time when its own offset is the one it was computed with. -/
theorem reads_sub (c : ClockChange tz dateKey) (hm : InReach m) {offset : ℤ}
    (hbound : -57600 < offset ∧ offset < 57600)
    (hside : offset = if dateUtc dateKey m - offset * 1000 <
      c.changeAt then c.before else c.after) :
    Reads tz dateKey m (dateUtc dateKey m - offset * 1000) := by
  have hoffset := c.offset_eq (dateUtc dateKey m - offset * 1000)
    (by unfold dateUtc InReach at *; omega) (by unfold dateUtc InReach at *; omega)
  rw [reads_iff, hoffset, ← hside]
  unfold dateUtc
  omega

/-- A local time that exists on the day of the change is converted to an instant that shows it. -/
theorem reads_back (c : ClockChange tz dateKey) (hm : InReach m) (h : ∃ t, Reads tz dateKey m t) :
    Reads tz dateKey m (zonedMinutesToUtc dateKey m tz) := by
  obtain ⟨t, ht⟩ := h
  have hbound := c.bounded t
  have hguess := c.offset_eq (dateUtc dateKey m) (by unfold dateUtc InReach at *; omega)
    (by unfold dateUtc InReach at *; omega)
  have hbound' := c.bounded (dateUtc dateKey m)
  have hwhole := c.whole
  rw [reads_iff] at ht
  have hshown := c.offset_eq t (by unfold dateUtc InReach at *; omega)
    (by unfold dateUtc InReach at *; omega)
  -- of the two instants that may show a repeated time, the result is on the side of its offset
  rw [c.zonedMinutesToUtc_eq hm]
  by_cases h : c.TakesAfter m
  · rw [if_pos h]
    unfold TakesAfter at h
    refine c.reads_sub hm ?_ (if_neg ?_).symm
    · split at h <;> split at hshown <;> split at hguess <;> omega
    · split at h <;> split at hshown <;> omega
  · rw [if_neg h]
    unfold TakesAfter at h
    refine c.reads_sub hm ?_ (if_pos ?_).symm
    · split at h <;> split at hshown <;> split at hguess <;> omega
    · split at h <;> split at hshown <;> omega

/-- From one minute to the next the instants go back exactly when the clock is put forward by more
than a minute in between. -/
theorem succ_lt_iff (c : ClockChange tz dateKey) (hm : InReach m) (hm' : InReach (m + 1)) :
    zonedMinutesToUtc dateKey (m + 1) tz < zonedMinutesToUtc dateKey m tz ↔
      60 < c.after - c.before ∧ ¬ c.TakesAfter m ∧ c.TakesAfter (m + 1) := by
  have hnext : dateUtc dateKey (m + 1) = dateUtc dateKey m + 60000 := by
    unfold dateUtc
    omega
  rw [c.zonedMinutesToUtc_eq hm, c.zonedMinutesToUtc_eq hm', hnext]
  by_cases h : c.TakesAfter m <;> by_cases h' : c.TakesAfter (m + 1)
  · simp only [h, h', if_true, not_true, false_and, and_false, iff_false]
    omega
  · -- only a clock put forward is read with the old offset again
    simp only [h, h', if_true, if_false, not_true, and_false, iff_false]
    unfold TakesAfter at h h'
    rw [hnext] at h'
    split at h <;> split at h' <;> omega
  · simp only [h, h', if_true, if_false, not_false_iff, and_true]
    omega
  · simp only [h, h', if_false, and_false, iff_false]
    omega

/-- The instants of a date do not go back when no step from one minute to the next does. -/
theorem mono_of_succ {f : ℤ → ℤ} {m m' : ℤ} (hm : InReach m) (hm' : InReach m') (hle : m ≤ m')
    (h : ∀ k, InReach k → InReach (k + 1) → f k ≤ f (k + 1)) : f m ≤ f m' := by
  induction m', hle using Int.leInduction with
  | base => exact le_rfl
  | succ k hk ih =>
    have hreach : InReach k := by
      unfold InReach at *
      omega
    exact (ih hreach).trans (h k hreach hm')

end ClockChange

/-! ## What follows from the order of the instants -/

section Mono

variable {tz : Zone} {dateKey : DateKey}
  (hmono : ∀ m m', InReach m → InReach m' → m ≤ m' →
    zonedMinutesToUtc dateKey m tz ≤ zonedMinutesToUtc dateKey m' tz)

include hmono in
/-- A shift does not end before it starts. -/
theorem shiftBounds_le (clock : ShiftClock) :
    (shiftBounds clock dateKey tz).1 ≤ (shiftBounds clock dateKey tz).2 := by
  have hstart := clock.start_nonneg
  have hlt := clock.start_lt
  have hend := clock.lt
  have hle := clock.le
  exact hmono _ _ (by unfold InReach; omega) (by unfold InReach; omega) hend.le

include hmono in
/-- The hours of a day do not end before they start. -/
theorem hourWindows_le {w : Interval} (hw : w ∈ hourWindows dateKey tz) : w.start ≤ w.stop := by
  obtain ⟨h, hh, rfl⟩ := List.mem_map.1 hw
  have hlt := List.mem_range.1 hh
  exact hmono _ _ (by unfold InReach; omega) (by unfold InReach; omega) (by omega)

namespace ShiftDefinition

variable {s : ShiftDefinition} {b : ShiftBreakDef}

/-- The window of an enabled break of a checked shift is within the limits. -/
theorem window_limits (h : s.validateShiftDefinition = []) (hb : b ∈ s.enabledBreaks) :
    b.windowBeforeMin ≤ 240 ∧ b.windowAfterMin ≤ 480 := by
  unfold validateShiftDefinition at h
  simp only [List.append_eq_nil_iff, List.flatMap_eq_nil_iff] at h
  have hproblems := h.1.2 b hb
  unfold breakProblems at hproblems
  simp only [List.append_eq_nil_iff, range_eq_nil] at hproblems
  obtain ⟨⟨⟨⟨⟨-, hbefore⟩, hafter⟩, -⟩, -⟩, -⟩ := hproblems
  exact ⟨hbefore.2, hafter.2⟩

/-- Every instant of a break of a checked shift is within the reach in which the zone
is described. -/
theorem inReach_of_window (h : s.validateShiftDefinition = []) (hb : b ∈ s.enabledBreaks) {m : ℤ}
    (hlow : shiftMinutes s.clock b.startTime - b.windowBeforeMin ≤ m)
    (hhigh : m ≤ s.clock.endMin + b.windowAfterMin) : InReach m := by
  obtain ⟨-, -, -, hstart, -⟩ := enabledBreaks_ok h hb
  obtain ⟨hbefore, hafter⟩ := window_limits h hb
  have hnonneg := s.clock.start_nonneg
  have hlt := s.clock.start_lt
  have hle := s.clock.le
  unfold InReach
  omega

include hmono in
/-- A slot of a valid shift opens, starts, ends and closes in this order, in the shift. -/
theorem slotOf_inOrder (h : s.validateShiftDefinition = []) (hb : b ∈ s.enabledBreaks) :
    (s.slotOf dateKey tz b).InOrder (shiftBounds s.clock dateKey tz) := by
  obtain ⟨hlength, hbefore, hafter, hstart, hend⟩ := enabledBreaks_ok h hb
  obtain ⟨hring, hlead, hring'⟩ := ring_ok h hb
  have hreach := fun {m : ℤ} => inReach_of_window h hb (m := m)
  have hle : ∀ m m', shiftMinutes s.clock b.startTime - b.windowBeforeMin ≤ m → m ≤ m' →
      m' ≤ s.clock.endMin + b.windowAfterMin →
      zonedMinutesToUtc dateKey m tz ≤ zonedMinutesToUtc dateKey m' tz := fun m m' h1 h2 h3 =>
    hmono m m' (hreach h1 (h2.trans h3)) (hreach (h1.trans h2) h3) h2
  exact {
    open_le_ring := hle _ _ (by omega) (by omega) (by omega)
    ring := hle _ _ (by omega) (by omega) (by omega)
    ring_le_close := hle _ _ (by omega) (by omega) (by omega)
    open_le_start := hle _ _ (by omega) (by omega) (by omega)
    start_le_close := hle _ _ (by omega) (by omega) (by omega)
    start_le_end := hle _ _ (by omega) (by omega) (by omega)
    inside := by
      have hnonneg := s.clock.start_nonneg
      have hlt := s.clock.start_lt
      have hclock := s.clock.le
      exact ⟨hmono _ _ (by unfold InReach; omega) (hreach (by omega) (by omega)) hstart,
        hle _ _ (by omega) hend (by omega)⟩ }

include hmono in
/-- So do all the slots, and none opens before the one before it has closed. -/
theorem breakSlots_inOrder (h : s.validateShiftDefinition = []) :
    (∀ slot ∈ s.breakSlots dateKey tz, slot.InOrder (shiftBounds s.clock dateKey tz)) ∧
      (s.breakSlots dateKey tz).Pairwise fun a z => a.windowClose ≤ z.windowOpen := by
  constructor
  · intro slot hslot
    obtain ⟨b, hb, rfl⟩ := List.mem_map.1 hslot
    exact slotOf_inOrder hmono h hb
  · refine List.pairwise_map.2 ((windowMinutes_inOrder h).imp_of_mem fun {a z} ha hzm haz => ?_)
    obtain ⟨hlengthA, hbeforeA, hafterA, -, hendA⟩ := enabledBreaks_ok h ha
    obtain ⟨hlengthZ, hbeforeZ, hafterZ, -, hendZ⟩ := enabledBreaks_ok h hzm
    exact hmono _ _ (inReach_of_window h ha (by omega) (by omega))
      (inReach_of_window h hzm (by omega) (by omega)) haz

end ShiftDefinition

end Mono

/-- Near a date with one change of the clock the local times are converted soundly exactly when the
clock is put forward by a minute at most, or at no minute within reach. -/
theorem converts_iff {tz : Zone} {dateKey : DateKey} (c : ClockChange tz dateKey) :
    Converts tz dateKey ↔ c.after - c.before ≤ 60 ∨
      ∀ m, InReach m → InReach (m + 1) → c.TakesAfter (m + 1) → c.TakesAfter m := by
  constructor
  · intro h
    by_contra hnot
    simp only [not_or, not_le, not_forall] at hnot
    obtain ⟨hforward, m, hm, hm', hafter, hbefore⟩ := hnot
    have hback := (c.succ_lt_iff hm hm').2 ⟨hforward, hbefore, hafter⟩
    exact absurd hback (not_lt.2 (h.mono m (m + 1) hm hm' (by omega)))
  · intro h
    have hmono : ∀ m m', InReach m → InReach m' → m ≤ m' →
        zonedMinutesToUtc dateKey m tz ≤ zonedMinutesToUtc dateKey m' tz := by
      refine fun m m' hm hm' hle => ClockChange.mono_of_succ
        (f := fun m => zonedMinutesToUtc dateKey m tz) hm hm' hle fun k hk hk' => ?_
      rw [← not_lt, c.succ_lt_iff hk hk']
      rintro ⟨hforward, hbefore, hafter⟩
      exact h.elim (fun hsmall => absurd hforward (not_lt.2 hsmall)) fun hnone =>
        hbefore (hnone k hk hk' hafter)
    exact {
      reads_back := fun m hm => c.reads_back hm
      mono := hmono
      bounds := shiftBounds_le hmono
      slots := fun s hs => ShiftDefinition.breakSlots_inOrder hmono hs
      hours := fun w hw => hourWindows_le hmono hw }

/-! ## New York, 8 March 2026 -/

/-- New York around 8 March 2026: at 07:00 UTC the clock is put forward from 02:00 to 03:00. -/
def newYork : Zone := ⟨fun t => if t < 1772953200000 then -18000 else -14400⟩

/-- The change of that night. -/
def springForward : ClockChange newYork ⟨20520⟩ where
  changeAt := 1772953200000
  before := -18000
  after := -14400
  offset_eq _ _ _ := rfl
  bounded t := by
    unfold newYork
    dsimp only
    split <;> omega
  small := by decide
  whole := by decide

/-- On the day of the change the times are not converted soundly: a shift from 01:45 to 02:15 ends
half an hour before it starts. -/
theorem newYork_shift_inverted :
    (shiftBounds (clockOf (clockTime 105) (clockTime 135)) ⟨20520⟩ newYork).2 <
        (shiftBounds (clockOf (clockTime 105) (clockTime 135)) ⟨20520⟩ newYork).1 ∧
      ¬ ∀ tz dateKey, Nonempty (ClockChange tz dateKey) → Converts tz dateKey := by
  refine ⟨by decide, fun h => ?_⟩
  have hbounds :=
    (h newYork ⟨20520⟩ ⟨springForward⟩).bounds (clockOf (clockTime 105) (clockTime 135))
  exact absurd hbounds (by decide)

/-- The change of the clock as it is seen ten days later. -/
def tenDaysLater : ClockChange newYork ⟨20530⟩ where
  changeAt := 1772953200000
  before := -18000
  after := -14400
  offset_eq _ _ _ := rfl
  bounded := springForward.bounded
  small := by decide
  whole := by decide

/-- Ten days later every local time is converted soundly: the change lies behind all minutes within
reach. -/
theorem converts_iff_tenDaysLater : Converts newYork ⟨20530⟩ := by
  refine (converts_iff tenDaysLater).2 (.inr fun m hm _ _ => ?_)
  unfold ClockChange.TakesAfter tenDaysLater dateUtc
  unfold InReach at hm
  dsimp only
  split <;> omega

end RxVision
