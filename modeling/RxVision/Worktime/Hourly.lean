import RxVision.Shifts.Clock
import RxVision.Worktime.IntervalAlgebra

/-!
# Hourly activity (`worktime/domain/hourly.ts`)

A day's work in the 24 clock hours of its day. A clock hour is the one of the day itself or, for
work after midnight, the one of the next day, whichever holds more of the work. Where the work spans
at most 23 hours no clock hour has work on both days, so nothing is left out and nothing counted
twice (`hourly_exact`). The chart of an hour is measured against the set of its instants
(`overlapIn_eq_card`).
-/

namespace RxVision

open RxVision.Interval

/-- `HourActivity`. -/
structure HourActivity where
  hour : ℕ
  activeMin : ℤ
  availableMin : ℤ
  breakMin : ℤ
  meetingMin : ℤ
  quiet : Bool
  deriving DecidableEq, Repr

/-- `QUIET_MIN_AVAILABLE_MIN`. -/
def QUIET_MIN_AVAILABLE_MIN : ℤ := 50

/-- One round of `hourWindows`. -/
def hourWindow (dateKey : DateKey) (tz : Zone) (h : ℕ) : Interval :=
  ⟨zonedMinutesToUtc dateKey (h * 60) tz, zonedMinutesToUtc dateKey ((h + 1) * 60) tz⟩

/-- `hourWindows`: the 24 local hours of a business day. -/
def hourWindows (dateKey : DateKey) (tz : Zone) : List Interval :=
  (List.range 24).map (hourWindow dateKey tz)

/-- `overlapIn`: overlap of one window with a sorted list of disjoint intervals. -/
def overlapIn (list : List Interval) (w : Interval) : ℤ :=
  match list with
  | [] => 0
  | i :: rest =>
    if i.start ≥ w.stop then 0
    else
      (if i.stop > w.start then min i.stop w.stop - max i.start w.start else 0) + overlapIn rest w

/-- `dayHourWindows`: an hour on the day itself, or on the next day when more of the work lies
there. -/
def dayHourWindows (dateKey : DateKey) (tz : Zone) (work : List Interval) : List Interval :=
  let base := hourWindows dateKey tz
  let w := normalize work
  match w.getLast? with
  | none => base
  | some last =>
    if last.stop ≤ (hourWindow dateKey tz 23).stop then base
    else
      let next := hourWindows (addDaysToKey dateKey 1) tz
      base.zipWith (fun h n => if overlapIn w n > overlapIn w h then n else h) next

/-- `HourlyInput`; a missing hour of `activeSecByHour` has no active seconds. -/
structure HourlyInput where
  dateKey : DateKey
  tz : Zone
  work : List Interval
  breaks : List Interval
  meetings : List Interval
  activeSecByHour : List ℤ
  quietHourActiveMin : ℤ

/-- `min`: whole minutes of `ms`, rounded. -/
def toMin (ms : ℤ) : ℤ := (ms + 30000) / 60000

namespace HourlyInput

variable (input : HourlyInput)

/-- `workAway`: work time on a break or in a meeting. -/
def workAway : List Interval :=
  intersect (normalize input.work) (normalize (normalize input.breaks ++ normalize input.meetings))

/-- `availableMs` of an hour. -/
def availableMs (h : Interval) : ℤ :=
  max 0 (overlapIn (normalize input.work) h - overlapIn input.workAway h)

/-- The chart of the clock hour `hour`, which is the window `h`. -/
def hourActivity (hour : ℕ) (h : Interval) : HourActivity :=
  let breakMs := overlapIn (normalize input.breaks) h
  let meetingMs := overlapIn (normalize input.meetings) h
  let activeMin := min 60 (max 0 (((input.activeSecByHour[hour]?).getD 0 + 30) / 60))
  { hour
    activeMin
    availableMin := toMin (input.availableMs h)
    breakMin := toMin breakMs
    meetingMin := toMin meetingMs
    quiet := input.availableMs h ≥ QUIET_MIN_AVAILABLE_MIN * 60000 ∧ breakMs = 0 ∧ meetingMs = 0 ∧
      activeMin < input.quietHourActiveMin }

end HourlyInput

/-- `buildHourly`. -/
def buildHourly (input : HourlyInput) : List HourActivity :=
  (dayHourWindows input.dateKey input.tz (normalize input.work)).mapIdx input.hourActivity

/-! ## The overlap with a window -/

/-- The instants of one interval. -/
theorem mem_points_singleton {w : Interval} {t : ℤ} :
    t ∈ points [w] ↔ w.start ≤ t ∧ t < w.stop := by
  simp

/-- `overlapIn` is the number of instants of a separated list in the window. -/
theorem overlapIn_eq_card {list : List Interval} {w : Interval} (hl : Separated list)
    (hw : w.start ≤ w.stop) : overlapIn list w = (points list ∩ points [w]).card := by
  induction list with
  | nil => rfl
  | cons i rest ih =>
    have hproper : i.start < i.stop := hl.proper i (.head _)
    rw [overlapIn]
    split
    · next hge =>
      have hnone : points (i :: rest) ∩ points [w] = ∅ := by
        refine Finset.eq_empty_of_forall_notMem fun t ht => ?_
        rw [Finset.mem_inter, mem_points_cons, mem_points_singleton] at ht
        obtain ⟨ht | ht, -, hstop⟩ := ht
        · omega
        · have := hl.head_lt ht
          omega
      rw [hnone]
      rfl
    · next hlt =>
      have hsplit : points (i :: rest) ∩ points [w] =
          Finset.Ico (max i.start w.start) (min i.stop w.stop) ∪ points rest ∩ points [w] := by
        ext t
        simp only [Finset.mem_inter, mem_points_cons, Finset.mem_Ico, Finset.mem_union, max_le_iff,
          lt_min_iff]
        tauto
      have hdisj : Disjoint (Finset.Ico (max i.start w.start) (min i.stop w.stop))
          (points rest ∩ points [w]) := by
        rw [Finset.disjoint_left]
        intro t ht hrest
        have hhead := hl.head_lt (Finset.mem_inter.1 hrest).1
        rw [Finset.mem_Ico] at ht
        omega
      rw [ih hl.tail, hsplit, Finset.card_union_of_disjoint hdisj, Nat.cast_add, Int.card_Ico]
      congr 1
      split <;> omega

/-- A separated list ends with its last interval: all its instants lie before the end
of that one. -/
theorem Separated.lt_getLast {l : List Interval} (hl : Separated l) {last : Interval}
    (hlast : l.getLast? = some last) : ∀ t ∈ points l, t < last.stop := by
  induction l with
  | nil => cases hlast
  | cons i l ih =>
    intro t ht
    rw [mem_points_cons] at ht
    cases l with
    | nil =>
      obtain rfl : i = last := by simpa using hlast
      rcases ht with ht | ht
      · exact ht.2
      · simp at ht
    | cons j l =>
      rw [List.getLast?_cons_cons] at hlast
      rcases ht with ht | ht
      · have hj : j.start < j.stop := hl.proper j (.tail _ (.head _))
        have hij := List.rel_of_pairwise_cons hl.apart (.head _)
        have := ih hl.tail hlast j.start (mem_points.2 ⟨j, .head _, le_rfl, hj⟩)
        exact ht.2.trans (hij.trans this)
      · exact ih hl.tail hlast t ht

/-! ## The windows of a day -/

section Windows

variable {dateKey : DateKey} {tz : Zone} {work : List Interval} {s : ℤ}

/-- The start of the hour `k` after the day's midnight. -/
def hourStart (dateKey : DateKey) (tz : Zone) (k : ℕ) : ℤ :=
  zonedMinutesToUtc dateKey 0 tz + k * 3600000

/-- The hour `k` after the day's midnight. -/
def hourSpan (dateKey : DateKey) (tz : Zone) (k : ℕ) : Interval :=
  ⟨hourStart dateKey tz k, hourStart dateKey tz (k + 1)⟩

/-- An hour does not end before it starts. -/
theorem hourSpan_le (k : ℕ) : (hourSpan dateKey tz k).start ≤ (hourSpan dateKey tz k).stop := by
  unfold hourSpan hourStart
  dsimp only
  omega

/-- On a constant offset the window of an hour is the hour. -/
theorem hourWindow_eq (hz : tz.Constant) (h : ℕ) :
    hourWindow dateKey tz h = hourSpan dateKey tz h := by
  unfold hourWindow hourSpan hourStart
  rw [hz.zonedMinutesToUtc, hz.zonedMinutesToUtc, hz.zonedMinutesToUtc, Interval.mk.injEq]
  omega

/-- The hours of the next day go on where those of the day end. -/
theorem hourWindow_next_eq (hz : tz.Constant) (h : ℕ) :
    hourWindow (addDaysToKey dateKey 1) tz h = hourSpan dateKey tz (24 + h) := by
  unfold hourWindow hourSpan hourStart
  rw [hz.add_day, hz.add_day, hz.zonedMinutesToUtc, hz.zonedMinutesToUtc, hz.zonedMinutesToUtc,
    Interval.mk.injEq]
  omega

/-- The window `dayHourWindows` picks for an hour by comparing the work in the two. -/
def pickWindow (dateKey : DateKey) (tz : Zone) (w : List Interval) (h : ℕ) : Interval :=
  if overlapIn w (hourWindow (addDaysToKey dateKey 1) tz h) > overlapIn w
    (hourWindow dateKey tz h) then hourWindow (addDaysToKey dateKey 1) tz h
  else hourWindow dateKey tz h

/-- The windows of a day are the picked ones, also where the source compares nothing because the
work ends within the day. -/
theorem dayHourWindows_eq (hz : tz.Constant) :
    dayHourWindows dateKey tz work =
      (List.range 24).map (pickWindow dateKey tz (normalize work)) := by
  have hsep := normalize_separated work
  -- work that ends within the day holds nothing of the next
  have hbase : (∀ t ∈ points work, t < hourStart dateKey tz 24) →
      hourWindows dateKey tz = (List.range 24).map (pickWindow dateKey tz (normalize work)) := by
    intro hends
    refine List.map_congr_left fun h _ => (if_neg ?_).symm
    have hnone : points work ∩ points [hourSpan dateKey tz (24 + h)] = ∅ := by
      refine Finset.eq_empty_of_forall_notMem fun t ht => ?_
      rw [Finset.mem_inter, mem_points_singleton] at ht
      have hlt := hends t ht.1
      simp only [hourSpan, hourStart] at ht hlt
      omega
    rw [hourWindow_next_eq hz, hourWindow_eq hz, not_lt, overlapIn_eq_card hsep (hourSpan_le _),
      overlapIn_eq_card hsep (hourSpan_le _), points_normalize, hnone]
    simp
  unfold dayHourWindows
  dsimp only
  split
  · next hnone =>
    refine hbase fun t ht => ?_
    rw [← points_normalize, List.getLast?_eq_none_iff.1 hnone] at ht
    simp at ht
  · next last hlast =>
    split
    · next hle =>
      refine hbase fun t ht => ?_
      rw [← points_normalize] at ht
      rw [hourWindow_eq hz] at hle
      exact (hsep.lt_getLast hlast t ht).trans_le hle
    · rw [hourWindows, hourWindows, List.zipWith_map, List.zipWith_self]
      rfl

/-- Work that starts at or after `s` and ends at most 23 hours after it. -/
def WorkWithin (work : List Interval) (s : ℤ) : Prop :=
  ∀ i ∈ work, i.Proper → s ≤ i.start ∧ i.stop ≤ s + 23 * 3600000

/-- Work within a day lies in the 23 hours from its start. -/
theorem WorkWithin.mem (h : WorkWithin work s) {t : ℤ} (ht : t ∈ points work) :
    s ≤ t ∧ t < s + 23 * 3600000 := by
  obtain ⟨i, hi, h1, h2⟩ := mem_points.1 ht
  have := h i hi (h1.trans_lt h2)
  omega

/-- The picked window holds the work of the clock hour on both days: on one of them
there is none. -/
theorem card_pickWindow (hz : tz.Constant) (hw : WorkWithin work s) (h : ℕ) :
    ((points work ∩ points [pickWindow dateKey tz (normalize work) h]).card : ℤ) =
      (points work ∩ points [hourSpan dateKey tz h]).card +
        (points work ∩ points [hourSpan dateKey tz (24 + h)]).card := by
  have hsep := normalize_separated work
  have hone : points work ∩ points [hourSpan dateKey tz h] = ∅ ∨
      points work ∩ points [hourSpan dateKey tz (24 + h)] = ∅ := by
    by_contra hboth
    simp only [not_or, ← Finset.nonempty_iff_ne_empty] at hboth
    obtain ⟨⟨t, ht⟩, t', ht'⟩ := hboth
    rw [Finset.mem_inter, mem_points_singleton] at ht ht'
    have := hw.mem ht.1
    have := hw.mem ht'.1
    simp only [hourSpan, hourStart] at ht ht'
    omega
  unfold pickWindow
  rw [hourWindow_next_eq hz, hourWindow_eq hz, overlapIn_eq_card hsep (hourSpan_le _),
    overlapIn_eq_card hsep (hourSpan_le _), points_normalize]
  split
  · next hgt =>
    rcases hone with hone | hone
    · rw [hone]
      simp
    · rw [hone, Finset.card_empty, Nat.cast_zero] at hgt
      exact absurd hgt (not_lt.2 (Int.natCast_nonneg _))
  · next hle =>
    rcases hone with hone | hone
    · rw [hone, Finset.card_empty, Nat.cast_zero, not_lt] at hle
      rw [hone]
      simpa using le_antisymm (Int.natCast_nonneg _) hle
    · rw [hone]
      simp

/-- The parts of a set in the hours add up to the set, when the hours hold all of it. -/
theorem sum_hourSpan {n : ℕ} (h : points work ⊆ points ((List.range n).map (hourSpan dateKey tz))) :
    ((List.range n).map fun k => ((points work ∩ points [hourSpan dateKey tz k]).card : ℤ)).sum =
      (points work).card := by
  have hdisj : ((List.range n).map (hourSpan dateKey tz)).Pairwise fun a b =>
      Disjoint (points [a]) (points [b]) := by
    refine List.pairwise_map.2 (List.pairwise_lt_range.imp fun {j k} hjk => ?_)
    rw [Finset.disjoint_left]
    intro t hj hk
    rw [mem_points_singleton] at hj hk
    simp only [hourSpan, hourStart] at hj hk
    omega
  have hsum := Cover.sum_card_inter (points work) hdisj
  rw [List.map_map] at hsum
  exact hsum.trans (congrArg (fun p : Finset ℤ => (p.card : ℤ)) (Finset.inter_eq_left.2 h))

/-- The hours of two days hold the work that starts on the first and is within a day's length. -/
theorem points_subset_hours (hz : tz.Constant) (hs : dateKeyInZone s tz = dateKey)
    (hw : WorkWithin work s) :
    points work ⊆ points ((List.range (24 + 24)).map (hourSpan dateKey tz)) := by
  intro t ht
  have hday := hz.dateKeyInZone_eq.1 hs
  have := hw.mem ht
  rw [hz.zonedMinutesToUtc, hz.zonedMinutesToUtc] at hday
  simp only [mem_points, List.mem_map, List.mem_range, exists_exists_and_eq_and]
  refine ⟨((t - zonedMinutesToUtc dateKey 0 tz) / 3600000).toNat, ?_, ?_⟩
  · rw [hz.zonedMinutesToUtc]
    omega
  · unfold hourSpan hourStart
    rw [hz.zonedMinutesToUtc]
    dsimp only
    omega

/-- The work in the windows of a day is the work of the day, each instant in one window. -/
theorem sum_dayHourWindows (hz : tz.Constant) (hs : dateKeyInZone s tz = dateKey)
    (hw : WorkWithin work s) :
    ((dayHourWindows dateKey tz work).map fun w =>
      ((points work ∩ points [w]).card : ℤ)).sum = lengthMs work := by
  have hhours := sum_hourSpan (points_subset_hours hz hs hw)
  rw [List.range_add, List.map_append, List.sum_append, List.map_map] at hhours
  rw [dayHourWindows_eq hz, List.map_map, lengthMs_eq_card, ← hhours]
  simp only [Function.comp_def, card_pickWindow hz hw, List.sum_map_add]

end Windows

/-! ## The chart of an hour -/

section Chart

variable {input : HourlyInput} {w : Interval} {hour : ℕ}

/-- Work spent away lies in breaks or meetings. -/
theorem points_workAway :
    points input.workAway = points input.work ∩ (points input.breaks ∪ points input.meetings) := by
  simp [HourlyInput.workAway, points_append]

/-- The available time of an hour is its work outside breaks and meetings. -/
theorem availableMs_eq (hw : w.start ≤ w.stop) :
    input.availableMs w =
      ((points input.work ∩ points [w]) \ (points input.breaks ∪ points input.meetings)).card := by
  have hsplit := Finset.card_sdiff_add_card_inter (points input.work ∩ points [w])
    (points input.breaks ∪ points input.meetings)
  have haway : points input.workAway ∩ points [w] =
      points input.work ∩ points [w] ∩ (points input.breaks ∪ points input.meetings) := by
    rw [points_workAway, Finset.inter_right_comm]
  have hover : overlapIn input.workAway w = (points input.workAway ∩ points [w]).card :=
    overlapIn_eq_card (intersect_separated _ _) hw
  rw [HourlyInput.availableMs, overlapIn_eq_card (normalize_separated _) hw, hover, haway,
    points_normalize]
  omega

/-- No overlap is no common instant. -/
theorem disjoint_of_overlapIn {list : List Interval} (hw : w.start ≤ w.stop)
    (h : overlapIn (normalize list) w = 0) : Disjoint (points list) (points [w]) := by
  rw [overlapIn_eq_card (normalize_separated _) hw, points_normalize, Nat.cast_eq_zero,
    Finset.card_eq_zero] at h
  exact Finset.disjoint_iff_inter_eq_empty.2 h

/-- What the chart says of an hour is true of the instants of its window. -/
theorem hourActivity_exact (hw : w.start ≤ w.stop) :
    let available := ((points input.work ∩ points [w]) \
      (points input.breaks ∪ points input.meetings)).card
    (input.hourActivity hour w).availableMin = toMin available ∧
      ((input.hourActivity hour w).quiet = true →
        50 * 60000 ≤ available ∧ Disjoint (points input.breaks) (points [w]) ∧
          Disjoint (points input.meetings) (points [w])) := by
  intro available
  have havailable : input.availableMs w = available := availableMs_eq hw
  refine ⟨congrArg toMin havailable, fun hquiet => ?_⟩
  obtain ⟨h50, hbreak, hmeeting, -⟩ := of_decide_eq_true hquiet
  rw [havailable, QUIET_MIN_AVAILABLE_MIN] at h50
  exact ⟨by omega, disjoint_of_overlapIn hw hbreak, disjoint_of_overlapIn hw hmeeting⟩

end Chart

/-- The windows of a day of at most 23 hours hold all its work, each instant once, and the chart of
each hour measures its available time, and calls it quiet only when it is. -/
theorem hourly_exact {input : HourlyInput} {s : ℤ} (hz : input.tz.Constant)
    (hs : dateKeyInZone s input.tz = input.dateKey) (hw : WorkWithin input.work s) :
    let windows := dayHourWindows input.dateKey input.tz input.work
    windows.length = 24 ∧
      (windows.map fun w => ((points input.work ∩ points [w]).card : ℤ)).sum = lengthMs input.work ∧
      windows.Forall₂ (fun w row =>
        let available := ((points input.work ∩ points [w]) \
          (points input.breaks ∪ points input.meetings)).card
        row.availableMin = toMin available ∧
          (row.quiet = true → 50 * 60000 ≤ available ∧
            Disjoint (points input.breaks) (points [w]) ∧
            Disjoint (points input.meetings) (points [w]))) (buildHourly input) := by
  have hwindows : dayHourWindows input.dateKey input.tz (normalize input.work) =
      dayHourWindows input.dateKey input.tz input.work := by
    rw [dayHourWindows_eq hz, dayHourWindows_eq hz, normalize_normalize]
  have hle : ∀ w ∈ dayHourWindows input.dateKey input.tz input.work, w.start ≤ w.stop := by
    rw [dayHourWindows_eq hz]
    intro w hmem
    obtain ⟨h, -, rfl⟩ := List.mem_map.1 hmem
    unfold pickWindow
    split
    · exact hz.le_iff.2 (by omega)
    · exact hz.le_iff.2 (by omega)
  refine ⟨?_, sum_dayHourWindows hz hs hw, ?_⟩
  · rw [dayHourWindows_eq hz, List.length_map, List.length_range]
  · rw [buildHourly, hwindows, List.forall₂_iff_get]
    refine ⟨List.length_mapIdx.symm, fun i hi _ => ?_⟩
    simp only [List.get_eq_getElem, List.getElem_mapIdx]
    exact hourActivity_exact (hle _ (List.getElem_mem hi))

/-- Kolkata, 31 December 2025: a shift from 22:00 to 06:00 with a break from 23:30 to 00:15. -/
def nightInput : HourlyInput where
  dateKey := ⟨20453⟩
  tz := ⟨fun _ => 19800⟩
  work := [⟨1767198600000, 1767227400000⟩]
  breaks := [⟨1767204000000, 1767206700000⟩]
  meetings := []
  activeSecByHour := []
  quietHourActiveMin := 20

/-- The eight hours of the night, which run past midnight, are in the windows, each once. -/
theorem hourly_exact_night :
    ((dayHourWindows nightInput.dateKey nightInput.tz nightInput.work).map fun w =>
      ((points nightInput.work ∩ points [w]).card : ℤ)).sum = 28800000 := by
  have hwork : WorkWithin nightInput.work 1767198600000 := by
    intro i hi _
    obtain rfl : i = ⟨1767198600000, 1767227400000⟩ := List.mem_singleton.1 hi
    decide
  obtain ⟨-, hsum, -⟩ := hourly_exact (s := 1767198600000) (fun _ _ => rfl) (by decide) hwork
  exact hsum.trans (by decide)

end RxVision
