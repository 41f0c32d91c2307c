import RxVision.Activity.Samples

/-!
# A day's activity (`ActivityMapper.computeDaily`, `fillLockedGaps`)

The roll-up of a day's samples: each sample's seconds are split into active and idle, the lead-in of
an idle stretch is moved to the idle column (`backfillIdleGrace`), and a hole after a locked sample
is put back as idle time. Where no sample's duration reaches past the next sample, the seconds of a
day never exceed the time from its first sample to its last and that last sample's own duration
(`computeDaily_total_le`).
-/

namespace RxVision

/-- How long the agent waits without input before it flags a sample idle. -/
def IDLE_THRESHOLD_SEC : ℤ := 300

/-- Longest unreported stretch that may be credited as idle. -/
def LOCK_GAP_FILL_CAP_SEC : ℤ := 4 * 60 * 60

/-- How many entries the top lists return. -/
def TOP_N : ℕ := 50

structure HourBucket where
  hour : ℕ
  activeSec : ℤ
  idleSec : ℤ
  deriving DecidableEq

structure UsageEntry where
  name : String
  seconds : ℤ
  deriving DecidableEq

structure MeetingWindow where
  start : ℤ
  stop : Option ℤ
  deriving DecidableEq

/-- One sample's contribution to a day. -/
structure DaySlice where
  hour : ℕ
  activeSec : ℤ
  idleSec : ℤ
  flaggedIdle : Bool
  locked : Bool
  inMeeting : Bool
  app : Option String
  url : Option String
  deriving DecidableEq

/-- Idle seconds recovered from one unreported stretch, and the hour they fall in. -/
structure FilledIdle where
  hour : ℕ
  idleSec : ℤ
  deriving DecidableEq

structure DailyActivityView where
  date : DateKey
  activeSec : ℤ
  idleSec : ℤ
  workingBasisSec : ℤ
  extraSec : ℤ
  remainingSec : ℤ
  clockedOut : Bool
  dayEnded : Bool
  loginAt : Option ℤ
  clockInAt : Option ℤ
  clockOutAt : Option ℤ
  topApps : List UsageEntry
  topWebsites : List UsageEntry
  hourly : List HourBucket

/-! ## The slices of a day -/

/-- The instant a day's live figures are measured against. -/
def asOf (now : ℤ) (endedAt : Option ℤ) : ℤ :=
  match endedAt with
  | some e => if e < now then e else now
  | none => now

/-- Effective foreground seconds for a sample; the newest open one counts live, but only today. -/
def durationOf (s : Sample) (isLatest dayIsToday : Bool) (now : ℤ) : ℤ :=
  if 0 < s.durationSec then clamp s.durationSec 0 MAX_GAP_SEC
  else if isLatest && dayIsToday then clamp (elapsedSeconds s.takenAt now) 0 MAX_GAP_SEC
  else 0

/-- Whether a sample landed inside one of the day's meetings, each of which covers `[start, end)`;
one that never ended counts on today only. -/
def isInMeeting (t : ℤ) (meetings : List MeetingWindow) (dayIsToday : Bool) (now : ℤ) : Bool :=
  meetings.any fun m => m.start ≤ t &&
    match m.stop with
    | some stop => t < stop
    | none => dayIsToday && t ≤ now

/-- `isLockedSample`. -/
def isLockedSample (s : Sample) : Bool := s.locked || s.app == some LOCK_SCREEN_APP

section Slices

variable (clock : HostClock) (meetings : List MeetingWindow) (dayIsToday : Bool) (now : ℤ)

/-- The slice of a sample; none for one that lasted no time. -/
def sliceOf (s : Sample) (isLatest : Bool) : Option DaySlice :=
  let dur := durationOf s isLatest dayIsToday now
  if dur ≤ 0 then none
  else
    let inMeeting := isInMeeting s.takenAt meetings dayIsToday now
    let locked := isLockedSample s
    let countIdle := (s.idle || locked) && !inMeeting
    some {
      hour := clock.getHours s.takenAt
      activeSec := if countIdle then 0 else dur
      idleSec := if countIdle then dur else 0
      flaggedIdle := countIdle
      locked
      inMeeting
      app := s.app
      url := s.url }

/-- The slices of a day's samples. -/
def slicesOf : List Sample → List DaySlice
  | [] => []
  | s :: rest => (sliceOf clock meetings dayIsToday now s rest.isEmpty).toList ++ slicesOf rest

end Slices

/-- The seconds of a slice. -/
def DaySlice.sec (s : DaySlice) : ℤ := s.activeSec + s.idleSec

/-- The walk back over the slices before an idle stretch (the nearest first), which moves up to
`budget` active seconds to the idle column and stops at an earlier idle stretch or a meeting. -/
def reclassify : ℤ → List DaySlice → List DaySlice
  | _, [] => []
  | budget, prev :: earlier =>
    if budget ≤ 0 || prev.flaggedIdle || prev.inMeeting || prev.activeSec ≤ 0 then prev :: earlier
    else
      let moved := min prev.activeSec budget
      { prev with activeSec := prev.activeSec - moved, idleSec := prev.idleSec + moved } ::
        reclassify (budget - moved) earlier

/-- `backfillIdleGrace` on the slices `earlier` already seen (the nearest first) and those to come.
Only the first slice of an idle stretch carries a lead-in, and a locked one carries none. -/
def backfillIdleGrace : List DaySlice → List DaySlice → List DaySlice
  | earlier, [] => earlier.reverse
  | earlier, s :: later =>
    if s.flaggedIdle && !(earlier.head?.any DaySlice.flaggedIdle) && !s.locked then
      backfillIdleGrace (s :: reclassify IDLE_THRESHOLD_SEC earlier) later
    else backfillIdleGrace (s :: earlier) later

/-! ## Holes after a locked sample -/

/-- The end of the part of `[cursor, stop)` that lies in the hour of `cursor`. -/
def hourEnd (clock : HostClock) (cursor stop : ℤ) : ℤ :=
  if clock.nextHour cursor < stop then clock.nextHour cursor else stop

/-- The idle time from `cursor` to `stop`, split across the hours it spans (`byHour`). -/
def byHour (clock : HostClock) (cursor stop : ℤ) : List FilledIdle :=
  if cursor < stop then
    let idleSec := elapsedSeconds cursor (hourEnd clock cursor stop)
    (if 0 < idleSec then [⟨clock.getHours cursor, idleSec⟩] else []) ++
      byHour clock (hourEnd clock cursor stop) stop
  else []
termination_by if cursor < stop then (stop - clock.reading cursor + 86400000).toNat + 1 else 0
decreasing_by
  -- the wall clock shows a later time every round, and no instant is a day away from what it shows
  have hlater := clock.reading_lt_nextHour cursor
  have hoffset := clock.offset_lt cursor
  unfold hourEnd HostClock.reading at *
  grind

/-- The idle time of the hole between two consecutive samples. -/
def fillGap (clock : HostClock) (prev next : Sample) : List FilledIdle :=
  let gapSec := elapsedSeconds prev.takenAt next.takenAt
  let credited := min (max 0 prev.durationSec) MAX_GAP_SEC
  if gapSec ≤ MAX_GAP_SEC || !isLockedSample prev || LOCK_GAP_FILL_CAP_SEC < gapSec ||
      gapSec - credited ≤ 0 then []
  else byHour clock (prev.takenAt + credited * 1000) next.takenAt

/-- `fillLockedGaps`. -/
def fillLockedGaps (clock : HostClock) : List Sample → List FilledIdle
  | [] => []
  | [_] => []
  | prev :: next :: rest => fillGap clock prev next ++ fillLockedGaps clock (next :: rest)

/-! ## The totals -/

/-- The totals while the day is rolled up. -/
structure DayTotals where
  activeSec : ℤ := 0
  idleSec : ℤ := 0
  hourly : List HourBucket := (List.range 24).map fun hour => ⟨hour, 0, 0⟩
  apps : List UsageEntry := []
  sites : List UsageEntry := []

/-- `map.set(name, (map.get(name) ?? 0) + seconds)`. -/
def addUsage (m : List UsageEntry) (name : String) (seconds : ℤ) : List UsageEntry :=
  if m.any fun e => e.name = name then
    m.map fun e => if e.name = name then { e with seconds := e.seconds + seconds } else e
  else m ++ [⟨name, seconds⟩]

/-- `appDisplayName`: the name shown for an app. -/
def appDisplayName (app : String) : String :=
  if (trim app).toLower = "timechampagent" then "RX Vision Agent" else app

/-- `top`: the entries with the most seconds first. -/
def top (m : List UsageEntry) : List UsageEntry :=
  (m.insertionSort fun a b => b.seconds ≤ a.seconds).take TOP_N

namespace DayTotals

/-- The idle seconds of a filled hole. -/
def addFilled (t : DayTotals) (f : FilledIdle) : DayTotals :=
  { t with
    idleSec := t.idleSec + f.idleSec
    hourly := t.hourly.modify f.hour fun b => { b with idleSec := b.idleSec + f.idleSec } }

/-- The idle seconds of a slice. -/
def addIdle (t : DayTotals) (s : DaySlice) : DayTotals :=
  if 0 < s.idleSec then
    { t with
      idleSec := t.idleSec + s.idleSec
      hourly := t.hourly.modify s.hour fun b => { b with idleSec := b.idleSec + s.idleSec } }
  else t

/-- The active seconds of a slice; apps and sites follow these only. -/
def addActive (t : DayTotals) (s : DaySlice) : DayTotals :=
  if 0 < s.activeSec then
    { t with
      activeSec := t.activeSec + s.activeSec
      hourly := t.hourly.modify s.hour fun b => { b with activeSec := b.activeSec + s.activeSec }
      apps := match s.app.filter (· ≠ "") with
        | some app => addUsage t.apps (appDisplayName app) s.activeSec
        | none => t.apps
      sites := match s.url.filter (· ≠ "") with
        | some url => addUsage t.sites url s.activeSec
        | none => t.sites }
  else t

/-- The seconds counted so far. -/
def total (t : DayTotals) : ℤ := t.activeSec + t.idleSec

end DayTotals

/-- `ActivityMapper.computeDaily`. -/
def computeDaily (clock : HostClock) (samples : List Sample) (date : DateKey)
    (workingBasisSec now : ℤ)
    (endedAt : Option ℤ) (meetings : List MeetingWindow) (loginAt : Option ℤ) : DailyActivityView :=
  let dayIsToday := decide (date = clock.localDateString now)
  let slices := backfillIdleGrace [] (slicesOf clock meetings dayIsToday (asOf now endedAt) samples)
  let filled := (fillLockedGaps clock samples).foldl DayTotals.addFilled {}
  let t := slices.foldl (fun t s => (t.addIdle s).addActive s) filled
  { date
    activeSec := t.activeSec
    idleSec := t.idleSec
    workingBasisSec
    extraSec := max 0 (t.activeSec - workingBasisSec)
    remainingSec := max 0 (workingBasisSec - t.activeSec)
    clockedOut := decide (workingBasisSec ≤ t.activeSec)
    dayEnded := endedAt.isSome
    loginAt
    clockInAt := samples.head?.map Sample.takenAt
    clockOutAt := endedAt.or (samples.getLast?.map Sample.takenAt)
    topApps := top t.apps
    topWebsites := top t.sites
    hourly := t.hourly }

/-! ## Nothing is invented -/

/-- A slice with no negative seconds. -/
def DaySlice.Nonneg (s : DaySlice) : Prop := 0 ≤ s.activeSec ∧ 0 ≤ s.idleSec

section Backfill

variable {l earlier later : List DaySlice} {budget : ℤ}

/-- The walk back moves seconds between the columns of a slice, and no slice becomes
longer or shorter. -/
theorem reclassify_sec : (reclassify budget l).map DaySlice.sec = l.map DaySlice.sec := by
  induction l generalizing budget with
  | nil => rfl
  | cons prev earlier ih =>
    rw [reclassify]
    split
    · rfl
    · rw [List.map_cons, List.map_cons, ih]
      simp only [DaySlice.sec]
      congr 1
      omega

/-- The walk back makes no slice negative: it moves at most what a slice has. -/
theorem reclassify_nonneg (h : ∀ s ∈ l, s.Nonneg) : ∀ s ∈ reclassify budget l, s.Nonneg := by
  induction l generalizing budget with
  | nil => exact h
  | cons prev earlier ih =>
    obtain ⟨hprev, hearlier⟩ := List.forall_mem_cons.1 h
    rw [reclassify]
    split
    · exact h
    · rename_i hgo
      simp only [Bool.or_eq_true, decide_eq_true_eq, not_or, not_le] at hgo
      obtain ⟨⟨⟨hbudget, -⟩, -⟩, hactive⟩ := hgo
      obtain ⟨-, hidle⟩ := hprev
      refine List.forall_mem_cons.2 ⟨⟨?_, ?_⟩, ih hearlier⟩
      · show 0 ≤ prev.activeSec - min prev.activeSec budget
        omega
      · show 0 ≤ prev.idleSec + min prev.activeSec budget
        omega

/-- Moving seconds to the idle column leaves the length of every slice, in the order of the day. -/
theorem backfillIdleGrace_sec :
    (backfillIdleGrace earlier later).map DaySlice.sec =
      earlier.reverse.map DaySlice.sec ++ later.map DaySlice.sec := by
  induction later generalizing earlier with
  | nil => simp [backfillIdleGrace]
  | cons s later ih =>
    rw [backfillIdleGrace]
    split
    · rw [ih]
      simp [reclassify_sec]
    · rw [ih]
      simp

/-- Moving seconds to the idle column makes no slice negative. -/
theorem backfillIdleGrace_nonneg (he : ∀ s ∈ earlier, s.Nonneg) (hl : ∀ s ∈ later, s.Nonneg) :
    ∀ s ∈ backfillIdleGrace earlier later, s.Nonneg := by
  induction later generalizing earlier with
  | nil =>
    intro s hs
    exact he s (List.mem_reverse.1 hs)
  | cons s later ih =>
    obtain ⟨hs, hlater⟩ := List.forall_mem_cons.1 hl
    rw [backfillIdleGrace]
    split
    · exact ih (List.forall_mem_cons.2 ⟨hs, reclassify_nonneg he⟩) hlater
    · exact ih (List.forall_mem_cons.2 ⟨hs, he⟩) hlater

/-- Where only locked samples count as idle, no lead-in is moved: a locked slice takes none. -/
theorem backfillIdleGrace_of_locked (h : ∀ s ∈ later, s.flaggedIdle = true → s.locked = true) :
    backfillIdleGrace earlier later = earlier.reverse ++ later := by
  induction later generalizing earlier with
  | nil => simp [backfillIdleGrace]
  | cons s later ih =>
    obtain ⟨hs, hlater⟩ := List.forall_mem_cons.1 h
    rw [backfillIdleGrace, if_neg]
    · rw [ih hlater]
      simp
    · intro hgo
      simp only [Bool.and_eq_true, Bool.not_eq_true'] at hgo
      rw [hs hgo.1.1] at hgo
      cases hgo.2

end Backfill

section Slices

variable {clock : HostClock} {meetings : List MeetingWindow} {dayIsToday : Bool} {now : ℤ}
  {s : Sample} {isLatest : Bool} {slice : DaySlice} {samples : List Sample}

/-- No sample counts for less than nothing. -/
theorem durationOf_nonneg : 0 ≤ durationOf s isLatest dayIsToday now := by
  unfold durationOf clamp MAX_GAP_SEC
  split
  · omega
  · split <;> omega

/-- On a past day a sample counts for what was stamped on it. -/
theorem durationOf_past (h0 : 0 ≤ s.durationSec) (h150 : s.durationSec ≤ MAX_GAP_SEC) :
    durationOf s isLatest false now = s.durationSec := by
  simp only [durationOf, Bool.and_false, Bool.false_eq_true, if_false]
  unfold clamp
  split <;> omega

/-- A slice holds the seconds that its sample lasted; a sample without a duration has no slice. -/
theorem sum_sliceOf {f : DaySlice → ℤ} {x : ℤ}
    (hf : 0 < durationOf s isLatest dayIsToday now →
      ∀ slice ∈ sliceOf clock meetings dayIsToday now s isLatest, f slice = x)
    (h0 : durationOf s isLatest dayIsToday now ≤ 0 → x = 0) :
    ((sliceOf clock meetings dayIsToday now s isLatest).toList.map f).sum = x := by
  by_cases hd : durationOf s isLatest dayIsToday now ≤ 0
  · simp [sliceOf, hd, h0 hd]
  · obtain ⟨slice, hs⟩ : ∃ slice, sliceOf clock meetings dayIsToday now s isLatest = some slice :=
      ⟨_, if_neg hd⟩
    rw [hs, Option.toList_some, List.map_singleton, List.sum_singleton]
    exact hf (not_le.1 hd) slice hs

/-- The slice of a sample with all its fields, when it has one. -/
theorem sliceOf_eq_some (h : sliceOf clock meetings dayIsToday now s isLatest = some slice) :
    let dur := durationOf s isLatest dayIsToday now
    let countIdle := (s.idle || isLockedSample s) && !isInMeeting s.takenAt meetings dayIsToday now
    0 < dur ∧ slice.activeSec = (if countIdle then 0 else dur) ∧
      slice.idleSec = (if countIdle then dur else 0) ∧ slice.flaggedIdle = countIdle ∧
      slice.locked = isLockedSample s := by
  have hd : ¬ durationOf s isLatest dayIsToday now ≤ 0 := by
    intro hd
    rw [sliceOf, if_pos hd] at h
    cases h
  rw [sliceOf, if_neg hd] at h
  obtain rfl := Option.some.inj h
  exact ⟨not_le.1 hd, rfl, rfl, rfl, rfl⟩

/-- The slice of a sample is as long as the sample, and there is none for nothing. -/
theorem sum_sec_sliceOf :
    ((sliceOf clock meetings dayIsToday now s isLatest).toList.map DaySlice.sec).sum =
      durationOf s isLatest dayIsToday now := by
  refine sum_sliceOf (fun _ slice hs => ?_) fun h => ?_
  · obtain ⟨-, ha, hi, -⟩ := sliceOf_eq_some hs
    rw [DaySlice.sec, ha, hi]
    split <;> simp
  · exact le_antisymm h durationOf_nonneg

/-- A sum over the slices of a day is one over its samples. -/
theorem sum_slicesOf {f : DaySlice → ℤ} {g : Sample → ℤ}
    (h : ∀ s ∈ samples, ∀ isLatest,
      ((sliceOf clock meetings dayIsToday now s isLatest).toList.map f).sum = g s) :
    ((slicesOf clock meetings dayIsToday now samples).map f).sum = (samples.map g).sum := by
  induction samples with
  | nil => rfl
  | cons s rest ih =>
    obtain ⟨hs, hrest⟩ := List.forall_mem_cons.1 h
    rw [slicesOf, List.map_append, List.sum_append, hs, ih hrest, List.map_cons, List.sum_cons]

/-- What holds of the slice of every sample holds of every slice of the day. -/
theorem forall_mem_slicesOf {P : DaySlice → Prop}
    (h : ∀ s ∈ samples, ∀ isLatest,
      ∀ slice ∈ sliceOf clock meetings dayIsToday now s isLatest, P slice) :
    ∀ slice ∈ slicesOf clock meetings dayIsToday now samples, P slice := by
  induction samples with
  | nil => intro slice hs; cases hs
  | cons s rest ih =>
    obtain ⟨hhead, hrest⟩ := List.forall_mem_cons.1 h
    intro slice hs
    rcases List.mem_append.1 hs with hs | hs
    · exact hhead _ slice (Option.mem_toList.1 hs)
    · exact ih hrest slice hs

/-- No slice of a day is negative. -/
theorem slicesOf_nonneg : ∀ slice ∈ slicesOf clock meetings dayIsToday now samples,
    slice.Nonneg := by
  refine forall_mem_slicesOf fun s _ isLatest slice hs => ?_
  obtain ⟨hd, ha, hi, -⟩ := sliceOf_eq_some hs
  rw [DaySlice.Nonneg, ha, hi]
  split
  · exact ⟨le_rfl, hd.le⟩
  · exact ⟨hd.le, le_rfl⟩

end Slices

/-! ## Holes -/

section Holes

variable {clock : LocalTime} {cursor stop : ℤ} {prev next : Sample}

/-- The end of an hour lies between the cursor and the stop, on the second. -/
theorem hourEnd_bounds (hs : 1000 ∣ stop) (hle : cursor ≤ stop) :
    1000 ∣ hourEnd clock cursor stop ∧ cursor ≤ hourEnd clock cursor stop ∧
      hourEnd clock cursor stop ≤ stop := by
  have hlt := clock.lt_nextHour cursor
  unfold hourEnd
  split
  · exact ⟨clock.nextHour_whole cursor, hlt.le, by omega⟩
  · exact ⟨hs, hle, le_rfl⟩

/-- The time recovered from a hole, by hours, is no more than the hole. By induction on the
cursor of the loop. -/
theorem sum_byHour_le (hc : 1000 ∣ cursor) (hs : 1000 ∣ stop) (hle : cursor ≤ stop) :
    ((byHour clock cursor stop).map FilledIdle.idleSec).sum * 1000 ≤ stop - cursor := by
  induction cursor using byHour.induct clock stop with
  | case1 cursor hlt ih =>
    obtain ⟨hwhole, hcs, hss⟩ : 1000 ∣ hourEnd clock cursor stop ∧ _ := hourEnd_bounds hs hle
    have hsec := elapsedSeconds_of_dvd (Int.dvd_sub hwhole hc) hcs
    have hrest := ih hwhole hss
    have hhour : ((if 0 < elapsedSeconds cursor (hourEnd clock cursor stop) then
        [(⟨clock.getHours cursor, elapsedSeconds cursor (hourEnd clock cursor stop)⟩ : FilledIdle)]
          else []).map FilledIdle.idleSec).sum =
        elapsedSeconds cursor (hourEnd clock cursor stop) := by
      have := elapsedSeconds_nonneg cursor (hourEnd clock cursor stop)
      split
      · simp
      · simp only [List.map_nil, List.sum_nil]
        omega
    rw [byHour, if_pos hlt, List.map_append, List.sum_append, hhour]
    omega
  | case2 cursor hge =>
    rw [byHour, if_neg hge]
    simpa using hle

/-- A sample's duration and the time recovered after it fit before the next sample, so nothing
is counted twice. -/
theorem duration_add_fillGap_le (hp : 1000 ∣ prev.takenAt) (hn : 1000 ∣ next.takenAt)
    (h150 : prev.durationSec ≤ MAX_GAP_SEC) (h0 : 0 ≤ prev.durationSec)
    (hfit : prev.durationSec * 1000 ≤ next.takenAt - prev.takenAt) :
    (prev.durationSec + ((fillGap clock prev next).map FilledIdle.idleSec).sum) * 1000 ≤
      next.takenAt - prev.takenAt := by
  have hcredited : min (max 0 prev.durationSec) MAX_GAP_SEC = prev.durationSec := by omega
  rw [fillGap, hcredited]
  split
  · simpa using hfit
  · have hfrom : 1000 ∣ prev.takenAt + prev.durationSec * 1000 := by omega
    have hle : prev.takenAt + prev.durationSec * 1000 ≤ next.takenAt := by omega
    have hfill : ((byHour clock (prev.takenAt + prev.durationSec * 1000) next.takenAt).map
        FilledIdle.idleSec).sum * 1000 ≤ next.takenAt - (prev.takenAt + prev.durationSec * 1000) :=
      sum_byHour_le hfrom hn hle
    omega

end Holes

/-! ## The totals -/

namespace DayTotals

variable {t : DayTotals} {slices : List DaySlice} {filled : List FilledIdle}

/-- The holes that are filled add to the total. -/
theorem total_foldl_addFilled :
    (filled.foldl addFilled t).total = t.total + (filled.map FilledIdle.idleSec).sum := by
  induction filled generalizing t with
  | nil => simp
  | cons f filled ih =>
    rw [List.foldl_cons, ih, List.map_cons, List.sum_cons]
    simp only [total, addFilled]
    omega

/-- They add nothing to the active seconds. -/
theorem activeSec_foldl_addFilled : (filled.foldl addFilled t).activeSec = t.activeSec := by
  induction filled generalizing t with
  | nil => rfl
  | cons f filled ih => rw [List.foldl_cons, ih, addFilled]

/-- A slice adds its active seconds. -/
theorem activeSec_addSlice {s : DaySlice} (h : s.Nonneg) :
    ((t.addIdle s).addActive s).activeSec = t.activeSec + s.activeSec := by
  obtain ⟨ha, -⟩ := h
  unfold addIdle addActive
  grind

/-- It adds its idle seconds. -/
theorem idleSec_addSlice {s : DaySlice} (h : s.Nonneg) :
    ((t.addIdle s).addActive s).idleSec = t.idleSec + s.idleSec := by
  obtain ⟨-, hi⟩ := h
  unfold addIdle addActive
  grind

/-- All slices add their active seconds. -/
theorem activeSec_foldl_addSlice (h : ∀ s ∈ slices, s.Nonneg) :
    (slices.foldl (fun t s => (t.addIdle s).addActive s) t).activeSec =
      t.activeSec + (slices.map DaySlice.activeSec).sum := by
  induction slices generalizing t with
  | nil => simp
  | cons s slices ih =>
    obtain ⟨hs, hrest⟩ := List.forall_mem_cons.1 h
    rw [List.foldl_cons, ih hrest, activeSec_addSlice hs, List.map_cons, List.sum_cons]
    omega

/-- All slices add their seconds to the total, active or idle. -/
theorem total_foldl_addSlice (h : ∀ s ∈ slices, s.Nonneg) :
    (slices.foldl (fun t s => (t.addIdle s).addActive s) t).total =
      t.total + (slices.map DaySlice.sec).sum := by
  induction slices generalizing t with
  | nil => simp
  | cons s slices ih =>
    obtain ⟨hs, hrest⟩ := List.forall_mem_cons.1 h
    rw [List.foldl_cons, ih hrest, List.map_cons, List.sum_cons]
    simp only [total, activeSec_addSlice hs, idleSec_addSlice hs, DaySlice.sec]
    omega

end DayTotals

section Totals

variable {clock : LocalTime} {meetings : List MeetingWindow} {date : DateKey} {now basis : ℤ}
  {endedAt loginAt : Option ℤ} {samples : List Sample}

/-- The seconds of a day, active and idle, are those of its slices and those
recovered from its holes. -/
theorem computeDaily_total {host : HostClock} :
    let d := computeDaily host samples date basis now endedAt meetings loginAt
    d.activeSec + d.idleSec =
      ((fillLockedGaps host samples).map FilledIdle.idleSec).sum +
        ((slicesOf host meetings (decide (date = host.localDateString now)) (asOf now endedAt)
          samples).map DaySlice.sec).sum := by
  show DayTotals.total _ = _
  rw [DayTotals.total_foldl_addSlice, DayTotals.total_foldl_addFilled, backfillIdleGrace_sec]
  · show (0 : ℤ) + 0 + _ + _ = _
    simp
  · exact backfillIdleGrace_nonneg (by simp) slicesOf_nonneg

/-- A sample as the store leaves it: on a whole second, and with no more than the longest span. -/
def Sample.Whole (s : Sample) : Prop :=
  1000 ∣ s.takenAt ∧ 0 ≤ s.durationSec ∧ s.durationSec ≤ MAX_GAP_SEC

/-- The sample's duration does not reach past the next sample. -/
def Sample.EndsBefore (s s' : Sample) : Prop := s.durationSec * 1000 ≤ s'.takenAt - s.takenAt

/-- The slices and the recovered holes of a past day lie between its first sample and the end of its
last. -/
theorem sum_day_le {first : Sample} {rest : List Sample} (hwhole : ∀ s ∈ first :: rest, s.Whole)
    (hchain : (first :: rest).IsChain Sample.EndsBefore) :
    (((fillLockedGaps clock (first :: rest)).map FilledIdle.idleSec).sum +
      ((slicesOf clock meetings false now (first :: rest)).map DaySlice.sec).sum) * 1000 ≤
      ((first :: rest).getLast (by simp)).takenAt - first.takenAt +
        ((first :: rest).getLast (by simp)).durationSec * 1000 := by
  induction rest generalizing first with
  | nil =>
    obtain ⟨-, h0, h150⟩ := hwhole first (by simp)
    simp only [fillLockedGaps, slicesOf, List.map_append, List.sum_append, sum_sec_sliceOf,
      durationOf_past h0 h150]
    simp
  | cons next rest ih =>
    obtain ⟨hf, hrest⟩ := List.forall_mem_cons.1 hwhole
    obtain ⟨hfit, htail⟩ := List.isChain_cons_cons.1 hchain
    have hih := ih hrest htail
    have hn := (hrest next (by simp)).1
    have hgap : (first.durationSec + ((fillGap clock first next).map FilledIdle.idleSec).sum)
      * 1000 ≤ next.takenAt - first.takenAt :=
      duration_add_fillGap_le hf.1 hn hf.2.2 hf.2.1 hfit
    rw [fillLockedGaps, slicesOf, List.map_append, List.sum_append, List.map_append,
      List.sum_append, sum_sec_sliceOf, durationOf_past hf.2.1 hf.2.2, List.getLast_cons (by simp)]
    omega

/-- The seconds of a past day never exceed the time from its first sample to its last and the last
sample's own duration. -/
theorem computeDaily_total_le {first last : Sample} (hpast : date ≠ clock.localDateString now)
    (hwhole : ∀ s ∈ samples, s.Whole) (hchain : samples.IsChain Sample.EndsBefore)
    (hfirst : samples.head? = some first) (hlast : samples.getLast? = some last) :
    let d := computeDaily clock samples date basis now endedAt meetings loginAt
    (d.activeSec + d.idleSec) * 1000 ≤
      last.takenAt - first.takenAt + last.durationSec * 1000 := by
  intro d
  obtain ⟨rest, rfl⟩ := List.head?_eq_some_iff.1 hfirst
  rw [List.getLast?_eq_some_getLast (by simp)] at hlast
  rw [computeDaily_total, decide_eq_false hpast, ← Option.some.inj hlast]
  exact sum_day_le hwhole hchain

/-- Where only locked samples count as idle, a past day's active seconds are the
durations of the others. -/
theorem computeDaily_activeSec (hpast : date ≠ clock.localDateString now)
    (hwhole : ∀ s ∈ samples, s.Whole) (hlocked : ∀ s ∈ samples, s.idle = s.locked ∧ s.app = none) :
    (computeDaily clock samples date basis now endedAt [] loginAt).activeSec =
      (samples.map fun s => if s.locked then 0 else s.durationSec).sum := by
  have hactive : ∀ s ∈ samples, ∀ isLatest,
    ∀ slice ∈ sliceOf clock [] false (asOf now endedAt) s isLatest,
      slice.activeSec = (if s.locked then 0 else s.durationSec) ∧
        (slice.flaggedIdle = true → slice.locked = true) := by
    intro s hs isLatest slice hslice
    obtain ⟨-, h0, h150⟩ := hwhole s hs
    obtain ⟨hidle, happ⟩ := hlocked s hs
    obtain ⟨-, ha, -, hflag, hlock⟩ := sliceOf_eq_some hslice
    rw [ha, hflag, hlock, durationOf_past h0 h150]
    simp [isLockedSample, isInMeeting, hidle, happ]
  have hback : backfillIdleGrace [] (slicesOf clock [] false (asOf now endedAt) samples) =
      [] ++ slicesOf clock [] false (asOf now endedAt) samples :=
    backfillIdleGrace_of_locked (forall_mem_slicesOf fun s hs isLatest slice hslice =>
      (hactive s hs isLatest slice hslice).2)
  show DayTotals.activeSec _ = _
  rw [decide_eq_false hpast, hback, List.nil_append, DayTotals.activeSec_foldl_addSlice
    slicesOf_nonneg, DayTotals.activeSec_foldl_addFilled]
  show (0 : ℤ) + _ = _
  rw [Int.zero_add]
  refine sum_slicesOf fun s hs isLatest => sum_sliceOf (fun _ slice hslice => ?_) fun hd => ?_
  · exact (hactive s hs isLatest slice hslice).1
  · obtain ⟨-, h0, h150⟩ := hwhole s hs
    rw [durationOf_past h0 h150] at hd
    split <;> omega

end Totals

end RxVision
