import Mathlib.Data.Fintype.Basic
import RxVision.Records.BreakTransactions
import RxVision.Records.Reviews
import RxVision.Reports.MonthLock
import RxVision.Reports.MonthRows
import RxVision.Reports.MonthTotals
import RxVision.Reports.WeekPattern
import RxVision.Worktime.DayData

/-!
# What the report of a month is built from (`reports.service.ts`, `day-data.service.ts`)

`buildMonth` reads the month of an organisation's people in eleven parts (`MonthPart`), each with a
query of its own: who worked, the rows dated in the month, presence, the activity samples' coverage
and hours, what is pending, and the calendar. Coverage, hours and the calendar come from the
process's memory where it has them (`ReportCaches`). `MonthRows` are the rows the answers are made
of, and `MonthAnswers.report` is the snapshot that `lockMonth` stores, built of nothing but the
answers, the settings and the time.
-/

namespace RxVision

open Reports

/-! ## The store -/

/-- A row of `focus_adjustments`. -/
structure FocusAdjustment where
  id : ℕ
  date : DateKey
  deltaSec : ℤ
  voidedAt : Option ℤ := none
  deriving DecidableEq, Repr

/-- A row of `calendar_days`, under its organisation and date. -/
structure DayOverride where
  isWorking : Bool
  label : Option String
  deriving DecidableEq, Repr

/-- `OrgCalendar`: the dates that are overridden, and the week patterns. -/
structure OrgCalendar where
  overrides : DateKey → Option DayOverride
  patterns : PatternHistory

/-- The rows of one person. -/
structure PersonRows where
  world : World
  overruns : ℕ → Overrun
  /-- `break_records.duration_min`, which a record keeps. -/
  durationMin : ℕ → Option ℤ
  adjustments : Table FocusAdjustment.id
  samples : Samples

/-- What a process has in memory, where it would be used now: the calendars that `forOrg` keeps, the
coverage of a person's sessions that `coverageOf` keeps, and the hour buckets of a person's days
that `bucketHours` keeps. -/
structure ReportCaches where
  calendar : ℕ → Option OrgCalendar
  coverage : ℕ → ℕ → Option (List CoverageRow)
  hours : ℕ → DateKey → Option Hours

/-- A process that has just started has nothing in memory. -/
def ReportCaches.empty : ReportCaches := ⟨fun _ => none, fun _ _ => none, fun _ _ => none⟩

/-- Everybody's rows, every organisation's calendar, and what the processes have in memory. -/
structure MonthStore where
  users : List ℕ
  companyOf : ℕ → Option ℕ
  active : ℕ → Bool
  person : ℕ → PersonRows
  days : ℕ → DateKey → Option DayOverride
  patterns : ℕ → PatternHistory
  caches : ℕ → ReportCaches

/-! ## The rows of a month -/

/-- A break with its sessions and segments and the columns of `break_records`
kept beside the tables. -/
structure MonthBreak where
  view : BreakView
  overrun : Overrun
  durationMin : Option ℤ
  deriving DecidableEq

/-- What is read of one person: the rows that decide a month, in the order they were created, the
coverage of its REPLAY sessions and the active seconds of its days by hour. -/
@[ext] structure PersonMonth where
  sessions : List WorkSession := []
  breaks : List MonthBreak := []
  meetings : List MeetingRecord := []
  away : List AwayEvent := []
  adjustments : List FocusAdjustment := []
  presence : List PresenceSession := []
  coverage : ℕ → List CoverageRow := fun _ => []
  hours : DateKey → Hours := fun _ => []

/-- What the report of a month is built from: the people, their rows, and the
calendar of the month. -/
@[ext] structure MonthRows where
  people : List ℕ
  person : ℕ → PersonMonth
  calendar : DateKey → Option DayOverride × List ℤ

/-- The presence session overlaps the sessions of the days `days`: what `DayDataSet.day` can keep of
the answer to `presenceOverlapping`. -/
def Db.overlapsDays (days : DateKey → Prop) [DecidablePred days] (db : Db)
    (p : PresenceSession) : Bool :=
  let sessions := db.workSessions.rows.filter fun s => days s.date
  (sessions.any fun s => s.endedAt.all fun e => p.startedAt < e) &&
    sessions.any fun s => p.endedAt.all fun e => s.startedAt < e

/-- Such a presence session decides the days. -/
theorem Db.overlapsDays_iff {days : DateKey → Prop} [DecidablePred days] {db : Db}
    {p : PresenceSession} : db.overlapsDays days p = true ↔ db.RunsPast days p.startedAt ∧
      ∃ s ∈ db.workSessions, days s.date ∧ ∀ e, p.endedAt = some e → s.startedAt < e := by
  simp [overlapsDays, RunsPast, Option.all_eq_true, Table.mem_rows]

/-- The REPLAY session `id` among `sessions`. -/
def replayed (sessions : List WorkSession) (id : ℕ) : Option WorkSession :=
  sessions.find? fun s => s.id = id ∧ s.source = .replay

namespace PersonRows

variable (hourOf : ℤ → ℕ) (days : DateKey → Prop) [DecidablePred days] (p : PersonRows)

/-- The work sessions dated on the days. -/
def sessionsOf : List WorkSession := p.world.db.workSessions.rows.filter fun s => days s.date

/-- What is read of a person for the days `days`. -/
def month : PersonMonth where
  sessions := p.sessionsOf days
  breaks := (p.world.db.breakRecords.rows.filter fun r => days r.date).map fun r =>
    ⟨p.world.db.viewOf r, p.overruns r.id, p.durationMin r.id⟩
  meetings := p.world.db.meetings.rows.filter fun m => days m.date
  away := p.world.db.away.rows.filter fun a => days a.date
  adjustments := p.adjustments.rows.filter fun a => days a.date
  presence := p.world.db.presence.rows.filter (p.world.db.overlapsDays days)
  coverage id := ((replayed (p.sessionsOf days) id).map fun s =>
    activityCoverage s.range p.samples).getD []
  hours date := if days date ∧ p.world.db.sessionsOn date ≠ [] then
    activeSecByHour hourOf (p.world.db.sessionsOn date) p.samples else []

end PersonRows

namespace MonthStore

variable (monthOf : DateKey → Month) (hourOf : ℤ → ℕ)

/-- A date of the month of `k`. -/
def InMonth (k : OrgMonth) (d : DateKey) : Prop := monthOf d = k.month

instance (k : OrgMonth) : DecidablePred (InMonth monthOf k) := fun d =>
  inferInstanceAs (Decidable (monthOf d = k.month))

/-- What is read of a person for the month: nothing of somebody who is not in the organisation. -/
def personRows (k : OrgMonth) (c : MonthStore) (u : ℕ) : PersonMonth :=
  if c.companyOf u = some k.companyId then (c.person u).month hourOf (InMonth monthOf k) else {}

/-- The month of a calendar. -/
def calendarRows (k : OrgMonth) (cal : OrgCalendar) (d : DateKey) : Option DayOverride × List ℤ :=
  if InMonth monthOf k d then (cal.overrides d, cal.patterns.patternOn d) else (none, [])

/-- The calendar as it is stored. -/
def storedCalendar (c : MonthStore) (companyId : ℕ) : OrgCalendar :=
  ⟨c.days companyId, c.patterns companyId⟩

/-- `snapshot` of `MonthLockService`: the organisation's people who are active or worked in
the month. -/
def peopleOf (k : OrgMonth) (c : MonthStore) : List ℕ :=
  c.users.filter fun u => c.companyOf u = some k.companyId ∧
    (c.active u ∨ (c.person u).sessionsOf (InMonth monthOf k) ≠ [])

/-- The rows that decide the month `k`. -/
def rowsOf (k : OrgMonth) (c : MonthStore) : MonthRows where
  people := c.peopleOf monthOf k
  person := c.personRows monthOf hourOf k
  calendar := calendarRows monthOf k (c.storedCalendar k.companyId)

end MonthStore

/-! ## The queries -/

/-- What `buildMonth` reads, one part after another. -/
inductive MonthPart
  | people | sessions | breaks | meetings | away | adjustments | presence | coverage
    | hours | pending
  | calendar
  deriving DecidableEq

instance : Fintype MonthPart where
  elems :=
    {.people, .sessions, .breaks, .meetings, .away, .adjustments, .presence, .coverage, .hours,
    .pending, .calendar}
  complete part := by cases part <;> decide

/-- What a query answers, by person where it is asked of several. -/
def MonthPart.Answer : MonthPart → Type
  | .people => List ℕ
  | .sessions => ℕ → List WorkSession
  | .breaks => ℕ → List MonthBreak
  | .meetings => ℕ → List MeetingRecord
  | .away => ℕ → List AwayEvent
  | .adjustments => ℕ → List FocusAdjustment
  | .presence => ℕ → List PresenceSession
  | .coverage => ℕ → ℕ → List CoverageRow
  | .hours => ℕ → DateKey → Hours
  | .pending => ℕ → DateKey → ℕ
  | .calendar => DateKey → Option DayOverride × List ℤ

/-- `ORDER BY`, rows with the same value in the order they were created. -/
def orderBy {ρ : Type*} (f : ρ → ℤ) (rows : List ρ) :
    List ρ := rows.insertionSort fun a b => f a ≤ f b

/-- `pendingByUserDate`, of one person. -/
def PersonMonth.pending (p : PersonMonth) (date : DateKey) : ℕ :=
  p.breaks.countP (fun r => r.view.record.approvalStatus = .pending ∧ r.view.record.date = date) +
  p.meetings.countP (fun m => m.approvalStatus = .pending ∧ m.date = date) +
  p.away.countP fun a => a.status = .pending ∧ a.date = date

/-- What the queries answer when the rows of the month are these: `listForUsersBetween` of
the sessions, breaks, meetings (`NOT_DISCARDED`) and adjustments, `listForUsers` of away
time, and the others. -/
def MonthRows.answer (r : MonthRows) : (part : MonthPart) → part.Answer
  | .people => r.people
  | .sessions => fun u => orderBy WorkSession.startedAt (r.person u).sessions
  | .breaks => fun u => orderBy (fun b => b.view.record.date.day)
      (orderBy (fun b => b.view.record.startedAt) (r.person u).breaks)
  | .meetings => fun u => orderBy (fun m => m.date.day) (orderBy MeetingRecord.startedAt
      ((r.person u).meetings.filter fun m => !isDiscardedMeeting m))
  | .away => fun u => orderBy AwayEvent.startedAt (r.person u).away
  | .adjustments => fun u => (r.person u).adjustments.reverse
  | .presence => fun u => orderBy PresenceSession.startedAt (r.person u).presence
  | .coverage => fun u => (r.person u).coverage
  | .hours => fun u => (r.person u).hours
  | .pending => fun u => (r.person u).pending
  | .calendar => r.calendar

namespace MonthStore

variable (monthOf : DateKey → Month) (hourOf : ℤ → ℕ)

/-- The coverage of the month's REPLAY sessions, from memory where the process
has it (`coverageOf`). -/
def coverageOf (caches : ReportCaches) (r : MonthRows) (u id : ℕ) : List CoverageRow :=
  if (replayed (r.person u).sessions id).isSome then
    (caches.coverage u id).getD ((r.person u).coverage id)
  else []

/-- The hours of the month's days with sessions, from memory where the process has
them (`bucketHours`). -/
def bucketHours (caches : ReportCaches) (r : MonthRows) (u : ℕ) (date : DateKey) : Hours :=
  if (r.person u).sessions.any fun s => s.date = date then
    (caches.hours u date).getD ((r.person u).hours date)
  else []

/-- The answer to a query of the process `proc`. -/
def ask (proc : ℕ) (k : OrgMonth) (c : MonthStore) : (part : MonthPart) → part.Answer
  | .coverage => coverageOf (c.caches proc) (c.rowsOf monthOf hourOf k)
  | .hours => bucketHours (c.caches proc) (c.rowsOf monthOf hourOf k)
  | .calendar => calendarRows monthOf k
      (((c.caches proc).calendar k.companyId).getD (c.storedCalendar k.companyId))
  | part => (c.rowsOf monthOf hourOf k).answer part

end MonthStore

/-! ## The report -/

/-- What a report of an organisation is built with and what does not change here: the settings, the
shifts and the clock of the server. -/
structure ReportSettings where
  tz : Zone
  bufferMin : ℚ
  fullDayPct : ℤ
  halfDayPct : ℤ
  lateStartGraceMin : ℤ
  quietHourActiveMin : ℤ
  quietHoursFlag : ℤ
  /-- Of the shift of a person's day: its start, its grace for overruns and the
  target of a working day. -/
  shiftStart : ℕ → DateKey → Option ℤ
  overrunGraceMin : ℕ → DateKey → Option ℤ
  targetSec : ℕ → DateKey → ℤ
  joinedOn : ℕ → Option Units

/-- The local hour of an instant. -/
def ReportSettings.hourOf (settings : ReportSettings) (t : ℤ) :
    ℕ := (zonedParts t settings.tz).hour.toNat

/-- The key of a day. -/
def keyOf (d : DateKey) : Units := Calendar.dateText (Civil.ofDay d.day)

/-- The key of a month, `YYYY-MM`. -/
def Month.key (m : Month) : Units :=
  Calendar.yearText (m.month / 12) ++ 45 :: Calendar.pad2 ((m.month % 12).toNat + 1)

/-- The month of a day. -/
def calendarMonth (d : DateKey) : Month :=
  let date := Civil.ofDay d.day
  ⟨12 * date.year + (date.month - 1)⟩

/-- `PersonDayData`, as far as a report reads it. -/
structure ReportDayData where
  sessions : List WorkSession
  presence : List PresenceSession
  breakRecords : List MonthBreak
  meetingRecords : List MeetingRecord
  away : List AwayEvent
  coverage : List CoverageRow
  adjustments : List FocusAdjustment

namespace MonthBreak

/-- A break record as focus time reads it. -/
def focus (r : MonthBreak) : FocusBreakRecord where
  outcome := r.view.record.outcome
  approvalStatus := r.view.record.approvalStatus
  overrunAsked := r.overrun.overrunAsked
  overrunSec := r.overrun.overrunSec.map Int.cast
  durationMin := r.durationMin.map Int.cast
  kind := r.view.record.kind
  segments := if r.view.record.outcome = .taken then
    r.view.segmentsOf.map fun g => ⟨g.startedAt, g.endedAt⟩ else []

/-- A break record as a day's summary counts it. -/
def day (r : MonthBreak) : DayBreak where
  outcome := r.view.record.outcome
  startedAt := r.view.record.startedAt
  endedAt := r.view.breakEnd
  overrunSec := r.overrun.overrunSec
  durationMin := r.durationMin

end MonthBreak

namespace ReportDayData

variable (d : ReportDayData) (now : ℤ)

/-- `adjustedSecOf`. -/
def adjustedSec :
    ℤ := ((d.adjustments.filter fun a => a.voidedAt = none).map FocusAdjustment.deltaSec).sum

/-- `focusOfDay`, before `computeFocus`. -/
def focusOfDay (bufferMin : ℚ) : FocusInput where
  sessions := d.sessions.map fun s => ⟨⟨s.startedAt, s.endedAt⟩, s.source = .replay⟩
  presence := d.presence.map fun p => ⟨⟨p.startedAt, p.endedAt⟩, p.type⟩
  breakRecords := d.breakRecords.map MonthBreak.focus
  meetingRecords := d.meetingRecords.map fun m =>
    ⟨⟨m.startedAt, m.endedAt⟩, m.mode, m.approvalStatus⟩
  away := d.away.map fun a =>
    ⟨⟨a.startedAt, some (a.endedAt.getD (a.startedAt + a.seconds.getD 0 * 1000))⟩, a.status⟩
  bufferMin
  coverage := d.coverage.map fun c => ⟨c.startedAt, c.endedAt⟩
  adjustedSec := d.adjustedSec
  now

/-- `bucketHourly`, with `intervalsOfDay`. -/
def bucketHourly (settings : ReportSettings) (date : DateKey) (hours : Hours) : List HourActivity :=
  let spans (type : PresenceType → Bool) : List Interval :=
    (d.presence.filter fun p => type p.type).map fun p => span p.startedAt p.endedAt now
  buildHourly
    { dateKey := date
      tz := settings.tz
      work := d.sessions.map fun s => span s.startedAt s.endedAt now
      breaks := spans fun type => type = .brk || type = .lunch
      meetings := spans (fun type => type = .meeting) ++
        (d.meetingRecords.filter fun m => m.mode = .past).map fun m =>
          span m.startedAt m.endedAt now
      activeSecByHour := hours
      quietHourActiveMin := settings.quietHourActiveMin }

end ReportDayData

/-- The answers to all queries. -/
abbrev MonthAnswers := (part : MonthPart) → part.Answer

namespace MonthAnswers

variable (a : MonthAnswers) (settings : ReportSettings) (now : ℤ)

/-- `DayDataSet.day`: the rows of the date, and the presence sessions that
overlap its work sessions. -/
def day (u : ℕ) (date : DateKey) : ReportDayData :=
  let sessions := (a .sessions u).filter fun s => s.date = date
  { sessions
    presence :=
      match (sessions.map WorkSession.startedAt).min?,
        (sessions.map fun s => s.endedAt.getD now).max? with
      | some start, some stop =>
        (a .presence u).filter fun p => p.startedAt < stop ∧ start < p.endedAt.getD now
      | _, _ => []
    breakRecords := (a .breaks u).filter fun r => r.view.record.date = date
    meetingRecords := (a .meetings u).filter fun m => m.date = date
    away := (a .away u).filter fun e => e.date = date
    coverage := sessions.flatMap fun s => a .coverage u s.id
    adjustments := (a .adjustments u).filter fun e => e.date = date }

/-- `isWorkingDay`. -/
def isWorkingDay (date : DateKey) : Bool :=
  match a .calendar date with
  | (some override, _) => override.isWorking
  | (none, days) => days.contains (isoWeekdayOfKey date)

/-- What `summary` is given of a person's day. -/
def dayLoad (u : ℕ) (key : Units) : DayLoad :=
  let date : DateKey := ⟨Calendar.dayOfKey key⟩
  let d := a.day now u date
  { focus := d.focusOfDay now settings.bufferMin
    breakRecords := d.breakRecords.map MonthBreak.day
    hourly := d.bucketHourly now settings date (a .hours u date)
    overrunGraceMin := settings.overrunGraceMin u date
    shiftStart := settings.shiftStart u date
    pending := a .pending u date
    fullDayPct := settings.fullDayPct
    halfDayPct := settings.halfDayPct
    lateStartGraceMin := settings.lateStartGraceMin
    joinedOn := settings.joinedOn u
    isWorkingDay := a.isWorkingDay date
    targetSec := if a.isWorkingDay date then settings.targetSec u date else 0 }

/-- The snapshot of a month at `now`. -/
def report (month : Month) : MonthSnapshot :=
  (buildMonth (a.dayLoad settings now) settings.quietHoursFlag (a .people) month.key .all now
    (keyOf (dateKeyInZone now settings.tz)) true).snapshot now

end MonthAnswers

end RxVision
