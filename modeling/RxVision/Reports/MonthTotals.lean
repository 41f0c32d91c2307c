import RxVision.Lib.Runs
import RxVision.Records.Meetings
import RxVision.Reports.DateKeys
import RxVision.Worktime.Focus
import RxVision.Worktime.Hourly

/-!
# Month totals (`report-builder.ts`, `reports.service.ts`, `combined-reports.service.ts`)

A month report is a list of days and of numbers summed over them: over a person's days, over a
team's people, over the organisations in view. It is built from live data, or read from the snapshot
of a locked month, which may be older than some of its numbers; and without the activity grant parts
of it are blanked. Whichever way it comes about, every number is that of its days
(`month_reports_add_up`).
-/

namespace RxVision.Reports

open RxVision.Calendar

/-! ## One day -/

/-- `DayClass`. -/
inductive DayClass
  | full | half | absent | off | extra | inProgress | upcoming
  deriving DecidableEq, Repr

/-- `SUM_KEYS`. -/
inductive SumKey
  | focusSec | expectedSec | skipped | autoSkipped | overruns | meetings | approvedPlusSec
  | rejectedMinusSec | pending | quietHours | targetSec | breakSec | meetingSec | paidBreakSec
  | unpaidBreakSec | awayApprovedSec | awayPendingSec | unverifiedSec | paidSec | adjustedSec
  deriving DecidableEq, Repr

/-- The part of `PersonDaySummary` that reports compute with. A day of an older snapshot has no
number under a key that did not exist yet. -/
structure PersonDaySummary where
  date : Units
  workday : Bool
  dayClass : DayClass
  lateStart : Option ℤ
  activeMin : ℤ
  numbers : SumKey → Option ℤ

/-- `d[k] ?? 0`. -/
def PersonDaySummary.get (d : PersonDaySummary) (k : SumKey) : ℤ := (d.numbers k).getD 0

/-- What `overruns` is counted from. -/
structure DayBreak where
  outcome : BreakOutcome
  startedAt : ℤ
  endedAt : Option ℤ
  overrunSec : Option ℤ
  durationMin : Option ℤ
  deriving DecidableEq, Repr

/-- What `ReportsService.summary` reads of a person's day: the rows of the day, the plan of the day
(shift, calendar and allowance) and the settings. -/
structure DayLoad where
  focus : FocusInput
  breakRecords : List DayBreak := []
  hourly : List HourActivity := []
  overrunGraceMin : Option ℤ := none
  shiftStart : Option ℤ := none
  pending : ℤ := 0
  fullDayPct : ℤ := 80
  halfDayPct : ℤ := 40
  lateStartGraceMin : ℤ := 0
  joinedOn : Option Units := none
  isWorkingDay : Bool := true
  targetSec : ℤ := 0

/-- `dayClassOf`. -/
def dayClassOf (date today : Units) (workday : Bool)
    (spanSec focusSec expectedSec fullDayPct halfDayPct : ℤ) :
    DayClass :=
  if today < date then .upcoming
  else if date = today then .inProgress
  else if !workday then if spanSec > 0 then .extra else .off
  else if expectedSec ≤ 0 then if focusSec > 0 then .full else .absent
  else if focusSec * 100 ≥ expectedSec * fullDayPct then .full
  else if focusSec * 100 ≥ expectedSec * halfDayPct then .half
  else .absent

/-- `lateStartOf`. -/
def lateStartOf (firstStart shiftStart : Option ℤ) (graceMin : ℤ) : Option ℤ :=
  match firstStart, shiftStart with
  | some first, some shift =>
    let minutes := (first - shift) / 60000
    if minutes > graceMin then some minutes else none
  | _, _ => none

/-- `overrunSeconds`. -/
def overrunSeconds (durationMin : Option ℤ) (startedAt : ℤ) (endedAt : Option ℤ) (now : ℤ) : ℤ :=
  match durationMin with
  | none => 0
  | some durationMin =>
    if durationMin = 0 then 0
    else max 0 (max 0 (toSec (endedAt.getD now - startedAt)) - durationMin * 60)

/-- The count of `meetingsOfDay`. -/
def meetingsOfDay (input : FocusInput) : ℤ :=
  let work := normalize (input.sessions.map fun s => s.span input.now)
  let presence := ((input.presence.filter fun p => p.type = .meeting).filter fun p =>
    lengthMs [p.span input.now] ≥ MIN_LIVE_MEETING_SEC * 1000).filter fun p =>
      lengthMs (intersect [p.span input.now] work) > 0
  presence.length + (input.meetingRecords.filter fun m => m.mode = .past).length

/-- `quietHoursOf`. -/
def quietHoursOf (hours : List HourActivity) : ℤ := (hours.filter fun h => h.quiet).length

/-- `activeMinOf`. -/
def activeMinOf (hours : List HourActivity) : ℤ := (hours.map fun h => h.activeMin).sum

/-- `beforeJoining`. -/
def beforeJoining (date : Units) (joinedOn : Option Units) (worked : Bool) : Bool :=
  !worked && joinedOn.any fun joinedOn => date < joinedOn

/-- `summarizeDay`, with the day's plan. -/
def summarizeDay (date today : Units) (i : DayLoad) (focus : FocusBreakdown) : PersonDaySummary :=
  let joined := !beforeJoining date i.joinedOn !i.focus.sessions.isEmpty
  let workday := joined && i.isWorkingDay
  let shiftExpected := if workday then i.targetSec else 0
  let graceSec := i.overrunGraceMin.getD 3 * 60
  let taken := i.breakRecords.filter fun r => r.outcome = .taken
  { date
    workday
    dayClass := dayClassOf date today workday focus.spanSec focus.focusSec shiftExpected
      i.fullDayPct i.halfDayPct
    lateStart :=
      if workday then lateStartOf (i.focus.sessions.head?.map fun s => s.startedAt) i.shiftStart
        i.lateStartGraceMin
      else none
    activeMin := activeMinOf i.hourly
    numbers := fun
      | .focusSec => some focus.focusSec
      -- a future working day expects nothing yet
      | .expectedSec => some (if today < date then 0 else shiftExpected)
      | .skipped => some (i.breakRecords.filter fun r => r.outcome = .skipped).length
      | .autoSkipped => some (i.breakRecords.filter fun r => r.outcome = .autoSkipped).length
      | .overruns => some (taken.filter fun r => r.endedAt.isSome &&
          r.overrunSec.getD (overrunSeconds r.durationMin r.startedAt r.endedAt i.focus.now) >
            graceSec).length
      | .meetings => some (meetingsOfDay i.focus)
      | .approvedPlusSec => some focus.approvedPlusSec
      | .rejectedMinusSec => some focus.rejectedMinusSec
      | .pending => some i.pending
      | .quietHours => some (quietHoursOf i.hourly)
      | .targetSec => some shiftExpected
      | .breakSec => some focus.breakSec
      | .meetingSec => some focus.meetingSec
      | .paidBreakSec => some focus.paidBreakSec
      | .unpaidBreakSec => some focus.unpaidBreakSec
      | .awayApprovedSec => some focus.awayApprovedSec
      | .awayPendingSec => some focus.awayPendingSec
      | .unverifiedSec => some focus.unverifiedSec
      | .paidSec => some focus.paidSec
      | .adjustedSec => some focus.adjustedSec }

/-- `ReportsService.summary`. -/
def summary (date today : Units) (i : DayLoad) : PersonDaySummary :=
  summarizeDay date today i (computeFocus i.focus)

/-! ## Totals -/

/-- The keys that `teamTotals` sums. -/
inductive TotalKey
  | workdays | full | half | absent | off | extra | lateStarts
  | sum (k : SumKey)
  deriving DecidableEq, Repr

/-- `MonthTotals`, again without the numbers an older snapshot lacks. -/
structure MonthTotals where
  numbers : TotalKey → Option ℤ
  avgFocusSec : ℤ
  needsALook : Bool

/-- `totals[k] ?? 0`. -/
def MonthTotals.get (t : MonthTotals) (k : TotalKey) : ℤ := (t.numbers k).getD 0

/-- `Math.round(sum / n)`, 0 of nothing. -/
def average (sum n : ℤ) : ℤ := if n = 0 then 0 else mathRound (sum / n)

/-- A working day up to today. -/
def PersonDaySummary.counts (today : Units) (d : PersonDaySummary) :
    Bool := d.workday && !decide (today < d.date)

section

variable (days : List PersonDaySummary) (today : Units)

/-- The focus of the working days up to today. -/
def workdayFocus : ℤ := ((days.filter fun d => d.counts today).map fun d => d.get .focusSec).sum

/-- `monthTotals`. -/
def monthTotals (quietHoursFlag : ℤ) : MonthTotals :=
  let workdays := days.filter fun d => d.counts today
  let by' (c : DayClass) : ℤ := (days.filter fun d => d.dayClass = c).length
  let sums (k : SumKey) : ℤ := (days.map fun d => d.get k).sum
  { numbers := fun
      | .workdays => some workdays.length
      | .full => some (by' .full)
      | .half => some (by' .half)
      | .absent => some (by' .absent)
      | .off => some (by' .off)
      | .extra => some (by' .extra)
      | .lateStarts => some (days.filter fun d => d.lateStart.isSome).length
      | .sum k => some (sums k)
    avgFocusSec := average (workdayFocus days today) workdays.length
    needsALook := sums .quietHours ≥ quietHoursFlag }

end

/-- The totals of a team, and how many people they are of. -/
structure TeamTotals extends MonthTotals where
  people : ℕ

/-- `teamTotals`. -/
def teamTotals (rows : List (MonthTotals × List PersonDaySummary)) (today : Units) : TeamTotals :=
  let sums (k : TotalKey) : ℤ := (rows.map fun r => r.1.get k).sum
  { numbers := fun k => some (sums k)
    avgFocusSec := average (rows.map fun r => workdayFocus r.2 today).sum (sums .workdays)
    needsALook := rows.any fun r => r.1.needsALook
    people := rows.length }

/-! ## Reports -/

/-- `PersonMonthReport`; `π` is what a report says of a person. -/
structure PersonMonthReport (π : Type*) where
  person : π
  month : Units
  locked : Bool
  generatedAt : ℤ
  totals : MonthTotals
  days : List PersonDaySummary
  heatmap : List (Units × List ℤ)

structure TeamMonthRow (π : Type*) where
  person : π
  totals : MonthTotals
  days : List (Units × DayClass × ℤ)

inductive ReportScope
  | team | all
  deriving DecidableEq, Repr

structure TeamMonthReport (π : Type*) where
  month : Units
  scope : ReportScope
  locked : Bool
  generatedAt : ℤ
  totals : TeamTotals
  rows : List (TeamMonthRow π)

/-- `MonthBuild`, `CombinedMonth`. -/
structure MonthBuild (π : Type*) where
  persons : List (PersonMonthReport π)
  team : TeamMonthReport π

/-- A row of the team report. -/
def PersonMonthReport.row {π : Type*} (p : PersonMonthReport π) : TeamMonthRow π where
  person := p.person
  totals := p.totals
  days := p.days.map fun d => (d.date, d.dayClass, d.get .focusSec)

/-- The totals of some people's reports. -/
def totalsOf {π : Type*} (persons : List (PersonMonthReport π)) (today : Units) : TeamTotals :=
  teamTotals (persons.map fun p => (p.totals, p.days)) today

/-- The report of one person in `buildMonth`: `load` has what was loaded of each person and date.
Without the activity grant the days come with no hourly activity. -/
def buildPerson (load : ℕ → Units → DayLoad) (quietHoursFlag : ℤ) (month : Units) (now : ℤ)
    (today : Units) (activity : Bool) (id : ℕ) : PersonMonthReport ℕ :=
  let hourly (date : Units) : List HourActivity :=
    if !decide (today < date) && activity then (load id date).hourly else []
  let days := (monthDates month).map fun date =>
    summary date today { load id date with hourly := hourly date }
  { person := id
    month
    locked := false
    generatedAt := now
    totals := monthTotals days today quietHoursFlag
    days
    heatmap := (monthDates month).map fun date =>
      (date, if (hourly date).isEmpty then List.replicate 24 0 else (hourly date).map
        fun h => h.activeMin) }

/-- `buildMonth` at `now`, `today`. -/
def buildMonth (load : ℕ → Units → DayLoad) (quietHoursFlag : ℤ) (people : List ℕ) (month : Units)
    (scope : ReportScope) (now : ℤ) (today : Units) (activity : Bool) : MonthBuild ℕ :=
  let persons := people.map (buildPerson load quietHoursFlag month now today activity)
  { persons
    team :=
      { month
        scope
        locked := false
        generatedAt := now
        totals := totalsOf persons today
        rows := persons.map fun p => p.row } }

/-- `MonthSnapshot`. -/
structure MonthSnapshot where
  generatedAt : ℤ
  team : TeamMonthReport ℕ
  persons : ℕ → Option (PersonMonthReport ℕ)

/-- `MonthLockService.snapshot`, once the report is built; of two entries with
one id the last stays. -/
def MonthBuild.snapshot (built : MonthBuild ℕ) (now : ℤ) : MonthSnapshot where
  generatedAt := now
  team := { built.team with locked := true }
  persons id := (built.persons.reverse.find? fun p => p.person = id).map fun p =>
    { p with locked := true }

/-- `fill`, of the numbers of a day or of a month. -/
def fill (x : SumKey → Option ℤ) : SumKey → Option ℤ
  | .unverifiedSec => some ((x .unverifiedSec).getD 0)
  | .paidSec => some ((x .paidSec).getD ((x .focusSec).getD 0 + (x .paidBreakSec).getD 0))
  | k => x k

/-- `withPayrollFields`. -/
def withPayrollFields (p : PersonMonthReport ℕ) : PersonMonthReport ℕ :=
  { p with
    totals := { p.totals with numbers := fun
      | .sum k => fill (fun k => p.totals.numbers (.sum k)) k
      | k => p.totals.numbers k }
    days := p.days.map fun d => { d with numbers := fill d.numbers } }

/-- `redactActivity`, of a day. -/
def PersonDaySummary.quiet (d : PersonDaySummary) : PersonDaySummary :=
  { d with
    activeMin := 0
    numbers := Function.update d.numbers .quietHours (some 0) }

/-- `quiet`. -/
def MonthTotals.quiet (t : MonthTotals) : MonthTotals :=
  { t with
    numbers := Function.update t.numbers (.sum .quietHours) (some 0)
    needsALook := false }

/-- `redactActivity`. -/
def redactActivity (p : PersonMonthReport ℕ) (activity : Bool) : PersonMonthReport ℕ :=
  if activity then p
  else { p with
    heatmap := []
    days := p.days.map fun d => d.quiet
    totals := p.totals.quiet }

/-- `ReportsService.fromSnapshot`. -/
def fromSnapshot (dateKey : ℤ → Units) (snapshot : MonthSnapshot) (people : List ℕ)
    (scope : ReportScope) :
    MonthBuild ℕ :=
  let persons := (people.filterMap snapshot.persons).map fun p =>
    withPayrollFields { p with locked := true }
  { persons
    team :=
      { month := snapshot.team.month
        scope
        locked := true
        generatedAt := snapshot.generatedAt
        totals := totalsOf persons (dateKey snapshot.generatedAt)
        rows := persons.map fun p => p.row } }

/-- The end of `teamMonthWithPersons`: quiet hours are activity data. -/
def MonthBuild.redacted (built : MonthBuild ℕ) (activity : Bool) : MonthBuild ℕ :=
  if activity then built
  else
    { persons := built.persons.map fun p => redactActivity p false
      team := { built.team with
        totals := { built.team.totals with toMonthTotals := built.team.totals.toMonthTotals.quiet }
        rows := built.team.rows.map fun r => { r with totals := r.totals.quiet } } }

/-- `withOrg`, of every person. -/
def MonthBuild.withOrg (org : ℕ) (value : MonthBuild ℕ) : MonthBuild (ℕ × ℕ) where
  persons := value.persons.map fun p => { p with person := (p.person, org) }
  team :=
    { value.team with rows := value.team.rows.map fun r => { r with person := (r.person, org) } }

/-- `combineTeamMonth`. -/
def combineTeamMonth (results : List (ℕ × MonthBuild ℕ)) (month today : Units) (now : ℤ) :
    MonthBuild (ℕ × ℕ) :=
  match results with
  | [(org, value)] => value.withOrg org
  | _ =>
    let persons := results.flatMap fun r => (r.2.withOrg r.1).persons
    { persons
      team :=
        { month
          scope := if results.all fun r => r.2.team.scope = .all then .all else .team
          locked := !results.isEmpty && results.all fun r => r.2.team.locked
          generatedAt := now
          totals := totalsOf persons today
          rows := results.flatMap fun r => (r.2.withOrg r.1).team.rows } }

/-! ## Locking months -/

/-- The snapshots in `month_locks`, by organisation and month. -/
structure LockedMonths where
  now : ℤ
  snapshots : ℕ → Units → Option MonthSnapshot

/-- A lock that is refused, because something waits or is open, changes nothing
and is no action here. -/
inductive LockAction
  | tick (now : ℤ)
  | lock (companyId : ℕ) (month : Units) (everyone : List ℕ) (load : ℕ → Units → DayLoad)
    (quietHoursFlag : ℤ)
  | unlock (companyId : ℕ) (month : Units)

/-- What one organisation's report is asked for: the people of the caller's scope there, what is
loaded of them, and the organisation's setting. -/
structure OrgQuery where
  companyId : ℕ
  people : List ℕ
  load : ℕ → Units → DayLoad
  quietHoursFlag : ℤ

namespace LockedMonths

variable (dateKey : ℤ → Units)

/-- The row of an organisation's month. -/
def set (s : LockedMonths) (companyId : ℕ) (month : Units) (snapshot : Option MonthSnapshot) :
    LockedMonths :=
  { s with
    snapshots :=
      Function.update s.snapshots companyId
      (Function.update (s.snapshots companyId) month snapshot) }

def step (s : LockedMonths) : LockAction → Option LockedMonths
  -- the server's date does not go back
  | .tick now => if s.now ≤ now ∧ ¬ dateKey now < dateKey s.now then some { s with now } else none
  | .lock companyId month everyone load quietHoursFlag =>
    if isValidMonth month ∧ month < (dateKey s.now).take 7 then
      match s.snapshots companyId month with
      | some _ => some s
      | none =>
        let built := buildMonth load quietHoursFlag everyone month .all s.now (dateKey s.now) true
        some (s.set companyId month (some (built.snapshot s.now)))
    else none
  | .unlock companyId month =>
    some (s.set companyId month none)

variable (s : LockedMonths) (month : Units) (activity : Bool)

/-- `personMonth`. -/
def personMonth (companyId userId : ℕ) (load : ℕ → Units → DayLoad) (quietHoursFlag : ℤ) :
    PersonMonthReport ℕ :=
  match (s.snapshots companyId month).bind fun snapshot => snapshot.persons userId with
  | some fromSnapshot =>
    redactActivity (withPayrollFields { fromSnapshot with locked := true }) activity
  | none =>
    let built := buildPerson load quietHoursFlag month s.now (dateKey s.now) activity userId
    redactActivity { built with locked := (s.snapshots companyId month).isSome } activity

/-- `ReportsService.teamMonthWithPersons`. -/
def teamMonthWithPersons (scope : ReportScope) (q : OrgQuery) : MonthBuild ℕ :=
  let built := match s.snapshots q.companyId month with
    | some snapshot => fromSnapshot dateKey snapshot q.people scope
    | none => buildMonth q.load q.quietHoursFlag q.people month scope s.now (dateKey s.now) activity
  built.redacted activity

/-- `CombinedReportsService.teamMonthWithPersons`, of the organisations in view. -/
def combinedMonth (scope : ReportScope) (orgs : List OrgQuery) : MonthBuild (ℕ × ℕ) :=
  combineTeamMonth
    (orgs.map fun q => (q.companyId, s.teamMonthWithPersons dateKey month activity scope q)) month
    (dateKey s.now) s.now

end LockedMonths

end RxVision.Reports
