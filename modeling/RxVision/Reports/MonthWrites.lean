import RxVision.Lib.Gate
import RxVision.Reports.MonthStore
import RxVision.Reports.ReviewTouches

/-!
# What is written around a month lock (`prisma-report.store.ts`, `calendar.service.ts`)

The transactions that write rows of a month, as the lock sees them: each asks for the month in its
transaction (decisions, adjustments, and whatever makes a record PENDING), looks at it before the
write without a lock (the calendar and the replay interceptor), or does neither. `lockMonth` counts
what waits, and under its lock has `buildMonth` read the month part by part while other transactions
commit. `Sound` and `Agrees` are the condition under which the month stays: every write that did not
ask for its month lies outside the months locked or being locked, no activity sample of their
sessions is stored or given its duration, and what a process takes from memory for a report is what
the tables say. Who belongs to which organisation, the settings and the shifts do not change here;
`monthOf` is the month of a day key.
-/

namespace RxVision

open Gate Reports

/-! ## The transactions -/

/-- A transaction on somebody's rows or on an organisation's calendar. -/
inductive MonthTx
  | record (userId : ℕ) (a : RecordAction)
  /-- The interceptor puts a reopened day back. -/
  | restore (userId : ℕ) (r : Reopened)
  | review (userId : ℕ) (op : ReviewOp)
  | adjust (monthOpen : DateKey → Bool) (userId : ℕ) (date : DateKey) (deltaSec : ℤ)
  | voidAdjustment (monthOpen : DateKey → Bool) (userId id : ℕ) (now : ℤ)
  | setDay (companyId : ℕ) (date : DateKey) (isWorking : Bool) (label : Option String)
  | clearDay (companyId : ℕ) (date : DateKey)
  | setWeekPattern (companyId : ℕ) (days : List ℤ) (since : DateKey)
  /-- The write of `setWeekPattern`, once it has read the history. -/
  | writePattern (companyId : ℕ) (days : List ℤ) (since : DateKey) (history : PatternHistory)
  /-- A sample is posted: the latest one gets its duration, and the new one is created. -/
  | stampSample (userId : ℕ) (takenAt now : ℤ)
  | createSample (userId : ℕ) (sample : Sample)
  /-- What the process `proc` has in memory changes: read earlier, dropped, or too old. -/
  | remember (proc : ℕ) (caches : ReportCaches)

/-- The days whose month an operation finds open. -/
def RecordOp.month : RecordOp → DateKey → Bool
  | .startScheduled monthOpen _ _ | .startLive monthOpen _ _ _ | .endLive monthOpen _
  | .createPast monthOpen _ _ _ _ _ | .submit monthOpen _ _ _ _ | .unexplained monthOpen _ _ =>
    monthOpen
  | _ => fun _ => false

/-- The operation with `monthOpen` as the days whose month is open. -/
def RecordOp.withMonth (monthOpen : DateKey → Bool) : RecordOp → RecordOp
  | .startScheduled _ record calendarDay => .startScheduled monthOpen record calendarDay
  | .startLive _ approvalStatus generation today =>
    .startLive monthOpen approvalStatus generation today
  | .endLive _ id => .endLive monthOpen id
  | .createPast _ approvalStatus start durationSec generation today =>
    .createPast monthOpen approvalStatus start durationSec generation today
  | .submit _ breakDayOf reasons pending dto => .submit monthOpen breakDayOf reasons pending dto
  | .unexplained _ startedAt endedAt => .unexplained monthOpen startedAt endedAt
  | op => op

/-- The day whose month an operation asks for at `now`: that of what becomes PENDING or is. -/
def RecordOp.asks (db : Db) (now : ℤ) : RecordOp → Option DateKey
  | .startScheduled _ record _ =>
    if record.approvalStatus = .pending then some record.date else none
  | .startLive _ approvalStatus generation today =>
    if approvalStatus = .pending then db.liveDay generation now today else none
  | .endLive _ id =>
    (db.meetings.find? fun m => m.id = id).bind fun m =>
      if m.approvalStatus = .pending then some m.date else none
  | .createPast _ approvalStatus start durationSec _ today =>
    if approvalStatus = .pending then some (db.pastDay start durationSec now today) else none
  | .submit _ _ reasons pending dto =>
    match db.bounds dto.startedAt now dto.reasonKey with
    | .ok ⟨session, _, none⟩ =>
      if pending ∧ reasons dto.reasonKey ≠ some .brk then some session.date else none
    | _ => none
  | _ => none

namespace RecordAction

def month : RecordAction → DateKey → Bool
  | .day _ => fun _ => false
  | .live op | .replay _ op => op.month

def withMonth (monthOpen : DateKey → Bool) : RecordAction → RecordAction
  | .day a => .day a
  | .live op => .live (op.withMonth monthOpen)
  | .replay eventAt op => .replay eventAt (op.withMonth monthOpen)

def asks (w : World) : RecordAction → Option DateKey
  | .day _ => none
  | .live op => op.asks w.db w.clock
  | .replay eventAt op => op.asks w.db eventAt

end RecordAction

namespace ReviewOp

def month : ReviewOp → DateKey → Bool
  | .decideBreak monthOpen _ _ _ | .decideMeeting monthOpen _ _ _ | .decideAway monthOpen _ _ _
  | .finishBreak monthOpen _ _ _ | .addComment monthOpen _ _ | .createSkip monthOpen _ _ _ _
  | .createAutoSkip monthOpen _ | .createForSession monthOpen _ _ => monthOpen

def withMonth (monthOpen : DateKey → Bool) : ReviewOp → ReviewOp
  | .decideBreak _ id expected status => .decideBreak monthOpen id expected status
  | .decideMeeting _ id expected status => .decideMeeting monthOpen id expected status
  | .decideAway _ id expected status => .decideAway monthOpen id expected status
  | .finishBreak _ id overrunSec ask => .finishBreak monthOpen id overrunSec ask
  | .addComment _ id comment => .addComment monthOpen id comment
  | .createSkip _ record generation now today => .createSkip monthOpen record generation now today
  | .createAutoSkip _ record => .createAutoSkip monthOpen record
  | .createForSession _ record presenceSessionId =>
    .createForSession monthOpen record presenceSessionId

/-- The day of a break that is or becomes PENDING. -/
def asksBreak (db : Db) (routed : Bool) (id : ℕ) : Option DateKey :=
  (db.breakRecords.find? fun r => r.id = id).bind fun r =>
    if routed ∨ r.approvalStatus = .pending then some r.date else none

/-- The day of a new record that is PENDING. -/
def asksRecord (record : NewBreakRecord) : Option DateKey :=
  if record.approvalStatus = .pending then some record.date else none

def asks (db : Db) : ReviewOp → Option DateKey
  | .decideBreak _ id _ _ => (db.breakRecords.find? fun r => r.id = id).map BreakRecord.date
  | .decideMeeting _ id _ _ => (db.meetings.find? fun m => m.id = id).map MeetingRecord.date
  | .decideAway _ id _ _ => (db.away.find? fun a => a.id = id).map AwayEvent.date
  | .finishBreak _ id _ ask => asksBreak db (ask.bind OverrunAsk.routing).isSome id
  | .addComment _ id _ => asksBreak db false id
  | .createSkip _ record _ _ _ | .createAutoSkip _ record | .createForSession _ record _ =>
    asksRecord record

end ReviewOp

namespace MonthStore

variable (monthOf : DateKey → Month) (calendarOf : DayKeyFn) (settings : ℕ → ReportSettings)

/-- The month lock that asking for a day takes: of the person's organisation, none without one. -/
def gate (c : MonthStore) (u : ℕ) (asks : Option DateKey) : Option OrgMonth :=
  asks.bind fun date => (c.companyOf u).map fun companyId => ⟨companyId, monthOf date⟩

/-- The days whose month is open for somebody who found the month `k` open. Without an
organisation no month is locked. -/
def opens (c : MonthStore) (u : ℕ) (k : Option OrgMonth) (d : DateKey) : Bool :=
  (c.companyOf u).all fun companyId => k = some ⟨companyId, monthOf d⟩

/-- Somebody's rows change. -/
def setPerson (c : MonthStore) (u : ℕ) (p : PersonRows) : MonthStore :=
  { c with person := Function.update c.person u p }

/-- Somebody's activity samples change. -/
def setSamples (c : MonthStore) (u : ℕ) (samples : Samples) : MonthStore :=
  c.setPerson u { c.person u with samples }

/-- Somebody's tables change. -/
def setDb (c : MonthStore) (u : ℕ) (db : Db) : MonthStore :=
  c.setPerson u { c.person u with world := { (c.person u).world with db } }

/-- The calendar day of an organisation. -/
def setOverride (c : MonthStore) (companyId : ℕ) (date : DateKey) (override : Option DayOverride) :
    MonthStore :=
  { c with
    days := Function.update c.days companyId (Function.update (c.days companyId) date override) }

/-- The week pattern of an organisation. -/
def setPatterns (c : MonthStore) (companyId : ℕ) (history : PatternHistory) : MonthStore :=
  { c with patterns := Function.update c.patterns companyId history }

/-- What a transaction reads. -/
def read (t : MonthTx) (c : MonthStore) : Option (MonthTx × Option OrgMonth) :=
  match t with
  | .record u a =>
    let k := c.gate monthOf u (a.asks (c.person u).world)
    some (.record u (a.withMonth (c.opens monthOf u k)), k)
  | .review u op =>
    let k := c.gate monthOf u (op.asks (c.person u).world.db)
    some (.review u (op.withMonth (c.opens monthOf u k)), k)
  | .adjust _ u date deltaSec =>
    let k := c.gate monthOf u (some date)
    some (.adjust (c.opens monthOf u k) u date deltaSec, k)
  | .voidAdjustment _ u id now =>
    ((c.person u).adjustments.find? fun a => a.id = id ∧ a.voidedAt = none).map fun current =>
      let k := c.gate monthOf u (some current.date)
      (.voidAdjustment (c.opens monthOf u k) u id now, k)
  | .setWeekPattern companyId days since =>
    (checkWeekPattern days).map fun days =>
      (.writePattern companyId days since (c.patterns companyId), none)
  | .writePattern _ _ _ _ => none
  | .restore _ _ | .setDay _ _ _ _ | .clearDay _ _ | .stampSample _ _ _ | .createSample _ _
  | .remember _ _ => some (t, none)

/-- The locked months that refuse a transaction as it reads: of the action's time for a replayed
action, of the day for a calendar day, and from the day on for a week pattern. -/
def looks (t : MonthTx) (c : MonthStore) (key : OrgMonth) : Bool :=
  match t with
  | .record u (.day (.begin eventAt _ _ _)) =>
    c.companyOf u = some key.companyId ∧ monthOf (calendarOf eventAt) = key.month
  | .setDay companyId date _ _ | .clearDay companyId date => key = ⟨companyId, monthOf date⟩
  | .setWeekPattern companyId _ since =>
    key.companyId = companyId ∧ (monthOf since).month ≤ key.month.month
  | _ => false

/-- What a transaction writes. -/
def write (t : MonthTx) (c : MonthStore) : MonthStore :=
  match t with
  | .record u a =>
    match (c.person u).world.stepRecords calendarOf a with
    | some w => c.setPerson u { c.person u with world := w }
    | none => c
  | .restore u r => c.setDb u ((c.person u).world.db.restore r)
  | .review u op =>
    let p := c.person u
    let after := op.run p.world.db p.overruns
    c.setPerson u { p with world := { p.world with db := after.1 }, overruns := after.2 }
  | .adjust monthOpen u date deltaSec =>
    if monthOpen date then
      c.setPerson u { c.person u with
        adjustments := (c.person u).adjustments.create (fun id => { id, date, deltaSec }) fun _ =>
          rfl }
    else c
  | .voidAdjustment monthOpen u id now =>
    c.setPerson u { c.person u with
      adjustments := (c.person u).adjustments.updateMany
        (fun a => a.id = id ∧ a.voidedAt = none ∧ monthOpen a.date)
        (fun a => { a with voidedAt := some now }) fun _ => rfl }
  | .setDay companyId date isWorking label => c.setOverride companyId date (some ⟨isWorking, label⟩)
  | .clearDay companyId date => c.setOverride companyId date none
  | .setWeekPattern _ _ _ => c
  | .writePattern companyId days since history =>
    c.setPatterns companyId (history.withPatternFrom since days)
  | .stampSample u takenAt now => c.setSamples u ((c.person u).samples.closePrevious takenAt now).1
  | .createSample u sample => c.setSamples u ((c.person u).samples.createSample sample)
  | .remember proc caches => { c with caches := Function.update c.caches proc caches }

section Write

variable {calendarOf : DayKeyFn} {c : MonthStore} {u : ℕ} {a : RecordAction} {w : World}

/-- A step of somebody's records that goes through. -/
theorem write_record_of_some (h : (c.person u).world.stepRecords calendarOf a = some w) :
    write calendarOf (.record u a) c = c.setPerson u { c.person u with world := w } := by
  rw [write, h]

/-- One that is refused writes nothing. -/
theorem write_record_of_none (h : (c.person u).world.stepRecords calendarOf a = none) :
    write calendarOf (.record u a) c = c := by
  rw [write, h]

end Write

/-- What `lockMonth` counts of a person: open sessions and PENDING items of the month. -/
def holdsUp (k : OrgMonth) (db : Db) : Bool :=
  (db.workSessions.rows.any fun s => s.endedAt = none ∧ InMonth monthOf k s.date) ||
  (db.breakRecords.rows.any fun r => r.approvalStatus = .pending ∧ InMonth monthOf k r.date) ||
  (db.meetings.rows.any fun m => m.approvalStatus = .pending ∧ InMonth monthOf k m.date) ||
  db.away.rows.any fun a => a.status = .pending ∧ InMonth monthOf k a.date

/-! ## The snapshot -/

/-- A read of `lockMonth` for its snapshot: the time of the request, or a part of the month, with
what the process `proc` has in memory. -/
inductive MonthRead
  | now (t : ℤ)
  | part (proc : ℕ) (part : MonthPart)

/-- A snapshot that is being built: the rows as the lock counted them, and what is read so far. -/
structure MonthBuilding where
  rows : MonthRows
  now : Option ℤ
  answers : (part : MonthPart) → Option part.Answer

/-- The answers, once every part is read. -/
def MonthBuilding.all (g : MonthBuilding) : Option MonthAnswers :=
  if h : ∀ part, (g.answers part).isSome then some fun part =>
    (g.answers part).get (h part) else none

/-- A locked month: its snapshot, and the rows as the lock counted them. -/
structure LockedMonth where
  rows : MonthRows
  snapshot : MonthSnapshot

/-- The rows that decide the month `k`, with the settings of its organisation. -/
def monthRows (k : OrgMonth) (c : MonthStore) : MonthRows :=
  c.rowsOf monthOf (settings k.companyId).hourOf k

/-- The answer to a query, with the settings of the organisation. -/
def answer (proc : ℕ) (k : OrgMonth) (c : MonthStore) : MonthAnswers :=
  c.ask monthOf (settings k.companyId).hourOf proc k

/-- The snapshot of the month `k` that the process `proc` builds at `now`. -/
def rebuild (proc : ℕ) (k : OrgMonth) (now : ℤ) (c : MonthStore) : MonthSnapshot :=
  (answer monthOf settings proc k c).report (settings k.companyId) now k.month

/-- The transactions, and what `lockMonth` asks for, reads and keeps. -/
def spec : Spec MonthStore OrgMonth MonthBuilding LockedMonth MonthRead MonthTx where
  looks := looks monthOf calendarOf
  read := read monthOf
  write := write calendarOf
  ready k c := !c.users.any fun u =>
    c.companyOf u = some k.companyId && holdsUp monthOf k (c.person u).world.db
  blank k c := ⟨monthRows monthOf settings k c, none, fun _ => none⟩
  add
    | .now t, _, _, g => { g with now := some t }
    | .part proc part, k, c, g =>
      { g with
      answers := Function.update g.answers part (some (answer monthOf settings proc k c part)) }
  kept k g := g.now.bind fun now =>
    g.all.map fun a => ⟨g.rows, a.report (settings k.companyId) now k.month⟩

/-! ## The condition -/

/-- What is touched and was not asked for lies outside the months held of the
person's organisation. -/
def Spares (c : MonthStore) (u : ℕ) (T : Touches) (asked : DateKey → Bool)
    (held : OrgMonth → Prop) :
    Prop :=
  ∀ key, held key → c.companyOf u = some key.companyId →
    (∀ d, T.dates d → asked d = false → ¬ InMonth monthOf key d) ∧
    ∀ t, T.starts t → ¬ (c.person u).world.db.Reaches (InMonth monthOf key) t

/-- A sample taken at `t` is evidence for no session of the months held of the
person's organisation. -/
def SparesSample (c : MonthStore) (u : ℕ) (t : ℤ) (held : OrgMonth → Prop) : Prop :=
  ∀ key, held key → c.companyOf u = some key.companyId →
    ∀ s ∈ (c.person u).world.db.workSessions, InMonth monthOf key s.date → s.range.covers t = false

/-- The condition on the commit of a transaction. A calendar day lies in no month held, a week
pattern applies from after every month held and replaces the history it was read from, and a sample
that is stored or given its duration lies in no session of a month held. -/
def Sound (t : MonthTx) (c : MonthStore) (held : OrgMonth → Prop) : Prop :=
  match t with
  | .record u a => c.Spares monthOf u ((c.person u).world.touchesRecords a) a.month held
  | .restore u r => c.Spares monthOf u ((c.person u).world.db.sessionTouches r.sessionId)
      (fun _ => false) held
  | .review u op => c.Spares monthOf u (op.touches (c.person u).world.db) op.month held
  | .setDay companyId date _ _ | .clearDay companyId date => ¬ held ⟨companyId, monthOf date⟩
  | .writePattern companyId _ since history => c.patterns companyId = history ∧
    ∀ d, held ⟨companyId, monthOf d⟩ → d.day < since.day
  | .stampSample u takenAt _ => ∀ prev, (c.person u).samples.findLatestForUser = some prev →
    prev.durationSec = 0 → prev.takenAt ≤ takenAt → c.SparesSample monthOf u prev.takenAt held
  | .createSample u sample => c.SparesSample monthOf u sample.takenAt held
  | .adjust _ _ _ _ | .voidAdjustment _ _ _ _ | .setWeekPattern _ _ _ | .remember _ _ => True

/-- What the process `proc` has in memory of a part is what the tables say of the month `k`. -/
def Agrees (proc : ℕ) (k : OrgMonth) (c : MonthStore) : MonthPart → Prop
  | .coverage => ∀ u id rows, (c.caches proc).coverage u id = some rows →
    (replayed ((monthRows monthOf settings k c).person u).sessions id).isSome →
    rows = ((monthRows monthOf settings k c).person u).coverage id
  | .hours => ∀ u date hours, (c.caches proc).hours u date = some hours →
    (((monthRows monthOf settings k c).person u).sessions.any fun s => s.date = date) →
    hours = ((monthRows monthOf settings k c).person u).hours date
  | .calendar => ∀ cal, (c.caches proc).calendar k.companyId = some cal →
    ∀ d, InMonth monthOf k d → cal.overrides d = c.days k.companyId d ∧
      cal.patterns.patternOn d = (c.patterns k.companyId).patternOn d
  | .people | .sessions | .breaks | .meetings | .away | .adjustments | .presence | .pending => True

/-- A part that is read for a snapshot agrees. -/
def ReadsTrue (r : MonthRead) (k : OrgMonth) (c : MonthStore) : Prop :=
  match r with
  | .part proc part => Agrees monthOf settings proc k c part
  | .now _ => True

/-- The days that a transaction takes to be open are of the month it found open. -/
def Fits (t : MonthTx) (k : Option OrgMonth) (c : MonthStore) : Prop :=
  let opensOnly (u : ℕ) (month : DateKey → Bool) : Prop :=
    ∀ companyId, c.companyOf u = some companyId → ∀ d, month d = true →
      k = some ⟨companyId, monthOf d⟩
  match t with
  | .record u a => opensOnly u a.month
  | .review u op => opensOnly u op.month
  | .adjust monthOpen u _ _ | .voidAdjustment monthOpen u _ _ => opensOnly u monthOpen
  | _ => True

end MonthStore

end RxVision
