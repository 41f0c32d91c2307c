import RxVision.Activity.Samples
import RxVision.Lib.CachedRead
import RxVision.Lib.Runs
import RxVision.Replay.Interceptor

/-!
# The caches of day data (`day-data.service.ts`)

`bucketHours` keeps the hour buckets of closed days, `load` the activity coverage of closed REPLAY
sessions. A settled day's buckets are kept for good; those of another closed day hold while the
day's sessions (`DayStamp`) and the person's sample version are what they were, and coverage while
the session's start and end are. A call reads the version first, then the days (sessions) with one
query, looks them up in the caches, reads the rest with another query and writes that back: the
steps of a `CachedRead`, between which samples are stored (the previous one stamped, the new one
created, the change announced), sessions change and time passes (`DayDataWorld.step`).
-/

namespace RxVision

/-- `SETTLED_AFTER_MS`: the backlog window and an hour. -/
def SETTLED_AFTER_MS : ℤ := 7 * 24 * 60 * 60000 + 3600000

/-- `RECENT_TTL_MS`. -/
def RECENT_TTL_MS : ℤ := 30 * 60000

/-! ## What the queries answer -/

/-- Active seconds of a day by local hour. -/
abbrev Hours := List ℤ

/-- `count(*) || max(updated_at)` of a day's sessions. -/
structure DayStamp where
  count : ℕ
  last : Option ℤ
  deriving DecidableEq

/-- `SessionDayRow`. -/
structure SessionDayRow where
  date : DateKey
  settled : Bool
  closed : Bool
  stamp : DayStamp
  deriving DecidableEq

/-- `CoverageRow`: a stretch the agent was running in. -/
structure CoverageRow where
  startedAt : ℤ
  endedAt : ℤ
  deriving DecidableEq

/-- The sample was taken inside the session. -/
def WorkSession.holds (s : WorkSession) (t : ℤ) : Bool :=
  s.startedAt ≤ t && s.endedAt.all fun stop => t < stop

/-- The sample counts as active time. -/
def Sample.counted (s : Sample) : Bool := !s.idle && !s.locked && s.app ≠ some LOCK_SCREEN_APP

/-- The stamped seconds of a sample, capped like the daily rollup. -/
def Sample.cappedSec (s : Sample) : ℤ := min (max s.durationSec 0) MAX_GAP_SEC

/-- The sessions dated `date`. -/
def Db.sessionsOn (db : Db) (date : DateKey) : List WorkSession :=
  db.workSessions.rows.filter fun s => s.date = date

/-- `activeSecByHour` of one day: the active samples inside each of its sessions, by the local
hour they were taken in. -/
def activeSecByHour (hourOf : ℤ → ℕ) (sessions : List WorkSession) (samples : Samples) : Hours :=
  (List.range 24).map fun hour => (sessions.map fun ws =>
    ((samples.rows.filter fun s => s.counted && ws.holds s.takenAt && hourOf s.takenAt = hour).map
      fun s => s.cappedSec).sum).sum

/-- `COVERAGE_JOIN_SEC`, in milliseconds. -/
def COVERAGE_JOIN_MS : ℤ := 120 * 1000

/-- The range of a session: its start and end, what its coverage is kept for. -/
abbrev SessionRange := ℤ × Option ℤ

/-- `stampOf` of a session. -/
def WorkSession.range (s : WorkSession) : SessionRange := (s.startedAt, s.endedAt)

/-- A sample taken at `t` is evidence for a session with this range. -/
def SessionRange.covers (r : SessionRange) (t : ℤ) : Bool :=
  r.1 - MAX_GAP_SEC * 1000 ≤ t && r.2.all fun stop => t < stop

/-- The stretches of samples in time order, those close to each other joined; `reach` is the end of
the longest one so far. -/
def joinSpans : Option (CoverageRow × ℤ) → List (ℤ × ℤ) → List CoverageRow
  | none, [] => []
  | some (row, _), [] => [row]
  | none, (s, e) :: rest => joinSpans (some (⟨s, e⟩, e)) rest
  | some (row, reach), (s, e) :: rest =>
    if s ≤ reach + COVERAGE_JOIN_MS then
      joinSpans (some ({ row with endedAt := max row.endedAt e }, max reach e)) rest
    else row :: joinSpans (some (⟨s, e⟩, max reach e)) rest

/-- `activityCoverage` of one session with this range. -/
def activityCoverage (r : SessionRange) (samples : Samples) : List CoverageRow :=
  joinSpans none (((samples.rows.filter fun s => r.covers s.takenAt).map fun s =>
    (s.takenAt, s.takenAt + s.cappedSec * 1000)).insertionSort fun a b =>
      a.1 < b.1 ∨ a.1 = b.1 ∧ a.2 ≤ b.2)

/-! ## The caches and the calls -/

/-- `RecentBuckets`. -/
structure RecentBuckets where
  hours : Hours
  stamp : DayStamp
  version : ℕ
  storedAt : ℤ
  deriving DecidableEq

/-- `CachedCoverage`. -/
structure CachedCoverage where
  rows : List CoverageRow
  stamp : SessionRange
  version : ℕ
  storedAt : ℤ
  settled : Bool
  deriving DecidableEq

/-- The days a call asks for, from `start` to `stop`, and its `now`. -/
structure DayQuery where
  start : DateKey
  stop : DateKey
  now : ℤ
  deriving DecidableEq

/-- A call of `bucketHours`. -/
abbrev BucketCall := CachedRead.Call DayQuery SessionDayRow Hours

/-- A call of `load`, as far as the coverage of REPLAY sessions goes. -/
abbrev LoadCall := CachedRead.Call DayQuery WorkSession (List CoverageRow)

/-- A sample on its way to the store, once the previous one is closed: still to create (`create`) or
only to announce; `backfilled`: the person's closed days are announced as changed. -/
structure PendingStore where
  create : Option ActivityReport
  backfilled : Bool
  deriving DecidableEq

/-- A change of the person's work sessions. -/
inductive SessionChange
  | startDay (startedAt : ℤ) (source : WorkSessionSource) (dayOf : DayKeyFn)
  | endDay (today : DateKey) (legacy : Bool) (endedSince : ℤ)
  | autoClose (session : WorkSession) (closeAt : ℤ)
  | extendAutoClosed (session : WorkSession) (target : ℤ)
  | reopen (r : Reopened)
  | restore (r : Reopened)

/-- The tables after a change that runs at `now`. -/
def SessionChange.apply (calendarOf : DayKeyFn) (db : Db) (now : ℤ) : SessionChange → Db
  | .startDay startedAt source dayOf => (db.startDay calendarOf startedAt now source dayOf).2
  | .endDay today legacy endedSince => (db.endDay calendarOf now today legacy endedSince).2
  | .autoClose session closeAt => (db.autoClose session closeAt).2
  | .extendAutoClosed session target => (db.extendAutoClosed session target).2
  | .reopen r => db.reopenDay r
  | .restore r => db.restore r

/-- The tables, the column `updated_at` of the sessions, the samples, the clock and the
person's sample version. -/
structure DayData where
  db : Db
  updatedAt : ℕ → ℤ
  samples : Samples
  clock : ℤ
  version : ℕ

/-- The caches of the process. -/
structure DayCaches where
  settled : DateKey → Option Hours
  recent : DateKey → Option RecentBuckets
  coverage : ℕ → Option CachedCoverage

namespace DayData

/-- The stamp of a day. -/
def stamp (d : DayData) (date : DateKey) : DayStamp where
  count := (d.db.sessionsOn date).length
  last := ((d.db.sessionsOn date).map fun s => d.updatedAt s.id).max?

/-- `sessionDays` of one day. -/
def sessionDay (d : DayData) (settledBefore : ℤ) (date : DateKey) : SessionDayRow where
  date
  settled := (d.db.sessionsOn date).all fun s => s.endedAt.any fun stop => stop < settledBefore
  closed := (d.db.sessionsOn date).all fun s => s.endedAt.isSome
  stamp := d.stamp date

/-- The sessions of the days a call asks for. -/
def sessionsBetween (d : DayData) (q : DayQuery) : List WorkSession :=
  d.db.workSessions.rows.filter fun s => q.start.day ≤ s.date.day ∧ s.date.day ≤ q.stop.day

/-- `sessionDays`. -/
def sessionDays (d : DayData) (q : DayQuery) : List SessionDayRow :=
  ((d.sessionsBetween q).map WorkSession.date).dedup.map (d.sessionDay (q.now - SETTLED_AFTER_MS))

/-- The hour buckets of a day, read now. -/
def hours (hourOf : ℤ → ℕ) (d : DayData) (date : DateKey) : Hours :=
  activeSecByHour hourOf (d.db.sessionsOn date) d.samples

/-- The coverage of a session, read now by its id. -/
def coverageOf (d : DayData) (s : WorkSession) : List CoverageRow :=
  match d.db.workSessions.find? fun r => r.id = s.id with
  | some r => activityCoverage r.range d.samples
  | none => []

/-- The kept hour buckets that `bucketHours` takes for a day. -/
def lookupHours (d : DayData) (c : DayCaches) (version : ℕ) (row : SessionDayRow) : Option Hours :=
  if row.settled then c.settled row.date
  else if row.closed then
    (c.recent row.date).bind fun r =>
      if r.stamp = row.stamp ∧ r.version = version ∧ d.clock - r.storedAt < RECENT_TTL_MS then
        some r.hours
      else none
  else none

/-- The kept coverage that `coverageOf` takes for a session. -/
def lookupCoverage (d : DayData) (c : DayCaches) (version : ℕ) (s : WorkSession) :
    Option (List CoverageRow) :=
  if s.endedAt.isSome then
    (c.coverage s.id).bind fun e =>
      if e.stamp = s.range ∧
          (e.settled = true ∨ (e.version = version ∧ d.clock - e.storedAt < RECENT_TTL_MS)) then
        some e.rows
      else none
  else none

/-- Keeping the buckets of a day: for good (`remember`), for now (`rememberRecent`), or not. -/
def keepHours (version : ℕ) (storedAt : ℤ) (c : DayCaches) (fresh : SessionDayRow × Hours) :
    DayCaches :=
  let (row, hours) := fresh
  if row.settled then
    { c with
      settled := Function.update c.settled row.date (some hours)
      recent := Function.update c.recent row.date none }
  else if row.closed then
    { c with
      recent := Function.update c.recent row.date
        (some ⟨hours, row.stamp, version, storedAt⟩) }
  else c

/-- Keeping the coverage of a closed session. -/
def keepCoverage (now : ℤ) (version : ℕ) (storedAt : ℤ) (c : DayCaches)
    (fresh : WorkSession × List CoverageRow) : DayCaches :=
  let (s, rows) := fresh
  match s.endedAt with
  | none => c
  | some stop =>
    { c with
      coverage := Function.update c.coverage s.id
        (some ⟨rows, s.range, version, storedAt, decide (stop < now - SETTLED_AFTER_MS)⟩) }

end DayData

/-- `bucketHours`. -/
def bucketHours (hourOf : ℤ → ℕ) : CachedRead DayData DayCaches DayQuery SessionDayRow Hours where
  version := DayData.version
  clock := DayData.clock
  list := DayData.sessionDays
  lookup := DayData.lookupHours
  read d row := d.hours hourOf row.date
  keep _ := DayData.keepHours

/-- `load`: the sessions of the days, of which `coverageOf` answers the REPLAY ones. -/
def load : CachedRead DayData DayCaches DayQuery WorkSession (List CoverageRow) where
  version := DayData.version
  clock := DayData.clock
  list d q := (d.sessionsBetween q).filter fun s => s.source = .replay
  lookup := DayData.lookupCoverage
  read := DayData.coverageOf
  keep q := DayData.keepCoverage q.now

/-! ## The system -/

/-- The data, the caches, and the stores and calls under way. -/
structure DayDataWorld where
  data : DayData
  caches : DayCaches
  stores : List PendingStore
  buckets : ℕ → Option BucketCall
  loads : ℕ → Option LoadCall

/-- A step of the clock, the sessions, a store, the caches or a call. -/
inductive DayDataAction
  | tick (now : ℤ)
  | change (c : SessionChange)
  | storeStamp (r : ActivityReport)
  | storeCreate (i : ℕ)
  | storePublish (i : ℕ)
  | clearSettled
  | clearRecent
  | clearCoverage
  | bucketBegin (i : ℕ) (q : DayQuery)
  | bucket (i : ℕ) (s : CachedRead.Step)
  | loadBegin (i : ℕ) (q : DayQuery)
  | load (i : ℕ) (s : CachedRead.Step)

namespace DayData

/-- The data after a change of the sessions: every row it writes is stamped with the clock. -/
def change (calendarOf : DayKeyFn) (d : DayData) (c : SessionChange) : DayData :=
  let db := c.apply calendarOf d.db d.clock
  { d with
    db
    updatedAt := fun id =>
      if (db.workSessions.find? fun s => s.id = id) = d.db.workSessions.find? fun s =>
        s.id = id then d.updatedAt id
      else d.clock }

/-- The sample that one taken at `takenAt` closes. -/
def closes (d : DayData) (takenAt : ℤ) : Option ActivitySampleRecord :=
  d.samples.findLatestForUser.filter fun prev =>
    prev.durationSec = 0 ∧ prev.takenAt ≤ takenAt ∧ 0 < foregroundSec prev.takenAt takenAt

/-- Whether storing `r` announces the person's closed days as changed. -/
def announces (d : DayData) (r : ActivityReport) : Bool :=
  r.history || decide (LIVE_LAG_MS < r.now - r.takenAt) ||
    (d.samples.closePrevious r.takenAt r.now).2

end DayData

namespace DayDataWorld

/-- The process at its start, with no data. -/
def empty : DayDataWorld where
  data := ⟨.empty, fun _ => 0, .empty, 0, 0⟩
  caches := ⟨fun _ => none, fun _ => none, fun _ => none⟩
  stores := []
  buckets := fun _ => none
  loads := fun _ => none

variable (clock : LocalTime) (hourOf : ℤ → ℕ) (calendarOf : DayKeyFn)

/-- The world after a step; `none` when the step cannot happen. -/
def step (w : DayDataWorld) : DayDataAction → Option DayDataWorld
  | .tick now =>
    if w.data.clock ≤ now then some { w with data := { w.data with clock := now } } else none
  | .change c => some { w with data := w.data.change calendarOf c }
  | .storeStamp r =>
    some { w with
      data := { w.data with samples := (w.data.samples.closePrevious r.takenAt r.now).1 }
      stores := w.stores ++ [⟨some r, w.data.announces r⟩] }
  | .storeCreate i =>
    match w.stores[i]? with
    | some ⟨some r, backfilled⟩ =>
      some { w with
        data := { w.data with samples := w.data.samples.createSample (newSample clock r) }
        stores := w.stores.set i ⟨none, backfilled⟩ }
    | _ => none
  | .storePublish i =>
    match w.stores[i]? with
    | some ⟨none, backfilled⟩ =>
      some { w with
        data := { w.data with version := if backfilled then w.data.version + 1 else w.data.version }
        stores := w.stores.eraseIdx i }
    | _ => none
  | .clearSettled => some { w with caches := { w.caches with settled := fun _ => none } }
  | .clearRecent => some { w with caches := { w.caches with recent := fun _ => none } }
  | .clearCoverage => some { w with caches := { w.caches with coverage := fun _ => none } }
  | .bucketBegin i q =>
    if w.buckets i = none then
      some { w with buckets := Function.update w.buckets i (some (.begun q w.data.version)) }
    else none
  | .bucket i s =>
    (w.buckets i).bind fun call =>
      ((bucketHours hourOf).step w.data w.caches s call).map fun (caches, call') =>
        { w with caches, buckets := Function.update w.buckets i (some call') }
  | .loadBegin i q =>
    if w.loads i = none then
      some { w with loads := Function.update w.loads i (some (.begun q w.data.version)) }
    else none
  | .load i s =>
    (w.loads i).bind fun call =>
      (RxVision.load.step w.data w.caches s call).map fun (caches, call') =>
        { w with caches, loads := Function.update w.loads i (some call') }

end DayDataWorld

end RxVision
