import RxVision.Records.Breaks

/-!
# Meetings (`prisma-meeting-record.repository.ts`, `meetings.ts`)

The transactions that start and end one person's live meetings, log an earlier one, and take over
the end of a meeting whose presence session was closed another way (`heal`).
-/

namespace RxVision

/-! ## The rules -/

/-- A live meeting shorter than this is discarded. -/
def MIN_LIVE_MEETING_SEC : ℤ := 60

/-- `isDiscardedMeeting`: a live meeting that ended under a minute. -/
def isDiscardedMeeting (m : MeetingRecord) : Bool :=
  m.mode = .live ∧ m.endedAt.isSome ∧ m.approvalStatus = .notRequired ∧
    m.durationSec.getD 0 < MIN_LIVE_MEETING_SEC

/-- `PastMeetingCode`. -/
inductive PastMeetingCode
  | outsideDay | inFuture | overlapsBreak | overlapsMeeting
  deriving DecidableEq, Repr

/-- `TimedSpan`, with the kind an overlap is described by. -/
structure TimedSpan where
  kind : PresenceType
  startedAt : ℤ
  endedAt : Option ℤ
  deriving DecidableEq, Repr

/-- `PastMeetingConflict`: what is wrong, and what it collides with. -/
structure PastMeetingConflict where
  code : PastMeetingCode
  against : Option TimedSpan := none
  deriving DecidableEq, Repr

/-- The span lies inside a session; an open one counts up to `now`. -/
def insideSession (start stop now : ℤ) (s : WorkSession) : Bool :=
  s.startedAt ≤ start ∧ stop ≤ s.endedAt.getD now

/-- The span overlaps another one, read at `now`. -/
def overlapsSpan (start stop now : ℤ) (s : TimedSpan) : Bool :=
  overlaps (span start (some stop) now) (span s.startedAt s.endedAt now)

/-- `checkPastMeeting`: none when an earlier meeting may be logged. -/
def checkPastMeeting (start stop now : ℤ) (sessions : List WorkSession)
    (breaks meetings : List TimedSpan) : Option PastMeetingConflict :=
  if stop > now then some { code := .inFuture }
  else if ¬ sessions.any (insideSession start stop now) then some { code := .outsideDay }
  else
    match breaks.find? (overlapsSpan start stop now) with
    | some brk => some { code := .overlapsBreak, against := some brk }
    | none =>
      match meetings.find? (overlapsSpan start stop now) with
      | some other => some { code := .overlapsMeeting, against := some other }
      | none => none

/-! ## What the transactions are given and answer -/

/-- Why a live meeting is not started. -/
inductive StartLiveCode
  | day (code : DayClosedCode)
  | onBreak | meetingInProgress
  deriving DecidableEq, Repr

/-- `StartLiveResult`. -/
inductive StartLiveResult
  | ok (record : MeetingRecord) (presenceSessionId : ℕ)
  | refused (code : StartLiveCode)
  | monthLocked
  deriving DecidableEq, Repr

/-- `EndLiveResult`; `unknown` is null. -/
inductive EndLiveResult
  | unknown | discarded | monthLocked
  | unchanged (record : MeetingRecord)
  | ended (record : MeetingRecord)
  deriving DecidableEq, Repr

/-- `CreatePastResult`. -/
inductive CreatePastResult
  | ok (record : MeetingRecord)
  | dayNotStarted | monthLocked
  | refused (conflict : PastMeetingConflict)
  deriving DecidableEq, Repr

/-- `HealResult`. -/
structure HealResult where
  healed : List MeetingRecord
  discarded : ℕ
  deriving DecidableEq, Repr

namespace Db

/-- Changes the meeting `id`. -/
def updateMeeting (db : Db) (id : ℕ) (f : MeetingRecord → MeetingRecord)
    (hf : ∀ m, (f m).id = m.id) :
    Db :=
  { db with meetings := db.meetings.updateMany (fun m => m.id = id) f hf }

/-! ## Live meetings -/

/-- Creates a live meeting dated `date` with its presence session, both from `now`. -/
def createLive (calendarOf : DayKeyFn) (db : Db) (approvalStatus : BreakApprovalStatus)
    (date : DateKey) (now : ℤ) : MeetingRecord × Db :=
  let row : ℕ → MeetingRecord := fun id =>
    { id, date, mode := .live, startedAt := now, presenceSessionId := some db.presence.next,
      approvalStatus }
  (row db.meetings.next,
    { db with
      presence := db.presence.create
        (fun id => { id, type := .meeting, date := calendarOf now, startedAt := now }) fun _ => rfl
      meetings := db.meetings.create row fun _ => rfl })

/-- The part of `startLive` once the day is open: `before` are the tables to go back to. -/
def openLive (calendarOf : DayKeyFn) (monthOpen : DateKey → Bool) (before db : Db)
    (approvalStatus : BreakApprovalStatus) (date : DateKey) (now : ℤ) : StartLiveResult × Db :=
  if approvalStatus = .pending ∧ ¬ monthOpen date then (.monthLocked, before)
  else
    let (record, db') := db.createLive calendarOf approvalStatus date now
    (.ok record db.presence.next, db')

/-- `startLive`. The meeting belongs to the working day of the session it runs in. -/
def startLive (calendarOf : DayKeyFn) (monthOpen : DateKey → Bool) (db : Db)
    (approvalStatus : BreakApprovalStatus) (generation : AgentGeneration) (now : ℤ)
    (today : DateKey) : StartLiveResult × Db :=
  if db.findOpen.isNone ∧ generation = .agent31 then
    (.refused (.day (if db.countSessionsOn today > 0 then .dayEnded else .dayNotStarted)), db)
  else
    match db.openPresence with
    | some p => (.refused (if p.type = .meeting then .meetingInProgress else .onBreak), db)
    | none =>
      match db.findOpen with
      | some s => db.openLive calendarOf monthOpen db approvalStatus s.date now
      | none =>
        match db.ensureOpenTx generation now today with
        | (.refused code, _) => (.refused (.day code), db)
        | (.ok s _, db') => db.openLive calendarOf monthOpen db' approvalStatus s.date now

/-- `endLive`. -/
def endLive (monthOpen : DateKey → Bool) (db : Db) (id : ℕ) (now : ℤ) : EndLiveResult × Db :=
  match db.meetings.find? fun m => m.id = id with
  | none => (.unknown, db)
  | some row =>
    if isDiscardedMeeting row then (.discarded, db)
    else if row.mode ≠ .live ∨ row.endedAt.isSome then (.unchanged row, db)
    else if row.approvalStatus = .pending ∧ ¬ monthOpen row.date then (.monthLocked, db)
    else
      -- a presence session that was closed another way gives the end
      let stop := ((db.presenceOf row.presenceSessionId).bind PresenceSession.endedAt).getD now
      let db₁ := db.closeOwnPresence row.presenceSessionId now
      let durationSec := elapsedSec row.startedAt stop
      if durationSec < MIN_LIVE_MEETING_SEC then
        (.discarded, db₁.updateMeeting id (fun m =>
          { m with
            endedAt := some stop
            durationSec := some durationSec
            approvalStatus := .notRequired }) fun _ => rfl)
      else
        (.ended { row with endedAt := some stop, durationSec := some durationSec },
          db₁.updateMeeting id
            (fun m => { m with endedAt := some stop, durationSec := some durationSec }) fun _ =>
              rfl)

/-! ## Earlier meetings -/

/-- The rows `createPast` reads around a span: they start before its end, and end after its start or
not at all. -/
def around (start stop startedAt : ℤ) (endedAt : Option ℤ) : Bool :=
  startedAt < stop ∧ endedAt.all fun e => e > start

/-- The breaks `createPast` reads. -/
def breaksAround (db : Db) (start stop : ℤ) : List TimedSpan :=
  (db.presence.rows.filter fun p => around start stop p.startedAt p.endedAt ∧ p.type ≠ .meeting).map
    fun p => ⟨p.type, p.startedAt, p.endedAt⟩

/-- The meetings `createPast` reads: presence meetings, but for those under a minute (discarded live
meetings), and meeting records that are not discarded. -/
def meetingsAround (db : Db) (start stop : ℤ) : List TimedSpan :=
  ((db.presence.rows.filter fun p => around start stop p.startedAt p.endedAt ∧ p.type = .meeting ∧
      p.endedAt.all fun e => e - p.startedAt ≥ MIN_LIVE_MEETING_SEC * 1000).map
    fun p => ⟨.meeting, p.startedAt, p.endedAt⟩) ++
  ((db.meetings.rows.filter fun m => around start stop m.startedAt m.endedAt ∧
      ¬ isDiscardedMeeting m).map
    fun m => ⟨.meeting, m.startedAt,
      match m.endedAt with
      | some e => some e
      | none => if m.mode = .live then none else some m.startedAt⟩)

/-- `createPast`: a meeting of `durationSec` seconds from `start`. -/
def createPast (monthOpen : DateKey → Bool) (db : Db) (approvalStatus : BreakApprovalStatus)
    (start : ℤ) (durationSec : ℕ) (generation : AgentGeneration) (now : ℤ) (today : DateKey) :
    CreatePastResult × Db :=
  let stop := start + durationSec * 1000
  let sessions := db.workSessions.rows.filter fun s => s.date = today ∨ s.endedAt.isNone
  if sessions = [] ∧ generation = .agent31 then (.dayNotStarted, db)
  else
    match checkPastMeeting start stop now sessions (db.breaksAround start stop)
        (db.meetingsAround start stop) with
    | some conflict => (.refused conflict, db)
    | none =>
      -- dated by the session that holds it
      let date := ((sessions.find? (insideSession start stop now)).map WorkSession.date).getD today
      if approvalStatus = .pending ∧ ¬ monthOpen date then (.monthLocked, db)
      else
        let row : ℕ → MeetingRecord := fun id =>
          { id, date, mode := .past, startedAt := start, endedAt := some stop,
            durationSec := some durationSec, approvalStatus }
        (.ok (row db.meetings.next),
          { db with meetings := db.meetings.create row fun _ => rfl })

/-! ## Healing -/

/-- A meeting that runs on, although its presence session has ended. -/
def isHealed (db : Db) (m : MeetingRecord) : Bool :=
  m.endedAt.isNone ∧ ((db.presenceOf m.presenceSessionId).bind PresenceSession.endedAt).isSome

/-- A live meeting that runs on without any presence session. -/
def isOrphan (m : MeetingRecord) : Bool :=
  m.mode = .live ∧ m.endedAt = none ∧ m.presenceSessionId = none

/-- The meeting ends where its presence session ended. -/
def takeEnd (db : Db) (m : MeetingRecord) : MeetingRecord :=
  match (db.presenceOf m.presenceSessionId).bind PresenceSession.endedAt with
  | some e => { m with endedAt := some e, durationSec := some (elapsedSec m.startedAt e) }
  | none => m

/-- A meeting that takes its presence session's end keeps its id. -/
@[simp] theorem takeEnd_id (db : Db) (m : MeetingRecord) : (db.takeEnd m).id = m.id := by
  unfold takeEnd
  split <;> rfl

/-- Healed meetings take over their end. -/
def takeEnds (db : Db) : Db :=
  { db with meetings := db.meetings.updateMany db.isHealed db.takeEnd db.takeEnd_id }

/-- An orphan ends where it started, and is discarded. -/
def endOrphans (db : Db) : Db :=
  { db with
    meetings := db.meetings.updateMany isOrphan
      (fun m =>
        { m with
          endedAt := some m.startedAt
          durationSec := some 0
          approvalStatus := .notRequired })
      fun _ => rfl }

/-- One of the meetings `ids`, under a minute. -/
def isShort (ids : List ℕ) (m : MeetingRecord) : Bool :=
  m.id ∈ ids ∧ m.durationSec.getD 0 < MIN_LIVE_MEETING_SEC

/-- The meetings `ids` under a minute are discarded. -/
def discardShort (db : Db) (ids : List ℕ) : Db :=
  { db with
    meetings := db.meetings.updateMany (isShort ids)
      (fun m => { m with approvalStatus := .notRequired }) fun _ => rfl }

/-- `heal`. -/
def heal (db : Db) : HealResult × Db :=
  let ids := (db.meetings.rows.filter db.isHealed).map MeetingRecord.id
  let ended := db.takeEnds.endOrphans
  let rows := ended.meetings.rows.filter fun m => m.id ∈ ids
  ({ healed := rows.filter fun m => ¬ isShort ids m
     discarded := (rows.filter (isShort ids)).length + (db.meetings.rows.filter isOrphan).length },
    ended.discardShort ids)

end Db

end RxVision
