import RxVision.Lib.Table

/-!
# The rows of one person (`prisma/schema.prisma`)

The tables the working day of one person is stored in, with the columns that the modelled
operations read or write. Every row here belongs to the same person, so `user_id` is left out of the
rows and of every `where`. Instants are milliseconds; ids are the creation order.

`work_day_ends` has one row a day (unique on `user_id, date`) and a row whose `ended_at` is null
reads everywhere as no row, so the table is the function from the day to its End Day mark.
-/

namespace RxVision

/-- A day key (`YYYY-MM-DD`). The operations compare keys and never compute with them. -/
structure DateKey where
  day : ℤ
  deriving DecidableEq, Repr

/-- `WorkSessionEndReason`. -/
inductive WorkSessionEndReason
  | user | autoClosed
  deriving DecidableEq, Repr

/-- Where a work session came from. -/
inductive WorkSessionSource
  | agent | legacy | replay
  deriving DecidableEq, Repr

/-- The type of a presence session; `brk` is `BREAK`. -/
inductive PresenceType
  | brk | lunch | meeting
  deriving DecidableEq, Repr

/-- `BreakOutcome`. -/
inductive BreakOutcome
  | taken | skipped | autoSkipped
  deriving DecidableEq, Repr

/-- `BreakState`. -/
inductive BreakState
  | active | paused | ended
  deriving DecidableEq, Repr

/-- The kind of a break record; an unscheduled break has none. -/
inductive RecordKind
  | morning | lunch | evening | quick
  deriving DecidableEq, Repr

/-- `BreakApprovalStatus`, the approval status of breaks and meetings. -/
inductive BreakApprovalStatus
  | notRequired | pending | approved | rejected
  deriving DecidableEq, Repr

/-- `MeetingMode`. -/
inductive MeetingMode
  | live | past
  deriving DecidableEq, Repr

/-- `AwayStatus`. -/
inductive AwayStatus
  | unexplained | pending | approved | rejected | notRequired
  deriving DecidableEq, Repr

/-- `work_sessions`: one stretch of a working day. -/
structure WorkSession where
  id : ℕ
  date : DateKey
  startedAt : ℤ
  endedAt : Option ℤ := none
  endReason : Option WorkSessionEndReason := none
  source : WorkSessionSource
  deriving DecidableEq, Repr

/-- `presence_sessions`: a stretch on a break, at lunch or in a meeting. -/
structure PresenceSession where
  id : ℕ
  type : PresenceType
  date : DateKey
  startedAt : ℤ
  endedAt : Option ℤ := none
  durationSec : Option ℤ := none
  deriving DecidableEq, Repr

/-- `break_records`: a break taken or skipped. -/
structure BreakRecord where
  id : ℕ
  date : DateKey
  kind : Option RecordKind
  seq : ℕ := 0
  presenceType : PresenceType
  scheduledStart : Option ℤ := none
  windowClose : Option ℤ := none
  presenceSessionId : Option ℕ := none
  startedAt : ℤ
  reason : Option String := none
  approvalStatus : BreakApprovalStatus := .notRequired
  outcome : BreakOutcome := .taken
  state : BreakState := .ended
  plannedMin : Option ℤ := none
  endedAt : Option ℤ := none
  takenSec : Option ℤ := none
  deriving DecidableEq, Repr

/-- `break_segments`: one running part of a break, with its own presence session. -/
structure BreakSegment where
  id : ℕ
  breakRecordId : ℕ
  presenceSessionId : Option ℕ := none
  startedAt : ℤ
  endedAt : Option ℤ := none
  deriving DecidableEq, Repr

/-- `meeting_records`: a meeting held live or logged afterwards. -/
structure MeetingRecord where
  id : ℕ
  date : DateKey
  mode : MeetingMode
  startedAt : ℤ
  endedAt : Option ℤ := none
  durationSec : Option ℤ := none
  presenceSessionId : Option ℕ := none
  approvalStatus : BreakApprovalStatus
  deriving DecidableEq, Repr

/-- `away_events`: a stretch with no input. -/
structure AwayEvent where
  id : ℕ
  date : DateKey
  startedAt : ℤ
  endedAt : Option ℤ := none
  seconds : Option ℤ := none
  reasonKey : Option String := none
  status : AwayStatus
  deriving DecidableEq, Repr

/-- The tables of one person. -/
structure Db where
  workSessions : Table WorkSession.id
  /-- The End Day mark of a day: `work_day_ends.ended_at`. -/
  workDayEnds : DateKey → Option ℤ
  presence : Table PresenceSession.id
  breakRecords : Table BreakRecord.id
  breakSegments : Table BreakSegment.id
  meetings : Table MeetingRecord.id
  away : Table AwayEvent.id

/-- The tables of a person who has never worked. -/
def Db.empty : Db where
  workSessions := .empty
  workDayEnds := fun _ => none
  presence := .empty
  breakRecords := .empty
  breakSegments := .empty
  meetings := .empty
  away := .empty

end RxVision
