import RxVision.Lib.Spans
import RxVision.Worktime.WorkSessions

/-!
# Breaks (`prisma-break-record.repository.ts`, `break-record.repository.ts`)

The transactions that start, pause, resume and end one person's breaks. A break record points at the
presence session that runs it; a break that was paused and resumed has one segment, with a presence
session of its own, for each part. `monthOpen` says which days lie in a month that is not locked
(`assertMonthOpen`); a locked month throws, and the transaction is rolled back.
-/

namespace RxVision

/-! ## What the transactions are given and answer -/

/-- `NewBreakRecord`. -/
structure NewBreakRecord where
  date : DateKey
  kind : Option RecordKind
  presenceType : PresenceType
  scheduledStart : Option ℤ
  windowClose : Option ℤ
  startedAt : ℤ
  reason : Option String
  approvalStatus : BreakApprovalStatus
  deriving DecidableEq, Repr

/-- `NewQuickBreak`. -/
structure NewQuickBreak where
  date : DateKey
  plannedMin : ℤ
  startedAt : ℤ
  calendarDay : DateKey
  deriving DecidableEq, Repr

/-- Why a scheduled break is not started. -/
inductive StartBreakRefusal
  | dayEnded | alreadyTaken | alreadyOnBreak
  deriving DecidableEq, Repr

/-- `StartBreakOutcome`. -/
inductive StartBreakOutcome
  | ok (record : BreakRecord) (presenceSessionId : ℕ) (closedMeeting : Bool)
  | refused (reason : StartBreakRefusal)
  | monthLocked
  deriving DecidableEq, Repr

/-- Why a break move is refused. -/
inductive BreakMoveCode
  | notFound | notPausable | notActive | notPaused | resumeWindowClosed
  | dayEnded | dayNotStarted | onBreak | inMeeting
  deriving DecidableEq, Repr

/-- `BreakMoveResult`. -/
inductive BreakMoveResult
  | ok (record : BreakRecord) (presenceSessionId : Option ℕ)
  | refused (code : BreakMoveCode) (record : Option BreakRecord)
  deriving DecidableEq, Repr

/-- `BreakSegmentRow`: a segment as it is read. -/
structure BreakSegmentRow where
  startedAt : ℤ
  endedAt : Option ℤ
  deriving DecidableEq, Repr

/-- `isReplaceableAutoSkip`: an auto-skip made inside the still-open window gives way to
the break. -/
def isReplaceableAutoSkip (r : BreakRecord) (now : ℤ) : Bool :=
  r.outcome = .autoSkipped ∧ r.reason = none ∧
    r.windowClose.any fun close => r.startedAt < close ∧ now < close

namespace Db

/-! ## Presence -/

/-- `openPresence`: the open presence session that started last. -/
def openPresence (db : Db) : Option PresenceSession :=
  db.presence.findLast? (fun p => p.endedAt.isNone) PresenceSession.startedAt

/-- The presence session a row points at. -/
def presenceOf (db : Db) (session : Option ℕ) : Option PresenceSession :=
  session.bind fun id => db.presence.find? fun p => p.id = id

/-- A session that a row points at is the one with its id. -/
theorem presenceOf_eq_some {db : Db} {k : Option ℕ} {p : PresenceSession} :
    db.presenceOf k = some p ↔ k = some p.id ∧ p ∈ db.presence := by
  cases k with
  | none => simp [presenceOf]
  | some k =>
    constructor
    · intro h
      have hid : p.id = k := by simpa using Table.find?_spec h
      exact ⟨by rw [hid], Table.mem_of_find? h⟩
    · rintro ⟨hk, hp⟩
      cases hk
      exact @Table.find?_key _ PresenceSession.id _ _ hp

/-- Closes the presence session `id` at `t`, as it is. -/
def closePresence (db : Db) (id : ℕ) (t : ℤ) : Db :=
  { db with
    presence := db.presence.updateMany (fun p => p.id = id)
      (fun p => { p with endedAt := some t, durationSec := some (elapsedSec p.startedAt t) })
      fun _ => rfl }

/-- Closes the presence session a row points at, when it is still open. -/
def closeOwnPresence (db : Db) (session : Option ℕ) (t : ℤ) : Db :=
  match db.presenceOf session with
  | some p => if p.endedAt.isNone then db.closePresence p.id t else db
  | none => db

/-- Closing a row's presence session changes nothing, or closes that session. -/
theorem closeOwnPresence_cases (db : Db) (session : Option ℕ) (t : ℤ) :
    db.closeOwnPresence session t = db ∨ ∃ p ∈ db.presence, session = some p.id ∧
      p.endedAt = none ∧ db.closeOwnPresence session t = db.closePresence p.id t := by
  unfold closeOwnPresence
  split
  · next p hp =>
    obtain ⟨hid, hp⟩ := presenceOf_eq_some.1 hp
    split
    · next hopen => exact Or.inr ⟨p, hp, hid, Option.isNone_iff_eq_none.1 hopen, rfl⟩
    · exact Or.inl rfl
  · exact Or.inl rfl

/-- It leaves the segments. -/
theorem closeOwnPresence_breakSegments (db : Db) (session : Option ℕ) (t : ℤ) :
    (db.closeOwnPresence session t).breakSegments = db.breakSegments := by
  rcases db.closeOwnPresence_cases session t with h | ⟨p, -, -, -, h⟩
  · rw [h]
  · rw [h]
    rfl

/-- It leaves the meetings. -/
theorem closeOwnPresence_meetings (db : Db) (session : Option ℕ) (t : ℤ) :
    (db.closeOwnPresence session t).meetings = db.meetings := by
  rcases db.closeOwnPresence_cases session t with h | ⟨p, -, -, -, h⟩
  · rw [h]
  · rw [h]
    rfl

/-- It leaves the breaks. -/
theorem closeOwnPresence_breakRecords (db : Db) (session : Option ℕ) (t : ℤ) :
    (db.closeOwnPresence session t).breakRecords = db.breakRecords := by
  rcases db.closeOwnPresence_cases session t with h | ⟨p, -, -, -, h⟩
  · rw [h]
  · rw [h]
    rfl

/-- `endOpenForUser`. -/
def endOpenForUser (db : Db) (now : ℤ) : Db := db.closeOpenPresence now

/-- `switchTo`: closes what is open and opens a presence session. -/
def switchTo (db : Db) (type : PresenceType) (date : DateKey) (now : ℤ) : Db :=
  { db.closeOpenPresence now with
    presence := (db.closeOpenPresence now).presence.create
      (fun id => { id, type, date, startedAt := now }) fun _ => rfl }

/-! ## Break rows as they are read -/

/-- The end of a break (`breakRowFromPrisma`): its presence session's; no session means nothing is
running, so it ended at its start. -/
def breakEnd (db : Db) (r : BreakRecord) : Option ℤ :=
  match db.presenceOf r.presenceSessionId with
  | some p => p.endedAt
  | none => some r.startedAt

/-- The segments of a break (`breakRowFromPrisma`): each one's times are its presence session's when
it still has one. -/
def breakSegmentsOf (db : Db) (id : ℕ) : List BreakSegmentRow :=
  (db.breakSegments.rows.filter fun g => g.breakRecordId = id).map fun g =>
    match db.presenceOf g.presenceSessionId with
    | some p => ⟨p.startedAt, p.endedAt⟩
    | none => ⟨g.startedAt, g.endedAt⟩

/-- `segmentsOf`: an older break without any reads as one segment from start to end. -/
def segmentsOf (db : Db) (r : BreakRecord) : List BreakSegmentRow :=
  match db.breakSegmentsOf r.id with
  | [] => if r.outcome ≠ .taken then [] else [⟨r.startedAt, db.breakEnd r⟩]
  | segments => segments

/-- `takenSecOf`: the seconds taken over all segments, open ones to `now`. -/
def takenSecOf (db : Db) (r : BreakRecord) (now : ℤ) : ℤ :=
  ((db.segmentsOf r).map fun g => max 0 (g.endedAt.getD now - g.startedAt)).sum / 1000

/-! ## Break records and segments -/

/-- Changes the break record `id`. -/
def updateBreak (db : Db) (id : ℕ) (f : BreakRecord → BreakRecord)
    (hf : ∀ r, (f r).id = r.id) : Db :=
  { db with breakRecords := db.breakRecords.updateMany (fun r => r.id = id) f hf }

/-- Deletes the break record `id` and, by cascade, its segments. -/
def deleteBreak (db : Db) (id : ℕ) : Db :=
  { db with
    breakRecords := db.breakRecords.deleteMany fun r => r.id = id
    breakSegments := db.breakSegments.deleteMany fun g => g.breakRecordId = id }

/-- Closes the open segments of the break `id` at `t`, as it is. -/
def closeSegments (db : Db) (id : ℕ) (t : ℤ) : Db :=
  { db with
    breakSegments := db.breakSegments.updateMany
      (fun g => g.breakRecordId = id ∧ g.endedAt.isNone) (fun g => { g with endedAt := some t })
      fun _ => rfl }

/-- Opens a presence session of the type of the break `id`, and a segment of the break
that it runs. -/
def openSegment (db : Db) (id : ℕ) (type : PresenceType) (calendarDay : DateKey) (t : ℤ) : Db :=
  { db with
    presence := db.presence.create (fun id => { id, type, date := calendarDay, startedAt := t })
      fun _ => rfl
    breakSegments := db.breakSegments.create
      (fun g =>
        { id := g, breakRecordId := id, presenceSessionId := some db.presence.next,
          startedAt := t })
      fun _ => rfl }

/-- Creates the running break `r` with its presence session and its first segment. -/
def createBreak (db : Db) (r : BreakRecord) (calendarDay : DateKey) (t : ℤ) : BreakRecord × Db :=
  let row : ℕ → BreakRecord := fun id =>
    { r with id, presenceSessionId := some db.presence.next, state := .active }
  (row db.breakRecords.next,
    { db.openSegment db.breakRecords.next r.presenceType calendarDay t with
      breakRecords := db.breakRecords.create row fun _ => rfl })

/-! ## The transactions -/

/-- The record of its kind that the person has on the day of a new one. -/
def takenBreak (db : Db) (record : NewBreakRecord) : Option BreakRecord :=
  record.kind.bind fun kind =>
    db.breakRecords.find? fun r => r.date = record.date ∧ r.kind = some kind

/-- The row `startScheduled` creates. -/
def scheduledRow (record : NewBreakRecord) : BreakRecord :=
  { id := 0
    date := record.date
    kind := record.kind
    presenceType := record.presenceType
    scheduledStart := record.scheduledStart
    windowClose := record.windowClose
    startedAt := record.startedAt
    reason := record.reason
    approvalStatus := record.approvalStatus }

/-- The part of `startScheduled` once the kind is free: `before` are the tables to go back to. -/
def openScheduled (monthOpen : DateKey → Bool) (before db : Db) (record : NewBreakRecord)
    (calendarDay : DateKey) (now : ℤ) : StartBreakOutcome × Db :=
  if record.approvalStatus = .pending ∧ ¬ monthOpen record.date then (.monthLocked, before)
  else
    match db.openPresence with
    | some p =>
      if p.type ≠ .meeting then (.refused .alreadyOnBreak, db)
      else
        let (created, db') :=
          (db.closePresence p.id now).createBreak (scheduledRow record) calendarDay now
        (.ok created db.presence.next true, db')
    | none =>
      let (created, db') := db.createBreak (scheduledRow record) calendarDay now
      (.ok created db.presence.next false, db')

/-- `startScheduled`. -/
def startScheduled (monthOpen : DateKey → Bool) (db : Db) (record : NewBreakRecord)
    (calendarDay : DateKey) (now : ℤ) : StartBreakOutcome × Db :=
  if (db.workDayEnds calendarDay).isSome then (.refused .dayEnded, db)
  else
    match db.takenBreak record with
    | some taken =>
      if ¬ isReplaceableAutoSkip taken now then (.refused .alreadyTaken, db)
      else db.openScheduled monthOpen (db.deleteBreak taken.id) record calendarDay now
    | none => db.openScheduled monthOpen db record calendarDay now

/-- `startQuick`: from `input.startedAt`, which may lie back. -/
def startQuick (db : Db) (input : NewQuickBreak) : BreakMoveResult × Db :=
  if (db.workDayEnds input.calendarDay).isSome then (.refused .dayEnded none, db)
  else if db.findOpen.isNone then (.refused .dayNotStarted none, db)
  else
    match db.openPresence with
    | some p => (.refused (if p.type = .meeting then .inMeeting else .onBreak) none, db)
    | none =>
      -- a paused scheduled break stays paused
      let seq := (db.breakRecords.rows.filter fun r =>
        r.date = input.date ∧ r.kind = some .quick).length + 1
      let (created, db') := db.createBreak
        { id := 0
          date := input.date
          kind := some .quick
          seq
          presenceType := .brk
          startedAt := input.startedAt
          plannedMin := some input.plannedMin } input.calendarDay input.startedAt
      (.ok created created.presenceSessionId, db')

/-- The break is running (`pause`): not paused, and its presence session has not ended. -/
def isRunning (db : Db) (r : BreakRecord) : Bool :=
  r.state ≠ .paused ∧ r.presenceSessionId.isSome ∧
    ((db.presenceOf r.presenceSessionId).bind PresenceSession.endedAt).isNone

/-- `pause`. -/
def pause (db : Db) (id : ℕ) (now : ℤ) : BreakMoveResult × Db :=
  match db.breakRecords.find? fun r => r.id = id with
  | none => (.refused .notFound none, db)
  | some row =>
    if row.kind = some .quick ∨ row.kind = none then (.refused .notPausable (some row), db)
    else if ¬ db.isRunning row then (.refused .notActive (some row), db)
    else
      (.ok { row with state := .paused } none,
        ((db.closeOwnPresence row.presenceSessionId now).closeSegments id now).updateBreak id
          (fun r => { r with state := .paused }) fun _ => rfl)

/-- `endPausedTx`: a paused break ends at its last segment end. -/
def endPausedTx (db : Db) (id : ℕ) (now : ℤ) : Option BreakRecord × Db :=
  match db.breakRecords.find? fun r => r.id = id with
  | none => (none, db)
  | some row =>
    if row.state ≠ .paused then (some row, db)
    else
      let lastEnd :=
        Spans.lastOr ((db.breakSegmentsOf id).filterMap BreakSegmentRow.endedAt) row.startedAt
      let ends := fun r : BreakRecord =>
        { r with
          state := .ended
          endedAt := some lastEnd
          takenSec := some (db.takenSecOf row now) }
      (some (ends row), db.updateBreak id ends fun _ => rfl)

/-- `resume`. -/
def resume (db : Db) (id : ℕ) (now : ℤ) (calendarDay : DateKey) : BreakMoveResult × Db :=
  match db.breakRecords.find? fun r => r.id = id with
  | none => (.refused .notFound none, db)
  | some row =>
    if row.state ≠ .paused then (.refused .notPaused (some row), db)
    else if row.windowClose.any fun close => now > close then
      let (ended, db') := db.endPausedTx id now
      (.refused .resumeWindowClosed (some (ended.getD row)), db')
    else if (db.workDayEnds calendarDay).isSome then (.refused .dayEnded (some row), db)
    else if db.findOpen.isNone then (.refused .dayNotStarted (some row), db)
    else
      match db.openPresence with
      | some p => (.refused (if p.type = .meeting then .inMeeting else .onBreak) (some row), db)
      | none =>
        let runs := fun r : BreakRecord =>
          { r with state := .active, presenceSessionId := some db.presence.next }
        (.ok (runs row) (some db.presence.next),
          (db.openSegment id row.presenceType calendarDay now).updateBreak id runs fun _ => rfl)

/-- `markEnded`. -/
def markEnded (db : Db) (id : ℕ) (t : ℤ) : Option BreakRecord × Db :=
  match db.breakRecords.find? fun r => r.id = id with
  | none => (none, db)
  | some row =>
    if row.state = .paused then db.endPausedTx id t
    else if row.state = .ended ∧ row.endedAt.isSome then (some row, db)
    else
      let db₁ := (db.closeOwnPresence row.presenceSessionId t).closeSegments id t
      let ends := fun r : BreakRecord =>
        { r with
          state := .ended
          endedAt := some ((db₁.breakEnd row).getD t)
          takenSec := some (db₁.takenSecOf row t) }
      (some (ends row), db₁.updateBreak id ends fun _ => rfl)

end Db

end RxVision
