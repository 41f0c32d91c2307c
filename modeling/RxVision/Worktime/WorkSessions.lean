import RxVision.Database
import RxVision.Worktime.Intervals

/-!
# Work sessions (`prisma-work-session.repository.ts`, `auto-close.ts`)

The transactions that open, close and move one person's work sessions and End Day marks. Each runs
under the person's row lock, so each is one function from the tables to its answer and the new
tables. `calendarOf` is `dateKeyInZone(_, appTimezone())`; `dayOf` is the person's working-day
function (`DayKeyFn`), which a call looks up before its transaction.
-/

namespace RxVision

/-- The generation of the calling agent. -/
inductive AgentGeneration
  | agent31 | legacy
  deriving DecidableEq, Repr

/-- `DayKeyFn`: the working day an instant belongs to. -/
abbrev DayKeyFn := ℤ → DateKey

/-- `dateKeyInZone(_, 'UTC')`: the calendar of the examples. -/
def utcDay : DayKeyFn := fun t => ⟨t / 86400000⟩

/-- Why a closed day refuses an action. -/
inductive DayClosedCode
  | dayNotStarted | dayEnded
  deriving DecidableEq, Repr

/-- `EnsureOpenResult`. -/
inductive EnsureOpenResult
  | ok (session : WorkSession) (implicit : Bool)
  | refused (code : DayClosedCode)
  deriving DecidableEq, Repr

/-- `StartDayTxResult`. -/
structure StartDayTxResult where
  opened : Bool
  resumed : Bool
  session : WorkSession
  deriving DecidableEq, Repr

/-- `EndDayTxResult`. -/
inductive EndDayTxResult
  | closed (session : WorkSession) (date : DateKey) (endedAt : ℤ) (newlyEnded : Bool)
  | alreadyEnded (date : DateKey) (endedAt : ℤ)
  | marked (date : DateKey) (endedAt : ℤ) (newlyEnded : Bool)
  | notStarted (date : DateKey)
  deriving DecidableEq, Repr

/-- `AutoCloseTxResult`. -/
structure AutoCloseTxResult where
  closed : Bool
  newlyEnded : Bool := false
  droppedSkips : ℕ := 0
  reclosed : Bool := false
  deriving DecidableEq, Repr

/-- Whole seconds between two instants, never negative. -/
def elapsedSec (start stop : ℤ) : ℤ := max 0 (toSec (stop - start))

namespace WorkSession

/-- The session has no end yet. -/
def isOpen (s : WorkSession) : Bool := s.endedAt.isNone

/-- A session without an end is open. -/
@[simp] theorem isOpen_iff {s : WorkSession} : s.isOpen = true ↔ s.endedAt = none := by
  simp [isOpen]

/-- One with an end is not. -/
@[simp] theorem isOpen_eq_false {s : WorkSession} : s.isOpen = false ↔ ∃ e, s.endedAt = some e := by
  simp [isOpen, Option.isNone_eq_false_iff, Option.isSome_iff_exists]

end WorkSession

namespace Db

/-! ## End Day marks -/

/-- `markDayEnded`: sets the day's End Day mark when unset. -/
def markDayEnded (db : Db) (date : DateKey) (t : ℤ) : Db :=
  { db with
    workDayEnds := fun d => if d = date ∧ db.workDayEnds d =
      none then some t else db.workDayEnds d }

/-- Clears the End Day mark of the days that meet `days`. -/
def clearDayEnds (db : Db) (days : DateKey → Bool) : Db :=
  { db with workDayEnds := fun d => if days d then none else db.workDayEnds d }

/-- An End Day mark leaves the sessions. -/
@[simp] theorem markDayEnded_workSessions (db : Db) (date : DateKey) (t : ℤ) :
    (db.markDayEnded date t).workSessions = db.workSessions := rfl

/-- So does clearing marks. -/
@[simp] theorem clearDayEnds_workSessions (db : Db) (days : DateKey → Bool) :
    (db.clearDayEnds days).workSessions = db.workSessions := rfl

/-! ## Presence -/

/-- `closeOpenPresence`: closes every open break, lunch or meeting at `t`, never before it
started. -/
def closeOpenPresence (db : Db) (t : ℤ) : Db :=
  { db with
    presence := db.presence.updateMany (fun p => p.endedAt.isNone)
      (fun p =>
        let stop := if t < p.startedAt then p.startedAt else t
        { p with endedAt := some stop, durationSec := some (elapsedSec p.startedAt stop) })
      fun _ => rfl }

/-- Closing presence sessions leaves the sessions. -/
@[simp] theorem closeOpenPresence_workSessions (db : Db) (t : ℤ) :
    (db.closeOpenPresence t).workSessions = db.workSessions := rfl

/-- It leaves the marks. -/
@[simp] theorem closeOpenPresence_workDayEnds (db : Db) (t : ℤ) :
    (db.closeOpenPresence t).workDayEnds = db.workDayEnds := rfl

/-! ## Sessions -/

/-- `findOpen`. -/
def findOpen (db : Db) : Option WorkSession := db.workSessions.find? WorkSession.isOpen

/-- The end of the session that ended last. -/
def lastEnd (db : Db) : Option ℤ :=
  (db.workSessions.findLast? (fun s => s.endedAt.isSome) fun s => s.endedAt.getD 0).bind
    WorkSession.endedAt

/-- The start `createSessionTx` gives: `startedAt`, moved up to the last end, moved
down to `now`. -/
def sessionStart (db : Db) (startedAt now : ℤ) : ℤ :=
  let start := match db.lastEnd with
    | some e => if e > startedAt then e else startedAt
    | none => startedAt
  if start > now then now else start

/-- `createSessionTx`: the row it creates and the tables with it. -/
def createSessionTx (db : Db) (startedAt now : ℤ) (source : WorkSessionSource) (dayOf : DayKeyFn) :
    WorkSession × Db :=
  let start := db.sessionStart startedAt now
  let row : ℕ → WorkSession := fun id => { id, date := dayOf start, startedAt := start, source }
  (row db.workSessions.next, { db with workSessions := db.workSessions.create row fun _ => rfl })

/-- Ends the session `id` at `t`. -/
def endSession (db : Db) (id : ℕ) (t : ℤ) (reason : WorkSessionEndReason) : Db :=
  { db with
    workSessions := db.workSessions.updateMany (fun s => s.id = id)
      (fun s => { s with endedAt := some t, endReason := some reason }) fun _ => rfl }

/-- Opening a session leaves the marks. -/
@[simp] theorem createSessionTx_workDayEnds (db : Db) (startedAt now : ℤ)
    (source : WorkSessionSource) (dayOf : DayKeyFn) :
    (db.createSessionTx startedAt now source dayOf).2.workDayEnds = db.workDayEnds := rfl

/-- So does ending one. -/
@[simp] theorem endSession_workDayEnds (db : Db) (id : ℕ) (t : ℤ) (reason : WorkSessionEndReason) :
    (db.endSession id t reason).workDayEnds = db.workDayEnds := rfl

/-- The number of sessions dated `date`. -/
def countSessionsOn (db : Db) (date : DateKey) : ℕ :=
  (db.workSessions.rows.filter fun s => s.date = date).length

/-! ## The transactions -/

/-- `ensureOpenTx`: the day must be open for an action; a legacy caller gets an implicit session. -/
def ensureOpenTx (db : Db) (generation : AgentGeneration) (now : ℤ) (today : DateKey) :
    EnsureOpenResult × Db :=
  match db.findOpen with
  | some s => (.ok s false, db)
  | none =>
    match generation with
    | .legacy =>
      if (db.workDayEnds today).isSome then (.refused .dayEnded, db)
      else
        let (created, db') := db.createSessionTx now now .legacy fun _ => today
        (.ok created true, db')
    | .agent31 =>
      (.refused (if db.countSessionsOn today > 0 then .dayEnded else .dayNotStarted), db)

/-- `startDay`. -/
def startDay (calendarOf : DayKeyFn) (db : Db) (startedAt now : ℤ) (source : WorkSessionSource)
    (dayOf : DayKeyFn) : StartDayTxResult × Db :=
  match db.findOpen with
  | some s => (⟨false, false, s⟩, db)
  | none =>
    let (session, db') := db.createSessionTx startedAt now source dayOf
    let earlier := (db'.workSessions.rows.filter fun s =>
      s.date = session.date ∧ s.id ≠ session.id).length
    (⟨true, earlier > 0, session⟩,
      db'.clearDayEnds fun d => d = session.date ∨ d = calendarOf now)

/-- The part of `endDay` with a session open: it closes, and the days it is dated by, it ran into
and the calendar day are marked. -/
def closeDay (calendarOf : DayKeyFn) (db : Db) (s : WorkSession) (now : ℤ) (today : DateKey) :
    EndDayTxResult × Db :=
  let calendar := calendarOf now
  let now := if now < s.startedAt then s.startedAt else now
  let closed := { s with endedAt := some now, endReason := some .user }
  let db₁ := (db.endSession s.id now .user).closeOpenPresence now
  let newlyEnded := (db₁.workDayEnds s.date).isNone
  let db₂ := db₁.markDayEnded s.date now
  let db₃ := if today ≠ s.date then db₂.markDayEnded today now else db₂
  let db₄ := if calendar ≠ s.date then db₃.markDayEnded calendar now else db₃
  (.closed closed s.date now newlyEnded, db₄)

/-- `endDay`. -/
def endDay (calendarOf : DayKeyFn) (db : Db) (now : ℤ) (today : DateKey) (legacy : Bool)
    (endedSince : ℤ) : EndDayTxResult × Db :=
  match db.findOpen with
  | some s => db.closeDay calendarOf s now today
  | none =>
    match db.workDayEnds today with
    | some e => (.alreadyEnded today e, db)
    | none =>
      match (db.workSessions.findLast? (fun s => s.date = today ∧ s.endedAt.isSome)
          fun s => s.endedAt.getD 0).bind WorkSession.endedAt with
      | some e => (.alreadyEnded today e, db.markDayEnded today e)
      | none =>
        if legacy then
          let calendar := calendarOf now
          let db₁ := db.closeOpenPresence now
          let newlyEnded := (db₁.workDayEnds today).isNone
          let db₂ := db₁.markDayEnded today now
          (.marked today now newlyEnded,
            if calendar ≠ today then db₂.markDayEnded calendar now else db₂)
        else
          -- pressed again after midnight, or after a night shift: the day it ended
          match db.workSessions.findLast? (fun s => s.endedAt.any fun e => e ≥ endedSince)
              fun s => s.endedAt.getD 0 with
          | some recent => (.alreadyEnded recent.date (recent.endedAt.getD 0), db)
          | none => (.notStarted today, db)

/-- `openImplicit`: `now` is the server's clock. -/
def openImplicit (db : Db) (t : ℤ) (today : DateKey) (now : ℤ) : Option WorkSession × Db :=
  match db.findOpen with
  | some _ => (none, db)
  | none =>
    if (db.workDayEnds today).isSome then (none, db)
    else
      let (created, db') := db.createSessionTx t now .legacy fun _ => today
      (some created, db')

/-- The auto-skips an automatic close at `t` drops: owed only because the session was still open,
and not decided yet. -/
def isDroppedSkip (date : DateKey) (t : ℤ) (r : BreakRecord) : Bool :=
  r.date = date ∧ r.outcome = .autoSkipped ∧ r.scheduledStart.any (fun s => s > t) ∧
    r.approvalStatus ≠ .approved ∧ r.approvalStatus ≠ .rejected

/-- `autoClose`: `session` is the row as it was read, `closeAt` where the automatic close puts its
end. -/
def autoClose (db : Db) (session : WorkSession) (closeAt : ℤ) : AutoCloseTxResult × Db :=
  match db.workSessions.find? fun s => s.id = session.id ∧ s.isOpen with
  | none => ({ closed := false }, db)
  | some before =>
    let t := if closeAt < before.startedAt then before.startedAt else closeAt
    let db₁ := (db.endSession session.id t .autoClosed).closeOpenPresence t
    let dropped := isDroppedSkip session.date t
    let db₂ := { db₁ with breakRecords := db₁.breakRecords.deleteMany dropped }
    let newlyEnded := (db₂.workDayEnds session.date).isNone
    ({ closed := true
       newlyEnded
       droppedSkips := (db₁.breakRecords.rows.filter dropped).length
       reclosed := before.endReason = some .autoClosed },
      db₂.markDayEnded session.date t)

/-- `extendAutoClosed`: moves an automatic close and its mark from where `session` was read to end
to `target`. -/
def extendAutoClosed (db : Db) (session : WorkSession) (target : ℤ) : Bool × Db :=
  match session.endedAt with
  | none => (false, db)
  | some stop =>
    let moves := fun s : WorkSession =>
      s.id = session.id ∧ s.endReason = some .autoClosed ∧ s.endedAt = some stop
    match db.workSessions.find? fun s => moves s with
    | none => (false, db)
    | some _ =>
      (true,
        { db with
          workSessions := db.workSessions.updateMany (fun s => moves s)
            (fun s => { s with endedAt := some target, source := .replay }) fun _ => rfl
          workDayEnds := fun d =>
            if d = session.date ∧ db.workDayEnds d = some stop then some target
            else db.workDayEnds d })

end Db

/-! ## Where a session starts (`meetings.ts`) -/

/-- `START_DAY_BACKDATE_MS`: how far back Start Day may be dated by the agent. -/
def START_DAY_BACKDATE_MS : ℤ := 10 * 60000

/-- `boundedStartedAt`: a start in the last 10 minutes, else now; `raw` is the parsed time. -/
def boundedStartedAt (raw : Option ℤ) (now : ℤ) : ℤ :=
  match raw with
  | none => now
  | some t => if t > now ∨ now - t > START_DAY_BACKDATE_MS then now else t

/-- Start Day is dated at most 10 minutes back, and never ahead. -/
theorem boundedStartedAt_mem (raw : Option ℤ) (now : ℤ) :
    now - START_DAY_BACKDATE_MS ≤ boundedStartedAt raw now ∧ boundedStartedAt raw now ≤ now := by
  have hpos : 0 ≤ START_DAY_BACKDATE_MS := by decide
  cases raw with
  | none => exact ⟨by simp only [boundedStartedAt]; omega, le_rfl⟩
  | some t =>
    simp only [boundedStartedAt]
    split <;> omega

/-! ## Where an automatic close ends -/

/-- `NO_SHIFT_SESSION_MS`. -/
def NO_SHIFT_SESSION_MS : ℤ := 14 * 60 * 60000

/-- `latestEndOf`: the end of the shift (none: 14 hours after the start) and a grace. -/
def latestEndOf (startedAt : ℤ) (shiftEnd : Option ℤ) (autoCloseAfterShiftEndMin : ℤ) : ℤ :=
  let after := autoCloseAfterShiftEndMin * 60000
  let rule := match shiftEnd with
    | some e => e + after
    | none => startedAt + NO_SHIFT_SESSION_MS
  max rule (startedAt + after)

/-- The bounds of the organisation's auto-close allowance, in minutes (`settings.rules.ts`). -/
def autoCloseAfterShiftEndMinRange : ℤ × ℤ := (30, 720)

/-- `isStale`. -/
def isStale (latestEnd now : ℤ) : Bool := now > latestEnd

/-- `autoCloseAt`: the last input inside the session, else its start. -/
def autoCloseAt (startedAt latestEnd : ℤ) (lastInput : Option ℤ) : ℤ :=
  match lastInput with
  | none => startedAt
  | some t => min (max t startedAt) latestEnd

end RxVision
