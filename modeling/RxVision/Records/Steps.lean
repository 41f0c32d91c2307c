import RxVision.Lib.Spans
import RxVision.Records.Away
import RxVision.Worktime.SessionOverlap

/-!
# One person's records over time

The operations on breaks, meetings and away time next to the ones on the working day
(`World.step`): live at the server's clock, or replayed at an event time the interceptor admitted.
-/

namespace RxVision

/-- An operation on one person's breaks, meetings and away time, with what it is given. -/
inductive RecordOp
  | startScheduled (monthOpen : DateKey → Bool) (record : NewBreakRecord) (calendarDay : DateKey)
  | startQuick (date : DateKey) (plannedMin : ℤ)
  | pause (id : ℕ)
  | resume (id : ℕ) (calendarDay : DateKey)
  | endPausedTx (id : ℕ)
  | markEnded (id : ℕ)
  | endOpenForUser
  | switchTo (type : PresenceType) (date : DateKey)
  | startLive (monthOpen : DateKey → Bool) (approvalStatus : BreakApprovalStatus)
      (generation : AgentGeneration) (today : DateKey)
  | endLive (monthOpen : DateKey → Bool) (id : ℕ)
  | createPast (monthOpen : DateKey → Bool) (approvalStatus : BreakApprovalStatus) (start : ℤ)
      (durationSec : ℕ) (generation : AgentGeneration) (today : DateKey)
  | heal
  | submit (monthOpen : DateKey → Bool) (breakDayOf : DayKeyFn)
      (reasons : String → Option AwayReasonKind) (pending : Bool) (dto : SubmitAway)
  | unexplained (monthOpen : DateKey → Bool) (startedAt endedAt : ℤ)

/-- The tables after an operation at `now`. -/
def RecordOp.run (calendarOf : DayKeyFn) (db : Db) (now : ℤ) : RecordOp → Db
  | .startScheduled monthOpen record calendarDay =>
    (db.startScheduled monthOpen record calendarDay now).2
  | .startQuick date plannedMin => (db.startQuick ⟨date, plannedMin, now, calendarOf now⟩).2
  | .pause id => (db.pause id now).2
  | .resume id calendarDay => (db.resume id now calendarDay).2
  | .endPausedTx id => (db.endPausedTx id now).2
  | .markEnded id => (db.markEnded id now).2
  | .endOpenForUser => db.endOpenForUser now
  | .switchTo type date => db.switchTo type date now
  | .startLive monthOpen approvalStatus generation today =>
    (db.startLive calendarOf monthOpen approvalStatus generation now today).2
  | .endLive monthOpen id => (db.endLive monthOpen id now).2
  | .createPast monthOpen approvalStatus start durationSec generation today =>
    (db.createPast monthOpen approvalStatus start durationSec generation now today).2
  | .heal => db.heal.2
  | .submit monthOpen breakDayOf reasons pending dto =>
    (db.submit calendarOf breakDayOf monthOpen reasons pending dto now).2
  | .unexplained monthOpen startedAt endedAt => (db.unexplained monthOpen startedAt endedAt now).2

/-- One step around a person: of the working day, or of the records, live or replayed. -/
inductive RecordAction
  | day (a : WorldAction)
  | live (op : RecordOp)
  | replay (eventAt : ℤ) (op : RecordOp)

/-- The world after a step; `none` when the step cannot happen. -/
def World.stepRecords (calendarOf : DayKeyFn) (w : World) : RecordAction → Option World
  | .day a => w.step calendarOf a
  | .live op => some { w with db := op.run calendarOf w.db w.clock }
  | .replay eventAt op =>
    if eventAt ∈ w.begun then some { w with db := op.run calendarOf w.db eventAt } else none

/-! ## What the day leaves of the records -/

/-- The records are the same, but for presence that was closed. -/
structure Db.DayWrite (db db' : Db) : Prop where
  presence : db'.presence = db.presence ∨ ∃ t, db'.presence = (db.closeOpenPresence t).presence
  segments : db'.breakSegments = db.breakSegments
  meetings : db'.meetings = db.meetings
  away : db'.away = db.away

namespace Db

/-- Nothing changes. -/
theorem DayWrite.refl (db : Db) : DayWrite db db := ⟨Or.inl rfl, rfl, rfl, rfl⟩

/-- Writes of sessions and End Day marks only. -/
theorem DayWrite.of_eq {db db' : Db} (hp : db'.presence = db.presence)
    (hs : db'.breakSegments = db.breakSegments) (hm : db'.meetings = db.meetings)
    (ha : db'.away = db.away) : DayWrite db db' := ⟨Or.inl hp, hs, hm, ha⟩

variable (db : Db)

/-- `startDay` writes sessions and marks only. -/
theorem startDay_dayWrite (calendarOf : DayKeyFn) (startedAt now : ℤ) (source : WorkSessionSource)
    (dayOf : DayKeyFn) : DayWrite db (db.startDay calendarOf startedAt now source dayOf).2 := by
  unfold startDay
  cases db.findOpen with
  | some s => exact .refl db
  | none => exact .of_eq rfl rfl rfl rfl

/-- `ensureOpen` writes sessions and marks only, and no record of a break, a meeting
or away time. -/
theorem ensureOpenTx_dayWrite (generation : AgentGeneration) (now : ℤ) (today : DateKey) :
    DayWrite db (db.ensureOpenTx generation now today).2 := by
  unfold ensureOpenTx
  cases db.findOpen with
  | some s => exact .refl db
  | none =>
    cases generation with
    | agent31 => exact .refl db
    | legacy =>
      dsimp only
      split
      · exact .refl db
      · exact .of_eq rfl rfl rfl rfl

/-- An implicit start writes sessions and marks only. -/
theorem openImplicit_dayWrite (t : ℤ) (today : DateKey) (now : ℤ) :
    DayWrite db (db.openImplicit t today now).2 := by
  unfold openImplicit
  cases db.findOpen with
  | some s => exact .refl db
  | none =>
    dsimp only
    split
    · exact .refl db
    · exact .of_eq rfl rfl rfl rfl

/-- Closing a day closes what is open with it. -/
theorem closeDay_dayWrite (calendarOf : DayKeyFn) (s : WorkSession) (now : ℤ) (today : DateKey) :
    DayWrite db (db.closeDay calendarOf s now today).2 := by
  unfold closeDay
  dsimp only
  split_ifs <;> exact ⟨Or.inr ⟨_, rfl⟩, rfl, rfl, rfl⟩

/-- `endDay` writes sessions and marks, and closes the presence sessions that are
open at its end. -/
theorem endDay_dayWrite (calendarOf : DayKeyFn) (now : ℤ) (today : DateKey) (legacy : Bool)
    (endedSince : ℤ) : DayWrite db (db.endDay calendarOf now today legacy endedSince).2 := by
  unfold endDay
  cases db.findOpen with
  | some s => exact db.closeDay_dayWrite calendarOf s now today
  | none =>
    dsimp only
    split
    · exact .refl db
    · split
      · exact .of_eq rfl rfl rfl rfl
      · split
        · dsimp only
          split_ifs <;> exact ⟨Or.inr ⟨_, rfl⟩, rfl, rfl, rfl⟩
        · split <;> exact .refl db

/-- So does the automatic close. -/
theorem autoClose_dayWrite (session : WorkSession) (closeAt : ℤ) :
    DayWrite db (db.autoClose session closeAt).2 := by
  unfold autoClose
  split
  · exact .refl db
  · exact ⟨Or.inr ⟨_, rfl⟩, rfl, rfl, rfl⟩

/-- Extending an auto-closed session writes sessions and marks only. -/
theorem extendAutoClosed_dayWrite (session : WorkSession) (target : ℤ) :
    DayWrite db (db.extendAutoClosed session target).2 := by
  unfold extendAutoClosed
  split
  · exact .refl db
  · dsimp only
    split
    · exact .refl db
    · exact .of_eq rfl rfl rfl rfl

end Db

/-- A step of the day: the clock runs on, events are admitted behind it, and the records stay. -/
structure World.DayStep (w w' : World) : Prop where
  clock : w.clock ≤ w'.clock
  begun : ∀ e ∈ w'.begun, e ∈ w.begun ∨ e ≤ w.clock
  write : w.db.DayWrite w'.db

namespace World

variable {calendarOf : DayKeyFn} {w w' : World} {a : WorldAction}

/-- A step that writes tables of the day only. -/
theorem DayStep.of_write {db : Db} (h : w.db.DayWrite db) : DayStep w { w with db := db } :=
  ⟨le_rfl, fun _ he => Or.inl he, h⟩

/-- Every step of the day moves the clock forward or stays, and writes as `DayWrite` says. -/
theorem step_day (h : w.step calendarOf a = some w') : DayStep w w' := by
  cases a with
  | tick now =>
    simp only [step] at h
    split at h
    · next hle =>
      obtain rfl := Option.some.inj h
      exact ⟨hle, fun _ he => Or.inl he, .refl w.db⟩
    · cases h
  | read =>
    obtain rfl := Option.some.inj h
    exact ⟨le_rfl, fun _ he => Or.inl he, .refl w.db⟩
  | startDay startedAt source dayOf =>
    obtain rfl := Option.some.inj h
    exact .of_write (w.db.startDay_dayWrite calendarOf startedAt w.clock source dayOf)
  | endDay today legacy endedSince =>
    obtain rfl := Option.some.inj h
    exact .of_write (w.db.endDay_dayWrite calendarOf w.clock today legacy endedSince)
  | ensureOpen generation today =>
    obtain rfl := Option.some.inj h
    exact .of_write (w.db.ensureOpenTx_dayWrite generation w.clock today)
  | openImplicit t today =>
    obtain rfl := Option.some.inj h
    exact .of_write (w.db.openImplicit_dayWrite t today w.clock)
  | autoClose session shiftEnd graceMin judgedAt lastInput =>
    simp only [step] at h
    split at h
    · obtain rfl := Option.some.inj h
      exact .of_write (w.db.autoClose_dayWrite session _)
    · cases h
  | extendAutoClosed session shiftEnd graceMin t =>
    simp only [step] at h
    split at h
    · obtain rfl := Option.some.inj h
      exact .of_write (w.db.extendAutoClosed_dayWrite session t)
    · cases h
  | begin eventAt last shiftEnd graceMin =>
    simp only [step] at h
    split at h
    · next htime =>
      obtain ⟨-, hlt, -⟩ := eventTime_replay htime rfl
      have hbegun : ∀ e ∈ eventAt :: w.begun, e ∈ w.begun ∨ e ≤ w.clock := by
        intro e he
        rcases List.mem_cons.1 he with rfl | he
        · exact Or.inr hlt.le
        · exact Or.inl he
      split_ifs at h
      · split at h
        · obtain rfl := Option.some.inj h
          exact ⟨le_rfl, hbegun, .of_eq rfl rfl rfl rfl⟩
        · obtain rfl := Option.some.inj h
          exact ⟨le_rfl, hbegun, .refl w.db⟩
      · obtain rfl := Option.some.inj h
        exact ⟨le_rfl, hbegun, .refl w.db⟩
    · cases h
  | replayStartDay eventAt startedAt dayOf =>
    simp only [step] at h
    split at h
    · obtain rfl := Option.some.inj h
      exact .of_write (w.db.startDay_dayWrite calendarOf startedAt eventAt .replay dayOf)
    · cases h
  | replayEndDay eventAt today legacy endedSince =>
    simp only [step] at h
    split at h
    · obtain rfl := Option.some.inj h
      exact .of_write (w.db.endDay_dayWrite calendarOf eventAt today legacy endedSince)
    · cases h
  | complete eventAt =>
    simp only [step] at h
    split at h
    · obtain rfl := Option.some.inj h
      exact ⟨le_rfl, fun _ he => Or.inl he, .refl w.db⟩
    · cases h

end World

end RxVision
