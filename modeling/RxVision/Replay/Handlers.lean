import RxVision.Records.Breaks
import RxVision.Replay.Server
import RxVision.Worktime.CloseOrder

/-!
# Handlers behind the interceptor (`presence.controller.ts`, `workday.controller.ts`)

Two replay routes as handlers of `Request`, for a 4.0 agent. `POST /presence/start` opens a presence
session whenever the day is open, whatever is open already (`StartPresenceUseCase.execute_ok`);
`POST /breaks/start` of a break that the person's day does not have is refused
(`WorkdayBreaksController.startUnscheduled_refuses`). Both first ask that the day is open, and close
a stale session on the way. What the routes publish (`PresenceStartedEvent`, the live update) is
left out: the subscribers write nothing for a meeting.
-/

namespace RxVision

/-- `dayClosedError`. -/
def dayClosedError : DayClosedCode → Answer
  | .dayNotStarted => conflict "Your day has not started. Press Start Day first." "DAY_NOT_STARTED"
  | .dayEnded =>
    conflict "Your working day has already ended. Press Start Day to resume." "DAY_ENDED"
where
  /-- `ConflictError`. -/
  conflict (message code : String) : Answer := ⟨409, .error message code message⟩

/-- What a handler needs of the person besides their tables: how long a session lasts at most, the
samples stored so far, and the working day of an instant. -/
structure PersonContext where
  rules : CloseRules
  samples : Samples
  todayFor : DayKeyFn

variable (ctx : PersonContext)

/-- `WorkSessionsService.ensureOpen`. -/
def WorkSessionsService.ensureOpen (generation : AgentGeneration) (now : ℤ) (db : Db) :
    EnsureOpenResult × Db :=
  (closeStale ctx.rules db ctx.samples now).ensureOpenTx generation now (ctx.todayFor now)

/-- `PresenceMapper.currentFrom`: the status and its session, of the fields that can differ. -/
def currentFrom (status : String) (sessionId : ℕ) : Body :=
  .value (status ++ " " ++ toString sessionId)

/-- `StartPresenceUseCase.execute` for an agent with work sessions. -/
def StartPresenceUseCase.execute (type : PresenceType) (status : String) (now : ℤ) (db : Db) :
    Outcome × Db :=
  match WorkSessionsService.ensureOpen ctx .agent31 now db with
  | (.refused code, db) => (.error (dayClosedError code), db)
  | (.ok session _, db) =>
    (.ok 200 (currentFrom status db.presence.next), db.switchTo type session.date now)

/-- `POST /breaks/start` for a kind of break that the person's day does not have. -/
def WorkdayBreaksController.startUnscheduled (label : String) (now : ℤ) (db : Db) : Outcome × Db :=
  match WorkSessionsService.ensureOpen ctx .agent31 now db with
  | (.refused code, db) => (.error (dayClosedError code), db)
  | (.ok _ _, db) =>
    (.error (dayClosedError.conflict ("No " ++ label ++ " is scheduled for you today.")
      "BREAK_NOT_SCHEDULED"), db)

section Lemmas

variable {ctx} {type : PresenceType} {status : String} {now : ℤ} {db : Db}

/-- An automatic close creates no presence session. -/
theorem WorkSessionsService.closeStale_presence_next (rules : CloseRules) (samples : Samples) :
    (closeStale rules db samples now).presence.next = db.presence.next := by
  unfold closeStale Db.autoClose
  split
  · rfl
  · dsimp only
    split
    · split <;> rfl
    · rfl

/-- For such an agent the check of the day writes no more than a stale close. -/
theorem WorkSessionsService.ensureOpen_ok {s : WorkSession} {implicit : Bool} {db' : Db}
    (h : ensureOpen ctx .agent31 now db = (.ok s implicit, db')) :
    db' = closeStale ctx.rules db ctx.samples now := by
  unfold ensureOpen Db.ensureOpenTx at h
  split at h
  · exact (Prod.mk.inj h).2.symm
  · cases h

/-- While a session is open that is not stale, the check of the day writes nothing. -/
theorem WorkSessionsService.ensureOpen_of_open {generation : AgentGeneration} {s : WorkSession}
    (hopen : db.findOpen = some s) (hfresh : now ≤ ctx.rules.latestEndOfSession s) :
    ensureOpen ctx generation now db = (.ok s false, db) := by
  have hclose : closeStale ctx.rules db ctx.samples now = db := by
    simp [closeStale, hopen, isStale, not_lt.2 hfresh]
  simp only [ensureOpen, hclose, Db.ensureOpenTx, hopen]

/-- A status that is started is a presence session more: what is open already is closed, never
compared with. -/
theorem StartPresenceUseCase.execute_ok {code : ℕ} {body : Body}
    (h : (execute ctx type status now db).1 = .ok code body) :
    code = 200 ∧ ∃ p ∈ (execute ctx type status now db).2.presence,
      p ∉ db.presence ∧ p.type = type ∧ p.startedAt = now ∧ p.endedAt = none := by
  unfold execute at h ⊢
  split at h
  · cases h
  · next session implicit db' hopen =>
    obtain ⟨rfl, -⟩ := Outcome.ok.inj h
    have hnext : db'.presence.next = db.presence.next := by
      rw [WorkSessionsService.ensureOpen_ok hopen, WorkSessionsService.closeStale_presence_next]
    have hopened : ⟨db'.presence.next, type, session.date, now, none, none⟩ ∈
        (db'.switchTo type session.date now).presence := Table.mem_create.2 (Or.inr rfl)
    exact ⟨rfl, _, hopened, fun hold => Table.key_ne_next hold hnext, rfl, rfl, rfl⟩

/-- Whatever it answers is stored for the event: a refusal is a 409. -/
theorem StartPresenceUseCase.execute_stored :
    (execute ctx type status now db).1.stored ≠ none := by
  unfold execute
  split
  · next code _ _ => cases code <;> nofun
  · nofun

/-- So every run of the handler that is not refused changes the tables. -/
theorem StartPresenceUseCase.execute_ne {code : ℕ} {body : Body}
    (h : (execute ctx type status now db).1 = .ok code body) :
    (execute ctx type status now db).2 ≠ db := by
  obtain ⟨-, p, hp, hnew, -⟩ := execute_ok h
  intro heq
  rw [heq] at hp
  exact hnew hp

/-- An unscheduled break is refused, whether the day is open or not. -/
theorem WorkdayBreaksController.startUnscheduled_refuses (label : String) (now : ℤ) (db : Db) :
    ∃ a, (startUnscheduled ctx label now db).1 = .error a ∧ a.status = 409 := by
  unfold startUnscheduled
  split
  · next code _ _ => exact ⟨_, rfl, by cases code <;> rfl⟩
  · exact ⟨_, rfl, rfl⟩

/-- It writes nothing while a session is open that is not stale. -/
theorem WorkdayBreaksController.startUnscheduled_db {s : WorkSession} (label : String)
    (hopen : db.findOpen = some s) (hfresh : now ≤ ctx.rules.latestEndOfSession s) :
    (startUnscheduled ctx label now db).2 = db := by
  rw [startUnscheduled, WorkSessionsService.ensureOpen_of_open hopen hfresh]

end Lemmas

/-! ## The requests of the examples -/

/-- A person of UTC without a shift, and with no samples. -/
def freelancer : PersonContext := ⟨⟨fun _ => none, 30, by decide⟩, .empty, utcDay⟩

/-- The meeting status, started at `t`. -/
def meetingStart (t : ℤ) : Request :=
  offlineRequest ["presence", "start"] t
    (StartPresenceUseCase.execute freelancer .meeting "MEETING")

/-- The session of a day opened at 19:00. -/
def eveningSession : WorkSession := ⟨0, ⟨0⟩, 68400000, none, none, .agent⟩

/-- The tables of that day. -/
def eveningDay : Db :=
  (Db.empty.startDay utcDay eveningSession.startedAt eveningSession.startedAt .agent utcDay).2

example : eveningDay.workSessions.rows = [eveningSession] := rfl

end RxVision
