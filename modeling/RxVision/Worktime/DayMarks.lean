import RxVision.Lib.Runs
import RxVision.Worktime.SessionSteps

/-!
# Sessions and End Day marks

Runs of the six transactions that write `work_sessions` and `work_day_ends`, with any times and day
keys (`DayOp.step`). `DayInv` is what every run keeps: one open session, ends after starts, and no
End Day mark on the day of the open session (`dayInv_of_run`).

The second half follows the mark of one day. `endDay` marks the day of the session, and the working
day and the calendar day it is pressed on; only a Start Day clears a mark (`DayOp.Clears`). So the
day a session ran into stays closed for agents without Start Day until somebody presses it
(`nextDay_closed_until_startDay`).
-/

namespace RxVision

/-- A transaction on one person's sessions, with its arguments. `session` is a row as it was read at
some earlier time. -/
inductive DayOp
  | startDay (startedAt now : ℤ) (source : WorkSessionSource) (dayOf : DayKeyFn)
  | endDay (now : ℤ) (today : DateKey) (legacy : Bool) (endedSince : ℤ)
  | ensureOpen (generation : AgentGeneration) (now : ℤ) (today : DateKey)
  | openImplicit (t : ℤ) (today : DateKey) (now : ℤ)
  | autoClose (session : WorkSession) (closeAt : ℤ)
  | extendAutoClosed (session : WorkSession) (target : ℤ)

namespace DayOp

/-- The tables after a transaction. The service extends a close only to a later instant. -/
def step (calendarOf : DayKeyFn) (db : Db) : DayOp → Option Db
  | .startDay startedAt now source dayOf =>
    some (db.startDay calendarOf startedAt now source dayOf).2
  | .endDay now today legacy endedSince =>
    some (db.endDay calendarOf now today legacy endedSince).2
  | .ensureOpen generation now today => some (db.ensureOpenTx generation now today).2
  | .openImplicit t today now => some (db.openImplicit t today now).2
  | .autoClose session closeAt => some (db.autoClose session closeAt).2
  | .extendAutoClosed session target =>
    if session.endedAt.any fun stop => stop < target then
      some (db.extendAutoClosed session target).2
    else none

/-- The instant a transaction acts at. -/
def now : DayOp → ℤ
  | .startDay _ now _ _ | .endDay now _ _ _ | .ensureOpen _ now _ | .openImplicit _ _ now => now
  | .autoClose _ closeAt => closeAt
  | .extendAutoClosed _ target => target

variable {calendarOf : DayKeyFn} {db db' : Db} {op : DayOp}

/-- Every transaction of the day is a step of the sessions, of one of the kinds that
`SessionStep` has. -/
theorem sessionStep (h : op.step calendarOf db = some db') :
    ∃ kind, SessionStep op.now db db' kind := by
  cases op with
  | startDay startedAt now source dayOf =>
    obtain rfl := Option.some.inj h
    exact ⟨_, db.startDay_step calendarOf startedAt now source dayOf⟩
  | endDay now today legacy endedSince =>
    obtain rfl := Option.some.inj h
    exact ⟨_, db.endDay_step calendarOf now today legacy endedSince⟩
  | ensureOpen generation now today =>
    obtain rfl := Option.some.inj h
    exact ⟨_, db.ensureOpenTx_step generation now today⟩
  | openImplicit t today now =>
    obtain rfl := Option.some.inj h
    exact ⟨_, db.openImplicit_step t today now⟩
  | autoClose session closeAt =>
    obtain rfl := Option.some.inj h
    exact ⟨_, db.autoClose_step session closeAt⟩
  | extendAutoClosed session target =>
    simp only [step] at h
    split at h
    · next hlt =>
      obtain rfl := Option.some.inj h
      refine ⟨_, db.extendAutoClosed_step session target fun stop hstop => ?_⟩
      simpa [hstop] using hlt
    · cases h

end DayOp

/-! ## The invariant -/

/-- No End Day mark stands on the day of an open session. -/
def Db.Unmarked (db : Db) : Prop :=
  ∀ s ∈ db.workSessions, s.endedAt = none → db.workDayEnds s.date = none

/-- At most one session is open, closed sessions end at or after their start, and the day of an open
session carries no End Day mark. -/
structure DayInv (db : Db) : Prop extends SessionInv db where
  unmarked : db.Unmarked

/-- No day is marked and none has a session. -/
theorem DayInv.empty : DayInv Db.empty :=
  ⟨.empty, fun s hs => absurd hs (Table.not_mem_empty s)⟩

namespace Db

variable {db : Db} {s : WorkSession}

/-- With every session closed there is nothing to be unmarked. -/
theorem unmarked_of_closed (h : db.findOpen = none) : db.Unmarked := by
  intro s hs hopen
  obtain ⟨e, he⟩ := findOpen_eq_none.1 h s hs
  rw [hopen] at he
  cases he

/-- Ending the open session leaves none open, since there is only one. -/
theorem findOpen_endSession (hi : SessionInv db) (hs : s ∈ db.workSessions)
    (hopen : s.endedAt = none) {db' : Db} {t : ℤ} {reason : WorkSessionEndReason}
    (h : db'.workSessions = (db.endSession s.id t reason).workSessions) : db'.findOpen = none := by
  rw [findOpen_eq_none, h]
  intro r hr
  rcases (mem_endSession hs).1 hr with ⟨hr, hne⟩ | rfl
  · cases he : r.endedAt with
    | none => exact absurd (hi.oneOpen r hr s hs he hopen) hne
    | some e => exact ⟨e, rfl⟩
  · exact ⟨t, rfl⟩

/-- A session created while none is open is the only one whose day must be without a mark. -/
theorem unmarked_createSessionTx {startedAt now : ℤ} {source : WorkSessionSource}
    (dayOf : DayKeyFn) {db' : Db} (hclosed : db.findOpen = none)
    (h : db'.workSessions = (db.createSessionTx startedAt now source dayOf).2.workSessions)
    (hmark : db'.workDayEnds (dayOf (db.sessionStart startedAt now)) = none) : db'.Unmarked := by
  intro s hs hopen
  rw [h] at hs
  rcases Table.mem_create.1 hs with hs | rfl
  · obtain ⟨e, he⟩ := findOpen_eq_none.1 hclosed s hs
    rw [hopen] at he
    cases he
  · exact hmark

/-- `startDay` clears the mark of the day it opens. -/
theorem startDay_unmarked (calendarOf : DayKeyFn) (startedAt now : ℤ) (source : WorkSessionSource)
    (dayOf : DayKeyFn) (hi : DayInv db) :
    (db.startDay calendarOf startedAt now source dayOf).2.Unmarked := by
  unfold startDay
  cases h : db.findOpen with
  | some s => exact hi.unmarked
  | none => exact unmarked_createSessionTx dayOf h rfl (by simp [clearDayEnds, createSessionTx])

/-- `ensureOpenTx` opens no day with a mark: it refuses a day that has ended. -/
theorem ensureOpenTx_unmarked (generation : AgentGeneration) (now : ℤ) (today : DateKey)
    (hi : DayInv db) : (db.ensureOpenTx generation now today).2.Unmarked := by
  unfold ensureOpenTx
  cases h : db.findOpen with
  | some s => exact hi.unmarked
  | none =>
    cases generation with
    | agent31 => exact hi.unmarked
    | legacy =>
      simp only
      split
      · exact hi.unmarked
      · next hmark =>
        refine unmarked_createSessionTx (fun _ => today) h rfl ?_
        simpa using hmark

/-- `openImplicit` opens no day with a mark: it leaves a day that has ended closed. -/
theorem openImplicit_unmarked (t : ℤ) (today : DateKey) (now : ℤ) (hi : DayInv db) :
    (db.openImplicit t today now).2.Unmarked := by
  unfold openImplicit
  cases h : db.findOpen with
  | some s => exact hi.unmarked
  | none =>
    simp only
    split
    · exact hi.unmarked
    · next hmark =>
      refine unmarked_createSessionTx (fun _ => today) h rfl ?_
      simpa using hmark

/-- After `endDay` no session is open, whether or not one was open before. -/
theorem findOpen_endDay (calendarOf : DayKeyFn) (now : ℤ) (today : DateKey) (legacy : Bool)
    (endedSince : ℤ) (hi : SessionInv db) :
    (db.endDay calendarOf now today legacy endedSince).2.findOpen = none := by
  unfold endDay
  cases h : db.findOpen with
  | some s =>
    obtain ⟨hs, hopen⟩ := findOpen_eq_some h
    exact findOpen_endSession hi hs hopen (closeDay_workSessions calendarOf db s now today)
  | none =>
    simp only
    split
    · exact h
    · split
      · exact h
      · split
        · split <;> exact h
        · split <;> exact h

/-- `autoClose` leaves no session open, or changes nothing, so no open session's day is marked. -/
theorem autoClose_unmarked (session : WorkSession) (closeAt : ℤ) (hi : DayInv db) :
    (db.autoClose session closeAt).2.Unmarked := by
  unfold autoClose
  cases h : db.workSessions.find? fun s => s.id = session.id ∧ s.isOpen with
  | none => exact hi.unmarked
  | some s =>
    have hs := Table.mem_of_find? h
    have hspec := Table.find?_spec h
    simp only [WorkSession.isOpen_iff, decide_eq_true_eq] at hspec
    rw [← hspec.1]
    exact unmarked_of_closed (findOpen_endSession hi.toSessionInv hs hspec.2 rfl)

/-- `extendAutoClosed` moves marks and sets none where there was none. -/
theorem extendAutoClosed_workDayEnds_eq_none (session : WorkSession) (target : ℤ) (d : DateKey) :
    (db.extendAutoClosed session target).2.workDayEnds d = none ↔ db.workDayEnds d = none := by
  unfold extendAutoClosed
  split
  · rfl
  · simp only
    split
    · rfl
    · simp only
      split
      · next hd => simp [hd.2]
      · rfl

/-- A session that is open after `extendAutoClosed` was open before, and its day was
without a mark. -/
theorem extendAutoClosed_unmarked (session : WorkSession) (target : ℤ) (hi : DayInv db) :
    (db.extendAutoClosed session target).2.Unmarked := by
  intro s hs hopen
  rw [extendAutoClosed_workDayEnds_eq_none]
  rcases db.extendAutoClosed_cases session target with h | ⟨s₀, -, stop, -, -, -, -, hmem⟩
  · rw [h] at hs
    exact hi.unmarked s hs hopen
  · rcases (hmem s).1 hs with ⟨hs, -⟩ | rfl
    · exact hi.unmarked s hs hopen
    · cases hopen

end Db

/-- Every transaction keeps the invariant: the sessions by `SessionStep`, the marks by the lemma
of the transaction. -/
theorem DayOp.step_inv {calendarOf : DayKeyFn} {db db' : Db} {op : DayOp} (hi : DayInv db)
    (h : op.step calendarOf db = some db') : DayInv db' := by
  obtain ⟨kind, hstep⟩ := op.sessionStep h
  refine ⟨hstep.inv hi.toSessionInv, ?_⟩
  cases op with
  | startDay startedAt now source dayOf =>
    obtain rfl := Option.some.inj h
    exact Db.startDay_unmarked calendarOf startedAt now source dayOf hi
  | endDay now today legacy endedSince =>
    obtain rfl := Option.some.inj h
    exact Db.unmarked_of_closed
      (Db.findOpen_endDay calendarOf now today legacy endedSince hi.toSessionInv)
  | ensureOpen generation now today =>
    obtain rfl := Option.some.inj h
    exact Db.ensureOpenTx_unmarked generation now today hi
  | openImplicit t today now =>
    obtain rfl := Option.some.inj h
    exact Db.openImplicit_unmarked t today now hi
  | autoClose session closeAt =>
    obtain rfl := Option.some.inj h
    exact Db.autoClose_unmarked session closeAt hi
  | extendAutoClosed session target =>
    simp only [step] at h
    split at h
    · obtain rfl := Option.some.inj h
      exact Db.extendAutoClosed_unmarked session target hi
    · cases h

/-- In every reachable state at most one session is open, closed sessions end at or after their
start, and the day of an open session carries no End Day mark. -/
theorem dayInv_of_run {calendarOf : DayKeyFn} {ops : List DayOp} {db : Db}
    (h : Runs.run (DayOp.step calendarOf) Db.empty ops = some db) : DayInv db :=
  Runs.invariant_run DayInv (fun _ _ _ hi _ hs => DayOp.step_inv hi hs) DayInv.empty
    (Runs.Meets.of_forall (fun _ _ => trivial) ops Db.empty) h

/-- A day is opened, ended after an hour and resumed an hour later. -/
def resumedDay : List DayOp :=
  [.startDay 0 0 .agent utcDay, .endDay 3600000 ⟨0⟩ false 0,
    .startDay 7200000 7200000 .agent utcDay]

/-- The invariant at the end of that day. -/
theorem dayInv_of_resumedDay :
    ∃ db, Runs.run (DayOp.step utcDay) Db.empty resumedDay = some db ∧ DayInv db := by
  have h : Runs.run (DayOp.step utcDay) Db.empty resumedDay = some _ := rfl
  exact ⟨_, h, dayInv_of_run h⟩

/-! ## The mark of one day -/

namespace Db

variable {db : Db} {d : DateKey}

/-- `markDayEnded` leaves the other days unmarked. -/
@[simp] theorem markDayEnded_eq_none {date : DateKey} {t : ℤ} :
    (db.markDayEnded date t).workDayEnds d = none ↔ db.workDayEnds d = none ∧ d ≠ date := by
  by_cases hd : d = date
  · cases hm : db.workDayEnds d with
    | none => simp [markDayEnded, hd, hd ▸ hm]
    | some e => simp [markDayEnded, hm]
  · simp [markDayEnded, hd]

/-- `clearDayEnds` unmarks the days it is given. -/
@[simp] theorem clearDayEnds_eq_none {days : DateKey → Bool} :
    (db.clearDayEnds days).workDayEnds d = none ↔ days d = true ∨ db.workDayEnds d = none := by
  cases hd : days d with
  | true => simp [clearDayEnds, hd]
  | false => simp [clearDayEnds, hd]

/-- `startDay` unmarks the day of the session it opens and the calendar day. -/
theorem startDay_workDayEnds (calendarOf : DayKeyFn) {startedAt now : ℤ}
    {source : WorkSessionSource} {dayOf : DayKeyFn} (hclosed : db.findOpen = none) :
    (db.startDay calendarOf startedAt now source dayOf).2.workDayEnds d = none ↔
      (d = dayOf (db.sessionStart startedAt now) ∨ d = calendarOf now) ∨
        db.workDayEnds d = none := by
  simp only [startDay, hclosed, clearDayEnds_eq_none, decide_eq_true_eq,
    createSessionTx_workDayEnds]
  rfl

/-- `ensureOpenTx` leaves the marks. -/
theorem ensureOpenTx_workDayEnds (generation : AgentGeneration) (now : ℤ) (today : DateKey) :
    (db.ensureOpenTx generation now today).2.workDayEnds = db.workDayEnds := by
  unfold ensureOpenTx
  split
  · rfl
  · split
    · split <;> rfl
    · rfl

/-- `openImplicit` leaves the marks. -/
theorem openImplicit_workDayEnds (t : ℤ) (today : DateKey) (now : ℤ) :
    (db.openImplicit t today now).2.workDayEnds = db.workDayEnds := by
  unfold openImplicit
  split
  · rfl
  · split <;> rfl

/-- An End Day with a session open marks the day of the session, the working day and the calendar
day. -/
theorem closeDay_workDayEnds (calendarOf : DayKeyFn) (s : WorkSession) (now : ℤ)
    (today : DateKey) :
    (db.closeDay calendarOf s now today).2.workDayEnds d = none ↔
      db.workDayEnds d = none ∧ d ≠ s.date ∧ d ≠ today ∧ d ≠ calendarOf now := by
  simp only [closeDay]
  by_cases h1 : today = s.date
  · by_cases h2 : calendarOf now = s.date
    · simp [h1, h2]
    · simp [h1, h2, and_assoc]
  · by_cases h2 : calendarOf now = s.date
    · simp [h1, h2]
      tauto
    · simp [h1, h2, and_assoc]

/-- With no session open, `endDay` marks at most the working day and the calendar day, and takes no
mark away. -/
theorem endDay_workDayEnds_of_closed (calendarOf : DayKeyFn) (now : ℤ) (today : DateKey)
    (legacy : Bool) (endedSince : ℤ) (hclosed : db.findOpen = none) :
    ((db.endDay calendarOf now today legacy endedSince).2.workDayEnds d = none →
      db.workDayEnds d = none) ∧
    (db.workDayEnds d = none → d ≠ today → d ≠ calendarOf now →
      (db.endDay calendarOf now today legacy endedSince).2.workDayEnds d = none) := by
  simp only [endDay, hclosed]
  split
  · exact ⟨id, fun h _ _ => h⟩
  · split
    · simp only [markDayEnded_eq_none]
      exact ⟨fun h => h.1, fun h h1 _ => ⟨h, h1⟩⟩
    · split
      · split
        · simp only [markDayEnded_eq_none, closeOpenPresence_workDayEnds]
          exact ⟨fun h => h.1.1, fun h h1 h2 => ⟨⟨h, h1⟩, h2⟩⟩
        · simp only [markDayEnded_eq_none, closeOpenPresence_workDayEnds]
          exact ⟨fun h => h.1, fun h h1 _ => ⟨h, h1⟩⟩
      · split
        · exact ⟨id, fun h _ _ => h⟩
        · exact ⟨id, fun h _ _ => h⟩

/-- An automatic close marks at most the day of its session, and takes no mark away. -/
theorem autoClose_workDayEnds (session : WorkSession) (closeAt : ℤ) :
    ((db.autoClose session closeAt).2.workDayEnds d = none → db.workDayEnds d = none) ∧
    (db.workDayEnds d = none → d ≠ session.date →
      (db.autoClose session closeAt).2.workDayEnds d = none) := by
  unfold autoClose
  split
  · exact ⟨id, fun h _ => h⟩
  · simp only [markDayEnded_eq_none, closeOpenPresence_workDayEnds, endSession_workDayEnds]
    exact ⟨fun h => h.1, fun h h1 => ⟨h, h1⟩⟩

end Db

namespace DayOp

variable {calendarOf : DayKeyFn} {db db' : Db} {op : DayOp} {d : DateKey}

/-- The transaction is a Start Day that opens a session dated `d`, or on the calendar day `d`. -/
def Clears (calendarOf : DayKeyFn) (d : DateKey) (db : Db) : DayOp → Prop
  | .startDay startedAt now _ dayOf =>
    db.findOpen = none ∧ (d = dayOf (db.sessionStart startedAt now) ∨ d = calendarOf now)
  | _ => False

/-- The transaction may set the mark of `d`: an End Day of a session dated `d`, or pressed on it, or
an automatic close of a session dated `d`. -/
def Marks (calendarOf : DayKeyFn) (d : DateKey) (db : Db) : DayOp → Prop
  | .endDay now today _ _ =>
    d = today ∨ d = calendarOf now ∨ ∃ s ∈ db.workSessions, s.endedAt = none ∧ d = s.date
  | .autoClose session _ => d = session.date
  | _ => False

/-- Only a Start Day that opens a session of the day, or is pressed on that calendar day,
takes its mark away. -/
theorem marked_of_not_clears (hclears : ¬ op.Clears calendarOf d db)
    (h : op.step calendarOf db = some db') (hmark : db.workDayEnds d ≠ none) :
    db'.workDayEnds d ≠ none := by
  cases op with
  | startDay startedAt now source dayOf =>
    obtain rfl := Option.some.inj h
    cases hclosed : db.findOpen with
    | some s => simpa [Db.startDay, hclosed] using hmark
    | none =>
      rw [Ne, Db.startDay_workDayEnds calendarOf hclosed]
      exact fun h => h.elim (fun hd => hclears ⟨hclosed, hd⟩) hmark
  | endDay now today legacy endedSince =>
    obtain rfl := Option.some.inj h
    cases hclosed : db.findOpen with
    | some s =>
      simp only [Db.endDay, hclosed, Ne, Db.closeDay_workDayEnds]
      exact fun h => hmark h.1
    | none =>
      exact fun h => hmark
        ((Db.endDay_workDayEnds_of_closed calendarOf now today legacy endedSince hclosed).1 h)
  | ensureOpen generation now today =>
    obtain rfl := Option.some.inj h
    rwa [Db.ensureOpenTx_workDayEnds]
  | openImplicit t today now =>
    obtain rfl := Option.some.inj h
    rwa [Db.openImplicit_workDayEnds]
  | autoClose session closeAt =>
    obtain rfl := Option.some.inj h
    exact fun h => hmark ((Db.autoClose_workDayEnds session closeAt).1 h)
  | extendAutoClosed session target =>
    simp only [step] at h
    split at h
    · obtain rfl := Option.some.inj h
      rwa [Ne, Db.extendAutoClosed_workDayEnds_eq_none]
    · cases h

/-- Only a transaction that marks the day, an End Day or an automatic close, sets its mark. -/
theorem unmarked_of_not_marks (hmarks : ¬ op.Marks calendarOf d db)
    (h : op.step calendarOf db = some db') (hmark : db.workDayEnds d = none) :
    db'.workDayEnds d = none := by
  cases op with
  | startDay startedAt now source dayOf =>
    obtain rfl := Option.some.inj h
    cases hclosed : db.findOpen with
    | some s => simpa [Db.startDay, hclosed] using hmark
    | none => exact (Db.startDay_workDayEnds calendarOf hclosed).2 (Or.inr hmark)
  | endDay now today legacy endedSince =>
    obtain rfl := Option.some.inj h
    simp only [Marks, not_or] at hmarks
    obtain ⟨h1, h2, h3⟩ := hmarks
    cases hclosed : db.findOpen with
    | some s =>
      obtain ⟨hs, hopen⟩ := Db.findOpen_eq_some hclosed
      simp only [Db.endDay, hclosed, Db.closeDay_workDayEnds]
      exact ⟨hmark, fun hd => h3 ⟨s, hs, hopen, hd⟩, h1, h2⟩
    | none =>
      exact (Db.endDay_workDayEnds_of_closed calendarOf now today legacy endedSince hclosed).2
        hmark h1 h2
  | ensureOpen generation now today =>
    obtain rfl := Option.some.inj h
    rwa [Db.ensureOpenTx_workDayEnds]
  | openImplicit t today now =>
    obtain rfl := Option.some.inj h
    rwa [Db.openImplicit_workDayEnds]
  | autoClose session closeAt =>
    obtain rfl := Option.some.inj h
    exact (Db.autoClose_workDayEnds session closeAt).2 hmark hmarks
  | extendAutoClosed session target =>
    simp only [step] at h
    split at h
    · obtain rfl := Option.some.inj h
      exact (Db.extendAutoClosed_workDayEnds_eq_none session target d).2 hmark
    · cases h

/-- A Start Day that clears the day leaves it unmarked. -/
theorem unmarked_of_clears (hclears : op.Clears calendarOf d db)
    (h : op.step calendarOf db = some db') : db'.workDayEnds d = none := by
  cases op with
  | startDay startedAt now source dayOf =>
    obtain rfl := Option.some.inj h
    exact (Db.startDay_workDayEnds calendarOf hclears.1).2 (Or.inl hclears.2)
  | endDay | ensureOpen | openImplicit | autoClose | extendAutoClosed => exact hclears.elim

end DayOp

/-! ## The day a session ran into -/

section NextDay

variable {calendarOf : DayKeyFn} {db db' : Db} {ops : List DayOp} {d : DateKey}

/-- A mark stays over every run without a Start Day of that day. -/
theorem marked_of_run (h : Runs.run (DayOp.step calendarOf) db ops = some db')
    (hm : Runs.Meets (DayOp.step calendarOf) (fun db op => ¬ op.Clears calendarOf d db) db ops)
    (hmark : db.workDayEnds d ≠ none) : db'.workDayEnds d ≠ none :=
  Runs.invariant_run (fun db => db.workDayEnds d ≠ none)
    (fun _ _ _ hi ho hs => DayOp.marked_of_not_clears ho hs hi) hmark hm h

/-- A day stays unmarked over every run that does not end it. -/
theorem unmarked_of_run (h : Runs.run (DayOp.step calendarOf) db ops = some db')
    (hm : Runs.Meets (DayOp.step calendarOf) (fun db op => ¬ op.Marks calendarOf d db) db ops)
    (hmark : db.workDayEnds d = none) : db'.workDayEnds d = none :=
  Runs.invariant_run (fun db => db.workDayEnds d = none)
    (fun _ _ _ hi ho hs => DayOp.unmarked_of_not_marks ho hs hi) hmark hm h

/-- A legacy agent's action on a marked day is refused. -/
theorem ensureOpenTx_of_marked (hclosed : db.findOpen = none) (hmark : db.workDayEnds d ≠ none)
    (now : ℤ) : (db.ensureOpenTx .legacy now d).1 = .refused .dayEnded := by
  simp [Db.ensureOpenTx, hclosed, Option.isSome_iff_ne_none.2 hmark]

/-- A legacy agent's sample on a marked day opens nothing. -/
theorem openImplicit_of_marked (hclosed : db.findOpen = none) (hmark : db.workDayEnds d ≠ none)
    (t now : ℤ) : (db.openImplicit t d now).1 = none := by
  simp [Db.openImplicit, hclosed, Option.isSome_iff_ne_none.2 hmark]

/-- A legacy agent's action on an unmarked day opens a session. -/
theorem ensureOpenTx_of_unmarked (hclosed : db.findOpen = none) (hmark : db.workDayEnds d = none)
    (now : ℤ) : ∃ s, (db.ensureOpenTx .legacy now d).1 = .ok s true := by
  simp [Db.ensureOpenTx, hclosed, hmark]

/-- A legacy agent's sample on an unmarked day opens a session. -/
theorem openImplicit_of_unmarked (hclosed : db.findOpen = none) (hmark : db.workDayEnds d = none)
    (t now : ℤ) : ∃ s, (db.openImplicit t d now).1 = some s := by
  simp [Db.openImplicit, hclosed, hmark]

/-- An End Day that ends a session marks the working day and the calendar day on
which it is pressed. -/
theorem endDay_marks {now endedAt endedSince : ℤ} {today date : DateKey} {legacy newlyEnded : Bool}
    {session : WorkSession}
    (hend : (db.endDay calendarOf now today legacy endedSince).1 =
      .closed session date endedAt newlyEnded)
    (hday : d = today ∨ d = calendarOf now) :
    (db.endDay calendarOf now today legacy endedSince).2.workDayEnds d ≠ none := by
  cases hopen : db.findOpen with
  | some s =>
    simp only [Db.endDay, hopen, Ne, Db.closeDay_workDayEnds]
    rintro ⟨-, -, h1, h2⟩
    exact hday.elim h1 h2
  | none =>
    simp only [Db.endDay, hopen] at hend
    split at hend
    · cases hend
    · split at hend
      · cases hend
      · split at hend
        · cases hend
        · split at hend <;> cases hend

/-- An End Day that ends a session on the working or calendar day `d` closes `d` for agents without
Start Day: until a Start Day opens a session dated `d` or on `d`, their actions and samples open
nothing; after one, and while `d` is not ended again, they do. -/
theorem nextDay_closed_until_startDay {now endedAt endedSince : ℤ} {today date : DateKey}
    {legacy newlyEnded : Bool} {session : WorkSession}
    (hend : (db.endDay calendarOf now today legacy endedSince).1 =
      .closed session date endedAt newlyEnded)
    (hday : d = today ∨ d = calendarOf now)
    (hrun : Runs.run (DayOp.step calendarOf)
      (db.endDay calendarOf now today legacy endedSince).2 ops = some db')
    (hclosed : db'.findOpen = none) (t later : ℤ) :
    (Runs.Meets (DayOp.step calendarOf) (fun db op => ¬ op.Clears calendarOf d db)
        (db.endDay calendarOf now today legacy endedSince).2 ops →
      (db'.ensureOpenTx .legacy later d).1 = .refused .dayEnded ∧
        (db'.openImplicit t d later).1 = none) ∧
    (∀ before op after db₁ db₂, ops = before ++ op :: after →
      Runs.run (DayOp.step calendarOf) (db.endDay calendarOf now today legacy endedSince).2 before
        = some db₁ →
      op.Clears calendarOf d db₁ → op.step calendarOf db₁ = some db₂ →
      Runs.Meets (DayOp.step calendarOf) (fun db op => ¬ op.Marks calendarOf d db) db₂ after →
      (∃ s, (db'.ensureOpenTx .legacy later d).1 = .ok s true) ∧
        ∃ s, (db'.openImplicit t d later).1 = some s) := by
  constructor
  · intro hm
    have hmark := marked_of_run hrun hm (endDay_marks hend hday)
    exact ⟨ensureOpenTx_of_marked hclosed hmark later, openImplicit_of_marked hclosed hmark t later⟩
  · rintro before op after db₁ db₂ rfl hbefore hclears hstep hm
    obtain ⟨db₁', hbefore', hafter⟩ := Runs.run_append_eq_some.1 hrun
    obtain rfl := Option.some.inj (hbefore.symm.trans hbefore')
    obtain ⟨db₂', hstep', hafter⟩ := Runs.run_cons_eq_some.1 hafter
    obtain rfl := Option.some.inj (hstep.symm.trans hstep')
    have hmark := unmarked_of_run hafter hm (DayOp.unmarked_of_clears hclears hstep)
    exact ⟨ensureOpenTx_of_unmarked hclosed hmark later,
      openImplicit_of_unmarked hclosed hmark t later⟩

/-- A day opened at nine in the morning. -/
def nineToMidnight : Db := (Db.empty.startDay utcDay 32400000 32400000 .legacy utcDay).2

/-- The day is ended at half past midnight: the next day, on which nobody has pressed End Day and
which has no session, refuses a legacy agent at ten in the morning. -/
theorem nextDay_can_be_closed :
    ¬ ∀ (calendarOf : DayKeyFn) (ops : List DayOp) (db : Db) (now endedSince t later : ℤ)
        (d : DateKey),
      Runs.run (DayOp.step calendarOf) Db.empty ops = some db →
      (∃ s ∈ db.workSessions, s.endedAt = none ∧ s.date.day < d.day) →
      (∀ s ∈ db.workSessions, s.date ≠ d) → db.workDayEnds d = none → d = calendarOf now →
      d = calendarOf later → d = calendarOf t →
      (∃ s, ((db.endDay calendarOf now (calendarOf now) true endedSince).2.ensureOpenTx
        .legacy later d).1 = .ok s true) ∧
      ∃ s, ((db.endDay calendarOf now (calendarOf now) true endedSince).2.openImplicit
        t d later).1 = some s := by
  intro h
  have hsession : ∀ s, s ∈ nineToMidnight.workSessions ↔
      s = { id := 0, date := ⟨0⟩, startedAt := 32400000, source := .legacy } := by
    intro s
    exact List.mem_singleton
  obtain ⟨⟨s, hs⟩, -⟩ := h utcDay [.startDay 32400000 32400000 .legacy utcDay] nineToMidnight
    88200000 0 122400000 122400000 ⟨1⟩ rfl ⟨_, (hsession _).2 rfl, rfl, by decide⟩
    (fun s hs => by rw [(hsession s).1 hs]; decide) rfl rfl rfl rfl
  have hrefused : ((nineToMidnight.endDay utcDay 88200000 (utcDay 88200000) true 0).2.ensureOpenTx
      .legacy 122400000 ⟨1⟩).1 = .refused .dayEnded := by decide
  rw [hrefused] at hs
  cases hs

/-- The rule on that day. -/
theorem nineToMidnight_closed_until_startDay :
    ((nineToMidnight.endDay utcDay 88200000 ⟨1⟩ true 0).2.ensureOpenTx .legacy 122400000 ⟨1⟩).1 =
        .refused .dayEnded ∧
      ((nineToMidnight.endDay utcDay 88200000 ⟨1⟩ true 0).2.openImplicit
        122400000 ⟨1⟩ 122400000).1 = none := by
  have hend : (nineToMidnight.endDay utcDay 88200000 ⟨1⟩ true 0).1 = .closed _ _ _ _ := rfl
  have hrun : Runs.run (DayOp.step utcDay) (nineToMidnight.endDay utcDay 88200000 ⟨1⟩ true 0).2 [] =
    some _ := rfl
  exact (nextDay_closed_until_startDay hend (Or.inl rfl) hrun rfl 122400000 122400000).1 trivial

end NextDay

end RxVision
