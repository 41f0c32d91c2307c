import RxVision.Records.Cases
import RxVision.Reports.MonthRows

/-!
# What each operation touches

For each operation on one person's records, the dates of the rows it may write and the starts of the
presence sessions it may open or close (`World.touches`, `RecordOp.touches`), and that it leaves all
other rows alone. Both are read off the tables before the operation and what it is given. Where the
operation makes or changes a record that waits for approval, it writes nothing in a month that it
does not find open, so the date only counts with `monthOpen`.
-/

namespace RxVision

namespace Db

variable {db db' : Db} {T : Touches}

/-! ## Writes of one table -/

/-- The date of the break `id`. -/
def IsDayOfBreak (db : Db) (id : ℕ) (d : DateKey) : Prop := ∃ r ∈ db.breakRecords,
    r.id = id ∧ d = r.date

/-- The start of an open presence session. -/
def IsOpenStart (db : Db) (t : ℤ) : Prop := ∃ p ∈ db.presence, p.endedAt = none ∧ t = p.startedAt

/-- The start of the presence session a row points at, when it is open. -/
def IsOwnStart (db : Db) (session : Option ℕ) (t : ℤ) : Prop :=
  ∃ p, db.presenceOf session = some p ∧ p.endedAt = none ∧ t = p.startedAt

/-- Closing what is open touches the starts of the open presence sessions. -/
theorem within_closeOpenPresence {t : ℤ} (h : ∀ start, db.IsOpenStart start → T.starts start) :
    db.Within T (db.closeOpenPresence t) :=
  within_updatePresence (fun _ => rfl) fun q hq hopen => h _ ⟨q, hq, by simpa using hopen, rfl⟩

/-- Closing one presence session touches its start. -/
theorem within_closePresence {p : PresenceSession} {t : ℤ} (hp : p ∈ db.presence)
    (h : T.starts p.startedAt) : db.Within T (db.closePresence p.id t) := by
  refine within_updatePresence (fun _ => rfl) fun q hq hid => ?_
  rwa [Table.eq_of_key hq hp (of_decide_eq_true hid)]

/-- Closing the presence session that a row points at touches the start of that session, and nothing
when the row points at none or its session has ended. -/
theorem within_closeOwnPresence {session : Option ℕ} {t : ℤ}
    (h : ∀ start, db.IsOwnStart session start → T.starts start) :
    db.Within T (db.closeOwnPresence session t) := by
  unfold closeOwnPresence
  split
  · next p hp =>
    split
    · next hopen =>
      exact within_closePresence (presenceOf_eq_some.1 hp).2
        (h _ ⟨p, hp, by simpa using hopen, rfl⟩)
    · exact .refl T db
  · exact .refl T db

/-- An update of one break that keeps its date touches that date. The rows of `updateMany` outside
the touched dates are the old ones (`Table.mem_updateMany_outside`). -/
theorem within_updateBreak {id : ℕ} {f : BreakRecord → BreakRecord} {hf : ∀ r, (f r).id = r.id}
    (hdate : ∀ r, (f r).date = r.date) (h : ∀ d, db.IsDayOfBreak id d → T.dates d) :
    db.Within T (db.updateBreak id f hf) :=
  { Within.refl T db with
    breakRecords := fun _ hr => Table.mem_updateMany_outside hf (R := fun r => T.dates r.date)
      (fun r hmem hid => by
        have hd := h _ ⟨r, hmem, of_decide_eq_true hid, rfl⟩
        exact ⟨hd, (hdate r).symm ▸ hd⟩) hr }

/-- A segment whose break is dated outside the touched dates is no segment of the break `id`, whose
own date is touched. -/
theorem ne_of_not_dates {id : ℕ} {g : BreakSegment} (h : ∀ d, db.IsDayOfBreak id d → T.dates d)
    (hg : ∃ r ∈ db.breakRecords, r.id = g.breakRecordId ∧ ¬ T.dates r.date) :
    ¬ g.breakRecordId = id := by
  rintro rfl
  obtain ⟨r, hr, hid, hd⟩ := hg
  exact hd (h _ ⟨r, hr, hid, rfl⟩)

/-- Closing the segments of a break touches the date of the break: a segment decides the date of its
break, not the date it was written on. -/
theorem within_closeSegments {id : ℕ} {t : ℤ} (h : ∀ d, db.IsDayOfBreak id d → T.dates d) :
    db.Within T (db.closeSegments id t) :=
  { Within.refl T db with
    breakSegments := fun g hg => by
      refine Table.mem_updateMany_outside ?_ (R := fun g => g.breakRecordId = id)
        (fun g' _ hid => ?_) (ne_of_not_dates h hg)
      · exact fun _ => rfl
      · have hid : g'.breakRecordId = id ∧ g'.endedAt.isNone = true := of_decide_eq_true hid
        exact ⟨hid.1, hid.1⟩ }

/-- Deleting a break with its segments touches its date; the segments go with the break's date
(`ne_of_not_dates`). -/
theorem within_deleteBreak {id : ℕ} (h : ∀ d, db.IsDayOfBreak id d → T.dates d) :
    db.Within T (db.deleteBreak id) :=
  { Within.refl T db with
    breakRecords := fun _ hr => Table.mem_deleteMany_outside (R := fun r => T.dates r.date)
      (fun r hmem hid => h _ ⟨r, hmem, hid, rfl⟩) hr
    breakSegments := fun _ hg => Table.mem_deleteMany_outside (R := fun g => g.breakRecordId = id)
      (fun _ _ hid => hid) (ne_of_not_dates h hg) }

/-- A new segment of a break touches the break's date and the start of the presence
session that it opens. -/
theorem within_openSegment {id : ℕ} {type : PresenceType} {calendarDay : DateKey} {t : ℤ}
    (h : ∀ d, db.IsDayOfBreak id d → T.dates d) (hstart : T.starts t) :
    db.Within T (db.openSegment id type calendarDay t) :=
  { Within.refl T db with
    presence := fun _ hp => Table.mem_create_outside (fun _ => rfl)
      (R := fun p => T.starts p.startedAt) hstart hp
    next := Nat.le_succ _
    kept := fun _ hp hlt => exists_of_mem_create (fun _ => rfl) hp hlt
    breakSegments := fun _ hg => Table.mem_create_outside (fun _ => rfl)
      (R := fun g => g.breakRecordId = id) rfl (ne_of_not_dates h hg) }

/-- A break that is created running touches its own date and the start of the presence session of
its first segment. -/
theorem within_createBreak {r : BreakRecord} {calendarDay : DateKey} {t : ℤ} (h : T.dates r.date)
    (hstart : T.starts t) : db.Within T (db.createBreak r calendarDay t).2 := by
  have hnew : ∀ d, db.IsDayOfBreak db.breakRecords.next d → T.dates d := by
    rintro d ⟨r', hr', hid, -⟩
    exact absurd hid (Table.key_ne_next hr')
  have hseg : db.Within T (db.openSegment db.breakRecords.next r.presenceType calendarDay t) :=
    within_openSegment hnew hstart
  exact { hseg with
    breakRecords := fun _ hr => Table.mem_create_outside (fun _ => rfl)
      (R := fun r => T.dates r.date) h hr }

/-- A new meeting touches its date. -/
theorem within_createMeeting {row : ℕ → MeetingRecord} {hrow : ∀ n, (row n).id = n}
    (h : T.dates (row db.meetings.next).date) :
    db.Within T { db with meetings := db.meetings.create row hrow } :=
  { Within.refl T db with
    meetings := fun _ hm => Table.mem_create_outside hrow (R := fun m => T.dates m.date) h hm }

/-! ## The working day -/

/-- `startDay` opens a session when none is open. -/
def startDayTouches (db : Db) (startedAt now : ℤ) (dayOf : DayKeyFn) : Touches :=
  ⟨fun d => db.findOpen = none ∧ d = dayOf (db.sessionStart startedAt now), fun _ => False⟩

/-- `endDay` ends the open session, and the presence sessions that are open. -/
def endDayTouches (db : Db) : Touches :=
  ⟨fun d => ∃ s, db.findOpen = some s ∧ d = s.date, db.IsOpenStart⟩

/-- `autoClose` ends the session when it is still open, and drops auto-skips of its day. -/
def autoCloseTouches (db : Db) (session : WorkSession) : Touches :=
  ⟨fun d => ∃ s ∈ db.workSessions, s.id = session.id ∧ s.endedAt = none ∧
    (d = s.date ∨ d = session.date), db.IsOpenStart⟩

/-- The date of the session `id`. -/
def sessionTouches (db : Db) (id : ℕ) : Touches :=
  ⟨fun d => ∃ s ∈ db.workSessions, s.id = id ∧ d = s.date, fun _ => False⟩

/-- Deleting some breaks, without their segments, touches their dates: what an automatic close drops
are skips, which have none. -/
theorem within_deleteBreaks {p : BreakRecord → Bool}
    (h : ∀ r ∈ db.breakRecords, p r = true → T.dates r.date) :
    db.Within T { db with breakRecords := db.breakRecords.deleteMany p } :=
  { Within.refl T db with
    breakRecords := fun _ hr => by
      simpa using Table.mem_deleteMany_outside (p := fun r => p r = true)
        (R := fun r => T.dates r.date) h hr }

/-- The open session that is found is a row without an end. -/
theorem findOpen_mem {s : WorkSession} (h : db.findOpen = some s) :
    s ∈ db.workSessions ∧ s.endedAt = none :=
  ⟨Table.mem_of_find? h, by simpa using Table.find?_spec h⟩

/-- A session that is opened touches the day of its start. -/
theorem within_createSessionTx {startedAt now : ℤ} {source : WorkSessionSource} {dayOf : DayKeyFn}
    (h : T.dates (dayOf (db.sessionStart startedAt now))) :
    db.Within T (db.createSessionTx startedAt now source dayOf).2 :=
  within_createSession h

/-- `startDay` touches the day of the session it opens, and nothing when a session is
open already. -/
theorem within_startDay {calendarOf : DayKeyFn} {startedAt now : ℤ} {source : WorkSessionSource}
    {dayOf : DayKeyFn} :
    db.Within (db.startDayTouches startedAt now dayOf)
      (db.startDay calendarOf startedAt now source dayOf).2 := by
  unfold startDay
  cases hopen : db.findOpen with
  | some s => exact .refl _ db
  | none =>
    have hcreate : db.Within (db.startDayTouches startedAt now dayOf)
        (db.createSessionTx startedAt now source dayOf).2 := within_createSessionTx ⟨hopen, rfl⟩
    exact hcreate.of_marks

/-- `ensureOpen` touches today, and only when it opens a session: no session is open and the agent
is older than 3.1. -/
theorem within_ensureOpenTx {generation : AgentGeneration} {now : ℤ} {today : DateKey} :
    db.Within ⟨fun d => db.findOpen = none ∧ generation = .legacy ∧ d = today, fun _ => False⟩
      (db.ensureOpenTx generation now today).2 := by
  unfold ensureOpenTx
  cases hopen : db.findOpen with
  | some s => exact .refl _ db
  | none =>
    cases generation with
    | agent31 => exact .refl _ db
    | legacy =>
      dsimp only
      split
      · exact .refl _ db
      · change db.Within _ (db.createSessionTx now now .legacy fun _ => today).2
        exact within_createSessionTx ⟨rfl, rfl, rfl⟩

/-- An implicit start for a sample touches today when no session is open, and nothing otherwise. -/
theorem within_openImplicit {t : ℤ} {today : DateKey} {now : ℤ} :
    db.Within ⟨fun d => db.findOpen = none ∧ d = today, fun _ => False⟩
      (db.openImplicit t today now).2 := by
  unfold openImplicit
  cases hopen : db.findOpen with
  | some s => exact .refl _ db
  | none =>
    dsimp only
    split
    · exact .refl _ db
    · change db.Within _ (db.createSessionTx t now .legacy fun _ => today).2
      exact within_createSessionTx ⟨rfl, rfl⟩

/-- The open session ends, and the presence sessions that are open end with it: this touches the
session's day and their starts. -/
theorem within_endSession {s : WorkSession} {t : ℤ} {reason : WorkSessionEndReason}
    (hs : s ∈ db.workSessions) (hdate : T.dates s.date)
    (hstart : ∀ t, db.IsOpenStart t → T.starts t) :
    db.Within T ((db.endSession s.id t reason).closeOpenPresence t) := by
  have hend : db.Within T (db.endSession s.id t reason) := by
    refine within_updateSessions (fun _ => rfl) fun s' hs' hid => ?_
    rwa [Table.eq_of_key hs' hs (of_decide_eq_true hid)]
  exact hend.trans (within_closeOpenPresence hstart)

/-- `endDay` touches the day of the open session and the starts of the presence sessions that are
open. The mark of an End Day is no row of a report. -/
theorem within_endDay {calendarOf : DayKeyFn} {now : ℤ} {today : DateKey} {legacy : Bool}
    {endedSince : ℤ} :
    db.Within db.endDayTouches (db.endDay calendarOf now today legacy endedSince).2 := by
  unfold endDay
  cases hopen : db.findOpen with
  | some s =>
    have hend : ∀ t,
      db.Within db.endDayTouches ((db.endSession s.id t .user).closeOpenPresence t) :=
      fun t => within_endSession (findOpen_mem hopen).1 ⟨s, hopen, rfl⟩ fun _ h => h
    unfold closeDay
    dsimp only
    split_ifs <;> exact (hend _).of_marks
  | none =>
    dsimp only
    split
    · exact .refl _ db
    · split
      · exact (Within.refl _ db).of_marks
      · split
        · have hclose : db.Within db.endDayTouches (db.closeOpenPresence now) :=
            within_closeOpenPresence fun _ h => h
          dsimp only
          split_ifs <;> exact hclose.of_marks
        · split <;> exact .refl _ db

/-- The automatic close touches the day of the session, and the starts of what is open, when the
session is still open. -/
theorem within_autoClose {session : WorkSession} {closeAt : ℤ} :
    db.Within (db.autoCloseTouches session) (db.autoClose session closeAt).2 := by
  unfold autoClose
  split
  · exact .refl _ db
  · next before hbefore =>
    have hmem := Table.mem_of_find? hbefore
    have hspec : before.id = session.id ∧ before.endedAt = none := by
      simpa using Table.find?_spec hbefore
    obtain ⟨hid, hopen⟩ := hspec
    have hend : ∀ t, db.Within (db.autoCloseTouches session)
        ((db.endSession session.id t .autoClosed).closeOpenPresence t) := by
      intro t
      rw [← hid]
      exact within_endSession hmem ⟨before, hmem, hid, hopen, Or.inl rfl⟩ fun _ h => h
    refine ((hend _).trans (within_deleteBreaks fun r _ hdrop => ?_)).of_marks
    have hdrop : r.date = session.date := (of_decide_eq_true hdrop).1
    exact ⟨before, hmem, hid, hopen, Or.inr hdrop⟩

/-- Extending an auto-closed session touches its day, and nothing when the session has changed
since it was read. -/
theorem within_extendAutoClosed {session : WorkSession} {target : ℤ} :
    db.Within (db.sessionTouches session.id) (db.extendAutoClosed session target).2 := by
  unfold extendAutoClosed
  split
  · exact .refl _ db
  · dsimp only
    split
    · exact .refl _ db
    · refine within_updateSessions ?_ fun s hs hsel => ⟨s, hs, (of_decide_eq_true hsel).1, rfl⟩
      exact fun _ => rfl

/-- Reopening a day touches the day of the session that is reopened. -/
theorem within_reopenDay {r : Reopened} :
    db.Within (db.sessionTouches r.sessionId) (db.reopenDay r) := by
  refine within_updateSessions ?_ fun s hs hsel => ⟨s, hs, of_decide_eq_true hsel, rfl⟩
  exact fun _ => rfl

/-- Putting a reopened day back touches the day of that session. -/
theorem within_restore {r : Reopened} :
    db.Within (db.sessionTouches r.sessionId) (db.restore r) := by
  refine within_updateSessions ?_ fun s hs hsel => ⟨s, hs, of_decide_eq_true hsel, rfl⟩
  exact fun _ => rfl

/-! ## Breaks -/

/-- A break of the day `date` that opens at `t`, and what else opens or closes. -/
def startScheduledTouches (db : Db) (monthOpen : DateKey → Bool)
    (record : NewBreakRecord) (now : ℤ) :
    Touches :=
  ⟨fun d => d = record.date ∧ (record.approvalStatus = .pending → monthOpen record.date),
    fun t => t = now ∨ ∃ p, db.openPresence = some p ∧ t = p.startedAt⟩

/-- The break `id` stops running. -/
def stopBreakTouches (db : Db) (id : ℕ) : Touches :=
  ⟨db.IsDayOfBreak id, fun t => ∃ r ∈ db.breakRecords, r.id = id ∧
    db.IsOwnStart r.presenceSessionId t⟩

/-- The open presence session that is found is a row. -/
theorem openPresence_mem {p : PresenceSession} (h : db.openPresence = some p) : p ∈ db.presence :=
  (Table.mem_of_findLast? h).1

/-- The write of a scheduled start, from tables that are already within the touched dates, touches
the record's date unless its month is locked, now, and the start of what is open. -/
theorem within_openScheduled {monthOpen : DateKey → Bool} {before : Db} {record : NewBreakRecord}
    {calendarDay : DateKey} {now : ℤ}
    (hdate : (record.approvalStatus = .pending → monthOpen record.date) → T.dates record.date)
    (hnow : T.starts now) (hopen : ∀ p, db.openPresence = some p → T.starts p.startedAt)
    {db₀ : Db} (hbefore : db₀.Within T before) (hdb : (record.approvalStatus = .pending →
      monthOpen record.date) → db₀.Within T db) :
    db₀.Within T (before.openScheduled monthOpen db record calendarDay now).2 := by
  unfold openScheduled
  split
  · exact hbefore
  · next hmonth =>
    have hask : record.approvalStatus = .pending → monthOpen record.date := by simpa using hmonth
    split
    · next p hp =>
      dsimp only
      split
      · exact hdb hask
      · exact (hdb hask).trans ((within_closePresence (openPresence_mem hp) (hopen p hp)).trans
          (within_createBreak (hdate hask) hnow))
    · exact (hdb hask).trans (within_createBreak (hdate hask) hnow)

/-- Starting a scheduled break touches its date, unless it waits in a locked month, now, and the
start of the presence session that is open. -/
theorem within_startScheduled {monthOpen : DateKey → Bool} {record : NewBreakRecord}
    {calendarDay : DateKey} {now : ℤ} :
    db.Within (db.startScheduledTouches monthOpen record now)
      (db.startScheduled monthOpen record calendarDay now).2 := by
  unfold startScheduled
  split
  · exact .refl _ db
  · split
    · next taken htaken =>
      split
      · exact .refl _ db
      · refine within_openScheduled (fun hask => ?_) (Or.inl rfl) (fun p hp => Or.inr ⟨p, hp, rfl⟩)
          (.refl _ db) fun hask => within_deleteBreak fun d hd => ?_
        · exact ⟨rfl, hask⟩
        obtain ⟨kind, -, hfind⟩ := Option.bind_eq_some_iff.1 htaken
        obtain ⟨r, hr, hid, rfl⟩ := hd
        have hdate : taken.date = record.date ∧ taken.kind = some kind := by
          simpa using Table.find?_spec hfind
        rw [Table.eq_of_key hr (Table.mem_of_find? hfind) hid]
        exact ⟨hdate.1, hask⟩
    · refine within_openScheduled (fun hask => ?_) (Or.inl rfl) (fun p hp => Or.inr ⟨p, hp, rfl⟩)
        (.refl _ db) fun _ => .refl _ db
      exact ⟨rfl, hask⟩

/-- A quick break touches its date and its start, and nothing when it is refused. -/
theorem within_startQuick {input : NewQuickBreak} :
    db.Within ⟨fun d => d = input.date, fun t => t = input.startedAt⟩ (db.startQuick input).2 := by
  unfold startQuick
  split
  · exact .refl _ db
  · split
    · exact .refl _ db
    · split
      · exact .refl _ db
      · exact within_createBreak rfl rfl

/-- The writes that `pause` and `markEnded` share: the presence session and the segments of a
running break end, and its row changes without its date. -/
theorem within_stopBreak {id : ℕ} {row : BreakRecord} {t : ℤ} {f : BreakRecord → BreakRecord}
    {hf : ∀ r, (f r).id = r.id} (hrow : (db.breakRecords.find? fun r => r.id = id) = some row)
    (hdate : ∀ r, (f r).date = r.date) :
    db.Within (db.stopBreakTouches id)
      (((db.closeOwnPresence row.presenceSessionId t).closeSegments id t).updateBreak id f hf) := by
  have hid : row.id = id := by simpa using Table.find?_spec hrow
  have hclose : db.Within (db.stopBreakTouches id) (db.closeOwnPresence row.presenceSessionId t) :=
    within_closeOwnPresence fun _ h => ⟨row, Table.mem_of_find? hrow, hid, h⟩
  have hday : ∀ d, (db.closeOwnPresence row.presenceSessionId t).IsDayOfBreak id d →
      db.IsDayOfBreak id d := by
    intro d hd
    rwa [IsDayOfBreak, closeOwnPresence_breakRecords] at hd
  exact (hclose.trans (within_closeSegments hday)).trans (within_updateBreak hdate hday)

/-- Pausing a break touches its date and the start of its own presence session, and nothing
when it does not run. -/
theorem within_pause {id : ℕ} {now : ℤ} :
    db.Within (db.stopBreakTouches id) (db.pause id now).2 := by
  unfold pause
  split
  · exact .refl _ db
  · next row hrow =>
    split
    · exact .refl _ db
    · split
      · exact .refl _ db
      · exact within_stopBreak hrow fun _ => rfl

/-- Ending a paused break touches its date; its presence session has ended with the pause. -/
theorem within_endPausedTx {id : ℕ} {now : ℤ} (h : ∀ d, db.IsDayOfBreak id d → T.dates d) :
    db.Within T (db.endPausedTx id now).2 := by
  unfold endPausedTx
  split
  · exact .refl _ db
  · dsimp only
    split
    · exact .refl _ db
    · refine within_updateBreak ?_ h
      exact fun _ => rfl

/-- Resuming a break touches its date and the start of the new presence session, which is now. A
break that has used its minutes up ends instead. -/
theorem within_resume {id : ℕ} {now : ℤ} {calendarDay : DateKey} :
    db.Within ⟨db.IsDayOfBreak id, fun t => t = now⟩ (db.resume id now calendarDay).2 := by
  unfold resume
  split
  · exact .refl _ db
  · dsimp only
    split
    · exact .refl _ db
    · split
      · exact within_endPausedTx fun _ h => h
      · split
        · exact .refl _ db
        · split
          · exact .refl _ db
          · split
            · exact .refl _ db
            · refine (within_openSegment (fun _ h => h) rfl).trans (within_updateBreak ?_ ?_)
              · exact fun _ => rfl
              · exact fun _ h => h

/-- Ending a break touches its date and the start of its own presence session; a paused
break only its date. -/
theorem within_markEnded {id : ℕ} {t : ℤ} :
    db.Within (db.stopBreakTouches id) (db.markEnded id t).2 := by
  unfold markEnded
  split
  · exact .refl _ db
  · next row hrow =>
    dsimp only
    split
    · exact within_endPausedTx fun _ h => h
    · split
      · exact .refl _ db
      · exact within_stopBreak hrow fun _ => rfl

/-! ## Meetings -/

/-- A live meeting of the day it runs in, from `now`. -/
def startLiveTouches (db : Db) (monthOpen : DateKey → Bool) (approvalStatus : BreakApprovalStatus)
    (generation : AgentGeneration) (now : ℤ) (today : DateKey) : Touches :=
  ⟨fun d => db.liveDay generation now today = some d ∧ (approvalStatus = .pending → monthOpen d),
    fun t => t = now⟩

/-- A meeting that runs on ends, when its month is open. -/
def endLiveTouches (db : Db) (monthOpen : DateKey → Bool) (id : ℕ) : Touches :=
  ⟨fun d => ∃ m ∈ db.meetings, m.id = id ∧ m.endedAt = none ∧
      (m.approvalStatus = .pending → monthOpen m.date) ∧ d = m.date,
    fun t => ∃ m ∈ db.meetings, m.id = id ∧ db.IsOwnStart m.presenceSessionId t⟩

/-- The day of an earlier meeting: that of the session that holds it, else today. -/
def pastDay (db : Db) (start : ℤ) (durationSec : ℕ) (now : ℤ) (today : DateKey) : DateKey :=
  (((db.workSessions.rows.filter fun s => s.date = today ∨ s.endedAt.isNone).find?
    (insideSession start (start + durationSec * 1000) now)).map WorkSession.date).getD today

/-- A meeting of the day it lies in. -/
def createPastTouches (db : Db) (monthOpen : DateKey → Bool) (approvalStatus : BreakApprovalStatus)
    (start : ℤ) (durationSec : ℕ) (now : ℤ) (today : DateKey) : Touches :=
  ⟨fun d => d = db.pastDay start durationSec now today ∧ (approvalStatus = .pending → monthOpen d),
    fun _ => False⟩

/-- The meetings that take over their end, and the orphans. -/
def healTouches (db : Db) : Touches :=
  ⟨fun d => ∃ m ∈ db.meetings, (db.isHealed m = true ∨ isOrphan m = true) ∧ d = m.date,
    fun _ => False⟩

/-- A live meeting that is created touches its date, and its start, where its
presence session begins. -/
theorem within_createLive {calendarOf : DayKeyFn} {approvalStatus : BreakApprovalStatus}
    {date : DateKey} {now : ℤ} (hdate : T.dates date) (hnow : T.starts now) :
    db.Within T (db.createLive calendarOf approvalStatus date now).2 := by
  have hpresence : db.Within T { db with
      presence := db.presence.create
        (fun id => { id, type := .meeting, date := calendarOf now, startedAt := now }) fun _ =>
          rfl } :=
    within_createPresence hnow
  exact hpresence.trans (within_createMeeting hdate)

/-- The write of a live start, from tables that are already within the touched dates, touches the
meeting's date unless its month is locked, and now. -/
theorem within_openLive {calendarOf : DayKeyFn} {monthOpen : DateKey → Bool} {before : Db}
    {approvalStatus : BreakApprovalStatus} {date : DateKey} {now : ℤ} {db₀ : Db}
    (hdate : (approvalStatus = .pending → monthOpen date) → T.dates date) (hnow : T.starts now)
    (hbefore : db₀.Within T before)
    (hdb : (approvalStatus = .pending → monthOpen date) → db₀.Within T db) :
    db₀.Within T (before.openLive calendarOf monthOpen db approvalStatus date now).2 := by
  unfold openLive
  split
  · exact hbefore
  · next hmonth =>
    have hask : approvalStatus = .pending → monthOpen date := by simpa using hmonth
    exact (hdb hask).trans (within_createLive (hdate hask) hnow)

/-- A session that `ensureOpen` opens for an action is dated today, and only an agent older
than 3.1 gets one. -/
theorem ensureOpenTx_date {generation : AgentGeneration} {now : ℤ} {today : DateKey}
    {s : WorkSession} {implicit : Bool} (hopen : db.findOpen = none)
    (h : db.ensureOpenTx generation now today = (.ok s implicit, db')) :
    generation = .legacy ∧ s.date = today := by
  unfold ensureOpenTx at h
  simp only [hopen] at h
  cases generation with
  | agent31 => cases h
  | legacy =>
    dsimp only at h
    split at h
    · cases h
    · cases h
      exact ⟨rfl, rfl⟩

/-- Starting a live meeting touches the day it runs in, unless it waits in a locked month, and now.
-/
theorem within_startLive {calendarOf : DayKeyFn} {monthOpen : DateKey → Bool}
    {approvalStatus : BreakApprovalStatus} {generation : AgentGeneration} {now : ℤ}
    {today : DateKey} :
    db.Within (db.startLiveTouches monthOpen approvalStatus generation now today)
      (db.startLive calendarOf monthOpen approvalStatus generation now today).2 := by
  unfold startLive
  split
  · exact .refl _ db
  · split
    · exact .refl _ db
    · cases hopen : db.findOpen with
      | some s =>
        have hday : db.liveDay generation now today = some s.date := by
          simp [liveDay, ensureOpenTx, hopen]
        exact within_openLive (fun hask => ⟨hday, hask⟩) rfl (.refl _ db) fun _ => .refl _ db
      | none =>
        dsimp only
        cases hensure : db.ensureOpenTx generation now today with
        | mk result db' =>
          cases result with
          | refused code => exact .refl _ db
          | ok s implicit =>
            have hday : db.liveDay generation now today = some s.date := by
              simp [liveDay, hensure]
            have hsession : db.Within
                ⟨fun d => db.findOpen = none ∧ generation = .legacy ∧ d = today, fun _ => False⟩
                (db.ensureOpenTx generation now today).2 := within_ensureOpenTx
            refine within_openLive (fun hask => ?_) rfl (.refl _ db) fun hask => ?_
            · exact ⟨hday, hask⟩
            · rw [hensure] at hsession
              refine hsession.mono (fun d hd => ?_) fun _ h => h.elim
              obtain ⟨-, -, rfl⟩ := hd
              have hdate := (ensureOpenTx_date hopen hensure).2
              exact ⟨hdate ▸ hday, hdate ▸ hask⟩

/-- Ending a live meeting touches its date, when it still runs and does not wait in a locked month,
and the start of its presence session. -/
theorem within_endLive {monthOpen : DateKey → Bool} {id : ℕ} {now : ℤ} :
    db.Within (db.endLiveTouches monthOpen id) (db.endLive monthOpen id now).2 := by
  unfold endLive
  split
  · exact .refl _ db
  · next row hrow =>
    have hmem := Table.mem_of_find? hrow
    have hid : row.id = id := by simpa using Table.find?_spec hrow
    split
    · exact .refl _ db
    · split
      · exact .refl _ db
      · next hlive =>
        split
        · exact .refl _ db
        · next hmonth =>
          have hask : row.approvalStatus = .pending → monthOpen row.date := by simpa using hmonth
          have hrun : row.endedAt = none := by
            rw [not_or] at hlive
            simpa using hlive.2
          have hclose : db.Within (db.endLiveTouches monthOpen id)
              (db.closeOwnPresence row.presenceSessionId now) :=
            within_closeOwnPresence fun _ h => ⟨row, hmem, hid, h⟩
          have hday : ∀ m ∈ (db.closeOwnPresence row.presenceSessionId now).meetings,
              decide (m.id = id) = true → (db.endLiveTouches monthOpen id).dates m.date := by
            intro m hm hmid
            rw [closeOwnPresence_meetings] at hm
            rw [Table.eq_of_key hm hmem ((of_decide_eq_true hmid).trans hid.symm)]
            exact ⟨row, hmem, hid, hrun, hask, rfl⟩
          dsimp only
          split
          · refine hclose.trans (within_updateMeetings ?_ hday)
            exact fun _ => rfl
          · refine hclose.trans (within_updateMeetings ?_ hday)
            exact fun _ => rfl

/-- Adding an earlier meeting touches the day it lies in. A meeting that waits for a decision is
written only when the month of that day is open. -/
theorem within_createPast {monthOpen : DateKey → Bool} {approvalStatus : BreakApprovalStatus}
    {start : ℤ} {durationSec : ℕ} {generation : AgentGeneration} {now : ℤ} {today : DateKey} :
    db.Within (db.createPastTouches monthOpen approvalStatus start durationSec now today)
      (db.createPast monthOpen approvalStatus start durationSec generation now today).2 := by
  unfold createPast
  dsimp only
  split
  · exact .refl _ db
  · split
    · exact .refl _ db
    · split
      · exact .refl _ db
      · next hmonth =>
        refine within_createMeeting ⟨rfl, fun hp => ?_⟩
        simpa [hp] using hmonth

/-- `takeEnd` only moves the end. -/
theorem takeEnd_date (db : Db) (m : MeetingRecord) : (db.takeEnd m).date = m.date := by
  unfold takeEnd
  split <;> rfl

/-- A meeting after `takeEnds` was there, or took over its end. -/
theorem mem_takeEnds {m : MeetingRecord} (h : m ∈ db.takeEnds.meetings) :
    m ∈ db.meetings ∨ ∃ m₀ ∈ db.meetings, db.isHealed m₀ = true ∧ m = db.takeEnd m₀ := by
  change m ∈ db.meetings.updateMany db.isHealed db.takeEnd db.takeEnd_id at h
  exact (Table.mem_updateMany.1 h).imp_left And.left

/-- An orphan keeps its id and date as it ends. -/
theorem exists_of_mem_endOrphans {m : MeetingRecord} (h : m ∈ db.endOrphans.meetings) :
    ∃ m₀ ∈ db.meetings, m.id = m₀.id ∧ m.date = m₀.date := by
  obtain ⟨m₀, hm₀, rfl⟩ := List.mem_map.1 h
  refine ⟨m₀, hm₀, ?_, ?_⟩ <;> split <;> rfl

/-- Healing touches the dates of the meetings that take over the end of their presence session, and
of those that are left without one. -/
theorem within_heal : db.Within db.healTouches db.heal.2 := by
  have htake : db.Within db.healTouches db.takeEnds :=
    within_updateMeetings db.takeEnd_date fun m hm hhealed => ⟨m, hm, Or.inl hhealed, rfl⟩
  have horphans : db.Within db.healTouches db.takeEnds.endOrphans := by
    refine htake.trans (within_updateMeetings ?_ fun m hm horphan => ?_)
    · exact fun _ => rfl
    · rcases mem_takeEnds hm with hm | ⟨m₀, hm₀, hhealed, rfl⟩
      · exact ⟨m, hm, Or.inr horphan, rfl⟩
      · exact ⟨m₀, hm₀, Or.inl hhealed, db.takeEnd_date m₀⟩
  refine horphans.trans (within_updateMeetings ?_ fun m hm hshort => ?_)
  · exact fun _ => rfl
  · -- a discarded meeting is one that took over its end
    obtain ⟨m', hm', hid'⟩ := List.mem_map.1 (of_decide_eq_true hshort).1
    obtain ⟨hm', hhealed⟩ := List.mem_filter.1 hm'
    obtain ⟨m₁, hm₁, hid, hdate⟩ := exists_of_mem_endOrphans hm
    have hsame : ∃ m₀ ∈ db.meetings, m₁.id = m₀.id ∧ m₁.date = m₀.date := by
      rcases mem_takeEnds hm₁ with hm₀ | ⟨m₀, hm₀, -, rfl⟩
      · exact ⟨m₁, hm₀, rfl, rfl⟩
      · exact ⟨m₀, hm₀, db.takeEnd_id m₀, db.takeEnd_date m₀⟩
    obtain ⟨m₀, hm₀, hid₀, hdate₀⟩ := hsame
    have heq : m' = m₀ := Table.eq_of_key hm' hm₀ (hid'.trans (hid.trans hid₀))
    exact ⟨m', hm', Or.inl hhealed,
      (hdate.trans hdate₀).trans (congrArg MeetingRecord.date heq.symm)⟩

/-! ## Away time -/

/-- A quick break from the away start, or an away stretch of the day of the open session. -/
def submitTouches (breakDayOf : DayKeyFn) (monthOpen : DateKey → Bool)
    (reasons : String → Option AwayReasonKind) (pending : Bool) (db : Db) (dto : SubmitAway)
    (now : ℤ) : Touches :=
  match db.bounds dto.startedAt now dto.reasonKey with
  | .ok ⟨session, start, none⟩ =>
    if reasons dto.reasonKey = some .brk then ⟨fun d => d = breakDayOf start, fun t => t = start⟩
    else ⟨fun d => d = session.date ∧ (pending = true → monthOpen d), fun _ => False⟩
  | _ => .nothing

/-- An away stretch of the day it lies in. -/
def unexplainedTouches (db : Db) : Touches :=
  ⟨fun d => ∃ s, (db.findOpen <|> db.findLastEnded) = some s ∧ d = s.date, fun _ => False⟩

/-- A new stretch of away time touches its date. One that waits for a decision is written only when
the month of the date is open. -/
theorem within_createAway {monthOpen : DateKey → Bool} {date : DateKey} {startedAt endedAt : ℤ}
    {reasonKey : Option String} {status : AwayStatus}
    (h : (status = .pending → monthOpen date) → T.dates date) :
    db.Within T (db.createAway monthOpen date startedAt endedAt reasonKey status).2 := by
  unfold createAway
  split
  · exact .refl _ db
  · split
    · exact .refl _ db
    · next hmonth =>
      have hdate : T.dates date := h fun hp => by simpa [hp] using hmonth
      exact { Within.refl T db with
        away := fun _ ha => Table.mem_create_outside (fun _ => rfl) (R := fun a => T.dates a.date)
          hdate ha }

/-- Explaining away time touches the date and the start of the quick break it becomes, or the date
of its session, unless the stretch waits in a locked month. -/
theorem within_submit {calendarOf breakDayOf : DayKeyFn} {monthOpen : DateKey → Bool}
    {reasons : String → Option AwayReasonKind} {pending : Bool} {dto : SubmitAway} {now : ℤ} :
    db.Within (submitTouches breakDayOf monthOpen reasons pending db dto now)
      (db.submit calendarOf breakDayOf monthOpen reasons pending dto now).2 := by
  unfold submit
  cases hkind : reasons dto.reasonKey with
  | none => exact .refl _ db
  | some kind =>
    dsimp only
    cases hbounds : db.bounds dto.startedAt now dto.reasonKey with
    | error reason => exact .refl _ db
    | ok b =>
      obtain ⟨session, start, retryOf⟩ := b
      cases retryOf with
      | some retryOf => exact .refl _ db
      | none =>
        dsimp only
        split
        · next hbrk =>
          have htouch : submitTouches breakDayOf monthOpen reasons pending db dto now =
              ⟨fun d => d = breakDayOf start, fun t => t = start⟩ := by
            simp [submitTouches, hbounds, hkind, hbrk]
          rw [htouch]
          have hquick : db.Within ⟨fun d => d = breakDayOf start, fun t => t = start⟩
              (db.startQuick ⟨breakDayOf start, plannedMinOf start now, start,
                calendarOf start⟩).2 :=
            @within_startQuick db ⟨breakDayOf start, plannedMinOf start now, start,
              calendarOf start⟩
          split
          · next heq =>
            rw [heq] at hquick
            exact hquick
          · next heq =>
            rw [heq] at hquick
            exact hquick
        · next hbrk =>
          have htouch : submitTouches breakDayOf monthOpen reasons pending db dto now =
              ⟨fun d => d = session.date ∧ (pending = true → monthOpen d), fun _ => False⟩ := by
            simp [submitTouches, hbounds, hkind, hbrk]
          rw [htouch]
          split
          · exact .refl _ db
          · have haway : db.Within
                ⟨fun d => d = session.date ∧ (pending = true → monthOpen d), fun _ => False⟩
                (db.createAway monthOpen session.date start now (some dto.reasonKey)
                  (if pending then .pending else .notRequired)).2 := by
              refine within_createAway fun hask => ⟨rfl, fun hp => hask ?_⟩
              rw [if_pos hp]
            split
            · next heq =>
              rw [heq] at haway
              exact haway
            · next heq =>
              rw [heq] at haway
              exact haway
            · next heq =>
              rw [heq] at haway
              split <;> exact haway

/-- Away time that nobody explains touches the date of the session that is open, or else of the
last one that ended. -/
theorem within_unexplained {monthOpen : DateKey → Bool} {startedAt endedAt now : ℤ} :
    db.Within db.unexplainedTouches (db.unexplained monthOpen startedAt endedAt now).2 := by
  unfold unexplained
  split
  · exact .refl _ db
  · split
    · exact .refl _ db
    · split
      · exact .refl _ db
      · next last hlast =>
        dsimp only
        split
        · exact .refl _ db
        · have haway : db.Within db.unexplainedTouches
              (db.createAway monthOpen last.date (max startedAt last.startedAt)
                (min (min endedAt (last.endedAt.getD now)) now) none .unexplained).2 := by
            refine within_createAway fun _ => ?_
            exact ⟨last, hlast, rfl⟩
          split
          · next heq =>
            rw [heq] at haway
            exact haway
          · next heq =>
            rw [heq] at haway
            exact haway
          · next heq =>
            rw [heq] at haway
            exact haway

end Db

/-! ## Steps -/

/-- What an operation on the records touches at `now`. -/
def RecordOp.touches (db : Db) (now : ℤ) : RecordOp → Touches
  | .startScheduled monthOpen record _ => db.startScheduledTouches monthOpen record now
  | .startQuick date _ => ⟨fun d => d = date, fun t => t = now⟩
  | .pause id | .markEnded id => db.stopBreakTouches id
  | .resume id _ => ⟨db.IsDayOfBreak id, fun t => t = now⟩
  | .endPausedTx id => ⟨db.IsDayOfBreak id, fun _ => False⟩
  | .endOpenForUser => ⟨fun _ => False, db.IsOpenStart⟩
  | .switchTo _ _ => ⟨fun _ => False, fun t => db.IsOpenStart t ∨ t = now⟩
  | .startLive monthOpen approvalStatus generation today =>
    db.startLiveTouches monthOpen approvalStatus generation now today
  | .endLive monthOpen id => db.endLiveTouches monthOpen id
  | .createPast monthOpen approvalStatus start durationSec _ today =>
    db.createPastTouches monthOpen approvalStatus start durationSec now today
  | .heal => db.healTouches
  | .submit monthOpen breakDayOf reasons pending dto =>
    Db.submitTouches breakDayOf monthOpen reasons pending db dto now
  | .unexplained _ _ _ => db.unexplainedTouches

/-- Every operation on breaks, meetings and away time stays within what it touches, by the lemma
of the operation. -/
theorem RecordOp.within_run {calendarOf : DayKeyFn} {db : Db} {now : ℤ} (op : RecordOp) :
    db.Within (op.touches db now) (op.run calendarOf db now) := by
  cases op with
  | startScheduled => exact Db.within_startScheduled
  | startQuick date plannedMin =>
    exact @Db.within_startQuick db ⟨date, plannedMin, now, calendarOf now⟩
  | pause => exact Db.within_pause
  | resume => exact Db.within_resume
  | endPausedTx => exact Db.within_endPausedTx fun _ h => h
  | markEnded => exact Db.within_markEnded
  | endOpenForUser => exact Db.within_closeOpenPresence fun _ h => h
  | switchTo =>
    exact (Db.within_closeOpenPresence fun _ h => Or.inl h).trans
      (Db.within_createPresence (Or.inr rfl))
  | startLive => exact Db.within_startLive
  | endLive => exact Db.within_endLive
  | createPast => exact Db.within_createPast
  | heal => exact Db.within_heal
  | submit => exact Db.within_submit
  | unexplained => exact Db.within_unexplained

namespace World

/-- What a step around the working day touches. -/
def touches (w : World) : WorldAction → Touches
  | .tick _ | .read | .complete _ => .nothing
  | .startDay startedAt _ dayOf => w.db.startDayTouches startedAt w.clock dayOf
  | .replayStartDay eventAt startedAt dayOf => w.db.startDayTouches startedAt eventAt dayOf
  | .endDay _ _ _ | .replayEndDay _ _ _ _ => w.db.endDayTouches
  | .ensureOpen generation today =>
    ⟨fun d => w.db.findOpen = none ∧ generation = .legacy ∧ d = today, fun _ => False⟩
  | .openImplicit _ today => ⟨fun d => w.db.findOpen = none ∧ d = today, fun _ => False⟩
  | .autoClose session _ _ _ _ => w.db.autoCloseTouches session
  | .extendAutoClosed session _ _ _ => w.db.sessionTouches session.id
  | .begin eventAt last shiftEnd graceMin =>
    match w.db.reopens last (latestEndOf last.startedAt shiftEnd graceMin) eventAt with
    | some r => w.db.sessionTouches r.sessionId
    | none => .nothing

variable {calendarOf : DayKeyFn} {w w' : World}

/-- Every step of the sessions stays within what it touches: the clock and the reads touch nothing,
a transaction what its lemma says. -/
theorem within_step {a : WorldAction} (h : w.step calendarOf a = some w') :
    w.db.Within (w.touches a) w'.db := by
  cases a with
  | tick now =>
    obtain ⟨-, rfl⟩ := Option.ite_none_right_eq_some.1 h |>.imp_right Option.some.inj
    exact .refl _ _
  | read =>
    obtain rfl := Option.some.inj h
    exact .refl _ _
  | startDay =>
    obtain rfl := Option.some.inj h
    exact Db.within_startDay
  | endDay =>
    obtain rfl := Option.some.inj h
    exact Db.within_endDay
  | ensureOpen =>
    obtain rfl := Option.some.inj h
    exact Db.within_ensureOpenTx
  | openImplicit =>
    obtain rfl := Option.some.inj h
    exact Db.within_openImplicit
  | autoClose =>
    obtain ⟨-, rfl⟩ := Option.ite_none_right_eq_some.1 h |>.imp_right Option.some.inj
    exact Db.within_autoClose
  | extendAutoClosed =>
    obtain ⟨-, rfl⟩ := Option.ite_none_right_eq_some.1 h |>.imp_right Option.some.inj
    exact Db.within_extendAutoClosed
  | begin eventAt last shiftEnd graceMin =>
    simp only [step] at h
    split at h
    · split_ifs at h
      · split at h
        · next r hr =>
          obtain rfl := Option.some.inj h
          rw [touches, hr]
          exact Db.within_reopenDay
        · obtain rfl := Option.some.inj h
          exact .refl _ _
      · obtain rfl := Option.some.inj h
        exact .refl _ _
    · cases h
  | replayStartDay =>
    obtain ⟨-, rfl⟩ := Option.ite_none_right_eq_some.1 h |>.imp_right Option.some.inj
    exact Db.within_startDay
  | replayEndDay =>
    obtain ⟨-, rfl⟩ := Option.ite_none_right_eq_some.1 h |>.imp_right Option.some.inj
    exact Db.within_endDay
  | complete =>
    obtain ⟨-, rfl⟩ := Option.ite_none_right_eq_some.1 h |>.imp_right Option.some.inj
    exact .refl _ _

/-- What a step around a person touches. -/
def touchesRecords (w : World) : RecordAction → Touches
  | .day a => w.touches a
  | .live op => op.touches w.db w.clock
  | .replay eventAt op => op.touches w.db eventAt

/-- Every action, on the sessions or on the records, live or replayed, stays within
what it touches. -/
theorem within_stepRecords {a : RecordAction} (h : w.stepRecords calendarOf a = some w') :
    w.db.Within (w.touchesRecords a) w'.db := by
  cases a with
  | day a => exact within_step h
  | live op =>
    obtain rfl := Option.some.inj h
    exact op.within_run
  | replay eventAt op =>
    obtain ⟨-, rfl⟩ := Option.ite_none_right_eq_some.1 h |>.imp_right Option.some.inj
    exact op.within_run

end World

end RxVision
