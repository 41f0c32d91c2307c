import RxVision.Records.Steps

/-!
# What each operation on the records writes

One theorem for each operation: the spans stay as they are (`Db.SameSpans`), or the checks of the
operation went through and it made its writes. The theorems say nothing of break records, whose
columns no span is made of.
-/

namespace RxVision

namespace Db

/-- The presence sessions, segments, meetings and away stretches are the same. -/
structure SameSpans (db db' : Db) : Prop where
  presence : db'.presence = db.presence
  segments : db'.breakSegments = db.breakSegments
  meetings : db'.meetings = db.meetings
  away : db'.away = db.away

/-- Nothing changes. -/
theorem SameSpans.refl (db : Db) : SameSpans db db := ⟨rfl, rfl, rfl, rfl⟩

variable {db : Db}

/-! ## Breaks -/

/-- The checks of `startScheduled` before it looks at presence. -/
def mayStart (monthOpen : DateKey → Bool) (db : Db) (record : NewBreakRecord)
    (calendarDay : DateKey) (now : ℤ) : Prop :=
  db.workDayEnds calendarDay = none ∧
    (∀ taken, db.takenBreak record = some taken → isReplaceableAutoSkip taken now = true) ∧
    ¬ (record.approvalStatus = .pending ∧ ¬ monthOpen record.date)

/-- `openScheduled` opens the break at `now` and closes the meeting that was running, or leaves the
tables as they were. -/
theorem openScheduled_cases {monthOpen : DateKey → Bool} {before : Db} {record : NewBreakRecord}
    {calendarDay : DateKey} {now : ℤ} {db' : Db}
    (h : (before.openScheduled monthOpen db record calendarDay now).2 = db') :
    db' = before ∨ db' = db ∨
      ¬ (record.approvalStatus = .pending ∧ ¬ monthOpen record.date) ∧
      (db.openPresence = none ∧
        SameSpans (db.createBreak (scheduledRow record) calendarDay now).2 db' ∨
        ∃ p, db.openPresence = some p ∧ p.type = .meeting ∧
          SameSpans
            ((db.closePresence p.id now).createBreak (scheduledRow record) calendarDay now).2
            db') := by
  subst h
  unfold openScheduled
  split
  · exact Or.inl rfl
  · next hmonth =>
    cases hopen : db.openPresence with
    | none => exact Or.inr (Or.inr ⟨hmonth, Or.inl ⟨rfl, .refl _⟩⟩)
    | some p =>
      dsimp only
      split
      · exact Or.inr (Or.inl rfl)
      · next htype => exact Or.inr (Or.inr ⟨hmonth, Or.inr ⟨p, rfl, not_not.1 htype, .refl _⟩⟩)

/-- A scheduled break that replaces an auto-skip deletes it, also when the break
itself is refused then. -/
theorem startScheduled_cases {monthOpen : DateKey → Bool} {record : NewBreakRecord}
    {calendarDay : DateKey} {now : ℤ} {db' : Db}
    (h : (db.startScheduled monthOpen record calendarDay now).2 = db') :
    ∃ db₀, (db₀ = db ∨ ∃ id, db₀ = db.deleteBreak id) ∧
      (db' = db₀ ∨ db.mayStart monthOpen record calendarDay now ∧
        (db₀.openPresence = none ∧
            SameSpans (db₀.createBreak (scheduledRow record) calendarDay now).2 db' ∨
          ∃ p, db₀.openPresence = some p ∧ p.type = .meeting ∧
            SameSpans
              ((db₀.closePresence p.id now).createBreak (scheduledRow record) calendarDay now).2
              db')) := by
  unfold startScheduled at h
  split at h
  · exact ⟨db, Or.inl rfl, Or.inl h.symm⟩
  · next hday =>
    have hday : db.workDayEnds calendarDay = none := by simpa using hday
    cases htaken : db.takenBreak record with
    | none =>
      simp only [htaken] at h
      rcases openScheduled_cases h with h | h | ⟨hmonth, h⟩
      · exact ⟨db, Or.inl rfl, Or.inl h⟩
      · exact ⟨db, Or.inl rfl, Or.inl h⟩
      · exact ⟨db, Or.inl rfl, Or.inr ⟨⟨hday, by simp [htaken], hmonth⟩, h⟩⟩
    | some taken =>
      simp only [htaken] at h
      split at h
      · exact ⟨db, Or.inl rfl, Or.inl h.symm⟩
      · next hskip =>
        rcases openScheduled_cases h with h | h | ⟨hmonth, h⟩
        · exact ⟨db, Or.inl rfl, Or.inl h⟩
        · exact ⟨_, Or.inr ⟨_, rfl⟩, Or.inl h⟩
        · refine ⟨_, Or.inr ⟨taken.id, rfl⟩, Or.inr ⟨⟨hday, ?_, hmonth⟩, h⟩⟩
          simpa [htaken] using hskip

/-- The checks of `startQuick` before it looks at presence. -/
def mayStartQuick (db : Db) (calendarDay : DateKey) : Prop :=
  db.workDayEnds calendarDay = none ∧ db.findOpen ≠ none

/-- A quick break is refused, or creates a running break when no presence session is open. -/
theorem startQuick_cases {input : NewQuickBreak} {db' : Db} (h : (db.startQuick input).2 = db') :
    db' = db ∨ db.mayStartQuick input.calendarDay ∧ db.openPresence = none ∧
      ∃ r : BreakRecord, SameSpans (db.createBreak r input.calendarDay input.startedAt).2 db' := by
  subst h
  unfold startQuick
  split
  · exact Or.inl rfl
  · next hday =>
    split
    · exact Or.inl rfl
    · next hsession =>
      cases db.openPresence with
      | some p => exact Or.inl rfl
      | none =>
        exact Or.inr ⟨⟨by simpa using hday, by simpa using hsession⟩, rfl, _, .refl _⟩

/-- The checks of `pause`. -/
def mayPause (db : Db) (row : BreakRecord) : Prop :=
  row.kind ≠ some .quick ∧ row.kind ≠ none ∧ db.isRunning row = true

/-- A pause is refused, or closes the break's presence session and segments at `now`. -/
theorem pause_cases {id : ℕ} {now : ℤ} {db' : Db} (h : (db.pause id now).2 = db') :
    db' = db ∨ ∃ row, db.breakRecords.find? (fun r => r.id = id) = some row ∧ db.mayPause row ∧
      SameSpans ((db.closeOwnPresence row.presenceSessionId now).closeSegments id now) db' := by
  subst h
  unfold pause
  cases hrow : db.breakRecords.find? fun r => r.id = id with
  | none => exact Or.inl rfl
  | some row =>
    dsimp only
    split
    · exact Or.inl rfl
    · next hkind =>
      split
      · exact Or.inl rfl
      · next hrun =>
        rw [not_or] at hkind
        exact Or.inr ⟨row, rfl, ⟨hkind.1, hkind.2, not_not.1 hrun⟩, ⟨rfl, rfl, rfl, rfl⟩⟩

/-- A paused break ends without a span being touched. -/
theorem endPausedTx_sameSpans (id : ℕ) (now : ℤ) : SameSpans db (db.endPausedTx id now).2 := by
  unfold endPausedTx
  split
  · exact .refl db
  · split
    · exact .refl db
    · exact ⟨rfl, rfl, rfl, rfl⟩

/-- The checks of `resume` before it looks at presence. -/
def mayResume (db : Db) (row : BreakRecord) (now : ℤ) (calendarDay : DateKey) : Prop :=
  row.state = .paused ∧ (∀ close, row.windowClose = some close → now ≤ close) ∧
    db.mayStartQuick calendarDay

/-- A resumption changes no span, or opens a segment of the break at `now`. -/
theorem resume_cases {id : ℕ} {now : ℤ} {calendarDay : DateKey} {db' : Db}
    (h : (db.resume id now calendarDay).2 = db') :
    SameSpans db db' ∨ ∃ row, db.breakRecords.find? (fun r => r.id = id) = some row ∧
      db.mayResume row now calendarDay ∧ db.openPresence = none ∧
      SameSpans (db.openSegment id row.presenceType calendarDay now) db' := by
  subst h
  unfold resume
  cases hrow : db.breakRecords.find? fun r => r.id = id with
  | none => exact Or.inl (.refl db)
  | some row =>
    dsimp only
    split
    · exact Or.inl (.refl db)
    · next hstate =>
      split
      · exact Or.inl (endPausedTx_sameSpans id now)
      · next hwindow =>
        split
        · exact Or.inl (.refl db)
        · next hday =>
          split
          · exact Or.inl (.refl db)
          · next hsession =>
            cases db.openPresence with
            | some p => exact Or.inl (.refl db)
            | none =>
              refine Or.inr
                ⟨row, rfl, ⟨not_not.1 hstate, fun close hclose => ?_, by simpa using hday,
                by simpa using hsession⟩, rfl, ⟨rfl, rfl, rfl, rfl⟩⟩
              simpa [hclose] using hwindow

/-- The record runs on: `markEnded` ends it. -/
def MayEnd (row : BreakRecord) : Prop :=
  row.state ≠ .paused ∧ ¬ (row.state = .ended ∧ row.endedAt.isSome)

/-- Ending a break changes no span, or closes its presence session and segments at the
end that is given. -/
theorem markEnded_cases {id : ℕ} {t : ℤ} {db' : Db} (h : (db.markEnded id t).2 = db') :
    SameSpans db db' ∨ ∃ row, db.breakRecords.find? (fun r => r.id = id) = some row ∧ MayEnd row ∧
      SameSpans ((db.closeOwnPresence row.presenceSessionId t).closeSegments id t) db' := by
  subst h
  unfold markEnded
  cases hrow : db.breakRecords.find? fun r => r.id = id with
  | none => exact Or.inl (.refl db)
  | some row =>
    dsimp only
    split
    · exact Or.inl (endPausedTx_sameSpans id t)
    · next hstate =>
      split
      · exact Or.inl (.refl db)
      · next hended => exact Or.inr ⟨row, rfl, ⟨hstate, hended⟩, ⟨rfl, rfl, rfl, rfl⟩⟩

/-! ## Meetings -/

/-- A session that is opened with a meeting is no break, meeting or away record, so it changes
none of their spans. -/
theorem ensureOpenTx_sameSpans (generation : AgentGeneration) (now : ℤ) (today : DateKey) :
    SameSpans db (db.ensureOpenTx generation now today).2 := by
  unfold ensureOpenTx
  cases db.findOpen with
  | some s => exact .refl db
  | none =>
    cases generation with
    | agent31 => exact .refl db
    | legacy =>
      dsimp only
      split
      · exact .refl db
      · exact ⟨rfl, rfl, rfl, rfl⟩

/-- The day of a live meeting: its session's, or today in a session opened for it; `none`
when the day is closed. -/
def liveDay (db : Db) (generation : AgentGeneration) (now : ℤ) (today : DateKey) : Option DateKey :=
  match db.ensureOpenTx generation now today with
  | (.ok s _, _) => some s.date
  | (.refused _, _) => none

/-- The checks of `startLive` before it looks at presence. -/
def mayStartLive (monthOpen : DateKey → Bool) (db : Db) (approvalStatus : BreakApprovalStatus)
    (generation : AgentGeneration) (now : ℤ) (today : DateKey) : Prop :=
  ∃ date, db.liveDay generation now today = some date ∧
    ¬ (approvalStatus = .pending ∧ ¬ monthOpen date)

/-- The write of a live start gives way to a locked month, or creates the meeting with its
presence session. -/
theorem openLive_cases {calendarOf : DayKeyFn} {monthOpen : DateKey → Bool} {before : Db}
    {approvalStatus : BreakApprovalStatus} {date : DateKey} {now : ℤ} {db' : Db}
    (h : (before.openLive calendarOf monthOpen db approvalStatus date now).2 = db') :
    db' = before ∨ ¬ (approvalStatus = .pending ∧ ¬ monthOpen date) ∧
      db' = (db.createLive calendarOf approvalStatus date now).2 := by
  subst h
  unfold openLive
  split
  · exact Or.inl rfl
  · next hmonth => exact Or.inr ⟨hmonth, rfl⟩

/-- A live start is refused, or creates a running meeting in the open session. -/
theorem startLive_cases {calendarOf : DayKeyFn} {monthOpen : DateKey → Bool}
    {approvalStatus : BreakApprovalStatus} {generation : AgentGeneration} {now : ℤ}
    {today : DateKey} {db' : Db}
    (h : (db.startLive calendarOf monthOpen approvalStatus generation now today).2 = db') :
    db' = db ∨ db.mayStartLive monthOpen approvalStatus generation now today ∧
      db.openPresence = none ∧ ∃ db₀ date, SameSpans db db₀ ∧
        db' = (db₀.createLive calendarOf approvalStatus date now).2 := by
  unfold startLive at h
  split at h
  · exact Or.inl h.symm
  · cases hpresence : db.openPresence with
    | some p =>
      simp only [hpresence] at h
      exact Or.inl h.symm
    | none =>
      simp only [hpresence] at h
      cases hopen : db.findOpen with
      | some s =>
        simp only [hopen] at h
        rcases openLive_cases h with h | ⟨hmonth, h⟩
        · exact Or.inl h
        · exact Or.inr ⟨⟨s.date, by simp [liveDay, ensureOpenTx, hopen], hmonth⟩, rfl, db, s.date,
            .refl db, h⟩
      | none =>
        simp only [hopen] at h
        have hsame : SameSpans db (db.ensureOpenTx generation now today).2 :=
          ensureOpenTx_sameSpans generation now today
        cases hensure : db.ensureOpenTx generation now today with
        | mk result db₀ =>
          rw [hensure] at h hsame
          cases result with
          | refused code => exact Or.inl h.symm
          | ok s implicit =>
            rcases openLive_cases h with h | ⟨hmonth, h⟩
            · exact Or.inl h
            · exact Or.inr ⟨⟨s.date, by simp [liveDay, hensure], hmonth⟩, rfl,
                db₀, s.date, hsame, h⟩

/-- The checks of `endLive`. -/
def MayEndLive (monthOpen : DateKey → Bool) (row : MeetingRecord) : Prop :=
  row.mode = .live ∧ row.endedAt = none ∧
    ¬ (row.approvalStatus = .pending ∧ ¬ monthOpen row.date)

/-- When `endLive` ends a meeting. -/
def liveEnd (db : Db) (row : MeetingRecord) (now : ℤ) : ℤ :=
  ((db.presenceOf row.presenceSessionId).bind PresenceSession.endedAt).getD now

/-- A live meeting ends at `stop`; its start stays. -/
structure EndsAt (stop : ℤ) (f : MeetingRecord → MeetingRecord) : Prop where
  startedAt : ∀ m, (f m).startedAt = m.startedAt
  endedAt : ∀ m, (f m).endedAt = some stop

/-- Ending a live meeting is refused, or closes its presence session and gives the
meeting its end. -/
theorem endLive_cases {monthOpen : DateKey → Bool} {id : ℕ} {now : ℤ} {db' : Db}
    (h : (db.endLive monthOpen id now).2 = db') :
    db' = db ∨ ∃ row, db.meetings.find? (fun m => m.id = id) = some row ∧
      MayEndLive monthOpen row ∧ ∃ f hf, EndsAt (db.liveEnd row now) f ∧
        db' = (db.closeOwnPresence row.presenceSessionId now).updateMeeting id f hf := by
  subst h
  unfold endLive
  cases hrow : db.meetings.find? fun m => m.id = id with
  | none => exact Or.inl rfl
  | some row =>
    dsimp only
    split
    · exact Or.inl rfl
    · split
      · exact Or.inl rfl
      · next hlive =>
        split
        · exact Or.inl rfl
        · next hmonth =>
          rw [not_or, not_not] at hlive
          have hmay : MayEndLive monthOpen row := ⟨hlive.1, by simpa using hlive.2, hmonth⟩
          split
          · refine Or.inr ⟨row, rfl, hmay, _, ?_, ?_, rfl⟩
            · exact fun _ => rfl
            · exact ⟨fun _ => rfl, fun _ => rfl⟩
          · refine Or.inr ⟨row, rfl, hmay, _, ?_, ?_, rfl⟩
            · exact fun _ => rfl
            · exact ⟨fun _ => rfl, fun _ => rfl⟩

/-- An earlier meeting is refused, or is stored after the check of its time. -/
theorem createPast_cases {monthOpen : DateKey → Bool} {approvalStatus : BreakApprovalStatus}
    {start : ℤ} {durationSec : ℕ} {generation : AgentGeneration} {now : ℤ} {today : DateKey}
    {db' : Db}
    (h : (db.createPast monthOpen approvalStatus start durationSec generation now today).2 = db') :
    db' = db ∨
      (∃ sessions, checkPastMeeting start (start + durationSec * 1000) now sessions
          (db.breaksAround start (start + durationSec * 1000))
          (db.meetingsAround start (start + durationSec * 1000)) = none) ∧
      ∃ date, db' = { db with
        meetings := db.meetings.create (fun id =>
          { id, date, mode := .past, startedAt := start,
            endedAt := some (start + durationSec * 1000),
            durationSec := some durationSec, approvalStatus }) fun _ => rfl } := by
  subst h
  unfold createPast
  dsimp only
  split
  · exact Or.inl rfl
  · split
    · exact Or.inl rfl
    · next hcheck =>
      split
      · exact Or.inl rfl
      · exact Or.inr ⟨⟨_, hcheck⟩, _, rfl⟩

/-- A healed meeting takes over the end of its presence session. -/
theorem isHealed_cases {m : MeetingRecord} (h : db.isHealed m = true) :
    m.endedAt = none ∧ ∃ p e, db.presenceOf m.presenceSessionId = some p ∧ p.endedAt = some e ∧
      db.takeEnd m =
        { m with endedAt := some e, durationSec := some (elapsedSec m.startedAt e) } := by
  obtain ⟨hopen, hstop⟩ := of_decide_eq_true h
  obtain ⟨e, he⟩ := Option.isSome_iff_exists.1 hstop
  obtain ⟨p, hp, hpe⟩ := Option.bind_eq_some_iff.1 he
  exact ⟨Option.isNone_iff_eq_none.1 hopen, p, e, hp, hpe, by simp only [takeEnd, he]⟩

/-! ## Away time -/

/-- The start that `bounds` gives an away stretch: inside the open session, and after the away time
that was answered before. -/
theorem bounds_eq_ok {startedAt : Option ℤ} {now : ℤ} {key : String} {session : WorkSession}
    {start : ℤ} (h : db.bounds startedAt now key = .ok ⟨session, start, none⟩) :
    ∃ t, startedAt = some t ∧ db.findOpen = some session ∧
      (∀ p ∈ db.presenceOverlapping t now, p.endedAt ≠ none) ∧
      start = (if coveredUntil (db.earlierAway session now) (db.awayStart t session now) >
          db.awayStart t session now
        then min (coveredUntil (db.earlierAway session now) (db.awayStart t session now)) now
        else db.awayStart t session now) := by
  unfold bounds at h
  split at h
  · cases h
  · next t =>
    split at h
    · cases h
    · split at h
      · cases h
      · cases hs : db.findOpen with
        | none => simp [hs] at h
        | some s =>
          simp only [hs] at h
          split at h
          · cases h
          · next hopen =>
            split at h
            · cases h
            · obtain ⟨rfl, rfl, -⟩ := AwayBounds.mk.inj (Except.ok.inj h)
              refine ⟨t, rfl, rfl, fun p hp hp0 => hopen ?_, rfl⟩
              exact List.any_eq_true.2 ⟨p, hp, by simp [hp0]⟩

/-- Away time starts before it is reported. -/
theorem awayStart_le (t : ℤ) (session : WorkSession) (now : ℤ) :
    db.awayStart t session now ≤ now := by
  unfold awayStart
  dsimp only
  split <;> omega

/-- A stretch never starts after its answer. -/
theorem bounds_start_le {startedAt : Option ℤ} {now : ℤ} {key : String} {session : WorkSession}
    {start : ℤ} (h : db.bounds startedAt now key = .ok ⟨session, start, none⟩) : start ≤ now := by
  obtain ⟨t, -, -, -, rfl⟩ := bounds_eq_ok h
  have := db.awayStart_le t session now
  split <;> omega

/-- No stored stretch overlaps `[start, stop)`. -/
def AwayFree (db : Db) (start stop : ℤ) : Prop :=
  ∀ a ∈ db.away, a.startedAt < stop → ∃ e, a.endedAt = some e ∧ e ≤ start

/-- Away time is refused, or is stored where there is none yet. -/
theorem createAway_cases {monthOpen : DateKey → Bool} {date : DateKey} {startedAt endedAt : ℤ}
    {reasonKey : Option String} {status : AwayStatus} {db' : Db}
    (h : (db.createAway monthOpen date startedAt endedAt reasonKey status).2 = db') :
    db' = db ∨ db.AwayFree startedAt endedAt ∧ ∃ row : ℕ → AwayEvent, ∃ hrow,
      (∀ id, (row id).date = date ∧ (row id).startedAt = startedAt ∧
        (row id).endedAt = some endedAt) ∧
      db' = { db with away := db.away.create row hrow } := by
  subst h
  unfold createAway
  split
  · exact Or.inl rfl
  · next hfree =>
    split
    · exact Or.inl rfl
    · refine Or.inr ⟨fun a ha hstart => ?_, _, fun _ => rfl, fun _ => ⟨rfl, rfl, rfl⟩, rfl⟩
      have hnot := Table.findLast?_eq_none.1 hfree a ha
      cases hstop : a.endedAt with
      | none => simp [hstop, hstart] at hnot
      | some e => exact ⟨e, rfl, by simpa [hstop, hstart] using hnot⟩

/-- Explained away time is refused, becomes a quick break, or is stored as away time. -/
theorem submit_cases {calendarOf breakDayOf : DayKeyFn} {monthOpen : DateKey → Bool}
    {reasons : String → Option AwayReasonKind} {pending : Bool} {dto : SubmitAway} {now : ℤ}
    {db' : Db} (h : (db.submit calendarOf breakDayOf monthOpen reasons pending dto now).2 = db') :
    db' = db ∨ ∃ kind session start, reasons dto.reasonKey = some kind ∧
      db.bounds dto.startedAt now dto.reasonKey = .ok ⟨session, start, none⟩ ∧
      (kind = .brk ∧ (db.startQuick
          ⟨breakDayOf start, plannedMinOf start now, start, calendarOf start⟩).2 = db' ∨
        kind ≠ .brk ∧ dto.problems kind = [] ∧ ∃ status,
          (db.createAway monthOpen session.date start now (some dto.reasonKey)
            status).2 = db') := by
  subst h
  unfold submit
  split
  · exact Or.inl rfl
  · next kind hkind =>
    split
    · exact Or.inl rfl
    · exact Or.inl rfl
    · next session start hbounds =>
      split
      · next hbrk =>
        refine Or.inr ⟨kind, session, start, hkind, hbounds, Or.inl ⟨hbrk, ?_⟩⟩
        split
        · next hquick => rw [hquick]
        · next hquick => rw [hquick]
      · next hbrk =>
        split
        · exact Or.inl rfl
        · next hproblems =>
          generalize (if pending then AwayStatus.pending else .notRequired) = status
          refine Or.inr ⟨kind, session, start, hkind, hbounds,
            Or.inr ⟨hbrk, not_not.1 hproblems, status, ?_⟩⟩
          split
          · next haway => rw [haway]
          · next haway => rw [haway]
          · next haway =>
            rw [haway]
            dsimp only
            split <;> rfl

/-- Away time that nobody explains is refused, or is stored for the open or the last ended session.
-/
theorem unexplained_cases {monthOpen : DateKey → Bool} {startedAt endedAt now : ℤ} {db' : Db}
    (h : (db.unexplained monthOpen startedAt endedAt now).2 = db') :
    db' = db ∨ startedAt < endedAt ∧ ∃ last, (db.findOpen <|> db.findLastEnded) = some last ∧
      (db.createAway monthOpen last.date (max startedAt last.startedAt)
        (min (min endedAt (last.endedAt.getD now)) now) none .unexplained).2 = db' := by
  subst h
  unfold unexplained
  split
  · exact Or.inl rfl
  · next hafter =>
    split
    · exact Or.inl rfl
    · split
      · exact Or.inl rfl
      · next last hlast =>
        dsimp only
        split
        · exact Or.inl rfl
        · refine Or.inr ⟨not_le.1 hafter, last, hlast, ?_⟩
          split
          · next haway => rw [haway]
          · next haway => rw [haway]
          · next haway => rw [haway]

end Db

end RxVision
