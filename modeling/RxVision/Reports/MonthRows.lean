import RxVision.Records.Steps

/-!
# What a month is built from (`day-data.service.ts`)

A month report reads the rows dated in it: work sessions, break records with their segments,
meetings and away stretches, the presence sessions that overlap a day's work sessions, and the ones
its breaks point at, whose times a break is read with. `Db.Decides` says which rows those are,
`Touches` which rows an operation may create, change or delete, and `Db.Within` that it leaves all
others alone. An operation that touches nothing that decides a month leaves the month's rows as they
are (`Db.Within.monthRows`).
-/

namespace RxVision

/-- A row of one person. -/
inductive Row
  | session (s : WorkSession)
  | brk (r : BreakRecord)
  | segment (g : BreakSegment)
  | meeting (m : MeetingRecord)
  | away (a : AwayEvent)
  | presence (p : PresenceSession)

/-- The dates of the rows an operation may write, and the starts of the presence sessions it may
open or close. A segment has the date of its break. -/
structure Touches where
  dates : DateKey → Prop
  starts : ℤ → Prop

/-- An operation that writes none of these rows. -/
def Touches.nothing : Touches := ⟨fun _ => False, fun _ => False⟩

namespace Db

/-- The tables hold the row. -/
def Has (db : Db) : Row → Prop
  | .session s => s ∈ db.workSessions
  | .brk r => r ∈ db.breakRecords
  | .segment g => g ∈ db.breakSegments
  | .meeting m => m ∈ db.meetings
  | .away a => a ∈ db.away
  | .presence p => p ∈ db.presence

/-- A session of the days `days` has not ended by `t`. -/
def RunsPast (days : DateKey → Prop) (db : Db) (t : ℤ) : Prop :=
  ∃ s ∈ db.workSessions, days s.date ∧ ∀ e, s.endedAt = some e → t < e

/-- A break of the days `days`, or a segment of one, points at the presence session `p`. -/
def Links (days : DateKey → Prop) (db : Db) (p : PresenceSession) : Prop :=
  ∃ r ∈ db.breakRecords, days r.date ∧ (r.presenceSessionId = some p.id ∨
    ∃ g ∈ db.breakSegments, g.breakRecordId = r.id ∧ g.presenceSessionId = some p.id)

/-- A presence session that starts at `t` may decide the days `days`: one of their sessions
has not ended by `t`, or one of their breaks points at a session that starts then, or at one
that is still to come. -/
def Reaches (days : DateKey → Prop) (db : Db) (t : ℤ) : Prop :=
  db.RunsPast days t ∨
    ∃ p, db.Links days p ∧ p.startedAt = t ∧ (p ∈ db.presence ∨ db.presence.next ≤ p.id)

/-- The row is dated on one of the days `days`, overlaps the work sessions of one, or has the
times of a break of one. -/
def Decides (days : DateKey → Prop) (db : Db) : Row → Prop
  | .session s => days s.date
  | .brk r => days r.date
  | .segment g => ∃ r ∈ db.breakRecords, r.id = g.breakRecordId ∧ days r.date
  | .meeting m => days m.date
  | .away a => days a.date
  | .presence p => db.Links days p ∨ (db.RunsPast days p.startedAt ∧
    ∃ s ∈ db.workSessions, days s.date ∧ ∀ e, p.endedAt = some e → s.startedAt < e)

/-- The rows that decide the days `days`. -/
def monthRows (days : DateKey → Prop) (db : Db) :
    Set Row := {row | db.Has row ∧ db.Decides days row}

/-- Only rows that `T` names differ, and a presence session that was there keeps its start. -/
structure Within (T : Touches) (db db' : Db) : Prop where
  workSessions : ∀ s : WorkSession, ¬ T.dates s.date → (s ∈ db'.workSessions ↔ s ∈ db.workSessions)
  breakRecords : ∀ r : BreakRecord, ¬ T.dates r.date → (r ∈ db'.breakRecords ↔ r ∈ db.breakRecords)
  breakSegments : ∀ g : BreakSegment,
    (∃ r ∈ db.breakRecords, r.id = g.breakRecordId ∧ ¬ T.dates r.date) →
    (g ∈ db'.breakSegments ↔ g ∈ db.breakSegments)
  meetings : ∀ m : MeetingRecord, ¬ T.dates m.date → (m ∈ db'.meetings ↔ m ∈ db.meetings)
  away : ∀ a : AwayEvent, ¬ T.dates a.date → (a ∈ db'.away ↔ a ∈ db.away)
  presence : ∀ p : PresenceSession, ¬ T.starts p.startedAt → (p ∈ db'.presence ↔ p ∈ db.presence)
  next : db.presence.next ≤ db'.presence.next
  kept : ∀ p ∈ db'.presence, p.id < db.presence.next →
    ∃ p₀ ∈ db.presence, p₀.id = p.id ∧ p₀.startedAt = p.startedAt

variable {db db' db'' : Db} {T T' : Touches} {days : DateKey → Prop}

/-- Tables that no operation writes are within any rows, the empty set of them too. -/
theorem Within.refl (T : Touches) (db : Db) : db.Within T db where
  workSessions _ _ := .rfl
  breakRecords _ _ := .rfl
  breakSegments _ _ := .rfl
  meetings _ _ := .rfl
  away _ _ := .rfl
  presence _ _ := .rfl
  next := Nat.le_refl _
  kept p hp _ := ⟨p, hp, rfl, rfl⟩

/-- Two operations after one another that only write the same rows write, together, only these. -/
theorem Within.trans (h : db.Within T db') (h' : db'.Within T db'') : db.Within T db'' where
  workSessions s hs := (h'.workSessions s hs).trans (h.workSessions s hs)
  breakRecords r hr := (h'.breakRecords r hr).trans (h.breakRecords r hr)
  breakSegments g hg := by
    obtain ⟨r, hr, hid, hd⟩ := hg
    exact (h'.breakSegments g ⟨r, (h.breakRecords r hd).2 hr, hid, hd⟩).trans
      (h.breakSegments g ⟨r, hr, hid, hd⟩)
  meetings m hm := (h'.meetings m hm).trans (h.meetings m hm)
  away a ha := (h'.away a ha).trans (h.away a ha)
  presence p hp := (h'.presence p hp).trans (h.presence p hp)
  next := h.next.trans h'.next
  kept p hp hlt := by
    obtain ⟨p', hp', hid', hstart'⟩ := h'.kept p hp (hlt.trans_le h.next)
    obtain ⟨p₀, hp₀, hid, hstart⟩ := h.kept p' hp' (hid' ▸ hlt)
    exact ⟨p₀, hp₀, hid.trans hid', hstart.trans hstart'⟩

/-- An operation that writes some rows only writes rows among more of them. -/
theorem Within.mono (h : db.Within T db') (hdates : ∀ d, T.dates d → T'.dates d)
    (hstarts : ∀ t, T.starts t → T'.starts t) : db.Within T' db' where
  workSessions s hs := h.workSessions s fun hd => hs (hdates _ hd)
  breakRecords r hr := h.breakRecords r fun hd => hr (hdates _ hd)
  breakSegments g hg := by
    obtain ⟨r, hr, hid, hd⟩ := hg
    exact h.breakSegments g ⟨r, hr, hid, fun ht => hd (hdates _ ht)⟩
  meetings m hm := h.meetings m fun hd => hm (hdates _ hd)
  away a ha := h.away a fun hd => ha (hdates _ hd)
  presence p hp := h.presence p fun hd => hp (hstarts _ hd)
  next := h.next
  kept := h.kept

/-- End Day marks are no rows of a month. -/
theorem Within.of_marks (h : db.Within T db') {marks : DateKey → Option ℤ} :
    db.Within T { db' with workDayEnds := marks } :=
  { h with }

/-! ## A month that nothing touches -/

/-- The breaks of a month that is not touched are the same. -/
theorem Within.mem_breakRecords (h : db.Within T db') (hdates : ∀ d, T.dates d → ¬ days d)
    {r : BreakRecord} (hd : days r.date) : r ∈ db'.breakRecords ↔ r ∈ db.breakRecords :=
  h.breakRecords r fun ht => hdates _ ht hd

/-- The segments of such a month's breaks are the same. -/
theorem Within.mem_breakSegments (h : db.Within T db') (hdates : ∀ d, T.dates d → ¬ days d)
    {r : BreakRecord} (hr : r ∈ db.breakRecords) (hd : days r.date) {g : BreakSegment}
    (hg : g.breakRecordId = r.id) : g ∈ db'.breakSegments ↔ g ∈ db.breakSegments :=
  h.breakSegments g ⟨r, hr, hg.symm, fun ht => hdates _ ht hd⟩

/-- When no date of the days is touched, their breaks point at the same presence sessions
before and after. -/
theorem Within.links (h : db.Within T db') (hdates : ∀ d, T.dates d → ¬ days d)
    (p : PresenceSession) : db'.Links days p ↔ db.Links days p := by
  have hsegments : ∀ r ∈ db.breakRecords, days r.date →
      ((∃ g ∈ db'.breakSegments, g.breakRecordId = r.id ∧ g.presenceSessionId = some p.id) ↔
        ∃ g ∈ db.breakSegments, g.breakRecordId = r.id ∧ g.presenceSessionId = some p.id) :=
    fun r hr hd => exists_congr fun g => and_congr_left fun hg =>
      h.mem_breakSegments hdates hr hd hg.1
  constructor
  · rintro ⟨r, hr, hd, hlink⟩
    have hr := (h.mem_breakRecords hdates hd).1 hr
    exact ⟨r, hr, hd, hlink.imp_right (hsegments r hr hd).1⟩
  · rintro ⟨r, hr, hd, hlink⟩
    exact ⟨r, (h.mem_breakRecords hdates hd).2 hr, hd, hlink.imp_right (hsegments r hr hd).2⟩

/-- The rows that decide a month decide it still, and no new ones do, when no row of the
month is touched. -/
theorem Within.decides (h : db.Within T db') (hdates : ∀ d, T.dates d → ¬ days d) (row : Row) :
    db'.Decides days row ↔ db.Decides days row := by
  have hsession : ∀ s : WorkSession, days s.date → (s ∈ db'.workSessions ↔ s ∈ db.workSessions) :=
    fun s hs => h.workSessions s fun hd => hdates _ hd hs
  have hruns : ∀ t, db'.RunsPast days t ↔ db.RunsPast days t := fun t =>
    exists_congr fun s => and_congr_left fun hs => hsession s hs.1
  cases row with
  | session | brk | meeting | away => exact .rfl
  | segment g =>
    exact exists_congr fun r => and_congr_left fun hr => h.mem_breakRecords hdates hr.2
  | presence p =>
    refine or_congr (h.links hdates p) (and_congr (hruns _) ?_)
    exact exists_congr fun s => and_congr_left fun hs => hsession s hs.1

/-- A presence session that decides a month that is not touched is the same: none that may decide it
is opened or closed. One that a break points at and that is new would have been still to come. -/
theorem Within.mem_presence (h : db.Within T db') (hstarts : ∀ t, T.starts t → ¬ db.Reaches days t)
    {p : PresenceSession} (hd : db.Decides days (.presence p)) :
    p ∈ db'.presence ↔ p ∈ db.presence := by
  by_cases ht : T.starts p.startedAt
  · have hfree := hstarts _ ht
    rcases hd with hlink | ⟨hruns, -⟩
    · refine iff_of_false (fun hp => hfree (Or.inr ?_)) fun hp =>
        hfree (Or.inr ⟨p, hlink, rfl, Or.inl hp⟩)
      rcases Nat.lt_or_ge p.id db.presence.next with hlt | hge
      · obtain ⟨p₀, hp₀, hid, hstart⟩ := h.kept p hp hlt
        refine ⟨p₀, ?_, hstart, Or.inl hp₀⟩
        unfold Links at *
        rwa [hid]
      · exact ⟨p, hlink, rfl, Or.inr hge⟩
    · exact absurd (Or.inl hruns) hfree
  · exact h.presence p ht

/-- An operation that writes no row of the month, and opens or closes no presence session that may
decide it, leaves the month's rows. -/
theorem Within.monthRows (h : db.Within T db') (hdates : ∀ d, T.dates d → ¬ days d)
    (hstarts : ∀ t, T.starts t → ¬ db.Reaches days t) : db'.monthRows days = db.monthRows days := by
  ext row
  change db'.Has row ∧ db'.Decides days row ↔ db.Has row ∧ db.Decides days row
  rw [h.decides hdates row]
  refine and_congr_left fun hd => ?_
  cases row with
  | session s => exact h.workSessions s fun ht => hdates _ ht hd
  | brk r => exact h.mem_breakRecords hdates hd
  | segment g =>
    obtain ⟨r, hr, hid, hd⟩ := hd
    exact h.mem_breakSegments hdates hr hd hid.symm
  | meeting m => exact h.meetings m fun ht => hdates _ ht hd
  | away a => exact h.away a fun ht => hdates _ ht hd
  | presence p => exact h.mem_presence hstarts hd

/-! ## Single writes -/

/-- A new work session, whatever happens to the End Day marks. -/
theorem within_createSession {row : ℕ → WorkSession} {hrow : ∀ n, (row n).id = n}
    {marks : DateKey → Option ℤ} (h : T.dates (row db.workSessions.next).date) :
    db.Within T
      { db with workSessions := db.workSessions.create row hrow, workDayEnds := marks } :=
  { Within.refl T db with
    workSessions := fun _ hs => Table.mem_create_outside hrow (R := fun s => T.dates s.date) h hs }

/-- An update of work sessions that keep their date touches the dates of those it meets. -/
theorem within_updateSessions {p : WorkSession → Bool} {f : WorkSession → WorkSession}
    {hf : ∀ s, (f s).id = s.id} {marks : DateKey → Option ℤ} (hdate : ∀ s, (f s).date = s.date)
    (h : ∀ s ∈ db.workSessions, p s = true → T.dates s.date) :
    db.Within T
      { db with workSessions := db.workSessions.updateMany p f hf, workDayEnds := marks } :=
  { Within.refl T db with
    workSessions := fun _ hs => Table.mem_updateMany_outside hf (R := fun s => T.dates s.date)
      (fun r hr hp => ⟨h r hr hp, (hdate r).symm ▸ h r hr hp⟩) hs }

/-- Meetings that keep their date. -/
theorem within_updateMeetings {p : MeetingRecord → Bool} {f : MeetingRecord → MeetingRecord}
    {hf : ∀ m, (f m).id = m.id} (hdate : ∀ m, (f m).date = m.date)
    (h : ∀ m ∈ db.meetings, p m = true → T.dates m.date) :
    db.Within T { db with meetings := db.meetings.updateMany p f hf } :=
  { Within.refl T db with
    meetings := fun _ hm => Table.mem_updateMany_outside hf (R := fun m => T.dates m.date)
      (fun r hr hp => ⟨h r hr hp, (hdate r).symm ▸ h r hr hp⟩) hm }

/-- An update of presence sessions that keep their start touches the starts of those it meets. -/
theorem within_updatePresence {p : PresenceSession → Bool} {f : PresenceSession → PresenceSession}
    {hf : ∀ q, (f q).id = q.id} (hstart : ∀ q, (f q).startedAt = q.startedAt)
    (h : ∀ q ∈ db.presence, p q = true → T.starts q.startedAt) :
    db.Within T { db with presence := db.presence.updateMany p f hf } :=
  { Within.refl T db with
    presence := fun _ hq => Table.mem_updateMany_outside hf (R := fun q => T.starts q.startedAt)
      (fun r hr hp => ⟨h r hr hp, (hstart r).symm ▸ h r hr hp⟩) hq
    kept := fun q hq _ => by
      obtain ⟨q₀, hq₀, rfl⟩ := @Table.exists_of_mem_updateMany _ _ _ _ _ hf _ hq
      refine ⟨q₀, hq₀, ?_, ?_⟩ <;> split <;> simp only [hf, hstart] }

/-- A presence session with an id from before was there before. -/
theorem exists_of_mem_create {row : ℕ → PresenceSession} (hrow : ∀ n, (row n).id = n)
    {q : PresenceSession} (hq : q ∈ db.presence.create row hrow) (hlt : q.id < db.presence.next) :
    ∃ p₀ ∈ db.presence, p₀.id = q.id ∧ p₀.startedAt = q.startedAt := by
  rcases Table.mem_create.1 hq with hq | rfl
  · exact ⟨q, hq, rfl, rfl⟩
  · exact absurd hlt (by rw [hrow]; exact Nat.lt_irrefl _)

/-- A new presence session. -/
theorem within_createPresence {row : ℕ → PresenceSession} {hrow : ∀ n, (row n).id = n}
    (h : T.starts (row db.presence.next).startedAt) :
    db.Within T { db with presence := db.presence.create row hrow } :=
  { Within.refl T db with
    presence := fun _ hq => Table.mem_create_outside hrow (R := fun q => T.starts q.startedAt) h hq
    next := Nat.le_succ _
    kept := fun _ hq hlt => exists_of_mem_create hrow hq hlt }

end Db

end RxVision
