import RxVision.Lib.Runs
import RxVision.Records.Cases

/-!
# Spans that are never inverted

Every closed presence session, break segment and meeting ends at or after its start, and at most one
presence session is open (`SpanInv`). The closes of the day are clamped (`closeOpenPresence`: never
before it started); the ones of a scheduled break that ends a meeting, of a pause, of a break's end
and of a live meeting's end write their time as it is. A run keeps the invariant as long as each of
those, when replayed, is dated at or after the start of what it closes (`spans_never_inverted`).
-/

namespace RxVision

/-- The spans are in order, one presence session at most is open, a meeting that runs on points at
the presence session it started with, and everything that may still be closed started by `clock`. -/
structure SpanInv (db : Db) (clock : ℤ) : Prop where
  oneOpen : Spans.OneOpen PresenceSession.endedAt db.presence
  presence : Spans.Ordered PresenceSession.startedAt PresenceSession.endedAt db.presence
  segments : Spans.Ordered BreakSegment.startedAt BreakSegment.endedAt db.breakSegments
  meetings : Spans.Ordered MeetingRecord.startedAt MeetingRecord.endedAt db.meetings
  linked : ∀ m ∈ db.meetings, m.endedAt = none →
    ∃ p ∈ db.presence, m.presenceSessionId = some p.id ∧ p.startedAt = m.startedAt
  presenceBy : ∀ p ∈ db.presence, p.startedAt ≤ clock
  segmentsBy : ∀ g ∈ db.breakSegments, g.startedAt ≤ clock

/-- No closed span ends before its start, and at most one presence session is open. -/
structure Db.SpansInOrder (db : Db) : Prop where
  presence : ∀ p ∈ db.presence, ∀ e, p.endedAt = some e → p.startedAt ≤ e
  segments : ∀ g ∈ db.breakSegments, ∀ e, g.endedAt = some e → g.startedAt ≤ e
  meetings : ∀ m ∈ db.meetings, ∀ e, m.endedAt = some e → m.startedAt ≤ e
  oneOpen : ∀ p ∈ db.presence, ∀ q ∈ db.presence, p.endedAt = none → q.endedAt = none → p = q

/-- Empty tables have no spans. -/
theorem SpanInv.empty (clock : ℤ) : SpanInv Db.empty clock where
  oneOpen := .empty
  presence := .empty
  segments := .empty
  meetings := .empty
  linked := fun m hm => absurd hm (Table.not_mem_empty m)
  presenceBy := fun p hp => absurd hp (Table.not_mem_empty p)
  segmentsBy := fun g hg => absurd hg (Table.not_mem_empty g)

namespace Db

/-! ## Reading presence -/

variable {db : Db} {p : PresenceSession}

/-- Nothing is open when every presence session has ended. -/
theorem openPresence_eq_none : db.openPresence = none ↔ ∀ p ∈ db.presence, p.endedAt ≠ none := by
  simp [openPresence, Table.findLast?_eq_none, Option.isNone_eq_false_iff,
    Option.isSome_iff_ne_none]

/-- What is open is a row without an end. -/
theorem openPresence_eq_some (h : db.openPresence = some p) :
    p ∈ db.presence ∧ p.endedAt = none := by
  have := Table.mem_of_findLast? h
  exact ⟨this.1, Option.isNone_iff_eq_none.1 this.2⟩

/-- A stored presence session is found by its id. -/
theorem presenceOf_id (hp : p ∈ db.presence) : db.presenceOf (some p.id) = some p :=
  presenceOf_eq_some.2 ⟨rfl, hp⟩

/-! ## Closing what a row points at -/

/-- The segments after the open ones of a break are closed. -/
theorem mem_closeSegments {id : ℕ} {t : ℤ} {g : BreakSegment} :
    g ∈ (db.closeSegments id t).breakSegments ↔
      (g ∈ db.breakSegments ∧ ¬(g.breakRecordId = id ∧ g.endedAt = none)) ∨
        ∃ g' ∈ db.breakSegments, (g'.breakRecordId = id ∧ g'.endedAt = none) ∧
          g = { g' with endedAt := some t } := by
  rw [closeSegments, Table.mem_updateMany]
  simp only [decide_eq_false_iff_not, decide_eq_true_eq, Option.isNone_iff_eq_none]

/-- `closeOpenPresence` leaves nothing open. -/
theorem closed_of_closeOpenPresence {t : ℤ} (hp : p ∈ (db.closeOpenPresence t).presence) :
    p.endedAt ≠ none := by
  rw [closeOpenPresence, Table.mem_updateMany] at hp
  rcases hp with ⟨-, hclosed⟩ | ⟨q, -, -, rfl⟩
  · simpa [Option.isSome_iff_ne_none] using hclosed
  · exact Option.some_ne_none _

/-- What `closeOwnPresence` closes, and when, is not before its start. -/
def ClosesOwn (db : Db) (session : Option ℕ) (t : ℤ) : Prop :=
  ∀ p ∈ db.presence, session = some p.id → p.endedAt = none → p.startedAt ≤ t

/-- What `closeSegments` closes is not closed before its start. -/
def ClosesSegments (db : Db) (id : ℕ) (t : ℤ) : Prop :=
  ∀ g ∈ db.breakSegments, g.breakRecordId = id → g.endedAt = none → g.startedAt ≤ t

end Db

namespace SpanInv

variable {db db' : Db} {clock t : ℤ}

/-- The invariant is about the presence sessions, the segments and the meetings. -/
theorem of_eq (hi : SpanInv db clock) (hp : db'.presence = db.presence)
    (hs : db'.breakSegments = db.breakSegments) (hm : db'.meetings = db.meetings) :
    SpanInv db' clock := by
  obtain ⟨h1, h2, h3, h4, h5, h6, h7⟩ := hi
  rw [← hp] at h1 h2 h5 h6
  rw [← hs] at h3 h7
  rw [← hm] at h4 h5
  exact ⟨h1, h2, h3, h4, h5, h6, h7⟩

/-- Spans that lie before the clock lie before a later one. -/
theorem of_le (hi : SpanInv db clock) {clock' : ℤ} (h : clock ≤ clock') : SpanInv db clock' :=
  { hi with
    presenceBy := fun p hp => (hi.presenceBy p hp).trans h
    segmentsBy := fun g hg => (hi.segmentsBy g hg).trans h }

/-! ## One write -/

/-- Presence sessions are closed at or after their starts, whatever selects them, and those that
stay keep their spans. -/
theorem closePresenceWhere (hi : SpanInv db clock) {sel : PresenceSession → Bool}
    {f : PresenceSession → PresenceSession} {hf : ∀ p, (f p).id = p.id}
    (hstart : ∀ p, (f p).startedAt = p.startedAt)
    (hclose : ∀ p ∈ db.presence, sel p = true → ∃ e, (f p).endedAt = some e ∧ p.startedAt ≤ e) :
    SpanInv { db with presence := db.presence.updateMany sel f hf } clock where
  oneOpen := hi.oneOpen.updateMany hf fun p hp hsel => by
    obtain ⟨e, he, -⟩ := hclose p hp hsel
    simp [he]
  presence := hi.presence.updateMany hf fun p hp hsel e he => by
    obtain ⟨e', he', hle⟩ := hclose p hp hsel
    obtain rfl := Option.some.inj (he'.symm.trans he)
    rwa [hstart]
  segments := hi.segments
  meetings := hi.meetings
  linked := by
    intro m hm hopen
    obtain ⟨p, hp, hid, hs⟩ := hi.linked m hm hopen
    have hmem : (if sel p then f p else p) ∈ db.presence.updateMany sel f hf :=
      Table.mem_updateMany_of_mem hp
    refine ⟨_, hmem, ?_, ?_⟩
    · rw [hid]
      split
      · rw [hf]
      · rfl
    · split
      · rw [hstart, hs]
      · exact hs
  presenceBy := by
    intro p hp
    change p ∈ db.presence.updateMany sel f hf at hp
    rcases Table.mem_updateMany.1 hp with ⟨hp, -⟩ | ⟨q, hq, -, rfl⟩
    · exact hi.presenceBy p hp
    · rw [hstart]
      exact hi.presenceBy q hq
  segmentsBy := hi.segmentsBy

/-- A presence session is closed at or after its start. -/
theorem closePresence (hi : SpanInv db clock) {id : ℕ}
    (h : ∀ p ∈ db.presence, p.id = id → p.startedAt ≤ t) : SpanInv (db.closePresence id t) clock :=
  hi.closePresenceWhere (fun _ => rfl) fun p hp hid =>
    ⟨t, rfl, h p hp (of_decide_eq_true hid)⟩

/-- The close of the day is never before a start. -/
theorem closeOpenPresence (hi : SpanInv db clock) (t : ℤ) :
    SpanInv (db.closeOpenPresence t) clock :=
  hi.closePresenceWhere (fun _ => rfl) fun p _ _ => ⟨_, rfl, by split <;> omega⟩

/-- So is the presence session of a row. -/
theorem closeOwnPresence (hi : SpanInv db clock) {session : Option ℕ}
    (h : db.ClosesOwn session t) : SpanInv (db.closeOwnPresence session t) clock := by
  rcases db.closeOwnPresence_cases session t with heq | ⟨p, hp, hid, hopen, heq⟩
  · rwa [heq]
  · rw [heq]
    refine hi.closePresence fun q hq hqp => ?_
    obtain rfl := Table.eq_of_key hq hp hqp
    exact h q hq hid hopen

/-- The segments of a break are closed at or after their starts. -/
theorem closeSegments (hi : SpanInv db clock) {id : ℕ} (h : db.ClosesSegments id t) :
    SpanInv (db.closeSegments id t) clock :=
  { hi with
    segments := by
      intro g hg e he
      rcases Db.mem_closeSegments.1 hg with ⟨hg, -⟩ | ⟨g', hg', ⟨hid, hopen⟩, rfl⟩
      · exact hi.segments g hg e he
      · obtain rfl := Option.some.inj he
        exact h g' hg' hid hopen
    segmentsBy := by
      intro g hg
      rcases Db.mem_closeSegments.1 hg with ⟨hg, -⟩ | ⟨g', hg', -, rfl⟩
      · exact hi.segmentsBy g hg
      · exact hi.segmentsBy g' hg' }

/-- What `pause` and `markEnded` close of a break: its presence session, then its segments. -/
theorem closeOwnAndSegments (hi : SpanInv db clock) {session : Option ℕ} {id : ℕ}
    (hown : db.ClosesOwn session t) (hsegments : db.ClosesSegments id t) :
    SpanInv ((db.closeOwnPresence session t).closeSegments id t) clock := by
  refine (hi.closeOwnPresence hown).closeSegments ?_
  rwa [Db.ClosesSegments, Db.closeOwnPresence_breakSegments]

/-- Deleting a break with its segments leaves the other spans. -/
theorem deleteBreak (hi : SpanInv db clock) (id : ℕ) : SpanInv (db.deleteBreak id) clock :=
  { hi with
    segments := fun g hg => hi.segments g (Table.mem_deleteMany.1 hg).1
    segmentsBy := fun g hg => hi.segmentsBy g (Table.mem_deleteMany.1 hg).1 }

/-- A presence session is opened when no other one is, so at most one stays open. -/
theorem createPresence (hi : SpanInv db clock) (hclosed : ∀ p ∈ db.presence, p.endedAt ≠ none)
    {row : ℕ → PresenceSession} {hrow : ∀ n, (row n).id = n}
    (hopen : ∀ n, (row n).endedAt = none) (hby : ∀ n, (row n).startedAt ≤ clock) :
    SpanInv { db with presence := db.presence.create row hrow } clock :=
  { hi with
    oneOpen := .create hclosed hrow
    presence := hi.presence.create hrow fun e he => by simp [hopen] at he
    linked := by
      intro m hm hm0
      obtain ⟨p, hp, h⟩ := hi.linked m hm hm0
      have hmem : p ∈ db.presence.create row hrow := Table.mem_create.2 (Or.inl hp)
      exact ⟨p, hmem, h⟩
    presenceBy := by
      intro p hp
      change p ∈ db.presence.create row hrow at hp
      rcases Table.mem_create.1 hp with hp | rfl
      · exact hi.presenceBy p hp
      · exact hby _ }

/-- A segment is opened without an end, so its span is not inverted. -/
theorem createSegment (hi : SpanInv db clock) {row : ℕ → BreakSegment} {hrow : ∀ n, (row n).id = n}
    (hopen : ∀ n, (row n).endedAt = none) (hby : ∀ n, (row n).startedAt ≤ clock) :
    SpanInv { db with breakSegments := db.breakSegments.create row hrow } clock :=
  { hi with
    segments := hi.segments.create hrow fun e he => by simp [hopen] at he
    segmentsBy := by
      intro g hg
      change g ∈ db.breakSegments.create row hrow at hg
      rcases Table.mem_create.1 hg with hg | rfl
      · exact hi.segmentsBy g hg
      · exact hby _ }

/-- A meeting is added: in order, or running on the presence session it points at. -/
theorem createMeeting (hi : SpanInv db clock) {row : ℕ → MeetingRecord}
    {hrow : ∀ n, (row n).id = n}
    (hnew : ∀ e, (row db.meetings.next).endedAt = some e →
      (row db.meetings.next).startedAt ≤ e)
    (hlink : (row db.meetings.next).endedAt = none → ∃ p ∈ db.presence,
      (row db.meetings.next).presenceSessionId = some p.id ∧
        p.startedAt = (row db.meetings.next).startedAt) :
    SpanInv { db with meetings := db.meetings.create row hrow } clock :=
  { hi with
    meetings := hi.meetings.create hrow hnew
    linked := by
      intro m hm hm0
      change m ∈ db.meetings.create row hrow at hm
      rcases Table.mem_create.1 hm with hm | rfl
      · exact hi.linked m hm hm0
      · exact hlink hm0 }

/-- Meetings are changed: they are in order, and the ones that still run on are as they were. -/
theorem updateMeetings (hi : SpanInv db clock) {sel : MeetingRecord → Bool}
    {f : MeetingRecord → MeetingRecord} {hf : ∀ m, (f m).id = m.id}
    (hnew : ∀ m ∈ db.meetings, sel m = true → ∀ e, (f m).endedAt = some e → (f m).startedAt ≤ e)
    (hlink : ∀ m ∈ db.meetings, sel m = true → (f m).endedAt = none → ∃ p ∈ db.presence,
      (f m).presenceSessionId = some p.id ∧ p.startedAt = (f m).startedAt) :
    SpanInv { db with meetings := db.meetings.updateMany sel f hf } clock :=
  { hi with
    meetings := hi.meetings.updateMany hf hnew
    linked := by
      intro m hm hm0
      change m ∈ db.meetings.updateMany sel f hf at hm
      rcases Table.mem_updateMany.1 hm with ⟨hm, -⟩ | ⟨m', hm', hsel, rfl⟩
      · exact hi.linked m hm hm0
      · exact hlink m' hm' hsel hm0 }

/-! ## One operation -/

/-- The same spans are in order. -/
theorem of_sameSpans (hi : SpanInv db clock) (h : db.SameSpans db') : SpanInv db' clock :=
  hi.of_eq h.presence h.segments h.meetings

/-- A new segment and its presence session start by the clock. -/
theorem openSegment (hi : SpanInv db clock) (hclosed : db.openPresence = none) {id : ℕ}
    {type : PresenceType} {day : DateKey} (ht : t ≤ clock) :
    SpanInv (db.openSegment id type day t) clock := by
  have h₁ : SpanInv { db with
      presence := db.presence.create (fun id => { id, type, date := day, startedAt := t })
        fun _ => rfl } clock :=
    hi.createPresence (Db.openPresence_eq_none.1 hclosed) (fun _ => rfl) fun _ => ht
  exact h₁.createSegment (fun _ => rfl) fun _ => ht

/-- So does a break that is created running. -/
theorem createBreak (hi : SpanInv db clock) (hclosed : db.openPresence = none) {r : BreakRecord}
    {day : DateKey} (ht : t ≤ clock) : SpanInv (db.createBreak r day t).2 clock :=
  (hi.openSegment hclosed ht).of_eq rfl rfl rfl

/-- Closing the one open presence session leaves none open. -/
theorem openPresence_closePresence (hi : SpanInv db clock) {p : PresenceSession}
    (hp : db.openPresence = some p) : (db.closePresence p.id t).openPresence = none := by
  obtain ⟨hmem, hopen⟩ := Db.openPresence_eq_some hp
  refine Db.openPresence_eq_none.2 fun q hq => ?_
  rw [Db.closePresence, Table.mem_updateMany] at hq
  rcases hq with ⟨hq, hne⟩ | ⟨q', -, -, rfl⟩
  · intro hq0
    obtain rfl := hi.oneOpen q hq p hmem hq0 hopen
    simp at hne
  · exact Option.some_ne_none t

/-- A live meeting is linked to the presence session created with it. -/
theorem createLive (hi : SpanInv db clock) (hclosed : db.openPresence = none)
    {calendarOf : DayKeyFn} {status : BreakApprovalStatus} {date : DateKey} (ht : t ≤ clock) :
    SpanInv (db.createLive calendarOf status date t).2 clock := by
  have h₁ : SpanInv { db with
      presence := db.presence.create
        (fun id => { id, type := .meeting, date := calendarOf t, startedAt := t })
        fun _ => rfl } clock :=
    hi.createPresence (Db.openPresence_eq_none.1 hclosed) (fun _ => rfl) fun _ => ht
  refine h₁.createMeeting (fun e he => ?_) fun _ => ?_
  · cases he
  · exact ⟨_, Table.mem_create.2 (Or.inr rfl), rfl, rfl⟩

/-- A live meeting ends at or after its start. -/
theorem liveEnd_le (hi : SpanInv db clock) {m : MeetingRecord} (hm : m ∈ db.meetings)
    (hopen : m.endedAt = none) (h : db.ClosesOwn m.presenceSessionId t) :
    m.startedAt ≤ db.liveEnd m t := by
  obtain ⟨p, hp, hid, hstart⟩ := hi.linked m hm hopen
  rw [Db.liveEnd, hid, Db.presenceOf_id hp]
  change m.startedAt ≤ p.endedAt.getD t
  cases hstop : p.endedAt with
  | some e => exact hstart ▸ hi.presence p hp e hstop
  | none => exact hstart ▸ h p hp hid hstop

/-- A live meeting ends at or after its start. -/
theorem endLive (hi : SpanInv db clock) {id : ℕ} {m : MeetingRecord}
    (hm : db.meetings.find? (fun m => m.id = id) = some m) (hopen : m.endedAt = none)
    (h : db.ClosesOwn m.presenceSessionId t) {f : MeetingRecord → MeetingRecord}
    {hf : ∀ m, (f m).id = m.id} (hends : Db.EndsAt (db.liveEnd m t) f) :
    SpanInv ((db.closeOwnPresence m.presenceSessionId t).updateMeeting id f hf) clock := by
  have hid := Table.find?_spec hm
  rw [decide_eq_true_eq] at hid
  have hm := Table.mem_of_find? hm
  refine (hi.closeOwnPresence h).updateMeetings (fun m' hm' hid' e he => ?_)
    fun m' _ _ hopen' => ?_
  · rw [Db.closeOwnPresence_meetings] at hm'
    rw [decide_eq_true_eq] at hid'
    obtain rfl := Table.eq_of_key hm' hm (hid'.trans hid.symm)
    obtain rfl := Option.some.inj ((hends.endedAt m').symm.trans he)
    rw [hends.startedAt]
    exact hi.liveEnd_le hm hopen h
  · rw [hends.endedAt] at hopen'
    cases hopen'

/-- A healed meeting ends where its presence session ended. -/
theorem takeEnds (hi : SpanInv db clock) : SpanInv db.takeEnds clock := by
  refine hi.updateMeetings (fun m hm hheal e he => ?_) fun m hm hheal hopen => ?_
  · obtain ⟨hopen, p, e', hp, hpe, htake⟩ := Db.isHealed_cases hheal
    obtain ⟨q, hq, hid, hstart⟩ := hi.linked m hm hopen
    rw [hid, Db.presenceOf_id hq] at hp
    obtain rfl := Option.some.inj hp
    rw [htake] at he ⊢
    obtain rfl := Option.some.inj he
    exact hstart ▸ hi.presence q hq e' hpe
  · obtain ⟨-, p, e', -, -, htake⟩ := Db.isHealed_cases hheal
    rw [htake] at hopen
    cases hopen

/-- Meetings that nothing ended end at their start. -/
theorem endOrphans (hi : SpanInv db clock) : SpanInv db.endOrphans clock := by
  refine hi.updateMeetings (fun m _ _ e he => ?_) fun m _ _ h => ?_
  · obtain rfl := Option.some.inj he
    exact le_rfl
  · cases h

/-- Discarding short meetings changes no span. -/
theorem discardShort (hi : SpanInv db clock) (ids : List ℕ) : SpanInv (db.discardShort ids) clock :=
  hi.updateMeetings (fun m hm _ => hi.meetings m hm) fun m hm _ => hi.linked m hm

/-- Healing gives meetings ends after their starts. -/
theorem heal (hi : SpanInv db clock) : SpanInv db.heal.2 clock :=
  hi.takeEnds.endOrphans.discardShort _

/-- An earlier meeting has its end after its start. -/
theorem createPast (hi : SpanInv db clock) {row : ℕ → MeetingRecord} {hrow : ∀ n, (row n).id = n}
    {start stop : ℤ} (hstart : ∀ n, (row n).startedAt = start)
    (hstop : ∀ n, (row n).endedAt = some stop) (hle : start ≤ stop) :
    SpanInv { db with meetings := db.meetings.create row hrow } clock := by
  refine hi.createMeeting (fun e he => ?_) fun h => ?_
  · rw [hstop] at he
    rw [hstart, ← Option.some.inj he]
    exact hle
  · rw [hstop] at h
    cases h

end SpanInv

/-! ## Every operation -/

namespace RecordOp

/-- Every presence session and segment that the operation closes at `now`, as it is, started by
`now`. -/
def ClosesInOrder (db : Db) (now : ℤ) : RecordOp → Prop
  | .startScheduled monthOpen record calendarDay =>
    db.mayStart monthOpen record calendarDay now →
      ∀ p ∈ db.presence, p.endedAt = none → p.type = .meeting → p.startedAt ≤ now
  | .pause id => ∀ row, db.breakRecords.find? (fun r => r.id = id) = some row → db.mayPause row →
    db.ClosesOwn row.presenceSessionId now ∧ db.ClosesSegments id now
  | .markEnded id => ∀ row, db.breakRecords.find? (fun r => r.id = id) = some row → Db.MayEnd row →
    db.ClosesOwn row.presenceSessionId now ∧ db.ClosesSegments id now
  | .endLive monthOpen id => ∀ row, db.meetings.find? (fun m => m.id = id) = some row →
    Db.MayEndLive monthOpen row → db.ClosesOwn row.presenceSessionId now
  | _ => True

variable {calendarOf : DayKeyFn} {db : Db} {clock now : ℤ}

/-- At the clock everything that may be closed has started, so a live operation
always closes in order. -/
theorem closesInOrder_clock (hi : SpanInv db clock) (op : RecordOp) :
    op.ClosesInOrder db clock := by
  have hown : ∀ session, db.ClosesOwn session clock := fun _ p hp _ _ => hi.presenceBy p hp
  have hsegments : ∀ id, db.ClosesSegments id clock := fun _ g hg _ _ => hi.segmentsBy g hg
  cases op with
  | startScheduled monthOpen record calendarDay => exact fun _ p hp _ _ => hi.presenceBy p hp
  | pause id => exact fun _ _ _ => ⟨hown _, hsegments id⟩
  | markEnded id => exact fun _ _ _ => ⟨hown _, hsegments id⟩
  | endLive monthOpen id => exact fun _ _ _ => hown _
  | _ => trivial

/-- Starting a scheduled break keeps the spans in order, when it closes nothing before its start. -/
theorem startScheduled_spanInv (hi : SpanInv db clock) (hnow : now ≤ clock)
    {monthOpen : DateKey → Bool} {record : NewBreakRecord} {calendarDay : DateKey} {db' : Db}
    (hok : (startScheduled monthOpen record calendarDay).ClosesInOrder db now)
    (h : (db.startScheduled monthOpen record calendarDay now).2 = db') : SpanInv db' clock := by
  obtain ⟨db₀, hdb₀, h⟩ := Db.startScheduled_cases h
  have hi₀ : SpanInv db₀ clock := by
    rcases hdb₀ with rfl | ⟨id, rfl⟩
    · exact hi
    · exact hi.deleteBreak id
  have hpresence : db₀.presence = db.presence := by rcases hdb₀ with rfl | ⟨id, rfl⟩ <;> rfl
  rcases h with rfl | ⟨hmay, ⟨hopen, h⟩ | ⟨p, hp, htype, h⟩⟩
  · exact hi₀
  · exact (hi₀.createBreak hopen hnow).of_sameSpans h
  · obtain ⟨hmem, hp0⟩ := Db.openPresence_eq_some hp
    have hstart : p.startedAt ≤ now := hok hmay p (hpresence ▸ hmem) hp0 htype
    have hclose : SpanInv (db₀.closePresence p.id now) clock :=
      hi₀.closePresence fun q hq hid => Table.eq_of_key hq hmem hid ▸ hstart
    exact (hclose.createBreak (hi₀.openPresence_closePresence hp) hnow).of_sameSpans h

/-- So does a quick break. -/
theorem startQuick_spanInv (hi : SpanInv db clock) {input : NewQuickBreak} {db' : Db}
    (hstart : input.startedAt ≤ clock) (h : (db.startQuick input).2 = db') :
    SpanInv db' clock := by
  rcases Db.startQuick_cases h with rfl | ⟨-, hopen, r, h⟩
  · exact hi
  · exact (hi.createBreak hopen hstart).of_sameSpans h

/-- A stretch of away time is no span of these tables. -/
theorem createAway_spanInv (hi : SpanInv db clock) {monthOpen : DateKey → Bool} {date : DateKey}
    {startedAt endedAt : ℤ} {key : Option String} {status : AwayStatus} {db' : Db}
    (h : (db.createAway monthOpen date startedAt endedAt key status).2 = db') :
    SpanInv db' clock := by
  rcases Db.createAway_cases h with rfl | ⟨-, row, hrow, -, rfl⟩
  · exact hi
  · exact hi.of_eq rfl rfl rfl

/-- Every operation at or before the clock that closes in order keeps the spans in order, by the
lemma of the operation. -/
theorem run_spanInv (hi : SpanInv db clock) (hnow : now ≤ clock) {op : RecordOp} {db' : Db}
    (hok : op.ClosesInOrder db now) (h : op.run calendarOf db now = db') : SpanInv db' clock := by
  cases op with
  | startScheduled monthOpen record calendarDay => exact startScheduled_spanInv hi hnow hok h
  | startQuick date plannedMin => exact startQuick_spanInv hi hnow h
  | pause id =>
    rcases Db.pause_cases h with rfl | ⟨row, hrow, hmay, h⟩
    · exact hi
    · obtain ⟨hown, hsegments⟩ := hok row hrow hmay
      exact (hi.closeOwnAndSegments hown hsegments).of_sameSpans h
  | resume id calendarDay =>
    rcases Db.resume_cases h with h | ⟨row, -, -, hopen, h⟩
    · exact hi.of_sameSpans h
    · exact (hi.openSegment hopen hnow).of_sameSpans h
  | endPausedTx id => exact hi.of_sameSpans (h ▸ Db.endPausedTx_sameSpans id now)
  | markEnded id =>
    rcases Db.markEnded_cases h with h | ⟨row, hrow, hmay, h⟩
    · exact hi.of_sameSpans h
    · obtain ⟨hown, hsegments⟩ := hok row hrow hmay
      exact (hi.closeOwnAndSegments hown hsegments).of_sameSpans h
  | endOpenForUser => exact h ▸ hi.closeOpenPresence now
  | switchTo type date =>
    subst h
    refine (hi.closeOpenPresence now).createPresence (fun p hp => ?_) (fun _ => rfl) fun _ => hnow
    exact Db.closed_of_closeOpenPresence hp
  | startLive monthOpen approvalStatus generation today =>
    rcases Db.startLive_cases h with rfl | ⟨-, hopen, db₀, date, hsame, rfl⟩
    · exact hi
    · refine (hi.of_sameSpans hsame).createLive ?_ hnow
      rw [Db.openPresence, hsame.presence]
      exact hopen
  | endLive monthOpen id =>
    rcases Db.endLive_cases h with rfl | ⟨row, hrow, hmay, f, hf, hends, rfl⟩
    · exact hi
    · exact hi.endLive hrow hmay.2.1 (hok row hrow hmay) hends
  | createPast monthOpen approvalStatus start durationSec generation today =>
    rcases Db.createPast_cases h with rfl | ⟨-, date, rfl⟩
    · exact hi
    · exact hi.createPast (fun _ => rfl) (fun _ => rfl) (by omega)
  | heal => exact h ▸ hi.heal
  | submit monthOpen breakDayOf reasons pending dto =>
    rcases Db.submit_cases h with rfl | ⟨kind, session, start, -, hbounds, h⟩
    · exact hi
    · rcases h with ⟨-, h⟩ | ⟨-, -, status, h⟩
      · exact startQuick_spanInv hi ((Db.bounds_start_le hbounds).trans hnow) h
      · exact createAway_spanInv hi h
  | unexplained monthOpen startedAt endedAt =>
    rcases Db.unexplained_cases h with rfl | ⟨-, last, -, h⟩
    · exact hi
    · exact createAway_spanInv hi h

end RecordOp

/-! ## Every run -/

namespace World

/-- What a step of the records keeps. -/
structure RecordsInv (w : World) : Prop where
  spans : SpanInv w.db w.clock
  begunBy : ∀ e ∈ w.begun, e ≤ w.clock

/-- Nothing is recorded yet. -/
theorem RecordsInv.empty : RecordsInv World.empty where
  spans := .empty 0
  begunBy := fun _ he => absurd he List.not_mem_nil

/-- A replayed operation closes in order; a live one always does. -/
def ReplaysInOrder (w : World) : RecordAction → Prop
  | .replay eventAt op => op.ClosesInOrder w.db eventAt
  | _ => True

variable {calendarOf : DayKeyFn} {w w' : World}

/-- The day's own steps close presence sessions at or after their starts, and leave
the other spans. -/
theorem RecordsInv.of_dayStep (hi : RecordsInv w) (h : DayStep w w') : RecordsInv w' where
  spans := by
    have hi' := hi.spans.of_le h.clock
    rcases h.write.presence with hp | ⟨t, hp⟩
    · exact hi'.of_eq hp h.write.segments h.write.meetings
    · exact (hi'.closeOpenPresence t).of_eq hp h.write.segments h.write.meetings
  begunBy := by
    intro e he
    rcases h.begun e he with he | he
    · exact (hi.begunBy e he).trans h.clock
    · exact he.trans h.clock

/-- Every step that meets the condition keeps the invariant: live steps always do, and a replayed
one when it closes nothing before its start. -/
theorem stepRecords_inv {a : RecordAction} (hi : RecordsInv w) (hok : ReplaysInOrder w a)
    (h : w.stepRecords calendarOf a = some w') : RecordsInv w' := by
  cases a with
  | day a => exact hi.of_dayStep (step_day h)
  | live op =>
    obtain rfl := Option.some.inj h
    exact ⟨RecordOp.run_spanInv hi.spans le_rfl (RecordOp.closesInOrder_clock hi.spans op) rfl,
      hi.begunBy⟩
  | replay eventAt op =>
    simp only [stepRecords] at h
    split at h
    · next hb =>
      obtain rfl := Option.some.inj h
      exact ⟨RecordOp.run_spanInv hi.spans (hi.begunBy eventAt hb) hok rfl, hi.begunBy⟩
    · cases h

end World

/-- In every run whose replayed operations close in order, every closed presence session, break
segment and meeting ends at or after its start, and at most one presence session is open. -/
theorem spans_never_inverted {calendarOf : DayKeyFn} {acts : List RecordAction} {w : World}
    (h : Runs.run (World.stepRecords calendarOf) World.empty acts = some w)
    (hok : Runs.Meets (World.stepRecords calendarOf) World.ReplaysInOrder World.empty acts) :
    w.db.SpansInOrder := by
  have hi : World.RecordsInv w :=
    Runs.invariant_run World.RecordsInv (fun _ _ _ hi ho hs => World.stepRecords_inv hi ho hs)
      World.RecordsInv.empty hok h
  exact ⟨hi.spans.presence, hi.spans.segments, hi.spans.meetings, hi.spans.oneOpen⟩

/-- A day opened at 9:00, a live meeting started at 10:00, and then a scheduled break made at
`eventAt` that arrives a minute later. -/
def meetingThenBreak (eventAt : ℤ) : List RecordAction :=
  let opened : WorkSession := ⟨0, ⟨0⟩, 32400000, none, none, .agent⟩
  let morning : NewBreakRecord :=
    ⟨⟨0⟩, some .morning, .brk, some 36000000, some 37800000, eventAt, none, .notRequired⟩
  [.day (.tick 32400000), .day (.startDay 32400000 .agent utcDay), .day (.tick 36000000),
    .live (.startLive (fun _ => true) .notRequired .agent31 ⟨0⟩), .day (.complete 36000000),
    .day (.tick (eventAt + 60000)), .day (.begin eventAt opened none 0),
    .replay eventAt (.startScheduled (fun _ => true) morning ⟨0⟩)]

/-- A replayed break of 9:59:30 ends the presence session of the meeting of 10:00
before it started. -/
theorem replayed_break_inverts_meeting :
    ¬ ∀ (calendarOf : DayKeyFn) (acts : List RecordAction) (w : World),
      Runs.run (World.stepRecords calendarOf) World.empty acts = some w → w.db.SpansInOrder := by
  intro h
  have hrun : Runs.run (World.stepRecords utcDay) World.empty (meetingThenBreak 35970000) =
      some _ := rfl
  have hle := (h utcDay _ _ hrun).presence
    ⟨0, .meeting, ⟨0⟩, 36000000, some 35970000, some 0⟩ (by decide) 35970000 rfl
  exact absurd hle (by decide)

/-- A replayed break of 10:05 ends the meeting at its own start, and every span is in order. -/
theorem meetingThenBreak_inOrder :
    ∃ w, Runs.run (World.stepRecords utcDay) World.empty (meetingThenBreak 36300000) = some w ∧
      w.db.SpansInOrder := by
  have hrun : Runs.run (World.stepRecords utcDay) World.empty (meetingThenBreak 36300000) =
      some _ := rfl
  refine ⟨_, hrun, spans_never_inverted hrun ?_⟩
  refine .cons trivial rfl (.cons trivial rfl (.cons trivial rfl (.cons trivial rfl
    (.cons trivial rfl (.cons trivial rfl (.cons trivial rfl (.cons ?_ rfl trivial)))))))
  intro _ p hp _ _
  obtain rfl := List.mem_singleton.1 hp
  decide

end RxVision
