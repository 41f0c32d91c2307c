import RxVision.Lib.Runs
import RxVision.Replay.Interceptor
import RxVision.Worktime.SessionsApart

/-!
# Sessions that never overlap

A person's sessions under live actions at the server's clock, automatic closes, late samples and
replayed actions at the event times the interceptor admits (`World.step`). A run keeps the sessions
apart as long as every replayed Start Day that opens a session lies behind the end of every stored
one (`sessions_never_overlap`): `createSessionTx` moves the start up to the last end, but then down
to its own `now`.
-/

namespace RxVision

/-- One person's tables and what runs around them: the server's clock, the latest event time of the
replay actions that completed, the event times admitted for replay, and the rows that the automatic
close has read. -/
structure World where
  db : Db
  clock : ℤ
  lastEvent : Option ℤ
  begun : List ℤ
  held : List WorkSession

/-- A person who has never worked. -/
def World.empty : World := ⟨.empty, 0, none, [], []⟩

/-- One step around a person's sessions. Live actions run at the clock, replayed ones at an admitted
event time. `shiftEnd` and `graceMin` are the shift end and the auto-close allowance that give a
session's latest end; `judgedAt` is when the automatic close judged it. -/
inductive WorldAction
  | tick (now : ℤ)
  | read
  | startDay (startedAt : ℤ) (source : WorkSessionSource) (dayOf : DayKeyFn)
  | endDay (today : DateKey) (legacy : Bool) (endedSince : ℤ)
  | ensureOpen (generation : AgentGeneration) (today : DateKey)
  | openImplicit (t : ℤ) (today : DateKey)
  | autoClose (session : WorkSession) (shiftEnd : Option ℤ) (graceMin judgedAt : ℤ)
      (lastInput : Option ℤ)
  | extendAutoClosed (session : WorkSession) (shiftEnd : Option ℤ) (graceMin t : ℤ)
  | begin (eventAt : ℤ) (last : WorkSession) (shiftEnd : Option ℤ) (graceMin : ℤ)
  | replayStartDay (eventAt startedAt : ℤ) (dayOf : DayKeyFn)
  | replayEndDay (eventAt : ℤ) (today : DateKey) (legacy : Bool) (endedSince : ℤ)
  | complete (eventAt : ℤ)

namespace World

variable (calendarOf : DayKeyFn)

/-- The checks of `extendAutoClosed` in the service: `session` is the last one started at or before
the sample at `t`, closed automatically before `t` and not past its latest end. -/
def MayExtend (ws : Table WorkSession.id) (session : WorkSession) (latestEnd t : ℤ) : Prop :=
  ws.IsLast (fun s => s.startedAt ≤ t) WorkSession.startedAt session ∧
    session.endReason = some .autoClosed ∧ (session.endedAt.any fun stop => stop < t) = true ∧
    t ≤ latestEnd

instance (ws : Table WorkSession.id) (session : WorkSession) (latestEnd t : ℤ) :
    Decidable (World.MayExtend ws session latestEnd t) :=
  inferInstanceAs (Decidable (_ ∧ _ ∧ _ ∧ _))

/-- The world after a step; `none` when the step cannot happen. -/
def step (w : World) : WorldAction → Option World
  | .tick now => if w.clock ≤ now then some { w with clock := now } else none
  | .read => some { w with held := w.held ++ w.db.workSessions.rows }
  | .startDay startedAt source dayOf =>
    some { w with db := (w.db.startDay calendarOf startedAt w.clock source dayOf).2 }
  | .endDay today legacy endedSince =>
    some { w with db := (w.db.endDay calendarOf w.clock today legacy endedSince).2 }
  | .ensureOpen generation today =>
    some { w with db := (w.db.ensureOpenTx generation w.clock today).2 }
  | .openImplicit t today => some { w with db := (w.db.openImplicit t today w.clock).2 }
  | .autoClose session shiftEnd graceMin judgedAt lastInput =>
    let latestEnd := latestEndOf session.startedAt shiftEnd graceMin
    if session ∈ w.held ∧ judgedAt ≤ w.clock ∧ isStale latestEnd judgedAt then
      some { w with
        db := (w.db.autoClose session (autoCloseAt session.startedAt latestEnd lastInput)).2 }
    else none
  | .extendAutoClosed session shiftEnd graceMin t =>
    let latestEnd := latestEndOf session.startedAt shiftEnd graceMin
    if t < w.clock ∧ World.MayExtend w.db.workSessions session latestEnd t then
      some { w with db := (w.db.extendAutoClosed session t).2 }
    else none
  | .begin eventAt last shiftEnd graceMin =>
    match eventTime w.clock eventAt with
    | .ok ⟨_, true⟩ =>
      if inOrder w.lastEvent eventAt then
        let w' := { w with begun := eventAt :: w.begun }
        if w.db.workSessions.IsLast (fun _ => true) WorkSession.startedAt last then
          match w.db.reopens last (latestEndOf last.startedAt shiftEnd graceMin) eventAt with
          | some r => some { w' with db := w.db.reopenDay r }
          | none => some w'
        -- there is no session to reopen
        else if w.db.workSessions.rows = [] then some w'
        else none
      else none
    | _ => none
  | .replayStartDay eventAt startedAt dayOf =>
    if eventAt ∈ w.begun then
      some { w with db := (w.db.startDay calendarOf startedAt eventAt .replay dayOf).2 }
    else none
  | .replayEndDay eventAt today legacy endedSince =>
    if eventAt ∈ w.begun then
      some { w with db := (w.db.endDay calendarOf eventAt today legacy endedSince).2 }
    else none
  | .complete eventAt =>
    if eventAt ∈ w.begun ∨ eventAt ≤ w.clock then
      some { w with lastEvent := some (max eventAt (w.lastEvent.getD eventAt)) }
    else none

/-- No other session that lasted shares its start with `s`. -/
def NoTie (ws : Table WorkSession.id) (s : WorkSession) : Prop :=
  ∀ t ∈ ws, t ≠ s → t.startedAt = s.startedAt → t.EndsBy s

/-- A replayed Start Day that opens a session is dated at or after the end of every stored session,
and a session that is extended or reopened is the only lasting one with its start. -/
def Ok (w : World) : WorldAction → Prop
  | .replayStartDay eventAt _ _ =>
    w.db.findOpen = none → ∀ s ∈ w.db.workSessions, ∀ e, s.endedAt = some e → e ≤ eventAt
  | .extendAutoClosed session _ _ _ => NoTie w.db.workSessions session
  | .begin eventAt last shiftEnd graceMin =>
    w.db.reopens last (latestEndOf last.startedAt shiftEnd graceMin) eventAt ≠ none →
      NoTie w.db.workSessions last
  | _ => True

/-- The sessions are apart, and everything stored or admitted lies at or before the clock. -/
structure Inv (w : World) : Prop where
  sessions : SessionInv w.db
  apart : SessionsApart w.db.workSessions
  byClock : SessionsBy w.db.workSessions w.clock
  begunBy : ∀ e ∈ w.begun, e ≤ w.clock
  heldBy : ∀ s ∈ w.held, s.startedAt ≤ w.clock

/-- A world without sessions. -/
theorem Inv.empty : Inv World.empty where
  sessions := .empty
  apart := fun s hs => absurd hs (Table.not_mem_empty s)
  byClock := fun s hs => absurd hs (Table.not_mem_empty s)
  begunBy := fun _ he => absurd he List.not_mem_nil
  heldBy := fun _ hs => absurd hs List.not_mem_nil

variable {calendarOf} {w w' : World}

/-- A step of the sessions at or before the clock that keeps them apart keeps the invariant. -/
theorem Inv.of_sessionStep (hi : Inv w) {db : Db} {now : ℤ} {kind : StepKind}
    (h : SessionStep now w.db db kind) (hnow : now ≤ w.clock)
    (ha : SessionsApart db.workSessions) : Inv { w with db := db } :=
  ⟨h.inv hi.sessions, ha, h.sessionsBy hnow hi.byClock, hi.begunBy, hi.heldBy⟩

/-- At the clock every stored session has ended. -/
theorem Inv.ends_le (hi : Inv w) :
    w.db.findOpen = none → ∀ s ∈ w.db.workSessions, ∀ e, s.endedAt = some e → e ≤ w.clock :=
  fun _ s hs => (hi.byClock s hs).2

/-- The last session that started by an instant is free up to it, when it ties with no other one:
the others started earlier, or start later than the instant. -/
theorem NoTie.freeUntil {ws : Table WorkSession.id} {session : WorkSession} {t : ℤ}
    (h : NoTie ws session)
    (hlast : ws.IsLast (fun s => s.startedAt ≤ t) WorkSession.startedAt session) :
    FreeUntil ws session t := by
  intro r hr hne
  by_cases hstart : r.startedAt ≤ t
  · have hle := hlast.2 r hr (by simpa using hstart)
    rcases lt_or_eq_of_le hle with hlt | heq
    · exact Or.inl hlt
    · exact Or.inr (Or.inr (h r hr hne heq))
  · exact Or.inr (Or.inl (by omega))

/-- Reopening the last-started session keeps the invariant of the sessions, when no other one starts
at the same time. -/
theorem Inv.reopenDay (hi : Inv w) {last : WorkSession} {latestEnd eventAt : ℤ} {r : Reopened}
    (hlast : w.db.workSessions.IsLast (fun _ => true) WorkSession.startedAt last)
    (hr : w.db.reopens last latestEnd eventAt = some r) (htie : NoTie w.db.workSessions last) :
    Inv { w with db := w.db.reopenDay r } := by
  have hopens := Db.reopens_eq_some hr
  have hlastmem : last ∈ w.db.workSessions := hlast.1.1
  have hmem := fun s => Db.mem_reopenDay (s := s) hlastmem hopens.id
  have hfree : ∀ t ∈ w.db.workSessions, t ≠ last → t.EndsBy last := by
    intro t ht hne
    rcases hi.apart t ht last hlastmem hne with h | ⟨e, he, hle⟩
    · exact h
    · refine htie t ht hne ?_
      have hle' := hlast.2 t ht rfl
      have := hi.sessions.ordered last hlastmem e he
      omega
  refine ⟨⟨fun s hs t ht hs0 ht0 => ?_, fun s hs e he => ?_⟩, ?_, fun s hs => ?_, hi.begunBy,
    hi.heldBy⟩
  · have hclosed := Db.findOpen_eq_none.1 hopens.closed
    rcases (hmem s).1 hs with ⟨hs, -⟩ | rfl
    · obtain ⟨e, he⟩ := hclosed s hs
      rw [hs0] at he
      cases he
    · rcases (hmem t).1 ht with ⟨ht, -⟩ | rfl
      · obtain ⟨e, he⟩ := hclosed t ht
        rw [ht0] at he
        cases he
      · rfl
  · rcases (hmem s).1 hs with ⟨hs, -⟩ | rfl
    · exact hi.sessions.ordered s hs e he
    · cases he
  · exact hi.apart.replace hmem fun t ht hne => Or.inr (hfree t ht hne)
  · rcases (hmem s).1 hs with ⟨hs, -⟩ | rfl
    · exact hi.byClock s hs
    · exact ⟨(hi.byClock last hlastmem).1, fun e he => by cases he⟩

/-- Every step that meets the condition keeps the invariant of the sessions and of what was read. -/
theorem step_inv {a : WorldAction} (hi : Inv w) (hok : Ok w a) (h : w.step calendarOf a = some w') :
    Inv w' := by
  cases a with
  | tick now =>
    simp only [step] at h
    split at h
    · next hle =>
      obtain rfl := Option.some.inj h
      refine ⟨hi.sessions, hi.apart, hi.byClock.of_le hle, fun e he => ?_, fun s hs => ?_⟩
      · exact (hi.begunBy e he).trans hle
      · exact (hi.heldBy s hs).trans hle
    · cases h
  | read =>
    obtain rfl := Option.some.inj h
    refine ⟨hi.sessions, hi.apart, hi.byClock, hi.begunBy, fun s hs => ?_⟩
    rcases List.mem_append.1 hs with hs | hs
    · exact hi.heldBy s hs
    · exact (hi.byClock s hs).1
  | startDay startedAt source dayOf =>
    obtain rfl := Option.some.inj h
    have hstep := w.db.startDay_step calendarOf startedAt w.clock source dayOf
    exact hi.of_sessionStep hstep le_rfl (hstep.apart_opens hi.apart hi.ends_le)
  | endDay today legacy endedSince =>
    obtain rfl := Option.some.inj h
    have hstep := w.db.endDay_step calendarOf w.clock today legacy endedSince
    exact hi.of_sessionStep hstep le_rfl (hstep.apart_ends hi.apart)
  | ensureOpen generation today =>
    obtain rfl := Option.some.inj h
    have hstep := w.db.ensureOpenTx_step generation w.clock today
    exact hi.of_sessionStep hstep le_rfl (hstep.apart_opens hi.apart hi.ends_le)
  | openImplicit t today =>
    obtain rfl := Option.some.inj h
    have hstep := w.db.openImplicit_step t today w.clock
    exact hi.of_sessionStep hstep le_rfl (hstep.apart_opens hi.apart hi.ends_le)
  | autoClose session shiftEnd graceMin judgedAt lastInput =>
    simp only [step] at h
    split at h
    · next hc =>
      obtain rfl := Option.some.inj h
      obtain ⟨hheld, hclock, hstale⟩ := hc
      have hstep := w.db.autoClose_step session
        (autoCloseAt session.startedAt (latestEndOf session.startedAt shiftEnd graceMin) lastInput)
      exact hi.of_sessionStep hstep (autoCloseAt_le hstale hclock (hi.heldBy session hheld))
        (hstep.apart_ends hi.apart)
    · cases h
  | extendAutoClosed session shiftEnd graceMin t =>
    simp only [step] at h
    split at h
    · next hc =>
      obtain rfl := Option.some.inj h
      obtain ⟨hclock, hlast, -, hstop, -⟩ := hc
      have hstep := w.db.extendAutoClosed_step session t fun stop hs => by simpa [hs] using hstop
      refine hi.of_sessionStep hstep hclock.le (hstep.apart_moves hi.sessions hi.apart ?_)
      intro s hs hid _
      obtain rfl := Table.eq_of_key hs hlast.1.1 hid
      exact NoTie.freeUntil hok hlast
    · cases h
  | begin eventAt last shiftEnd graceMin =>
    simp only [step] at h
    split at h
    · next htime =>
      obtain ⟨-, hlt, -⟩ := eventTime_replay htime rfl
      have hbegun : ∀ e ∈ eventAt :: w.begun, e ≤ w.clock := by
        intro e he
        rcases List.mem_cons.1 he with rfl | he
        · exact hlt.le
        · exact hi.begunBy e he
      split at h
      · split at h
        · next hlast =>
          split at h
          · next r hr =>
            obtain rfl := Option.some.inj h
            have hi' := hi.reopenDay hlast hr (hok (by simp [hr]))
            exact ⟨hi'.sessions, hi'.apart, hi'.byClock, hbegun, hi'.heldBy⟩
          · obtain rfl := Option.some.inj h
            exact ⟨hi.sessions, hi.apart, hi.byClock, hbegun, hi.heldBy⟩
        · split at h
          · obtain rfl := Option.some.inj h
            exact ⟨hi.sessions, hi.apart, hi.byClock, hbegun, hi.heldBy⟩
          · cases h
      · cases h
    · cases h
  | replayStartDay eventAt startedAt dayOf =>
    simp only [step] at h
    split at h
    · next hb =>
      obtain rfl := Option.some.inj h
      have hstep := w.db.startDay_step calendarOf startedAt eventAt .replay dayOf
      exact hi.of_sessionStep hstep (hi.begunBy eventAt hb) (hstep.apart_opens hi.apart hok)
    · cases h
  | replayEndDay eventAt today legacy endedSince =>
    simp only [step] at h
    split at h
    · next hb =>
      obtain rfl := Option.some.inj h
      have hstep := w.db.endDay_step calendarOf eventAt today legacy endedSince
      exact hi.of_sessionStep hstep (hi.begunBy eventAt hb) (hstep.apart_ends hi.apart)
    · cases h
  | complete eventAt =>
    simp only [step] at h
    split at h
    · obtain rfl := Option.some.inj h
      exact ⟨hi.sessions, hi.apart, hi.byClock, hi.begunBy, hi.heldBy⟩
    · cases h

/-- A session that a step adds starts at or after the end of every session that the person had. -/
theorem endsBy_of_step {a : WorldAction} (hi : Inv w) (hok : Ok w a)
    (h : w.step calendarOf a = some w') {s : WorkSession} (hs : s ∈ w'.db.workSessions)
    (hnew : ∀ r ∈ w.db.workSessions, r.id ≠ s.id) : ∀ r ∈ w.db.workSessions, r.EndsBy s := by
  have hnot : s ∉ w.db.workSessions := fun hmem => hnew s hmem rfl
  -- a step that opens nothing has no such session
  have hno : (∃ r ∈ w.db.workSessions, r.id = s.id) → ∀ r ∈ w.db.workSessions, r.EndsBy s :=
    fun ⟨r, hr, hid⟩ => absurd hid (hnew r hr)
  intro r hr
  cases a with
  | startDay startedAt source dayOf =>
    obtain rfl := Option.some.inj h
    exact (w.db.startDay_step calendarOf startedAt w.clock source dayOf).endsBy_opened hi.ends_le
      hs hnot hr
  | ensureOpen generation today =>
    obtain rfl := Option.some.inj h
    exact (w.db.ensureOpenTx_step generation w.clock today).endsBy_opened hi.ends_le hs hnot hr
  | openImplicit t today =>
    obtain rfl := Option.some.inj h
    exact (w.db.openImplicit_step t today w.clock).endsBy_opened hi.ends_le hs hnot hr
  | replayStartDay eventAt startedAt dayOf =>
    simp only [step] at h
    split at h
    · obtain rfl := Option.some.inj h
      exact (w.db.startDay_step calendarOf startedAt eventAt .replay dayOf).endsBy_opened hok
        hs hnot hr
    · cases h
  | tick now =>
    simp only [step] at h
    split at h
    · obtain rfl := Option.some.inj h
      exact absurd hs hnot
    · cases h
  | read =>
    obtain rfl := Option.some.inj h
    exact absurd hs hnot
  | endDay today legacy endedSince =>
    obtain rfl := Option.some.inj h
    have hstep := w.db.endDay_step calendarOf w.clock today legacy endedSince
    exact hno (hstep.exists_id (fun _ => nofun) hs) r hr
  | autoClose session shiftEnd graceMin judgedAt lastInput =>
    simp only [step] at h
    split at h
    · obtain rfl := Option.some.inj h
      exact hno ((w.db.autoClose_step session _).exists_id (fun _ => nofun) hs) r hr
    · cases h
  | extendAutoClosed session shiftEnd graceMin t =>
    simp only [step] at h
    split at h
    · next hc =>
      obtain rfl := Option.some.inj h
      obtain ⟨-, -, -, hstop, -⟩ := hc
      have hstep := w.db.extendAutoClosed_step session t fun stop hs => by simpa [hs] using hstop
      exact hno (hstep.exists_id (fun _ => nofun) hs) r hr
    · cases h
  | begin eventAt last shiftEnd graceMin =>
    simp only [step] at h
    split at h
    · split at h
      · split at h
        · next hlast =>
          split at h
          · next re hre =>
            obtain rfl := Option.some.inj h
            have hlastmem : last ∈ w.db.workSessions := hlast.1.1
            rcases (Db.mem_reopenDay hlastmem (Db.reopens_eq_some hre).id).1 hs with ⟨hs, -⟩ | rfl
            · exact absurd hs hnot
            · exact hno ⟨last, hlastmem, rfl⟩ r hr
          · obtain rfl := Option.some.inj h
            exact absurd hs hnot
        · split at h
          · obtain rfl := Option.some.inj h
            exact absurd hs hnot
          · cases h
      · cases h
    · cases h
  | replayEndDay eventAt today legacy endedSince =>
    simp only [step] at h
    split at h
    · obtain rfl := Option.some.inj h
      have hstep := w.db.endDay_step calendarOf eventAt today legacy endedSince
      exact hno (hstep.exists_id (fun _ => nofun) hs) r hr
    · cases h
  | complete eventAt =>
    simp only [step] at h
    split at h
    · obtain rfl := Option.some.inj h
      exact absurd hs hnot
    · cases h

end World

/-- In every run whose steps meet `World.Ok`, no instant is inside two sessions, and every session
that opens starts at or after the end of every session the person had. The invariant is that
sessions are apart pair by pair, with what reads are still held. -/
theorem sessions_never_overlap {calendarOf : DayKeyFn} {acts : List WorldAction} {w : World}
    (h : Runs.run (World.step calendarOf) World.empty acts = some w)
    (hok : Runs.Meets (World.step calendarOf) World.Ok World.empty acts) :
    (∀ s ∈ w.db.workSessions, ∀ t ∈ w.db.workSessions, ∀ x, s.Covers x → t.Covers x → s = t) ∧
    ∀ a w', World.Ok w a → w.step calendarOf a = some w' → ∀ s ∈ w'.db.workSessions,
      (∀ r ∈ w.db.workSessions, r.id ≠ s.id) → ∀ r ∈ w.db.workSessions, r.EndsBy s := by
  have hi : World.Inv w :=
    Runs.invariant_run World.Inv (fun _ _ _ hi ho hs => World.step_inv hi ho hs) World.Inv.empty
      hok h
  refine ⟨fun s hs t ht x hsx htx => hi.apart.eq_of_covers hs ht hsx htx, ?_⟩
  intro a w' ha hw' s hs hnew r hr
  exact World.endsBy_of_step hi ha hw' hs hnew r hr

/-- A day opened at 9:00 and closed automatically, at its last input of 17:00; then a Start Day made
at `eventAt` arrives. -/
def autoClosedThenStartDay (eventAt : ℤ) : List WorldAction :=
  let opened : WorkSession := ⟨0, ⟨0⟩, 32400000, none, none, .agent⟩
  let closed : WorkSession := ⟨0, ⟨0⟩, 32400000, some 61200000, some .autoClosed, .agent⟩
  [.tick 32400000, .startDay 32400000 .agent utcDay, .tick 86400000, .read,
    .autoClose opened none 0 86400000 (some 61200000), .begin eventAt closed none 0,
    .replayStartDay eventAt eventAt utcDay]

/-- A Start Day made at 16:00 and replayed after the automatic close opens a session
inside the first one. -/
theorem replayed_startDay_overlaps :
    ¬ ∀ (calendarOf : DayKeyFn) (acts : List WorldAction) (w : World),
      Runs.run (World.step calendarOf) World.empty acts = some w →
      ∀ s ∈ w.db.workSessions, ∀ t ∈ w.db.workSessions, ∀ x, s.Covers x → t.Covers x → s = t := by
  intro h
  have hrun : Runs.run (World.step utcDay) World.empty (autoClosedThenStartDay 57600000) =
      some _ := rfl
  have heq := h utcDay _ _ hrun ⟨0, ⟨0⟩, 32400000, some 61200000, some .autoClosed, .agent⟩
    (by decide) ⟨1, ⟨0⟩, 57600000, none, none, .replay⟩ (by decide) 57600000
    ⟨by decide, fun e he => by obtain rfl := Option.some.inj he; decide⟩
    ⟨by decide, fun e he => by cases he⟩
  cases heq

/-- A Start Day made at 23:30, after the day had to be over, opens a session after the first one. -/
theorem autoClosedThenStartDay_apart :
    ∃ w, Runs.run (World.step utcDay) World.empty (autoClosedThenStartDay 84600000) = some w ∧
      ∀ s ∈ w.db.workSessions, ∀ t ∈ w.db.workSessions, ∀ x, s.Covers x → t.Covers x → s = t := by
  have hrun : Runs.run (World.step utcDay) World.empty (autoClosedThenStartDay 84600000) =
      some _ := rfl
  refine ⟨_, hrun, (sessions_never_overlap hrun ?_).1⟩
  refine .cons trivial rfl (.cons trivial rfl (.cons trivial rfl (.cons trivial rfl
    (.cons trivial rfl (.cons ?_ rfl (.cons ?_ rfl trivial))))))
  · exact fun h => absurd rfl h
  · intro _ s hs e he
    obtain rfl := List.mem_singleton.1 hs
    obtain rfl := Option.some.inj he
    decide

end RxVision
