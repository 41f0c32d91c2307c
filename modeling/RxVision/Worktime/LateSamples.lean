import RxVision.Lib.Runs
import RxVision.Worktime.SessionsApart

/-!
# Late samples (`WorkSessionsService.extendAutoClosed`)

A sample from an offline backlog moves an automatic close: the service reads the last session
started at or before it, computes that session's latest end, and updates the session if it still
ends where it was read to end. The three are separate steps here (`LateWorld.step`), between which
Start Days, End Days and automatic closes commit at the server's clock. A session that a Start Day
opens after the read is what the update does not see; unless one of those starts before the sample,
no session is extended into a later one (`late_sample_never_overlaps`).
-/

namespace RxVision

/-- A late sample at `t` on its way: the session read for it, and the sessions of that moment. -/
structure LateSample where
  session : WorkSession
  t : ℤ
  seen : List WorkSession
  deriving DecidableEq

/-- The tables and the server's clock; the sessions that automatic closes have read; the late
samples whose session was read, and those that passed the check against its latest end. -/
structure LateWorld where
  db : Db
  clock : ℤ
  held : List WorkSession
  pending : List LateSample
  allowed : List LateSample

/-- A step of a late sample, a Start Day, an End Day or an automatic close. -/
inductive LateAction
  | tick (now : ℤ)
  | startDay (startedAt : Option ℤ) (dayOf : DayKeyFn)
  | endDay (today : DateKey) (legacy : Bool) (endedSince : ℤ)
  | read
  | autoClose (session : WorkSession) (shiftEnd : Option ℤ) (graceMin judgedAt : ℤ)
      (lastInput : Option ℤ)
  | lastStartedAtOrBefore (session : WorkSession) (t : ℤ)
  | latestEndOfSession (sample : LateSample) (shiftEnd : Option ℤ) (graceMin : ℤ)
  | extendAutoClosed (sample : LateSample)

/-- The session was opened after the sample's read. -/
def LateSample.OpenedSince (p : LateSample) (s : WorkSession) : Prop := ∀ q ∈ p.seen, q.id ≠ s.id

namespace LateWorld

variable (calendarOf : DayKeyFn)

/-- A person who has never worked. -/
def empty : LateWorld := ⟨.empty, 0, [], [], []⟩

/-- The world after a step; `none` when the step cannot happen. -/
def step (w : LateWorld) : LateAction → Option LateWorld
  | .tick now => if w.clock ≤ now then some { w with clock := now } else none
  | .startDay startedAt dayOf =>
    some { w with
      db := (w.db.startDay calendarOf (boundedStartedAt startedAt w.clock) w.clock .agent dayOf).2 }
  | .endDay today legacy endedSince =>
    some { w with db := (w.db.endDay calendarOf w.clock today legacy endedSince).2 }
  | .read => some { w with held := w.held ++ w.db.workSessions.rows }
  | .autoClose session shiftEnd graceMin judgedAt lastInput =>
    let latestEnd := latestEndOf session.startedAt shiftEnd graceMin
    if session ∈ w.held ∧ autoCloseAfterShiftEndMinRange.1 ≤ graceMin ∧ judgedAt ≤ w.clock ∧
        isStale latestEnd judgedAt then
      some { w with
        db := (w.db.autoClose session (autoCloseAt session.startedAt latestEnd lastInput)).2 }
    else none
  | .lastStartedAtOrBefore session t =>
    if t < w.clock ∧ w.db.workSessions.IsLast (fun s => s.startedAt ≤ t)
      WorkSession.startedAt session
        ∧ session.endReason = some .autoClosed ∧ session.endedAt.any (fun stop => stop < t) then
      some { w with pending := ⟨session, t, w.db.workSessions.rows⟩ :: w.pending }
    else none
  | .latestEndOfSession sample shiftEnd graceMin =>
    if sample ∈ w.pending ∧ sample.t ≤ latestEndOf sample.session.startedAt shiftEnd graceMin then
      some { w with allowed := sample :: w.allowed }
    else none
  | .extendAutoClosed sample =>
    if sample ∈ w.allowed then
      some { w with db := (w.db.extendAutoClosed sample.session sample.t).2 }
    else none

/-- No session opened since a sample's read starts before the sample, when its update runs. -/
def Ok (w : LateWorld) : LateAction → Prop
  | .extendAutoClosed sample =>
    ∀ s ∈ w.db.workSessions, sample.OpenedSince s → sample.t ≤ s.startedAt
  | _ => True

/-- A session closed automatically is the only one closed so with its start, and every other one
with that start ended there; it started more than the reach of a Start Day ago. -/
def AutoClosedFirst (ws : Table WorkSession.id) (clock : ℤ) : Prop :=
  ∀ s ∈ ws, s.endReason = some .autoClosed → s.startedAt + START_DAY_BACKDATE_MS < clock ∧
    ∀ r ∈ ws, r ≠ s → r.startedAt = s.startedAt → r.EndsBy s ∧ r.endReason ≠ some .autoClosed

/-- A session read earlier is still there, and starts where it did. -/
def Kept (ws : Table WorkSession.id) (q : WorkSession) : Prop :=
  ∃ s ∈ ws, s.id = q.id ∧ s.startedAt = q.startedAt

/-- What stays true of a sample after its read: none of the sessions of that moment starts after the
session read and by the sample. -/
structure SampleInv (ws : Table WorkSession.id) (clock : ℤ) (p : LateSample) : Prop where
  late : p.t < clock
  after : ∀ stop, p.session.endedAt = some stop → stop < p.t
  mem : p.session ∈ p.seen
  kept : ∀ q ∈ p.seen, Kept ws q
  last : ∀ q ∈ p.seen, q.startedAt ≤ p.session.startedAt ∨ p.t < q.startedAt

/-- What every reachable state keeps. -/
structure Inv (w : LateWorld) : Prop where
  sessions : SessionInv w.db
  apart : SessionsApart w.db.workSessions
  byClock : SessionsBy w.db.workSessions w.clock
  autoClosed : AutoClosedFirst w.db.workSessions w.clock
  heldBy : ∀ q ∈ w.held, q.startedAt ≤ w.clock ∧ Kept w.db.workSessions q
  pending : ∀ p ∈ w.pending, SampleInv w.db.workSessions w.clock p
  allowed : ∀ p ∈ w.allowed, SampleInv w.db.workSessions w.clock p

/-- Nothing is stored yet. -/
theorem Inv.empty : Inv LateWorld.empty where
  sessions := .empty
  apart := fun s hs => absurd hs (Table.not_mem_empty s)
  byClock := fun s hs => absurd hs (Table.not_mem_empty s)
  autoClosed := fun s hs => absurd hs (Table.not_mem_empty s)
  heldBy := fun _ hs => absurd hs List.not_mem_nil
  pending := fun _ hp => absurd hp List.not_mem_nil
  allowed := fun _ hp => absurd hp List.not_mem_nil

/-! ## One step -/

section Steps

variable {calendarOf} {db db' : Db} {clock clock' now : ℤ} {kind : StepKind} {p : LateSample}

/-- A session that is kept is kept by every step. -/
theorem Kept.of_step {q : WorkSession} (h : SessionStep now db db' kind)
    (hq : Kept db.workSessions q) : Kept db'.workSessions q := by
  obtain ⟨s, hs, hid, hstart⟩ := hq
  obtain ⟨r, hr, hid', hstart'⟩ := h.exists_start hs
  exact ⟨r, hr, hid'.trans hid, hstart'.trans hstart⟩

/-- A sample that is stored stays in order under every step. -/
theorem SampleInv.of_step (h : SessionStep now db db' kind)
    (hp : SampleInv db.workSessions clock p) : SampleInv db'.workSessions clock p :=
  ⟨hp.late, hp.after, hp.mem, fun q hq => (hp.kept q hq).of_step h, hp.last⟩

/-- It does so as time passes. -/
theorem SampleInv.of_le (hp : SampleInv db.workSessions clock p) (hle : clock ≤ clock') :
    SampleInv db.workSessions clock' p :=
  ⟨hp.late.trans_le hle, hp.after, hp.mem, hp.kept, hp.last⟩

/-- So does a session that was closed automatically. -/
theorem AutoClosedFirst.of_le (hi : AutoClosedFirst db.workSessions clock) (hle : clock ≤ clock') :
    AutoClosedFirst db.workSessions clock' :=
  fun s hs hauto => ⟨(hi s hs hauto).1.trans_le hle, (hi s hs hauto).2⟩

/-- A Start Day starts after every session that was closed automatically. -/
theorem AutoClosedFirst.opens {t : ℤ} (h : SessionStep now db db' (.opens t))
    (hi : AutoClosedFirst db.workSessions clock) (ht : clock - START_DAY_BACKDATE_MS ≤ t)
    (hnow : t ≤ now) : AutoClosedFirst db'.workSessions clock := by
  cases h with
  | same h => rwa [h]
  | opened row _ _ _ hreason hstart hmem =>
    intro s hs hauto
    rcases (hmem s).1 hs with hs | rfl
    · obtain ⟨hlt, hfirst⟩ := hi s hs hauto
      refine ⟨hlt, fun r hr hne heq => ?_⟩
      rcases (hmem r).1 hr with hr | rfl
      · exact hfirst r hr hne heq
      · have hle := db.le_sessionStart_of_le hnow
        omega
    · rw [hreason] at hauto
      cases hauto

/-- Ending the open session: no session closed automatically starts where it starts. -/
theorem AutoClosedFirst.ends {reason : WorkSessionEndReason}
    (h : SessionStep now db db' (.ends reason)) (hi : AutoClosedFirst db.workSessions clock)
    (ha : SessionsApart db.workSessions)
    (hlong : reason = .autoClosed → ∀ s ∈ db.workSessions, s.endedAt = none →
      s.startedAt + START_DAY_BACKDATE_MS < clock) : AutoClosedFirst db'.workSessions clock := by
  cases h with
  | same h => rwa [h]
  | ended s₀ _ hs₀ hopen hmem =>
    have hno : ∀ s ∈ db.workSessions, s.endReason = some .autoClosed → s ≠ s₀ →
        s.startedAt ≠ s₀.startedAt := by
      intro s hs hauto hne heq
      obtain ⟨⟨e, he, -⟩, -⟩ := (hi s hs hauto).2 s₀ hs₀ hne.symm heq.symm
      rw [hopen] at he
      cases he
    intro s hs hauto
    rcases (hmem s).1 hs with ⟨hs, hne⟩ | rfl
    · refine ⟨(hi s hs hauto).1, fun r hr hrne heq => ?_⟩
      rcases (hmem r).1 hr with ⟨hr, -⟩ | rfl
      · exact (hi s hs hauto).2 r hr hrne heq
      · exact absurd heq.symm (hno s hs hauto hne)
    · obtain rfl := Option.some.inj hauto
      refine ⟨hlong rfl s₀ hs₀ hopen, fun r hr hrne heq => ?_⟩
      rcases (hmem r).1 hr with ⟨hr, hne⟩ | rfl
      · have hends := ha.endsBy_of_open hs₀ hopen hr hne
        exact ⟨hends, fun hauto => hno r hr hauto hne heq⟩
      · exact absurd rfl hrne

/-- Moving an automatic close moves no start. -/
theorem AutoClosedFirst.moves {id : ℕ} (h : SessionStep now db db' (.moves id))
    (hi : AutoClosedFirst db.workSessions clock) : AutoClosedFirst db'.workSessions clock := by
  cases h with
  | same h => rwa [h]
  | moved s₀ _ hs₀ _ hreason _ hmem =>
    intro s hs hauto
    rcases (hmem s).1 hs with ⟨hs, hne⟩ | rfl
    · refine ⟨(hi s hs hauto).1, fun r hr hrne heq => ?_⟩
      rcases (hmem r).1 hr with ⟨hr, -⟩ | rfl
      · exact (hi s hs hauto).2 r hr hrne heq
      · exact absurd hreason ((hi s hs hauto).2 s₀ hs₀ hne.symm heq).2
    · refine ⟨(hi s₀ hs₀ hreason).1, fun r hr hrne heq => ?_⟩
      rcases (hmem r).1 hr with ⟨hr, hne⟩ | rfl
      · exact (hi s₀ hs₀ hreason).2 r hr hne heq
      · exact absurd rfl hrne

/-- When the update of a sample runs, nothing is in its way but what opened since its read. -/
theorem SampleInv.freeUntil {s : WorkSession} (hp : SampleInv db.workSessions clock p)
    (hauto : AutoClosedFirst db.workSessions clock) (hs : s ∈ db.workSessions)
    (hid : s.id = p.session.id) (hreason : s.endReason = some .autoClosed)
    (hnew : ∀ r ∈ db.workSessions, p.OpenedSince r → p.t ≤ r.startedAt) :
    FreeUntil db.workSessions s p.t := by
  obtain ⟨s', hs', hid', hstart⟩ := hp.kept _ hp.mem
  obtain rfl := Table.eq_of_key hs' hs (hid'.trans hid.symm)
  intro r hr hne
  by_cases hseen : ∃ q ∈ p.seen, q.id = r.id
  · obtain ⟨q, hq, hqid⟩ := hseen
    obtain ⟨r', hr', hrid, hrstart⟩ := hp.kept q hq
    obtain rfl := Table.eq_of_key hr' hr (hrid.trans hqid)
    rcases hp.last q hq with hle | hlt
    · rcases lt_or_eq_of_le (hrstart.trans_le (hle.trans_eq hstart.symm)) with hlt | heq
      · exact Or.inl hlt
      · exact Or.inr (Or.inr ((hauto s' hs hreason).2 r' hr hne heq).1)
    · exact Or.inr (Or.inl (by omega))
  · exact Or.inr (Or.inl (hnew r hr fun q hq hqid => hseen ⟨q, hq, hqid⟩))

variable {w w' : LateWorld}

/-- A step of the sessions by the clock keeps the invariant when it keeps the sessions apart. -/
theorem Inv.of_sessionStep (hi : Inv w) (h : SessionStep now w.db db kind) (hnow : now ≤ w.clock)
    (ha : SessionsApart db.workSessions) (hauto : AutoClosedFirst db.workSessions w.clock) :
    Inv { w with db := db } :=
  ⟨h.inv hi.sessions, ha, h.sessionsBy hnow hi.byClock, hauto,
    fun q hq => ⟨(hi.heldBy q hq).1, (hi.heldBy q hq).2.of_step h⟩,
    fun p hp => (hi.pending p hp).of_step h, fun p hp => (hi.allowed p hp).of_step h⟩

/-- An automatic close comes at least the auto-close allowance after the start. -/
theorem Inv.autoClose (hi : Inv w) {session : WorkSession} {shiftEnd lastInput : Option ℤ}
    {graceMin judgedAt : ℤ} (hheld : session ∈ w.held)
    (hgrace : autoCloseAfterShiftEndMinRange.1 ≤ graceMin) (hjudged : judgedAt ≤ w.clock)
    (hstale : isStale (latestEndOf session.startedAt shiftEnd graceMin) judgedAt = true) :
    Inv { w with db := (w.db.autoClose session (autoCloseAt session.startedAt
      (latestEndOf session.startedAt shiftEnd graceMin) lastInput)).2 } := by
  have hstep := w.db.autoClose_step session (autoCloseAt session.startedAt
    (latestEndOf session.startedAt shiftEnd graceMin) lastInput)
  obtain ⟨hstart, s, hs, hid, hsstart⟩ := hi.heldBy session hheld
  have hle : autoCloseAt session.startedAt (latestEndOf session.startedAt shiftEnd graceMin)
      lastInput ≤ w.clock := autoCloseAt_le hstale hjudged hstart
  refine hi.of_sessionStep hstep hle (hstep.apart_ends hi.apart) ?_
  rcases w.db.autoClose_cases session (autoCloseAt session.startedAt
    (latestEndOf session.startedAt shiftEnd graceMin) lastInput) with h | ⟨s', hs', hid', hopen⟩
  · rw [h]
    exact hi.autoClosed
  · refine AutoClosedFirst.ends hstep hi.autoClosed hi.apart fun _ r hr hropen => ?_
    obtain rfl := Table.eq_of_key hs hs' (hid.trans hid'.symm)
    obtain rfl := hi.sessions.oneOpen r hr s hs hropen hopen
    have hlate : session.startedAt + graceMin * 60000 ≤
        latestEndOf session.startedAt shiftEnd graceMin := le_max_right _ _
    simp only [isStale, decide_eq_true_eq] at hstale
    simp only [autoCloseAfterShiftEndMinRange] at hgrace
    unfold START_DAY_BACKDATE_MS
    omega

/-- Every step that meets the condition keeps the invariant. -/
theorem step_inv {a : LateAction} (hi : Inv w) (hok : Ok w a) (h : w.step calendarOf a = some w') :
    Inv w' := by
  cases a with
  | tick now =>
    simp only [step] at h
    split at h
    · next hle =>
      obtain rfl := Option.some.inj h
      exact ⟨hi.sessions, hi.apart, hi.byClock.of_le hle, hi.autoClosed.of_le hle,
        fun q hq => ⟨(hi.heldBy q hq).1.trans hle, (hi.heldBy q hq).2⟩,
        fun p hp => (hi.pending p hp).of_le hle, fun p hp => (hi.allowed p hp).of_le hle⟩
    · cases h
  | startDay startedAt dayOf =>
    obtain rfl := Option.some.inj h
    obtain ⟨hback, hle⟩ := boundedStartedAt_mem startedAt w.clock
    have hstep := w.db.startDay_step calendarOf (boundedStartedAt startedAt w.clock) w.clock .agent
      dayOf
    refine hi.of_sessionStep hstep le_rfl (hstep.apart_opens hi.apart fun _ s hs => ?_)
      (AutoClosedFirst.opens hstep hi.autoClosed hback hle)
    exact (hi.byClock s hs).2
  | endDay today legacy endedSince =>
    obtain rfl := Option.some.inj h
    have hstep := w.db.endDay_step calendarOf w.clock today legacy endedSince
    exact hi.of_sessionStep hstep le_rfl (hstep.apart_ends hi.apart)
      (AutoClosedFirst.ends hstep hi.autoClosed hi.apart nofun)
  | read =>
    obtain rfl := Option.some.inj h
    refine ⟨hi.sessions, hi.apart, hi.byClock, hi.autoClosed, fun q hq => ?_, hi.pending,
      hi.allowed⟩
    rcases List.mem_append.1 hq with hq | hq
    · exact hi.heldBy q hq
    · exact ⟨(hi.byClock q hq).1, q, hq, rfl, rfl⟩
  | autoClose session shiftEnd graceMin judgedAt lastInput =>
    simp only [step] at h
    split at h
    · next hc =>
      obtain rfl := Option.some.inj h
      obtain ⟨hheld, hgrace, hjudged, hstale⟩ := hc
      exact hi.autoClose hheld hgrace hjudged hstale
    · cases h
  | lastStartedAtOrBefore session t =>
    simp only [step] at h
    split at h
    · next hc =>
      obtain rfl := Option.some.inj h
      obtain ⟨hlate, hlast, -, hstop⟩ := hc
      have hafter : ∀ stop, session.endedAt = some stop → stop < t := fun stop hs => by
        simpa [hs] using hstop
      refine ⟨hi.sessions, hi.apart, hi.byClock, hi.autoClosed, hi.heldBy, ?_, hi.allowed⟩
      intro p hp
      rcases List.mem_cons.1 hp with rfl | hp
      · refine ⟨hlate, hafter, hlast.1.1,
          fun q hq => ⟨q, hq, rfl, rfl⟩, fun q hq => ?_⟩
        by_cases hle : q.startedAt ≤ t
        · exact Or.inl (hlast.2 q hq (decide_eq_true hle))
        · exact Or.inr (not_le.1 hle)
      · exact hi.pending p hp
    · cases h
  | latestEndOfSession sample shiftEnd graceMin =>
    simp only [step] at h
    split at h
    · next hc =>
      obtain rfl := Option.some.inj h
      refine ⟨hi.sessions, hi.apart, hi.byClock, hi.autoClosed, hi.heldBy, hi.pending, ?_⟩
      intro p hp
      rcases List.mem_cons.1 hp with rfl | hp
      · exact hi.pending p hc.1
      · exact hi.allowed p hp
    · cases h
  | extendAutoClosed sample =>
    simp only [step] at h
    split at h
    · next hmem =>
      obtain rfl := Option.some.inj h
      have hp := hi.allowed sample hmem
      have hstep := w.db.extendAutoClosed_step sample.session sample.t hp.after
      refine hi.of_sessionStep hstep hp.late.le (hstep.apart_moves hi.sessions hi.apart ?_)
        (AutoClosedFirst.moves hstep hi.autoClosed)
      exact fun s hs hid hreason => hp.freeUntil hi.autoClosed hs hid hreason hok
    · cases h

end Steps

end LateWorld

/-- In every run in which no session opened between the read of a late sample and its update
starts before the sample, no instant is inside two sessions, and every session ended by the
time a later one started. -/
theorem late_sample_never_overlaps {calendarOf : DayKeyFn} {acts : List LateAction} {w : LateWorld}
    (h : Runs.run (LateWorld.step calendarOf) LateWorld.empty acts = some w)
    (hok : Runs.Meets (LateWorld.step calendarOf) LateWorld.Ok LateWorld.empty acts) :
    (∀ s ∈ w.db.workSessions, ∀ r ∈ w.db.workSessions, ∀ x, s.Covers x → r.Covers x → s = r) ∧
    ∀ s ∈ w.db.workSessions, ∀ r ∈ w.db.workSessions, s.startedAt < r.startedAt → s.EndsBy r := by
  have hi : LateWorld.Inv w :=
    Runs.invariant_run LateWorld.Inv (fun _ _ _ hi ho hs => LateWorld.step_inv hi ho hs)
      LateWorld.Inv.empty hok h
  refine ⟨fun s hs r hr x hsx hrx => hi.apart.eq_of_covers hs hr hsx hrx, ?_⟩
  intro s hs r hr hlt
  rcases hi.apart s hs r hr (by rintro rfl; exact lt_irrefl _ hlt) with h | ⟨e, he, hle⟩
  · exact h
  · have hstart := hi.sessions.ordered r hr e he
    omega

/-- A day opened at 9:00 is closed automatically at 23:03, at its last input of 17:00. A sample of
22:59 arrives then, and a Start Day between its read and its update. -/
def sampleAroundStartDay (startedAt : Option ℤ) : List LateAction :=
  let opened : WorkSession := ⟨0, ⟨0⟩, 32400000, none, none, .agent⟩
  let closed : WorkSession := ⟨0, ⟨0⟩, 32400000, some 61200000, some .autoClosed, .agent⟩
  let sample : LateSample := ⟨closed, 82740000, [closed]⟩
  [.tick 32400000, .startDay none utcDay, .tick 82980000, .read,
    .autoClose opened none 60 82980000 (some 61200000), .lastStartedAtOrBefore closed 82740000,
    .latestEndOfSession sample none 60, .startDay startedAt utcDay, .extendAutoClosed sample]

/-- The Start Day is dated 22:55: the first session is extended to 22:59 over the new one. -/
theorem late_sample_overlaps :
    ¬ ∀ (calendarOf : DayKeyFn) (acts : List LateAction) (w : LateWorld),
      Runs.run (LateWorld.step calendarOf) LateWorld.empty acts = some w →
      ∀ s ∈ w.db.workSessions, ∀ r ∈ w.db.workSessions, s.startedAt < r.startedAt →
        s.EndsBy r := by
  intro h
  have hrun : Runs.run (LateWorld.step utcDay) LateWorld.empty
      (sampleAroundStartDay (some 82500000)) = some _ := rfl
  obtain ⟨e, he, hle⟩ := h utcDay _ _ hrun
    ⟨0, ⟨0⟩, 32400000, some 82740000, some .autoClosed, .replay⟩ (by decide)
    ⟨1, ⟨0⟩, 82500000, none, none, .agent⟩ (by decide) (by decide)
  obtain rfl := Option.some.inj he
  exact absurd hle (by decide)

/-- The Start Day is dated 23:03, when it is pressed. -/
theorem sampleAroundStartDay_apart :
    ∃ w, Runs.run (LateWorld.step utcDay) LateWorld.empty (sampleAroundStartDay none) = some w ∧
      ∀ s ∈ w.db.workSessions, ∀ r ∈ w.db.workSessions, s.startedAt < r.startedAt → s.EndsBy r := by
  have hrun : Runs.run (LateWorld.step utcDay) LateWorld.empty (sampleAroundStartDay none) =
      some _ := rfl
  refine ⟨_, hrun, (late_sample_never_overlaps hrun ?_).2⟩
  refine .cons trivial rfl (.cons trivial rfl (.cons trivial rfl (.cons trivial rfl
    (.cons trivial rfl (.cons trivial rfl (.cons trivial rfl (.cons trivial rfl
    (.cons ?_ rfl trivial))))))))
  intro s hs hnew
  rcases List.mem_cons.1 hs with rfl | hs
  · exact absurd rfl (hnew _ List.mem_cons_self)
  · obtain rfl := List.mem_singleton.1 hs
    decide

end RxVision
