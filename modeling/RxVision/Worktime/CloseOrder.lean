import RxVision.Activity.SampleOrder
import RxVision.Worktime.DayMarks
import RxVision.Worktime.SessionsApart

/-!
# Samples around an automatic close (`ReportActivityFlow.ack`, `WorkSessionsService`)

An automatic close ends a session at the last input stored by then (`closeStale`); a later input
that arrives afterwards moves the end to itself (`WorkSessionsService.extendAutoClosed`). Both
compute the latest of the inputs that have arrived, so where the close comes among them does not
matter (`close_order_free`).

The requests here are those of an agent with an offline backlog (4.x), one after another. The latest
end of a session is the same throughout, so the service's cache of it is left out: it only skips a
check of a session that is not stale.
-/

namespace RxVision

/-! ## The model -/

/-- `ACTIVITY_BACKLOG_MS`: how long an offline backlog is stored. -/
def ACTIVITY_BACKLOG_MS : ℤ := 7 * 24 * 60 * 60000

/-- `MAX_FUTURE_SKEW_MS`: a sample stamped this far ahead of the server's clock is taken as now. -/
def MAX_FUTURE_SKEW_MS : ℤ := 2 * 60000

/-- `sampleInstant`; `raw` is the parsed stamp of the agent. -/
def sampleInstant (raw : Option ℤ) (now : ℤ) : ℤ :=
  match raw with
  | none => now
  | some t => if t > now + MAX_FUTURE_SKEW_MS then now else t

/-- Whether `ReportActivityFlow` takes a body as idle. -/
def ReportActivityDto.isIdle (body : ReportActivityDto) : Bool :=
  body.idle == some true || body.locked == some true || body.app.map trim == some LOCK_SCREEN_APP

/-- SQL's `max` of a column. -/
def maxOf {α : Type*} [LinearOrder α] (l : List α) : Option α := l.argmax id

/-- `lastInputs`, for one session. -/
def Samples.lastInput (t : Samples) (start stop : ℤ) : Option ℤ :=
  maxOf ((t.rows.filter fun s => s.idle = false ∧ start ≤ s.takenAt ∧ s.takenAt ≤ stop).map
    fun s => s.takenAt)

/-- What the latest end of a person's sessions comes from: the shift's end on a day, none on a day
off, and the organisation's allowance. -/
structure CloseRules where
  shiftEnd : DateKey → Option ℤ
  graceMin : ℤ
  grace_ge : autoCloseAfterShiftEndMinRange.1 ≤ graceMin

/-- `latestEndOfSession`. -/
def CloseRules.latestEndOfSession (rules : CloseRules) (s : WorkSession) : ℤ :=
  latestEndOf s.startedAt (rules.shiftEnd s.date) rules.graceMin

namespace WorkSessionsService

/-- `workedAt`. -/
def workedAt (db : Db) (t : ℤ) : Bool :=
  db.workSessions.rows.any fun s => s.startedAt ≤ t && s.endedAt.all fun e => t < e

/-- `lastStartedAtOrBefore`. -/
def lastStartedAtOrBefore (db : Db) (t : ℤ) : Option WorkSession :=
  db.workSessions.findLast? (fun s => s.startedAt ≤ t) WorkSession.startedAt

/-- `extendAutoClosed`: whether the day now runs to `t`. -/
def extendAutoClosed (rules : CloseRules) (db : Db) (t : ℤ) : Bool × Db :=
  match lastStartedAtOrBefore db t with
  | none => (false, db)
  | some s =>
    match s.endedAt with
    | none => (false, db)
    | some stop =>
      if s.endReason ≠ some .autoClosed then (false, db)
      else if t < stop then (false, db)
      else if t > rules.latestEndOfSession s then (false, db)
      else if t = stop then (true, db)
      else db.extendAutoClosed s t

/-- `closeStale`, for the person's open session. -/
def closeStale (rules : CloseRules) (db : Db) (samples : Samples) (now : ℤ) : Db :=
  match db.findOpen with
  | none => db
  | some s =>
    let latestEnd := rules.latestEndOfSession s
    if isStale latestEnd now then
      let lastInput := samples.lastInput s.startedAt (max now latestEnd)
      (db.autoClose s (autoCloseAt s.startedAt latestEnd lastInput)).2
    else db

end WorkSessionsService

/-- `ReportActivityUseCase.execute`: the samples afterwards. -/
def ReportActivityUseCase.execute (clock : LocalTime) (db : Db) (samples : Samples) (raw : Option ℤ)
    (body : ReportActivityDto) (now : ℤ) (late : Bool) : Samples :=
  let takenAt := sampleInstant raw now
  let stale := decide (now - takenAt > ACTIVITY_BACKLOG_MS)
  let date := clock.localDateString (if stale then now else takenAt)
  match db.workDayEnds date with
  | some e =>
    if !stale && takenAt ≤ e then (samples.store clock ⟨takenAt, body, now, true⟩).1 else samples
  | none => if stale then samples else (samples.store clock ⟨takenAt, body, now, late⟩).1

/-- The tables of a person, their samples, and the server's clock. -/
structure ReportWorld where
  db : Db
  samples : Samples
  now : ℤ

/-- A request of the agent, or the job that closes stale sessions. -/
inductive ReportAction
  | report (raw : Option ℤ) (body : ReportActivityDto) (now : ℤ)
  | autoCloseAll (now : ℤ)

/-- When an action comes. -/
def ReportAction.now : ReportAction → ℤ
  | .report _ _ now | .autoCloseAll now => now

namespace ReportWorld

variable (clock : LocalTime) (rules : CloseRules)

/-- `autoCloseIfStale`, and `autoCloseAll` as far as it concerns the person. -/
def autoClose (w : ReportWorld) (now : ℤ) : ReportWorld :=
  { w with db := WorkSessionsService.closeStale rules w.db w.samples now, now }

/-- `ReportActivityFlow.ack` after the check for a stale session, for a 4.x agent. -/
def capture (w : ReportWorld) (raw : Option ℤ) (body : ReportActivityDto) (now : ℤ) : ReportWorld :=
  let takenAt := sampleInstant raw now
  let openSession := w.db.findOpen
  let stored := fun (db : Db) (late : Bool) =>
    { w with db, samples := ReportActivityUseCase.execute clock db w.samples raw body now late }
  if openSession.all fun s => takenAt < s.startedAt then
    if takenAt < now && WorkSessionsService.workedAt w.db takenAt then stored w.db true
    else
      let extended := if takenAt < now && !body.isIdle then
        WorkSessionsService.extendAutoClosed rules w.db takenAt else (false, w.db)
      if extended.1 then stored extended.2 true
      else if openSession.isNone then { w with db := extended.2 }
      else stored extended.2 false
  else stored w.db false

/-- `ReportActivityFlow.ack`. -/
def ack (w : ReportWorld) (raw : Option ℤ) (body : ReportActivityDto) (now : ℤ) : ReportWorld :=
  (w.autoClose rules now).capture clock rules raw body now

/-- The world after an action; the server's clock never goes back. -/
def step (w : ReportWorld) (a : ReportAction) : Option ReportWorld :=
  if w.now ≤ a.now then
    match a with
    | .report raw body now => some (w.ack clock rules raw body now)
    | .autoCloseAll now => some (w.autoClose rules now)
  else none

end ReportWorld

/-- The report of an action as it reaches the store. -/
def ReportAction.sample : ReportAction → Option ActivityReport
  | .report raw body now => some ⟨sampleInstant raw now, body, now, false⟩
  | .autoCloseAll _ => none

/-- The reports of some actions, in the order they arrive. -/
def samplesOf (as : List ReportAction) : List ActivityReport := as.filterMap ReportAction.sample

/-- The instants of these reports. -/
def instants (as : List ReportAction) : List ℤ := (samplesOf as).map ActivityReport.takenAt

/-! ## The latest input -/

section Latest

variable {α : Type*} [LinearOrder α] {l l' : List α} {m : α}

/-- The greatest of a list is the member that no other one exceeds. -/
theorem maxOf_eq_some : maxOf l = some m ↔ m ∈ l ∧ ∀ x ∈ l, x ≤ m := by
  constructor
  · exact fun h => ⟨List.argmax_mem h, fun x hx => List.le_of_mem_argmax hx h⟩
  · rintro ⟨hm, hle⟩
    cases h : maxOf l with
    | none => rw [List.argmax_eq_none.1 h] at hm; cases hm
    | some m' =>
      have hle' : m ≤ m' := List.le_of_mem_argmax hm h
      rw [le_antisymm hle' (hle m' (List.argmax_mem h))]

/-- The largest value depends only on which values there are, not on their order. -/
theorem maxOf_congr (h : ∀ x, x ∈ l ↔ x ∈ l') : maxOf l = maxOf l' := by
  cases hm : maxOf l with
  | some m =>
    obtain ⟨hmem, hle⟩ := maxOf_eq_some.1 hm
    exact (maxOf_eq_some.2 ⟨(h m).1 hmem, fun x hx => hle x ((h x).2 hx)⟩).symm
  | none =>
    have hl : l = [] := List.argmax_eq_none.1 hm
    subst hl
    have hl' : l' = [] := List.eq_nil_iff_forall_not_mem.2 fun x hx => by cases (h x).2 hx
    rw [hl']
    rfl

end Latest

/-- `e` is the latest of some inputs of a session that started at `start`, or its
start when there are none. -/
structure IsLatest (start : ℤ) (inputs : List ℤ) (e : ℤ) : Prop where
  le : ∀ t ∈ inputs, t ≤ e
  mem : e ∈ inputs ∨ inputs = [] ∧ e = start

section Close

variable {start latestEnd e t : ℤ} {inputs : List ℤ}

/-- Where the automatic close ends a session whose inputs lie inside its working day: at the latest
input, or at the start without one. -/
theorem autoCloseAt_isLatest
    (hin : ∀ t ∈ inputs, start ≤ t ∧ t ≤ latestEnd) :
    IsLatest start inputs (autoCloseAt start latestEnd (maxOf inputs)) := by
  cases h : maxOf inputs with
  | none =>
    have hnil : inputs = [] := List.argmax_eq_none.1 h
    subst hnil
    exact ⟨nofun, .inr ⟨rfl, rfl⟩⟩
  | some m =>
    obtain ⟨hmem, hmax⟩ := maxOf_eq_some.1 h
    have heq : autoCloseAt start latestEnd (some m) = m := by
      have hm := hin m hmem
      simp only [autoCloseAt]
      omega
    rw [heq]
    exact ⟨hmax, .inl hmem⟩

/-- There is one latest input, so two orders of arrival end a session at the same instant. -/
theorem IsLatest.unique {e' : ℤ} (h : IsLatest start inputs e) (h' : IsLatest start inputs e') :
    e = e' := by
  rcases h.mem with hm | ⟨hnil, he⟩
  · rcases h'.mem with hm' | ⟨hnil, -⟩
    · exact le_antisymm (h'.le e hm) (h.le e' hm')
    · rw [hnil] at hm
      cases hm
  · rcases h'.mem with hm' | ⟨-, he'⟩
    · rw [hnil] at hm'
      cases hm'
    · rw [he, he']

/-- An input inside the session that is no later than the latest one leaves the latest one. -/
theorem IsLatest.concat_le (h : IsLatest start inputs e) (hstart : start ≤ t) (hle : t ≤ e) :
    IsLatest start (inputs ++ [t]) e := by
  refine ⟨fun x hx => ?_, .inl ?_⟩
  · rcases List.mem_append.1 hx with hx | hx
    · exact h.le x hx
    · rwa [List.mem_singleton.1 hx]
  · rcases h.mem with hm | ⟨-, he⟩
    · exact List.mem_append_left _ hm
    · have heq : e = t := by omega
      rw [heq]
      exact List.mem_append_right _ (List.mem_singleton_self t)

/-- A later input is the latest. -/
theorem IsLatest.concat_ge (h : IsLatest start inputs e) (hle : e ≤ t) :
    IsLatest start (inputs ++ [t]) t := by
  refine ⟨fun x hx => ?_, .inl (List.mem_append_right _ (List.mem_singleton_self t))⟩
  rcases List.mem_append.1 hx with hx | hx
  · exact (h.le x hx).trans hle
  · rw [List.mem_singleton.1 hx]

end Close

/-- No session ends later than it may, and the latest end comes after the start. -/
theorem CloseRules.startedAt_le (rules : CloseRules) (s : WorkSession) :
    s.startedAt ≤ rules.latestEndOfSession s := by
  have hlate : s.startedAt + rules.graceMin * 60000 ≤ rules.latestEndOfSession s := le_max_right _ _
  have hgrace := rules.grace_ge
  simp only [autoCloseAfterShiftEndMinRange] at hgrace
  omega

/-! ## The session in the tables -/

/-- The session that was opened as `s` ends at `stop` (it is open with none), as its day's mark
says, and every other session started before it and ended by its start. -/
structure SessionAt (db : Db) (s : WorkSession) (stop : Option ℤ) : Prop where
  row : ∃ r ∈ db.workSessions, r.id = s.id ∧ r.date = s.date ∧ r.startedAt = s.startedAt ∧
    r.endedAt = stop ∧ (stop ≠ none → r.endReason = some .autoClosed)
  mark : db.workDayEnds s.date = stop
  others : ∀ r ∈ db.workSessions, r.id ≠ s.id → r.startedAt < s.startedAt ∧ r.EndsBy s

namespace SessionAt

variable {db : Db} {s : WorkSession} {e t : ℤ} {stop : Option ℤ}

/-- A session of the person is this one, with its end as stated, or an earlier one that
ended before it began. -/
theorem cases_mem (h : SessionAt db s stop) {r : WorkSession} (hr : r ∈ db.workSessions) :
    (r.id = s.id ∧ r.date = s.date ∧ r.startedAt = s.startedAt ∧ r.endedAt = stop ∧
        (stop ≠ none → r.endReason = some .autoClosed)) ∨
      r.startedAt < s.startedAt ∧ r.EndsBy s := by
  obtain ⟨r₀, hr₀, hid, hrest⟩ := h.row
  rcases eq_or_ne r.id s.id with heq | hne
  · obtain rfl := Table.eq_of_key hr hr₀ (heq.trans hid.symm)
    exact .inl ⟨hid, hrest⟩
  · exact .inr (h.others r hr hne)

/-- With the only session ended none is open. -/
theorem findOpen_none (h : SessionAt db s (some e)) : db.findOpen = none := by
  refine Db.findOpen_eq_none.2 fun r hr => ?_
  rcases h.cases_mem hr with ⟨-, -, -, hend, -⟩ | ⟨-, e', he', -⟩
  · exact ⟨e, hend⟩
  · exact ⟨e', he'⟩

/-- With the session open and no other one, it is the one that `findOpen` finds. -/
theorem findOpen_some (h : SessionAt db s none) :
    ∃ r, db.findOpen = some r ∧ r.id = s.id ∧ r.date = s.date ∧ r.startedAt = s.startedAt := by
  cases hopen : db.findOpen with
  | none =>
    obtain ⟨r₀, hr₀, -, -, -, hend, -⟩ := h.row
    obtain ⟨e, he⟩ := Db.findOpen_eq_none.1 hopen r₀ hr₀
    rw [hend] at he
    cases he
  | some r =>
    obtain ⟨hr, hrend⟩ := Db.findOpen_eq_some hopen
    rcases h.cases_mem hr with ⟨hid, hdate, hstart, -⟩ | ⟨-, e, he, -⟩
    · exact ⟨r, rfl, hid, hdate, hstart⟩
    · rw [hrend] at he
      cases he

/-- From the start of the session on, only the session itself covers an instant: up to its end. -/
theorem workedAt_iff (h : SessionAt db s (some e)) (hstart : s.startedAt ≤ t) :
    WorkSessionsService.workedAt db t = true ↔ t < e := by
  simp only [WorkSessionsService.workedAt, List.any_eq_true, Bool.and_eq_true, decide_eq_true_eq,
    Option.all_eq_true]
  constructor
  · rintro ⟨r, hr, -, hcov⟩
    rcases h.cases_mem hr with ⟨-, -, -, hend, -⟩ | ⟨-, e', he', hle⟩
    · exact hcov e hend
    · have := hcov e' he'
      omega
  · obtain ⟨r₀, hr₀, -, -, hs, hend, -⟩ := h.row
    refine fun hlt => ⟨r₀, hr₀, by omega, fun e' he' => ?_⟩
    rw [hend] at he'
    obtain rfl := Option.some.inj he'
    exact hlt

/-- The last session that started by an instant, from the start of the session on, is
the session. -/
theorem lastStartedAtOrBefore_eq (h : SessionAt db s (some e)) (hstart : s.startedAt ≤ t) :
    ∃ r, WorkSessionsService.lastStartedAtOrBefore db t = some r ∧ r ∈ db.workSessions ∧
      r.id = s.id ∧ r.date = s.date ∧ r.startedAt = s.startedAt ∧ r.endedAt = some e ∧
      r.endReason = some .autoClosed := by
  obtain ⟨r₀, hr₀, -, -, hs, -⟩ := h.row
  cases hlast : WorkSessionsService.lastStartedAtOrBefore db t with
  | none =>
    have := Table.findLast?_eq_none.1 hlast r₀ hr₀
    simp only [decide_eq_false_iff_not] at this
    omega
  | some r =>
    obtain ⟨hr, -⟩ := Table.mem_of_findLast? hlast
    have hle := Table.le_of_findLast? hlast hr₀ (by simp only [decide_eq_true_eq]; omega)
    rcases h.cases_mem hr with ⟨hid, hdate, hrs, hend, hreason⟩ | ⟨hlt, -⟩
    · exact ⟨r, rfl, hr, hid, hdate, hrs, hend, hreason nofun⟩
    · omega

/-- Closing the open session at or after its start leaves it with that end, and its
day with the mark. -/
theorem autoClose (h : SessionAt db s none) {r : WorkSession} (hid : r.id = s.id)
    (hdate : r.date = s.date) (ht : s.startedAt ≤ t) : SessionAt (db.autoClose r t).2 s
    (some t) := by
  obtain ⟨r₀, hr₀, hid₀, hdate₀, hs, hend, -⟩ := h.row
  have hfind : (db.workSessions.find? fun x => x.id = r.id ∧ x.isOpen) = some r₀ :=
    Table.find?_eq_some_of_key hr₀ (by simp [hid₀, hid, hend]) fun x hx =>
      (of_decide_eq_true hx).1.trans (hid.trans hid₀.symm)
  have hclamp : (if t < r₀.startedAt then r₀.startedAt else t) = t := if_neg (by omega)
  have hmem : ∀ x, x ∈ (db.autoClose r t).2.workSessions ↔
      (x ∈ db.workSessions ∧ x ≠ r₀) ∨
        x = { r₀ with endedAt := some t, endReason := some .autoClosed } := by
    intro x
    simp only [Db.autoClose, hfind, hclamp, Db.markDayEnded_workSessions,
      Db.closeOpenPresence_workSessions]
    rw [Db.endSession, ← Db.mem_endSession hr₀, hid, hid₀]
    rfl
  refine ⟨⟨_, (hmem _).2 (.inr rfl), hid₀, hdate₀, hs, rfl, fun _ => rfl⟩, ?_, fun x hx hne => ?_⟩
  · simp only [Db.autoClose, hfind, hclamp, hdate]
    show (if s.date = s.date ∧ db.workDayEnds s.date = none then some t else _) = some t
    rw [if_pos ⟨rfl, h.mark⟩]
  · rcases (hmem x).1 hx with ⟨hx, -⟩ | rfl
    · exact h.others x hx hne
    · exact absurd hid₀ hne

/-- Moving the end of the closed session moves the mark of its day with it, and leaves the rest. -/
theorem extend (h : SessionAt db s (some e)) {r : WorkSession} (hr : r ∈ db.workSessions)
    (hid : r.id = s.id) (hdate : r.date = s.date) (hend : r.endedAt = some e)
    (hreason : r.endReason = some .autoClosed) :
    (db.extendAutoClosed r t).1 = true ∧ SessionAt (db.extendAutoClosed r t).2 s (some t) := by
  have hfind : (db.workSessions.find? fun x =>
      x.id = r.id ∧ x.endReason = some .autoClosed ∧ x.endedAt = some e) = some r :=
    Table.find?_eq_some_of_key hr (by simp [hreason, hend]) fun x hx => (of_decide_eq_true hx).1
  have hmem : ∀ x, x ∈ (db.extendAutoClosed r t).2.workSessions ↔
      (x ∈ db.workSessions ∧ x ≠ r) ∨ x = { r with endedAt := some t, source := .replay } := by
    intro x
    simp only [Db.extendAutoClosed, hend, hfind]
    exact Table.mem_updateMany_one hr (by simp [hreason, hend]) fun x' hx' hp =>
      Table.eq_of_key hx' hr (of_decide_eq_true hp).1
  have hstart : r.startedAt = s.startedAt := by
    obtain ⟨r₀, hr₀, hid₀, -, hs, -⟩ := h.row
    rw [Table.eq_of_key hr hr₀ (hid.trans hid₀.symm), hs]
  refine ⟨by simp only [Db.extendAutoClosed, hend, hfind],
    ⟨_, (hmem _).2 (.inr rfl), hid, hdate, hstart, rfl, fun _ => hreason⟩, ?_, fun x hx hne => ?_⟩
  · simp only [Db.extendAutoClosed, hend, hfind, hdate]
    exact if_pos ⟨trivial, h.mark⟩
  · rcases (hmem x).1 hx with ⟨hx, -⟩ | rfl
    · exact h.others x hx hne
    · exact absurd hid hne

end SessionAt

/-- An automatic close marks no other day than its session's. -/
theorem Db.autoClose_workDayEnds_of_ne {db : Db} {r : WorkSession} {t : ℤ} {d : DateKey}
    (hd : d ≠ r.date) : (db.autoClose r t).2.workDayEnds d = db.workDayEnds d := by
  unfold Db.autoClose
  split
  · rfl
  · exact if_neg fun h => hd h.1

/-- Moving an automatic close moves the mark of its own day only. -/
theorem Db.extendAutoClosed_workDayEnds_of_ne {db : Db} {r : WorkSession} {t : ℤ} {d : DateKey}
    (hd : d ≠ r.date) : (db.extendAutoClosed r t).2.workDayEnds d = db.workDayEnds d := by
  unfold Db.extendAutoClosed
  split
  · rfl
  · dsimp only
    split
    · rfl
    · exact if_neg fun h => hd h.1

/-! ## Storing a sample -/

/-- The text of the lock screen is short enough to be stored whole, so it is recognised again. -/
theorem trimTo_eq_lockScreen {app : Option String} :
    trimTo app 200 = some LOCK_SCREEN_APP ↔ app.map trim = some LOCK_SCREEN_APP := by
  cases app with
  | none => simp [trimTo]
  | some v =>
    have hunits : (LOCK_SCREEN_APP.toList.map unitsOf).sum = 11 := by decide
    simp only [trimTo, Option.bind_some, Option.map_some, Option.some.injEq]
    constructor
    · intro h
      split at h
      · cases h
      · have hslice : sliceUnits (trim v).toList 200 = LOCK_SCREEN_APP.toList := by
          rw [← Option.some.inj h, String.toList_ofList]
        have hall : sliceUnits (trim v).toList 200 = (trim v).toList :=
          sliceUnits_of_lt (by rw [hslice, hunits]; omega)
        exact String.toList_injective (hall.symm.trans hslice)
    · intro h
      rw [h, if_neg (by decide), sliceUnits_of_le (by rw [hunits]; omega), String.ofList_toList]

/-- The flow takes a body as idle when the sample stored for it is. -/
theorem newSample_idle (clock : LocalTime) (r : ActivityReport) :
    (newSample clock r).idle = r.body.isIdle := by
  rw [Bool.eq_iff_iff]
  simp only [newSample, ReportActivityDto.isIdle, Bool.or_eq_true, beq_iff_eq, trimTo_eq_lockScreen,
    or_assoc, Option.getD_eq_iff, Bool.false_eq_true, and_false, or_false]

/-- Samples that were created alike are idle alike and of one instant. -/
theorem Sample.of_asCreated {x y : Sample} (h : x.asCreated = y.asCreated) :
    x.idle = y.idle ∧ x.takenAt = y.takenAt := by
  simp only [Sample.asCreated, Sample.mk.injEq] at h
  exact ⟨h.2.2.2.1, h.2.1⟩

namespace Samples

/-- Storing creates one sample, and changes of the others only how long they lasted. -/
theorem store_rows (clock : LocalTime) (t : Samples) (r : ActivityReport) :
    (t.store clock r).1.rows.map (fun s => s.toSample.asCreated) =
      t.rows.map (fun s => s.toSample.asCreated) ++ [newSample clock r] := by
  simp only [store, createSample, Table.create, List.map_append, closePrevious_rows]
  rfl

end Samples

/-- A sample of the last seven days whose day has no End Day mark before it is stored, and no other
row changes but for its duration. -/
theorem ReportActivityUseCase.execute_rows (clock : LocalTime) {db : Db} {samples : Samples}
    {raw : Option ℤ} {body : ReportActivityDto} {now : ℤ} {late : Bool}
    (hfresh : now - sampleInstant raw now ≤ ACTIVITY_BACKLOG_MS)
    (hmark : ∀ e, db.workDayEnds (clock.localDateString (sampleInstant raw now)) = some e →
      sampleInstant raw now ≤ e) :
    (execute clock db samples raw body now late).rows.map (fun s => s.toSample.asCreated) =
      samples.rows.map (fun s => s.toSample.asCreated) ++
        [newSample clock ⟨sampleInstant raw now, body, now, false⟩] := by
  have hstale : decide (now - sampleInstant raw now > ACTIVITY_BACKLOG_MS) = false :=
    decide_eq_false (not_lt.2 hfresh)
  simp only [execute, hstale, Bool.false_eq_true, if_false, Bool.not_false, Bool.true_and]
  split
  · next e he =>
    rw [if_pos (decide_eq_true (hmark e he)), Samples.store_rows]
    rfl
  · rw [Samples.store_rows]
    rfl

/-! ## A run -/

/-- A sample of the session `s`: not idle, taken between its start and its latest end, and arriving
within the backlog window. -/
def ReportAction.InTime (rules : CloseRules) (s : WorkSession) : ReportAction → Prop
  | .report raw body now =>
    body.isIdle = false ∧ s.startedAt ≤ sampleInstant raw now ∧
      sampleInstant raw now ≤ rules.latestEndOfSession s ∧
      now - sampleInstant raw now ≤ ACTIVITY_BACKLOG_MS
  | .autoCloseAll _ => True

instance (rules : CloseRules) (s : WorkSession) (a : ReportAction) :
    Decidable (a.InTime rules s) := by
  unfold ReportAction.InTime
  split <;> infer_instance

namespace ReportWorld

/-- `s` is the person's open session and the last they started, none of its input has arrived, and
no End Day mark stands on a calendar day of it. -/
structure Opened (clock : LocalTime) (rules : CloseRules) (w : ReportWorld) (s : WorkSession) :
    Prop where
  days : DayInv w.db
  apart : SessionsApart w.db.workSessions
  mem : s ∈ w.db.workSessions
  isOpen : s.endedAt = none
  last : ∀ r ∈ w.db.workSessions, r ≠ s → r.startedAt < s.startedAt
  unmarked : ∀ t, s.startedAt ≤ t → t ≤ rules.latestEndOfSession s →
    w.db.workDayEnds (clock.localDateString t) = none
  noInput : ∀ x ∈ w.samples, x.idle = false → x.takenAt < s.startedAt

/-- The opened session is the only one, and open. -/
theorem Opened.session {clock : LocalTime} {rules : CloseRules} {w : ReportWorld} {s : WorkSession}
    (h : Opened clock rules w s) : SessionAt w.db s none where
  row := ⟨s, h.mem, rfl, rfl, rfl, h.isOpen, fun hne => absurd rfl hne⟩
  mark := h.days.unmarked s h.mem h.isOpen
  others := by
    intro r hr hne
    have hrs : r ≠ s := fun heq => hne (congrArg WorkSession.id heq)
    exact ⟨h.last r hr hrs, h.apart.endsBy_of_open h.mem h.isOpen hr hrs⟩

/-- What the samples of `past` and the closes among them leave of the session: open, or closed at
the latest of these samples once its latest end has passed. -/
structure CloseInv (clock : LocalTime) (rules : CloseRules) (w₀ : ReportWorld) (s : WorkSession)
    (past : List ReportAction) (w : ReportWorld) : Prop where
  inTime : ∀ a ∈ past, a.InTime rules s
  session : SessionAt w.db s none ∨ rules.latestEndOfSession s < w.now ∧
    ∃ e, IsLatest s.startedAt (instants past) e ∧ SessionAt w.db s (some e)
  days : ∀ d, d ≠ s.date → w.db.workDayEnds d = w₀.db.workDayEnds d
  stored : w.samples.rows.map (fun x => x.toSample.asCreated) =
    w₀.samples.rows.map (fun x => x.toSample.asCreated) ++ (samplesOf past).map (newSample clock)

section Run

variable {clock : LocalTime} {rules : CloseRules} {w₀ w w' : ReportWorld} {s : WorkSession}
  {past : List ReportAction} {now : ℤ}

/-- Before any report the invariant holds. -/
theorem Opened.inv (h : Opened clock rules w s) : CloseInv clock rules w s [] w where
  inTime := nofun
  session := .inl h.session
  days := fun _ _ => rfl
  stored := by simp [samplesOf]

/-- The samples of a run are taken inside the session, when every action of the run is in time. -/
theorem mem_instants (h : ∀ a ∈ past, a.InTime rules s) {t : ℤ} (ht : t ∈ instants past) :
    s.startedAt ≤ t ∧ t ≤ rules.latestEndOfSession s := by
  obtain ⟨r, hr, rfl⟩ := List.mem_map.1 ht
  obtain ⟨a, ha, hsome⟩ := List.mem_filterMap.1 hr
  cases a with
  | report raw body now =>
    obtain rfl := Option.some.inj hsome
    exact ⟨(h _ ha).2.1, (h _ ha).2.2.1⟩
  | autoCloseAll now => cases hsome

/-- The samples of a run are stored as input: an action that is in time is not idle. -/
theorem newSample_of_inTime (h : ∀ a ∈ past, a.InTime rules s) {r : ActivityReport}
    (hr : r ∈ samplesOf past) : (newSample clock r).idle = false := by
  obtain ⟨a, ha, hsome⟩ := List.mem_filterMap.1 hr
  cases a with
  | report raw body now =>
    obtain rfl := Option.some.inj hsome
    rw [newSample_idle]
    exact (h _ ha).1
  | autoCloseAll now => cases hsome

/-- The last input that an automatic close finds is the latest sample that has arrived, in
whatever order they came. -/
theorem CloseInv.lastInput (hi : CloseInv clock rules w₀ s past w) (h₀ : Opened clock rules w₀ s)
    {stop : ℤ} (hstop : rules.latestEndOfSession s ≤ stop) :
    w.samples.lastInput s.startedAt stop = maxOf (instants past) := by
  refine maxOf_congr fun t => ?_
  have hmem : ∀ x : Sample, x ∈ w.samples.rows.map (fun y => y.toSample.asCreated) ↔
      x ∈ w₀.samples.rows.map (fun y => y.toSample.asCreated) ∨
        x ∈ (samplesOf past).map (newSample clock) := by
    intro x
    rw [hi.stored, List.mem_append]
  simp only [List.mem_map, List.mem_filter, decide_eq_true_eq]
  constructor
  · rintro ⟨x, ⟨hx, hidle, hstart, -⟩, rfl⟩
    rcases (hmem x.toSample.asCreated).1 (List.mem_map_of_mem hx) with hold | hnew
    · obtain ⟨y, hy, heq⟩ := List.mem_map.1 hold
      obtain ⟨hyidle, hytime⟩ : y.idle = x.idle ∧ y.takenAt = x.takenAt := Sample.of_asCreated heq
      have := h₀.noInput y hy (hyidle.trans hidle)
      omega
    · obtain ⟨r, hr, heq⟩ := List.mem_map.1 hnew
      have htime : r.takenAt = x.takenAt := congrArg Sample.takenAt heq
      rw [← htime]
      exact List.mem_map_of_mem hr
  · intro ht
    have hin := mem_instants hi.inTime ht
    obtain ⟨r, hr, rfl⟩ := List.mem_map.1 ht
    obtain ⟨x, hx, heq⟩ := List.mem_map.1 ((hmem _).2 (.inr (List.mem_map_of_mem hr)))
    obtain ⟨hidle, htime⟩ : x.idle = (newSample clock r).idle ∧ x.takenAt = r.takenAt :=
      Sample.of_asCreated (heq.trans rfl)
    exact ⟨x, ⟨hx, hidle.trans (newSample_of_inTime hi.inTime hr), by omega, by omega⟩, htime⟩

/-- The check for a stale session keeps the invariant, and afterwards no open session is stale. -/
theorem CloseInv.autoClose (hi : CloseInv clock rules w₀ s past w) (h₀ : Opened clock rules w₀ s)
    (hnow : w.now ≤ now) : CloseInv clock rules w₀ s past (w.autoClose rules now) ∧
      (SessionAt (w.autoClose rules now).db s none → now ≤ rules.latestEndOfSession s) := by
  rcases hi.session with hopen | ⟨hlate, e, he, hclosed⟩
  · obtain ⟨r, hfind, hid, hdate, hstart⟩ := hopen.findOpen_some
    have hend : rules.latestEndOfSession r = rules.latestEndOfSession s := by
      simp only [CloseRules.latestEndOfSession, hstart, hdate]
    rcases le_or_gt now (rules.latestEndOfSession s) with hle | hlt
    · have heq : w.autoClose rules now = { w with now } := by
        have hstale : isStale (rules.latestEndOfSession s) now = false :=
          decide_eq_false (not_lt.2 hle)
        simp only [ReportWorld.autoClose, WorkSessionsService.closeStale, hfind, hend, hstale,
          Bool.false_eq_true, if_false]
      rw [heq]
      exact ⟨⟨hi.inTime, .inl hopen, hi.days, hi.stored⟩, fun _ => hle⟩
    · have hstale : isStale (rules.latestEndOfSession s) now = true := decide_eq_true hlt
      have heq : w.autoClose rules now = { w with
          db := (w.db.autoClose r (autoCloseAt s.startedAt (rules.latestEndOfSession s)
            (maxOf (instants past)))).2
          now } := by
        simp only [ReportWorld.autoClose, WorkSessionsService.closeStale, hfind, hend, hstale,
          hstart, if_true, hi.lastInput h₀ (le_max_right _ _)]
      have hlatest := autoCloseAt_isLatest fun t ht => mem_instants hi.inTime ht
      have hge : s.startedAt ≤ autoCloseAt s.startedAt (rules.latestEndOfSession s)
          (maxOf (instants past)) := by
        rcases hlatest.mem with hm | ⟨-, he⟩
        · exact (mem_instants hi.inTime hm).1
        · exact he.ge
      have hclosed := hopen.autoClose hid hdate hge
      rw [heq]
      refine ⟨⟨hi.inTime, .inr ⟨hlt, _, hlatest, hclosed⟩, fun d hd => ?_, hi.stored⟩, fun h => ?_⟩
      · rw [← hi.days d hd]
        exact Db.autoClose_workDayEnds_of_ne (by rwa [hdate])
      · have hmark := h.mark.symm.trans hclosed.mark
        cases hmark
  · have heq : w.autoClose rules now = { w with now } := by
      simp only [ReportWorld.autoClose, WorkSessionsService.closeStale, hclosed.findOpen_none]
    rw [heq]
    refine ⟨⟨hi.inTime, .inr ⟨by dsimp only; omega, e, he, hclosed⟩, hi.days,
      hi.stored⟩, fun h => ?_⟩
    have hmark := h.mark.symm.trans hclosed.mark
    cases hmark

/-- One more report is one more sample. -/
theorem samplesOf_concat (raw : Option ℤ) (body : ReportActivityDto) :
    samplesOf (past ++ [.report raw body now]) =
      samplesOf past ++ [⟨sampleInstant raw now, body, now, false⟩] :=
  List.filterMap_append

/-- One more report is one more instant. -/
theorem instants_concat (raw : Option ℤ) (body : ReportActivityDto) :
    instants (past ++ [.report raw body now]) = instants past ++ [sampleInstant raw now] := by
  rw [instants, samplesOf_concat, List.map_append]
  rfl

/-- Storing a sample of the session keeps the invariant, once the session ends at or
after it or is open. -/
theorem CloseInv.store (hi : CloseInv clock rules w₀ s past w) (h₀ : Opened clock rules w₀ s)
    {raw : Option ℤ} {body : ReportActivityDto}
    (ha : (ReportAction.report raw body now).InTime rules s)
    {db : Db} (late : Bool) (hdays : ∀ d, d ≠ s.date → db.workDayEnds d = w.db.workDayEnds d)
    (hsession : SessionAt db s none ∨ rules.latestEndOfSession s < w.now ∧
      ∃ e, IsLatest s.startedAt (instants past ++ [sampleInstant raw now]) e ∧
        SessionAt db s (some e)) :
    CloseInv clock rules w₀ s (past ++ [.report raw body now])
      { w with
        db
        samples := ReportActivityUseCase.execute clock db w.samples raw body now late } where
  inTime := by
    intro a hmem
    rcases List.mem_append.1 hmem with hmem | hmem
    · exact hi.inTime a hmem
    · rwa [List.mem_singleton.1 hmem]
  session := by rwa [instants_concat]
  days := fun d hd => (hdays d hd).trans (hi.days d hd)
  stored := by
    have hmark : ∀ e, db.workDayEnds (clock.localDateString (sampleInstant raw now)) = some e →
        sampleInstant raw now ≤ e := by
      intro e he
      rcases eq_or_ne (clock.localDateString (sampleInstant raw now)) s.date with heq | hne
      · rw [heq] at he
        rcases hsession with hopen | ⟨-, e', hlatest, hclosed⟩
        · rw [hopen.mark] at he
          cases he
        · rw [hclosed.mark] at he
          obtain rfl := Option.some.inj he
          exact hlatest.le _ (List.mem_append_right _ (List.mem_singleton_self _))
      · rw [hdays _ hne, hi.days _ hne, h₀.unmarked _ ha.2.1 ha.2.2.1] at he
        cases he
    rw [ReportActivityUseCase.execute_rows clock ha.2.2.2 hmark, hi.stored, samplesOf_concat,
      List.map_append, List.append_assoc]
    rfl

/-- A sample of the session moves an end that lies before it (`extendAutoClosed`), and is stored. -/
theorem CloseInv.capture (hi : CloseInv clock rules w₀ s past w) (h₀ : Opened clock rules w₀ s)
    {raw : Option ℤ} {body : ReportActivityDto}
    (ha : (ReportAction.report raw body now).InTime rules s)
    (hnow : w.now = now) :
    CloseInv clock rules w₀ s (past ++ [.report raw body now])
        (w.capture clock rules raw body now) := by
  have ⟨hidle, hstart, hend, _⟩ := ha
  rcases hi.session with hopen | ⟨hlate, e, hlatest, hclosed⟩
  · obtain ⟨r, hfind, -, -, hrstart⟩ := hopen.findOpen_some
    have hin : ¬ sampleInstant raw now < r.startedAt := by omega
    simp only [ReportWorld.capture, hfind, Option.all_some, decide_eq_true_eq, hin, if_false]
    exact hi.store h₀ ha false (fun _ _ => rfl) (.inl hopen)
  · have hpast : sampleInstant raw now < now := by omega
    have hworked := hclosed.workedAt_iff hstart
    simp only [ReportWorld.capture, hclosed.findOpen_none, Option.all_none, if_true, hpast,
      decide_true, Bool.true_and, hidle, Bool.not_false]
    rcases lt_or_ge (sampleInstant raw now) e with hlt | hge
    · rw [if_pos (hworked.2 hlt)]
      exact hi.store h₀ ha true (fun _ _ => rfl)
        (.inr ⟨hlate, e, hlatest.concat_le hstart hlt.le, hclosed⟩)
    · rw [if_neg fun h => absurd (hworked.1 h) (not_lt.2 hge)]
      obtain ⟨r, hlast, hr, hid, hdate, hrstart, hrend, hreason⟩ :=
        hclosed.lastStartedAtOrBefore_eq hstart
      have hle : ¬ sampleInstant raw now > rules.latestEndOfSession r := by
        simp only [CloseRules.latestEndOfSession, hrstart, hdate]
        exact not_lt.2 hend
      rcases hge.eq_or_lt with heq | hgt
      · have hext : WorkSessionsService.extendAutoClosed rules w.db (sampleInstant raw now) =
            (true, w.db) := by
          simp only [WorkSessionsService.extendAutoClosed, hlast, hrend, hreason, ne_eq,
            not_true_eq_false, if_false, hle, heq, lt_irrefl, if_true]
        simp only [hext, if_true]
        exact hi.store h₀ ha true (fun _ _ => rfl)
          (.inr ⟨hlate, _, hlatest.concat_ge heq.le, heq ▸ hclosed⟩)
      · have hext : WorkSessionsService.extendAutoClosed rules w.db (sampleInstant raw now) =
            w.db.extendAutoClosed r (sampleInstant raw now) := by
          simp only [WorkSessionsService.extendAutoClosed, hlast, hrend, hreason, ne_eq,
            not_true_eq_false, if_false, hle, not_lt.2 hgt.le, hgt.ne']
        obtain ⟨hmoved, hclosed'⟩ := hclosed.extend (t := sampleInstant raw now) hr
          hid hdate hrend hreason
        simp only [hext, hmoved, if_true]
        exact hi.store h₀ ha true
          (fun d hd => Db.extendAutoClosed_workDayEnds_of_ne (by rwa [hdate]))
          (.inr ⟨hlate, _, hlatest.concat_ge hge, hclosed'⟩)

/-- Every action of the session keeps the invariant: the stale check comes first, then the
sample or the close. -/
theorem CloseInv.step {a : ReportAction} (h₀ : Opened clock rules w₀ s)
    (hi : CloseInv clock rules w₀ s past w) (ha : a.InTime rules s)
    (h : w.step clock rules a = some w') : CloseInv clock rules w₀ s (past ++ [a]) w' := by
  unfold ReportWorld.step at h
  split at h
  · next hnow =>
    have hclose := (hi.autoClose h₀ hnow).1
    cases a with
    | report raw body now =>
      obtain rfl := Option.some.inj h
      exact hclose.capture h₀ ha rfl
    | autoCloseAll now =>
      obtain rfl := Option.some.inj h
      have hclose : CloseInv clock rules w₀ s past (w.autoClose rules now) := hclose
      have hsamples : samplesOf (past ++ [.autoCloseAll now]) = samplesOf past := by
        simp [samplesOf, ReportAction.sample]
      refine ⟨fun b hb => ?_, ?_, hclose.days, ?_⟩
      · rcases List.mem_append.1 hb with hb | hb
        · exact hi.inTime b hb
        · rwa [List.mem_singleton.1 hb]
      · simpa only [instants, hsamples] using hclose.session
      · simpa only [hsamples] using hclose.stored
  · cases h

/-- The invariant holds after every run of in-time actions, whatever order the samples arrive in and
wherever the session closes among them. -/
theorem closeInv_of_run (h₀ : Opened clock rules w₀ s) {as : List ReportAction}
    (has : ∀ a ∈ as, a.InTime rules s)
    (h : Runs.run (ReportWorld.step clock rules) w₀ as = some w) :
    CloseInv clock rules w₀ s as w := by
  have hrun := Runs.invariant_run_past
    (fun past w => (∀ a ∈ past, a.InTime rules s) → CloseInv clock rules w₀ s past w)
    (fun past w a w' hi hstep hall => CloseInv.step h₀
      (hi fun b hb => hall b (List.mem_append_left _ hb))
      (hall a (List.mem_append_right _ (List.mem_singleton_self a))) hstep)
    (fun _ => h₀.inv) h
  exact hrun has

end Run

end ReportWorld

/-! ## The theorem -/

/-- Whatever order the samples of a session arrive in, and wherever it closes among them: all of
them are stored, and a session that has closed ends at the latest of them, inside its working day
and where its day's mark says. Once its latest end has passed, the next check closes it. -/
theorem close_order_free {clock : LocalTime} {rules : CloseRules} {w w' : ReportWorld}
    {s : WorkSession} {as : List ReportAction} (h : w.Opened clock rules s)
    (has : ∀ a ∈ as, a.InTime rules s)
    (hrun : Runs.run (ReportWorld.step clock rules) w as = some w') :
    w'.samples.rows.map (fun x => x.toSample.asCreated) =
        w.samples.rows.map (fun x => x.toSample.asCreated) ++ (samplesOf as).map (newSample clock) ∧
      (w'.db.findOpen = none → ∃ r ∈ w'.db.workSessions, ∃ e,
        r.id = s.id ∧ r.startedAt = s.startedAt ∧ r.endedAt = some e ∧
          e = autoCloseAt s.startedAt (rules.latestEndOfSession s) (maxOf (instants as)) ∧
          IsLatest s.startedAt (instants as) e ∧
          s.startedAt ≤ e ∧ e ≤ rules.latestEndOfSession s ∧ w'.db.workDayEnds s.date = some e) ∧
      ∀ now, rules.latestEndOfSession s < now → w'.now ≤ now →
        ∃ w'', w'.step clock rules (.autoCloseAll now) = some w'' ∧ w''.db.findOpen = none := by
  have hi := ReportWorld.closeInv_of_run h has hrun
  refine ⟨hi.stored, fun hnone => ?_, fun now hlate hnow => ?_⟩
  · rcases hi.session with hopen | ⟨-, e, hlatest, hclosed⟩
    · obtain ⟨r, hfind, -⟩ := hopen.findOpen_some
      rw [hnone] at hfind
      cases hfind
    · obtain ⟨r, hr, hid, -, hstart, hend, -⟩ := hclosed.row
      have heq := hlatest.unique (autoCloseAt_isLatest fun t ht => ReportWorld.mem_instants has ht)
      have hbounds : s.startedAt ≤ e ∧ e ≤ rules.latestEndOfSession s := by
        rcases hlatest.mem with hm | ⟨-, he⟩
        · exact ReportWorld.mem_instants has hm
        · exact ⟨he.ge, he.le.trans (rules.startedAt_le s)⟩
      exact ⟨r, hr, e, hid, hstart, hend, heq, hlatest, hbounds.1, hbounds.2, hclosed.mark⟩
  · refine ⟨_, if_pos hnow, ?_⟩
    obtain ⟨hi', hopen⟩ := hi.autoClose h hnow
    rcases hi'.session with hstill | ⟨-, e, -, hclosed⟩
    · exact absurd (hopen hstill) (not_le.2 hlate)
    · exact hclosed.findOpen_none

/-- No shift: a session's latest end is 14 hours after its start. -/
def noShift : CloseRules := ⟨fun _ => none, 30, le_rfl⟩

/-- A session opened at nine on day 0, by the agent of a person who has never worked. -/
def openedAtNine : ReportWorld :=
  ⟨(Db.empty.startDay utcDay 32400000 32400000 .agent utcDay).2, .empty, 32400000⟩

/-- The session of `openedAtNine`. -/
def sessionFromNine :
    WorkSession := { id := 0, date := ⟨0⟩, startedAt := 32400000, source := .agent }

/-- The only session is the one from nine. -/
theorem mem_openedAtNine {r : WorkSession} :
    r ∈ openedAtNine.db.workSessions ↔ r = sessionFromNine :=
  List.mem_singleton

/-- The world of the example has just opened its day at nine. -/
theorem openedAtNine_opened : openedAtNine.Opened .utc noShift sessionFromNine where
  days := dayInv_of_run
    (rfl : Runs.run (DayOp.step utcDay) .empty [.startDay 32400000 32400000 .agent utcDay] = some _)
  apart := fun r hr t ht hne =>
    absurd ((mem_openedAtNine.1 hr).trans (mem_openedAtNine.1 ht).symm) hne
  mem := mem_openedAtNine.2 rfl
  isOpen := rfl
  last := fun r hr hne => absurd (mem_openedAtNine.1 hr) hne
  unmarked := fun t _ _ => by
    show (if _ then none else none) = none
    split <;> rfl
  noInput := fun x hx => absurd hx (Table.not_mem_empty x)

/-- A sample at ten, the close at midnight, and then samples of noon and of
eleven from a backlog. -/
def backlogAfterClose : List ReportAction :=
  [.report (some 36000000) {} 36000000, .autoCloseAll 86400000,
    .report (some 43200000) {} 90000000, .report (some 39600000) {} 90001000]

/-- A sample of eleven that arrives after the close at noon changes neither the end of the session
nor the mark of the day. -/
theorem close_order_free_nine :
    ∃ w, Runs.run (ReportWorld.step .utc noShift) openedAtNine backlogAfterClose = some w ∧
      w.samples.rows.map (fun x => x.takenAt) = [36000000, 43200000, 39600000] ∧
      ∃ r ∈ w.db.workSessions, r.endedAt = some 43200000 ∧ w.db.workDayEnds ⟨0⟩ =
          some 43200000 := by
  have hrun : Runs.run (ReportWorld.step .utc noShift) openedAtNine
    backlogAfterClose = some _ := rfl
  obtain ⟨-, hclosed, -⟩ := close_order_free openedAtNine_opened (by decide +kernel) hrun
  obtain ⟨r, hr, e, -, -, hend, he, -, -, -, hmark⟩ := hclosed (by decide +kernel)
  have hnoon : e = 43200000 := he.trans (by decide +kernel)
  exact ⟨_, hrun, by decide +kernel, r, hr, hnoon ▸ hend, hnoon ▸ hmark⟩

/-- A session dated by the next day, opened at five to midnight of day 0, which was
ended at five. -/
def openedAtMidnight : ReportWorld :=
  { db :=
      (Db.empty.startDay utcDay 86100000 86100000 .agent fun _ => ⟨1⟩).2.markDayEnded ⟨0⟩ 61200000
    samples := .empty
    now := 86100000 }

/-- A sample that arrives eight days late is not stored, though the close moves to it; nor is one
taken on a calendar day with an End Day mark before it. -/
theorem close_order_free_not_every_sample :
    (Runs.run (ReportWorld.step .utc noShift) openedAtNine
        [.autoCloseAll 86400000, .report (some 36000000) {} 727200000]).map
        (fun w => (w.db.workSessions.rows.map WorkSession.endedAt, w.samples.rows)) =
      some ([some 36000000], []) ∧
    (Runs.run (ReportWorld.step .utc noShift) openedAtMidnight
        [.report (some 86220000) {} 86220000, .autoCloseAll 200000000]).map
        (fun w => (w.db.workSessions.rows.map WorkSession.endedAt, w.samples.rows)) =
      some ([some 86100000], []) := by
  decide +kernel

end RxVision
