import RxVision.Worktime.WorkSessions

/-!
# What a transaction can do to the work sessions

`SessionStep now db db' kind` lists all that a transaction running at `now` does to the sessions:
nothing, or what its kind says: open a session while none is open, end the open one, or move an
automatic close. Every transaction of `RxVision.Worktime.WorkSessions` is such a step
(`Db.startDay_step` and so on), so an invariant of the sessions is proved once, by these cases.
-/

namespace RxVision

/-- What a transaction may do to the sessions. -/
inductive StepKind
  /-- Open a session, asked to start at `startedAt`. -/
  | opens (startedAt : ℤ)
  /-- End the open session. -/
  | ends (reason : WorkSessionEndReason)
  /-- Move the automatic close of the session with this id. -/
  | moves (id : ℕ)

/-- What a transaction of a kind that runs at `now` can do to the sessions. -/
inductive SessionStep (now : ℤ) (db db' : Db) : StepKind → Prop
  /-- The sessions stay. -/
  | same {kind : StepKind} (h : db'.workSessions = db.workSessions) : SessionStep now db db' kind
  /-- A session opens while none is open. -/
  | opened (row : WorkSession) (startedAt : ℤ) (hclosed : db.findOpen = none)
      (hopen : row.endedAt = none) (hreason : row.endReason = none)
      (hstart : row.startedAt = db.sessionStart startedAt now)
      (hmem : ∀ r, r ∈ db'.workSessions ↔ r ∈ db.workSessions ∨ r = row) :
      SessionStep now db db' (.opens startedAt)
  /-- The open session ends, not before it started. -/
  | ended (s : WorkSession) (reason : WorkSessionEndReason) (hs : s ∈ db.workSessions)
      (hopen : s.endedAt = none)
      (hmem : ∀ r, r ∈ db'.workSessions ↔ (r ∈ db.workSessions ∧ r ≠ s) ∨
        r = { s with endedAt := some (max now s.startedAt), endReason := some reason }) :
      SessionStep now db db' (.ends reason)
  /-- The end of an auto-closed session moves from `stop` to `now`. -/
  | moved (s : WorkSession) (stop : ℤ) (hs : s ∈ db.workSessions) (hstop : s.endedAt = some stop)
      (hreason : s.endReason = some .autoClosed) (hlt : stop < now)
      (hmem : ∀ r, r ∈ db'.workSessions ↔ (r ∈ db.workSessions ∧ r ≠ s) ∨
        r = { s with endedAt := some now, source := .replay }) :
      SessionStep now db db' (.moves s.id)

namespace Db

variable {db : Db} {s : WorkSession}

/-- A session found open is a session of the person, and open. -/
theorem findOpen_eq_some (h : db.findOpen = some s) : s ∈ db.workSessions ∧ s.endedAt = none :=
  ⟨Table.mem_of_find? h, WorkSession.isOpen_iff.1 (Table.find?_spec h)⟩

/-- No session is found open when every session has an end. -/
theorem findOpen_eq_none :
    db.findOpen = none ↔ ∀ s ∈ db.workSessions, ∃ e, s.endedAt = some e := by
  simp only [findOpen, Table.find?_eq_none, WorkSession.isOpen_eq_false]

/-- The last end is the end of some session. -/
theorem lastEnd_eq_some {e : ℤ} (h : db.lastEnd = some e) :
    ∃ s ∈ db.workSessions, s.endedAt = some e := by
  obtain ⟨s, hs, he⟩ := Option.bind_eq_some_iff.1 h
  exact ⟨s, (Table.mem_of_findLast? hs).1, he⟩

/-- The last end is no earlier than any end, so a session that starts at it starts after
all that have ended. -/
theorem le_lastEnd {e : ℤ} (hs : s ∈ db.workSessions) (he : s.endedAt = some e) :
    ∃ last, db.lastEnd = some last ∧ e ≤ last := by
  unfold lastEnd
  cases hl : db.workSessions.findLast? (fun s => s.endedAt.isSome) fun s => s.endedAt.getD 0 with
  | none =>
    have := Table.findLast?_eq_none.1 hl s hs
    simp [he] at this
  | some last =>
    obtain ⟨last', hlast⟩ := Option.isSome_iff_exists.1 (Table.mem_of_findLast? hl).2
    have hle := Table.le_of_findLast? hl hs (by simp [he])
    exact ⟨last', hlast, by simpa [he, hlast] using hle⟩

/-- A session never starts after `now`. -/
theorem sessionStart_le (startedAt now : ℤ) : db.sessionStart startedAt now ≤ now := by
  simp only [sessionStart]
  split <;> split <;> omega

/-- A session starts no earlier than it is asked to, unless that lies ahead. -/
theorem le_sessionStart_of_le {startedAt now : ℤ} (h : startedAt ≤ now) :
    startedAt ≤ db.sessionStart startedAt now := by
  simp only [sessionStart]
  split <;> split <;> omega

/-- When every session ended by `now`, the next one starts after them all. -/
theorem le_sessionStart {startedAt now e : ℤ}
    (hends : ∀ s ∈ db.workSessions, ∀ e, s.endedAt = some e → e ≤ now)
    (hs : s ∈ db.workSessions) (he : s.endedAt = some e) : e ≤ db.sessionStart startedAt now := by
  obtain ⟨last, hlast, hle⟩ := le_lastEnd hs he
  obtain ⟨s', hs', he'⟩ := lastEnd_eq_some hlast
  have hnow := hends s' hs' last he'
  simp only [sessionStart, hlast]
  split <;> split <;> omega

/-- Only the session with this id ends. -/
theorem mem_endSession {t : ℤ} {reason : WorkSessionEndReason} {r : WorkSession}
    (hs : s ∈ db.workSessions) :
    r ∈ (db.endSession s.id t reason).workSessions ↔ (r ∈ db.workSessions ∧ r ≠ s) ∨
      r = { s with endedAt := some t, endReason := some reason } := by
  simp only [endSession]
  exact Table.mem_updateMany_one hs (by simp) fun r' hr' hid =>
    Table.eq_of_key hr' hs (of_decide_eq_true hid)

/-! ## The transactions -/

/-- A session created while none is open. -/
theorem createSessionTx_step (startedAt now : ℤ) (source : WorkSessionSource) (dayOf : DayKeyFn)
    {db' : Db} (hclosed : db.findOpen = none)
    (h : db'.workSessions = (db.createSessionTx startedAt now source dayOf).2.workSessions) :
    SessionStep now db db' (.opens startedAt) := by
  refine .opened (db.createSessionTx startedAt now source dayOf).1 startedAt hclosed rfl rfl
    rfl fun r => ?_
  rw [h]
  exact Table.mem_create

/-- The open session ended at `t`, or at its start when that is later. -/
theorem endSession_step {now t : ℤ} {reason : WorkSessionEndReason} {db' : Db}
    (hs : s ∈ db.workSessions) (hopen : s.endedAt = none) (ht : t = max now s.startedAt)
    (h : db'.workSessions = (db.endSession s.id t reason).workSessions) :
    SessionStep now db db' (.ends reason) := by
  refine .ended s reason hs hopen fun r => ?_
  rw [h, mem_endSession hs, ht]

/-- `if t < start then start else t` is the later of the two. -/
theorem clamp_eq_max (start t : ℤ) : (if t < start then start else t) = max t start := by
  split <;> omega

/-- `startDay` is a step. -/
theorem startDay_step (calendarOf : DayKeyFn) (db : Db) (startedAt now : ℤ)
    (source : WorkSessionSource) (dayOf : DayKeyFn) :
    SessionStep now db (db.startDay calendarOf startedAt now source dayOf).2
        (.opens startedAt) := by
  unfold startDay
  cases h : db.findOpen with
  | some s => exact .same rfl
  | none => exact createSessionTx_step startedAt now source dayOf h rfl

/-- `ensureOpenTx` is a step of the sessions that opens one now, or none. -/
theorem ensureOpenTx_step (db : Db) (generation : AgentGeneration) (now : ℤ) (today : DateKey) :
    SessionStep now db (db.ensureOpenTx generation now today).2 (.opens now) := by
  unfold ensureOpenTx
  cases h : db.findOpen with
  | some s => exact .same rfl
  | none =>
    cases generation with
    | agent31 => exact .same rfl
    | legacy =>
      simp only
      split
      · exact .same rfl
      · exact createSessionTx_step now now .legacy (fun _ => today) h rfl

/-- `openImplicit` is a step of the sessions that opens one at the sample's time, or none. -/
theorem openImplicit_step (db : Db) (t : ℤ) (today : DateKey) (now : ℤ) :
    SessionStep now db (db.openImplicit t today now).2 (.opens t) := by
  unfold openImplicit
  cases h : db.findOpen with
  | some s => exact .same rfl
  | none =>
    simp only
    split
    · exact .same rfl
    · exact createSessionTx_step t now .legacy (fun _ => today) h rfl

/-- `closeDay` ends the session it is given. -/
theorem closeDay_workSessions (calendarOf : DayKeyFn) (db : Db) (s : WorkSession) (now : ℤ)
    (today : DateKey) :
    (db.closeDay calendarOf s now today).2.workSessions =
      (db.endSession s.id (max now s.startedAt) .user).workSessions := by
  simp only [closeDay, clamp_eq_max]
  split <;> split <;> rfl

/-- `endDay` is a step of the sessions that ends the open one by the person's own
action, or none. -/
theorem endDay_step (calendarOf : DayKeyFn) (db : Db) (now : ℤ) (today : DateKey) (legacy : Bool)
    (endedSince : ℤ) :
    SessionStep now db (db.endDay calendarOf now today legacy endedSince).2 (.ends .user) := by
  unfold endDay
  cases h : db.findOpen with
  | some s =>
    obtain ⟨hs, hopen⟩ := findOpen_eq_some h
    exact endSession_step hs hopen rfl (closeDay_workSessions calendarOf db s now today)
  | none =>
    refine .same ?_
    simp only
    split
    · rfl
    · split
      · rfl
      · split
        · split <;> rfl
        · split <;> rfl

/-- `autoClose` is a step of the sessions that ends one at the instant it closes at, or none. -/
theorem autoClose_step (db : Db) (session : WorkSession) (closeAt : ℤ) :
    SessionStep closeAt db (db.autoClose session closeAt).2 (.ends .autoClosed) := by
  unfold autoClose
  cases h : db.workSessions.find? fun s => s.id = session.id ∧ s.isOpen with
  | none => exact .same rfl
  | some s =>
    have hs := Table.mem_of_find? h
    have hspec := Table.find?_spec h
    simp only [WorkSession.isOpen_iff, decide_eq_true_eq] at hspec
    rw [← hspec.1]
    exact endSession_step hs hspec.2 (clamp_eq_max _ _) rfl

/-- `autoClose` changes no session, or the one that it was given is still open. -/
theorem autoClose_cases (db : Db) (session : WorkSession) (closeAt : ℤ) :
    (db.autoClose session closeAt).2.workSessions = db.workSessions ∨
      ∃ s ∈ db.workSessions, s.id = session.id ∧ s.endedAt = none := by
  unfold autoClose
  cases h : db.workSessions.find? fun s => s.id = session.id ∧ s.isOpen with
  | none => exact Or.inl rfl
  | some s =>
    have hspec := Table.find?_spec h
    simp only [WorkSession.isOpen_iff, decide_eq_true_eq] at hspec
    exact Or.inr ⟨s, Table.mem_of_find? h, hspec⟩

/-- `extendAutoClosed` changes nothing, or moves the end of the auto-closed session that it was
given and of no other one. -/
theorem extendAutoClosed_cases (db : Db) (session : WorkSession) (target : ℤ) :
    (db.extendAutoClosed session target).2 = db ∨
      ∃ s ∈ db.workSessions, ∃ stop, session.endedAt = some stop ∧ s.endedAt = some stop ∧
        s.id = session.id ∧ s.endReason = some .autoClosed ∧
        ∀ r, r ∈ (db.extendAutoClosed session target).2.workSessions ↔
          (r ∈ db.workSessions ∧ r ≠ s) ∨
            r = { s with endedAt := some target, source := .replay } := by
  unfold extendAutoClosed
  cases hstop : session.endedAt with
  | none => exact Or.inl rfl
  | some stop =>
    simp only
    split
    · exact Or.inl rfl
    · next s h =>
      have hs := Table.mem_of_find? h
      have hspec := Table.find?_spec h
      simp only [decide_eq_true_eq] at hspec
      refine Or.inr ⟨s, hs, stop, rfl, hspec.2.2, hspec.1, hspec.2.1, fun r => ?_⟩
      dsimp only
      rw [Table.mem_updateMany_one hs (by simpa using hspec)]
      intro r' hr' hr
      exact Table.eq_of_key hr' hs ((of_decide_eq_true hr).1.trans hspec.1.symm)

/-- `extendAutoClosed` is a step at the instant it moves the close to. -/
theorem extendAutoClosed_step (db : Db) (session : WorkSession) (target : ℤ)
    (hlt : ∀ stop, session.endedAt = some stop → stop < target) :
    SessionStep target db (db.extendAutoClosed session target).2 (.moves session.id) := by
  rcases db.extendAutoClosed_cases session target with h | ⟨s, hs, stop, hstop,
    hs', hid, hreason, hmem⟩
  · exact .same (by rw [h])
  · rw [← hid]
    exact .moved s stop hs hs' hreason (hlt stop hstop) hmem

end Db

/-! ## One open session, and ends after starts -/

/-- At most one session is open, and every closed session ends at or after its start. -/
structure SessionInv (db : Db) : Prop where
  oneOpen : ∀ s ∈ db.workSessions, ∀ t ∈ db.workSessions,
    s.endedAt = none → t.endedAt = none → s = t
  ordered : ∀ s ∈ db.workSessions, ∀ e, s.endedAt = some e → s.startedAt ≤ e

/-- A database without sessions. -/
theorem SessionInv.empty : SessionInv Db.empty :=
  ⟨fun s hs => absurd hs (Table.not_mem_empty s), fun s hs => absurd hs (Table.not_mem_empty s)⟩

namespace SessionStep

variable {now : ℤ} {db db' : Db} {kind : StepKind}

/-- Every step keeps that at most one session is open and that closed ones end at or
after their start. -/
theorem inv (h : SessionStep now db db' kind) (hi : SessionInv db) : SessionInv db' := by
  cases h with
  | same h =>
    refine ⟨fun s hs t ht => ?_, fun s hs => ?_⟩
    · rw [h] at hs ht
      exact hi.oneOpen s hs t ht
    · rw [h] at hs
      exact hi.ordered s hs
  | opened row startedAt hclosed hopen _ _ hmem =>
    have hends := Db.findOpen_eq_none.1 hclosed
    constructor
    · intro s hs t ht hs0 ht0
      rcases (hmem s).1 hs with hs | rfl
      · obtain ⟨e, he⟩ := hends s hs
        rw [hs0] at he
        cases he
      · rcases (hmem t).1 ht with ht | rfl
        · obtain ⟨e, he⟩ := hends t ht
          rw [ht0] at he
          cases he
        · rfl
    · intro s hs e he
      rcases (hmem s).1 hs with hs | rfl
      · exact hi.ordered s hs e he
      · rw [hopen] at he
        cases he
  | ended s₀ _ hs₀ hopen hmem =>
    constructor
    · intro s hs t ht hs0 ht0
      rcases (hmem s).1 hs with ⟨hs, hne⟩ | rfl
      · exact absurd (hi.oneOpen s hs s₀ hs₀ hs0 hopen) hne
      · cases hs0
    · intro s hs e he
      rcases (hmem s).1 hs with ⟨hs, -⟩ | rfl
      · exact hi.ordered s hs e he
      · obtain rfl := Option.some.inj he
        exact le_max_right _ _
  | moved s₀ stop hs₀ hstop _ hlt hmem =>
    constructor
    · intro s hs t ht hs0 ht0
      rcases (hmem s).1 hs with ⟨hs, -⟩ | rfl
      · rcases (hmem t).1 ht with ⟨ht, -⟩ | rfl
        · exact hi.oneOpen s hs t ht hs0 ht0
        · cases ht0
      · cases hs0
    · intro s hs e he
      rcases (hmem s).1 hs with ⟨hs, -⟩ | rfl
      · exact hi.ordered s hs e he
      · obtain rfl := Option.some.inj he
        exact (hi.ordered s₀ hs₀ stop hstop).trans hlt.le

/-- Only a step that opens a session adds an id. -/
theorem exists_id (h : SessionStep now db db' kind) (hkind : ∀ t, kind ≠ .opens t)
    {s : WorkSession} (hs : s ∈ db'.workSessions) : ∃ r ∈ db.workSessions, r.id = s.id := by
  cases h with
  | same h => exact ⟨s, h ▸ hs, rfl⟩
  | opened _ startedAt => exact absurd rfl (hkind startedAt)
  | ended s₀ _ hs₀ _ hmem | moved s₀ _ hs₀ _ _ _ hmem =>
    rcases (hmem s).1 hs with ⟨hs, -⟩ | rfl
    · exact ⟨s, hs, rfl⟩
    · exact ⟨s₀, hs₀, rfl⟩

/-- No step removes a session or moves the start of one. -/
theorem exists_start (h : SessionStep now db db' kind) {s : WorkSession}
    (hs : s ∈ db.workSessions) :
    ∃ r ∈ db'.workSessions, r.id = s.id ∧ r.startedAt = s.startedAt := by
  cases h with
  | same h => exact ⟨s, h ▸ hs, rfl, rfl⟩
  | opened row _ _ _ _ _ hmem => exact ⟨s, (hmem s).2 (Or.inl hs), rfl, rfl⟩
  | ended s₀ _ _ _ hmem | moved s₀ _ _ _ _ _ hmem =>
    by_cases heq : s = s₀
    · subst heq
      exact ⟨_, (hmem _).2 (Or.inr rfl), rfl, rfl⟩
    · exact ⟨s, (hmem s).2 (Or.inl ⟨hs, heq⟩), rfl, rfl⟩

end SessionStep

end RxVision
