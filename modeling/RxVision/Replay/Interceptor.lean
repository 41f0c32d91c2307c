import RxVision.Worktime.WorkSessions

/-!
# The replay interceptor (`replay.interceptor.ts`, `replay-routes.ts`)

The pieces of `ReplayInterceptor`: the routes whose time the server takes from the request, the time
and order checks of `begin`, the stored events with their placeholders, and the reopening of an
auto-closed day with its undoing. The modules of this folder compose them into requests that run at
the same time, one read or one commit a step; `Db.reopens` is the reads of a reopening taken
together, for the modules that take a request whole.
-/

namespace RxVision

/-! ## Constants -/

/-- An event this close to the server's now is a live action. -/
def LIVE_WINDOW_MS : ℤ := 30000

/-- Ahead of the server by up to this much: treated as live. -/
def MAX_AHEAD_MS : ℤ := 10 * 60000

/-- The oldest event replay accepts. -/
def MAX_AGE_MS : ℤ := 7 * 24 * 3600000

/-- Events must arrive in order; this much disorder is tolerated. -/
def ORDER_TOLERANCE_MS : ℤ := 60000

/-- A placeholder left by a crashed request is retried after this long. -/
def STALE_PLACEHOLDER_MS : ℤ := 2 * 60000

/-- A reopened session started at most this long before the action. -/
def REOPEN_WITHIN_MS : ℤ := 20 * 3600000

/-! ## Replay routes -/

/-- A route: the method, and the path as its segments (`/breaks/:id/pause` has three). -/
structure Route where
  method : String
  path : List String
  deriving DecidableEq, Repr

/-- `REPLAY_ROUTES`, the agent actions whose time the server takes from `X-Event-At`. -/
def REPLAY_ROUTES : List Route := [
  ⟨"POST", ["activity", "start-day"]⟩,
  ⟨"POST", ["activity", "end-day"]⟩,
  ⟨"POST", ["breaks", "start"]⟩,
  ⟨"POST", ["breaks", "end"]⟩,
  ⟨"POST", ["breaks", "quick", "start"]⟩,
  ⟨"POST", ["breaks", ":id", "pause"]⟩,
  ⟨"POST", ["breaks", ":id", "resume"]⟩,
  ⟨"POST", ["breaks", "skip"]⟩,
  ⟨"POST", ["breaks", ":id", "comment"]⟩,
  ⟨"POST", ["meetings", "start"]⟩,
  ⟨"POST", ["meetings", "past"]⟩,
  ⟨"POST", ["meetings", ":id", "end"]⟩,
  ⟨"POST", ["away"]⟩,
  ⟨"POST", ["away", "unexplained"]⟩,
  ⟨"POST", ["presence", "start"]⟩,
  ⟨"POST", ["presence", "end"]⟩]

/-- `replayKinds`: the stored kind of every replay route under the API prefix `api`. -/
def replayKinds (api : List String) : List Route :=
  REPLAY_ROUTES.map fun r => { r with path := api ++ r.path }

/-! ## The time of an event -/

/-- A JSON body: what a handler returned, or an error (`errorResponse`); `month` is in the
details of `MONTH_LOCKED`. -/
inductive Body
  | value (json : String)
  | error (message code detail : String) (month : Option String := none)
  deriving DecidableEq, Repr

/-- The status and body a request is answered with. -/
structure Answer where
  status : ℕ
  body : Body
  deriving DecidableEq, Repr

/-- 409 with `IN_PROGRESS_BODY`: another copy of the action is running. -/
def inProgress : Answer :=
  ⟨409, .error "This action is still being processed. Try again in a moment." "EVENT_IN_PROGRESS"
    "This action is still being processed."⟩

/-- 500, what an unexpected error is answered with. -/
def internalError : Answer :=
  ⟨500, .error "Something went wrong" "INTERNAL_ERROR" "Something went wrong"⟩

/-- Why `begin` refuses an action. -/
inductive BeginRefusal
  | unreadable | inFuture | tooOld | outOfOrder
  | monthLocked (month : String)
  deriving DecidableEq, Repr

namespace BeginRefusal

/-- The message of a refusal. -/
def message : BeginRefusal → String
  | .unreadable => "X-Event-At must be an ISO 8601 time."
  | .inFuture => "The action time is in the future. Check the computer clock."
  | .tooOld => "The action is more than 7 days old."
  | .outOfOrder => "This action is older than one already applied, so it cannot be replayed."
  | .monthLocked month => month ++
      " is locked for payroll. The organisation admin must unlock it before anything in it changes."

/-- What a refusal is answered with. -/
def answer (r : BeginRefusal) : Answer :=
  match r with
  | .monthLocked month => ⟨409, .error r.message "MONTH_LOCKED" r.message (some month)⟩
  | _ => ⟨422, .error r.message "EVENT_TIME_INVALID" r.message⟩

end BeginRefusal

/-- The time an action runs at: a live one at the server's, a replayed one at its event's. -/
structure EventTime where
  eventAt : ℤ
  replay : Bool
  deriving DecidableEq, Repr

/-- The time checks of `begin` at the server's `now`. -/
def eventTime (now eventAt : ℤ) : Except BeginRefusal EventTime :=
  let ahead := eventAt - now
  if ahead > MAX_AHEAD_MS then .error .inFuture
  else if -ahead > MAX_AGE_MS then .error .tooOld
  else
    let eventAt := if ahead > 0 then now else eventAt
    .ok ⟨eventAt, now - eventAt > LIVE_WINDOW_MS⟩

/-- The order check: `last` is the latest event time of the completed replay actions. -/
def inOrder (last : Option ℤ) (eventAt : ℤ) : Bool :=
  match last with
  | some t => ¬ eventAt < t - ORDER_TOLERANCE_MS
  | none => true

/-- A replayed action lies behind the server's clock, by at most seven days. -/
theorem eventTime_replay {now eventAt : ℤ} {t : EventTime} (h : eventTime now eventAt = .ok t)
    (hr : t.replay = true) : t.eventAt = eventAt ∧ eventAt < now ∧ now - eventAt ≤ MAX_AGE_MS := by
  simp only [eventTime] at h
  split at h
  · cases h
  · split at h
    · cases h
    · next hage =>
      obtain rfl := Except.ok.inj h
      simp only [decide_eq_true_eq] at hr ⊢
      unfold LIVE_WINDOW_MS at hr
      split at hr
      · omega
      · next hahead =>
        rw [if_neg hahead]
        omega

/-! ## Reopening an auto-closed day -/

/-- What a reopened day looked like before. -/
structure Reopened where
  sessionId : ℕ
  date : DateKey
  endedAt : ℤ
  endReason : Option WorkSessionEndReason
  source : WorkSessionSource
  dayEndedAt : Option ℤ
  deriving DecidableEq, Repr

namespace WorkSession

/-- When the session was closed, if the action at `eventAt` may reopen it: it was closed
automatically before the action, on the same working day. -/
def closedBefore (last : WorkSession) (eventAt : ℤ) : Option ℤ :=
  match last.endedAt with
  | none => none
  | some stop =>
    if last.endReason ≠ some .autoClosed then none
    else if eventAt ≤ stop then none
    else if eventAt - last.startedAt > REOPEN_WITHIN_MS then none
    else some stop

/-- What is remembered of the session, closed at `stop`, and of the End Day mark of its day. -/
def remembered (last : WorkSession) (stop : ℤ) (mark : Option ℤ) : Reopened where
  sessionId := last.id
  date := last.date
  endedAt := stop
  endReason := last.endReason
  source := last.source
  dayEndedAt := mark

variable {last : WorkSession} {eventAt stop : ℤ}

/-- A session that may be reopened was closed automatically, before the action. -/
theorem closedBefore_eq_some (h : last.closedBefore eventAt = some stop) :
    last.endedAt = some stop ∧ last.endReason = some .autoClosed ∧ stop < eventAt := by
  unfold closedBefore at h
  cases hstop : last.endedAt with
  | none => simp [hstop] at h
  | some t =>
    simp only [hstop] at h
    split_ifs at h with hreason hbefore hlong
    obtain rfl := Option.some.inj h
    simp only [ne_eq, not_not] at hreason
    exact ⟨rfl, hreason, not_le.1 hbefore⟩

end WorkSession

namespace Db

/-- The reads of `reopenAutoClosed`: whether the action at `eventAt` reopens `last`, the session
that started last. `latestEnd` is the latest end of its working day (`ReplayDayLimits`). -/
def reopens (db : Db) (last : WorkSession) (latestEnd eventAt : ℤ) : Option Reopened :=
  match last.closedBefore eventAt with
  | none => none
  | some stop =>
    if db.findOpen.isSome then none
    else if eventAt > latestEnd then none
    else some (last.remembered stop (db.workDayEnds last.date))

/-- The commit of `reopenAutoClosed`. The end reason stays. -/
def reopenDay (db : Db) (r : Reopened) : Db :=
  { db with
    workSessions := db.workSessions.updateMany (fun s => s.id = r.sessionId)
      (fun s => { s with endedAt := none, source := .replay }) fun _ => rfl
    workDayEnds := fun d => if r.dayEndedAt.isSome ∧ d = r.date then none else db.workDayEnds d }

/-- `restore`: the reopened day goes back to how it was. -/
def restore (db : Db) (r : Reopened) : Db :=
  { db with
    workSessions := db.workSessions.updateMany (fun s => s.id = r.sessionId)
      (fun s => { s with endedAt := some r.endedAt, endReason := r.endReason, source := r.source })
      fun _ => rfl
    workDayEnds := fun d =>
      match r.dayEndedAt with
      | some t => if d = r.date then some t else db.workDayEnds d
      | none => db.workDayEnds d }

/-- What holds when an action at `eventAt` reopens `last`, and what is remembered of it. -/
structure Reopens (db : Db) (last : WorkSession) (latestEnd eventAt : ℤ) (r : Reopened) : Prop where
  id : r.sessionId = last.id
  date : r.date = last.date
  stop : last.endedAt = some r.endedAt
  reason : r.endReason = last.endReason
  autoClosed : last.endReason = some .autoClosed
  source : r.source = last.source
  mark : r.dayEndedAt = db.workDayEnds last.date
  after : r.endedAt < eventAt
  before : eventAt ≤ latestEnd
  closed : db.findOpen = none

variable {db : Db} {last : WorkSession} {latestEnd eventAt : ℤ} {r : Reopened}

/-- `reopens` answers only when all of that holds. -/
theorem reopens_eq_some (h : db.reopens last latestEnd eventAt = some r) :
    db.Reopens last latestEnd eventAt r := by
  unfold reopens at h
  cases hstop : last.closedBefore eventAt with
  | none => simp [hstop] at h
  | some stop =>
    obtain ⟨hended, hreason, hafter⟩ := WorkSession.closedBefore_eq_some hstop
    simp only [hstop] at h
    split_ifs at h with hopen hlate
    obtain rfl := Option.some.inj h
    exact ⟨rfl, rfl, hended, rfl, hreason, rfl, rfl, hafter, not_lt.1 hlate, by simpa using hopen⟩

/-- Reopening replaces the one session. -/
theorem mem_reopenDay (hs : last ∈ db.workSessions) (hid : r.sessionId = last.id)
    {s : WorkSession} :
    s ∈ (db.reopenDay r).workSessions ↔ (s ∈ db.workSessions ∧ s ≠ last) ∨
      s = { last with endedAt := none, source := .replay } := by
  simp only [reopenDay, hid]
  exact Table.mem_updateMany_one hs (by simp) fun r' hr' h =>
    Table.eq_of_key hr' hs (of_decide_eq_true h)

/-- `restore` puts back a reopened day that it remembers as it was. -/
theorem restore_reopenDay {stop : ℤ} (hs : last ∈ db.workSessions)
    (hstop : last.endedAt = some stop) (hr : r = last.remembered stop (db.workDayEnds last.date)) :
    (db.reopenDay r).restore r = db := by
  have hsessions : ((db.reopenDay r).restore r).workSessions = db.workSessions := by
    simp only [reopenDay, restore]
    rw [Table.updateMany_updateMany, Table.updateMany_eq_self]
    · intro s hmem hid
      obtain rfl := Table.eq_of_key hmem hs ((of_decide_eq_true hid).trans (congrArg _ hr))
      rw [hr]
      dsimp only [WorkSession.remembered]
      rw [← hstop]
    · exact fun _ => rfl
  have hmarks : ((db.reopenDay r).restore r).workDayEnds = db.workDayEnds := by
    funext d
    have hmark : r.dayEndedAt = db.workDayEnds r.date := by
      rw [hr]
      rfl
    simp only [reopenDay, restore]
    cases hday : r.dayEndedAt with
    | none => simp
    | some t =>
      by_cases hd : d = r.date
      · simp [hd, ← hmark, hday]
      · simp [hd]
  calc (db.reopenDay r).restore r
      = { db with
          workSessions := ((db.reopenDay r).restore r).workSessions
          workDayEnds := ((db.reopenDay r).restore r).workDayEnds } := rfl
    _ = db := by rw [hsessions, hmarks]

end Db

end RxVision
