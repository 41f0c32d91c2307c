import Mathlib.Data.List.AList
import RxVision.Lib.Runs
import RxVision.Replay.Interceptor

/-!
# Requests through the replay interceptor

One person's requests with an `X-Client-Event-Id`, as they go through `ReplayInterceptor` at the
same time. A request is a copy of an event (`CopyId`): the agent sends an event again until it has
an answer. `Copy.step` is what one read or one commit of a copy does, from what it sees of the
stores (`View`); `Server.step` interleaves the copies. A handler is any function of the time it runs
at and of the tables.

The history is what happened to each event, handler runs and answers, in order; no step reads it.
-/

namespace RxVision

/-- A copy of an event: the event's id and the number of the copy. Ids are the ones that
are UUIDs. -/
structure CopyId where
  event : ℕ
  copy : ℕ
  deriving DecidableEq, Repr

/-- The `X-Event-At` header. -/
inductive EventAtHeader
  | absent | unreadable
  | time (t : ℤ)
  deriving DecidableEq, Repr

/-- What a handler ends with: the value it returns with the status its route answers, or what
`errorResponse` makes of its error. -/
inductive Outcome
  | ok (status : ℕ) (body : Body)
  | error (answer : Answer)
  deriving DecidableEq, Repr

namespace Outcome

/-- What the client is answered. -/
def sent : Outcome → Answer
  | .ok status body => ⟨status, body⟩
  | .error answer => answer

/-- What `finish` stores: a success as 200, a refusal as it is; transient failures (5xx) are not
stored. -/
def stored : Outcome → Option Answer
  | .ok _ body => some ⟨200, body⟩
  | .error answer => if answer.status < 500 then some answer else none

end Outcome

/-- A request with an event id. `route` is its route under the API prefix `api`, `offlineAgent` says
that a 4.0 agent sent it. -/
structure Request where
  api : List String
  route : Route
  offlineAgent : Bool
  eventAt : EventAtHeader
  handler : ℤ → Db → Outcome × Db

namespace Request

/-- The stored kind of the request. -/
def kind (r : Request) : Route := { r.route with path := r.api ++ r.route.path }

/-- The time header counts only on a replay route of an offline agent. -/
def header (r : Request) : EventAtHeader :=
  if r.offlineAgent ∧ r.route ∈ REPLAY_ROUTES then r.eventAt else .absent

end Request

/-- A row of `agent_events`; no answer is the placeholder's status `IN_PROGRESS`. -/
structure AgentEvent where
  kind : Route
  eventAt : ℤ
  receivedAt : ℤ
  answer : Option Answer := none
  deriving DecidableEq, Repr

/-- The completed events of replay routes, which the order check compares with. -/
def AgentEvent.Counts (api : List String) (e : AgentEvent) : Prop :=
  e.answer.isSome = true ∧ e.kind ∈ replayKinds api

instance (api : List String) (e : AgentEvent) : Decidable (e.Counts api) :=
  inferInstanceAs (Decidable (_ ∧ _))

/-- The reads of `reopenAutoClosed` after that of the person's last session. -/
inductive ReopenRead
  | openSessions | latestEnd | dayEnd
  deriving DecidableEq, Repr

/-- Where a copy stands. -/
inductive Phase
  /-- Before the lookup of its event. -/
  | arrived
  /-- The event has a placeholder that went stale. -/
  | stale
  /-- Nothing is stored for the event. -/
  | looked
  /-- The time and order checks passed. -/
  | checked (time : EventTime)
  /-- It wrote the placeholder of the event. -/
  | placed (time : EventTime)
  /-- It found `last`, closed automatically at `stop` before the action; `next`
  is what it reads next. -/
  | deciding (time : EventTime) (last : WorkSession) (stop : ℤ) (next : ReopenRead)
  /-- It decided to reopen a day. -/
  | reopening (time : EventTime) (r : Reopened)
  /-- The handler is about to run; `reopened` is the day it reopened. -/
  | ready (time : EventTime) (reopened : Option Reopened)
  /-- The handler committed or failed; the answer is not stored yet. -/
  | handled (time : EventTime) (reopened : Option Reopened) (outcome : Outcome)
  /-- It was answered, or its process crashed. -/
  | done
  deriving DecidableEq, Repr

/-- The time the copy's checks gave it. -/
def Phase.time : Phase → Option EventTime
  | .checked time | .placed time | .deciding time _ _ _ | .reopening time _ | .ready time _
  | .handled time _ _ => some time
  | _ => none

/-- A request on its way; `now` is the clock when `begin` started. -/
structure Copy where
  request : Request
  now : ℤ
  phase : Phase

/-- What a copy sees of the stores: the clock, the latest completed replay event, its own
event's row and the tables. -/
structure View where
  clock : ℤ
  last : Option ℤ
  row : Option AgentEvent
  db : Db

/-- What happened to an event: its handler ran and took the tables from `before` to `after`, or a
copy was answered. `own` marks the answer of the copy that ran the handler. -/
inductive Happened
  | ran (outcome : Outcome) (before after : Db)
  | answered (own : Bool) (answer : Answer)

/-- What a step of a copy leaves: its phase, its event's row, the tables, and what happened. -/
structure Effect where
  phase : Phase
  row : Option AgentEvent
  db : Db
  happened : Option Happened := none

/-- One read or one commit of a copy. `locked` is the month of the event when it is locked; `stored`
and `restored` say whether a write went through. -/
inductive CopyAction
  | lookup | takeOver
  | check (locked : Option String)
  | create
  | reopenRead (last : WorkSession)
  | countOpen
  | latestEnd (shiftEnd : Option ℤ) (graceMin : ℤ)
  | readDayEnd
  | reopenWrite | reopenFails
  | handle
  | restore (restored : Bool)
  | finish (stored : Bool)
  | crash

/-- The reads of `reopenAutoClosed`. -/
def CopyAction.Reads : CopyAction → Prop
  | .reopenRead _ | .countOpen | .latestEnd _ _ | .readDayEnd => True
  | _ => False

namespace View

/-- Only the copy's phase changes. -/
def stay (v : View) (phase : Phase) : Effect := ⟨phase, v.row, v.db, none⟩

/-- The copy is answered and nothing else changes. -/
def answer (v : View) (a : Answer) : Effect := ⟨.done, v.row, v.db, some (.answered false a)⟩

/-- `forget`: the row without its placeholder. -/
def forget (v : View) : Option AgentEvent := v.row.filter fun e => e.answer.isSome

/-- The time the handler's clock shows. -/
def handlerTime (v : View) (time : EventTime) : ℤ := if time.replay then time.eventAt else v.clock

/-- The first read of `reopenAutoClosed`; `last` is the person's session that started last. -/
def reopenRead (v : View) (time : EventTime) (last : WorkSession) : Option Effect :=
  if v.db.workSessions.IsLast (fun _ => true) WorkSession.startedAt last then
    match last.closedBefore time.eventAt with
    | some stop => some (v.stay (.deciding time last stop .openSessions))
    | none => some (v.stay (.ready time none))
  else if v.db.workSessions.rows = [] then some (v.stay (.ready time none))
  else none

/-- The second read: no session of the person is open. -/
def countOpen (v : View) (time : EventTime) (last : WorkSession) (stop : ℤ) : Effect :=
  if v.db.findOpen.isSome then v.stay (.ready time none)
  else v.stay (.deciding time last stop .latestEnd)

/-- The third read (`latestEndOfSession`): the action is not past the latest end of the day. -/
def latestEnd (v : View) (time : EventTime) (last : WorkSession) (stop : ℤ) (shiftEnd : Option ℤ)
    (graceMin : ℤ) : Effect :=
  if time.eventAt > latestEndOf last.startedAt shiftEnd graceMin then v.stay (.ready time none)
  else v.stay (.deciding time last stop .dayEnd)

/-- The fourth read: the End Day mark, which is remembered with the session. -/
def readDayEnd (v : View) (time : EventTime) (last : WorkSession) (stop : ℤ) : Effect :=
  v.stay (.reopening time (last.remembered stop (v.db.workDayEnds last.date)))

/-- `finish` or `forget`, and the answer. A write that fails is logged and nothing else. -/
def finish (v : View) (outcome : Outcome) (stored : Bool) : Effect :=
  let row := match outcome.stored with
    | some a => v.row.map fun e => { e with answer := some a }
    | none => v.forget
  { phase := .done
    row := if stored then row else v.row
    db := v.db
    happened := some (.answered true outcome.sent) }

end View

namespace Copy

variable (cp : Copy) (v : View)

/-- The first part of `begin`: the time header, and what is stored for the event. -/
def lookup : Effect :=
  if cp.request.header = .unreadable then v.answer BeginRefusal.unreadable.answer
  else
    match v.row with
    | none => v.stay .looked
    | some e =>
      match e.answer with
      | some a => v.answer a
      | none =>
        if cp.now - e.receivedAt < STALE_PLACEHOLDER_MS then v.answer inProgress
        -- a placeholder left by a crashed request: run it again
        else v.stay .stale

/-- The event time: the header's, or now. -/
def eventAt : ℤ :=
  match cp.request.header with
  | .time t => t
  | _ => cp.now

/-- The time and order checks of `begin`. -/
def check (locked : Option String) : Effect :=
  match eventTime cp.now cp.eventAt with
  | .error refusal => v.answer refusal.answer
  | .ok time =>
    if time.replay then
      if ¬ inOrder v.last time.eventAt then v.answer BeginRefusal.outOfOrder.answer
      else
        match locked with
        | some month => v.answer (BeginRefusal.monthLocked month).answer
        | none => v.stay (.checked time)
    else v.stay (.checked time)

/-- The placeholder is created unless there is one: two copies raced, and the
other one is running. -/
def create (time : EventTime) : Effect :=
  match v.row with
  | some _ => v.answer inProgress
  | none =>
    { phase := if time.replay then .placed time else .ready time none
      row := some { kind := cp.request.kind, eventAt := time.eventAt, receivedAt := v.clock }
      db := v.db }

/-- The handler runs. -/
def handle (time : EventTime) (reopened : Option Reopened) : Effect :=
  let (outcome, db) := cp.request.handler (v.handlerTime time) v.db
  ⟨.handled time reopened outcome, v.row, db, some (.ran outcome v.db db)⟩

/-- A step of the copy; `none` when the copy is not there. -/
def step (act : CopyAction) : Option Effect :=
  match cp.phase, act with
  | .arrived, .lookup => some (cp.lookup v)
  | .stale, .takeOver => some { v.stay .looked with row := v.forget }
  | .looked, .check locked => some (cp.check v locked)
  | .checked time, .create => some (cp.create v time)
  | .placed time, .reopenRead last => v.reopenRead time last
  | .deciding time last stop .openSessions, .countOpen => some (v.countOpen time last stop)
  | .deciding time last stop .latestEnd, .latestEnd shiftEnd graceMin =>
    some (v.latestEnd time last stop shiftEnd graceMin)
  | .deciding time last stop .dayEnd, .readDayEnd => some (v.readDayEnd time last stop)
  | .placed _, .reopenFails | .deciding _ _ _ _, .reopenFails | .reopening _ _, .reopenFails =>
    some { v.answer internalError with row := v.forget }
  | .reopening time r, .reopenWrite =>
    some { v.stay (.ready time (some r)) with db := v.db.reopenDay r }
  | .ready time reopened, .handle => some (cp.handle v time reopened)
  -- a refused or failed action never leaves a day it reopened open
  | .handled time (some r) (.error a), .restore restored =>
    some { v.stay (.handled time none (.error a)) with
      db := if restored then v.db.restore r else v.db }
  | .handled _ none (.error a), .finish stored => some (v.finish (.error a) stored)
  | .handled _ _ (.ok status body), .finish stored => some (v.finish (.ok status body) stored)
  | .done, .crash => none
  | _, .crash => some (v.stay .done)
  | _, _ => none

/-- What a step of a copy can be. -/
inductive Step : CopyAction → Effect → Prop
  /-- The event is completed: its answer is repeated. -/
  | repeated (row : AgentEvent) (a : Answer) (hphase : cp.phase = .arrived)
      (hrow : v.row = some row) (ha : row.answer = some a) : Step .lookup (v.answer a)
  | unreadable (hphase : cp.phase = .arrived) (hheader : cp.request.header = .unreadable) :
      Step .lookup (v.answer BeginRefusal.unreadable.answer)
  | running (row : AgentEvent) (hphase : cp.phase = .arrived) (hrow : v.row = some row)
      (ha : row.answer = none) : Step .lookup (v.answer inProgress)
  | stale (hphase : cp.phase = .arrived) : Step .lookup (v.stay .stale)
  | looked (hphase : cp.phase = .arrived) : Step .lookup (v.stay .looked)
  | takenOver (hphase : cp.phase = .stale) : Step .takeOver { v.stay .looked with row := v.forget }
  | refused (locked : Option String) (refusal : BeginRefusal) (hphase : cp.phase = .looked) :
      Step (.check locked) (v.answer refusal.answer)
  | checked (locked : Option String) (time : EventTime) (hphase : cp.phase = .looked)
      (horder : time.replay = true → inOrder v.last time.eventAt = true) :
      Step (.check locked) (v.stay (.checked time))
  | raced (time : EventTime) (row : AgentEvent) (hphase : cp.phase = .checked time)
      (hrow : v.row = some row) : Step .create (v.answer inProgress)
  | created (time : EventTime) (hphase : cp.phase = .checked time) (hrow : v.row = none) :
      Step .create
        { phase := if time.replay then .placed time else .ready time none
          row := some { kind := cp.request.kind, eventAt := time.eventAt, receivedAt := v.clock }
          db := v.db }
  /-- The event comes after an automatic close. -/
  | found (time : EventTime) (last : WorkSession) (stop : ℤ) (hphase : cp.phase = .placed time)
      (hlast : last ∈ v.db.workSessions) (hstop : last.closedBefore time.eventAt = some stop) :
      Step (.reopenRead last) (v.stay (.deciding time last stop .openSessions))
  /-- Another read found nothing against the reopening. -/
  | goesOn (act : CopyAction) (time : EventTime) (last : WorkSession) (stop : ℤ)
      (next next' : ReopenRead) (hphase : cp.phase = .deciding time last stop next)
      (hact : act.Reads) : Step act (v.stay (.deciding time last stop next'))
  /-- The day is to be reopened. -/
  | decided (time : EventTime) (last : WorkSession) (stop : ℤ)
      (hphase : cp.phase = .deciding time last stop .dayEnd) :
      Step .readDayEnd
        (v.stay (.reopening time (last.remembered stop (v.db.workDayEnds last.date))))
  /-- A read found that there is nothing to reopen. -/
  | notReopened (act : CopyAction) (time : EventTime)
      (hphase : cp.phase = .placed time ∨
        ∃ last stop next, cp.phase = .deciding time last stop next)
      (hact : act.Reads) : Step act (v.stay (.ready time none))
  | reopenFailed
      (hphase : (∃ time, cp.phase = .placed time) ∨
        (∃ time last stop next, cp.phase = .deciding time last stop next) ∨
        ∃ time r, cp.phase = .reopening time r) :
      Step .reopenFails { v.answer internalError with row := v.forget }
  | reopened (time : EventTime) (r : Reopened) (hphase : cp.phase = .reopening time r) :
      Step .reopenWrite { v.stay (.ready time (some r)) with db := v.db.reopenDay r }
  | ran (time : EventTime) (reopened : Option Reopened) (hphase : cp.phase = .ready time reopened) :
      Step .handle (cp.handle v time reopened)
  | restored (time : EventTime) (r : Reopened) (a : Answer) (went : Bool)
      (hphase : cp.phase = .handled time (some r) (.error a)) :
      Step (.restore went)
        { v.stay (.handled time none (.error a)) with db := if went then v.db.restore r else v.db }
  | finished (time : EventTime) (reopened : Option Reopened) (outcome : Outcome) (went : Bool)
      (hphase : cp.phase = .handled time reopened outcome)
      (hclosed : reopened = none ∨ ∃ status body, outcome = .ok status body) :
      Step (.finish went) (v.finish outcome went)
  | crashed (hphase : cp.phase ≠ .done) : Step .crash (v.stay .done)

variable {cp v}

/-- The lookup, by what is stored. -/
theorem lookup_cases (hphase : cp.phase = .arrived) : Step cp v .lookup (cp.lookup v) := by
  unfold lookup
  split
  · next h => exact .unreadable hphase h
  · split
    · exact .looked hphase
    · next row hrow =>
      split
      · next a ha => exact .repeated row a hphase hrow ha
      · next ha =>
        split
        · exact .running row hphase hrow ha
        · exact .stale hphase

/-- The checks refuse, or give the action its time. -/
theorem check_cases (locked : Option String) (hphase : cp.phase = .looked) :
    Step cp v (.check locked) (cp.check v locked) := by
  unfold check
  split
  · next refusal _ => exact .refused locked refusal hphase
  · next time _ =>
    split
    · split
      · exact .refused locked .outOfOrder hphase
      · next horder =>
        split
        · next month => exact .refused (some month) (.monthLocked month) hphase
        · exact .checked none time hphase fun _ => not_not.1 horder
    · next hlive => exact .checked locked time hphase fun h => absurd h hlive

/-- The placeholder, by what is stored. -/
theorem create_cases (time : EventTime) (hphase : cp.phase = .checked time) :
    Step cp v .create (cp.create v time) := by
  unfold create
  split
  · next row hrow => exact .raced time row hphase hrow
  · next hrow => exact .created time hphase hrow

/-- The first read of a reopening, by what it finds. -/
theorem reopenRead_cases {time : EventTime} {last : WorkSession} {e : Effect}
    (hphase : cp.phase = .placed time) (h : v.reopenRead time last = some e) :
    Step cp v (.reopenRead last) e := by
  unfold View.reopenRead at h
  split at h
  · next hlast =>
    split at h
    · next stop hstop =>
      obtain rfl := Option.some.inj h
      exact .found time last stop hphase hlast.1.1 hstop
    · obtain rfl := Option.some.inj h
      exact .notReopened _ time (Or.inl hphase) trivial
  · split at h
    · obtain rfl := Option.some.inj h
      exact .notReopened _ time (Or.inl hphase) trivial
    · cases h

section Deciding

variable {time : EventTime} {last : WorkSession} {stop : ℤ}

/-- The second read of a reopening, by what it finds. -/
theorem countOpen_cases (hphase : cp.phase = .deciding time last stop .openSessions) :
    Step cp v .countOpen (v.countOpen time last stop) := by
  unfold View.countOpen
  split
  · exact .notReopened _ time (Or.inr ⟨last, stop, _, hphase⟩) trivial
  · exact .goesOn _ time last stop _ _ hphase trivial

/-- The third read of a reopening, by what it finds. -/
theorem latestEnd_cases (shiftEnd : Option ℤ) (graceMin : ℤ)
    (hphase : cp.phase = .deciding time last stop .latestEnd) :
    Step cp v (.latestEnd shiftEnd graceMin) (v.latestEnd time last stop shiftEnd graceMin) := by
  unfold View.latestEnd
  split
  · exact .notReopened _ time (Or.inr ⟨last, stop, _, hphase⟩) trivial
  · exact .goesOn _ time last stop _ _ hphase trivial

end Deciding

/-- A step of a copy is one of these. -/
theorem step_cases {act : CopyAction} {e : Effect} (h : cp.step v act = some e) :
    Step cp v act e := by
  unfold step at h
  split at h
  · next hphase => exact Option.some.inj h ▸ lookup_cases hphase
  · next hphase => exact Option.some.inj h ▸ .takenOver hphase
  · next locked hphase => exact Option.some.inj h ▸ check_cases locked hphase
  · next time hphase => exact Option.some.inj h ▸ create_cases time hphase
  · next hphase => exact reopenRead_cases hphase h
  · next hphase => exact Option.some.inj h ▸ countOpen_cases hphase
  · next shiftEnd graceMin hphase =>
    exact Option.some.inj h ▸ latestEnd_cases shiftEnd graceMin hphase
  · next time last stop hphase => exact Option.some.inj h ▸ .decided time last stop hphase
  · next time hphase => exact Option.some.inj h ▸ .reopenFailed (Or.inl ⟨time, hphase⟩)
  · next time last stop next hphase =>
    exact Option.some.inj h ▸ .reopenFailed (Or.inr (Or.inl ⟨time, last, stop, next, hphase⟩))
  · next time r hphase =>
    exact Option.some.inj h ▸ .reopenFailed (Or.inr (Or.inr ⟨time, r, hphase⟩))
  · next time r hphase => exact Option.some.inj h ▸ .reopened time r hphase
  · next time reopened hphase => exact Option.some.inj h ▸ .ran time reopened hphase
  · next time r a went hphase => exact Option.some.inj h ▸ .restored time r a went hphase
  · next time a went hphase =>
      exact Option.some.inj h ▸ .finished time none _ went hphase (Or.inl rfl)
  · next time reopened status body went hphase =>
    exact Option.some.inj h ▸ .finished time reopened _ went hphase (Or.inr ⟨status, body, rfl⟩)
  · cases h
  · next hphase => exact Option.some.inj h ▸ .crashed hphase
  · cases h

end Copy

/-! ## All copies -/

/-- One person's tables and events, the clock, the copies on their way, and the history. -/
structure Server where
  db : Db
  clock : ℤ
  events : AList fun _ : ℕ => AgentEvent
  copies : CopyId → Option Copy
  history : List (ℕ × Happened)

/-- A step of the server: the clock moves, a request arrives, or a copy takes a step. -/
inductive ServerAction
  | tick (now : ℤ)
  | arrive (c : CopyId) (request : Request)
  | copy (c : CopyId) (act : CopyAction)

/-- The table of events with the row of the event `i` replaced. -/
def setRow (events : AList fun _ : ℕ => AgentEvent) (i : ℕ) :
    Option AgentEvent → AList fun _ : ℕ => AgentEvent
  | some e => events.insert i e
  | none => events.erase i

/-- The row of an event that is written. -/
@[simp] theorem lookup_setRow (events : AList fun _ : ℕ => AgentEvent) (i : ℕ)
    (row : Option AgentEvent) : (setRow events i row).lookup i = row := by
  cases row with
  | some e => exact AList.lookup_insert events
  | none => exact AList.lookup_erase i events

/-- The rows of the others stay. -/
@[simp] theorem lookup_setRow_ne {events : AList fun _ : ℕ => AgentEvent} {i j : ℕ}
    {row : Option AgentEvent} (h : j ≠ i) : (setRow events i row).lookup j = events.lookup j := by
  cases row with
  | some e => exact AList.lookup_insert_ne h
  | none => exact AList.lookup_erase_ne h

namespace Server

/-- What happened to the event `i`. -/
def past (s : Server) (i : ℕ) : List Happened :=
  s.history.filterMap fun p => if p.1 = i then some p.2 else none

/-- A server at `clock` with no events. -/
def start (db : Db) (clock : ℤ) : Server := ⟨db, clock, ∅, fun _ => none, []⟩

/-- The latest event time of the completed replay actions. -/
def lastEvent (s : Server) (api : List String) : Option ℤ :=
  (s.events.entries.filterMap fun p =>
    if p.2.Counts api then some p.2.eventAt else none).max?

/-- What a copy of the event `i` sees. -/
def view (s : Server) (i : ℕ) (request : Request) : View :=
  ⟨s.clock, s.lastEvent request.api, s.events.lookup i, s.db⟩

/-- The server after a step of the copy `c`. -/
def commit (s : Server) (c : CopyId) (cp : Copy) (e : Effect) : Server :=
  { s with
    db := e.db
    events := setRow s.events c.event e.row
    copies := Function.update s.copies c (some { cp with phase := e.phase })
    history := s.history ++ (e.happened.map fun h => (c.event, h)).toList }

/-- The server with the request of the copy `c`. -/
def receive (s : Server) (c : CopyId) (request : Request) : Server :=
  { s with copies := Function.update s.copies c (some ⟨request, s.clock, .arrived⟩) }

/-- The server after a step; `none` when the step cannot happen. -/
def step (s : Server) : ServerAction → Option Server
  | .tick now => if s.clock ≤ now then some { s with clock := now } else none
  | .arrive c request =>
    match s.copies c with
    | some _ => none
    | none => some (s.receive c request)
  | .copy c act =>
    match s.copies c with
    | none => none
    | some cp => (cp.step (s.view c.event cp.request) act).map (s.commit c cp)

/-- The order check passes exactly when no completed replay action lies more than the tolerance
later. -/
theorem inOrder_lastEvent {s : Server} {api : List String} {t : ℤ} :
    inOrder (s.lastEvent api) t = true ↔
      ∀ i e, s.events.lookup i = some e → e.Counts api → e.eventAt - ORDER_TOLERANCE_MS ≤ t := by
  have hmem : ∀ x, (x ∈ s.events.entries.filterMap fun p =>
      if p.2.Counts api then some p.2.eventAt else none) ↔
      ∃ i e, s.events.lookup i = some e ∧ e.Counts api ∧ e.eventAt = x := by
    intro x
    simp only [List.mem_filterMap, Option.ite_none_right_eq_some, Option.some.injEq]
    constructor
    · rintro ⟨⟨i, e⟩, hp, hc, hx⟩
      exact ⟨i, e, AList.mem_lookup_iff.2 hp, hc, hx⟩
    · rintro ⟨i, e, hp, hc, hx⟩
      exact ⟨⟨i, e⟩, AList.mem_lookup_iff.1 hp, hc, hx⟩
  cases hlast : s.lastEvent api with
  | none =>
    have hnil := List.max?_eq_none_iff.1 hlast
    rw [hnil] at hmem
    refine ⟨fun _ i e he hc => ?_, fun _ => rfl⟩
    exact absurd ((hmem e.eventAt).2 ⟨i, e, he, hc, rfl⟩) List.not_mem_nil
  | some last =>
    obtain ⟨hin, hmax⟩ := List.max?_eq_some_iff.1 hlast
    obtain ⟨i, e, he, hc, heq⟩ := (hmem last).1 hin
    simp only [inOrder, decide_eq_true_eq, not_lt]
    refine ⟨fun h j e' he' hc' => ?_, fun h => by simpa [heq] using h i e he hc⟩
    have hle := hmax e'.eventAt ((hmem e'.eventAt).2 ⟨j, e', he', hc', rfl⟩)
    omega

variable {s t : Server} {c : CopyId} {cp : Copy} {act : CopyAction}

/-- Time does not go back. -/
theorem step_tick {now : ℤ} (h : s.step (.tick now) = some t) :
    s.clock ≤ now ∧ t = { s with clock := now } := by
  simp only [step] at h
  split at h
  · next hle => exact ⟨hle, (Option.some.inj h).symm⟩
  · cases h

/-- A copy is received once. -/
theorem step_arrive {request : Request} (h : s.step (.arrive c request) = some t) :
    s.copies c = none ∧ t = s.receive c request := by
  simp only [step] at h
  split at h
  · cases h
  · next hnone => exact ⟨hnone, (Option.some.inj h).symm⟩

/-- A step of a copy commits its effect. -/
theorem step_copy (h : s.step (.copy c act) = some t) :
    ∃ cp e, s.copies c = some cp ∧ cp.step (s.view c.event cp.request) act = some e ∧
      t = s.commit c cp e := by
  simp only [step] at h
  split at h
  · cases h
  · next cp hcp =>
    obtain ⟨e, he, rfl⟩ := Option.map_eq_some_iff.1 h
    exact ⟨cp, e, hcp, he, rfl⟩

/-- The received copy waits for its lookup. -/
@[simp] theorem receive_copies_self (s : Server) (c : CopyId) (request : Request) :
    (s.receive c request).copies c = some ⟨request, s.clock, .arrived⟩ := Function.update_self ..

/-- The other copies stay. -/
@[simp] theorem receive_copies_ne (s : Server) {c d : CopyId} (request : Request) (h : d ≠ c) :
    (s.receive c request).copies d = s.copies d := Function.update_of_ne h ..

/-- A step leaves its copy in the phase it says. -/
@[simp] theorem commit_copies_self (s : Server) (c : CopyId) (cp : Copy) (e : Effect) :
    (s.commit c cp e).copies c = some { cp with phase := e.phase } := Function.update_self ..

/-- It leaves the other copies. -/
@[simp] theorem commit_copies_ne (s : Server) {c d : CopyId} (cp : Copy) (e : Effect) (h : d ≠ c) :
    (s.commit c cp e).copies d = s.copies d := Function.update_of_ne h ..

/-- What happened with the event gets what the step did. -/
theorem past_commit_self (s : Server) (c : CopyId) (cp : Copy) (e : Effect) :
    (s.commit c cp e).past c.event = s.past c.event ++ e.happened.toList := by
  simp only [past, commit, List.filterMap_append]
  cases e.happened <;> simp

/-- A step that does nothing to note leaves it. -/
theorem past_commit_of_none {e : Effect} (h : e.happened = none) :
    (s.commit c cp e).past c.event = s.past c.event := by
  rw [past_commit_self, h, Option.toList_none, List.append_nil]

/-- It leaves what happened with the other events. -/
theorem past_commit_ne (s : Server) {c : CopyId} {i : ℕ} (cp : Copy) (e : Effect)
    (h : i ≠ c.event) : (s.commit c cp e).past i = s.past i := by
  simp only [past, commit, List.filterMap_append]
  cases e.happened <;> simp [h.symm]

/-- It leaves its event the row it says. -/
@[simp] theorem commit_lookup_self (s : Server) (c : CopyId) (cp : Copy) (e : Effect) :
    (s.commit c cp e).events.lookup c.event = e.row := lookup_setRow ..

/-- It leaves the rows of the other events. -/
@[simp] theorem commit_lookup_ne (s : Server) {c : CopyId} {i : ℕ} (cp : Copy) (e : Effect)
    (h : i ≠ c.event) : (s.commit c cp e).events.lookup i = s.events.lookup i := lookup_setRow_ne h

end Server

/-- The requests of the examples: a 4.0 agent's `POST` to a replay route under `/api/v1`. -/
def offlineRequest (path : List String) (t : ℤ) (handler : ℤ → Db → Outcome × Db) : Request :=
  ⟨["api", "v1"], ⟨"POST", path⟩, true, .time t, handler⟩

/-- A copy from its arrival to the first read of the reopening; `last` is the session that started
last. -/
def upToReopening (c : CopyId) (request : Request) (last : WorkSession) : List ServerAction :=
  [.arrive c request, .copy c .lookup, .copy c (.check none), .copy c .create,
    .copy c (.reopenRead last)]

end RxVision
