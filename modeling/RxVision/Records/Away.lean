import RxVision.Records.Meetings

/-!
# Away time (`away.service.ts`, `prisma-away.repository.ts`)

The answers to the agent's away pop-up. *Took a break* becomes a quick break back-dated to the away
start; every other reason is stored as an away stretch from the away start to the answer; a pop-up
that nobody answered is stored as unexplained. Comments, people and names are the ones that
`cleanText` and `cleanParticipants` leave.
-/

namespace RxVision

/-- The longest away stretch the server accepts in one answer (a working day). -/
def MAX_AWAY_MS : ℤ := 16 * 3600000

/-- An away start may be at most this far ahead of the event time (clock skew). -/
def SKEW_MS : ℤ := 2 * 60000

/-- `AwayReasonKind`; `brk` is `BREAK`. -/
inductive AwayReasonKind
  | brk | thinking | meeting | hardware | other | custom
  deriving DecidableEq, Repr

/-- A field of an answer. -/
inductive AwayField
  | comment | participants | momSender
  deriving DecidableEq, Repr

/-- `REASON_FIELDS`: the fields the server requires for each kind. -/
def REASON_FIELDS : AwayReasonKind → List AwayField
  | .brk => []
  | .meeting => [.participants, .comment, .momSender]
  | _ => [.comment]

/-- `SubmitAwayDto`: `startedAt` is none when it is no instant, `participants` how many people there
are. -/
structure SubmitAway where
  startedAt : Option ℤ
  reasonKey : String
  comment : String := ""
  participants : ℕ := 0
  momSender : String := ""
  deriving DecidableEq, Repr

/-- The fields of an answer that are not filled in. -/
def SubmitAway.problems (dto : SubmitAway) (kind : AwayReasonKind) : List AwayField :=
  (if .comment ∈ REASON_FIELDS kind ∧ (dto.comment.length < 3 ∨ dto.comment.length > 200) then
    [.comment] else []) ++
  if kind = .meeting then
    (if dto.participants < 1 ∨ dto.participants > 30 then [.participants] else []) ++
    (if dto.momSender.length < 2 ∨ dto.momSender.length > 80 then [.momSender] else [])
  else []

/-- Why an answer is refused. -/
inductive AwayRefusal
  | reasonUnknown | notAnInstant | startInFuture | tooLongAgo | dayNotStarted | notAway
  | fields (problems : List AwayField)
  | overlap (existing : AwayEvent)
  | quickBreak (code : BreakMoveCode)
  | monthLocked | stopNotAfterStart | stopInFuture
  deriving DecidableEq, Repr

/-- What `submit` answers. -/
inductive SubmitResult
  | away (row : AwayEvent)
  | brk (record : BreakRecord) (presenceSessionId : Option ℕ)
  | refused (reason : AwayRefusal)
  deriving DecidableEq, Repr

/-- `CreateAwayResult`. -/
inductive CreateAwayResult
  | ok (row : AwayEvent)
  | overlap (existing : AwayEvent)
  | monthLocked
  deriving DecidableEq, Repr

/-- What `bounds` gives: the open session, the start, and the stored answer this one repeats. -/
structure AwayBounds where
  session : WorkSession
  start : ℤ
  retryOf : Option AwayEvent
  deriving DecidableEq, Repr

/-- The end of an away stretch. -/
def AwayEvent.stop (a : AwayEvent) : ℤ := a.endedAt.getD (a.startedAt + a.seconds.getD 0 * 1000)

namespace Db

/-! ## Storing a stretch -/

/-- `create` of `prisma-away.repository.ts`: refused when the stretch overlaps a stored one. -/
def createAway (monthOpen : DateKey → Bool) (db : Db) (date : DateKey) (startedAt endedAt : ℤ)
    (reasonKey : Option String) (status : AwayStatus) : CreateAwayResult × Db :=
  match db.away.findLast? (fun a => a.startedAt < endedAt ∧ a.endedAt.all fun e => e > startedAt)
      (fun a => -a.startedAt) with
  | some existing => (.overlap existing, db)
  | none =>
    if status = .pending ∧ ¬ monthOpen date then (.monthLocked, db)
    else
      let row : ℕ → AwayEvent := fun id =>
        { id, date, startedAt, endedAt := some endedAt,
          seconds := some (elapsedSec startedAt endedAt), reasonKey, status }
      (.ok (row db.away.next), { db with away := db.away.create row fun _ => rfl })

/-! ## The start of a stretch -/

/-- `presenceOverlapping`. -/
def presenceOverlapping (db : Db) (start stop : ℤ) : List PresenceSession :=
  db.presence.rows.filter fun p => p.startedAt ≤ stop ∧ p.endedAt.all fun e => e ≥ start

/-- The largest of some times, `0` when there are none. -/
def latest (times : List ℤ) : ℤ := times.foldl max 0

/-- The end of the last break or meeting that ended by `now`, the last time the person was accounted
for. -/
def accountedUntil (db : Db) (startedAt now : ℤ) : ℤ :=
  latest (((db.presenceOverlapping startedAt now).filterMap PresenceSession.endedAt).filter
    fun e => e ≤ now)

/-- The away start, bounded by the day start and by the last break or meeting, and not in the
future. -/
def awayStart (db : Db) (startedAt : ℤ) (session : WorkSession) (now : ℤ) : ℤ :=
  let start := max (max startedAt session.startedAt) (db.accountedUntil startedAt now)
  if start > now then now else start

/-- The away time of the day that was answered before, in order of its starts. -/
def earlierAway (db : Db) (session : WorkSession) (now : ℤ) : List AwayEvent :=
  (db.away.rows.filter fun a => a.date = session.date ∧ a.startedAt < now).insertionSort
    fun a b => a.startedAt ≤ b.startedAt

/-- Where the away time that covers `start` ends. -/
def coveredUntil (earlier : List AwayEvent) (start : ℤ) : ℤ :=
  latest ((earlier.filter fun a => a.startedAt ≤ start ∧ a.stop > start).map AwayEvent.stop)

/-- `bounds`: the open working day, and a start bounded by it, by the last break or meeting and by
the away time answered before. -/
def bounds (db : Db) (startedAt : Option ℤ) (now : ℤ) (reasonKey : String) :
    Except AwayRefusal AwayBounds :=
  match startedAt with
  | none => .error .notAnInstant
  | some startedAt =>
    if startedAt > now + SKEW_MS then .error .startInFuture
    else if now - startedAt > MAX_AWAY_MS then .error .tooLongAgo
    else
      match db.findOpen with
      | none => .error .dayNotStarted
      | some session =>
        if (db.presenceOverlapping startedAt now).any fun p => p.endedAt.isNone then
          .error .notAway
        else
          let start := db.awayStart startedAt session now
          let earlier := db.earlierAway session now
          match earlier.find? fun a =>
              a.reasonKey = some reasonKey ∧ (a.startedAt - start).natAbs < 1000 with
          | some retryOf => .ok ⟨session, start, some retryOf⟩
          | none =>
            let covered := coveredUntil earlier start
            .ok ⟨session, if covered > start then min covered now else start, none⟩

/-! ## The answers -/

/-- The planned length of a quick break that began at `start`: the time away so far, rounded up to 5
min. -/
def plannedMinOf (start now : ℤ) : ℤ :=
  let awayMin := max 1 ((now - start + 59999) / 60000)
  min 60 (max 5 ((awayMin + 4) / 5 * 5))

/-- `submit`. `reasons` are the reasons offered to the person, `breakDayOf` is the day a break at an
instant belongs to, `pending` says that the person's away time waits for approval. -/
def submit (calendarOf breakDayOf : DayKeyFn) (monthOpen : DateKey → Bool)
    (reasons : String → Option AwayReasonKind) (pending : Bool) (db : Db) (dto : SubmitAway)
    (now : ℤ) : SubmitResult × Db :=
  match reasons dto.reasonKey with
  | none => (.refused .reasonUnknown, db)
  | some kind =>
    match db.bounds dto.startedAt now dto.reasonKey with
    | .error reason => (.refused reason, db)
    | .ok ⟨_, _, some retryOf⟩ => (.away retryOf, db)
    | .ok ⟨session, start, none⟩ =>
      if kind = .brk then
        match db.startQuick ⟨breakDayOf start, plannedMinOf start now, start, calendarOf start⟩ with
        | (.ok record presenceSessionId, db') => (.brk record presenceSessionId, db')
        | (.refused code _, db') => (.refused (.quickBreak code), db')
      else if dto.problems kind ≠ [] then (.refused (.fields (dto.problems kind)), db)
      else
        match db.createAway monthOpen session.date start now (some dto.reasonKey)
            (if pending then .pending else .notRequired) with
        | (.ok row, db') => (.away row, db')
        | (.monthLocked, db') => (.refused .monthLocked, db')
        | (.overlap existing, db') =>
          -- the agent sent the same answer twice
          if existing.reasonKey = some dto.reasonKey ∧ (existing.startedAt - start).natAbs <
            1000 then (.away existing, db')
          else (.refused (.overlap existing), db')

/-- `findLastEnded`. -/
def findLastEnded (db : Db) : Option WorkSession :=
  db.workSessions.findLast? (fun s => s.endedAt.isSome) fun s => s.endedAt.getD 0

/-- `unexplained`: the stretch, cut to the day it lies in. -/
def unexplained (monthOpen : DateKey → Bool) (db : Db) (startedAt endedAt now : ℤ) :
    Except AwayRefusal (Option AwayEvent) × Db :=
  if endedAt ≤ startedAt then (.error .stopNotAfterStart, db)
  else if endedAt > now + SKEW_MS then (.error .stopInFuture, db)
  else
    match db.findOpen <|> db.findLastEnded with
    | none => (.error .dayNotStarted, db)
    | some last =>
      let start := max startedAt last.startedAt
      let stop := min (min endedAt (last.endedAt.getD now)) now
      if stop - start < 1000 then (.ok none, db)
      else
        match db.createAway monthOpen last.date start stop none .unexplained with
        | (.ok row, db') => (.ok (some row), db')
        | (.overlap existing, db') => (.ok (some existing), db')
        | (.monthLocked, db') => (.error .monthLocked, db')

end Db

end RxVision
