import RxVision.Approvals.Items
import RxVision.Records.Away

/-!
# Decisions, skips and overruns of stored records

The remaining transactions on one person's breaks, meetings and away stretches: decisions and the
way back to pending (`decide` of the three repositories), the overrun of a break (`finishBreak`),
the comment on a skip (`addComment`), skipped breaks (`prisma-skip.repository.ts`) and the record
of a break that an older agent started (`createForSession`). The overrun columns of
`break_records` are kept beside the tables. A transaction that is refused, or that finds its month
locked, changes nothing.
-/

namespace RxVision

/-- The columns of a break record that `finishBreak` writes. -/
structure Overrun where
  overrunSec : Option ℤ := none
  overrunAsked : Bool := false
  overrunReason : Option String := none
  deriving DecidableEq, Repr

/-- A decision of a record, a change of one, or a record that no break start makes. -/
inductive ReviewOp
  | decideBreak (monthOpen : DateKey → Bool) (id : ℕ) (expected : List BreakApprovalStatus)
      (status : BreakApprovalStatus)
  | decideMeeting (monthOpen : DateKey → Bool) (id : ℕ) (expected : List BreakApprovalStatus)
      (status : BreakApprovalStatus)
  | decideAway (monthOpen : DateKey → Bool) (id : ℕ) (expected : List AwayStatus)
      (status : AwayStatus)
  | finishBreak (monthOpen : DateKey → Bool) (id : ℕ) (overrunSec : ℤ) (ask : Option OverrunAsk)
  | addComment (monthOpen : DateKey → Bool) (id : ℕ) (comment : String)
  | createSkip (monthOpen : DateKey → Bool) (record : NewBreakRecord) (generation : AgentGeneration)
      (now : ℤ) (today : DateKey)
  | createAutoSkip (monthOpen : DateKey → Bool) (record : NewBreakRecord)
  | createForSession (monthOpen : DateKey → Bool) (record : NewBreakRecord) (presenceSessionId : ℕ)

namespace Db

variable (monthOpen : DateKey → Bool) (db : Db)

/-! ## Decisions -/

/-- `decide` of breaks. -/
def decideBreak (id : ℕ) (expected : List BreakApprovalStatus) (status : BreakApprovalStatus) :
    Db :=
  match db.breakRecords.find? fun r => r.id = id with
  | none => db
  | some found =>
    if ¬ monthOpen found.date then db
    else
      { db with
        breakRecords :=
          db.breakRecords.updateMany (fun r => r.id = id ∧ r.approvalStatus ∈ expected)
          (fun r => { r with approvalStatus := status }) fun _ => rfl }

/-- `decide` of meetings; one that runs on is not decided. -/
def decideMeeting (id : ℕ) (expected : List BreakApprovalStatus) (status : BreakApprovalStatus) :
    Db :=
  match db.meetings.find? fun m => m.id = id with
  | none => db
  | some found =>
    if ¬ monthOpen found.date then db
    else if found.endedAt.isNone ∧ status ≠ .pending then db
    else
      { db with
        meetings := db.meetings.updateMany (fun m => m.id = id ∧ m.approvalStatus ∈ expected)
          (fun m => { m with approvalStatus := status }) fun _ => rfl }

/-- `decide` of away stretches. -/
def decideAway (id : ℕ) (expected : List AwayStatus) (status : AwayStatus) : Db :=
  match db.away.find? fun a => a.id = id with
  | none => db
  | some found =>
    if ¬ monthOpen found.date then db
    else
      { db with
        away := db.away.updateMany (fun a => a.id = id ∧ a.status ∈ expected)
          (fun a => { a with status }) fun _ => rfl }

/-! ## Changes of a record -/

/-- The overrun columns after `finishBreak`. -/
def overrun (before : Overrun) (overrunSec : ℤ) (ask : Option OverrunAsk) : Overrun :=
  let measured := { before with overrunSec := some (max 0 overrunSec) }
  match ask with
  | none => measured
  | some ask => { measured with overrunAsked := true, overrunReason := ask.reason }

/-- `finishBreak`: an overrun that is asked for and has a reviewer makes the record PENDING. -/
def finishBreak (overruns : ℕ → Overrun) (id : ℕ) (overrunSec : ℤ) (ask : Option OverrunAsk) :
    Db × (ℕ → Overrun) :=
  match db.breakRecords.find? fun r => r.id = id with
  | none => (db, overruns)
  | some current =>
    let routed := (ask.bind OverrunAsk.routing).isSome
    if (routed ∨ current.approvalStatus = .pending) ∧ ¬ monthOpen current.date then (db, overruns)
    else
      (if routed then db.updateBreak id (fun r => { r with approvalStatus := .pending })
        fun _ => rfl
        else db,
        Function.update overruns id (overrun (overruns id) overrunSec ask))

/-- `addComment`: a skip that has no reason yet gets one. -/
def addComment (id : ℕ) (comment : String) : Db :=
  match db.breakRecords.find? fun r => r.id = id with
  | none => db
  | some current =>
    if current.approvalStatus = .pending ∧ ¬ monthOpen current.date then db
    else
      { db with
        breakRecords := db.breakRecords.updateMany
          (fun r => r.id = id ∧ r.reason = none ∧ r.outcome ≠ .taken)
          (fun r => { r with reason := some comment }) fun _ => rfl }

/-! ## Records without a break -/

/-- The tables with a record of the outcome `outcome` that nothing runs. -/
def insertSkip (record : NewBreakRecord) (outcome : BreakOutcome) : Db :=
  { db with
    breakRecords := db.breakRecords.create (fun id => { scheduledRow record with id, outcome })
      fun _ => rfl }

/-- `createSkip`: the day must be open; an older agent opens it. -/
def createSkip (record : NewBreakRecord) (generation : AgentGeneration) (now : ℤ)
    (today : DateKey) :
    Db :=
  if db.findOpen.isNone ∧ (generation = .agent31 ∨ (db.workDayEnds today).isSome) then db
  else if (db.takenBreak record).isSome then db
  else if db.presence.rows.any fun p => p.endedAt.isNone ∧ p.type ≠ .meeting then db
  else if record.approvalStatus = .pending ∧ ¬ monthOpen record.date then db
  else
    match db.ensureOpenTx generation now today with
    | (.refused _, _) => db
    | (.ok _ _, db') => db'.insertSkip record .skipped

/-- One record of `createAutoSkips`: left out in a locked month, and when the kind has
its record. -/
def createAutoSkip (record : NewBreakRecord) : Db :=
  if record.approvalStatus = .pending ∧ ¬ monthOpen record.date then db
  else if (db.takenBreak record).isSome then db
  else db.insertSkip record .autoSkipped

/-- `createForSession`: the record of a break that a presence session runs. -/
def createForSession (record : NewBreakRecord) (presenceSessionId : ℕ) : Db :=
  if record.approvalStatus = .pending ∧ ¬ monthOpen record.date then db
  else if (db.takenBreak record).isSome ∨
      db.breakRecords.rows.any fun r => r.presenceSessionId = some presenceSessionId then db
  else
    let session := db.presenceOf (some presenceSessionId)
    { db with
      breakRecords := db.breakRecords.create
        (fun id => { scheduledRow record with
          id
          presenceSessionId := some presenceSessionId
          state := if session.any fun p => p.endedAt.isNone then .active else .ended }) fun _ => rfl
      breakSegments := db.breakSegments.create
        (fun id =>
          { id
            breakRecordId := db.breakRecords.next
            presenceSessionId := some presenceSessionId
            startedAt := (session.map PresenceSession.startedAt).getD record.startedAt
            endedAt := session.bind PresenceSession.endedAt }) fun _ => rfl }

end Db

/-- The tables and overrun columns after an operation. -/
def ReviewOp.run (db : Db) (overruns : ℕ → Overrun) : ReviewOp → Db × (ℕ → Overrun)
  | .decideBreak monthOpen id expected status =>
    (db.decideBreak monthOpen id expected status, overruns)
  | .decideMeeting monthOpen id expected status =>
    (db.decideMeeting monthOpen id expected status, overruns)
  | .decideAway monthOpen id expected status =>
    (db.decideAway monthOpen id expected status, overruns)
  | .finishBreak monthOpen id overrunSec ask => db.finishBreak monthOpen overruns id overrunSec ask
  | .addComment monthOpen id comment => (db.addComment monthOpen id comment, overruns)
  | .createSkip monthOpen record generation now today =>
    (db.createSkip monthOpen record generation now today, overruns)
  | .createAutoSkip monthOpen record => (db.createAutoSkip monthOpen record, overruns)
  | .createForSession monthOpen record presenceSessionId =>
    (db.createForSession monthOpen record presenceSessionId, overruns)

end RxVision
