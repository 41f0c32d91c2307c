import RxVision.Database
import RxVision.Tenancy.Directory

/-!
# Approval items

A row of `break_records`, `meeting_records` or `away_events`, with the columns approval reads and
writes, and the updates the three repositories make to one row: `decide` (also the way back to
pending), `finishBreak` and the re-routing of `reroute`. Each is a function from the row to the row
it stores, or nothing when its `where` does not select the row. The transaction around it takes the
row lock first and then asks the month lock, whose answer is an argument.

`finishBreak` exists for breaks only; the columns it writes stay as they were created for the other
kinds.
-/

namespace RxVision

/-- The kind of an approval item. -/
inductive ApprovalType
  | brk | meeting | away
  deriving DecidableEq, Repr

/-- A row of `break_records`, `meeting_records` or `away_events`; `type` says of which. -/
structure ApprovalItem where
  id : ℕ
  type : ApprovalType
  userId : ℕ
  date : DateKey
  startedAt : ℤ
  endedAt : Option ℤ := none
  /-- `approval_status` of a break or meeting, `status` of an away stretch. -/
  status : AwayStatus
  approverRole : Option Role := none
  approverId : Option ℕ := none
  decidedById : Option ℕ := none
  decidedAt : Option ℤ := none
  decisionNote : Option String := none
  dueAt : Option ℤ := none
  escalatedAt : Option ℤ := none
  remindedAt : Option ℤ := none
  overrunSec : Option ℤ := none
  overrunAsked : Bool := false
  overrunReason : Option String := none
  deriving DecidableEq, Repr

/-- `Routing`: who an item waits for. -/
structure Routing where
  approverRole : Option Role
  approverId : Option ℕ
  deriving DecidableEq, Repr

/-- `Decision`: what a decision stores. -/
structure Decision where
  status : AwayStatus
  decidedById : Option ℕ
  decidedAt : Option ℤ
  note : Option String
  deriving DecidableEq, Repr

/-- The decision of a reopen: back to pending, undecided. -/
def Decision.reopening : Decision where
  status := .pending
  decidedById := none
  decidedAt := none
  note := none

/-- The statuses a reopen takes: `DECIDED`. -/
def DECIDED : List AwayStatus := [.approved, .rejected]

/-- `FinishBreak.ask`: the person asks for the overrun to count. -/
structure OverrunAsk where
  reason : Option String
  routing : Option Routing
  deriving DecidableEq, Repr

namespace ApprovalItem

/-- `pendingClock`: the columns every move to PENDING sets, from the start of the clock. -/
def pendingClock (row : ApprovalItem) (start slaHours : ℤ) : ApprovalItem :=
  { row with dueAt := some (start + slaHours * 3600000), escalatedAt := none, remindedAt := none }

/-- `decide` of the three repositories, on the row they locked: the month must be open, a running
meeting is not decided, and only a row in an expected status is written. -/
def decide (row : ApprovalItem) (expected : List AwayStatus) (decision : Decision)
    (start slaHours : ℤ) (monthOpen : Bool) : Option ApprovalItem :=
  if !monthOpen then none
  else if row.type = .meeting && row.endedAt.isNone && decision.status ≠ .pending then none
  else if !expected.contains row.status then none
  else
    let row := { row with
      status := decision.status
      decidedById := decision.decidedById
      decidedAt := decision.decidedAt
      decisionNote := decision.note }
    some (if decision.status = .pending then row.pendingClock start slaHours else row)

/-- The reopening of a record that is not waiting yet, in `finishBreak`. -/
def becomePending (row : ApprovalItem) (start slaHours : ℤ) : ApprovalItem :=
  { row.pendingClock start slaHours with
    status := .pending
    decidedById := none
    decidedAt := none
    decisionNote := none }

/-- `finishBreak` on the row it locked; a row that is or becomes PENDING needs its month open. -/
def finishBreak (row : ApprovalItem) (overrunSec : ℤ) (ask : Option OverrunAsk)
    (start slaHours : ℤ) (monthOpen : Bool) : Option ApprovalItem :=
  let routing := ask.bind OverrunAsk.routing
  if (routing.isSome || row.status = .pending) && !monthOpen then none
  else
    let row := { row with overrunSec := some (max 0 overrunSec) }
    match ask with
    | none => some row
    | some ask =>
      let row := { row with overrunAsked := true, overrunReason := ask.reason }
      match ask.routing with
      | none => some row
      | some r =>
        let row := { row with approverRole := r.approverRole, approverId := r.approverId }
        some (if row.status = .pending then row else row.becomePending start slaHours)

/-- `reroute` of breaks and meetings: who a waiting item waits for. -/
def reroute (row : ApprovalItem) (routing : Routing) : ApprovalItem :=
  if row.status = .pending then
    { row with approverRole := routing.approverRole, approverId := routing.approverId }
  else row

variable {row row' : ApprovalItem} {expected : List AwayStatus} {decision : Decision}
  {start slaHours overrunSec : ℤ} {monthOpen : Bool} {ask : Option OverrunAsk}

/-! ## What an update leaves alone -/

/-- The columns no update writes. -/
def SameItem (row row' : ApprovalItem) : Prop :=
  row'.id = row.id ∧ row'.type = row.type ∧ row'.userId = row.userId ∧ row'.date = row.date ∧
    row'.startedAt = row.startedAt ∧ row'.endedAt = row.endedAt

/-- A decision takes a row in an expected status, in an open month, and stores the decision; a
meeting that is still running is only reopened. -/
theorem decide_cases (h : row.decide expected decision start slaHours monthOpen = some row') :
    monthOpen = true ∧ row.status ∈ expected ∧
      (row.type = .meeting → row.endedAt = none → decision.status = .pending) ∧
      row' = (let r := { row with
          status := decision.status
          decidedById := decision.decidedById
          decidedAt := decision.decidedAt
          decisionNote := decision.note }
        if decision.status = .pending then r.pendingClock start slaHours else r) := by
  unfold decide at h
  split at h
  · cases h
  rename_i hopen
  split at h
  · cases h
  rename_i hrunning
  split at h
  · cases h
  rename_i hexp
  refine ⟨by simpa using hopen, by simpa using hexp, ?_, (Option.some.inj h).symm⟩
  intro ht he
  by_contra hne
  exact hrunning (by simp [ht, he, hne])

/-- A decision changes the status and who decided, not whose item it is. -/
theorem sameItem_of_decide
    (h : row.decide expected decision start slaHours monthOpen = some row') :
    SameItem row row' := by
  obtain ⟨-, -, -, rfl⟩ := decide_cases h
  dsimp only
  split <;> exact ⟨rfl, rfl, rfl, rfl, rfl, rfl⟩

/-- `finishBreak` asks with a reviewer and leaves the row PENDING, in an open month, or leaves
its status alone. -/
theorem finishBreak_cases
    (h : row.finishBreak overrunSec ask start slaHours monthOpen = some row') :
    SameItem row row' ∧
      ((∃ a r, ask = some a ∧ a.routing = some r ∧ monthOpen = true ∧ row'.status = .pending ∧
          row'.approverRole = r.approverRole ∧ row'.overrunAsked = true ∧
          (row.status = .pending → row'.dueAt = row.dueAt ∧ row'.remindedAt = row.remindedAt ∧
            row'.escalatedAt = row.escalatedAt) ∧
          (row.status ≠ .pending → row'.dueAt = some (start + slaHours * 3600000) ∧
            row'.remindedAt = none ∧ row'.escalatedAt = none)) ∨
        (ask.bind OverrunAsk.routing = none ∧ row'.status = row.status ∧
          row'.approverRole = row.approverRole ∧ row'.dueAt = row.dueAt ∧
          row'.remindedAt = row.remindedAt ∧ row'.escalatedAt = row.escalatedAt)) := by
  unfold finishBreak at h
  simp only at h
  split at h
  · cases h
  rename_i hmonth
  cases ask with
  | none =>
    cases h
    exact ⟨⟨rfl, rfl, rfl, rfl, rfl, rfl⟩, Or.inr ⟨rfl, rfl, rfl, rfl, rfl, rfl⟩⟩
  | some a =>
    cases hr : a.routing with
    | none =>
      simp only [hr] at h
      cases h
      exact ⟨⟨rfl, rfl, rfl, rfl, rfl, rfl⟩, Or.inr ⟨hr, rfl, rfl, rfl, rfl, rfl⟩⟩
    | some r =>
      have hopen : monthOpen = true := by simpa [hr] using hmonth
      simp only [hr] at h
      obtain rfl := Option.some.inj h
      by_cases hp : row.status = .pending
      · rw [if_pos hp]
        exact ⟨⟨rfl, rfl, rfl, rfl, rfl, rfl⟩, Or.inl ⟨a, r, rfl, hr, hopen, hp, rfl, rfl,
          fun _ => ⟨rfl, rfl, rfl⟩, fun hn => absurd hp hn⟩⟩
      · rw [if_neg hp]
        exact ⟨⟨rfl, rfl, rfl, rfl, rfl, rfl⟩, Or.inl ⟨a, r, rfl, hr, hopen, rfl, rfl, rfl,
          fun h => absurd h hp, fun _ => ⟨rfl, rfl, rfl⟩⟩⟩

/-- Nor does a rerouting. -/
theorem sameItem_reroute (row : ApprovalItem) (routing : Routing) :
    SameItem row (row.reroute routing) := by
  unfold reroute
  split <;> exact ⟨rfl, rfl, rfl, rfl, rfl, rfl⟩

end ApprovalItem

end RxVision
