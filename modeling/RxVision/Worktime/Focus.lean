import Mathlib.Algebra.Order.Floor.Ring
import Mathlib.Data.Rat.Floor
import RxVision.Database
import RxVision.Worktime.Intervals

/-!
# Focus time (`worktime/domain/focus.ts`)

`computeFocus`, a pure function of one person's day, with the records it reads and the breakdown it
returns. The two loops over the break and the meeting records are folds over the totals they
accumulate (`BreakTotals.add`, `MeetingTotals.add`). Numbers of the source that need not be whole
(minutes of the settings and records, stored seconds) are rationals, and `Math.round` is
`mathRound`.
-/

namespace RxVision

/-! ## The records of a day -/

/-- A stretch that runs to now while it has no end. -/
structure Stretch where
  startedAt : ℤ
  endedAt : Option ℤ
  deriving DecidableEq, Repr

/-- A work session; a `replay` one counts only where covered. -/
structure FocusSession extends Stretch where
  replay : Bool := false
  deriving DecidableEq, Repr

/-- A stretch covered by the agent's activity samples. -/
structure FocusCoverage where
  startedAt : ℤ
  endedAt : ℤ
  deriving DecidableEq, Repr

/-- A presence session. -/
structure FocusPresence extends Stretch where
  type : PresenceType
  deriving DecidableEq, Repr

/-- A break record and the segments it was taken in. -/
structure FocusBreakRecord where
  outcome : BreakOutcome
  approvalStatus : BreakApprovalStatus
  overrunAsked : Bool
  overrunSec : Option ℚ
  durationMin : Option ℚ
  kind : Option RecordKind := none
  segments : List Stretch := []
  deriving DecidableEq, Repr

/-- An away stretch. -/
structure FocusAway extends Stretch where
  status : AwayStatus
  deriving DecidableEq, Repr

/-- A meeting record; a running live meeting has no end. -/
structure FocusMeetingRecord extends Stretch where
  mode : MeetingMode
  approvalStatus : BreakApprovalStatus
  deriving DecidableEq, Repr

/-- What the engine reads of one person's day. -/
structure FocusInput where
  sessions : List FocusSession
  presence : List FocusPresence := []
  breakRecords : List FocusBreakRecord := []
  meetingRecords : List FocusMeetingRecord := []
  away : List FocusAway := []
  /-- The organisation's paid buffer on top of the scheduled breaks (minutes). -/
  bufferMin : ℚ := 0
  coverage : List FocusCoverage := []
  /-- Signed seconds of the day's manual adjustments. -/
  adjustedSec : ℚ := 0
  now : ℤ
  deriving DecidableEq, Repr

/-- What the engine returns. -/
structure FocusBreakdown where
  focusSec : ℤ
  running : Bool
  spanSec : ℤ
  breakSec : ℤ
  meetingSec : ℤ
  approvedPlusSec : ℤ
  pendingPlusSec : ℤ
  rejectedMinusSec : ℤ
  pendingMinusSec : ℤ
  scheduledTakenSec : ℤ
  paidScheduledSec : ℤ
  overrunSec : ℤ
  quickBreakSec : ℤ
  otherBreakSec : ℤ
  bufferUsedSec : ℤ
  paidBreakSec : ℤ
  unpaidBreakSec : ℤ
  awayPendingSec : ℤ
  awayApprovedSec : ℤ
  awayRejectedSec : ℤ
  awayUnexplainedSec : ℤ
  unverifiedSec : ℤ
  paidSec : ℤ
  adjustedSec : ℤ
  deriving DecidableEq, Repr

/-! ## Whole seconds -/

/-- `Math.round`: to the nearest integer, halves up. -/
def mathRound (x : ℚ) : ℤ := ⌊x + 1 / 2⌋

/-- `Math.max(0, Math.round(min * 60))` of minutes that may be missing. -/
def minutesToSec (min : Option ℚ) : ℤ := max 0 (mathRound (min.getD 0 * 60))

/-- An instant floored to the whole second. -/
def wholeSecond (ms : ℤ) : ℤ := ms / 1000 * 1000

/-- `[start, stop or now)` on whole seconds. -/
def wholeSpan (start : ℤ) (stop : Option ℤ) (now : ℤ) : Interval :=
  let s := wholeSecond start
  let e := wholeSecond (stop.getD now)
  ⟨s, max s e⟩

/-- The stretch as it is stored, without the flooring. -/
def Stretch.span (now : ℤ) (s : Stretch) : Interval := RxVision.span s.startedAt s.endedAt now

/-- `wholeSpan` of a stretch. -/
def Stretch.wholeSpan (now : ℤ) (s : Stretch) : Interval :=
  RxVision.wholeSpan s.startedAt s.endedAt now

/-! ## The break records -/

/-- What the loop over the break records accumulates. -/
structure BreakTotals where
  approvedPlusSec : ℤ := 0
  pendingPlusSec : ℤ := 0
  rejectedMinusSec : ℤ := 0
  pendingMinusSec : ℤ := 0
  scheduledTakenSec : ℤ := 0
  paidScheduledSec : ℤ := 0
  overrunSec : ℤ := 0
  quickBreakSec : ℤ := 0
  deriving DecidableEq, Repr

namespace FocusBreakRecord

/-- `isSkip`. -/
def isSkip (r : FocusBreakRecord) : Bool := r.outcome = .skipped || r.outcome = .autoSkipped

/-- `SCHEDULED.has(r.kind)`. -/
def isScheduled (r : FocusBreakRecord) : Bool :=
  match r.kind with
  | some .morning | some .lunch | some .evening => true
  | some .quick | none => false

/-- Seconds of the record's segments inside the work sessions. -/
def takenSec (r : FocusBreakRecord) (work : List Interval) (now : ℤ) : ℤ :=
  toSec (lengthMs (intersect work (r.segments.map (Stretch.wholeSpan now))))

/-- The record's length in whole seconds. -/
def lengthSec (r : FocusBreakRecord) : ℤ := minutesToSec r.durationMin

end FocusBreakRecord

/-- The first half of a round: overrun asks and skips, by approval. -/
def BreakTotals.addApproval (t : BreakTotals) (r : FocusBreakRecord) : BreakTotals :=
  if r.outcome = .taken ∧ r.overrunAsked then
    let plus := max 0 (mathRound (r.overrunSec.getD 0))
    match r.approvalStatus with
    | .approved => { t with approvedPlusSec := t.approvedPlusSec + plus }
    | .pending => { t with pendingPlusSec := t.pendingPlusSec + plus }
    | .notRequired | .rejected => t
  else if r.isSkip then
    let minus := r.lengthSec
    match r.approvalStatus with
    | .rejected => { t with rejectedMinusSec := t.rejectedMinusSec + minus }
    | .pending => { t with pendingMinusSec := t.pendingMinusSec + minus }
    | .notRequired | .approved => t
  else t

/-- The second half of a round: the time taken, scheduled breaks up to their length. -/
def BreakTotals.addTaken (t : BreakTotals) (work : List Interval) (now : ℤ)
    (r : FocusBreakRecord) : BreakTotals :=
  if r.outcome ≠ .taken ∨ r.segments = [] then t
  else
    let taken := r.takenSec work now
    if r.kind = some .quick then { t with quickBreakSec := t.quickBreakSec + taken }
    else if r.isScheduled then
      let lengthSec := r.lengthSec
      { t with
        scheduledTakenSec := t.scheduledTakenSec + taken
        paidScheduledSec := t.paidScheduledSec + min taken lengthSec
        overrunSec := t.overrunSec + max 0 (taken - lengthSec) }
    else t

/-- One round of the loop over the break records. -/
def BreakTotals.add (work : List Interval) (now : ℤ) (t : BreakTotals) (r : FocusBreakRecord) :
    BreakTotals :=
  (t.addApproval r).addTaken work now r

/-! ## The meeting records -/

/-- What the loop over the meeting records accumulates. -/
structure MeetingTotals where
  rejectedMinusSec : ℤ := 0
  pendingMinusSec : ℤ := 0
  rejectedMeetings : List Interval := []
  deriving DecidableEq, Repr

/-- One round of the loop over the meeting records. -/
def MeetingTotals.add (work : List Interval) (now : ℤ) (t : MeetingTotals)
    (m : FocusMeetingRecord) : MeetingTotals :=
  if m.approvalStatus ≠ .rejected ∧ m.approvalStatus ≠ .pending then t
  else
    let inWork := intersect [m.toStretch.wholeSpan now] work
    let minus := toSec (lengthMs inWork)
    if m.approvalStatus = .rejected then
      { t with
        rejectedMinusSec := t.rejectedMinusSec + minus
        rejectedMeetings := t.rejectedMeetings ++ inWork }
    else { t with pendingMinusSec := t.pendingMinusSec + minus }

/-! ## Offline evidence -/

/-- Pieces of evidence this close together cover the time between. -/
def COVERAGE_JOIN_SEC : ℤ := 120

/-- How one replay session's start and end stretch one piece of evidence near them. -/
def edgesOf (join : ℤ) (r c : Interval) : List Interval :=
  if c.stop < r.start ∨ c.start > r.stop then []
  else
    (if c.start > r.start ∧ c.start - r.start ≤ join then [⟨r.start, c.start⟩] else []) ++
    (if c.stop < r.stop ∧ r.stop - c.stop ≤ join then [⟨c.stop, r.stop⟩] else [])

/-- The parts of the replay sessions inside the work span that no evidence covers, minus
`explained`. -/
def unverifiedIntervals (input : FocusInput) (work explained approved : List Interval) :
    List Interval :=
  let now := input.now
  let replay := (input.sessions.filter fun s => s.replay).map fun s => s.toStretch.wholeSpan now
  if replay = [] then []
  else
    let replayWork := intersect work replay
    if replayWork = [] then []
    else
      let join := COVERAGE_JOIN_SEC * 1000
      let pieces := joinGaps
        ((input.coverage.map fun c => wholeSpan c.startedAt (some c.endedAt) now) ++ approved) join
      let edges := replay.flatMap fun r => pieces.flatMap fun c => edgesOf join r c
      let covered := normalize (pieces ++ edges)
      subtract (subtract replayWork covered) explained

/-! ## The engine -/

namespace FocusInput

variable (input : FocusInput)

/-- The work sessions, merged. -/
def work : List Interval :=
  normalize (input.sessions.map fun s => s.toStretch.wholeSpan input.now)

/-- The presence sessions that are break time: `BREAK` and `LUNCH`. -/
def breakPresence : List FocusPresence :=
  input.presence.filter fun p => p.type = .brk ∨ p.type = .lunch

/-- The break time, on whole seconds. -/
def breaks : List Interval := input.breakPresence.map fun p => p.toStretch.wholeSpan input.now

/-- The meeting time: meeting presence and logged past meetings. -/
def meetings : List Interval :=
  ((input.presence.filter fun p => p.type = .meeting).map
    fun p => p.toStretch.wholeSpan input.now) ++
  ((input.meetingRecords.filter fun m => m.mode = .past).map
    fun m => m.toStretch.wholeSpan input.now)

/-- The away stretches that meet `p`. -/
def awaySpans (p : AwayStatus → Bool) : List Interval :=
  (input.away.filter fun a => p a.status).map fun a => a.toStretch.wholeSpan input.now

/-- Seconds of the away stretches of one status inside `notBreak`. -/
def awaySec (notBreak : List Interval) (status : AwayStatus) : ℤ :=
  toSec (lengthMs (intersect notBreak (input.awaySpans fun s => s = status)))

/-- Manager-approved time: approved away and approved meetings. -/
def approvedEvidence : List Interval :=
  input.awaySpans (fun s => s = .approved) ++
  ((input.meetingRecords.filter fun m => m.approvalStatus = .approved).map
    fun m => m.toStretch.wholeSpan input.now)

/-- The loop over the break records. -/
def breakTotals : BreakTotals :=
  input.breakRecords.foldl (BreakTotals.add input.work input.now) {}

/-- The loop over the meeting records. -/
def meetingTotals : MeetingTotals :=
  input.meetingRecords.foldl (MeetingTotals.add input.work input.now) {}

/-- The buffer in whole seconds. -/
def bufferSec : ℤ := minutesToSec (some input.bufferMin)

end FocusInput

/-- `computeFocus`. -/
def computeFocus (input : FocusInput) : FocusBreakdown :=
  let work := input.work
  let spanSec := toSec (lengthMs work)
  let breakInW := intersect work input.breaks
  let breakSec := toSec (lengthMs breakInW)
  let meetingSec := toSec (lengthMs (intersect work input.meetings))
  let t := input.breakTotals
  -- segment time is capped by the break presence time
  let scheduledTakenSec := min t.scheduledTakenSec breakSec
  let paidScheduledSec := min t.paidScheduledSec scheduledTakenSec
  let quickBreakSec := min t.quickBreakSec (max 0 (breakSec - scheduledTakenSec))
  let otherBreakSec := max 0 (breakSec - scheduledTakenSec - quickBreakSec)
  let bufferUsedSec := min input.bufferSec (t.overrunSec + quickBreakSec + otherBreakSec)
  let m := input.meetingTotals
  let rejectedMinusSec := t.rejectedMinusSec + m.rejectedMinusSec
  let pendingMinusSec := t.pendingMinusSec + m.pendingMinusSec
  let notBreak := subtract work breakInW
  let awayPendingSec := input.awaySec notBreak .pending
  let awayApprovedSec := input.awaySec notBreak .approved
  let awayRejectedSec := input.awaySec notBreak .rejected
  let awayUnexplainedSec := input.awaySec notBreak .unexplained
  let pendingPlusSec := t.pendingPlusSec + awayPendingSec
  let unverified := unverifiedIntervals input work
    (input.awaySpans (fun s => s ≠ .approved) ++ m.rejectedMeetings) input.approvedEvidence
  let unverifiedAllSec := toSec (lengthMs unverified)
  let unverifiedBreakSec := toSec (lengthMs (intersect unverified breakInW))
  let unverifiedSec := unverifiedAllSec - unverifiedBreakSec
  let paidBreakSec :=
    max 0 (min (breakSec - unverifiedBreakSec) (paidScheduledSec + bufferUsedSec))
  let unpaidBreakSec := max 0 (breakSec - paidBreakSec)
  -- what was actually paid: scheduled minutes first, then the buffer
  let paidScheduledShown := min paidScheduledSec paidBreakSec
  let bufferUsedShown := paidBreakSec - paidScheduledShown
  let isOpen := input.sessions.any fun s => s.endedAt.isNone
  let onBreak := input.presence.any fun p =>
    p.endedAt.isNone && (p.type = .brk || p.type = .lunch)
  let adjustedSec := mathRound input.adjustedSec
  let focusSec := max 0 (adjustedSec + spanSec - breakSec - awayPendingSec - awayRejectedSec
    - awayUnexplainedSec + t.approvedPlusSec - rejectedMinusSec - unverifiedSec)
  { focusSec
    running := isOpen && !onBreak
    spanSec
    breakSec
    meetingSec
    approvedPlusSec := t.approvedPlusSec
    pendingPlusSec
    rejectedMinusSec
    pendingMinusSec
    scheduledTakenSec
    paidScheduledSec := paidScheduledShown
    overrunSec := t.overrunSec
    quickBreakSec
    otherBreakSec
    bufferUsedSec := bufferUsedShown
    paidBreakSec
    unpaidBreakSec
    awayPendingSec
    awayApprovedSec
    awayRejectedSec
    awayUnexplainedSec
    unverifiedSec
    paidSec := focusSec + paidBreakSec
    adjustedSec }

end RxVision
