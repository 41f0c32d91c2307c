import RxVision.Lib.Text
import RxVision.Records.Breaks
import RxVision.Shifts.AutoSkips
import RxVision.Worktime.CloseOrder

/-!
# End Day (`EndDayFlow`, `SkipsService`, `WorkSessionsService.endDay`)

End Day judges the comments and its gates first (`EndDay.judge`) and then writes in several
transactions: the auto-skips it owes, one comment after another, the paused breaks, the session and
its marks (`EndDay.execute`). Two refusals come only with the writes: a comment on a waiting skip of
a locked month, and a day that has not started. `refused_endDay_unchanged_iff` says when a refused
End Day leaves everything as it was.

What a successful End Day sends and stamps afterwards (`EndDayUseCase.finish`) is left out.
-/

namespace RxVision

/-! ## Break records -/

/-- A row of `break_records` as End Day reads and writes it. -/
structure BreakRow extends DayRecord where
  id : ℕ
  reason : Option String := none
  commentedAt : Option ℤ := none
  decidedById : Option ℕ := none
  state : BreakState := .ended
  segments : List BreakSegmentRow := []
  endedAt : Option ℤ := none
  takenSec : Option ℤ := none
  deriving DecidableEq

namespace BreakRow

/-- `isSkipRecord`. -/
def isSkipRecord (r : BreakRow) : Bool := r.outcome = .skipped || r.outcome = .autoSkipped

/-- `needsComment`, of a scheduled break. -/
def needsComment (r : BreakRow) : Bool :=
  r.isSkipRecord && r.kind.isSome && r.reason.isNone && r.approvalStatus = .pending

/-- `segmentsOf`. -/
def segmentsOf (r : BreakRow) : List BreakSegmentRow :=
  if !r.segments.isEmpty then r.segments
  else if r.outcome ≠ .taken then []
  else [⟨r.startedAt, r.endedAt⟩]

/-- `takenSecOf`. -/
def takenSecOf (r : BreakRow) (now : ℤ) : ℤ :=
  (r.segmentsOf.map fun g => max 0 (g.endedAt.getD now - g.startedAt)).sum / 1000

/-- `endPausedTx`, on a paused row. -/
def endPaused (r : BreakRow) (now : ℤ) : BreakRow :=
  { r with
    state := .ended
    endedAt := some (Spans.lastOr (r.segments.filterMap BreakSegmentRow.endedAt) r.startedAt)
    takenSec := some (r.takenSecOf now) }

end BreakRow

/-- The notices End Day sends about break records (`NOTICE`). -/
inductive SkipNoticeType
  | autoSkipRequested | skipCommentAdded
  deriving DecidableEq

/-- A notice to some people about a break record. -/
structure SkipNotice where
  type : SkipNoticeType
  recipients : List ℕ
  recordId : ℕ
  deriving DecidableEq

/-! ## What End Day reads -/

/-- What a call of End Day finds besides the tables it writes: the caller, the shifts, the months,
the items waiting for the caller. -/
structure EndDayContext where
  me : ShiftPerson
  shifts : ResolutionContext
  tz : Zone
  closeRules : CloseRules
  /-- `autoSkipId` of the caller. -/
  autoSkipId : DateKey → BreakKind → ℕ
  /-- `isMonthLocked` of a person and a date. -/
  monthLocked : ℕ → DateKey → Bool
  /-- `BreakEventsService.recipientsFor`. -/
  recipientsFor : DayRecord → List ℕ
  /-- `blockManagerEndDayWhenOverdue` of the caller's organisation. -/
  blockManagerEndDayWhenOverdue : Bool
  /-- The items waiting for the caller past their time; none where the caller decides nothing. -/
  overdueIn : ℤ → Option ℕ

/-- The tables End Day writes. `db` has the caller's sessions, End Day marks and presence. -/
structure EndDayWorld where
  db : Db
  samples : Samples
  records : List BreakRow
  notices : List SkipNotice

/-- An End Day comment. -/
structure EndDayComment where
  breakId : ℕ
  comment : String
  deriving DecidableEq

/-- `CommentProblem`, with the detail of `TOO_SHORT`. -/
inductive CommentProblem
  | notFound | notASkip | tooShort (minChars : ℕ) | tooLong | duplicate
  deriving DecidableEq

/-- Why End Day is refused: the code of the error and its details. -/
inductive EndDayRefusal
  | eventTimeInvalid
  | commentInvalid (breakId : ℕ) (problem : CommentProblem)
  | approvalsOverdue (count : ℕ)
  | skipCommentsRequired (breaks : List ℕ)
  | monthLocked (date : DateKey)
  | dayNotStarted
  deriving DecidableEq

/-- `CheckedComment`. -/
structure CheckedComment where
  id : ℕ
  text : String
  deriving DecidableEq

/-- `REASON_MAX_CHARS`. -/
def REASON_MAX_CHARS : ℕ := 500

/-- `DEFAULT_REASON_MIN_CHARS`. -/
def DEFAULT_REASON_MIN_CHARS : ℕ := 10

/-- `COMMENT_LOOKBACK_DAYS`. -/
def COMMENT_LOOKBACK_DAYS : ℤ := 31

/-- `LAST_ENDED_WITHIN_MS`. -/
def LAST_ENDED_WITHIN_MS : ℤ := 12 * 3600000

/-- The length of a string: its UTF-16 code units. -/
def unitLength (s : String) : ℕ :=
  s.toList.foldl (fun n c => n + if c.toNat < 0x10000 then 1 else 2) 0

/-- `cleanReason`: each run of blanks is one space, none at the ends; nothing for an empty text. -/
def cleanReason (text : String) : Option String :=
  let squashed := text.toList.foldr (fun c cs =>
    if isSpace c then (if cs.head? = some ' ' then cs else ' ' :: cs) else c :: cs) []
  let t := trim (String.ofList squashed)
  if t = "" then none else some t

namespace EndDay

variable (ctx : EndDayContext) (w : EndDayWorld) (now : ℤ)

/-- `minCharsFor`. -/
def minCharsFor (shiftId : Option ℕ) : ℕ :=
  ((shiftId.bind ctx.shifts.shiftsById).map fun s => s.reasonMinChars.toNat).getD
    DEFAULT_REASON_MIN_CHARS

/-! ## Judging -/

/-- `planAutoSkipsFor`, ending the day: the owed breaks without a record. -/
def planAutoSkipsFor : List BreakRow :=
  if !ctx.me.active then []
  else
    let day := dayWith ctx.shifts ctx.me.toPersonForShift now ctx.tz
    match day.resolved.shift, (day.slots.map BreakSlot.windowOpen).min? with
    | some shift, some earliest =>
      let recorded := (w.records.filter fun r =>
        r.userId = ctx.me.id && r.date = day.dateKey).filterMap fun r => r.kind
      let sessions := (w.db.workSessions.rows.filter fun s =>
        s.startedAt ≤ now && s.endedAt.all fun e => earliest ≤ e).map fun s =>
          ({ userId := ctx.me.id, date := s.date, startedAt := s.startedAt, endedAt := s.endedAt } :
            UserSession)
      let route := BreakApprovalPolicy.route ctx.me.role ctx.me.departmentId
      (planAutoSkips day.slots recorded sessions now true).map fun plan => {
        id := ctx.autoSkipId day.dateKey plan.kind
        userId := ctx.me.id
        date := day.dateKey
        kind := some plan.kind
        outcome := .autoSkipped
        startedAt := plan.startedAt
        slot := day.slots.find? fun slot => slot.kind = plan.kind
        shiftId := some shift.id
        approvalStatus := route.1
        routing := route.2 }
    | _, _ => []

/-- One comment against its record: the text to write, none when the record has a reason. -/
def checkComment (planned : List BreakRow) (c : EndDayComment) :
    Except CommentProblem (Option CheckedComment) :=
  let checkText := fun r : BreakRow =>
    if r.reason.any fun reason => reason ≠ "" then .ok none
    else
      let minChars := minCharsFor ctx r.shiftId
      let text := (cleanReason c.comment).getD ""
      if unitLength text < minChars then .error (.tooShort minChars)
      else if unitLength text > REASON_MAX_CHARS then .error .tooLong
      else .ok (some ⟨r.id, text⟩)
  match planned.find? fun r => r.id = c.breakId with
  | some r => checkText r
  | none =>
    match w.records.find? fun r => r.id = c.breakId with
    | none => .error .notFound
    | some r =>
      if r.userId ≠ ctx.me.id then .error .notFound
      else if !r.isSkipRecord then .error .notASkip
      else checkText r

/-- `checkEndDayComments`; `seen` are the ids of the comments before. -/
def checkEndDayComments (planned : List BreakRow) :
    List EndDayComment → List ℕ → Except EndDayRefusal (List CheckedComment)
  | [], _ => .ok []
  | c :: cs, seen =>
    if seen.contains c.breakId then .error (.commentInvalid c.breakId .duplicate)
    else
      match checkComment ctx w planned c with
      | .error problem => .error (.commentInvalid c.breakId problem)
      | .ok checked =>
        match checkEndDayComments planned cs (c.breakId :: seen) with
        | .error refusal => .error refusal
        | .ok rest => .ok (checked.toList ++ rest)

/-- `assertNoOverdueApprovals`. -/
def assertNoOverdueApprovals : Except EndDayRefusal Unit :=
  if ctx.me.role = .manager && ctx.blockManagerEndDayWhenOverdue then
    match ctx.overdueIn now with
    | some (count + 1) => .error (.approvalsOverdue (count + 1))
    | _ => .ok ()
  else .ok ()

/-- `assertSkipsCommented`: the skips waiting for a comment and the auto-skips to come, less
the ones commented now. -/
def assertSkipsCommented (planned : List BreakRow) (checked : List CheckedComment) :
    Except EndDayRefusal Unit :=
  let from' := addDaysToKey (dateKeyInZone now ctx.tz) (-(COMMENT_LOOKBACK_DAYS - 1))
  let waiting := w.records.filter fun r =>
    r.userId = ctx.me.id && from'.day ≤ r.date.day && r.needsComment
  let owed := planned.filter fun r => r.approvalStatus = .pending
  let breaks := ((waiting ++ owed).map BreakRow.id).filter fun id =>
    !checked.any fun c => c.id = id
  if breaks.isEmpty then .ok () else .error (.skipCommentsRequired breaks)

/-- The checks of End Day, before it writes: the auto-skips it owes and the comments to write. -/
def judge (comments : List EndDayComment) (generation : AgentGeneration) :
    Except EndDayRefusal (List BreakRow × List CheckedComment) := do
  let openSession := w.db.findOpen
  if openSession.any fun s => s.startedAt > now then throw .eventTimeInvalid
  let planned := planAutoSkipsFor ctx w now
  let checked ← checkEndDayComments ctx w planned comments []
  if generation = .agent31 && openSession.isSome then
    assertNoOverdueApprovals ctx now
    assertSkipsCommented ctx w now planned checked
  return (planned, checked)

/-! ## Writing -/

/-- `createAutoSkips` takes a record: it is not a waiting one of a locked month, and no row has its
id or its person, date and kind. -/
def creatable (records : List BreakRow) (r : BreakRow) : Bool :=
  !(r.approvalStatus = .pending && ctx.monthLocked r.userId r.date) &&
    !records.any fun x => x.id = r.id || r.kind.any fun kind => x.isOf r.userId r.date kind

/-- `createAutoSkips`: the rows that are created. -/
def createAutoSkips : List BreakRow → List BreakRow → List BreakRow
  | _, [] => []
  | records, r :: rs =>
    if creatable ctx records r then r :: createAutoSkips (records ++ [r]) rs
    else createAutoSkips records rs

/-- `publish`: nothing without recipients. -/
def noticeTo (type : SkipNoticeType) (recipients : List ℕ) (r : BreakRow) : List SkipNotice :=
  if recipients.isEmpty then [] else [⟨type, recipients, r.id⟩]

/-- `createPlanned`. -/
def createPlanned (planned : List BreakRow) : EndDayWorld :=
  let created := createAutoSkips ctx w.records planned
  { w with
    records := w.records ++ created
    notices := w.notices ++ (created.filter fun r => r.approvalStatus = .pending).flatMap fun r =>
      noticeTo .autoSkipRequested (ctx.recipientsFor r.toDayRecord) r }

/-- A comment on this record meets a locked month: `addComment` refuses a waiting skip of it. -/
def stops (id : ℕ) : Bool :=
  (w.records.find? fun r => r.id = id).any fun r =>
    r.approvalStatus = .pending && ctx.monthLocked r.userId r.date

/-- The skip takes a comment: it has none. -/
def takes (id : ℕ) : Bool :=
  (w.records.find? fun r => r.id = id).any fun r => r.reason.isNone && r.isSkipRecord

/-- The row `r` with the comment of record `id`. -/
def withComment (id : ℕ) (comment : String) (r : BreakRow) : BreakRow :=
  if r.id = id && r.reason.isNone && r.isSkipRecord then
    { r with reason := some comment, commentedAt := some now }
  else r

/-- `addComment`: the row with the comment, none when it took none. -/
def addComment (id : ℕ) (comment : String) : Except EndDayRefusal (Option BreakRow × EndDayWorld) :=
  match w.records.find? fun r => r.id = id with
  | none => .ok (none, w)
  | some current =>
    if current.approvalStatus = .pending && ctx.monthLocked current.userId current.date then
      .error (.monthLocked current.date)
    else if current.reason.isNone && current.isSkipRecord then
      .ok (some (withComment now id comment current),
        { w with records := w.records.map (withComment now id comment) })
    else .ok (none, w)

/-- `commented`: who waits for the skip hears of its comment, else who decided it. -/
def commented (r : BreakRow) : EndDayWorld :=
  let recipients :=
    if r.approvalStatus = .pending then ctx.recipientsFor r.toDayRecord
    else (r.decidedById.filter fun id => id ≠ ctx.me.id).toList
  { w with notices := w.notices ++ noticeTo .skipCommentAdded recipients r }

/-- `writeEndDayComments`: a refused comment keeps the ones before it. -/
def writeEndDayComments : EndDayWorld → List CheckedComment → Option EndDayRefusal × EndDayWorld
  | w, [] => (none, w)
  | w, c :: cs =>
    match addComment ctx w now c.id c.text with
    | .error refusal => (some refusal, w)
    | .ok (none, w') => writeEndDayComments w' cs
    | .ok (some r, w') => writeEndDayComments (commented ctx w' r) cs

/-- A paused break of the caller. -/
def isPaused (r : BreakRow) : Bool := r.userId = ctx.me.id && r.state = .paused

/-- `endPaused`. -/
def endPaused : EndDayWorld :=
  { w with records := w.records.map fun r => if isPaused ctx r then r.endPaused now else r }

/-- `todayFor`. -/
def todayFor : DateKey := (dayWith ctx.shifts ctx.me.toPersonForShift now ctx.tz).dateKey

/-- `WorkSessionsService.endDay`. -/
def endDay (generation : AgentGeneration) : EndDayTxResult × EndDayWorld :=
  let w := endPaused ctx w now
  let result := w.db.endDay (fun t => dateKeyInZone t ctx.tz) now (todayFor ctx now)
    (generation = .legacy) (now - LAST_ENDED_WITHIN_MS)
  (result.1, { w with db := result.2 })

/-! ## The flow -/

/-- The auto-skips an automatic close at `t` drops. -/
def isDropped (date : DateKey) (t : ℤ) (r : BreakRow) : Bool :=
  r.userId = ctx.me.id && r.date = date && r.outcome = .autoSkipped &&
    r.slot.any (fun slot => slot.scheduledStart > t) &&
    r.approvalStatus ≠ .approved && r.approvalStatus ≠ .rejected

/-- `autoCloseIfStale`, without its notices. -/
def autoCloseIfStale : EndDayWorld :=
  match w.db.findOpen with
  | none => w
  | some s =>
    let latestEnd := ctx.closeRules.latestEndOfSession s
    if isStale latestEnd now then
      let t :=
        autoCloseAt s.startedAt latestEnd (w.samples.lastInput s.startedAt (max now latestEnd))
      { w with
        db := (w.db.autoClose s t).2
        records := w.records.filter fun r => !isDropped ctx s.date t r }
    else w

/-- What End Day answers. -/
inductive Answer
  | refused (refusal : EndDayRefusal)
  | ended (result : EndDayTxResult)
  deriving DecidableEq

/-- `EndDayFlow.execute` after the check for a stale session. -/
def judgeAndWrite (comments : List EndDayComment) (generation : AgentGeneration) :
    Answer × EndDayWorld :=
  match judge ctx w now comments generation with
  | .error refusal => (.refused refusal, w)
  | .ok (planned, checked) =>
    match writeEndDayComments ctx now (createPlanned ctx w planned) checked with
    | (some refusal, w') => (.refused refusal, w')
    | (none, w') =>
      match endDay ctx w' now generation with
      | (.notStarted _, w'') => (.refused .dayNotStarted, w'')
      | (result, w'') => (.ended result, w'')

/-- `EndDayFlow.execute`. -/
def execute (comments : List EndDayComment) (generation : AgentGeneration) : Answer × EndDayWorld :=
  judgeAndWrite ctx (autoCloseIfStale ctx w now) now comments generation

/-! ## When a refusal is late -/

/-- The day of some tables can be ended: a session is open, the agent has no Start Day, or the day
was ended, today or since `endedSince`. -/
def dayCanEnd (db : Db) (today : DateKey) (legacy : Bool) (endedSince : ℤ) : Bool :=
  db.findOpen.isSome || legacy || (db.workDayEnds today).isSome ||
    db.workSessions.rows.any fun s => s.endedAt.any fun e => s.date = today || endedSince ≤ e

/-- The day can be ended now. -/
def canEnd (generation : AgentGeneration) : Bool :=
  dayCanEnd w.db (todayFor ctx now) (generation = .legacy) (now - LAST_ENDED_WITHIN_MS)

/-- The first comment that is not passed over is refused; where there is none, no break of
the caller is paused. -/
def nothingBefore (checked : List CheckedComment) : Bool :=
  match checked.find? fun c => stops ctx w c.id || takes w c.id with
  | some c => stops ctx w c.id
  | none => !w.records.any (isPaused ctx)

/-- An End Day that passes its checks goes through, or has nothing to write before it is refused. -/
def GoesThrough (comments : List EndDayComment) (generation : AgentGeneration) : Prop :=
  ∀ planned checked, judge ctx w now comments generation = .ok (planned, checked) →
    (canEnd ctx w now generation = true ∧ ∀ c ∈ checked, stops ctx w c.id = false) ∨
      (∀ r ∈ planned, creatable ctx w.records r = false) ∧ nothingBefore ctx w checked = true

/-! ## Creating the auto-skips -/

section Create

variable {ctx} {w} {records planned : List BreakRow}

/-- No auto-skip is created when the table as it is takes none of them. -/
theorem createAutoSkips_eq_nil :
    createAutoSkips ctx records planned = [] ↔ ∀ r ∈ planned, creatable ctx records r = false := by
  induction planned with
  | nil => simp [createAutoSkips]
  | cons r rs ih =>
    simp only [createAutoSkips, List.forall_mem_cons]
    split
    · next h => simp [h]
    · next h => rw [ih]; simp [h]

/-- An auto-skip that is created meets no locked month: in a locked one it waits for
nobody or is left out. -/
theorem open_of_mem_createAutoSkips {r : BreakRow} (h : r ∈ createAutoSkips ctx records planned) :
    (r.approvalStatus = .pending && ctx.monthLocked r.userId r.date) = false := by
  induction planned generalizing records with
  | nil => cases h
  | cons r' rs ih =>
    simp only [createAutoSkips] at h
    split at h
    · next hc =>
      rcases List.mem_cons.1 h with rfl | h
      · simp only [creatable, Bool.and_eq_true, Bool.not_eq_true'] at hc
        exact hc.1
      · exact ih h
    · exact ih h

/-- The auto-skips that are created change nothing about which comments are refused. -/
theorem stops_createPlanned (planned : List BreakRow) (id : ℕ) :
    stops ctx (createPlanned ctx w planned) id = stops ctx w id := by
  simp only [stops, createPlanned, List.find?_append]
  cases w.records.find? fun r => r.id = id with
  | some r => rfl
  | none =>
    cases hnew : (createAutoSkips ctx w.records planned).find? fun r => r.id = id with
    | none => rfl
    | some r =>
      simpa using open_of_mem_createAutoSkips (List.mem_of_find?_eq_some hnew)

/-- With nothing to create the world stays. -/
theorem createPlanned_eq_self (h : ∀ r ∈ planned, creatable ctx w.records r = false) :
    createPlanned ctx w planned = w := by
  have hnil := createAutoSkips_eq_nil.2 h
  simp [createPlanned, hnil]

end Create

/-! ## Writing the comments -/

section Comments

variable {ctx} {w} {now} {id : ℕ} {comment : String}

/-- A comment keeps the record's id. -/
@[simp] theorem withComment_id (r : BreakRow) : (withComment now id comment r).id = r.id := by
  unfold withComment
  split <;> rfl

/-- Changing rows but not their ids changes the row that an id finds. -/
theorem find?_map_id {f : BreakRow → BreakRow} (hf : ∀ r, (f r).id = r.id) (l : List BreakRow)
    (id : ℕ) : ((l.map f).find? fun r => r.id = id) = (l.find? fun r => r.id = id).map f := by
  have hcomp : (fun r : BreakRow => decide (r.id = id)) ∘ f = fun r => decide (r.id = id) := by
    funext r
    simp [hf]
  rw [List.find?_map, hcomp]

/-- A comment changes nothing about which comments are refused. -/
theorem stops_withComment (id' : ℕ) (r : BreakRow) :
    stops ctx (commented ctx { w with records := w.records.map (withComment now id comment) } r)
    id' =
      stops ctx w id' := by
  simp only [stops, commented, find?_map_id withComment_id, Option.any_map]
  congr 1
  funext r
  simp only [withComment]
  split <;> rfl

/-- A comment on a waiting skip of a locked month is refused. -/
theorem addComment_of_stops (now : ℤ) (comment : String) (h : stops ctx w id = true) :
    ∃ date, addComment ctx w now id comment = .error (.monthLocked date) := by
  unfold stops at h
  unfold addComment
  cases hr : w.records.find? fun r => r.id = id with
  | none => simp [hr] at h
  | some r =>
    rw [hr, Option.any_some] at h
    exact ⟨r.date, if_pos h⟩

/-- A skip without a comment takes it, and nothing else changes. -/
theorem addComment_of_takes (now : ℤ) (comment : String) (h : stops ctx w id = false)
    (ht : takes w id = true) : ∃ r, addComment ctx w now id comment =
      .ok (some r, { w with records := w.records.map (withComment now id comment) }) := by
  unfold stops at h
  unfold takes at ht
  unfold addComment
  cases hr : w.records.find? fun r => r.id = id with
  | none => simp [hr] at ht
  | some r =>
    rw [hr, Option.any_some] at h ht
    simp only [h, ht, Bool.false_eq_true, if_false, if_true]
    exact ⟨_, rfl⟩

/-- Any other comment is passed over: its break is no skip, or has a comment already. -/
theorem addComment_of_not_takes (h : stops ctx w id = false) (ht : takes w id = false) :
    addComment ctx w now id comment = .ok (none, w) := by
  unfold stops at h
  unfold takes at ht
  unfold addComment
  cases hr : w.records.find? fun r => r.id = id with
  | none => rfl
  | some r =>
    rw [hr, Option.any_some] at h ht
    simp only [h, ht, Bool.false_eq_true, if_false]

/-- The comments are written to the last one unless one of them is refused, and then
up to that one. -/
theorem writeEndDayComments_fst (checked : List CheckedComment) :
    (writeEndDayComments ctx now w checked).1 = none ↔ ∀ c ∈ checked, stops ctx w c.id = false := by
  induction checked generalizing w with
  | nil => simp [writeEndDayComments]
  | cons c cs ih =>
    rw [List.forall_mem_cons]
    cases hs : stops ctx w c.id with
    | true =>
      obtain ⟨date, h⟩ := addComment_of_stops now c.text hs
      simp [writeEndDayComments, h]
    | false =>
      cases ht : takes w c.id with
      | true =>
        obtain ⟨r, h⟩ := addComment_of_takes now c.text hs ht
        simp only [writeEndDayComments, h, ih, stops_withComment, true_and]
      | false =>
        simp only [writeEndDayComments, addComment_of_not_takes hs ht, ih, true_and]

/-- The break record has a comment. -/
def isCommented (w : EndDayWorld) (id : ℕ) : Bool :=
  (w.records.find? fun r => r.id = id).any fun r => r.reason.isSome

/-- What writing comments and ending paused breaks keeps. -/
structure Kept (w w' : EndDayWorld) : Prop where
  db : w'.db = w.db
  length : w'.records.length = w.records.length
  commented : ∀ id, isCommented w id = true → isCommented w' id = true

/-- Nothing changes. -/
theorem Kept.refl (w : EndDayWorld) : Kept w w := ⟨rfl, rfl, fun _ h => h⟩

/-- What two steps keep, both keep. -/
theorem Kept.trans {w₁ w₂ w₃ : EndDayWorld} (h : Kept w₁ w₂) (h' : Kept w₂ w₃) : Kept w₁ w₃ :=
  ⟨h'.db.trans h.db, h'.length.trans h.length, fun id hid => h'.commented id (h.commented id hid)⟩

/-- Changing rows that keep their id, and their reason once they have one, keeps what
was written. -/
theorem Kept.map {f : BreakRow → BreakRow} {w' : EndDayWorld}
    (hrecords : w'.records = w.records.map f) (hdb : w'.db = w.db) (hid : ∀ r, (f r).id = r.id)
    (hreason : ∀ r, r.reason.isSome = true → (f r).reason.isSome = true) : Kept w w' where
  db := hdb
  length := by rw [hrecords, List.length_map]
  commented := by
    intro id hcommented
    unfold isCommented at hcommented ⊢
    rw [hrecords, find?_map_id hid]
    cases hr : w.records.find? fun r => r.id = id with
    | none => simp [hr] at hcommented
    | some r =>
      rw [hr] at hcommented
      exact hreason r hcommented

/-- A comment on a skip keeps the day. -/
theorem kept_withComment (r : BreakRow) :
    Kept w (commented ctx { w with records := w.records.map (withComment now id comment) } r) := by
  refine Kept.map rfl rfl withComment_id fun r hr => ?_
  unfold withComment
  split
  · rfl
  · exact hr

/-- The comments of an End Day keep what was written before them: no comment is taken back. -/
theorem kept_writeEndDayComments (checked : List CheckedComment) :
    Kept w (writeEndDayComments ctx now w checked).2 := by
  induction checked generalizing w with
  | nil => exact .refl w
  | cons c cs ih =>
    cases hs : stops ctx w c.id with
    | true =>
      obtain ⟨date, h⟩ := addComment_of_stops now c.text hs
      simp only [writeEndDayComments, h]
      exact .refl w
    | false =>
      cases ht : takes w c.id with
      | true =>
        obtain ⟨r, h⟩ := addComment_of_takes now c.text hs ht
        simp only [writeEndDayComments, h]
        exact (kept_withComment r).trans ih
      | false =>
        simp only [writeEndDayComments, addComment_of_not_takes hs ht]
        exact ih

/-- So does ending the paused breaks. -/
theorem kept_endPaused : Kept w (endPaused ctx w now) := by
  refine Kept.map rfl rfl (fun r => ?_) fun r hr => ?_
  · split <;> rfl
  · split
    · exact hr
    · exact hr

/-- A skip that took a comment has one afterwards, and had none before. -/
theorem isCommented_of_takes (now : ℤ) (comment : String) (h : takes w id = true) :
    isCommented w id = false ∧
      isCommented { w with records := w.records.map (withComment now id comment) } id = true := by
  unfold takes at h
  unfold isCommented
  simp only [find?_map_id withComment_id]
  cases hr : w.records.find? fun r => r.id = id with
  | none => simp [hr] at h
  | some r =>
    have hid : r.id = id := by simpa using List.find?_some hr
    rw [hr, Option.any_some, Bool.and_eq_true] at h
    simp only [Option.any_some, Option.map_some, withComment, hid, h.1, h.2, decide_true,
      Bool.and_true, if_true]
    exact ⟨by simpa using h.1, rfl⟩

/-- Which skips have a comment is read off the records. -/
theorem isCommented_congr {w' : EndDayWorld} (h : w'.records = w.records) :
    isCommented w' id = isCommented w id := by
  rw [isCommented, h, isCommented]

/-- When the first comment that is not passed over is refused, or there is none, nothing
is written. -/
theorem writeEndDayComments_snd {checked : List CheckedComment}
    (h : ∀ c, (checked.find? fun c => stops ctx w c.id || takes w c.id) = some c →
      stops ctx w c.id = true) : (writeEndDayComments ctx now w checked).2 = w := by
  induction checked with
  | nil => rfl
  | cons c cs ih =>
    rw [List.find?_cons] at h
    cases hs : stops ctx w c.id with
    | true =>
      obtain ⟨date, hadd⟩ := addComment_of_stops now c.text hs
      simp only [writeEndDayComments, hadd]
    | false =>
      cases ht : takes w c.id with
      | true =>
        rw [hs, ht] at h
        rw [h c rfl] at hs
        cases hs
      | false =>
        rw [hs, ht] at h
        simp only [writeEndDayComments, addComment_of_not_takes hs ht]
        exact ih h

/-- When the first comment that is not passed over is taken, it stays, so the records are
not what they were. -/
theorem writeEndDayComments_ne {checked : List CheckedComment} {c : CheckedComment}
    (h : (checked.find? fun c => stops ctx w c.id || takes w c.id) = some c)
    (hs : stops ctx w c.id = false) {w' : EndDayWorld}
    (hkept : Kept (writeEndDayComments ctx now w checked).2 w') : w'.records ≠ w.records := by
  induction checked with
  | nil => cases h
  | cons c' cs ih =>
    rw [List.find?_cons] at h
    cases hs' : stops ctx w c'.id with
    | true =>
      rw [hs'] at h
      obtain rfl := Option.some.inj h
      rw [hs] at hs'
      cases hs'
    | false =>
      cases ht : takes w c'.id with
      | true =>
        rw [hs', ht] at h
        obtain rfl := Option.some.inj h
        obtain ⟨r, hadd⟩ := addComment_of_takes now c'.text hs' ht
        simp only [writeEndDayComments, hadd] at hkept
        obtain ⟨hbefore, hafter⟩ := isCommented_of_takes now c'.text ht
        intro heq
        have hstays := hkept.commented c'.id ((kept_writeEndDayComments cs).commented c'.id hafter)
        rw [isCommented_congr heq, hbefore] at hstays
        cases hstays
      | false =>
        rw [hs', ht] at h
        simp only [writeEndDayComments, addComment_of_not_takes hs' ht] at hkept
        exact ih h hkept

end Comments

/-! ## Ending the day -/

section End

variable {ctx} {w} {now} {generation : AgentGeneration}

/-- With nothing paused the day closes as it is. -/
theorem endPaused_eq_self (h : w.records.any (isPaused ctx) = false) : endPaused ctx w now = w := by
  have hmap :
      (w.records.map fun r => if isPaused ctx r then r.endPaused now else r) = w.records := by
    conv_rhs => rw [← List.map_id w.records]
    refine List.map_congr_left fun r hr => ?_
    have hnot := List.any_eq_false.1 h r hr
    simp [hnot]
  simp only [endPaused, hmap]

/-- No break of the caller stays paused. -/
theorem any_isPaused_endPaused : (endPaused ctx w now).records.any (isPaused ctx) = false := by
  rw [List.any_eq_false]
  intro r hr
  obtain ⟨r₀, -, rfl⟩ := List.mem_map.1 hr
  split
  · simp [isPaused, BreakRow.endPaused]
  · assumption

section Day

variable {db : Db} {today : DateKey} {legacy : Bool} {endedSince : ℤ}

/-- A day that cannot be ended is answered as not started and left as it is. -/
theorem endDay_of_not_canEnd (calendarOf : DayKeyFn)
    (h : dayCanEnd db today legacy endedSince = false) :
    db.endDay calendarOf now today legacy endedSince = (.notStarted today, db) := by
  simp only [dayCanEnd, Bool.or_eq_false_iff, Option.isSome_eq_false_iff, Option.isNone_iff_eq_none,
    List.any_eq_false, Option.any_eq_true, not_exists, not_and, Bool.not_eq_true] at h
  obtain ⟨⟨⟨hopen, rfl⟩, hmark⟩, hnone⟩ := h
  have htoday : db.workSessions.findLast? (fun s => s.date = today ∧ s.endedAt.isSome)
      (fun s => s.endedAt.getD 0) = none := by
    refine Table.findLast?_eq_none.2 fun s hs => decide_eq_false fun hends => ?_
    obtain ⟨e, he⟩ := Option.isSome_iff_exists.1 hends.2
    simpa [hends.1] using hnone s hs e he
  have hrecent : db.workSessions.findLast? (fun s => s.endedAt.any fun e => e ≥ endedSince)
      (fun s => s.endedAt.getD 0) = none := by
    refine Table.findLast?_eq_none.2 fun s hs => ?_
    cases he : s.endedAt with
    | none => rfl
    | some e =>
      have hnot : s.date ≠ today ∧ e < endedSince := by simpa using hnone s hs e he
      exact decide_eq_false (not_le.2 hnot.2)
  simp only [Db.endDay, hopen, hmark, htoday, hrecent, Option.bind_none,
    Bool.false_eq_true, if_false]

/-- A day that can be ended is not answered as one that has not started. -/
theorem endDay_of_canEnd (calendarOf : DayKeyFn) (h : dayCanEnd db today legacy endedSince = true)
    (date : DateKey) : (db.endDay calendarOf now today legacy endedSince).1 ≠ .notStarted date := by
  unfold Db.endDay
  cases hopen : db.findOpen with
  | some s => exact nofun
  | none =>
    cases hmark : db.workDayEnds today with
    | some e => exact nofun
    | none =>
      dsimp only
      split
      · exact nofun
      · next htoday =>
        split
        · exact nofun
        · next hlegacy =>
          split
          · exact nofun
          · next hrecent =>
            exfalso
            simp only [dayCanEnd, hopen, hmark, hlegacy, Option.isSome_none, Bool.false_or,
              List.any_eq_true, Option.any_eq_true, Bool.or_eq_true, decide_eq_true_eq] at h
            obtain ⟨s, hs, e, he, hdate | hsince⟩ := h
            · cases hlast : db.workSessions.findLast? (fun s => s.date = today ∧ s.endedAt.isSome)
                fun s => s.endedAt.getD 0 with
              | none =>
                have := Table.findLast?_eq_none.1 hlast s hs
                simp [hdate, he] at this
              | some s' =>
                have hends := (Table.mem_of_findLast? hlast).2
                rw [hlast] at htoday
                simp only [Option.bind_some] at htoday
                simp [htoday] at hends
            · have := Table.findLast?_eq_none.1 hrecent s hs
              simp only [he, Option.any_some, decide_eq_false_iff_not] at this
              exact this hsince

end Day

/-- A day that cannot be ended: only the paused breaks end. -/
theorem endDay_late (h : canEnd ctx w now generation = false) :
    endDay ctx w now generation = (.notStarted (todayFor ctx now), endPaused ctx w now) := by
  have hday : w.db.endDay (fun t => dateKeyInZone t ctx.tz) now (todayFor ctx now)
      (generation = .legacy) (now - LAST_ENDED_WITHIN_MS) =
        (.notStarted (todayFor ctx now), w.db) :=
    endDay_of_not_canEnd _ h
  simp only [endDay, endPaused, hday]

/-- A day that can be ended is. -/
theorem endDay_through (h : canEnd ctx w now generation = true) (date : DateKey) :
    (endDay ctx w now generation).1 ≠ .notStarted date :=
  endDay_of_canEnd _ h date

/-- Whether the day can end is read off the tables. -/
theorem canEnd_congr {w' : EndDayWorld} (h : w'.db = w.db) :
    canEnd ctx w' now generation = canEnd ctx w now generation := by
  rw [canEnd, h, canEnd]

end End

/-! ## The theorem -/

section Flow

variable {ctx} {w} {now} {comments : List EndDayComment} {generation : AgentGeneration}
  {planned : List BreakRow} {checked : List CheckedComment}

/-- Records as they were: no auto-skip was created. -/
theorem not_creatable_of_kept {w' : EndDayWorld} (hkept : Kept (createPlanned ctx w planned) w')
    (h : w'.records = w.records) : ∀ r ∈ planned, creatable ctx w.records r = false := by
  have hlen := hkept.length
  rw [h] at hlen
  simp only [createPlanned, List.length_append] at hlen
  exact createAutoSkips_eq_nil.1 (List.eq_nil_of_length_eq_zero (by omega))

/-- Records as they were, after comments that stay: the first that is not passed over
was refused. -/
theorem stops_of_kept {w' : EndDayWorld}
    (hkept : Kept (writeEndDayComments ctx now (createPlanned ctx w planned) checked).2 w')
    (h : w'.records = w.records) :
    (∀ r ∈ planned, creatable ctx w.records r = false) ∧
      ∀ c, (checked.find? fun c => stops ctx w c.id || takes w c.id) = some c →
        stops ctx w c.id = true := by
  have hnone := not_creatable_of_kept ((kept_writeEndDayComments checked).trans hkept) h
  rw [createPlanned_eq_self hnone] at hkept
  refine ⟨hnone, fun c hc => ?_⟩
  cases hs : stops ctx w c.id with
  | true => rfl
  | false => exact absurd h (writeEndDayComments_ne hc hs hkept)

/-- End Day after its checks: a comment is refused and what came before it stays written, or all are
written and the day is ended. -/
theorem judgeAndWrite_of_ok (hj : judge ctx w now comments generation = .ok (planned, checked)) :
    (∃ refusal, judgeAndWrite ctx w now comments generation =
        (.refused refusal, (writeEndDayComments ctx now (createPlanned ctx w planned) checked).2) ∧
      ∃ c ∈ checked, stops ctx w c.id = true) ∨
    (∀ c ∈ checked, stops ctx w c.id = false) ∧
      ((canEnd ctx w now generation = false ∧ judgeAndWrite ctx w now comments generation =
          (.refused .dayNotStarted, endPaused ctx
            (writeEndDayComments ctx now (createPlanned ctx w planned) checked).2 now)) ∨
        canEnd ctx w now generation = true ∧
          ∃ result, (judgeAndWrite ctx w now comments generation).1 = .ended result) := by
  have hfst : (writeEndDayComments ctx now (createPlanned ctx w planned) checked).1 = none ↔
      ∀ c ∈ checked, stops ctx w c.id = false := by
    rw [writeEndDayComments_fst]
    simp only [stops_createPlanned]
  have hdb : (writeEndDayComments ctx now (createPlanned ctx w planned) checked).2.db = w.db :=
    (kept_writeEndDayComments checked).db
  cases hwrite : writeEndDayComments ctx now (createPlanned ctx w planned) checked with
  | mk refusal w' =>
    rw [hwrite] at hfst hdb
    cases refusal with
    | some refusal =>
      refine .inl ⟨refusal, by simp only [judgeAndWrite, hj, hwrite], ?_⟩
      by_contra hno
      refine nomatch hfst.2 fun c hc => ?_
      exact Bool.eq_false_iff.2 fun hs => hno ⟨c, hc, hs⟩
    | none =>
      refine .inr ⟨hfst.1 rfl, ?_⟩
      cases hend : canEnd ctx w now generation with
      | false =>
        have hlate : endDay ctx w' now generation = _ := endDay_late ((canEnd_congr hdb).trans hend)
        exact .inl ⟨rfl, by simp only [judgeAndWrite, hj, hwrite, hlate]⟩
      | true =>
        have hthrough := endDay_through ((canEnd_congr hdb).trans hend)
        refine .inr ⟨rfl, ?_⟩
        cases hday : endDay ctx w' now generation with
        | mk result w'' =>
          rw [hday] at hthrough
          cases result with
          | notStarted date => exact absurd rfl (hthrough date)
          | closed session date endedAt newlyEnded =>
            exact ⟨.closed session date endedAt newlyEnded,
              by simp only [judgeAndWrite, hj, hwrite, hday]⟩
          | alreadyEnded date endedAt =>
            exact ⟨.alreadyEnded date endedAt, by simp only [judgeAndWrite, hj, hwrite, hday]⟩
          | marked date endedAt newlyEnded =>
            exact ⟨.marked date endedAt newlyEnded,
              by simp only [judgeAndWrite, hj, hwrite, hday]⟩

/-- A refused End Day that left everything as it was goes through, or had nothing to write
before its refusal. -/
theorem goesThrough_of_unchanged
    (h : ∀ refusal, (judgeAndWrite ctx w now comments generation).1 = .refused refusal →
      (judgeAndWrite ctx w now comments generation).2 = w) :
    GoesThrough ctx w now comments generation := by
  intro planned checked hj
  rcases judgeAndWrite_of_ok hj with ⟨refusal, heq, hlocked⟩ | ⟨hopen, ⟨hend, heq⟩ | ⟨hend, -⟩⟩
  · have hsame := h refusal (by rw [heq])
    rw [heq] at hsame
    obtain ⟨hnone, hfirst⟩ := stops_of_kept (.refl _) (congrArg EndDayWorld.records hsame)
    refine .inr ⟨hnone, ?_⟩
    unfold nothingBefore
    split
    · next c hc => exact hfirst c hc
    · next hc =>
      obtain ⟨c, hmem, hs⟩ := hlocked
      have hnot := List.find?_eq_none.1 hc c hmem
      simp [hs] at hnot
  · have hsame := h .dayNotStarted (by rw [heq])
    rw [heq] at hsame
    have hrecords := congrArg EndDayWorld.records hsame
    obtain ⟨hnone, hfirst⟩ := stops_of_kept kept_endPaused hrecords
    refine .inr ⟨hnone, ?_⟩
    unfold nothingBefore
    split
    · next c hc => exact hfirst c hc
    · rw [← hrecords, any_isPaused_endPaused]
      rfl
  · exact .inl ⟨hend, hopen⟩

/-- An End Day that goes through is not refused late, so a refusal leaves everything as it was. -/
theorem unchanged_of_goesThrough (h : GoesThrough ctx w now comments generation)
    {refusal : EndDayRefusal}
    (hrefused : (judgeAndWrite ctx w now comments generation).1 = .refused refusal) :
    (judgeAndWrite ctx w now comments generation).2 = w := by
  cases hj : judge ctx w now comments generation with
  | error e => simp only [judgeAndWrite, hj]
  | ok pc =>
    obtain ⟨planned, checked⟩ := pc
    rcases h planned checked hj with ⟨hend, hopen⟩ | ⟨hnone, hbefore⟩
    · rcases judgeAndWrite_of_ok hj with ⟨-, -, c, hc, hs⟩ | ⟨-, ⟨hlate, -⟩ | ⟨-, result, heq⟩⟩
      · rw [hopen c hc] at hs
        cases hs
      · rw [hend] at hlate
        cases hlate
      · rw [heq] at hrefused
        cases hrefused
    · have hself := createPlanned_eq_self hnone
      have hfirst : ∀ c, (checked.find? fun c => stops ctx w c.id || takes w c.id) = some c →
          stops ctx w c.id = true := by
        intro c hc
        unfold nothingBefore at hbefore
        rw [hc] at hbefore
        exact hbefore
      have hwrite : (writeEndDayComments ctx now w checked).2 = w := writeEndDayComments_snd hfirst
      rcases judgeAndWrite_of_ok hj with ⟨e, heq, -⟩ | ⟨hopen, ⟨-, heq⟩ | ⟨-, result, heq⟩⟩
      · rw [heq, hself, hwrite]
      · have hpaused : w.records.any (isPaused ctx) = false := by
          unfold nothingBefore at hbefore
          split at hbefore
          · next c hc =>
            rw [hopen c (List.mem_of_find?_eq_some hc)] at hbefore
            cases hbefore
          · simpa using hbefore
        rw [heq, hself, hwrite, endPaused_eq_self hpaused]
      · rw [heq] at hrefused
        cases hrefused

end Flow

end EndDay

/-- A refused End Day leaves everything as the automatic close left it exactly when End Day goes
through once it has passed its checks, or has nothing to write before it is refused. -/
theorem refused_endDay_unchanged_iff (ctx : EndDayContext) (w : EndDayWorld)
    (comments : List EndDayComment) (generation : AgentGeneration) (now : ℤ) :
    (∀ refusal, (EndDay.execute ctx w now comments generation).1 = .refused refusal →
        (EndDay.execute ctx w now comments generation).2 = EndDay.autoCloseIfStale ctx w now) ↔
      EndDay.GoesThrough ctx (EndDay.autoCloseIfStale ctx w now) now comments generation :=
  ⟨EndDay.goesThrough_of_unchanged, fun h _ => EndDay.unchanged_of_goesThrough h⟩

/-- A person without a shift, whose months before day 10 are locked. -/
def noShiftContext : EndDayContext where
  me := { id := 0, companyId := none, departmentKey := none, departmentId := some 0 }
  shifts := ⟨fun _ => none, [], []⟩
  tz := ⟨fun _ => 0⟩
  closeRules := noShift
  autoSkipId := fun _ _ => 0
  monthLocked := fun _ date => date.day < 10
  recipientsFor := fun _ => [7]
  blockManagerEndDayWhenOverdue := true
  overdueIn := fun _ => none

/-- A skipped lunch of that person, waiting for a decision. -/
def skippedLunch (id : ℕ) (day : ℤ) : BreakRow where
  id := id
  userId := 0
  date := ⟨day⟩
  kind := some .lunch
  outcome := .skipped
  startedAt := day * 86400000 + 43200000
  approvalStatus := .pending

/-- Day 12 before Start Day, with a skip of day 11. -/
def beforeStartDay : EndDayWorld := ⟨.empty, .empty, [skippedLunch 5 11], []⟩

/-- Day 12 after Start Day, with a skip of day 11 and one of a locked month. -/
def afterStartDay : EndDayWorld :=
  ⟨(Db.empty.startDay utcDay 1069200000 1069200000 .agent utcDay).2, .empty,
    [skippedLunch 5 11, skippedLunch 6 9], []⟩

/-- Before Start Day the comment is written and its notice sent, and then End Day is
refused. With the day open, a comment on the skip of the locked month is refused after the
one before it was written. -/
theorem refused_endDay_keeps_comment :
    ((EndDay.execute noShiftContext beforeStartDay 1080000000 [⟨5, "Client call ran over"⟩]
        .agent31).1 = .refused .dayNotStarted ∧
      (EndDay.execute noShiftContext beforeStartDay 1080000000 [⟨5, "Client call ran over"⟩]
        .agent31).2.records.map BreakRow.reason = [some "Client call ran over"] ∧
      (EndDay.execute noShiftContext beforeStartDay 1080000000 [⟨5, "Client call ran over"⟩]
        .agent31).2.notices = [⟨.skipCommentAdded, [7], 5⟩]) ∧
    (EndDay.execute noShiftContext afterStartDay 1080000000
        [⟨5, "Client call ran over"⟩, ⟨6, "Client call ran over"⟩] .agent31).1 =
      .refused (.monthLocked ⟨9⟩) ∧
    (EndDay.execute noShiftContext afterStartDay 1080000000
        [⟨5, "Client call ran over"⟩, ⟨6, "Client call ran over"⟩] .agent31).2.records.map
        BreakRow.reason = [some "Client call ran over", none] := by
  decide +kernel

end RxVision
