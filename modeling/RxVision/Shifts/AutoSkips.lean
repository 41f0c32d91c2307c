import RxVision.Lib.Runs
import RxVision.Approvals.Policy
import RxVision.Shifts.BreakDay

/-!
# Auto-skips (`skips.service.ts`, `owed.ts`, `prisma-skip.repository.ts`)

The five-minute job that gives an owed break without a record an AUTO_SKIPPED one once its
window has closed. It looks at the slots of the working day its own time belongs to. A window
may close after that day is over, past midnight or past the end of an overnight shift, and then
the job is already on the next day and the break escapes: `owed_break_auto_skipped` says exactly
when it does not.
-/

namespace RxVision

/-- A work session and whose it is. -/
structure UserSession where
  userId : ℕ
  date : DateKey
  startedAt : ℤ
  endedAt : Option ℤ := none
  deriving DecidableEq, Repr

/-- `ShiftPerson`, as far as the job reads it. -/
structure ShiftPerson extends PersonForShift where
  active : Bool := true
  role : Role := .user
  departmentId : Option ℕ := none
  deriving DecidableEq, Repr

/-- A row of `break_records`; quick and unscheduled breaks have no scheduled kind. -/
structure DayRecord where
  userId : ℕ
  date : DateKey
  kind : Option BreakKind
  outcome : BreakOutcome
  startedAt : ℤ
  /-- The columns a record copies from its slot. -/
  slot : Option BreakSlot := none
  shiftId : Option ℕ := none
  approvalStatus : AwayStatus := .notRequired
  routing : Routing := ⟨none, none⟩
  deriving DecidableEq, Repr

/-- The unique key of scheduled breaks: person, date and kind. -/
def DayRecord.isOf (r : DayRecord) (userId : ℕ) (date : DateKey) (kind : BreakKind) : Bool :=
  r.userId = userId && r.date = date && r.kind = some kind

/-- `break_records`: one row a person, date and scheduled kind. -/
structure DayRecords where
  rows : List DayRecord
  unique : ∀ userId date kind, (rows.filter fun r => r.isOf userId date kind).length ≤ 1

namespace DayRecords

variable (t : DayRecords)

/-- The records of one break. -/
def recordsOf (userId : ℕ) (date : DateKey) (kind : BreakKind) : List DayRecord :=
  t.rows.filter fun r => r.isOf userId date kind

/-- The row has the key of a row that is there. -/
def clashes (r : DayRecord) :
    Bool := r.kind.any fun kind => !(t.recordsOf r.userId r.date kind).isEmpty

/-- A row is added, or refused by the unique key. -/
def insert (r : DayRecord) : DayRecords :=
  if h : t.clashes r = true then t
  else {
    rows := t.rows ++ [r]
    unique := by
      intro userId date kind
      rw [List.filter_append, List.length_append]
      cases hr : r.isOf userId date kind with
      | false => simpa [hr] using t.unique userId date kind
      | true =>
        simp only [DayRecord.isOf, Bool.and_eq_true, decide_eq_true_eq] at hr
        obtain ⟨⟨rfl, rfl⟩, hkind⟩ := hr
        have hnone : t.recordsOf r.userId r.date kind = [] := by
          simpa [clashes, hkind] using h
        unfold recordsOf at hnone
        rw [hnone]
        simp only [List.length_nil, Nat.zero_add]
        exact List.length_filter_le _ _ }

end DayRecords

/-- `isOwed`: a session covers the scheduled start; an open one counts up to now. -/
def isOwed (slot : BreakSlot) (sessions : List UserSession) (now : ℤ) : Bool :=
  sessions.any fun s =>
    s.startedAt ≤ slot.scheduledStart && slot.scheduledStart ≤ s.endedAt.getD now

/-- `AutoSkipPlan`. -/
structure AutoSkipPlan where
  kind : BreakKind
  startedAt : ℤ
  atEndDay : Bool
  deriving DecidableEq, Repr

/-- `planAutoSkips`: which slots must become AUTO_SKIPPED now. -/
def planAutoSkips (slots : List BreakSlot) (recorded : List BreakKind) (sessions : List UserSession)
    (now : ℤ) (endingDay : Bool) : List AutoSkipPlan :=
  slots.filterMap fun slot =>
    if recorded.contains slot.kind then none
    else if !isOwed slot sessions now then none
    else if slot.windowClose ≤ now then some ⟨slot.kind, slot.windowClose, false⟩
    else if endingDay && slot.windowOpen ≤ now then some ⟨slot.kind, now, true⟩
    else none

/-- `createAutoSkips`: no new pending item in a locked month, and one record a break. -/
def createAutoSkips (monthLocked : ℕ → DateKey → Bool) (records : List DayRecord) (t : DayRecords) :
    DayRecords :=
  records.foldl (fun t r =>
    if r.approvalStatus = .pending && monthLocked r.userId r.date then t else t.insert r) t

/-- What a run of the job finds: everybody with their shifts, and the business timezone. -/
structure SkipJob where
  ctx : ResolutionContext
  people : Table fun p : ShiftPerson => p.id
  tz : Zone

/-- The tables the job reads and writes, its clock, and when it last ran. -/
structure SkipState where
  clock : ℤ
  lastRun : ℤ
  sessions : List UserSession
  records : DayRecords
  /-- `isMonthLocked` of a person and a date. -/
  monthLocked : ℕ → DateKey → Bool

namespace SkipState

variable (s : SkipState)

/-- `listUserIdsActiveOn`. -/
def listUserIdsActiveOn (dates : List DateKey) : List ℕ :=
  (s.sessions.filter fun x => dates.contains x.date || x.endedAt.isNone).map UserSession.userId

/-- `listOverlapping`, from the earliest window on. -/
def listOverlapping (earliest : Option ℤ) (now : ℤ) : List UserSession :=
  s.sessions.filter fun x =>
    x.startedAt ≤ now && x.endedAt.all fun stop => earliest.all fun first => first ≤ stop

end SkipState

namespace SkipJob

variable (job : SkipJob) (s : SkipState)

/-- Somebody's working day now. -/
def dayOf (now : ℤ) (p : ShiftPerson) : BreakDay := dayWith job.ctx p.toPersonForShift now job.tz

/-- The earliest window of the working days of some people. -/
def earliest (people : List ShiftPerson) (now : ℤ) : Option ℤ :=
  ((people.flatMap fun p => (job.dayOf now p).slots).map BreakSlot.windowOpen).min?

/-- One person's records to create. -/
def planPerson (people : List ShiftPerson) (now : ℤ) (endingDay : Bool) (p : ShiftPerson) :
    List DayRecord :=
  let day := job.dayOf now p
  let recorded :=
    ((s.records.rows.filter fun r => r.userId = p.id && r.date = day.dateKey).filterMap
    DayRecord.kind)
  let sessions := (s.listOverlapping (job.earliest people now) now).filter fun x => x.userId = p.id
  let route := BreakApprovalPolicy.route p.role p.departmentId
  (planAutoSkips day.slots recorded sessions now endingDay).map fun plan => {
    userId := p.id
    date := day.dateKey
    kind := some plan.kind
    outcome := .autoSkipped
    startedAt := plan.startedAt
    slot := day.slots.find? fun slot => slot.kind = plan.kind
    shiftId := day.resolved.shift.map ShiftRecord.id
    approvalStatus := route.1
    routing := route.2 }

/-- `planPeople`. -/
def planPeople (people : List ShiftPerson) (now : ℤ) (endingDay : Bool) : List DayRecord :=
  people.flatMap (job.planPerson s people now endingDay)

/-- The people of one run: active, with a session today or yesterday, or still open. -/
def peopleAt (now : ℤ) : List ShiftPerson :=
  let today := dateKeyInZone now job.tz
  let ids := s.listUserIdsActiveOn [addDaysToKey today (-1), today]
  job.people.rows.filter fun p => ids.contains p.id && p.active

/-- `autoSkipAll`. -/
def autoSkipAll (now : ℤ) : DayRecords :=
  createAutoSkips s.monthLocked (job.planPeople s (job.peopleAt s now) now false) s.records

end SkipJob

/-! ## One record a break -/

namespace DayRecords

variable {t : DayRecords} {r : DayRecord} {userId : ℕ} {d : DateKey} {kind : BreakKind}

/-- The break has its one record, an AUTO_SKIPPED one. -/
def AutoSkippedOnce (t : DayRecords) (userId : ℕ) (d : DateKey) (kind : BreakKind) : Prop :=
  ∃ r, t.recordsOf userId d kind = [r] ∧ r.outcome = .autoSkipped

/-- A record of another break leaves those of this one. -/
theorem recordsOf_insert_of_not (h : r.isOf userId d kind = false) :
    (t.insert r).recordsOf userId d kind = t.recordsOf userId d kind := by
  unfold insert
  split
  · rfl
  · simp [recordsOf, h]

/-- A row with the break's key becomes its record if there is none; the table has a unique key. -/
theorem recordsOf_insert (h : r.isOf userId d kind = true) :
    (t.insert r).recordsOf userId d kind =
      if t.recordsOf userId d kind = [] then [r] else t.recordsOf userId d kind := by
  have hkey := h
  simp only [DayRecord.isOf, Bool.and_eq_true, decide_eq_true_eq] at hkey
  obtain ⟨⟨rfl, rfl⟩, hkind⟩ := hkey
  cases hrec : t.recordsOf r.userId r.date kind with
  | nil =>
    have hno : ¬t.clashes r = true := by simp [clashes, hkind, hrec]
    unfold insert
    rw [dif_neg hno, if_pos rfl]
    change (t.rows ++ [r]).filter (fun r' => r'.isOf r.userId r.date kind) = [r]
    rw [List.filter_append]
    unfold recordsOf at hrec
    rw [hrec]
    simp [h]
  | cons r' rs =>
    have hclash : t.clashes r = true := by simp [clashes, hkind, hrec]
    unfold insert
    rw [dif_pos hclash, if_neg (by simp), hrec]

/-- A break with a record keeps it. -/
theorem recordsOf_insert_of_ne_nil (h : t.recordsOf userId d kind ≠ []) :
    (t.insert r).recordsOf userId d kind = t.recordsOf userId d kind := by
  cases hr : r.isOf userId d kind with
  | true => rw [recordsOf_insert hr, if_neg h]
  | false => exact recordsOf_insert_of_not hr

end DayRecords

section Create

variable {locked : ℕ → DateKey → Bool} {rs : List DayRecord} {t : DayRecords} {userId : ℕ}
  {d : DateKey} {kind : BreakKind}

/-- A break that has a record gets no auto-skip. -/
theorem recordsOf_createAutoSkips_of_ne_nil (h : t.recordsOf userId d kind ≠ []) :
    (createAutoSkips locked rs t).recordsOf userId d kind = t.recordsOf userId d kind := by
  induction rs generalizing t with
  | nil => rfl
  | cons r rs ih =>
    change (createAutoSkips locked rs (if r.approvalStatus = .pending &&
      locked r.userId r.date then t else t.insert r)).recordsOf userId d kind = _
    split
    · exact ih h
    · have hkept : (t.insert r).recordsOf userId d kind = t.recordsOf userId d kind :=
        DayRecords.recordsOf_insert_of_ne_nil h
      rw [ih (by rwa [hkept]), hkept]

/-- Creating records in an open month gives a break without one the first of the rows
that is of it. -/
theorem recordsOf_createAutoSkips (hopen : locked userId d = false)
    (h : t.recordsOf userId d kind = []) :
    (createAutoSkips locked rs t).recordsOf userId d kind =
      (rs.find? fun r => r.isOf userId d kind).toList := by
  induction rs generalizing t with
  | nil => exact h
  | cons r rs ih =>
    change (createAutoSkips locked rs (if r.approvalStatus = .pending &&
      locked r.userId r.date then t else t.insert r)).recordsOf userId d kind = _
    cases hr : r.isOf userId d kind with
    | false =>
      rw [List.find?_cons_of_neg (by simp [hr])]
      split
      · exact ih h
      · exact ih (by rw [DayRecords.recordsOf_insert_of_not hr, h])
    | true =>
      have hkey := hr
      simp only [DayRecord.isOf, Bool.and_eq_true, decide_eq_true_eq] at hkey
      have hrec : (t.insert r).recordsOf userId d kind = [r] := by
        rw [DayRecords.recordsOf_insert hr, if_pos h]
      have hfirst : (r :: rs).find? (fun r => r.isOf userId d kind) = some r := by simp [hr]
      rw [hfirst, hkey.1.1, hkey.1.2, hopen, Bool.and_false, if_neg (by simp),
        recordsOf_createAutoSkips_of_ne_nil (by simp [hrec]), hrec]
      rfl

end Create

/-! ## One run of the job -/

variable {job : SkipJob} {s : SkipState} {p q : ShiftPerson} {people : List ShiftPerson}
  {shift : ShiftRecord} {slot : BreakSlot} {d : DateKey} {kind : BreakKind} {now : ℤ}
    {r : DayRecord}

namespace SkipJob

/-- The person's resolved shift is `shift` on every day. -/
def Keeps (job : SkipJob) (p : ShiftPerson) (shift : ShiftRecord) : Prop :=
  ∀ day, (resolveShift p.toPersonForShift day job.ctx).shift = some shift

/-- A work session of the person covers the scheduled start. -/
def Owed (s : SkipState) (p : ShiftPerson) (slot : BreakSlot) (now : ℤ) : Prop :=
  isOwed slot (s.sessions.filter fun x => x.userId = p.id) now = true

/-- The sessions a run reads for a person. -/
def sessionsRead (job : SkipJob) (s : SkipState) (people : List ShiftPerson) (p : ShiftPerson)
    (now : ℤ) : List UserSession :=
  (s.listOverlapping (job.earliest people now) now).filter fun x => x.userId = p.id

/-- With one shift all along, a moment belongs to the shift-day which that shift
says, with its slots. -/
theorem Keeps.dayOf (h : job.Keeps p shift) (now : ℤ) :
    (job.dayOf now p).dateKey = shiftDayKey shift.clock now job.tz ∧
      (job.dayOf now p).slots = shift.slotsOn (shiftDayKey shift.clock now job.tz) job.tz := by
  have hday : (shiftDayWith job.ctx p.toPersonForShift now job.tz).2 =
      shiftDayKey shift.clock now job.tz := by
    unfold shiftDayWith
    dsimp only
    rw [h]
    dsimp only
    split
    · rw [h]
      dsimp only
      rw [if_pos rfl]
    · rename_i hsame
      exact (not_not.1 hsame).symm
  have hshift : (shiftDayWith job.ctx p.toPersonForShift now job.tz).1.shift = some shift := by
    unfold shiftDayWith
    dsimp only
    rw [h]
    dsimp only
    split
    · rw [h]
      dsimp only
      split <;> exact h _
    · exact h _
  have heq : job.dayOf now p = forDate (shiftDayWith job.ctx p.toPersonForShift now job.tz).1
      (shiftDayWith job.ctx p.toPersonForShift now job.tz).2 job.tz := rfl
  rw [heq, forDate_dateKey, forDate_slots hshift, hday]
  exact ⟨rfl, rfl⟩

/-- What is planned are the owed breaks without a record whose window has closed. -/
theorem mem_planAutoSkips {slots : List BreakSlot} {recorded : List BreakKind}
    {sessions : List UserSession} {plan : AutoSkipPlan} :
    plan ∈ planAutoSkips slots recorded sessions now false ↔
      ∃ slot ∈ slots, slot.kind ∉ recorded ∧ isOwed slot sessions now = true ∧
        slot.windowClose ≤ now ∧ plan = ⟨slot.kind, slot.windowClose, false⟩ := by
  unfold planAutoSkips
  rw [List.mem_filterMap]
  refine exists_congr fun slot => and_congr_right fun _ => ?_
  by_cases hrec : slot.kind ∈ recorded
  · simp [hrec]
  · cases howed : isOwed slot sessions now with
    | false => simp [hrec]
    | true =>
      by_cases hclose : slot.windowClose ≤ now
      · simp [hrec, hclose, eq_comm]
      · simp [hrec, hclose]

/-- What a planned record says of its person and slot. -/
theorem of_mem_planPerson (h : r ∈ job.planPerson s people now false q) :
    r.userId = q.id ∧ r.date = (job.dayOf now q).dateKey ∧ r.outcome = .autoSkipped ∧
      ∃ slot ∈ (job.dayOf now q).slots, r.kind = some slot.kind ∧
        isOwed slot (job.sessionsRead s people q now) now = true := by
  obtain ⟨plan, hplan, rfl⟩ := List.mem_map.1 h
  obtain ⟨slot, hslot, -, howed, -, rfl⟩ := mem_planAutoSkips.1 hplan
  exact ⟨rfl, rfl, rfl, slot, hslot, rfl, howed⟩

/-- A slot of the day that has closed, is owed and has no record is planned. -/
theorem mem_planPerson (hslot : slot ∈ (job.dayOf now q).slots)
    (hnone : s.records.recordsOf q.id (job.dayOf now q).dateKey slot.kind = [])
    (howed : isOwed slot (job.sessionsRead s people q now) now = true)
    (hclose : slot.windowClose ≤ now) :
    ∃ r ∈ job.planPerson s people now false q,
      r.isOf q.id (job.dayOf now q).dateKey slot.kind = true := by
  have hplan : ⟨slot.kind, slot.windowClose, false⟩ ∈ planAutoSkips (job.dayOf now q).slots
      ((s.records.rows.filter fun r => r.userId = q.id &&
        r.date = (job.dayOf now q).dateKey).filterMap
        DayRecord.kind) (job.sessionsRead s people q now) now false := by
    refine mem_planAutoSkips.2 ⟨slot, hslot, fun hrec => ?_, howed, hclose, rfl⟩
    obtain ⟨r, hr, hkind⟩ := List.mem_filterMap.1 hrec
    obtain ⟨hr, hsel⟩ := List.mem_filter.1 hr
    refine List.eq_nil_iff_forall_not_mem.1 hnone r (List.mem_filter.2 ⟨hr, ?_⟩)
    unfold DayRecord.isOf
    rw [hkind, hsel]
    simp
  exact ⟨_, List.mem_map.2 ⟨_, hplan, rfl⟩, by simp [DayRecord.isOf]⟩

/-- A run of the job gives a closed break without a record one exactly when its time is still on the
break's shift-day, it lists the person, and it reads a session that covers the start. -/
theorem autoSkippedOnce_autoSkipAll (hp : p ∈ job.people) (hactive : p.active = true)
    (hkeeps : job.Keeps p shift) (hslot : slot ∈ shift.slotsOn d job.tz)
    (hopen : s.monthLocked p.id d = false) (hnone : s.records.recordsOf p.id d slot.kind = [])
    (hclose : slot.windowClose ≤ now) :
    (job.autoSkipAll s now).AutoSkippedOnce p.id d slot.kind ↔
      shiftDayKey shift.clock now job.tz = d ∧
        p.id ∈ s.listUserIdsActiveOn
          [addDaysToKey (dateKeyInZone now job.tz) (-1), dateKeyInZone now job.tz] ∧
        isOwed slot (job.sessionsRead s (job.peopleAt s now) p now) now = true := by
  obtain ⟨hday, hslots⟩ := hkeeps.dayOf now
  unfold DayRecords.AutoSkippedOnce autoSkipAll
  rw [recordsOf_createAutoSkips hopen hnone]
  constructor
  · rintro ⟨r, hr, -⟩
    have hfind := Option.toList_eq_singleton_iff.1 hr
    have hkey := List.find?_some hfind
    simp only [DayRecord.isOf, Bool.and_eq_true, decide_eq_true_eq] at hkey
    obtain ⟨q, hq, hplan⟩ := List.mem_flatMap.1 (List.mem_of_find?_eq_some hfind)
    obtain ⟨hq, hlisted⟩ := List.mem_filter.1 hq
    obtain ⟨huser, hdate, -, slot', hslot', hkind, howed⟩ := of_mem_planPerson hplan
    obtain rfl := Table.eq_of_key hq hp (huser.symm.trans hkey.1.1)
    have hdayd : shiftDayKey shift.clock now job.tz = d :=
      hday.symm.trans (hdate.symm.trans hkey.1.2)
    rw [hslots, hdayd] at hslot'
    simp only [Bool.and_eq_true, List.contains_iff_mem] at hlisted
    refine ⟨hdayd, hlisted.1, ?_⟩
    obtain rfl : slot' = slot := by
      unfold ShiftRecord.slotsOn at hslot hslot'
      split at hslot
      · rename_i hwork
        rw [if_pos hwork] at hslot'
        exact ShiftDefinition.eq_of_kind hslot' hslot (Option.some.inj (hkind.symm.trans hkey.2))
      · cases hslot
    exact howed
  · rintro ⟨hdayd, hlisted, howed⟩
    rw [hdayd] at hday hslots
    have hpeople : p ∈ job.peopleAt s now :=
      List.mem_filter.2 ⟨hp, by simp [hlisted, hactive]⟩
    obtain ⟨r, hr, hkey⟩ := mem_planPerson (by rw [hslots]; exact hslot) (by rw [hday]; exact hnone)
      howed hclose
    rw [hday] at hkey
    cases hfind : (job.planPeople s (job.peopleAt s now) now false).find?
        fun r => r.isOf p.id d slot.kind with
    | none =>
      have hno := List.find?_eq_none.1 hfind r (List.mem_flatMap.2 ⟨p, hpeople, hr⟩)
      exact absurd hkey hno
    | some r' =>
      obtain ⟨q, -, hplan⟩ := List.mem_flatMap.1 (List.mem_of_find?_eq_some hfind)
      exact ⟨r', rfl, (of_mem_planPerson hplan).2.2.1⟩

/-- Without changes of the clock a run that is on the shift-day reads every session that covers the
start of a checked break. -/
theorem owed_sessionsRead (hz : job.tz.Constant) (hvalid : shift.validateShiftDefinition = [])
    (hkeeps : job.Keeps p shift) (hslot : slot ∈ shift.slotsOn d job.tz)
    (hday : shiftDayKey shift.clock now job.tz = d) (hpeople : p ∈ people)
    (howed : Owed s p slot now) (hclose : slot.windowClose ≤ now) :
    isOwed slot (job.sessionsRead s people p now) now = true := by
  have hbreaks : slot ∈ shift.breakSlots d job.tz := by
    unfold ShiftRecord.slotsOn at hslot
    split at hslot
    · exact hslot
    · cases hslot
  obtain ⟨hopen, hstart⟩ := ShiftDefinition.slot_inOrder hz hvalid hbreaks
  unfold Owed isOwed at howed
  obtain ⟨x, hx, hcovers⟩ := List.any_eq_true.1 howed
  obtain ⟨hx, hown⟩ := List.mem_filter.1 hx
  simp only [Bool.and_eq_true, decide_eq_true_eq] at hcovers
  refine List.any_eq_true.2 ⟨x, List.mem_filter.2 ⟨List.mem_filter.2 ⟨hx, ?_⟩, hown⟩, by
    simpa using hcovers⟩
  simp only [Bool.and_eq_true, decide_eq_true_eq]
  refine ⟨by omega, ?_⟩
  cases hstop : x.endedAt with
  | none => rfl
  | some stop =>
    simp only [Option.all_some]
    cases hfirst : job.earliest people now with
    | none => rfl
    | some first =>
      have hmem : slot.windowOpen ∈
          (people.flatMap fun p => (job.dayOf now p).slots).map BreakSlot.windowOpen := by
        refine List.mem_map.2 ⟨slot, List.mem_flatMap.2 ⟨p, hpeople, ?_⟩, rfl⟩
        rw [(hkeeps.dayOf now).2, hday]
        exact hslot
      have hle : first ≤ slot.windowOpen := (List.min?_eq_some_iff.1 hfirst).2 _ hmem
      rw [hstop, Option.getD_some] at hcovers
      simp only [Option.all_some, decide_eq_true_eq]
      omega

end SkipJob

/-! ## Runs -/

/-- What happens to the tables: the job runs, or something else changes them. -/
inductive SkipAction
  | autoSkipAll (now : ℤ)
  /-- A work session begins, ends or changes. -/
  | sessions (now : ℤ) (sessions : List UserSession)
  /-- A break is taken, skipped or auto-skipped at End Day. -/
  | record (now : ℤ) (r : DayRecord)
  /-- A month is locked or unlocked. -/
  | months (now : ℤ) (monthLocked : ℕ → DateKey → Bool)

/-- When the action happens. -/
def SkipAction.time : SkipAction → ℤ
  | .autoSkipAll now | .sessions now _ | .record now _ | .months now _ => now

/-- Neither a run of the job nor a record of the break. -/
def SkipAction.Spares (userId : ℕ) (d : DateKey) (kind : BreakKind) : SkipAction → Prop
  | .autoSkipAll _ => False
  | .record _ r => r.isOf userId d kind = false
  | .sessions _ _ | .months _ _ => True

/-- Five minutes. -/
def AUTO_SKIP_EVERY : ℤ := 300000

namespace SkipJob

/-- One action; time goes on, and the job is never more than five minutes late. -/
def step (job : SkipJob) (s : SkipState) (a : SkipAction) : Option SkipState :=
  if s.clock ≤ a.time ∧ a.time ≤ s.lastRun + AUTO_SKIP_EVERY then
    some <| match a with
      | .autoSkipAll now =>
        { s with clock := now, lastRun := now, records := job.autoSkipAll s now }
      | .sessions now sessions => { s with clock := now, sessions }
      | .record now r => { s with clock := now, records := s.records.insert r }
      | .months now monthLocked => { s with clock := now, monthLocked }
  else none

variable {s' : SkipState} {a : SkipAction} {as : List SkipAction}

/-- A step moves the clock to its time, and not back. -/
theorem step_clock (h : job.step s a = some s') : s.clock ≤ s'.clock ∧ s'.clock = a.time := by
  unfold step at h
  split at h
  · rename_i htime
    cases h
    cases a <;> exact ⟨htime.1, rfl⟩
  · cases h

/-- Actions other than the job and the break's own record leave a break without a
record as it is. -/
theorem recordsOf_step (hs : a.Spares p.id d kind) (h : job.step s a = some s') :
    s'.records.recordsOf p.id d kind = s.records.recordsOf p.id d kind := by
  unfold step at h
  split at h
  · cases h
    cases a with
    | autoSkipAll now => exact hs.elim
    | record now r => exact DayRecords.recordsOf_insert_of_not hs
    | sessions now sessions => rfl
    | months now monthLocked => rfl
  · cases h

/-- Until the job runs, or something records it, a break has no record and time goes on. -/
theorem run_unrecorded (hs : ∀ a ∈ as, a.Spares p.id d kind)
    (h : Runs.run job.step s as = some s') :
    s.clock ≤ s'.clock ∧ s'.records.recordsOf p.id d kind = s.records.recordsOf p.id d kind := by
  induction as generalizing s with
  | nil =>
    cases h
    exact ⟨le_rfl, rfl⟩
  | cons a as ih =>
    obtain ⟨u, hu, h⟩ := Runs.run_cons_eq_some.1 h
    obtain ⟨hle, hrec⟩ := ih (fun a ha => hs a (List.mem_cons_of_mem _ ha)) h
    exact ⟨(step_clock hu).1.trans hle,
      hrec.trans (recordsOf_step (hs a List.mem_cons_self) hu)⟩

/-- An owed break without a record when its window closes gets its one AUTO_SKIPPED record from the
first run of the job after that exactly when the run is still on the break's shift-day, lists the
person, and, where the clock changes, reads a session that covers the start. -/
theorem owed_break_auto_skipped {s₀ : SkipState} {t : ℤ} (hp : p ∈ job.people)
    (hactive : p.active = true) (hkeeps : job.Keeps p shift)
    (hvalid : shift.validateShiftDefinition = []) (hslot : slot ∈ shift.slotsOn d job.tz)
    (hclose : s₀.clock = slot.windowClose) (hnone : s₀.records.recordsOf p.id d slot.kind = [])
    (hfirst : ∀ a ∈ as, a.Spares p.id d slot.kind) (hrun : Runs.run job.step s₀ as = some s)
    (hopen : s.monthLocked p.id d = false) (howed : Owed s p slot t)
    (hstep : job.step s (.autoSkipAll t) = some s') :
    s'.records.AutoSkippedOnce p.id d slot.kind ↔
      shiftDayKey shift.clock t job.tz = d ∧
        p.id ∈ s.listUserIdsActiveOn
          [addDaysToKey (dateKeyInZone t job.tz) (-1), dateKeyInZone t job.tz] ∧
        (job.tz.Constant ∨ isOwed slot (job.sessionsRead s (job.peopleAt s t) p t) t = true) := by
  obtain ⟨hclock, hrec⟩ := run_unrecorded hfirst hrun
  obtain ⟨htime, hnow⟩ := step_clock hstep
  have hclosed : slot.windowClose ≤ t := by
    rw [← hclose]
    exact hclock.trans (htime.trans hnow.le)
  have hrecords : s'.records = job.autoSkipAll s t := by
    unfold step at hstep
    split at hstep
    · cases hstep
      rfl
    · cases hstep
  rw [hrecords, autoSkippedOnce_autoSkipAll hp hactive hkeeps hslot hopen
    (hrec.trans hnone) hclosed]
  refine and_congr_right fun hday => and_congr_right fun hlisted => ⟨Or.inr, ?_⟩
  rintro (hz | hread)
  · have hpeople : p ∈ job.peopleAt s t := List.mem_filter.2 ⟨hp, by simp [hlisted, hactive]⟩
    exact owed_sessionsRead hz hvalid hkeeps hslot hday hpeople howed hclosed
  · exact hread

end SkipJob

/-- A shift from 14:00 to 23:30 whose evening break, at 23:00, may be started for
`after` minutes. -/
def lateShift (after : ℤ) : ShiftRecord where
  id := 0
  companyId := none
  isDefault := true
  nameLength := 4
  start := ⟨840, by decide⟩
  stop := ⟨1410, by decide⟩
  workDays := [1, 2, 3, 4, 5]
  breaks := [{
    kind := .evening, startTime := ⟨1380, by decide⟩, durationMin := 15, windowBeforeMin := 30
    windowAfterMin := after }]
  ringLeadMin := 1
  ringDurationMin := 5
  reasonMinChars := 10
  overrunGraceMin := 3

/-- One person, on that shift, in UTC. -/
def lateJob (after : ℤ) : SkipJob where
  ctx := ⟨fun _ => none, [lateShift after], []⟩
  people := Table.empty.create
    (fun id => { id, companyId := none, departmentKey := none, departmentId := some 0 })
      fun _ => rfl
  tz := ⟨fun _ => 0⟩

def latePerson : ShiftPerson where
  id := 0
  companyId := none
  departmentKey := none
  departmentId := some 0

/-- The window closes at `clock`; the session of day 0 is still open, and nothing is recorded. -/
def lateState (clock : ℤ) : SkipState where
  clock := clock
  lastRun := clock - 1000
  sessions := [{ userId := 0, date := ⟨0⟩, startedAt := 50400000 }]
  records := ⟨[], by simp⟩
  monthLocked := fun _ _ => false

/-- The evening break of day 0. -/
def lateSlot (after : ℤ) : BreakSlot :=
  (lateShift after).slotOf ⟨0⟩ ⟨fun _ => 0⟩ {
    kind := .evening, startTime := ⟨1380, by decide⟩, durationMin := 15, windowBeforeMin := 30
    windowAfterMin := after }

/-- The late job keeps its person and shift. -/
theorem lateJob_keeps (after : ℤ) : (lateJob after).Keeps latePerson (lateShift after) := by
  intro day
  simp [resolveShift, ResolutionContext.assigned, userRow, departmentRow, lateJob, latePerson,
    lateShift]

/-- A run of the job that is not late. -/
theorem lateJob_step (after clock : ℤ) :
    (lateJob after).step (lateState clock) (.autoSkipAll clock) = some {
      lateState clock with
      lastRun := clock, records := (lateJob after).autoSkipAll (lateState clock) clock } := by
  unfold SkipJob.step
  have htime : clock ≤ clock ∧ clock ≤ clock - 1000 + AUTO_SKIP_EVERY := by
    unfold AUTO_SKIP_EVERY
    omega
  exact if_pos htime

/-- A window that closes at 01:00 closes after the day shift's day is over: the job never looks at
that break again. -/
theorem owed_break_escapes :
    ∃ job p shift slot d s s', p ∈ SkipJob.people job ∧ p.active = true ∧ job.Keeps p shift ∧
      ShiftDefinition.validateShiftDefinition shift.toShiftDefinition = [] ∧
      slot ∈ shift.slotsOn d job.tz ∧ SkipState.clock s = slot.windowClose ∧
      s.records.recordsOf p.id d slot.kind = [] ∧ s.monthLocked p.id d = false ∧
      SkipJob.Owed s p slot slot.windowClose ∧
      job.step s (.autoSkipAll slot.windowClose) = some s' ∧
      s'.records.recordsOf p.id d slot.kind = [] := by
  refine ⟨lateJob 120, latePerson, lateShift 120, lateSlot 120, ⟨0⟩, lateState 90000000, _,
    by decide +kernel, rfl, lateJob_keeps 120, by decide +kernel, by decide +kernel,
    by decide +kernel, rfl, rfl, ?_, lateJob_step 120 90000000, by decide +kernel⟩
  unfold SkipJob.Owed
  decide +kernel

/-- A break whose window closes at 23:30 is auto-skipped then, in its own day. -/
theorem owed_break_auto_skipped_in_day :
    ((lateJob 30).autoSkipAll (lateState 84600000) 84600000).AutoSkippedOnce 0 ⟨0⟩ .evening := by
  have hp : latePerson ∈ (lateJob 30).people := by decide +kernel
  have hslot : lateSlot 30 ∈ (lateShift 30).slotsOn ⟨0⟩ (lateJob 30).tz := by decide +kernel
  have hrun : Runs.run (lateJob 30).step (lateState 84600000) [] = some (lateState 84600000) := rfl
  have howed : SkipJob.Owed (lateState 84600000) latePerson (lateSlot 30) 84600000 := by
    unfold SkipJob.Owed
    decide +kernel
  exact (SkipJob.owed_break_auto_skipped hp rfl (lateJob_keeps 30) (by decide +kernel) hslot
    (by decide +kernel) rfl (by simp) hrun rfl howed (lateJob_step 30 84600000)).2
    ⟨by decide +kernel, by decide +kernel, Or.inl fun _ _ => rfl⟩

end RxVision
