import RxVision.Shifts.BreakSchedule

/-!
# The shift and the working day of a moment (`shift-resolution.ts`, `break-day.service.ts`)

`resolveShift` picks the shift of a person on a calendar day from the assignments; `dayWith` asks
which shift-day a moment belongs to. The early hours of an overnight shift belong to the evening
before, but `dayWith` looks at the evening before only when today's shift says so: after a change to
a day shift, or to none, or to one that ends earlier, the last hours of the old shift are counted on
the day they fall on. `working_instant_day` says exactly when they are not.

Department names are compared normalised (`departmentKey`), and are normalised here already.
-/

namespace RxVision

/-- `PersonForShift`; `departmentKey` of the name of their department. -/
structure PersonForShift where
  id : ℕ
  companyId : Option ℕ
  departmentKey : Option String
  deriving DecidableEq, Repr

/-- `ShiftRecord`. -/
structure ShiftRecord extends ShiftDefinition where
  id : ℕ
  companyId : Option ℕ
  isDefault : Bool := false
  deriving DecidableEq, Repr

/-- Who a shift is assigned to: `AssignmentTarget`, with the column each reads. -/
inductive AssignmentTarget
  | department (departmentKey : Option String)
  | user (userId : Option ℕ)
  deriving DecidableEq, Repr

/-- `ShiftAssignmentRecord`; no shift means back to the next level. -/
structure ShiftAssignmentRecord where
  target : AssignmentTarget
  companyId : Option ℕ := none
  shiftId : Option ℕ
  effectiveFrom : DateKey
  effectiveTo : Option DateKey := none
  createdAt : ℤ
  deriving DecidableEq, Repr

/-- `ShiftSource`. -/
inductive ShiftSource
  | override | department | default | none
  deriving DecidableEq, Repr

/-- `ResolvedShift`. -/
structure ResolvedShift where
  shift : Option ShiftRecord
  source : ShiftSource
  assignment : Option ShiftAssignmentRecord
  deriving DecidableEq, Repr

/-- `ResolutionContext`: the shifts by id, the default ones, and the assignments. -/
structure ResolutionContext where
  shiftsById : ℕ → Option ShiftRecord
  defaults : List ShiftRecord
  assignments : List ShiftAssignmentRecord

/-- `inForce`. -/
def inForce (a : ShiftAssignmentRecord) (dateKey : DateKey) : Bool :=
  a.effectiveFrom.day ≤ dateKey.day && a.effectiveTo.all fun last => dateKey.day ≤ last.day

/-- `newest`, as an order: later `effectiveFrom` first, then the most recently created. -/
def newest (a b : ShiftAssignmentRecord) : Bool :=
  if a.effectiveFrom ≠ b.effectiveFrom then b.effectiveFrom.day < a.effectiveFrom.day
  else b.createdAt ≤ a.createdAt

/-- A row for the company before a row for every company, then `newest`. -/
def companyFirst (a b : ShiftAssignmentRecord) : Bool :=
  if a.companyId.isNone ≠ b.companyId.isNone then b.companyId.isNone else newest a b

/-- The personal assignment that counts on a day. -/
def userRow (person : PersonForShift) (dateKey : DateKey)
    (assignments : List ShiftAssignmentRecord) :
    Option ShiftAssignmentRecord :=
  ((assignments.filter fun a =>
    a.target = .user (some person.id) && inForce a dateKey).mergeSort newest).head?

/-- The assignment of the person's department that counts on a day. -/
def departmentRow (person : PersonForShift) (dateKey : DateKey)
    (assignments : List ShiftAssignmentRecord) : Option ShiftAssignmentRecord :=
  person.departmentKey.bind fun key =>
    ((assignments.filter fun a =>
      a.target = .department (some key) && (a.companyId.isNone || a.companyId = person.companyId) &&
        inForce a dateKey).mergeSort companyFirst).head?

/-- The shift an assignment names, if it was not deleted. -/
def ResolutionContext.assigned (ctx : ResolutionContext) (row : Option ShiftAssignmentRecord) :
    Option (ShiftAssignmentRecord × ShiftRecord) :=
  row.bind fun a => (a.shiftId.bind ctx.shiftsById).map fun shift => (a, shift)

/-- `resolveShift`: personal, then department, then default. -/
def resolveShift (person : PersonForShift) (dateKey : DateKey) (ctx : ResolutionContext) :
    ResolvedShift :=
  match ctx.assigned (userRow person dateKey ctx.assignments) with
  | some (top, shift) => ⟨some shift, .override, some top⟩
  | none =>
    match ctx.assigned (departmentRow person dateKey ctx.assignments) with
    | some (dept, shift) => ⟨some shift, .department, some dept⟩
    | none =>
      match (ctx.defaults.find? fun s =>
          s.isDefault && s.companyId.isSome && s.companyId = person.companyId).or
        (ctx.defaults.find? fun s => s.isDefault && s.companyId.isNone) with
      | some companyDefault => ⟨some companyDefault, .default, none⟩
      | none => ⟨none, .none, none⟩

/-- `BreakDay`. -/
structure BreakDay where
  dateKey : DateKey
  resolved : ResolvedShift
  workday : Bool
  slots : List BreakSlot
  deriving DecidableEq, Repr

/-- `forDate`: the break day of a shift-day. -/
def forDate (resolved : ResolvedShift) (dateKey : DateKey) (tz : Zone) : BreakDay :=
  match resolved.shift with
  | none => ⟨dateKey, resolved, false, []⟩
  | some shift =>
    let workday := shift.isWorkDay dateKey
    ⟨dateKey, resolved, workday, if workday then shift.breakSlots dateKey tz else []⟩

/-- The shift-day of a moment and the shift of it: `dayWith` without the slots. -/
def shiftDayWith (ctx : ResolutionContext) (person : PersonForShift) (now : ℤ) (tz : Zone) :
    ResolvedShift × DateKey :=
  let today := dateKeyInZone now tz
  let resolved := resolveShift person today ctx
  match resolved.shift with
  | none => (resolved, today)
  | some shift =>
    let candidate := shiftDayKey shift.clock now tz
    if candidate ≠ today then
      let yesterday := resolveShift person candidate ctx
      match yesterday.shift with
      | some shift' =>
        if shiftDayKey shift'.clock now tz = candidate then (yesterday, candidate)
        else (resolved, today)
      | none => (resolved, today)
    else (resolved, today)

/-- `dayWith`: the person's break day for `now`. -/
def dayWith (ctx : ResolutionContext) (person : PersonForShift) (now : ℤ) (tz : Zone) : BreakDay :=
  let (resolved, dateKey) := shiftDayWith ctx person now tz
  forDate resolved dateKey tz

variable {ctx : ResolutionContext} {person : PersonForShift} {tz : Zone} {now : ℤ} {d : DateKey}
  {shift : ShiftRecord}

/-- The day that was asked for. -/
@[simp] theorem forDate_dateKey {r : ResolvedShift} : (forDate r d tz).dateKey = d := by
  unfold forDate
  split <;> rfl

/-- The shift that was resolved. -/
@[simp] theorem forDate_resolved {r : ResolvedShift} : (forDate r d tz).resolved = r := by
  unfold forDate
  split <;> rfl

/-- The slots of a shift on a shift-day, none on a day off. -/
def ShiftRecord.slotsOn (shift : ShiftRecord) (dateKey : DateKey) (tz : Zone) : List BreakSlot :=
  if shift.isWorkDay dateKey then shift.breakSlots dateKey tz else []

/-- The slots are those of the resolved shift on that day. -/
theorem forDate_slots {r : ResolvedShift} (h : r.shift = some shift) :
    (forDate r d tz).slots = shift.slotsOn d tz := by
  unfold forDate
  rw [h]
  rfl

/-! ## The early hours -/

/-- The clock shows the early hours of a shift that runs past midnight. -/
def EarlyHours (shift : ShiftRecord) (now : ℤ) (tz : Zone) : Prop :=
  shift.clock.overnight = true ∧
    (zonedParts now tz).hour * 60 + (zonedParts now tz).minute < shift.clock.endMin - 1440

instance : Decidable (EarlyHours shift now tz) :=
  inferInstanceAs (Decidable (_ ∧ _))

/-- In the early hours a moment belongs to the evening before, else to its calendar day. -/
theorem shiftDayKey_shift : shiftDayKey shift.clock now tz =
    if EarlyHours shift now tz then addDaysToKey (dateKeyInZone now tz) (-1)
    else dateKeyInZone now tz :=
  shiftDayKey_eq shift.clock

/-- What `dayWith` decides: the day before exactly when both days' shifts say that the
night belongs to it. -/
theorem shiftDayWith_eq {today : DateKey} (htoday : dateKeyInZone now tz = addDaysToKey today 1) :
    shiftDayWith ctx person now tz =
      if (∃ s, (resolveShift person (addDaysToKey today 1) ctx).shift = some s ∧
          EarlyHours s now tz) ∧
        ∃ s, (resolveShift person today ctx).shift = some s ∧ EarlyHours s now tz then
        (resolveShift person today ctx, today)
      else (resolveShift person (addDaysToKey today 1) ctx, addDaysToKey today 1) := by
  have hback : addDaysToKey (addDaysToKey today 1) (-1) = today := by simp
  have hne : today ≠ addDaysToKey today 1 := (addDaysToKey_ne (by decide)).symm
  unfold shiftDayWith
  dsimp only
  rw [htoday]
  cases hs : (resolveShift person (addDaysToKey today 1) ctx).shift with
  | none => simp
  | some s =>
    dsimp only
    simp only [shiftDayKey_shift, htoday, hback, Option.some.injEq, exists_eq_left']
    by_cases hearly : EarlyHours s now tz
    · rw [if_pos hearly, if_pos hne]
      cases hs' : (resolveShift person today ctx).shift with
      | none => simp
      | some s' =>
        by_cases hearly' : EarlyHours s' now tz
        · simp [hearly, hearly']
        · simp [hearly', hne.symm]
    · simp [hearly]

/-- From the start of a shift on its own calendar day, it is not early for that shift. -/
theorem not_earlyHours_of_start_le (hz : tz.Constant) (htoday : dateKeyInZone now tz = d)
    (hstart : (shiftBounds shift.clock d tz).1 ≤ now) : ¬EarlyHours shift now tz := by
  rintro ⟨-, hearly⟩
  have hlt : (zonedParts now tz).hour * 60 + (zonedParts now tz).minute < shift.clock.startMin := by
    have hle := shift.clock.le
    omega
  rw [hz.clock_lt, htoday] at hlt
  exact not_le.2 hlt hstart

/-- On the next calendar day the early hours of a shift are what is left of it. -/
theorem earlyHours_iff (hz : tz.Constant) (htoday : dateKeyInZone now tz = addDaysToKey d 1) :
    EarlyHours shift now tz ↔ now < (shiftBounds shift.clock d tz).2 := by
  have hclock : (zonedParts now tz).hour * 60 + (zonedParts now tz).minute <
      shift.clock.endMin - 1440 ↔ now < (shiftBounds shift.clock d tz).2 := by
    rw [hz.clock_lt, htoday, hz.add_day, Int.sub_add_cancel]
    rfl
  unfold EarlyHours
  rw [hclock, and_iff_right_iff_imp]
  intro hlt
  have hmidnight := (hz.dateKeyInZone_eq.1 htoday).1
  rw [hz.add_day] at hmidnight
  have hend : (0 : ℤ) + 1440 < shift.clock.endMin := hz.lt_iff.1 (hmidnight.trans_lt hlt)
  cases hover : shift.clock.overnight with
  | true => rfl
  | false =>
    have hle := shift.clock.end_le hover
    omega

/-- A moment inside a shift is on the calendar day of the shift or on the next one. -/
theorem date_of_working_instant (hz : tz.Constant) (hstart : (shiftBounds shift.clock d tz).1 ≤ now)
    (hstop : now < (shiftBounds shift.clock d tz).2) :
    dateKeyInZone now tz = d ∨ dateKeyInZone now tz = addDaysToKey d 1 := by
  rcases lt_or_ge now (zonedMinutesToUtc d 1440 tz) with hday | hday
  · refine Or.inl (hz.dateKeyInZone_eq.2 ⟨le_trans ?_ hstart, hday⟩)
    exact hz.le_iff.2 shift.clock.start_nonneg
  · refine Or.inr (hz.dateKeyInZone_eq.2 ⟨?_, ?_⟩)
    · rw [hz.add_day]
      exact hday
    · rw [hz.add_day]
      refine hstop.trans_le (hz.le_iff.2 ?_)
      have hle := shift.clock.le
      have hlt := shift.clock.start_lt
      omega

/-! ## Working instants -/

/-- `now` is a working instant of the shift-day `d`: inside the shift resolved for it, and before
the start of the shift resolved for the next day, if there is one. -/
structure WorkingInstant (ctx : ResolutionContext) (person : PersonForShift) (tz : Zone)
    (d : DateKey) (now : ℤ) (shift : ShiftRecord) : Prop where
  resolves : (resolveShift person d ctx).shift = some shift
  start_le : (shiftBounds shift.clock d tz).1 ≤ now
  lt_stop : now < (shiftBounds shift.clock d tz).2
  lt_next : ∀ next, (resolveShift person (addDaysToKey d 1) ctx).shift = some next →
    now < (shiftBounds next.clock (addDaysToKey d 1) tz).1

/-- A working instant belongs to its shift-day exactly while it is still on that calendar day, or in
the early hours of the next day's shift too. -/
theorem working_instant_day (hz : tz.Constant) (h : WorkingInstant ctx person tz d now shift) :
    ((dayWith ctx person now tz).dateKey = d ∧
        (dayWith ctx person now tz).resolved = resolveShift person d ctx) ↔
      dateKeyInZone now tz = d ∨
        ∃ next, (resolveShift person (addDaysToKey d 1) ctx).shift = some next ∧
          EarlyHours next now tz := by
  unfold dayWith
  simp only [forDate_dateKey, forDate_resolved]
  rcases date_of_working_instant hz h.start_le h.lt_stop with htoday | htoday
  · -- on the day itself: today's shift is the one, and it is not early
    have hnot := not_earlyHours_of_start_le hz htoday h.start_le
    have hday : shiftDayWith ctx person now tz = (resolveShift person d ctx, d) := by
      unfold shiftDayWith
      dsimp only
      rw [htoday, h.resolves]
      dsimp only
      rw [shiftDayKey_shift, if_neg hnot, htoday, if_neg (not_not.2 rfl)]
    simp [hday, htoday]
  · have hne : addDaysToKey d 1 ≠ d := addDaysToKey_ne (by decide)
    have hearly := (earlyHours_iff hz htoday).2 h.lt_stop
    rw [shiftDayWith_eq htoday, htoday]
    by_cases hnext : ∃ s, (resolveShift person (addDaysToKey d 1) ctx).shift = some s ∧
        EarlyHours s now tz
    · rw [if_pos ⟨hnext, shift, h.resolves, hearly⟩]
      exact iff_of_true ⟨rfl, rfl⟩ (Or.inr hnext)
    · rw [if_neg fun hboth => hnext hboth.1]
      refine iff_of_false (fun hsame => hne hsame.1) ?_
      rintro (hsame | hsame)
      · exact hne hsame
      · exact hnext hsame

/-- A shift of one person from a start to an end, with no breaks. -/
def plainShift (id : ℕ) (start stop : Hm) : ShiftRecord where
  id := id
  companyId := none
  nameLength := 5
  start := start
  stop := stop
  workDays := [1, 2, 3, 4, 5]
  breaks := []
  ringLeadMin := 1
  ringDurationMin := 5
  reasonMinChars := 10
  overrunGraceMin := 3

/-- 22:00 to 06:00. -/
def nightShift : ShiftRecord := plainShift 0 ⟨1320, by decide⟩ ⟨360, by decide⟩

/-- 09:00 to 17:00. -/
def dayShift : ShiftRecord := plainShift 1 ⟨540, by decide⟩ ⟨1020, by decide⟩

/-- The night shift up to day 0, `next` from day 1 on. -/
def changingShift (next : Option ℕ) : ResolutionContext where
  shiftsById id := if id = 0 then some nightShift else if id = 1 then some dayShift else none
  defaults := []
  assignments := [
    { target := .user (some 7), shiftId := some 0, effectiveFrom := ⟨0⟩, effectiveTo := some ⟨0⟩
      createdAt := 0 },
    { target := .user (some 7), shiftId := next, effectiveFrom := ⟨1⟩, createdAt := 0 }]

/-- At 02:00 of the night of day 0 the moment is counted on day 1, whose shift is a day shift. -/
theorem working_instant_on_next_day :
    ∃ ctx person tz d now shift, Zone.Constant tz ∧ WorkingInstant ctx person tz d now shift ∧
      (dayWith ctx person now tz).dateKey ≠ d := by
  refine ⟨changingShift (some 1), ⟨7, none, none⟩, ⟨fun _ => 0⟩, ⟨0⟩, 93600000, nightShift,
    fun _ _ => rfl, ⟨?_, ?_, ?_, ?_⟩, ?_⟩
  · decide +kernel
  · decide +kernel
  · decide +kernel
  · intro next hnext
    have hday : (resolveShift ⟨7, none, none⟩ (addDaysToKey ⟨0⟩ 1) (changingShift (some 1))).shift =
        some dayShift := by decide +kernel
    obtain rfl := Option.some.inj (hday.symm.trans hnext)
    decide +kernel
  · decide +kernel

/-- While the night shift goes on, and the next day has one too, so does its day. -/
theorem working_instant_of_two_nights :
    (dayWith (changingShift (some 0)) ⟨7, none, none⟩ 93600000 ⟨fun _ => 0⟩).dateKey = ⟨0⟩ := by
  have hnight : ∀ day : Fin 2, (resolveShift ⟨7, none, none⟩ ⟨day⟩ (changingShift (some 0))).shift =
      some nightShift := by decide +kernel
  have h : WorkingInstant (changingShift (some 0)) ⟨7, none, none⟩ ⟨fun _ => 0⟩ ⟨0⟩ 93600000
      nightShift := by
    refine ⟨hnight 0, by decide +kernel, by decide +kernel, fun next hnext => ?_⟩
    obtain rfl := Option.some.inj ((hnight 1).symm.trans hnext)
    decide +kernel
  exact ((working_instant_day (fun _ _ => rfl) h).2
    (Or.inr ⟨nightShift, hnight 1, by decide +kernel⟩)).1

end RxVision
