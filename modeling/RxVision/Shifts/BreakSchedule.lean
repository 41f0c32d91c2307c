import RxVision.Shifts.Clock

/-!
# Shifts and their breaks (`shift.types.ts`, `break-schedule.ts`)

A shift definition with the rules it is checked by (`validateShiftDefinition`) and the breaks it
makes of a shift-day (`breakSlots`). Clock times are `Hm` values, so the two checks that a text is a
clock time cannot fail here; counts are whole numbers. `enabledBreaks_ok` is what the checks promise
of every break a slot is made of.
-/

namespace RxVision

/-- `BreakKind`. -/
inductive BreakKind
  | morning | lunch | evening
  deriving DecidableEq, Repr

/-- `BREAK_KINDS`, in the order of the day. -/
def BREAK_KINDS : List BreakKind := [.morning, .lunch, .evening]

/-- Every kind is listed. -/
theorem BreakKind.mem (kind : BreakKind) : kind ∈ BREAK_KINDS := by
  cases kind <;> decide

/-- `BREAK_LABEL`. -/
def BREAK_LABEL : BreakKind → String
  | .morning => "Morning break"
  | .lunch => "Lunch break"
  | .evening => "Evening break"

/-- `BREAK_PRESENCE_TYPE`. -/
def BREAK_PRESENCE_TYPE : BreakKind → PresenceType
  | .morning | .evening => .brk
  | .lunch => .lunch

/-- `defaultAllowSkip`. -/
def defaultAllowSkip (kind : BreakKind) : Bool := kind ≠ .lunch

/-- `ShiftBreakDef`. -/
structure ShiftBreakDef where
  kind : BreakKind
  enabled : Bool := true
  startTime : Hm
  durationMin : ℤ
  windowBeforeMin : ℤ
  windowAfterMin : ℤ
  allowSkip : Option Bool := none
  deriving DecidableEq, Repr

/-- `breakAllowsSkip`. -/
def breakAllowsSkip (b : ShiftBreakDef) : Bool := b.allowSkip.getD (defaultAllowSkip b.kind)

/-- `ShiftDefinition`, as far as the rules here read it; `nameLength` is of the trimmed name. -/
structure ShiftDefinition where
  nameLength : ℕ
  start : Hm
  stop : Hm
  workDays : List ℤ
  breaks : List ShiftBreakDef
  ringLeadMin : ℤ
  ringDurationMin : ℤ
  reasonMinChars : ℤ
  overrunGraceMin : ℤ
  deriving DecidableEq, Repr

/-- `BreakSlot`: one scheduled break of a shift on a shift-day. -/
structure BreakSlot where
  kind : BreakKind
  label : String
  presenceType : PresenceType
  durationMin : ℤ
  scheduledStart : ℤ
  scheduledEnd : ℤ
  windowOpen : ℤ
  windowClose : ℤ
  ringStart : ℤ
  ringEnd : ℤ
  allowSkip : Bool
  deriving DecidableEq, Repr

/-- Smallest and largest value of a setting. -/
structure Limit where
  min : ℤ
  max : ℤ

/-- `LIMITS`, less the longest name. -/
structure Limits where
  durationMin : Limit := ⟨1, 240⟩
  windowBeforeMin : Limit := ⟨0, 240⟩
  windowAfterMin : Limit := ⟨0, 480⟩
  ringLeadMin : Limit := ⟨0, 30⟩
  ringDurationMin : Limit := ⟨1, 30⟩
  reasonMinChars : Limit := ⟨1, 200⟩
  overrunGraceMin : Limit := ⟨0, 60⟩

def LIMITS : Limits := {}

/-- `LIMITS.nameMax`. -/
def nameMax : ℕ := 60

/-- The text of a clock time. -/
def Hm.text (hm : Hm) : String :=
  let pad2 (n : ℕ) := if n < 10 then s!"0{n}" else s!"{n}"
  pad2 (hm.minutes / 60) ++ ":" ++ pad2 (hm.minutes % 60)

namespace ShiftDefinition

variable (s : ShiftDefinition)

def clock : ShiftClock := clockOf s.start s.stop

/-- The enabled break of a kind. -/
def enabledBreak (kind : BreakKind) : Option ShiftBreakDef :=
  s.breaks.find? fun b => b.kind = kind && b.enabled

/-- The enabled breaks, in the order of the day. -/
def enabledBreaks : List ShiftBreakDef := BREAK_KINDS.filterMap s.enabledBreak

/-- An error with its text. -/
def problem (wrong : Bool) (text : String) : List String := if wrong then [text] else []

/-- `range`: a setting outside its limits. -/
def range (label : String) (v : ℤ) (lim : Limit) : List String :=
  let low := lim.min
  let high := lim.max
  problem (v < lim.min || v > lim.max) s!"{label} must be a whole number from {low} to {high}."

/-- The checks of one enabled break. -/
def breakProblems (b : ShiftBreakDef) : List String :=
  let label := BREAK_LABEL b.kind
  let startText := b.startTime.text
  let start := shiftMinutes s.clock b.startTime
  range (label ++ " length") b.durationMin LIMITS.durationMin ++
  range (label ++ " window before") b.windowBeforeMin LIMITS.windowBeforeMin ++
  range (label ++ " window after") b.windowAfterMin LIMITS.windowAfterMin ++
  problem (start < s.clock.startMin || start + b.durationMin > s.clock.endMin)
    s!"{label} ({startText}) must sit inside the shift hours." ++
  problem (s.ringLeadMin > b.windowBeforeMin)
    (label ++ ": the ring would start before the window opens. Widen the window or ring later.") ++
  problem (b.windowAfterMin < s.ringDurationMin - s.ringLeadMin)
    (label ++ ": the window closes while the agent is still ringing. Widen the window.")

/-- The checks of an enabled break against the one after it. -/
def orderProblems (a z : ShiftBreakDef) : List String :=
  let aStart := shiftMinutes s.clock a.startTime
  let zStart := shiftMinutes s.clock z.startTime
  if zStart ≤ aStart then ["Breaks must run in order: morning, then lunch, then evening."]
  else
    problem (aStart + a.windowAfterMin > zStart - z.windowBeforeMin)
      (BREAK_LABEL a.kind ++ " window overlaps the " ++ (BREAK_LABEL z.kind).toLower ++
        " window. Windows cannot overlap: that is what stops an earlier break being taken " ++
        "after a later one.")

/-- `validateShiftDefinition`: what is wrong with a definition. -/
def validateShiftDefinition : List String :=
  let longest := nameMax
  let kinds := s.breaks.map ShiftBreakDef.kind
  problem (s.nameLength = 0) "Give the shift a name." ++
  problem (s.nameLength > nameMax) s!"Shift name is longer than {longest} characters." ++
  problem (s.start = s.stop) "Shift start and end cannot be the same time." ++
  problem s.workDays.isEmpty "Pick at least one working day." ++
  problem (s.workDays.any fun d => d < 1 || d > 7)
    "Working days must be 1 (Monday) to 7 (Sunday)." ++
  problem (¬s.workDays.Nodup) "Working days are listed twice." ++
  range "Ring lead (minutes before)" s.ringLeadMin LIMITS.ringLeadMin ++
  range "Ring length (minutes)" s.ringDurationMin LIMITS.ringDurationMin ++
  range "Minimum reason length" s.reasonMinChars LIMITS.reasonMinChars ++
  range "Overrun grace (minutes)" s.overrunGraceMin LIMITS.overrunGraceMin ++
  problem (¬kinds.Nodup) "Each break (morning, lunch, evening) can appear once." ++
  s.enabledBreaks.flatMap s.breakProblems ++
  (s.enabledBreaks.zip s.enabledBreaks.tail).flatMap fun (a, z) => s.orderProblems a z

/-- `isWorkDay`. -/
def isWorkDay (dateKey : DateKey) : Bool := s.workDays.contains (isoWeekdayOfKey dateKey)

/-- The slot of one enabled break. -/
def slotOf (dateKey : DateKey) (tz : Zone) (b : ShiftBreakDef) : BreakSlot :=
  let startMin := shiftMinutes s.clock b.startTime
  let instant (min : ℤ) := zonedMinutesToUtc dateKey min tz
  { kind := b.kind
    label := BREAK_LABEL b.kind
    presenceType := BREAK_PRESENCE_TYPE b.kind
    durationMin := b.durationMin
    scheduledStart := instant startMin
    scheduledEnd := instant (startMin + b.durationMin)
    windowOpen := instant (startMin - b.windowBeforeMin)
    windowClose := instant (startMin + b.windowAfterMin)
    ringStart := instant (startMin - s.ringLeadMin)
    ringEnd := instant (startMin - s.ringLeadMin + s.ringDurationMin)
    allowSkip := breakAllowsSkip b }

/-- `breakSlots`: the enabled breaks on a shift-day, in order. -/
def breakSlots (dateKey : DateKey) (tz : Zone) : List BreakSlot :=
  s.enabledBreaks.map (s.slotOf dateKey tz)

/-! ## What the checks promise -/

variable {s} {b : ShiftBreakDef} {kind : BreakKind}

/-- There is no problem when nothing is wrong. -/
theorem problem_eq_nil {wrong : Bool} {text : String} :
    problem wrong text = [] ↔ wrong = false := by
  unfold problem
  cases wrong <;> simp

/-- There is no problem within the limits. -/
theorem range_eq_nil {label : String} {v : ℤ} {lim : Limit} :
    range label v lim = [] ↔ lim.min ≤ v ∧ v ≤ lim.max := by
  unfold range
  rw [problem_eq_nil]
  simp

/-- The enabled breaks are those of their kinds. -/
theorem mem_enabledBreaks : b ∈ s.enabledBreaks ↔ s.enabledBreak b.kind = some b := by
  unfold enabledBreaks
  rw [List.mem_filterMap]
  constructor
  · rintro ⟨kind, -, h⟩
    have hsel := List.find?_some h
    simp only [Bool.and_eq_true, decide_eq_true_eq] at hsel
    rw [hsel.1]
    exact h
  · exact fun h => ⟨b.kind, b.kind.mem, h⟩

/-- A shift-day has one slot of a kind. -/
theorem eq_of_kind {dateKey : DateKey} {tz : Zone} {slot slot' : BreakSlot}
    (h : slot ∈ s.breakSlots dateKey tz) (h' : slot' ∈ s.breakSlots dateKey tz)
    (hkind : slot.kind = slot'.kind) : slot = slot' := by
  obtain ⟨b, hb, rfl⟩ := List.mem_map.1 h
  obtain ⟨b', hb', rfl⟩ := List.mem_map.1 h'
  have hb := mem_enabledBreaks.1 hb
  have hb' := mem_enabledBreaks.1 hb'
  have hkind : b.kind = b'.kind := hkind
  rw [hkind] at hb
  rw [Option.some.inj (hb.symm.trans hb')]

/-- Every enabled break of a checked shift is inside the shift, with a window around its start. -/
theorem enabledBreaks_ok (h : s.validateShiftDefinition = []) (hb : b ∈ s.enabledBreaks) :
    1 ≤ b.durationMin ∧ 0 ≤ b.windowBeforeMin ∧ 0 ≤ b.windowAfterMin ∧
      s.clock.startMin ≤ shiftMinutes s.clock b.startTime ∧
      shiftMinutes s.clock b.startTime + b.durationMin ≤ s.clock.endMin := by
  unfold validateShiftDefinition at h
  simp only [List.append_eq_nil_iff, List.flatMap_eq_nil_iff] at h
  have hproblems := h.1.2 b hb
  unfold breakProblems at hproblems
  simp only [List.append_eq_nil_iff, range_eq_nil, problem_eq_nil, Bool.or_eq_false_iff,
    decide_eq_false_iff_not, not_lt] at hproblems
  obtain ⟨⟨⟨⟨⟨hlength, hbefore⟩, hafter⟩, hin⟩, -⟩, -⟩ := hproblems
  exact ⟨hlength.1, hbefore.1, hafter.1, hin.1, hin.2⟩

/-- Without changes of the clock, the window of a checked break is around its start. -/
theorem slot_inOrder {dateKey : DateKey} {tz : Zone} {slot : BreakSlot} (hz : tz.Constant)
    (h : s.validateShiftDefinition = []) (hslot : slot ∈ s.breakSlots dateKey tz) :
    slot.windowOpen ≤ slot.scheduledStart ∧ slot.scheduledStart ≤ slot.windowClose := by
  obtain ⟨b, hb, rfl⟩ := List.mem_map.1 hslot
  obtain ⟨-, hbefore, hafter, -⟩ := enabledBreaks_ok h hb
  refine ⟨hz.le_iff.2 ?_, hz.le_iff.2 ?_⟩ <;> omega

end ShiftDefinition

end RxVision
