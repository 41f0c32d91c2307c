import RxVision.Shifts.BreakSchedule

/-!
# The windows of a checked shift (`break-schedule.ts`)

`phaseAt` places an instant in the window of a slot, and `classifyStart` judges a start by it. A
definition that passes `validateShiftDefinition` makes windows that are well formed
(`breakSlots_wellFormed`), whatever breaks it enables. The checks compare neighbours only, in
minutes after the shift-day's midnight; since no window ends before it opens the order carries
over to every pair (`pairwise_of_zip_tail`), and on a zone of constant offset it is the order of
the instants.
-/

namespace RxVision

/-- `BreakTiming`. -/
inductive BreakTiming
  | onTime | early | late | outsideWindow | unscheduled
  deriving DecidableEq, Repr

/-- `SlotPhase`. -/
inductive SlotPhase
  | upcoming | early | due | late | closed
  deriving DecidableEq, Repr

/-- `ShiftRules`, as far as a start is judged by them. -/
structure ShiftRules where
  reasonOnEarly : Bool
  reasonOnLate : Bool
  deriving DecidableEq, Repr

/-- `StartClassification`. -/
structure StartClassification where
  timing : BreakTiming
  minutesOff : ℤ
  reasonRequired : Bool
  deriving DecidableEq, Repr

/-- `phaseAt`: where `now` falls relative to a slot. -/
def phaseAt (slot : BreakSlot) (now : ℤ) : SlotPhase :=
  if now < slot.windowOpen then .upcoming
  else if now ≥ slot.windowClose then .closed
  else if now < slot.ringStart then .early
  else if now < slot.ringEnd then .due
  else .late

/-- `classifyStart`: how a start at `now` is judged. The minutes are `Math.ceil`, `Math.floor` and
`Math.round` of the milliseconds off, over 60 000. -/
def classifyStart (slot : BreakSlot) (now : ℤ) (rules : ShiftRules) : StartClassification :=
  let delta := now - slot.scheduledStart
  match phaseAt slot now with
  | .due => { timing := .onTime, minutesOff := 0, reasonRequired := false }
  | .early =>
    { timing := .early
      minutesOff := max 1 (-(delta / 60000))
      reasonRequired := rules.reasonOnEarly }
  | .late =>
    { timing := .late
      minutesOff := max 1 (delta / 60000)
      reasonRequired := rules.reasonOnLate }
  | .upcoming | .closed =>
    { timing := .outsideWindow
      minutesOff := max 0 ((max delta (-delta) + 30000) / 60000)
      reasonRequired := false }

/-! ## Slots with a well formed window -/

/-- The ring and the start lie in the window, and the break in the shift. -/
structure BreakSlot.WellFormed (slot : BreakSlot) (bounds : ℤ × ℤ) : Prop where
  open_le_ring : slot.windowOpen ≤ slot.ringStart
  ring : slot.ringStart < slot.ringEnd
  ring_le_close : slot.ringEnd ≤ slot.windowClose
  open_le_start : slot.windowOpen ≤ slot.scheduledStart
  start_le_close : slot.scheduledStart ≤ slot.windowClose
  start_le_end : slot.scheduledStart ≤ slot.scheduledEnd
  inside : bounds.1 ≤ slot.scheduledStart ∧ slot.scheduledEnd ≤ bounds.2

/-- A phase between upcoming and closed is the inside of the window. -/
theorem phaseAt_inside {slot : BreakSlot} {t : ℤ} :
    phaseAt slot t ≠ .upcoming ∧ phaseAt slot t ≠ .closed ↔
      slot.windowOpen ≤ t ∧ t < slot.windowClose := by
  unfold phaseAt
  split
  · simp; omega
  · split
    · simp; omega
    · have hin : slot.windowOpen ≤ t ∧ t < slot.windowClose := by omega
      simp only [hin, and_self, iff_true]
      split
      · simp
      · split <;> simp

/-- A start is on time exactly while the agent rings, when the ring lies in the window. -/
theorem BreakSlot.WellFormed.onTime_iff {slot : BreakSlot} {bounds : ℤ × ℤ}
    (h : slot.WellFormed bounds) {t : ℤ} {rules : ShiftRules} :
    (classifyStart slot t rules).timing = .onTime ↔ slot.ringStart ≤ t ∧ t < slot.ringEnd := by
  have hphase : phaseAt slot t = .due ↔ slot.ringStart ≤ t ∧ t < slot.ringEnd := by
    have := h.open_le_ring
    have := h.ring_le_close
    unfold phaseAt
    split
    · simp; omega
    · split
      · simp; omega
      · split
        · simp; omega
        · split
          · simp; omega
          · simp; omega
  rw [← hphase]
  unfold classifyStart
  cases phaseAt slot t <;> simp

/-- What holds of neighbours holds of every pair, when it carries over from one pair to the next. -/
theorem pairwise_of_zip_tail {α : Type*} {R : α → α → Prop} {l : List α}
    (htrans : ∀ a b c, b ∈ l → R a b → R b c → R a c) (h : ∀ az ∈ l.zip l.tail, R az.1 az.2) :
    l.Pairwise R := by
  induction l with
  | nil => exact .nil
  | cons a l ih =>
    cases l with
    | nil => exact List.pairwise_singleton _ _
    | cons b l =>
      have hab : R a b := h (a, b) (.head _)
      have hrest : (b :: l).Pairwise R :=
        ih (fun x y z hy => htrans x y z (.tail _ hy)) fun az haz => h az (.tail _ haz)
      refine List.pairwise_cons.2 ⟨fun z hz => ?_, hrest⟩
      rcases List.mem_cons.1 hz with rfl | hz
      · exact hab
      · exact htrans a b z (.tail _ (.head _)) hab (List.rel_of_pairwise_cons hrest hz)

/-- Among elements of different keys, the one with a key that is looked for is the only one. -/
theorem filter_eq_find?_toList {α β : Type*} {key : α → β} {p : α → Bool} {l : List α}
    (h : (l.map key).Nodup) (hp : ∀ a b, p a → p b → key a = key b) :
    l.filter p = (l.find? p).toList := by
  induction l with
  | nil => rfl
  | cons a l ih =>
    obtain ⟨ha, hl⟩ := List.nodup_cons.1 h
    rw [List.filter_cons, List.find?_cons]
    split
    · next hpa =>
      have hnone : l.filter p = [] := List.filter_eq_nil_iff.2 fun b hb hpb =>
        ha (List.mem_map.2 ⟨b, hb, hp b a hpb hpa⟩)
      rw [hnone, hpa]
      rfl
    · next hpa =>
      rw [Bool.not_eq_true] at hpa
      rw [hpa, ih hl]

namespace ShiftDefinition

variable {s : ShiftDefinition} {b : ShiftBreakDef} {dateKey : DateKey} {tz : Zone}

/-- The ring of an enabled break of a checked shift lies in its window. -/
theorem ring_ok (h : s.validateShiftDefinition = []) (hb : b ∈ s.enabledBreaks) :
    1 ≤ s.ringDurationMin ∧ s.ringLeadMin ≤ b.windowBeforeMin ∧
      s.ringDurationMin - s.ringLeadMin ≤ b.windowAfterMin := by
  unfold validateShiftDefinition at h
  simp only [List.append_eq_nil_iff, List.flatMap_eq_nil_iff, range_eq_nil] at h
  obtain ⟨⟨⟨⟨⟨⟨-, hring⟩, -⟩, -⟩, -⟩, hbreaks⟩, -⟩ := h
  have hproblems := hbreaks b hb
  unfold breakProblems at hproblems
  simp only [List.append_eq_nil_iff, problem_eq_nil, decide_eq_false_iff_not, not_lt] at hproblems
  exact ⟨hring.1, hproblems.1.2, hproblems.2⟩

/-- The kinds of the breaks of a checked shift are distinct. -/
theorem kinds_nodup (h : s.validateShiftDefinition = []) :
    (s.breaks.map ShiftBreakDef.kind).Nodup := by
  unfold validateShiftDefinition at h
  simp only [List.append_eq_nil_iff, problem_eq_nil] at h
  obtain ⟨⟨⟨-, hkinds⟩, -⟩, -⟩ := h
  simpa using hkinds

/-- The windows of neighbouring enabled breaks of a checked shift do not overlap. -/
theorem neighbours_ok (h : s.validateShiftDefinition = []) {a z : ShiftBreakDef}
    (haz : (a, z) ∈ s.enabledBreaks.zip s.enabledBreaks.tail) :
    shiftMinutes s.clock a.startTime + a.windowAfterMin ≤
      shiftMinutes s.clock z.startTime - z.windowBeforeMin := by
  unfold validateShiftDefinition at h
  simp only [List.append_eq_nil_iff, List.flatMap_eq_nil_iff] at h
  have horder : s.orderProblems a z = [] := h.2 (a, z) haz
  unfold orderProblems at horder
  dsimp only at horder
  split at horder
  · exact absurd horder (by simp)
  · rw [problem_eq_nil] at horder
    exact not_lt.1 (of_decide_eq_false horder)

/-- The enabled breaks of a checked shift, kind by kind: at most one of each, in the
order of the kinds. -/
theorem enabledBreaks_eq (h : s.validateShiftDefinition = []) : s.enabledBreaks =
    BREAK_KINDS.flatMap fun kind => s.breaks.filter fun b => b.kind = kind && b.enabled := by
  have hone : ∀ kind, (s.breaks.filter fun b => b.kind = kind && b.enabled) =
      (s.enabledBreak kind).toList := by
    intro kind
    refine filter_eq_find?_toList (kinds_nodup h) fun a b ha hb => ?_
    simp only [Bool.and_eq_true, decide_eq_true_eq] at ha hb
    exact ha.1.trans hb.1.symm
  simp only [hone]
  unfold enabledBreaks
  induction BREAK_KINDS with
  | nil => rfl
  | cons kind kinds ih =>
    rw [List.filterMap_cons, List.flatMap_cons, ih]
    cases s.enabledBreak kind <;> rfl

/-- The slot of an enabled break of a checked shift is well formed in a zone without
clock changes. -/
theorem slotOf_wellFormed (hz : tz.Constant) (h : s.validateShiftDefinition = [])
    (hb : b ∈ s.enabledBreaks) :
    (s.slotOf dateKey tz b).WellFormed (shiftBounds s.clock dateKey tz) := by
  obtain ⟨hlength, hbefore, hafter, hstart, hend⟩ := enabledBreaks_ok h hb
  obtain ⟨hring, hlead, hring'⟩ := ring_ok h hb
  exact {
    open_le_ring := hz.le_iff.2 (by omega)
    ring := hz.lt_iff.2 (by omega)
    ring_le_close := hz.le_iff.2 (by omega)
    open_le_start := hz.le_iff.2 (by omega)
    start_le_close := hz.le_iff.2 (by omega)
    start_le_end := hz.le_iff.2 (by omega)
    inside := ⟨hz.le_iff.2 hstart, hz.le_iff.2 hend⟩ }

/-- In minutes, the window of every enabled break of a checked shift closes before the next one
opens. -/
theorem windowMinutes_inOrder (h : s.validateShiftDefinition = []) :
    s.enabledBreaks.Pairwise fun a z =>
      shiftMinutes s.clock a.startTime + a.windowAfterMin ≤
        shiftMinutes s.clock z.startTime - z.windowBeforeMin := by
  refine pairwise_of_zip_tail (fun a b c hb hab hbc => ?_) fun az haz => neighbours_ok h haz
  obtain ⟨-, hbefore, hafter, -⟩ := enabledBreaks_ok h hb
  omega

/-- The windows of a checked shift-day follow one another. -/
theorem windows_inOrder (hz : tz.Constant) (h : s.validateShiftDefinition = []) :
    (s.breakSlots dateKey tz).Pairwise fun a z => a.windowClose ≤ z.windowOpen :=
  List.pairwise_map.2 ((windowMinutes_inOrder h).imp fun haz => hz.le_iff.2 haz)

/-- An instant is inside at most one window of a checked shift-day, in a zone without
clock changes. -/
theorem window_unique (hz : tz.Constant) (h : s.validateShiftDefinition = []) {a z : BreakSlot}
    {t : ℤ} (ha : a ∈ s.breakSlots dateKey tz) (hzm : z ∈ s.breakSlots dateKey tz)
    (hat : a.windowOpen ≤ t ∧ t < a.windowClose) (hzt : z.windowOpen ≤ t ∧ t < z.windowClose) :
    a = z := by
  have hpair : (s.breakSlots dateKey tz).Pairwise fun a z =>
      a = z ∨ a.windowClose ≤ z.windowOpen ∨ z.windowClose ≤ a.windowOpen :=
    (windows_inOrder hz h).imp fun haz => .inr (.inl haz)
  rcases hpair.forall_of_forall_of_flip (fun _ _ => .inl rfl)
    (hpair.imp fun h => h.imp Eq.symm Or.symm) ha hzm with heq | hlt | hlt
  · exact heq
  · omega
  · omega

end ShiftDefinition

/-- The slots of a checked shift on a day: the enabled breaks in the order of the day, with well
formed windows that follow one another, at most one of them open at an instant, and its ring the
instants a start is on time. -/
theorem breakSlots_wellFormed (s : ShiftDefinition) (h : s.validateShiftDefinition = [])
    (dateKey : DateKey) (tz : Zone) (hz : tz.Constant) :
    s.breakSlots dateKey tz = (BREAK_KINDS.flatMap fun kind =>
        s.breaks.filter fun b => b.kind = kind && b.enabled).map (s.slotOf dateKey tz) ∧
      (∀ slot ∈ s.breakSlots dateKey tz, slot.WellFormed (shiftBounds s.clock dateKey tz)) ∧
      (s.breakSlots dateKey tz).Pairwise (fun a z => a.windowClose ≤ z.windowOpen) ∧
      (∀ t, ∀ a ∈ s.breakSlots dateKey tz, ∀ z ∈ s.breakSlots dateKey tz,
        phaseAt a t ≠ .upcoming ∧ phaseAt a t ≠ .closed →
        phaseAt z t ≠ .upcoming ∧ phaseAt z t ≠ .closed → a = z) ∧
      ∀ t rules, ∀ slot ∈ s.breakSlots dateKey tz,
        (classifyStart slot t rules).timing = .onTime ↔ slot.ringStart ≤ t ∧ t < slot.ringEnd := by
  have hformed : ∀ slot ∈ s.breakSlots dateKey tz,
      slot.WellFormed (shiftBounds s.clock dateKey tz) := by
    intro slot hslot
    obtain ⟨b, hb, rfl⟩ := List.mem_map.1 hslot
    exact ShiftDefinition.slotOf_wellFormed hz h hb
  refine ⟨?_, hformed, ShiftDefinition.windows_inOrder hz h, fun t a ha z hzm hat hzt => ?_,
    fun t rules slot hslot => (hformed slot hslot).onTime_iff⟩
  · rw [ShiftDefinition.breakSlots, ShiftDefinition.enabledBreaks_eq h]
  · exact ShiftDefinition.window_unique hz h ha hzm (phaseAt_inside.1 hat) (phaseAt_inside.1 hzt)

/-- The clock time of a minute of the day. -/
def clockTime (minute : Fin 1440) : Hm := ⟨minute, minute.isLt⟩

/-- A shift from 22:00 to 06:00 with a lunch before midnight, an evening break after it and a
morning break that is switched off. -/
def overnightBreaks : ShiftDefinition where
  nameLength := 5
  start := clockTime 1320
  stop := clockTime 360
  workDays := [1, 2, 3, 4, 5]
  breaks := [
    { kind := .evening, startTime := clockTime 150, durationMin := 15, windowBeforeMin := 10
      windowAfterMin := 30 },
    { kind := .morning, enabled := false, startTime := clockTime 600, durationMin := 15
      windowBeforeMin := 10, windowAfterMin := 30 },
    { kind := .lunch, startTime := clockTime 1410, durationMin := 30, windowBeforeMin := 10
      windowAfterMin := 60 }]
  ringLeadMin := 5
  ringDurationMin := 10
  reasonMinChars := 10
  overrunGraceMin := 3

/-- The two slots of that night, half an hour east of Greenwich. -/
theorem overnightBreaks_wellFormed :
    (overnightBreaks.breakSlots ⟨20000⟩ ⟨fun _ => 1800⟩).length = 2 ∧
      ∀ slot ∈ overnightBreaks.breakSlots ⟨20000⟩ ⟨fun _ => 1800⟩,
        slot.WellFormed (shiftBounds overnightBreaks.clock ⟨20000⟩ ⟨fun _ => 1800⟩) :=
  ⟨by decide +kernel, (breakSlots_wellFormed overnightBreaks (by decide +kernel) ⟨20000⟩
    ⟨fun _ => 1800⟩ fun _ _ => rfl).2.1⟩

end RxVision
