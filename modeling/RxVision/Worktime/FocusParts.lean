import Mathlib.Algebra.Order.BigOperators.Group.List
import RxVision.Worktime.OfflineEvidence

/-!
# The parts of a day's focus time

The numbers `computeFocus` returns balance (`computeFocus_balanced`), whatever the records of the
day are: the break time splits into scheduled, quick and other time and into paid and unpaid time,
the paid part splits into scheduled minutes and buffer, and breaks and unverified time share no
second of the span.

`mul_focusSec_eq` reads the focus time of a day without manual additions as the size of a set. The
parts that are taken off share no instant, except that a rejected meeting may lie over a break or
over away time that is taken off as well, and then counts twice (`rejectedOverAway_focusSec`).
-/

namespace RxVision

/-! ## The loops are sums -/

namespace FocusBreakRecord

variable (r : FocusBreakRecord)

/-- The record is an asked overrun. -/
def IsAsked : Prop := r.outcome = .taken ∧ r.overrunAsked

instance : Decidable r.IsAsked := inferInstanceAs (Decidable (_ ∧ _))

/-- What the record adds to the overruns of one approval status. -/
def plusSec (status : BreakApprovalStatus) : ℤ :=
  if r.IsAsked ∧ r.approvalStatus = status then max 0 (mathRound (r.overrunSec.getD 0)) else 0

/-- What the record adds to the skips of one approval status. -/
def minusSec (status : BreakApprovalStatus) : ℤ :=
  if r.isSkip ∧ r.approvalStatus = status then r.lengthSec else 0

variable (work : List Interval) (now : ℤ)

/-- The time taken, when the record is of a kind that meets `p`. -/
def takenSecOf (p : FocusBreakRecord → Bool) : ℤ :=
  if r.outcome ≠ .taken ∨ r.segments = [] then 0 else if p r then r.takenSec work now else 0

/-- What the record adds to the quick breaks. -/
def quickSec : ℤ := r.takenSecOf work now fun r => r.kind = some .quick

/-- What the record adds to the scheduled breaks. -/
def scheduledSec : ℤ := r.takenSecOf work now isScheduled

/-- The part of it within the break's length. -/
def withinSec : ℤ := min (r.scheduledSec work now) r.lengthSec

/-- The part of it past the break's length. -/
def pastSec : ℤ := max 0 (r.scheduledSec work now - r.lengthSec)

/-- What a break adds is not negative. -/
theorem plusSec_nonneg (status : BreakApprovalStatus) : 0 ≤ r.plusSec status := by
  unfold plusSec
  split
  · exact le_max_left _ _
  · exact le_rfl

/-- Nor is its length. -/
theorem lengthSec_nonneg : 0 ≤ r.lengthSec := minutesToSec_nonneg _

/-- Nor is what it takes away. -/
theorem minusSec_nonneg (status : BreakApprovalStatus) : 0 ≤ r.minusSec status := by
  unfold minusSec
  split
  · exact r.lengthSec_nonneg
  · exact le_rfl

/-- Nor is what was taken of it. -/
theorem takenSecOf_nonneg (p : FocusBreakRecord → Bool) : 0 ≤ r.takenSecOf work now p := by
  unfold takenSecOf
  split
  · exact le_rfl
  · split
    · exact toSec_lengthMs_nonneg _
    · exact le_rfl

/-- Nor is what lies within its planned time. -/
theorem withinSec_nonneg : 0 ≤ r.withinSec work now :=
  le_min (r.takenSecOf_nonneg _ _ _) r.lengthSec_nonneg

end FocusBreakRecord

namespace BreakTotals

variable {work : List Interval} {now : ℤ}

/-- One round of the loop over the approvals adds to each total what the record has for it, by its
outcome and its status. -/
theorem addApproval_eq (t : BreakTotals) (r : FocusBreakRecord) : t.addApproval r = { t with
    approvedPlusSec := t.approvedPlusSec + r.plusSec .approved
    pendingPlusSec := t.pendingPlusSec + r.plusSec .pending
    rejectedMinusSec := t.rejectedMinusSec + r.minusSec .rejected
    pendingMinusSec := t.pendingMinusSec + r.minusSec .pending } := by
  rw [addApproval]
  split
  · next hasked =>
    have hskip : ¬ r.isSkip := by simp [FocusBreakRecord.isSkip, hasked.1]
    have hasked : r.IsAsked := hasked
    cases hstatus : r.approvalStatus <;>
      simp [FocusBreakRecord.plusSec, FocusBreakRecord.minusSec, hasked, hskip, hstatus]
  · next hasked =>
    have hasked : ¬ r.IsAsked := hasked
    split
    · next hskip =>
      cases hstatus : r.approvalStatus <;>
        simp [FocusBreakRecord.plusSec, FocusBreakRecord.minusSec, hasked, hskip, hstatus]
    · next hskip =>
      simp [FocusBreakRecord.plusSec, FocusBreakRecord.minusSec, hasked, hskip]

/-- One round of the loop over the time taken adds to each total what the record has for it. -/
theorem addTaken_eq (t : BreakTotals) (r : FocusBreakRecord) : t.addTaken work now r = { t with
    scheduledTakenSec := t.scheduledTakenSec + r.scheduledSec work now
    paidScheduledSec := t.paidScheduledSec + r.withinSec work now
    overrunSec := t.overrunSec + r.pastSec work now
    quickBreakSec := t.quickBreakSec + r.quickSec work now } := by
  have hlen := r.lengthSec_nonneg
  unfold addTaken
  simp only [FocusBreakRecord.withinSec, FocusBreakRecord.pastSec, FocusBreakRecord.scheduledSec,
    FocusBreakRecord.quickSec, FocusBreakRecord.takenSecOf, decide_eq_true_eq]
  split
  · simp [hlen]
  · split
    · next hquick =>
      have : ¬ r.isScheduled := by simp [FocusBreakRecord.isScheduled, hquick]
      simp [this, hlen]
    · split
      · simp
      · simp [hlen]

/-- The whole loop adds to each total what the records have for it. By induction on the records,
one round at a time. -/
theorem foldl_eq (records : List FocusBreakRecord) (t : BreakTotals) :
    records.foldl (add work now) t = {
      approvedPlusSec := t.approvedPlusSec + (records.map fun r => r.plusSec .approved).sum
      pendingPlusSec := t.pendingPlusSec + (records.map fun r => r.plusSec .pending).sum
      rejectedMinusSec := t.rejectedMinusSec + (records.map fun r => r.minusSec .rejected).sum
      pendingMinusSec := t.pendingMinusSec + (records.map fun r => r.minusSec .pending).sum
      scheduledTakenSec :=
        t.scheduledTakenSec + (records.map fun r => r.scheduledSec work now).sum
      paidScheduledSec := t.paidScheduledSec + (records.map fun r => r.withinSec work now).sum
      overrunSec := t.overrunSec + (records.map fun r => r.pastSec work now).sum
      quickBreakSec := t.quickBreakSec + (records.map fun r => r.quickSec work now).sum } := by
  induction records generalizing t with
  | nil => simp
  | cons r records ih =>
    rw [List.foldl_cons, ih, add, addTaken_eq, addApproval_eq]
    simp only [List.map_cons, List.sum_cons, add_assoc]

end BreakTotals

/-- Seconds of the meeting inside the work sessions. -/
def FocusMeetingRecord.inWorkSec (m : FocusMeetingRecord) (work : List Interval) (now : ℤ) : ℤ :=
  toSec (lengthMs (intersect [m.toStretch.wholeSpan now] work))

/-- What the meeting adds to the meetings of one approval status. -/
def FocusMeetingRecord.minusSec (m : FocusMeetingRecord) (work : List Interval) (now : ℤ)
    (status : BreakApprovalStatus) : ℤ :=
  if m.approvalStatus = status then m.inWorkSec work now else 0

/-- What a meeting takes away is not negative. -/
theorem FocusMeetingRecord.minusSec_nonneg (m : FocusMeetingRecord) (work : List Interval)
    (now : ℤ) (status : BreakApprovalStatus) : 0 ≤ m.minusSec work now status := by
  unfold minusSec
  split
  · exact toSec_lengthMs_nonneg _
  · exact le_rfl

/-- The loop over the meeting records adds to each total what the meetings have for it. -/
theorem MeetingTotals.foldl_sum (work : List Interval) (now : ℤ) (records : List FocusMeetingRecord)
    (t : MeetingTotals) :
    (records.foldl (MeetingTotals.add work now) t).rejectedMinusSec =
        t.rejectedMinusSec + (records.map fun m => m.minusSec work now .rejected).sum ∧
      (records.foldl (MeetingTotals.add work now) t).pendingMinusSec =
        t.pendingMinusSec + (records.map fun m => m.minusSec work now .pending).sum := by
  induction records generalizing t with
  | nil => simp
  | cons m records ih =>
    rw [List.foldl_cons, (ih _).1, (ih _).2, List.map_cons, List.map_cons, List.sum_cons,
      List.sum_cons, MeetingTotals.add]
    cases hm : m.approvalStatus <;>
      simp [FocusMeetingRecord.minusSec, FocusMeetingRecord.inWorkSec, hm, add_assoc]

namespace FocusInput

variable (input : FocusInput)

/-- The totals of the day's break records are sums over the records, so a decision on one of them
changes one summand. -/
theorem breakTotals_eq : input.breakTotals = {
    approvedPlusSec := (input.breakRecords.map fun r => r.plusSec .approved).sum
    pendingPlusSec := (input.breakRecords.map fun r => r.plusSec .pending).sum
    rejectedMinusSec := (input.breakRecords.map fun r => r.minusSec .rejected).sum
    pendingMinusSec := (input.breakRecords.map fun r => r.minusSec .pending).sum
    scheduledTakenSec := (input.breakRecords.map fun r => r.scheduledSec input.work input.now).sum
    paidScheduledSec := (input.breakRecords.map fun r => r.withinSec input.work input.now).sum
    overrunSec := (input.breakRecords.map fun r => r.pastSec input.work input.now).sum
    quickBreakSec := (input.breakRecords.map fun r => r.quickSec input.work input.now).sum } := by
  rw [breakTotals, BreakTotals.foldl_eq]
  simp only [zero_add]

/-- The rejected time is that of the breaks and of the meetings. -/
theorem rejectedMinusSec_eq : (computeFocus input).rejectedMinusSec =
    (input.breakRecords.map fun r => r.minusSec .rejected).sum +
      (input.meetingRecords.map fun m => m.minusSec input.work input.now .rejected).sum := by
  have hm := (MeetingTotals.foldl_sum input.work input.now input.meetingRecords {}).1
  show input.breakTotals.rejectedMinusSec + input.meetingTotals.rejectedMinusSec = _
  rw [breakTotals_eq, meetingTotals, hm, zero_add]

/-- So is the waiting time. -/
theorem pendingMinusSec_eq : (computeFocus input).pendingMinusSec =
    (input.breakRecords.map fun r => r.minusSec .pending).sum +
      (input.meetingRecords.map fun m => m.minusSec input.work input.now .pending).sum := by
  have hm := (MeetingTotals.foldl_sum input.work input.now input.meetingRecords {}).2
  show input.breakTotals.pendingMinusSec + input.meetingTotals.pendingMinusSec = _
  rw [breakTotals_eq, meetingTotals, hm, zero_add]

/-- The approved time is that of the breaks. -/
theorem approvedPlusSec_eq : (computeFocus input).approvedPlusSec =
    (input.breakRecords.map fun r => r.plusSec .approved).sum := by
  show input.breakTotals.approvedPlusSec = _
  rw [breakTotals_eq]

end FocusInput

/-- What records add to a total is not negative when what each adds is not. -/
theorem sum_map_nonneg {α : Type*} {f : α → ℤ} {l : List α} (h : ∀ a, 0 ≤ f a) :
    0 ≤ (l.map f).sum :=
  List.sum_nonneg (List.forall_mem_map.2 fun a _ => h a)

/-! ## The numbers balance -/

/-- No number of seconds but the manual adjustment is negative. -/
structure FocusBreakdown.Nonneg (f : FocusBreakdown) : Prop where
  focus : 0 ≤ f.focusSec
  span : 0 ≤ f.spanSec
  breakTime : 0 ≤ f.breakSec
  meeting : 0 ≤ f.meetingSec
  approvedPlus : 0 ≤ f.approvedPlusSec
  pendingPlus : 0 ≤ f.pendingPlusSec
  rejectedMinus : 0 ≤ f.rejectedMinusSec
  pendingMinus : 0 ≤ f.pendingMinusSec
  scheduledTaken : 0 ≤ f.scheduledTakenSec
  paidScheduled : 0 ≤ f.paidScheduledSec
  overrun : 0 ≤ f.overrunSec
  quickBreak : 0 ≤ f.quickBreakSec
  otherBreak : 0 ≤ f.otherBreakSec
  bufferUsed : 0 ≤ f.bufferUsedSec
  paidBreak : 0 ≤ f.paidBreakSec
  unpaidBreak : 0 ≤ f.unpaidBreakSec
  awayPending : 0 ≤ f.awayPendingSec
  awayApproved : 0 ≤ f.awayApprovedSec
  awayRejected : 0 ≤ f.awayRejectedSec
  awayUnexplained : 0 ≤ f.awayUnexplainedSec
  unverified : 0 ≤ f.unverifiedSec
  paid : 0 ≤ f.paidSec

/-- The parts of the break time add up, the buffer is kept to, and breaks and unverified time share
no second. -/
structure FocusBreakdown.Balanced (f : FocusBreakdown) (bufferMin : ℚ) : Prop where
  nonneg : f.Nonneg
  taken : f.scheduledTakenSec + f.quickBreakSec + f.otherBreakSec = f.breakSec
  paidUnpaid : f.paidBreakSec + f.unpaidBreakSec = f.breakSec
  paidSplit : f.paidScheduledSec + f.bufferUsedSec = f.paidBreakSec
  buffer : f.bufferUsedSec ≤ mathRound (bufferMin * 60)
  scheduled : f.paidScheduledSec ≤ f.scheduledTakenSec
  span : f.breakSec + f.unverifiedSec ≤ f.spanSec

namespace FocusInput

variable (input : FocusInput)

/-- Breaks and unverified time are disjoint parts of the span, so together they are
no longer than it. -/
theorem breakSec_add_unverifiedSec_le :
    (computeFocus input).breakSec + (computeFocus input).unverifiedSec ≤
      (computeFocus input).spanSec := by
  have hspan : 1000 * (computeFocus input).spanSec = (points input.work).card :=
    mul_toSec_eq_card whole_work
  have hbreak : 1000 * (computeFocus input).breakSec =
      (points input.work ∩ points input.breaks).card := by
    rw [← points_intersect]
    exact mul_toSec_eq_card whole_breakInW
  have hunverified := mul_unverifiedSec input
  have hsub : points input.unverified \ points input.breaks ⊆
      points input.work \ points input.breaks :=
    Finset.sdiff_subset_sdiff (fun t ht => (mem_unverified.1 ht).1) (subset_refl _)
  have hcard := Finset.card_le_card hsub
  have hsplit := Finset.card_sdiff_add_card_inter (points input.work) (points input.breaks)
  omega

/-- The paid scheduled time of the records is not negative. -/
theorem paidScheduled_nonneg : 0 ≤ input.breakTotals.paidScheduledSec := by
  rw [breakTotals_eq]
  exact sum_map_nonneg fun r => r.withinSec_nonneg _ _

/-- None of a day's numbers is negative: each is a length, a sum of such numbers or
cut off at zero. -/
theorem computeFocus_nonneg : (computeFocus input).Nonneg := by
  have hbreak : 0 ≤ (computeFocus input).breakSec := toSec_lengthMs_nonneg _
  have haway : ∀ s, 0 ≤ input.awaySec (subtract input.work (intersect input.work input.breaks)) s :=
    fun s => toSec_lengthMs_nonneg _
  have hplus : 0 ≤ input.breakTotals.pendingPlusSec := by
    rw [breakTotals_eq]
    exact sum_map_nonneg fun r => r.plusSec_nonneg _
  have hoverrun : 0 ≤ input.breakTotals.overrunSec := by
    rw [breakTotals_eq]
    exact sum_map_nonneg fun r => le_max_left _ _
  have hquick : 0 ≤ input.breakTotals.quickBreakSec := by
    rw [breakTotals_eq]
    exact sum_map_nonneg fun r => r.takenSecOf_nonneg _ _ _
  have htaken : 0 ≤ input.breakTotals.scheduledTakenSec := by
    rw [breakTotals_eq]
    exact sum_map_nonneg fun r => r.takenSecOf_nonneg _ _ _
  have hscheduled : 0 ≤ min input.breakTotals.scheduledTakenSec (computeFocus input).breakSec :=
    le_min htaken hbreak
  have hpaid : 0 ≤ (computeFocus input).paidBreakSec := le_max_left _ _
  have hfocus : 0 ≤ (computeFocus input).focusSec := le_max_left _ _
  exact {
    focus := hfocus
    span := toSec_lengthMs_nonneg _
    breakTime := hbreak
    meeting := toSec_lengthMs_nonneg _
    approvedPlus := by
      rw [approvedPlusSec_eq]
      exact sum_map_nonneg fun r => r.plusSec_nonneg _
    pendingPlus := add_nonneg hplus (haway .pending)
    rejectedMinus := by
      rw [rejectedMinusSec_eq]
      exact add_nonneg (sum_map_nonneg fun r => r.minusSec_nonneg _)
        (sum_map_nonneg fun m => m.minusSec_nonneg _ _ _)
    pendingMinus := by
      rw [pendingMinusSec_eq]
      exact add_nonneg (sum_map_nonneg fun r => r.minusSec_nonneg _)
        (sum_map_nonneg fun m => m.minusSec_nonneg _ _ _)
    scheduledTaken := hscheduled
    paidScheduled := le_min (le_min input.paidScheduled_nonneg hscheduled) hpaid
    overrun := hoverrun
    quickBreak := le_min hquick (le_max_left _ _)
    otherBreak := le_max_left _ _
    bufferUsed := sub_nonneg.2 (min_le_right _ _)
    paidBreak := hpaid
    unpaidBreak := le_max_left _ _
    awayPending := haway .pending
    awayApproved := haway .approved
    awayRejected := haway .rejected
    awayUnexplained := haway .unexplained
    unverified := unverifiedSec_nonneg
    paid := add_nonneg hfocus hpaid }

end FocusInput

/-- The numbers of every day balance: the parts make the span, the focus time is the work less what
is taken off, and each limit holds. -/
theorem computeFocus_balanced (input : FocusInput) (hbuffer : 0 ≤ input.bufferMin) :
    (computeFocus input).Balanced input.bufferMin := by
  have hnonneg := input.computeFocus_nonneg
  have hround : 0 ≤ mathRound (input.bufferMin * 60) :=
    Int.floor_nonneg.2 (by positivity)
  have hbufferSec : input.bufferSec = mathRound (input.bufferMin * 60) := max_eq_right hround
  have hpaidLe : (computeFocus input).paidBreakSec ≤ (computeFocus input).breakSec :=
    FocusInput.paidBreakSec_le
  -- the scheduled, quick and other parts before the unverified break time is removed
  have hbreak := hnonneg.breakTime
  have hscheduled : (computeFocus input).scheduledTakenSec ≤ (computeFocus input).breakSec :=
    min_le_right _ _
  have hquick : (computeFocus input).quickBreakSec ≤
      max 0 ((computeFocus input).breakSec - (computeFocus input).scheduledTakenSec) :=
    min_le_right _ _
  have hother : (computeFocus input).otherBreakSec = max 0 ((computeFocus input).breakSec -
    (computeFocus input).scheduledTakenSec - (computeFocus input).quickBreakSec) := rfl
  have hunpaid : (computeFocus input).unpaidBreakSec =
    max 0 ((computeFocus input).breakSec - (computeFocus input).paidBreakSec) := rfl
  -- what is shown of the paid part
  let paidScheduled := min input.breakTotals.paidScheduledSec (computeFocus input).scheduledTakenSec
  let used := min input.bufferSec ((computeFocus input).overrunSec +
    (computeFocus input).quickBreakSec + (computeFocus input).otherBreakSec)
  have hshown : (computeFocus input).paidScheduledSec =
    min paidScheduled (computeFocus input).paidBreakSec := rfl
  have hbuffer' : (computeFocus input).bufferUsedSec =
    (computeFocus input).paidBreakSec - (computeFocus input).paidScheduledSec := rfl
  have hpaid : (computeFocus input).paidBreakSec =
    max 0 (min ((computeFocus input).breakSec - input.unverifiedBreakSec) (paidScheduled + used)) :=
    rfl
  have hused : used ≤ mathRound (input.bufferMin * 60) := (min_le_left _ _).trans_eq hbufferSec
  have hpaidScheduled : 0 ≤ paidScheduled :=
    le_min input.paidScheduled_nonneg hnonneg.scheduledTaken
  have hle : paidScheduled ≤ (computeFocus input).scheduledTakenSec := min_le_right _ _
  have huse : 0 ≤ used := by
    refine le_min (hbufferSec ▸ hround) ?_
    have := hnonneg.overrun
    have := hnonneg.quickBreak
    have := hnonneg.otherBreak
    omega
  exact {
    nonneg := hnonneg
    taken := by omega
    paidUnpaid := by omega
    paidSplit := by omega
    buffer := by omega
    scheduled := by omega
    span := input.breakSec_add_unverifiedSec_le }

/-- A day whose lunch ran over and whose replayed afternoon has no samples. -/
def offlineLunch : FocusInput where
  sessions := [{ startedAt := 0, endedAt := some 14400000, replay := true }]
  presence := [{ startedAt := 3600000, endedAt := some 7200000, type := .lunch }]
  breakRecords := [
    { outcome := .taken, approvalStatus := .notRequired, overrunAsked := false
      overrunSec := none, durationMin := some 30, kind := some .lunch
      segments := [{ startedAt := 3600000, endedAt := some 7200000 }] }]
  bufferMin := 15 / 2
  coverage := [⟨0, 5400000⟩]
  now := 14400000

/-- The day with an offline lunch is in balance. -/
theorem offlineLunch_balanced : (computeFocus offlineLunch).Balanced (15 / 2) :=
  computeFocus_balanced offlineLunch (by decide +kernel)

/-! ## No second counts twice -/

/-- The stretches share no instant. -/
def Stretch.Apart (now : ℤ) (s s' : Stretch) : Prop :=
  Disjoint (points [s.span now]) (points [s'.span now])

/-- Being apart does not depend on the order. -/
theorem Stretch.Apart.symm {now : ℤ} {s s' : Stretch} (h : s.Apart now s') : s'.Apart now s :=
  Disjoint.symm h

/-- Flooring keeps stretches apart. -/
theorem Stretch.Apart.wholeSpan {now : ℤ} {s s' : Stretch} (h : s.Apart now s') :
    Disjoint (points [s.wholeSpan now]) (points [s'.wholeSpan now]) :=
  Finset.disjoint_left.2 fun _ ht ht' => Finset.disjoint_left.1 h
    ((mem_points_wholeSpan (f := id) (l := [s])).1 ht)
    ((mem_points_wholeSpan (f := id) (l := [s'])).1 ht')

namespace FocusInput

/-- The away stretches share no instant: the storage refuses one that overlaps another. -/
def AwayApart (input : FocusInput) : Prop :=
  input.away.Pairwise fun a b => a.toStretch.Apart input.now b.toStretch

/-- The meetings share no instant. -/
def MeetingsApart (input : FocusInput) : Prop :=
  input.meetingRecords.Pairwise fun a b => a.toStretch.Apart input.now b.toStretch

variable {input : FocusInput} {t : ℤ}

/-- The instants of the away stretches that meet `p`. -/
theorem mem_awaySpans {p : AwayStatus → Bool} : t ∈ points (input.awaySpans p) ↔
    ∃ a ∈ input.away, p a.status ∧ t ∈ points [a.toStretch.wholeSpan input.now] := by
  simp only [awaySpans, mem_points, List.mem_map, List.mem_filter, List.mem_singleton]
  constructor
  · rintro ⟨_, ⟨a, ⟨ha, hp⟩, rfl⟩, ht⟩
    exact ⟨a, ha, hp, _, rfl, ht⟩
  · rintro ⟨a, ha, hp, _, rfl, ht⟩
    exact ⟨_, ⟨a, ⟨ha, hp⟩, rfl⟩, ht⟩

/-- Away stretches of different statuses share no instant, when the stretches lie apart. -/
theorem AwayApart.disjoint (h : input.AwayApart) {p q : AwayStatus → Bool}
    (hpq : ∀ s, p s → ¬ q s) : Disjoint (points (input.awaySpans p))
    (points (input.awaySpans q)) := by
  refine Finset.disjoint_left.2 fun t ht ht' => ?_
  obtain ⟨a, ha, hpa, hta⟩ := mem_awaySpans.1 ht
  obtain ⟨b, hb, hqb, htb⟩ := mem_awaySpans.1 ht'
  have hsymm : Std.Symm fun a b : FocusAway => a.toStretch.Apart input.now b.toStretch :=
    ⟨fun _ _ h => h.symm⟩
  have hne : a ≠ b := fun he => hpq _ hpa (he ▸ hqb)
  exact Finset.disjoint_left.1 (h.forall ha hb hne).wholeSpan hta htb

/-- The work sessions outside breaks. -/
def notBreak (input : FocusInput) : List Interval :=
  subtract input.work (intersect input.work input.breaks)

/-- The waiting away time is that outside the breaks. -/
theorem awayPendingSec_eq (input : FocusInput) :
    (computeFocus input).awayPendingSec = input.awaySec input.notBreak .pending := rfl

/-- So is the rejected away time. -/
theorem awayRejectedSec_eq (input : FocusInput) :
    (computeFocus input).awayRejectedSec = input.awaySec input.notBreak .rejected := rfl

/-- So is the away time that nobody explained. -/
theorem awayUnexplainedSec_eq (input : FocusInput) :
    (computeFocus input).awayUnexplainedSec = input.awaySec input.notBreak .unexplained := rfl

/-- The seconds of one away status are its instants inside the work and outside breaks, a
thousand to the second. -/
theorem mul_awaySec (input : FocusInput) (status : AwayStatus) :
    1000 * input.awaySec input.notBreak status = ((points input.work \ points input.breaks) ∩
      points (input.awaySpans fun s => s = status)).card := by
  have hnotBreak : points input.notBreak = points input.work \ points input.breaks := by
    rw [notBreak, points_subtract, points_intersect, Finset.sdiff_inter_self_left]
  have hwhole : Cover.Whole 1000
      (points (intersect input.notBreak (input.awaySpans fun s => s = status))) := by
    rw [points_intersect, notBreak, points_subtract]
    exact (whole_work.sdiff whole_breakInW).inter (whole_awaySpans _)
  rw [awaySec, mul_toSec_eq_card hwhole, points_intersect, hnotBreak]

end FocusInput

/-- Rejected meetings that share no instant take off, together, what their union takes of
the work sessions. -/
theorem mul_sum_rejected {work : List Interval} {now : ℤ} {records : List FocusMeetingRecord}
    (hwork : Cover.Whole 1000 (points work))
    (h : records.Pairwise fun a b => a.toStretch.Apart now b.toStretch) :
    1000 * (records.map fun m => m.minusSec work now .rejected).sum =
      (points ((records.filter fun m => m.approvalStatus = .rejected).map
        fun m => m.toStretch.wholeSpan now) ∩ points work).card := by
  induction records with
  | nil => simp
  | cons m records ih =>
    have hrest := ih h.of_cons
    rw [List.map_cons, List.sum_cons]
    by_cases hm : m.approvalStatus = .rejected
    · have hdisj : Disjoint (points [m.toStretch.wholeSpan now])
          (points ((records.filter fun m => m.approvalStatus = .rejected).map
            fun m => m.toStretch.wholeSpan now)) := by
        refine Finset.disjoint_left.2 fun t ht ht' => ?_
        obtain ⟨i, hi, hti⟩ := mem_points.1 ht'
        obtain ⟨m', hm', rfl⟩ := List.mem_map.1 hi
        exact Finset.disjoint_left.1
          (List.rel_of_pairwise_cons h (List.mem_of_mem_filter hm')).wholeSpan ht
            (by simpa using hti)
      have hone : Cover.Whole 1000 (points (intersect [m.toStretch.wholeSpan now] work)) := by
        rw [points_intersect]
        exact (whole_points_wholeSpan (f := id) (l := [m.toStretch])).inter hwork
      have hlen : 1000 * m.minusSec work now .rejected =
          (points [m.toStretch.wholeSpan now] ∩ points work).card := by
        rw [FocusMeetingRecord.minusSec, if_pos hm, FocusMeetingRecord.inWorkSec,
          mul_toSec_eq_card hone, points_intersect]
      rw [points_filter_map_cons records (decide_eq_true hm), Finset.union_inter_distrib_right,
        Finset.card_union_of_disjoint (Finset.disjoint_of_subset_left Finset.inter_subset_left
          (Finset.disjoint_of_subset_right Finset.inter_subset_left hdisj))]
      push_cast
      omega
    · rw [List.filter_cons_of_neg (by simpa using hm), FocusMeetingRecord.minusSec, if_neg hm,
        zero_add, hrest]

/-- Records that are neither skips nor asked overruns have nothing for the totals of any status. -/
theorem sum_noApproval {records : List FocusBreakRecord}
    (h : ∀ r ∈ records, ¬ r.isSkip ∧ ¬ r.IsAsked) (status : BreakApprovalStatus) :
    (records.map fun r => r.plusSec status).sum = 0 ∧
      (records.map fun r => r.minusSec status).sum = 0 := by
  induction records with
  | nil => exact ⟨rfl, rfl⟩
  | cons r records ih =>
    obtain ⟨hskip, hasked⟩ := h r (.head _)
    obtain ⟨h1, h2⟩ := ih fun r' hr' => h r' (.tail _ hr')
    have hplus : r.plusSec status = 0 := if_neg fun hr => hasked hr.1
    have hminus : r.minusSec status = 0 := if_neg fun hr => hskip hr.1
    rw [List.map_cons, List.map_cons, List.sum_cons, List.sum_cons, hplus, hminus, h1, h2]
    exact ⟨rfl, rfl⟩

/-- What is left of `w` less `b`, `a`, `r` and `u`, when `u` shares nothing with `a` and `r`: the
parts are taken off one by one, and the common part of `r` with `b` and `a` is taken off twice. -/
theorem card_sdiff_parts {w b a r u : Finset ℤ} (hu : u ⊆ w) (hua : Disjoint u a)
    (hur : Disjoint u r) :
    ((w \ (b ∪ a ∪ r ∪ u)).card : ℤ) - (w ∩ r ∩ (b ∪ a)).card =
      w.card - (w ∩ b).card - ((w \ b) ∩ a).card - (r ∩ w).card - (u \ b).card := by
  have h1 := Finset.card_sdiff_add_card_inter w b
  have h2 := Finset.card_sdiff_add_card_inter (w \ b) a
  have h3 := Finset.card_sdiff_add_card_inter ((w \ b) \ a) r
  have h4 := Finset.card_sdiff_add_card_inter (((w \ b) \ a) \ r) u
  have h5 := Finset.card_sdiff_add_card_inter (w ∩ r) (b ∪ a)
  have hleft : w \ (b ∪ a ∪ r ∪ u) = (((w \ b) \ a) \ r) \ u := by
    rw [sdiff_sdiff_left, sdiff_sdiff_left, sdiff_sdiff_left]
    simp only [Finset.sup_eq_union, Finset.union_assoc]
  have hrej : (w \ b) \ a ∩ r = (w ∩ r) \ (b ∪ a) := by
    ext t
    simp only [Finset.mem_inter, Finset.mem_sdiff, Finset.mem_union]
    tauto
  have hunv : (((w \ b) \ a) \ r) ∩ u = u \ b := by
    ext t
    have := @hu t
    have := fun h : t ∈ u => Finset.disjoint_left.1 hua h
    have := fun h : t ∈ u => Finset.disjoint_left.1 hur h
    simp only [Finset.mem_inter, Finset.mem_sdiff]
    tauto
  rw [hleft, Finset.inter_comm r w]
  rw [hrej] at h3
  rw [hunv] at h4
  omega

namespace FocusInput

variable {input : FocusInput}

/-- The away time that is not focus. -/
def lostAway (input : FocusInput) : List Interval :=
  input.awaySpans fun s => s = .pending ∨ s = .rejected ∨ s = .unexplained

/-- The three statuses of lost away time share no instant, so their instants add up in any set. -/
theorem AwayApart.card_lostAway (h : input.AwayApart) (s : Finset ℤ) :
    (s ∩ points input.lostAway).card =
      (s ∩ points (input.awaySpans fun s => s = .pending)).card +
      (s ∩ points (input.awaySpans fun s => s = .rejected)).card +
      (s ∩ points (input.awaySpans fun s => s = .unexplained)).card := by
  have hset : points input.lostAway = points (input.awaySpans fun s => s = .pending) ∪
      (points (input.awaySpans fun s => s = .rejected) ∪
        points (input.awaySpans fun s => s = .unexplained)) := by
    ext t
    simp only [lostAway, Finset.mem_union, mem_awaySpans, decide_eq_true_eq, or_and_right,
      and_or_left, exists_or]
  have hdisj : ∀ {p q : AwayStatus → Bool}, (∀ s, p s → ¬ q s) →
      Disjoint (s ∩ points (input.awaySpans p)) (s ∩ points (input.awaySpans q)) := fun hpq =>
    Finset.disjoint_of_subset_left Finset.inter_subset_right
      (Finset.disjoint_of_subset_right Finset.inter_subset_right (h.disjoint hpq))
  rw [hset, Finset.inter_union_distrib_left, Finset.inter_union_distrib_left,
    Finset.card_union_of_disjoint, Finset.card_union_of_disjoint (hdisj (by simp)), add_assoc]
  rw [Finset.disjoint_union_right]
  exact ⟨hdisj (by simp), hdisj (by simp)⟩

end FocusInput

/-- The focus time of a day with nothing added: what is left of the work sessions without breaks,
lost away time, rejected meetings and unverified time, less the part of the rejected meetings that
lies over breaks or lost away time. -/
theorem mul_focusSec_eq (input : FocusInput) (hadjusted : input.adjustedSec = 0)
    (hrecords : ∀ r ∈ input.breakRecords, ¬ r.isSkip ∧ ¬ r.IsAsked)
    (haway : input.AwayApart) (hmeetings : input.MeetingsApart) :
    1000 * (computeFocus input).focusSec =
      max 0 (((points input.work \ (points input.breaks ∪ points input.lostAway ∪
          points (input.meetingSpans fun s => s = .rejected) ∪ points input.unverified)).card : ℤ) -
        (points input.work ∩ points (input.meetingSpans fun s => s = .rejected) ∩
          (points input.breaks ∪ points input.lostAway)).card) := by
  have hspan : 1000 * (computeFocus input).spanSec = (points input.work).card :=
    mul_toSec_eq_card FocusInput.whole_work
  have hbreak : 1000 * (computeFocus input).breakSec =
      (points input.work ∩ points input.breaks).card := by
    rw [← points_intersect]
    exact mul_toSec_eq_card FocusInput.whole_breakInW
  have hpending := input.mul_awaySec .pending
  have hrejected := input.mul_awaySec .rejected
  have hunexplained := input.mul_awaySec .unexplained
  rw [← FocusInput.awayPendingSec_eq] at hpending
  rw [← FocusInput.awayRejectedSec_eq] at hrejected
  rw [← FocusInput.awayUnexplainedSec_eq] at hunexplained
  have hlost := haway.card_lostAway (points input.work \ points input.breaks)
  have hadj : (computeFocus input).adjustedSec = 0 := by
    show mathRound input.adjustedSec = 0
    rw [hadjusted, mathRound_zero]
  have hplus : (computeFocus input).approvedPlusSec = 0 := by
    rw [FocusInput.approvedPlusSec_eq]
    exact (sum_noApproval hrecords .approved).1
  have hminus : 1000 * (computeFocus input).rejectedMinusSec =
      (points (input.meetingSpans fun s => s = .rejected) ∩ points input.work).card := by
    rw [FocusInput.rejectedMinusSec_eq, (sum_noApproval hrecords .rejected).2, zero_add]
    exact mul_sum_rejected FocusInput.whole_work hmeetings
  have hunverified := FocusInput.mul_unverifiedSec input
  have hoff := card_sdiff_parts (b := points input.breaks) (a := points input.lostAway)
    (r := points (input.meetingSpans fun s => s = .rejected)) (w := points input.work)
    (u := points input.unverified) (fun t ht => (FocusInput.mem_unverified.1 ht).1) ?_ ?_
  · have hbalance : (computeFocus input).balance =
        (computeFocus input).adjustedSec + (computeFocus input).spanSec -
          (computeFocus input).breakSec - (computeFocus input).awayPendingSec -
          (computeFocus input).awayRejectedSec - (computeFocus input).awayUnexplainedSec +
          (computeFocus input).approvedPlusSec - (computeFocus input).rejectedMinusSec -
          (computeFocus input).unverifiedSec := rfl
    rw [FocusInput.focusSec_eq, hoff]
    omega
  · refine Finset.disjoint_left.2 fun t ht hlostAway => (FocusInput.mem_unverified.1 ht).2.2.1 ?_
    obtain ⟨a, ha, hp, hta⟩ := FocusInput.mem_awaySpans.1 hlostAway
    refine FocusInput.mem_awaySpans.2 ⟨a, ha, ?_, hta⟩
    rcases of_decide_eq_true hp with h | h | h <;> simp [h]
  · exact Finset.disjoint_left.2 fun t ht => (FocusInput.mem_unverified.1 ht).2.2.2.1

/-- Nine hours with an away hour that waits for its decision, and a rejected meeting over it. -/
def rejectedOverAway : FocusInput where
  sessions := [{ startedAt := 0, endedAt := some 32400000 }]
  meetingRecords := [{ startedAt := 3600000, endedAt := some 7200000, mode := .past
                       approvalStatus := .rejected }]
  away := [{ startedAt := 3600000, endedAt := some 7200000, status := .pending }]
  now := 32400000

/-- A rejected break over away time takes its seconds away once. -/
theorem rejectedOverAway_focusSec : (computeFocus rejectedOverAway).focusSec = 7 * 3600 := by
  decide +kernel

/-- A rejected meeting over rejected away time is taken off twice, so the focus time is an hour
short of the instants that are left. -/
theorem focusSec_counts_twice :
    ¬ ∀ input : FocusInput, input.adjustedSec = 0 →
      (∀ r ∈ input.breakRecords, ¬ r.isSkip ∧ ¬ r.IsAsked) →
      input.AwayApart → input.MeetingsApart →
      1000 * (computeFocus input).focusSec =
        (points input.work \ (points input.breaks ∪ points input.lostAway ∪
          points (input.meetingSpans fun s => s = .rejected) ∪ points input.unverified)).card := by
  intro h
  have hfocus := h rejectedOverAway rfl (by simp [rejectedOverAway]) (List.pairwise_singleton _ _)
    (List.pairwise_singleton _ _)
  -- eight of the nine hours are outside the away hour and the meeting over it
  have hleft : points rejectedOverAway.work \ (points rejectedOverAway.breaks ∪
      points rejectedOverAway.lostAway ∪
      points (rejectedOverAway.meetingSpans fun s => s = .rejected) ∪
      points rejectedOverAway.unverified) = points [⟨0, 3600000⟩, ⟨7200000, 32400000⟩] := by
    have hwork : rejectedOverAway.work = [⟨0, 32400000⟩] := by decide +kernel
    have hbreaks : rejectedOverAway.breaks = [] := by decide +kernel
    have haway : rejectedOverAway.lostAway = [⟨3600000, 7200000⟩] := by decide +kernel
    have hmeeting : (rejectedOverAway.meetingSpans fun s => s = .rejected) =
        [⟨3600000, 7200000⟩] := by decide +kernel
    have hunverified : rejectedOverAway.unverified = [] := by decide +kernel
    rw [hwork, hbreaks, haway, hmeeting, hunverified]
    ext t
    simp only [Finset.mem_sdiff, Finset.mem_union, mem_points_cons, points_nil,
      Finset.notMem_empty, or_false, false_or]
    omega
  have hlen : lengthMs [⟨0, 3600000⟩, ⟨7200000, 32400000⟩] = 28800000 := by decide +kernel
  rw [hleft, ← lengthMs_eq_card, hlen, rejectedOverAway_focusSec] at hfocus
  omega

/-- The exact formula for the focus time, on the day whose rejected meeting lies over
rejected away time. -/
theorem rejectedOverAway_mul_focusSec :
    1000 * (computeFocus rejectedOverAway).focusSec =
      max 0 (((points rejectedOverAway.work \ (points rejectedOverAway.breaks ∪
          points rejectedOverAway.lostAway ∪
          points (rejectedOverAway.meetingSpans fun s => s = .rejected) ∪
          points rejectedOverAway.unverified)).card : ℤ) -
        (points rejectedOverAway.work ∩
          points (rejectedOverAway.meetingSpans fun s => s = .rejected) ∩
          (points rejectedOverAway.breaks ∪ points rejectedOverAway.lostAway)).card) :=
  mul_focusSec_eq rejectedOverAway rfl (by simp [rejectedOverAway]) (List.pairwise_singleton _ _)
    (List.pairwise_singleton _ _)

end RxVision
