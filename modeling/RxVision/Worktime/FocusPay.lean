import RxVision.Worktime.Focus
import RxVision.Worktime.IntervalsCorrect

/-!
# What a day pays

`computeFocus` pays `paidSec = focusSec + paidBreakSec`. Two terms of it can pay for one second of
break: an approved 3.x overrun is added back to the focus time, and the same overrun is break time
past its length, which the buffer pays. `paidSec_le` bounds what a day pays by its span and the
smaller of the two terms.

The proof has three parts: flooring to the whole second keeps what is inside what and what is
disjoint (`mem_points_wholeSpan`), so the seconds taken by different records add up to at most the
break time (`sum_takenSec_le`); a round of the loop over the records adds no more to the approved
overruns and the paid scheduled time than the seconds the record took (`BreakTotals.add_within`);
and the rest is arithmetic of the clamps.
-/

namespace RxVision

/-! ## Rounding -/

/-- Rounding a number that is at most a whole one. -/
theorem mathRound_le {x : ℚ} {n : ℤ} (h : x ≤ n) : mathRound x ≤ n := by
  have hlt : x + 1 / 2 < (n + 1 : ℤ) := by
    push_cast
    linarith
  exact Int.lt_add_one_iff.1 (Int.floor_lt.2 hlt)

/-- Nothing rounds to nothing. -/
@[simp] theorem mathRound_zero : mathRound 0 = 0 := by
  rw [mathRound, Int.floor_eq_iff]
  norm_num

/-- Planned minutes are not negative. -/
theorem minutesToSec_nonneg (min : Option ℚ) : 0 ≤ minutesToSec min := le_max_left _ _

/-- More milliseconds are not fewer seconds. -/
theorem toSec_mono {a b : ℤ} (h : a ≤ b) : toSec a ≤ toSec b := by
  unfold toSec
  omega

/-- Seconds are not negative. -/
theorem toSec_nonneg {ms : ℤ} (h : 0 ≤ ms) : 0 ≤ toSec ms := by
  unfold toSec
  omega

/-- Seconds of a list of intervals are never negative. -/
theorem toSec_lengthMs_nonneg (l : List Interval) : 0 ≤ toSec (lengthMs l) :=
  toSec_nonneg (lengthMs_nonneg l)

/-! ## Whole seconds -/

section WholeSpan

variable {α : Type*} {f : α → Stretch} {now : ℤ} {l : List α}

/-- An instant is in a floored stretch when the last millisecond of its second is in the stored
one. -/
theorem mem_points_wholeSpan {t : ℤ} :
    t ∈ points (l.map fun a => (f a).wholeSpan now) ↔
      t / 1000 * 1000 + 999 ∈ points (l.map fun a => (f a).span now) := by
  simp only [mem_points, List.mem_map, exists_exists_and_eq_and]
  refine exists_congr fun a => and_congr_right fun _ => ?_
  simp only [Stretch.wholeSpan, wholeSpan, wholeSecond, Stretch.span, span, lt_max_iff]
  omega

/-- Floored stretches are made of whole seconds. -/
theorem whole_points_wholeSpan :
    Cover.Whole 1000 (points (l.map fun a => (f a).wholeSpan now)) := by
  intro t
  rw [mem_points_wholeSpan, mem_points_wholeSpan (t := t / 1000 * 1000),
    show t / 1000 * 1000 / 1000 * 1000 = t / 1000 * 1000 by omega]

/-- A whole number of seconds is not rounded. -/
theorem mul_toSec_lengthMs {l : List Interval} (h : Cover.Whole 1000 (points l)) :
    1000 * toSec (lengthMs l) = lengthMs l := by
  have := h.dvd_card (by omega)
  rw [← lengthMs_eq_card] at this
  unfold toSec
  omega

end WholeSpan

/-! ## The records of a consistent day -/

namespace FocusInput

/-- The break records that were taken. -/
def takenRecords (input : FocusInput) : List FocusBreakRecord :=
  input.breakRecords.filter fun r => r.outcome = .taken

end FocusInput

/-- Seconds the record's segments inside the work sessions ran past its length. -/
def FocusBreakRecord.ranPastSec (r : FocusBreakRecord) (work : List Interval) (now : ℤ) : ℤ :=
  max 0 (r.takenSec work now - r.lengthSec)

/-- The instants of the record's segments, as stored. -/
def FocusBreakRecord.segmentPoints (r : FocusBreakRecord) (now : ℤ) : Finset ℤ :=
  points (r.segments.map fun g => g.span now)

/-- The stored rows fit together: segments of taken records lie inside break presence, different
records share no instant, and no overrun is longer than what its segments ran past. -/
structure FocusInput.Consistent (input : FocusInput) : Prop where
  inside : ∀ r ∈ input.takenRecords,
    r.segmentPoints input.now ⊆ points (input.breakPresence.map fun p => p.toStretch.span input.now)
  disjoint : input.takenRecords.Pairwise fun r r' =>
    Disjoint (r.segmentPoints input.now) (r'.segmentPoints input.now)
  overrun : ∀ r ∈ input.takenRecords,
    r.overrunSec.getD 0 ≤ (r.ranPastSec input.work input.now : ℚ)

namespace FocusInput

variable {input : FocusInput}

/-- The merged work sessions are made of whole seconds. -/
theorem whole_work : Cover.Whole 1000 (points input.work) := by
  rw [work, points_normalize]
  exact whole_points_wholeSpan (f := FocusSession.toStretch)

/-- The break time inside the work sessions is made of whole seconds. -/
theorem whole_breakInW : Cover.Whole 1000 (points (intersect input.work input.breaks)) := by
  rw [points_intersect]
  exact whole_work.inter (whole_points_wholeSpan (f := FocusPresence.toStretch))

/-- The seconds taken by different records add up to at most the break time. -/
theorem sum_takenSec_le (h : input.Consistent) :
    (input.takenRecords.map fun r => r.takenSec input.work input.now).sum ≤
      toSec (lengthMs (intersect input.work input.breaks)) := by
  -- the instants of one record inside the work sessions, on whole seconds
  let parts : FocusBreakRecord → Finset ℤ := fun r =>
    points (intersect input.work (r.segments.map (Stretch.wholeSpan input.now)))
  have hmem : ∀ r t, t ∈ parts r ↔
      t ∈ points input.work ∧ t / 1000 * 1000 + 999 ∈ r.segmentPoints input.now := by
    intro r t
    have hseg : t ∈ points (r.segments.map (Stretch.wholeSpan input.now)) ↔
        t / 1000 * 1000 + 999 ∈ r.segmentPoints input.now := mem_points_wholeSpan (f := id)
    simp only [parts, points_intersect, Finset.mem_inter, hseg]
  have hdisj : input.takenRecords.Pairwise fun r r' => Disjoint (parts r) (parts r') := by
    refine h.disjoint.imp fun hrr => Finset.disjoint_left.2 fun t ht ht' => ?_
    exact Finset.disjoint_left.1 hrr ((hmem _ t).1 ht).2 ((hmem _ t).1 ht').2
  have hsub : ∀ r ∈ input.takenRecords,
      parts r ⊆ points (intersect input.work input.breaks) := by
    intro r hr t ht
    obtain ⟨hw, hseg⟩ := (hmem r t).1 ht
    rw [points_intersect, Finset.mem_inter]
    exact ⟨hw, (mem_points_wholeSpan (f := FocusPresence.toStretch)).2 (h.inside r hr hseg)⟩
  have hsum := Nat.cast_le (α := ℤ) |>.2 (Cover.sum_card_le hdisj hsub)
  rw [Nat.cast_list_sum, List.map_map] at hsum
  have htaken : ∀ r : FocusBreakRecord,
      1000 * r.takenSec input.work input.now = ((parts r).card : ℤ) := by
    intro r
    rw [FocusBreakRecord.takenSec, mul_toSec_lengthMs, lengthMs_eq_card]
    rw [points_intersect]
    exact whole_work.inter (whole_points_wholeSpan (f := id))
  have hms : 1000 * (input.takenRecords.map fun r => r.takenSec input.work input.now).sum ≤
      1000 * toSec (lengthMs (intersect input.work input.breaks)) := by
    rw [mul_toSec_lengthMs whole_breakInW, lengthMs_eq_card, ← List.sum_map_mul_left]
    simp only [htaken]
    exact hsum
  omega

end FocusInput

/-! ## The loops -/

/-- Approved overruns and paid scheduled time together fit in `limit` seconds. -/
structure BreakTotals.Within (t : BreakTotals) (limit : ℤ) : Prop where
  approvedPlus : 0 ≤ t.approvedPlusSec
  paidScheduled : 0 ≤ t.paidScheduledSec
  rejectedMinus : 0 ≤ t.rejectedMinusSec
  sum_le : t.approvedPlusSec + t.paidScheduledSec ≤ limit

namespace BreakTotals

variable {t : BreakTotals} {r : FocusBreakRecord} {limit : ℤ}

variable (work : List Interval) (now : ℤ)

/-- A record's approval adds at most what the record ran past its length. -/
theorem addApproval_within (h : t.Within limit) (ht : r.outcome = .taken)
    (ho : r.overrunSec.getD 0 ≤ (r.ranPastSec work now : ℚ)) :
    (t.addApproval r).Within (limit + r.ranPastSec work now) := by
  have hpast : 0 ≤ r.ranPastSec work now := le_max_left _ _
  have hround := mathRound_le ho
  obtain ⟨h1, h2, h3, h4⟩ := h
  have hkeep : t.Within (limit + r.ranPastSec work now) := ⟨h1, h2, h3, by omega⟩
  rw [addApproval]
  split
  · cases r.approvalStatus with
    | approved => exact ⟨by simp only; omega, h2, h3, by simp only; omega⟩
    | pending => exact ⟨h1, h2, h3, by simp only; omega⟩
    | notRequired => exact hkeep
    | rejected => exact hkeep
  · rw [if_neg (by simp [FocusBreakRecord.isSkip, ht])]
    exact hkeep

/-- A skip adds to the skipped time only. -/
theorem addApproval_within_skip (h : t.Within limit) (ht : r.outcome ≠ .taken) :
    (t.addApproval r).Within limit := by
  have hlen : 0 ≤ r.lengthSec := minutesToSec_nonneg _
  obtain ⟨h1, h2, h3, h4⟩ := h
  rw [addApproval, if_neg fun hr => ht hr.1]
  split
  · cases r.approvalStatus with
    | rejected => exact ⟨h1, h2, by simp only; omega, h4⟩
    | pending => exact ⟨h1, h2, h3, h4⟩
    | notRequired => exact ⟨h1, h2, h3, h4⟩
    | approved => exact ⟨h1, h2, h3, h4⟩
  · exact ⟨h1, h2, h3, h4⟩

/-- The time taken adds at most the part of it within the record's length. -/
theorem addTaken_within (h : t.Within limit) :
    (t.addTaken work now r).Within (limit + min (r.takenSec work now) r.lengthSec) := by
  have hlen : 0 ≤ r.lengthSec := minutesToSec_nonneg _
  have htaken : 0 ≤ r.takenSec work now := toSec_lengthMs_nonneg _
  obtain ⟨h1, h2, h3, h4⟩ := h
  have hkeep : t.Within (limit + min (r.takenSec work now) r.lengthSec) :=
    ⟨h1, h2, h3, by omega⟩
  rw [addTaken]
  split
  · exact hkeep
  · simp only
    split
    · exact ⟨h1, h2, h3, by simp only; omega⟩
    · split
      · exact ⟨h1, by simp only; omega, h3, by simp only; omega⟩
      · exact hkeep

/-- One round of the loop over a taken record adds at most the seconds the record took. -/
theorem add_within (h : t.Within limit) (ht : r.outcome = .taken)
    (ho : r.overrunSec.getD 0 ≤ (r.ranPastSec work now : ℚ)) :
    (add work now t r).Within (limit + r.takenSec work now) := by
  have htaken : 0 ≤ r.takenSec work now := toSec_lengthMs_nonneg _
  have hround := addTaken_within work now (addApproval_within work now h ht ho) (r := r)
  refine ⟨hround.1, hround.2, hround.3, hround.4.trans ?_⟩
  have hlen : 0 ≤ r.lengthSec := minutesToSec_nonneg _
  unfold FocusBreakRecord.ranPastSec
  omega

/-- One round over a skip keeps the bound. -/
theorem add_within_skip (h : t.Within limit) (ht : r.outcome ≠ .taken) :
    (add work now t r).Within limit := by
  rw [add, addTaken, if_pos (Or.inl ht)]
  exact addApproval_within_skip h ht

/-- The whole loop stays within the seconds the taken records took. -/
theorem foldl_within {records : List FocusBreakRecord} (h : t.Within limit)
    (ho : ∀ r ∈ records.filter fun r => r.outcome = .taken,
      r.overrunSec.getD 0 ≤ (r.ranPastSec work now : ℚ)) :
    (records.foldl (add work now) t).Within
      (limit + ((records.filter fun r => r.outcome = .taken).map
        fun r => r.takenSec work now).sum) := by
  induction records generalizing t limit with
  | nil => simpa using h
  | cons r records ih =>
    by_cases ht : r.outcome = .taken
    · simp only [List.filter_cons, ht, decide_true, if_true] at ho ⊢
      rw [List.map_cons, List.sum_cons, ← add_assoc]
      exact ih (add_within work now h ht (ho r (.head _))) fun r' hr' => ho r' (.tail _ hr')
    · simp only [List.filter_cons, ht, decide_false, Bool.false_eq_true, if_false] at ho ⊢
      exact ih (add_within_skip work now h ht) ho

end BreakTotals

/-- The loop over the meeting records takes off no negative time. -/
theorem MeetingTotals.foldl_nonneg {work : List Interval} {now : ℤ}
    {records : List FocusMeetingRecord} {t : MeetingTotals} (h : 0 ≤ t.rejectedMinusSec) :
    0 ≤ (records.foldl (MeetingTotals.add work now) t).rejectedMinusSec := by
  induction records generalizing t with
  | nil => exact h
  | cons m records ih =>
    refine ih ?_
    have := toSec_lengthMs_nonneg (intersect [m.toStretch.wholeSpan now] work)
    rw [MeetingTotals.add]
    split
    · exact h
    · simp only
      split
      · simp only; omega
      · exact h

/-! ## The bound -/

/-- Approved overruns and paid breaks together take no more than the break time and the smaller of
the overruns and the part `paid - min scheduled paid` that the buffer pays. -/
theorem plus_add_paid_le {plus sched scheduled paid breaks : ℤ} (hsum : plus + sched ≤ breaks)
    (hsched : scheduled ≤ sched) (hpaid : paid ≤ breaks) :
    plus + paid ≤ breaks + min plus (paid - min scheduled paid) := by
  omega

namespace FocusInput

variable {input : FocusInput}

/-- Paid break time is break time. -/
theorem paidBreakSec_le : (computeFocus input).paidBreakSec ≤ (computeFocus input).breakSec :=
  max_le (toSec_lengthMs_nonneg _)
    ((min_le_left _ _).trans (sub_le_self _ (toSec_lengthMs_nonneg _)))

/-- Break time is inside the work sessions. -/
theorem breakSec_le : (computeFocus input).breakSec ≤ (computeFocus input).spanSec :=
  toSec_mono (lengthMs_intersect_le _ _)

/-- Time with no evidence is reported once: its break part is not longer than the whole. -/
theorem unverifiedSec_nonneg : 0 ≤ (computeFocus input).unverifiedSec :=
  sub_nonneg.2 (toSec_mono (lengthMs_intersect_le _ _))

/-- The loop over the break records stays within the break time. -/
theorem breakTotals_within (h : input.Consistent) :
    input.breakTotals.Within (computeFocus input).breakSec := by
  have hzero : BreakTotals.Within {} 0 := ⟨le_rfl, le_rfl, le_rfl, le_rfl⟩
  have hw := BreakTotals.foldl_within input.work input.now hzero h.overrun
  rw [zero_add] at hw
  exact ⟨hw.1, hw.2, hw.3, hw.4.trans (sum_takenSec_le h)⟩

/-- Focus time is the span less the breaks, and the approved overruns on top. -/
theorem focusSec_le (h : input.Consistent) (hadjusted : input.adjustedSec = 0) :
    (computeFocus input).focusSec ≤ max 0 ((computeFocus input).spanSec
      - (computeFocus input).breakSec + (computeFocus input).approvedPlusSec) := by
  have hskips := (breakTotals_within h).rejectedMinus
  have hmeet : 0 ≤ input.meetingTotals.rejectedMinusSec := MeetingTotals.foldl_nonneg le_rfl
  have haway : ∀ s, 0 ≤ input.awaySec (subtract input.work (intersect input.work input.breaks)) s :=
    fun s => toSec_lengthMs_nonneg _
  have hpending := haway .pending
  have hrejected := haway .rejected
  have hunexplained := haway .unexplained
  have hunverified := @unverifiedSec_nonneg input
  have hround : mathRound input.adjustedSec = 0 := by rw [hadjusted, mathRound_zero]
  refine max_le_max_left 0 ?_
  simp only [computeFocus] at hunverified ⊢
  rw [hround]
  omega

end FocusInput

/-- A consistent day with no manual adjustment pays at most its span and, on top of it, the smaller
of the approved overruns and what the buffer paid. -/
theorem paidSec_le (input : FocusInput) (h : input.Consistent) (hadjusted : input.adjustedSec = 0) :
    (computeFocus input).paidSec ≤
      (computeFocus input).spanSec +
        min (computeFocus input).approvedPlusSec (computeFocus input).bufferUsedSec := by
  obtain ⟨hplus, hpaid0, -, hsum⟩ := FocusInput.breakTotals_within h
  have hfocus := FocusInput.focusSec_le h hadjusted
  have hpaid := @FocusInput.paidBreakSec_le input
  have hbreak := @FocusInput.breakSec_le input
  -- the scheduled minutes the day shows as paid were paid scheduled time
  have hscheduled : min input.breakTotals.paidScheduledSec
      (min input.breakTotals.scheduledTakenSec (computeFocus input).breakSec) ≤
        input.breakTotals.paidScheduledSec := min_le_left _ _
  have hboth := plus_add_paid_le hsum hscheduled hpaid
  have hshown : 0 ≤ (computeFocus input).bufferUsedSec := sub_nonneg.2 (min_le_right _ _)
  have htotal : (computeFocus input).paidSec =
      (computeFocus input).focusSec + (computeFocus input).paidBreakSec := rfl
  rw [htotal]
  rcases le_total 0 ((computeFocus input).spanSec - (computeFocus input).breakSec
    + (computeFocus input).approvedPlusSec) with hpos | hneg
  · rw [max_eq_right hpos] at hfocus
    have : (computeFocus input).approvedPlusSec + (computeFocus input).paidBreakSec ≤
        (computeFocus input).breakSec +
          min (computeFocus input).approvedPlusSec (computeFocus input).bufferUsedSec := hboth
    omega
  · rw [max_eq_left hneg] at hfocus
    have : 0 ≤ min (computeFocus input).approvedPlusSec (computeFocus input).bufferUsedSec :=
      le_min hplus hshown
    omega

/-- Ten hours with an hour of lunch that was to take half an hour: the half hour over was asked for
and approved, and the buffer is half an hour. -/
def overrunDay : FocusInput where
  sessions := [{ startedAt := 0, endedAt := some 36000000 }]
  presence := [{ startedAt := 3600000, endedAt := some 7200000, type := .lunch }]
  breakRecords := [
    { outcome := .taken, approvalStatus := .approved, overrunAsked := true
      overrunSec := some 1800, durationMin := some 30, kind := some .lunch
      segments := [{ startedAt := 3600000, endedAt := some 7200000 }] }]
  bufferMin := 30
  now := 36000000

/-- The day with an overrun is consistent. -/
theorem overrunDay_consistent : overrunDay.Consistent where
  inside := by
    intro r hr
    simp only [FocusInput.takenRecords, overrunDay, List.filter_cons, List.filter_nil] at hr
    obtain rfl := List.mem_singleton.1 hr
    exact fun t ht => ht
  disjoint := List.pairwise_singleton _ _
  overrun := by
    intro r hr
    simp only [FocusInput.takenRecords, overrunDay, List.filter_cons, List.filter_nil] at hr
    obtain rfl := List.mem_singleton.1 hr
    decide +kernel

/-- A consistent day can pay more than its span: the approved half hour is paid twice. -/
theorem paidSec_exceeds_span :
    ¬ ∀ input : FocusInput, input.Consistent → 0 ≤ input.bufferMin → input.adjustedSec = 0 →
      (computeFocus input).paidSec ≤ (computeFocus input).spanSec := by
  intro h
  have hle := h overrunDay overrunDay_consistent (by decide) rfl
  exact absurd hle (by decide +kernel)

/-- The bound on that day. -/
theorem overrunDay_paidSec_le :
    (computeFocus overrunDay).paidSec ≤ (computeFocus overrunDay).spanSec +
      min (computeFocus overrunDay).approvedPlusSec (computeFocus overrunDay).bufferUsedSec :=
  paidSec_le overrunDay overrunDay_consistent rfl

end RxVision
