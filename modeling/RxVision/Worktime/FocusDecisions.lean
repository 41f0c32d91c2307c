import RxVision.Worktime.FocusParts

/-!
# What a decision does to a day's focus time

The items of a day that wait for a decision are its pending away stretches, meetings, skips and
asked overruns. `decideAll` decides all of them, `Decided` one of them.

Without replayed sessions the pending figures forecast the decisions exactly (`pending_forecast`):
every total is a sum over the records or the size of a set of instants, and a decision moves one
summand, or one stretch, from one total to another.

With replayed sessions a decision also moves time between the evidence and the decided time, and
only the direction is left (`decision_monotone`): an approval leaves less unverified time, and a
rejection leaves as much or less, but no less than it takes off itself.
-/

namespace RxVision

/-- What a reviewer answers. -/
inductive Verdict
  | approve | reject
  deriving DecidableEq, Repr

namespace Verdict

/-- The status of a decided record. -/
def status : Verdict → BreakApprovalStatus
  | approve => .approved
  | reject => .rejected

/-- The status of a decided away stretch. -/
def awayStatus : Verdict → AwayStatus
  | approve => .approved
  | reject => .rejected

end Verdict

/-- A break record that is decided by a reviewer: a skip or an asked overrun. -/
def FocusBreakRecord.IsItem (r : FocusBreakRecord) : Prop := r.isSkip ∨ r.IsAsked

instance (r : FocusBreakRecord) : Decidable r.IsItem := inferInstanceAs (Decidable (_ ∨ _))

/-! ## Every item decided -/

/-- The status a stretch has once the pending ones are decided. -/
def AwayStatus.decide (v : Verdict) (s : AwayStatus) : AwayStatus :=
  if s = .pending then v.awayStatus else s

/-- The status a record has once the pending ones are decided. -/
def BreakApprovalStatus.decide (v : Verdict) (s : BreakApprovalStatus) : BreakApprovalStatus :=
  if s = .pending then v.status else s

/-- The break record once the pending items are decided. -/
def FocusBreakRecord.decide (v : Verdict) (r : FocusBreakRecord) : FocusBreakRecord :=
  if r.IsItem then { r with approvalStatus := r.approvalStatus.decide v } else r

/-- The day once every pending item is decided the same way. -/
def FocusInput.decideAll (input : FocusInput) (v : Verdict) : FocusInput :=
  { input with
    breakRecords := input.breakRecords.map fun r => r.decide v
    meetingRecords := input.meetingRecords.map fun m =>
      { m with approvalStatus := m.approvalStatus.decide v }
    away := input.away.map fun a => { a with status := a.status.decide v } }

namespace FocusBreakRecord

variable (r : FocusBreakRecord)

/-- Approved asks join the approved ones, and rejected asks are lost: a decision moves what
waited, or drops it. -/
theorem plusSec_decide (v : Verdict) : (r.decide v).plusSec .approved =
    r.plusSec .approved + if v = .approve then r.plusSec .pending else 0 := by
  rw [decide]
  split
  · have hasked :
      ({ r with approvalStatus := r.approvalStatus.decide v } : FocusBreakRecord).IsAsked ↔
      r.IsAsked := Iff.rfl
    simp only [plusSec, hasked]
    cases v <;> cases r.approvalStatus <;>
      simp [BreakApprovalStatus.decide, Verdict.status]
  · next hitem =>
    have hasked : ¬ r.IsAsked := fun h => hitem (.inr h)
    simp [plusSec, hasked]

/-- Rejected skips join the rejected ones, and approved skips are kept, so they are
taken off nowhere. -/
theorem minusSec_decide (v : Verdict) : (r.decide v).minusSec .rejected =
    r.minusSec .rejected + if v = .reject then r.minusSec .pending else 0 := by
  rw [decide]
  split
  · have hskip :
      ({ r with approvalStatus := r.approvalStatus.decide v } : FocusBreakRecord).isSkip =
      r.isSkip := rfl
    have hlen :
      ({ r with approvalStatus := r.approvalStatus.decide v } : FocusBreakRecord).lengthSec =
      r.lengthSec := rfl
    simp only [minusSec, hskip, hlen]
    cases v <;> cases r.approvalStatus <;>
      simp [BreakApprovalStatus.decide, Verdict.status]
  · next hitem =>
    have hskip : ¬ r.isSkip := fun h => hitem (.inl h)
    simp [minusSec, hskip]

end FocusBreakRecord

/-- Rejected meetings join the rejected ones; approved meetings are kept and taken off nowhere. -/
theorem FocusMeetingRecord.minusSec_decide (m : FocusMeetingRecord) (work : List Interval) (now : ℤ)
    (v : Verdict) :
    ({ m with approvalStatus := m.approvalStatus.decide v } : FocusMeetingRecord).minusSec
        work now .rejected =
      m.minusSec work now .rejected + if v = .reject then m.minusSec work now .pending else 0 := by
  have hin : ({ m with approvalStatus := m.approvalStatus.decide v } : FocusMeetingRecord).inWorkSec
    work now = m.inWorkSec work now := rfl
  simp only [minusSec, hin]
  cases v <;> cases m.approvalStatus <;>
    simp [BreakApprovalStatus.decide, Verdict.status]

/-- Sums over lists, one of them conditional. -/
theorem sum_map_add_ite {α : Type*} (l : List α) (f g : α → ℤ) (c : Prop) [Decidable c] :
    (l.map fun a => f a + if c then g a else 0).sum =
      (l.map f).sum + if c then (l.map g).sum else 0 := by
  split
  · rw [List.sum_map_add]
  · simp

namespace FocusInput

variable {input : FocusInput} {v : Verdict}

/-- The away stretches after the decisions are the ones whose status becomes the one looked for. -/
theorem awaySpans_decideAll (p : AwayStatus → Bool) :
    (input.decideAll v).awaySpans p = input.awaySpans fun s => p (s.decide v) := by
  simp only [awaySpans, decideAll, List.filter_map, List.map_map]
  rfl

/-- Approving everything adds what waited. -/
theorem approvedPlusSec_decideAll : (computeFocus (input.decideAll v)).approvedPlusSec =
    (computeFocus input).approvedPlusSec +
      if v = .approve then input.breakTotals.pendingPlusSec else 0 := by
  rw [approvedPlusSec_eq, approvedPlusSec_eq, breakTotals_eq, ← sum_map_add_ite, decideAll,
    List.map_map]
  simp only [Function.comp_def, FocusBreakRecord.plusSec_decide]

/-- Rejecting everything takes away what waited, of the skips and of the meetings; approving
everything takes nothing away. -/
theorem rejectedMinusSec_decideAll : (computeFocus (input.decideAll v)).rejectedMinusSec =
    (computeFocus input).rejectedMinusSec +
      if v = .reject then (computeFocus input).pendingMinusSec else 0 := by
  have hwork : (input.decideAll v).work = input.work := rfl
  have hnow : (input.decideAll v).now = input.now := rfl
  have hbreaks : ((input.decideAll v).breakRecords.map fun r => r.minusSec .rejected).sum =
      (input.breakRecords.map fun r => r.minusSec .rejected).sum +
        if v = .reject then (input.breakRecords.map fun r => r.minusSec .pending).sum else 0 := by
    rw [← sum_map_add_ite, decideAll, List.map_map]
    simp only [Function.comp_def, FocusBreakRecord.minusSec_decide]
  have hmeetings : ((input.decideAll v).meetingRecords.map
      fun m => m.minusSec input.work input.now .rejected).sum =
      (input.meetingRecords.map fun m => m.minusSec input.work input.now .rejected).sum +
        if v = .reject then
          (input.meetingRecords.map fun m => m.minusSec input.work input.now .pending).sum
        else 0 := by
    rw [← sum_map_add_ite, decideAll, List.map_map]
    simp only [Function.comp_def, FocusMeetingRecord.minusSec_decide]
  rw [rejectedMinusSec_eq, rejectedMinusSec_eq, pendingMinusSec_eq, hwork, hnow, hbreaks, hmeetings]
  split <;> ring

/-- Without replayed sessions nothing is unverified, since only a replayed session
asks for evidence. -/
theorem unverifiedSec_eq_zero (input : FocusInput) (h : ∀ s ∈ input.sessions, s.replay = false) :
    (computeFocus input).unverifiedSec = 0 := by
  have hnone : points input.unverified = ∅ := by
    refine Finset.eq_empty_of_forall_notMem fun t ht => ?_
    obtain ⟨i, hi, -⟩ := mem_points.1 (mem_unverified.1 ht).2.1
    obtain ⟨s, hs, -⟩ := List.mem_map.1 hi
    obtain ⟨hmem, hreplay⟩ := List.mem_filter.1 hs
    rw [h s hmem] at hreplay
    exact Bool.false_ne_true hreplay
  have := mul_unverifiedSec input
  rw [hnone] at this
  simp at this
  omega

/-- No stretch of away time waits once all are decided. -/
theorem awayPendingSec_decideAll : (computeFocus (input.decideAll v)).awayPendingSec = 0 := by
  have hnone : ((input.decideAll v).awaySpans fun s => s = .pending) = [] := by
    rw [awaySpans_decideAll, awaySpans]
    have hfilter : (input.away.filter fun a => a.status.decide v = .pending) = [] := by
      refine List.filter_eq_nil_iff.2 fun a _ => ?_
      cases v <;> cases a.status <;> simp [AwayStatus.decide, Verdict.awayStatus]
    rw [hfilter, List.map_nil]
  have := (input.decideAll v).mul_awaySec .pending
  rw [hnone, points_nil, Finset.inter_empty, Finset.card_empty, ← awayPendingSec_eq] at this
  omega

/-- Unexplained time stays unexplained: no verdict is given on it. -/
theorem awayUnexplainedSec_decideAll : (computeFocus (input.decideAll v)).awayUnexplainedSec =
    (computeFocus input).awayUnexplainedSec := by
  have hnotBreak : (input.decideAll v).notBreak = input.notBreak := rfl
  have hsame : (fun s => decide (AwayStatus.decide v s = .unexplained)) =
      fun s => decide (s = .unexplained) := by
    funext s
    cases v <;> cases s <;> rfl
  rw [awayUnexplainedSec_eq, awayUnexplainedSec_eq, awaySec, awaySec, awaySpans_decideAll,
    hnotBreak, hsame]

/-- Rejected stretches join the rejected ones, second by second, when the stretches lie apart. -/
theorem awayRejectedSec_decideAll (h : input.AwayApart) :
    (computeFocus (input.decideAll v)).awayRejectedSec = (computeFocus input).awayRejectedSec +
      if v = .reject then (computeFocus input).awayPendingSec else 0 := by
  have hwork : (input.decideAll v).work = input.work := rfl
  have hbreaks : (input.decideAll v).breaks = input.breaks := rfl
  have hrejected := input.mul_awaySec .rejected
  have hpending := input.mul_awaySec .pending
  have hall := (input.decideAll v).mul_awaySec .rejected
  rw [← awayRejectedSec_eq] at hrejected
  rw [← awayPendingSec_eq] at hpending
  rw [← awayRejectedSec_eq, hwork, hbreaks, awaySpans_decideAll] at hall
  cases v with
  | approve =>
    have hsame : (fun s => decide (AwayStatus.decide .approve s = .rejected)) =
        fun s => decide (s = .rejected) := by
      funext s
      cases s <;> rfl
    rw [hsame] at hall
    rw [if_neg (by simp)]
    omega
  | reject =>
    have hset : points (input.awaySpans fun s => AwayStatus.decide .reject s = .rejected) =
        points (input.awaySpans fun s => s = .rejected) ∪
          points (input.awaySpans fun s => s = .pending) := by
      ext t
      simp only [Finset.mem_union, mem_awaySpans, decide_eq_true_eq, ← exists_or, ← and_or_left,
        ← or_and_right]
      refine exists_congr fun a => and_congr_right fun _ => and_congr_left fun _ => ?_
      cases a.status <;> simp [AwayStatus.decide, Verdict.awayStatus]
    have hdisj : Disjoint ((points input.work \ points input.breaks) ∩
        points (input.awaySpans fun s => s = .rejected))
          ((points input.work \ points input.breaks) ∩
          points (input.awaySpans fun s => s = .pending)) :=
      Finset.disjoint_of_subset_left Finset.inter_subset_right
        (Finset.disjoint_of_subset_right Finset.inter_subset_right (h.disjoint (by simp)))
    rw [hset, Finset.inter_union_distrib_left, Finset.card_union_of_disjoint hdisj] at hall
    rw [if_pos rfl]
    push_cast at hall
    omega

end FocusInput

/-- Without replayed sessions the pending figures are what the decisions will do: with everything
approved the focus time grows by `pendingPlusSec`, with everything rejected it loses
`pendingMinusSec`. -/
theorem pending_forecast (input : FocusInput) (hreplay : ∀ s ∈ input.sessions, s.replay = false)
    (haway : input.AwayApart) (hfocus : 0 < (computeFocus input).focusSec) :
    (computeFocus (input.decideAll .approve)).focusSec =
        (computeFocus input).focusSec + (computeFocus input).pendingPlusSec ∧
      (computeFocus (input.decideAll .reject)).focusSec =
        max 0 ((computeFocus input).focusSec - (computeFocus input).pendingMinusSec) := by
  have hspan : ∀ v, (computeFocus (input.decideAll v)).spanSec = (computeFocus input).spanSec :=
    fun _ => rfl
  have hbreak : ∀ v, (computeFocus (input.decideAll v)).breakSec = (computeFocus input).breakSec :=
    fun _ => rfl
  have hadjusted : ∀ v, (computeFocus (input.decideAll v)).adjustedSec =
    (computeFocus input).adjustedSec := fun _ => rfl
  have hzero := input.unverifiedSec_eq_zero hreplay
  have hzeroAll : ∀ v, (computeFocus (input.decideAll v)).unverifiedSec = 0 := fun v =>
    (input.decideAll v).unverifiedSec_eq_zero hreplay
  have hbalance : ∀ v, (computeFocus (input.decideAll v)).balance = (computeFocus input).balance +
      (computeFocus input).awayPendingSec +
      (if v = .approve then input.breakTotals.pendingPlusSec else 0) -
      (if v = .reject then (computeFocus input).awayPendingSec +
        (computeFocus input).pendingMinusSec else 0) := by
    intro v
    simp only [FocusBreakdown.balance, hspan, hbreak, hadjusted, hzero, hzeroAll,
      FocusInput.awayPendingSec_decideAll, FocusInput.awayUnexplainedSec_decideAll,
      FocusInput.awayRejectedSec_decideAll haway, FocusInput.approvedPlusSec_decideAll,
      FocusInput.rejectedMinusSec_decideAll]
    cases v <;> simp <;> ring
  have hpending : (computeFocus input).pendingPlusSec =
    input.breakTotals.pendingPlusSec + (computeFocus input).awayPendingSec := rfl
  have hnonneg := (input.computeFocus_nonneg).pendingPlus
  have hfocusEq := FocusInput.focusSec_eq input
  have happrove := hbalance .approve
  have hreject := hbalance .reject
  rw [if_pos rfl, if_neg (by simp)] at happrove
  rw [if_neg (by simp), if_pos rfl] at hreject
  rw [FocusInput.focusSec_eq (input.decideAll .approve),
    FocusInput.focusSec_eq (input.decideAll .reject), happrove, hreject]
  constructor
  · omega
  · omega

/-- Eight hours with a pending item of every kind: an away half hour that touches the lunch, a
meeting, a skipped break and an asked overrun. -/
def waitingDay : FocusInput where
  sessions := [{ startedAt := 0, endedAt := some 28800000 }]
  presence := [{ startedAt := 14400000, endedAt := some 16200000, type := .lunch }]
  breakRecords := [
    { outcome := .skipped, approvalStatus := .pending, overrunAsked := false
      overrunSec := none, durationMin := some 15 },
    { outcome := .taken, approvalStatus := .pending, overrunAsked := true
      overrunSec := some 300, durationMin := some 25, kind := some .lunch
      segments := [{ startedAt := 14400000, endedAt := some 16200000 }] }]
  meetingRecords := [{ startedAt := 3600000, endedAt := some 5400000, mode := .past
                       approvalStatus := .pending }]
  away := [{ startedAt := 16000000, endedAt := some 17800000, status := .pending }]
  now := 28800000

/-- The forecast on that day. -/
theorem waitingDay_forecast :
    (computeFocus (waitingDay.decideAll .approve)).focusSec =
        (computeFocus waitingDay).focusSec + (computeFocus waitingDay).pendingPlusSec ∧
      (computeFocus (waitingDay.decideAll .reject)).focusSec =
        max 0 ((computeFocus waitingDay).focusSec - (computeFocus waitingDay).pendingMinusSec) :=
  pending_forecast waitingDay (by decide) (List.pairwise_singleton _ _) (by decide +kernel)

/-! ## One item decided -/

namespace FocusInput

/-- The day with the away stretches `before`, `a` with the status `status`, and `after`. -/
def withAway (input : FocusInput) (before after : List FocusAway) (a : FocusAway)
    (status : AwayStatus) : FocusInput :=
  { input with away := before ++ { a with status } :: after }

/-- The day with the meetings `before`, `m` with the status `status`, and `after`. -/
def withMeeting (input : FocusInput) (before after : List FocusMeetingRecord)
    (m : FocusMeetingRecord) (status : BreakApprovalStatus) : FocusInput :=
  { input with meetingRecords := before ++ { m with approvalStatus := status } :: after }

/-- The day with the break records `before`, `r` with the status `status`, and `after`. -/
def withRecord (input : FocusInput) (before after : List FocusBreakRecord) (r : FocusBreakRecord)
    (status : BreakApprovalStatus) : FocusInput :=
  { input with breakRecords := before ++ { r with approvalStatus := status } :: after }

/-- The second day is the first one with one pending item decided. -/
inductive Decided (v : Verdict) (input : FocusInput) : FocusInput → Prop
  | away {before after : List FocusAway} {a : FocusAway} (h : input.away = before ++ a :: after)
      (hp : a.status = .pending) : Decided v input (input.withAway before after a v.awayStatus)
  | meeting {before after : List FocusMeetingRecord} {m : FocusMeetingRecord}
      (h : input.meetingRecords = before ++ m :: after) (hp : m.approvalStatus = .pending) :
      Decided v input (input.withMeeting before after m v.status)
  | record {before after : List FocusBreakRecord} {r : FocusBreakRecord}
      (h : input.breakRecords = before ++ r :: after) (hi : r.IsItem)
      (hp : r.approvalStatus = .pending) :
      Decided v input (input.withRecord before after r v.status)

end FocusInput

/-- The instants of the filtered intervals of a list are those of the others and those of one
element, if it passes the filter. -/
theorem mem_points_split {α : Type*} {p : α → Bool} {f : α → Interval} {before after : List α}
    {a : α} {t : ℤ} : t ∈ points (((before ++ a :: after).filter p).map f) ↔
      t ∈ points (((before ++ after).filter p).map f) ∨ p a ∧ t ∈ points [f a] := by
  rw [List.filter_append, List.filter_append, List.map_append, List.map_append, points_append,
    points_append, Finset.mem_union, Finset.mem_union, List.filter_cons]
  split
  · next hp =>
    rw [List.map_cons, mem_points_cons, mem_points_cons, points_nil, or_left_comm, or_comm]
    simp [hp]
  · next hp => simp [hp]

/-- Changing an element that the filter left out keeps the intervals of the others, whatever
the element becomes. -/
theorem map_filter_subset_changed {α : Type*} {p : α → Bool} {f : α → Interval}
    {before after : List α} {a a' : α} (ha : p a = false) :
    ((before ++ a :: after).filter p).map f ⊆ ((before ++ a' :: after).filter p).map f := by
  intro i hi
  rw [List.filter_append, List.filter_cons, if_neg (by simp [ha]), List.map_append,
    List.mem_append] at hi
  rw [List.filter_append, List.map_append, List.mem_append]
  refine hi.imp_right fun hi => ?_
  rw [List.filter_cons]
  split
  · exact List.mem_cons_of_mem _ hi
  · exact hi

/-- A sum over a list, one element set apart. -/
theorem sum_map_split {α : Type*} (f : α → ℤ) (before after : List α) (a : α) :
    ((before ++ a :: after).map f).sum = ((before ++ after).map f).sum + f a := by
  simp only [List.map_append, List.map_cons, List.sum_append, List.sum_cons]
  ring

namespace FocusInput

variable {a b : FocusInput}

/-- The focus time only grows when less is taken off and more is added, over the same work,
breaks and adjustments. -/
theorem balance_mono (hwork : a.work = b.work) (hbreaks : a.breaks = b.breaks)
    (hadjusted : a.adjustedSec = b.adjustedSec)
    (haway : (computeFocus b).awayPendingSec + (computeFocus b).awayRejectedSec +
        (computeFocus b).awayUnexplainedSec ≤ (computeFocus a).awayPendingSec +
          (computeFocus a).awayRejectedSec + (computeFocus a).awayUnexplainedSec)
    (hplus : (computeFocus a).approvedPlusSec ≤ (computeFocus b).approvedPlusSec)
    (hminus : (computeFocus b).rejectedMinusSec + (computeFocus b).unverifiedSec ≤
      (computeFocus a).rejectedMinusSec + (computeFocus a).unverifiedSec) :
    (computeFocus a).balance ≤ (computeFocus b).balance := by
  have hspan : (computeFocus a).spanSec = (computeFocus b).spanSec := by
    show toSec (lengthMs a.work) = toSec (lengthMs b.work)
    rw [hwork]
  have hbreak : (computeFocus a).breakSec = (computeFocus b).breakSec := by
    show toSec (lengthMs (intersect a.work a.breaks)) = toSec (lengthMs (intersect b.work b.breaks))
    rw [hwork, hbreaks]
  have hadj : (computeFocus a).adjustedSec = (computeFocus b).adjustedSec := by
    show mathRound a.adjustedSec = mathRound b.adjustedSec
    rw [hadjusted]
  unfold FocusBreakdown.balance
  omega

variable {input : FocusInput}

/-! ### An away stretch -/

section Away

variable {before after : List FocusAway} {away : FocusAway} {status : AwayStatus}
  {p : AwayStatus → Bool} {t : ℤ}

/-- The stretches that meet `p` without the one set apart. -/
def otherAway (input : FocusInput) (before after : List FocusAway) (p : AwayStatus → Bool) :
    List Interval :=
  { input with away := before ++ after }.awaySpans p

/-- The stretches that meet `p` once the status of one is changed. -/
theorem mem_awaySpans_withAway :
    t ∈ points ((input.withAway before after away status).awaySpans p) ↔
    t ∈ points (input.otherAway before after p) ∨
      p status ∧ t ∈ points [away.toStretch.wholeSpan input.now] :=
  mem_points_split (f := fun a : FocusAway => a.toStretch.wholeSpan input.now)
    (p := fun a => p a.status)

/-- The stretches that meet `p` before it is changed. -/
theorem mem_awaySpans_split (h : input.away = before ++ away :: after) :
    t ∈ points (input.awaySpans p) ↔ t ∈ points (input.otherAway before after p) ∨
      p away.status ∧ t ∈ points [away.toStretch.wholeSpan input.now] := by
  rw [awaySpans, h]
  exact mem_points_split (f := fun a : FocusAway => a.toStretch.wholeSpan input.now)
    (p := fun a => p a.status)

/-- A status that neither the old nor the new status of the stretch meets keeps its instants. -/
theorem points_awaySpans_withAway (h : input.away = before ++ away :: after)
    (hold : p away.status = p status) :
    points ((input.withAway before after away status).awaySpans p) =
        points (input.awaySpans p) := by
  ext t
  rw [mem_awaySpans_withAway, mem_awaySpans_split h, hold]

/-- The stretches of one status keep their seconds when their instants are the same. -/
theorem awaySec_congr {a b : FocusInput} (hwork : a.work = b.work) (hbreaks : a.breaks = b.breaks)
    {s : AwayStatus}
    (h : points (a.awaySpans fun s' => s' = s) = points (b.awaySpans fun s' => s' = s)) :
    a.awaySec a.notBreak s = b.awaySec b.notBreak s := by
  have ha := a.mul_awaySec s
  have hb := b.mul_awaySec s
  rw [hwork, hbreaks, h] at ha
  omega

/-- An approved stretch becomes evidence and is decided time no longer, so no instant becomes
unverified by it. -/
theorem approveAway_unverified (h : input.away = before ++ away :: after)
    (hp : away.status = .pending) :
    points (input.withAway before after away .approved).unverified ⊆ points input.unverified := by
  have hevidence : input.evidence ⊆ (input.withAway before after away .approved).evidence := by
    refine List.append_subset.2 ⟨List.subset_append_left _ _, ?_⟩
    refine List.Subset.trans ?_ (List.subset_append_right _ _)
    refine List.append_subset.2 ⟨List.Subset.trans ?_ (List.subset_append_left _ _),
      List.subset_append_right _ _⟩
    rw [awaySpans, h]
    exact map_filter_subset_changed (by simp [hp])
  refine unverified_anti (a := input) rfl rfl hevidence fun t ht => ?_
  rw [explained, points_append, Finset.mem_union, mem_awaySpans_split h] at ht
  rw [Finset.mem_union, explained, points_append, Finset.mem_union, mem_awaySpans_withAway]
  rcases ht with (hother | ⟨-, hthis⟩) | hmeeting
  · exact .inl (.inl (.inl hother))
  · refine .inr ?_
    rw [evidence, points_append, Finset.mem_union, approvedEvidence, points_append,
      Finset.mem_union,
      mem_awaySpans_withAway]
    exact .inr (.inl (.inr ⟨by simp, hthis⟩))
  · exact .inl (.inr hmeeting)

/-- A rejected stretch stays decided time, so every unverified instant stays unverified. -/
theorem rejectAway_unverified (h : input.away = before ++ away :: after)
    (hp : away.status = .pending) :
    points input.unverified ⊆ points (input.withAway before after away .rejected).unverified := by
  have hlist : (input.withAway before after away .rejected).awaySpans (fun s => s = .approved) =
      input.awaySpans fun s => s = .approved := by
    simp [awaySpans, h, withAway, hp]
  have hevidence : (input.withAway before after away .rejected).evidence ⊆ input.evidence := by
    have heq : (input.withAway before after away .rejected).evidence = input.evidence := by
      rw [evidence, approvedEvidence, hlist]
      rfl
    exact heq ▸ List.Subset.refl _
  refine unverified_anti (b := input) rfl rfl hevidence ?_
  rw [explained, explained, points_append, points_append,
    points_awaySpans_withAway h (by simp [hp])]
  exact Finset.subset_union_left

/-- An approved stretch of away time raises the focus time and the pay, or leaves
them as they are. -/
theorem approveAway (h : input.away = before ++ away :: after) (hp : away.status = .pending) :
    (computeFocus input).focusSec ≤
        (computeFocus (input.withAway before after away .approved)).focusSec ∧
      (computeFocus input).paidSec ≤
        (computeFocus (input.withAway before after away .approved)).paidSec := by
  have hless := approveAway_unverified h hp
  have hunverified :=
    unverifiedSec_le (a := input) (b := input.withAway before after away .approved)
    rfl hless
  have hpending : (input.withAway before after away .approved).awaySec
      (input.withAway before after away .approved).notBreak .pending ≤
        input.awaySec input.notBreak .pending := by
    have hnew := (input.withAway before after away .approved).mul_awaySec .pending
    have hold := input.mul_awaySec .pending
    have hsub : points ((input.withAway before after away .approved).awaySpans
        fun s => s = .pending) ⊆ points (input.awaySpans fun s => s = .pending) := by
      intro t ht
      rw [mem_awaySpans_withAway] at ht
      rw [mem_awaySpans_split h]
      exact .inl (ht.resolve_right fun hnew => by simp at hnew)
    have hcard := Finset.card_le_card (Finset.inter_subset_inter_left
      (s := points input.work \ points input.breaks) hsub)
    have hwork : (input.withAway before after away .approved).work = input.work := rfl
    have hbreaks : (input.withAway before after away .approved).breaks = input.breaks := rfl
    rw [hwork, hbreaks] at hnew
    omega
  have hrejected := awaySec_congr (a := input.withAway before after away .approved) (b := input)
    rfl rfl (s := .rejected) (points_awaySpans_withAway h (by simp [hp]))
  have hunexplained := awaySec_congr (a := input.withAway before after away .approved) (b := input)
    rfl rfl (s := .unexplained) (points_awaySpans_withAway h (by simp [hp]))
  refine paidSec_mono rfl rfl rfl hless (balance_mono rfl rfl rfl ?_ le_rfl
    (add_le_add le_rfl hunverified))
  simp only [awayPendingSec_eq, awayRejectedSec_eq, awayUnexplainedSec_eq]
  omega

/-- A rejected stretch is taken off as the pending one was, so the focus time does not grow. -/
theorem rejectAway (hapart : input.AwayApart) (h : input.away = before ++ away :: after)
    (hp : away.status = .pending) :
    (computeFocus (input.withAway before after away .rejected)).focusSec ≤
      (computeFocus input).focusSec := by
  have hunverified :=
    unverifiedSec_le (b := input) (a := input.withAway before after away .rejected)
    rfl (rejectAway_unverified h hp)
  have hunexplained := awaySec_congr (a := input.withAway before after away .rejected) (b := input)
    rfl rfl (s := .unexplained) (points_awaySpans_withAway h (by simp [hp]))
  -- the stretch leaves the pending instants and joins the rejected ones, which it does not meet
  have hpending : points (input.awaySpans fun s => s = .pending) =
    points ((input.withAway before after away .rejected).awaySpans fun s => s = .pending) ∪
        points [away.toStretch.wholeSpan input.now] := by
    ext t
    rw [Finset.mem_union, mem_awaySpans_split h, mem_awaySpans_withAway]
    simp only [hp, reduceCtorEq, decide_true, decide_false, Bool.false_eq_true, true_and, false_and,
      or_false]
  have hrejected : points ((input.withAway before after away .rejected).awaySpans
      fun s => s = .rejected) = points (input.awaySpans fun s => s = .rejected) ∪
        points [away.toStretch.wholeSpan input.now] := by
    ext t
    rw [Finset.mem_union, mem_awaySpans_split h, mem_awaySpans_withAway]
    simp only [hp, reduceCtorEq, decide_true, decide_false, Bool.false_eq_true, true_and, false_and,
      or_false]
  have hdisj : Disjoint ((points input.work \ points input.breaks) ∩
      points (input.awaySpans fun s => s = .rejected)) ((points input.work \ points input.breaks) ∩
        points [away.toStretch.wholeSpan input.now]) := by
    refine Finset.disjoint_of_subset_left Finset.inter_subset_right
      (Finset.disjoint_of_subset_right ?_ (hapart.disjoint (q := fun s => s = .pending) (by simp)))
    exact Finset.inter_subset_right.trans (hpending ▸ Finset.subset_union_right)
  have hle := Finset.card_union_le ((points input.work \ points input.breaks) ∩
    points ((input.withAway before after away .rejected).awaySpans fun s => s = .pending))
    ((points input.work \ points input.breaks) ∩ points [away.toStretch.wholeSpan input.now])
  have heq := Finset.card_union_of_disjoint hdisj
  rw [← Finset.inter_union_distrib_left, ← hpending] at hle
  rw [← Finset.inter_union_distrib_left, ← hrejected] at heq
  have h1 := input.mul_awaySec .pending
  have h2 := input.mul_awaySec .rejected
  have h3 := (input.withAway before after away .rejected).mul_awaySec .pending
  have h4 := (input.withAway before after away .rejected).mul_awaySec .rejected
  have hwork : (input.withAway before after away .rejected).work = input.work := rfl
  have hbreaks : (input.withAway before after away .rejected).breaks = input.breaks := rfl
  rw [hwork, hbreaks] at h3 h4
  rw [focusSec_eq, focusSec_eq]
  refine max_le_max_left 0 (balance_mono rfl rfl rfl ?_ le_rfl (add_le_add le_rfl hunverified))
  simp only [awayPendingSec_eq, awayRejectedSec_eq, awayUnexplainedSec_eq]
  omega

end Away

/-! ### A meeting -/

section Meeting

variable {before after : List FocusMeetingRecord} {m : FocusMeetingRecord}
  {status : BreakApprovalStatus} {p : BreakApprovalStatus → Bool} {t : ℤ}

/-- The meetings that meet `p` without the one set apart. -/
def otherMeetings (input : FocusInput) (before after : List FocusMeetingRecord)
    (p : BreakApprovalStatus → Bool) : List Interval :=
  { input with meetingRecords := before ++ after }.meetingSpans p

/-- The spans of the meetings, one of which has another status. -/
theorem mem_meetingSpans_withMeeting :
    t ∈ points ((input.withMeeting before after m status).meetingSpans p) ↔
      t ∈ points (input.otherMeetings before after p) ∨
        p status ∧ t ∈ points [m.toStretch.wholeSpan input.now] :=
  mem_points_split (f := fun m : FocusMeetingRecord => m.toStretch.wholeSpan input.now)
    (p := fun m => p m.approvalStatus)

/-- The spans of the meetings, one of which is set apart. -/
theorem mem_meetingSpans_split (h : input.meetingRecords = before ++ m :: after) :
    t ∈ points (input.meetingSpans p) ↔ t ∈ points (input.otherMeetings before after p) ∨
      p m.approvalStatus ∧ t ∈ points [m.toStretch.wholeSpan input.now] := by
  rw [meetingSpans, h]
  exact mem_points_split (f := fun m : FocusMeetingRecord => m.toStretch.wholeSpan input.now)
    (p := fun m => p m.approvalStatus)

/-- What the rejected meetings take off, with one meeting set apart: it counts when its new
status is rejected. -/
theorem rejectedMinusSec_withMeeting (status : BreakApprovalStatus)
    (h : input.meetingRecords = before ++ m :: after)
    (hp : m.approvalStatus = .pending) :
    (computeFocus (input.withMeeting before after m status)).rejectedMinusSec =
      (computeFocus input).rejectedMinusSec +
        if status = .rejected then m.inWorkSec input.work input.now else 0 := by
  have hnew := (input.withMeeting before after m status).rejectedMinusSec_eq
  have hold := input.rejectedMinusSec_eq
  rw [h, sum_map_split, FocusMeetingRecord.minusSec, if_neg (by simp [hp])] at hold
  simp only [withMeeting, sum_map_split] at hnew
  have hm : ({ m with approvalStatus := status } : FocusMeetingRecord).minusSec input.work input.now
      .rejected = if status = .rejected then m.inWorkSec input.work input.now else 0 := rfl
  have hwork : (input.withMeeting before after m status).work = input.work := rfl
  simp only [withMeeting] at hwork
  rw [hwork, hm] at hnew
  simp only [withMeeting]
  omega

/-- An approved meeting becomes evidence. -/
theorem approveMeeting_unverified (h : input.meetingRecords = before ++ m :: after)
    (hp : m.approvalStatus = .pending) :
    points (input.withMeeting before after m .approved).unverified ⊆ points input.unverified := by
  have hevidence : input.evidence ⊆ (input.withMeeting before after m .approved).evidence := by
    refine List.append_subset.2 ⟨List.subset_append_left _ _, ?_⟩
    refine List.Subset.trans ?_ (List.subset_append_right _ _)
    refine List.append_subset.2 ⟨List.subset_append_left _ _,
      List.Subset.trans ?_ (List.subset_append_right _ _)⟩
    rw [h]
    exact map_filter_subset_changed (by simp [hp])
  refine unverified_anti (a := input) rfl rfl hevidence (Finset.Subset.trans ?_
    Finset.subset_union_left)
  have hwork : (input.withMeeting before after m .approved).work = input.work := rfl
  intro t ht
  rw [explained, points_append, points_rejectedMeetings, Finset.mem_union, Finset.mem_inter,
    mem_meetingSpans_split h] at ht
  rw [explained, points_append, points_rejectedMeetings, Finset.mem_union, Finset.mem_inter,
    mem_meetingSpans_withMeeting, hwork]
  refine ht.imp_right fun hm => ⟨.inl (hm.1.resolve_right fun hm => ?_), hm.2⟩
  simp [hp] at hm

/-- A rejected meeting takes no more from the unverified time than it takes off itself. -/
theorem rejectMeeting_unverified (h : input.meetingRecords = before ++ m :: after)
    (hp : m.approvalStatus = .pending) :
    (computeFocus input).unverifiedSec ≤
      (computeFocus (input.withMeeting before after m .rejected)).unverifiedSec +
        m.inWorkSec input.work input.now := by
  have hspan :
      Cover.Whole 1000 (points (intersect [m.toStretch.wholeSpan input.now] input.work)) := by
    rw [points_intersect]
    exact (whole_points_wholeSpan (f := id) (l := [m.toStretch])).inter whole_work
  have hm : 1000 * m.inWorkSec input.work input.now =
      (points [m.toStretch.wholeSpan input.now] ∩ points input.work).card := by
    rw [FocusMeetingRecord.inWorkSec, mul_toSec_eq_card hspan, points_intersect]
  have hlist : ((input.withMeeting before after m .rejected).meetingRecords.filter
      fun m => m.approvalStatus = .approved) =
        input.meetingRecords.filter fun m => m.approvalStatus = .approved := by
    simp [h, withMeeting, hp]
  have hevidence : (input.withMeeting before after m .rejected).evidence = input.evidence := by
    rw [evidence, approvedEvidence, hlist]
    rfl
  have hpieces : (input.withMeeting before after m .rejected).pieces = input.pieces := by
    rw [pieces, hevidence, pieces]
  have hsub : points input.unverified \ points input.breaks ⊆
      points (input.withMeeting before after m .rejected).unverified \ points input.breaks ∪
        points [m.toStretch.wholeSpan input.now] ∩ points input.work := by
    intro t ht
    rw [Finset.mem_sdiff, mem_unverified] at ht
    rw [Finset.mem_union, Finset.mem_inter, Finset.mem_sdiff, mem_unverified, hevidence, hpieces,
      mem_meetingSpans_withMeeting]
    obtain ⟨⟨hw, hr, ha, hmeet, hrest⟩, hb⟩ := ht
    rw [mem_meetingSpans_split h, not_or] at hmeet
    by_cases hin : t ∈ points [m.toStretch.wholeSpan input.now]
    · exact .inr ⟨hin, hw⟩
    · exact .inl ⟨⟨hw, hr, ha, fun hm => hm.elim hmeet.1 fun hm => hin hm.2, hrest⟩, hb⟩
  have hcard := (Finset.card_le_card hsub).trans (Finset.card_union_le _ _)
  have hold := input.mul_unverifiedSec
  have hnew := (input.withMeeting before after m .rejected).mul_unverifiedSec
  have hbreaks : (input.withMeeting before after m .rejected).breaks = input.breaks := rfl
  rw [hbreaks] at hnew
  omega

/-- Approving a meeting takes no focus time and no paid time away. -/
theorem approveMeeting (h : input.meetingRecords = before ++ m :: after)
    (hp : m.approvalStatus = .pending) :
    (computeFocus input).focusSec ≤
        (computeFocus (input.withMeeting before after m .approved)).focusSec ∧
      (computeFocus input).paidSec ≤
        (computeFocus (input.withMeeting before after m .approved)).paidSec := by
  have hless := approveMeeting_unverified h hp
  have hunverified :=
    unverifiedSec_le (a := input) (b := input.withMeeting before after m .approved)
    rfl hless
  have hminus := rejectedMinusSec_withMeeting .approved h hp
  rw [if_neg (by simp)] at hminus
  exact paidSec_mono rfl rfl rfl hless (balance_mono rfl rfl rfl le_rfl le_rfl (by omega))

/-- Rejecting one adds no focus time. -/
theorem rejectMeeting (h : input.meetingRecords = before ++ m :: after)
    (hp : m.approvalStatus = .pending) :
    (computeFocus (input.withMeeting before after m .rejected)).focusSec ≤
      (computeFocus input).focusSec := by
  have hunverified := rejectMeeting_unverified h hp
  have hminus := rejectedMinusSec_withMeeting .rejected h hp
  rw [if_pos rfl] at hminus
  rw [focusSec_eq, focusSec_eq]
  exact max_le_max_left 0 (balance_mono rfl rfl rfl le_rfl le_rfl (by omega))

end Meeting

/-! ### A break record -/

section Record

variable {before after : List FocusBreakRecord} {r : FocusBreakRecord}
  {status : BreakApprovalStatus}

/-- The totals of the decided records, one record set apart. -/
theorem approvals_withRecord (status : BreakApprovalStatus)
    (h : input.breakRecords = before ++ r :: after)
    (hp : r.approvalStatus = .pending) :
    (computeFocus (input.withRecord before after r status)).approvedPlusSec =
        (computeFocus input).approvedPlusSec +
          ({ r with approvalStatus := status } : FocusBreakRecord).plusSec .approved ∧
      (computeFocus (input.withRecord before after r status)).rejectedMinusSec =
        (computeFocus input).rejectedMinusSec +
          ({ r with approvalStatus := status } : FocusBreakRecord).minusSec .rejected := by
  have hplus : r.plusSec .approved = 0 := if_neg (by simp [hp])
  have hminus : r.minusSec .rejected = 0 := if_neg (by simp [hp])
  have hmeetings : (input.withRecord before after r status).meetingRecords = input.meetingRecords :=
    rfl
  have hwork : (input.withRecord before after r status).work = input.work := rfl
  have hnow : (input.withRecord before after r status).now = input.now := rfl
  have hrecords : (input.withRecord before after r status).breakRecords =
    before ++ { r with approvalStatus := status } :: after := rfl
  rw [approvedPlusSec_eq, approvedPlusSec_eq, rejectedMinusSec_eq, rejectedMinusSec_eq, hmeetings,
    hwork, hnow, hrecords, h]
  simp only [sum_map_split, hplus, hminus]
  constructor
  · ring
  · ring

/-- The pay of the breaks does not depend on the approvals. -/
theorem payableSec_withRecord (h : input.breakRecords = before ++ r :: after) :
    (input.withRecord before after r status).payableSec = input.payableSec := by
  have hwork : (input.withRecord before after r status).work = input.work := rfl
  have hbreaks : (input.withRecord before after r status).breaks = input.breaks := rfl
  have hbuffer : (input.withRecord before after r status).bufferSec = input.bufferSec := rfl
  have hnow : (input.withRecord before after r status).now = input.now := rfl
  have hrecords : (input.withRecord before after r status).breakRecords =
    before ++ { r with approvalStatus := status } :: after := rfl
  simp only [payableSec, breakTotals_eq, hwork, hbreaks, hbuffer, hnow, hrecords, h, sum_map_split]
  rfl

/-- Approving a break takes no focus time and no paid time away. -/
theorem approveRecord (h : input.breakRecords = before ++ r :: after)
    (hp : r.approvalStatus = .pending) :
    (computeFocus input).focusSec ≤
        (computeFocus (input.withRecord before after r .approved)).focusSec ∧
      (computeFocus input).paidSec ≤
        (computeFocus (input.withRecord before after r .approved)).paidSec := by
  obtain ⟨hplus, hminus⟩ := approvals_withRecord .approved h hp
  have hnonneg :=
    ({ r with approvalStatus := .approved } : FocusBreakRecord).plusSec_nonneg .approved
  have hnone : ({ r with approvalStatus := .approved } : FocusBreakRecord).minusSec .rejected = 0 :=
    if_neg (by simp)
  have hunverified : (computeFocus (input.withRecord before after r .approved)).unverifiedSec =
    (computeFocus input).unverifiedSec := rfl
  exact paidSec_mono rfl rfl (payableSec_withRecord h).symm (Finset.Subset.refl _)
    (balance_mono rfl rfl rfl le_rfl (by omega) (by omega))

/-- Rejecting one adds no focus time. -/
theorem rejectRecord (h : input.breakRecords = before ++ r :: after)
    (hp : r.approvalStatus = .pending) :
    (computeFocus (input.withRecord before after r .rejected)).focusSec ≤
      (computeFocus input).focusSec := by
  obtain ⟨hplus, hminus⟩ := approvals_withRecord .rejected h hp
  have hnonneg :=
    ({ r with approvalStatus := .rejected } : FocusBreakRecord).minusSec_nonneg .rejected
  have hnone : ({ r with approvalStatus := .rejected } : FocusBreakRecord).plusSec .approved = 0 :=
    if_neg (by simp)
  have hunverified : (computeFocus (input.withRecord before after r .rejected)).unverifiedSec =
    (computeFocus input).unverifiedSec := rfl
  rw [focusSec_eq, focusSec_eq]
  exact max_le_max_left 0 (balance_mono rfl rfl rfl le_rfl (by omega) (by omega))

end Record

end FocusInput

/-- An approval never lowers the focus time or the pay, and a rejection never raises the focus
time. -/
theorem decision_monotone (input : FocusInput) (haway : input.AwayApart) :
    (∀ input', input.Decided .approve input' →
      (computeFocus input).focusSec ≤ (computeFocus input').focusSec ∧
        (computeFocus input).paidSec ≤ (computeFocus input').paidSec) ∧
    ∀ input', input.Decided .reject input' →
      (computeFocus input').focusSec ≤ (computeFocus input).focusSec := by
  constructor
  · intro input' h
    cases h with
    | away h hp => exact FocusInput.approveAway h hp
    | meeting h hp => exact FocusInput.approveMeeting h hp
    | record h _ hp => exact FocusInput.approveRecord h hp
  · intro input' h
    cases h with
    | away h hp => exact FocusInput.rejectAway haway h hp
    | meeting h hp => exact FocusInput.rejectMeeting h hp
    | record h _ hp => exact FocusInput.rejectRecord h hp

/-- On the day that waits, the meeting's approval and the away stretch's rejection. -/
theorem waitingDay_monotone :
    (computeFocus waitingDay).paidSec ≤
        (computeFocus (waitingDay.withMeeting [] [] ⟨⟨3600000, some 5400000⟩, .past, .pending⟩
          .approved)).paidSec ∧
      (computeFocus (waitingDay.withAway [] [] ⟨⟨16000000, some 17800000⟩, .pending⟩
        .rejected)).focusSec ≤ (computeFocus waitingDay).focusSec :=
  have h := decision_monotone waitingDay (List.pairwise_singleton _ _)
  ⟨(h.1 _ (.meeting rfl rfl)).2, h.2 _ (.away rfl rfl)⟩

end RxVision
