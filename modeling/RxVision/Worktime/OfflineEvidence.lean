import Mathlib.Data.Finset.Max
import RxVision.Worktime.FocusPay

/-!
# Offline evidence, instant by instant

What `unverifiedIntervals` returns is read as a set of instants (`mem_unverified`): the instants of
the replay sessions that no evidence, no short gap between evidence, no session edge near evidence
and no decided time holds. The pieces of `joinGaps` are replaced by the evidence they come from
(`mem_pieces`), where a gap lies between the latest evidence before the instant and the earliest
after it (`InGap`).

More evidence leaves less unverified time (`unverified_anti`): a piece only grows, and an edge that
the grown piece no longer reaches is inside it. Every end is a whole second, so the unverified time
is a whole number of seconds (`whole_unverified`).
-/

namespace RxVision

open RxVision.Interval

/-! ## The parts `computeFocus` hands over -/

namespace FocusInput

variable (input : FocusInput)

/-- The replay sessions on whole seconds. -/
def replaySpans : List Interval :=
  (input.sessions.filter fun s => s.replay).map fun s => s.toStretch.wholeSpan input.now

/-- The meetings that meet `p`. -/
def meetingSpans (p : BreakApprovalStatus → Bool) : List Interval :=
  (input.meetingRecords.filter fun m => p m.approvalStatus).map
    fun m => m.toStretch.wholeSpan input.now

/-- Activity samples and manager-approved time. -/
def evidence : List Interval :=
  (input.coverage.map fun c => wholeSpan c.startedAt (some c.endedAt) input.now) ++
    input.approvedEvidence

/-- The evidence, joined across short gaps. -/
def pieces : List Interval := joinGaps input.evidence (COVERAGE_JOIN_SEC * 1000)

/-- Time its status has already decided against focus. -/
def explained : List Interval :=
  input.awaySpans (fun s => s ≠ .approved) ++ input.meetingTotals.rejectedMeetings

/-- The unverified time of the day. -/
def unverified : List Interval :=
  unverifiedIntervals input input.work input.explained input.approvedEvidence

end FocusInput

/-! ## Whole seconds -/

/-- The interval starts and ends on whole seconds. -/
def Interval.OnSeconds (i : Interval) : Prop := 1000 ∣ i.start ∧ 1000 ∣ i.stop

/-- The whole span of a stretch lies on seconds: its start and its end are cut to whole ones. -/
theorem wholeSpan_onSeconds (a : ℤ) (b : Option ℤ) (now : ℤ) : (wholeSpan a b now).OnSeconds := by
  have h : ∀ ms, 1000 ∣ wholeSecond ms := fun ms => ⟨ms / 1000, mul_comm _ _⟩
  have hstop : (wholeSpan a b now).stop = max (wholeSecond a) (wholeSecond (b.getD now)) := rfl
  refine ⟨h a, ?_⟩
  rw [hstop]
  rcases max_choice (wholeSecond a) (wholeSecond (b.getD now)) with hmax | hmax
  · rw [hmax]
    exact h a
  · rw [hmax]
    exact h _

/-- It does not end before it starts. -/
theorem wholeSpan_le (a : ℤ) (b : Option ℤ) (now : ℤ) :
    (wholeSpan a b now).start ≤ (wholeSpan a b now).stop := le_max_left _ _

/-- Intervals that start and end on whole seconds are made of whole seconds. -/
theorem whole_points {l : List Interval} (h : ∀ i ∈ l, i.OnSeconds) :
    Cover.Whole 1000 (points l) :=
  .cover (by omega) (fun i hi => (h i hi).1) fun i hi => (h i hi).2

namespace FocusInput

variable {input : FocusInput} {i : Interval}

/-- Every piece of evidence is a `wholeSpan`. -/
theorem exists_of_mem_evidence (hi : i ∈ input.evidence) :
    ∃ a b, i = wholeSpan a b input.now := by
  simp only [evidence, approvedEvidence, awaySpans, List.mem_append, List.mem_map] at hi
  rcases hi with ⟨c, -, rfl⟩ | ⟨a, -, rfl⟩ | ⟨m, -, rfl⟩
  · exact ⟨_, _, rfl⟩
  · exact ⟨_, _, rfl⟩
  · exact ⟨_, _, rfl⟩

/-- No evidence ends before it starts. -/
theorem evidence_le : ∀ i ∈ input.evidence, i.start ≤ i.stop := by
  intro i hi
  obtain ⟨a, b, rfl⟩ := exists_of_mem_evidence hi
  exact wholeSpan_le a b _

/-- Evidence lies on seconds. -/
theorem evidence_onSeconds (hi : i ∈ input.evidence) : i.OnSeconds := by
  obtain ⟨a, b, rfl⟩ := exists_of_mem_evidence hi
  exact wholeSpan_onSeconds a b _

/-- So do the pieces it leaves. -/
theorem pieces_onSeconds (hi : i ∈ input.pieces) : i.OnSeconds := by
  obtain ⟨⟨a, ha, hstart⟩, b, hb, hstop⟩ := joinGaps_ends evidence_le hi
  exact ⟨hstart ▸ (evidence_onSeconds ha).1, hstop ▸ (evidence_onSeconds hb).2⟩

/-- So do the sessions that were replayed. -/
theorem replaySpans_onSeconds (hi : i ∈ input.replaySpans) : i.OnSeconds := by
  obtain ⟨s, -, rfl⟩ := List.mem_map.1 hi
  exact wholeSpan_onSeconds _ _ _

/-- Away time is made of whole seconds. -/
theorem whole_awaySpans (p : AwayStatus → Bool) : Cover.Whole 1000 (points (input.awaySpans p)) :=
  whole_points_wholeSpan (f := FocusAway.toStretch)

/-- So are meetings. -/
theorem whole_meetingSpans (p : BreakApprovalStatus → Bool) :
    Cover.Whole 1000 (points (input.meetingSpans p)) :=
  whole_points_wholeSpan (f := FocusMeetingRecord.toStretch)

end FocusInput

/-! ## The instants -/

/-- The instants of the filtered intervals of a list whose first element passes the filter. -/
theorem points_filter_map_cons {α : Type*} {p : α → Bool} {f : α → Interval} {a : α} (l : List α)
    (ha : p a) : points (((a :: l).filter p).map f) = points [f a] ∪
    points ((l.filter p).map f) := by
  rw [List.filter_cons_of_pos ha, List.map_cons, ← points_append, List.singleton_append]

/-- The loop over the meeting records collects the rejected meetings, as far as they lie inside
the work sessions. -/
theorem MeetingTotals.points_foldl {work : List Interval} {now : ℤ}
    {records : List FocusMeetingRecord} {t : MeetingTotals} :
    points (records.foldl (MeetingTotals.add work now) t).rejectedMeetings =
      points t.rejectedMeetings ∪
        points ((records.filter fun m => m.approvalStatus = .rejected).map
          fun m => m.toStretch.wholeSpan now) ∩ points work := by
  induction records generalizing t with
  | nil => simp
  | cons m records ih =>
    rw [List.foldl_cons, ih, MeetingTotals.add]
    cases hm : m.approvalStatus with
    | rejected =>
      rw [points_filter_map_cons records (decide_eq_true hm), Finset.union_inter_distrib_right,
        if_neg (by simp), if_pos rfl, points_append, points_intersect, Finset.union_assoc]
    | pending => simp [hm]
    | approved => simp [hm]
    | notRequired => simp [hm]

/-- `t` lies between the latest evidence before it and the earliest after it, and these are at
most `COVERAGE_JOIN_SEC` apart. -/
def InGap (evidence : List Interval) (t : ℤ) : Prop :=
  ∃ i ∈ evidence, ∃ k ∈ evidence,
    (i.stop ≤ t ∧ ∀ j ∈ evidence, j.stop ≤ t → j.stop ≤ i.stop) ∧
    (t < k.start ∧ ∀ j ∈ evidence, t < j.start → k.start ≤ j.start) ∧
    k.start - i.stop ≤ COVERAGE_JOIN_SEC * 1000

/-- `t` lies between an end of the session `r` and the piece `c` that touches it, and these are at
most `COVERAGE_JOIN_SEC` apart. -/
def AtEdge (r c : Interval) (t : ℤ) : Prop :=
  (r.start ≤ c.stop ∧ c.start ≤ r.stop) ∧
    (r.start ≤ t ∧ t < c.start ∧ c.start - r.start ≤ COVERAGE_JOIN_SEC * 1000 ∨
      c.stop ≤ t ∧ t < r.stop ∧ r.stop - c.stop ≤ COVERAGE_JOIN_SEC * 1000)

/-- An instant is in a bridged gap when some two pieces of evidence around it are near enough: the
latest before it and the earliest after it are no farther apart than any two. -/
theorem inGap_iff {evidence : List Interval} {t : ℤ} :
    InGap evidence t ↔ ∃ i ∈ evidence, ∃ k ∈ evidence,
      i.stop ≤ t ∧ t < k.start ∧ k.start - i.stop ≤ COVERAGE_JOIN_SEC * 1000 := by
  constructor
  · rintro ⟨i, hi, k, hk, ⟨h1, -⟩, ⟨h2, -⟩, h3⟩
    exact ⟨i, hi, k, hk, h1, h2, h3⟩
  · rintro ⟨i, hi, k, hk, h1, h2, h3⟩
    have hbefore : (evidence.toFinset.filter fun j => j.stop ≤ t).Nonempty :=
      ⟨i, Finset.mem_filter.2 ⟨List.mem_toFinset.2 hi, h1⟩⟩
    have hafter : (evidence.toFinset.filter fun j => t < j.start).Nonempty :=
      ⟨k, Finset.mem_filter.2 ⟨List.mem_toFinset.2 hk, h2⟩⟩
    obtain ⟨a, ha, hlatest⟩ := Finset.exists_max_image _ stop hbefore
    obtain ⟨b, hb, hearliest⟩ := Finset.exists_min_image _ start hafter
    simp only [Finset.mem_filter, List.mem_toFinset, and_imp] at ha hb hlatest hearliest
    refine ⟨a, ha.1, b, hb.1, ⟨ha.2, hlatest⟩, ⟨hb.2, hearliest⟩, ?_⟩
    have := hlatest i hi h1
    have := hearliest k hk h2
    omega

/-- The instants of the edges of a piece are those near the start or the end of the
replayed session. -/
theorem mem_points_edgesOf {r c : Interval} {t : ℤ} :
    t ∈ points (edgesOf (COVERAGE_JOIN_SEC * 1000) r c) ↔ AtEdge r c t := by
  unfold edgesOf AtEdge
  split
  · simp only [points_nil, Finset.notMem_empty, false_iff]
    omega
  · rw [points_append, Finset.mem_union]
    have hstart : t ∈ points (if c.start > r.start ∧ c.start - r.start ≤ COVERAGE_JOIN_SEC * 1000
        then [⟨r.start, c.start⟩] else []) ↔
        r.start ≤ t ∧ t < c.start ∧ c.start - r.start ≤ COVERAGE_JOIN_SEC * 1000 := by
      split <;> simp <;> omega
    have hstop : t ∈ points (if c.stop < r.stop ∧ r.stop - c.stop ≤ COVERAGE_JOIN_SEC * 1000
        then [⟨c.stop, r.stop⟩] else []) ↔
        c.stop ≤ t ∧ t < r.stop ∧ r.stop - c.stop ≤ COVERAGE_JOIN_SEC * 1000 := by
      split <;> simp <;> omega
    rw [hstart, hstop]
    omega

namespace FocusInput

variable {input : FocusInput} {t : ℤ}

/-- The rejected meetings of the explained time, inside the work sessions. -/
theorem points_rejectedMeetings : points input.meetingTotals.rejectedMeetings =
    points (input.meetingSpans fun s => s = .rejected) ∩ points input.work := by
  rw [meetingTotals, MeetingTotals.points_foldl]
  simp [meetingSpans]

/-- The joined pieces hold the evidence and its short gaps. -/
theorem mem_pieces : t ∈ points input.pieces ↔ t ∈ points input.evidence ∨
    InGap input.evidence t := by
  rw [pieces, mem_points_joinGaps evidence_le, inGap_iff]

/-- The stretches between session ends and pieces. -/
def edges (input : FocusInput) : List Interval :=
  input.replaySpans.flatMap fun r => input.pieces.flatMap fun c =>
    edgesOf (COVERAGE_JOIN_SEC * 1000) r c

/-- An edge is where a replayed session meets a piece of evidence. -/
theorem mem_edges : t ∈ points input.edges ↔
    ∃ r ∈ input.replaySpans, ∃ c ∈ input.pieces, AtEdge r c t := by
  simp only [edges, mem_points, List.mem_flatMap, ← mem_points_edgesOf]
  constructor
  · rintro ⟨i, ⟨r, hr, c, hc, hi⟩, ht⟩
    exact ⟨r, hr, c, hc, i, hi, ht⟩
  · rintro ⟨r, hr, c, hc, i, hi, ht⟩
    exact ⟨i, ⟨r, hr, c, hc, hi⟩, ht⟩

/-- The unverified time as a set: the replayed work outside the evidence, its gaps and its edges,
less what is explained by a decision. -/
theorem points_unverified : points input.unverified =
    ((points input.work ∩ points input.replaySpans) \ (points input.pieces ∪ points input.edges)) \
      points input.explained := by
  have hempty : input.replaySpans = [] ∨ intersect input.work input.replaySpans = [] →
      points input.work ∩ points input.replaySpans = ∅ := by
    rintro (h | h)
    · rw [h, points_nil, Finset.inter_empty]
    · rw [← points_intersect, h, points_nil]
  show points (if input.replaySpans = [] then []
    else if intersect input.work input.replaySpans = [] then []
    else subtract (subtract (intersect input.work input.replaySpans)
      (normalize (input.pieces ++ input.edges))) input.explained) = _
  split
  · next h => rw [hempty (.inl h), Finset.empty_sdiff, Finset.empty_sdiff, points_nil]
  · split
    · next h => rw [hempty (.inr h), Finset.empty_sdiff, Finset.empty_sdiff, points_nil]
    · simp only [points_subtract, points_intersect, points_normalize, points_append]

/-- An instant is unverified when it is replay time inside the work sessions that no evidence, no
short gap, no session edge and no decided time holds. -/
theorem mem_unverified : t ∈ points input.unverified ↔
    t ∈ points input.work ∧ t ∈ points input.replaySpans ∧
      t ∉ points (input.awaySpans fun s => s ≠ .approved) ∧
      t ∉ points (input.meetingSpans fun s => s = .rejected) ∧
      t ∉ points input.evidence ∧ ¬ InGap input.evidence t ∧
      ¬ ∃ r ∈ input.replaySpans, ∃ c ∈ input.pieces, AtEdge r c t := by
  rw [points_unverified, explained, points_append, points_rejectedMeetings]
  simp only [Finset.mem_sdiff, Finset.mem_union, Finset.mem_inter, mem_pieces, mem_edges]
  constructor
  · rintro ⟨⟨⟨hw, hr⟩, hc⟩, he⟩
    exact ⟨hw, hr, fun h => he (.inl h), fun h => he (.inr ⟨h, hw⟩), fun h => hc (.inl (.inl h)),
      fun h => hc (.inl (.inr h)), fun h => hc (.inr h)⟩
  · rintro ⟨hw, hr, ha, hm, he, hg, hx⟩
    exact ⟨⟨⟨hw, hr⟩, fun h => h.elim (fun h => h.elim he hg) hx⟩,
      fun h => h.elim ha fun h => hm h.1⟩

/-- The unverified time is a whole number of seconds, since every bound of it lies on one. -/
theorem whole_unverified : Cover.Whole 1000 (points input.unverified) := by
  have hedges : ∀ i ∈ input.edges, i.OnSeconds := by
    intro i hi
    obtain ⟨r, hr, hi⟩ := List.mem_flatMap.1 hi
    obtain ⟨c, hc, hi⟩ := List.mem_flatMap.1 hi
    have hr := replaySpans_onSeconds hr
    have hc := pieces_onSeconds hc
    unfold edgesOf at hi
    split at hi
    · exact absurd hi List.not_mem_nil
    · rcases List.mem_append.1 hi with hi | hi
      · split at hi
        · obtain rfl := List.mem_singleton.1 hi
          exact ⟨hr.1, hc.1⟩
        · exact absurd hi List.not_mem_nil
      · split at hi
        · obtain rfl := List.mem_singleton.1 hi
          exact ⟨hc.2, hr.2⟩
        · exact absurd hi List.not_mem_nil
  rw [points_unverified, explained, points_append, ← points_append input.pieces,
    points_rejectedMeetings]
  have hcovered : ∀ i ∈ input.pieces ++ input.edges, i.OnSeconds := fun i hi =>
    (List.mem_append.1 hi).elim pieces_onSeconds (hedges i)
  exact ((whole_work.inter (whole_points fun i => replaySpans_onSeconds)).sdiff
    (whole_points hcovered)).sdiff
      ((whole_awaySpans _).union ((whole_meetingSpans _).inter whole_work))

end FocusInput

/-! ## More evidence -/

section MoreEvidence

variable {a b : FocusInput}

/-- More evidence covers no less: a piece grows, and an edge that it has passed lies inside it. -/
theorem covered_mono (hreplay : a.replaySpans = b.replaySpans)
    (hevidence : a.evidence ⊆ b.evidence) :
    points a.pieces ∪ points a.edges ⊆ points b.pieces ∪ points b.edges := by
  have hgrown : ∀ c ∈ a.pieces, ∃ c' ∈ b.pieces, c'.start ≤ c.start ∧ c.stop ≤ c'.stop :=
    fun c hc => exists_joinGaps_grown (by decide) FocusInput.evidence_le hevidence hc
  intro t ht
  rw [Finset.mem_union] at ht ⊢
  rcases ht with ht | ht
  · obtain ⟨c, hc, h1, h2⟩ := mem_points.1 ht
    obtain ⟨c', hc', h3, h4⟩ := hgrown c hc
    exact .inl (mem_points.2 ⟨c', hc', by omega, by omega⟩)
  · obtain ⟨r, hr, c, hc, hedge⟩ := FocusInput.mem_edges.1 ht
    obtain ⟨c', hc', h3, h4⟩ := hgrown c hc
    have hle : c.start ≤ c.stop := joinGaps_le FocusInput.evidence_le hc
    unfold AtEdge at hedge
    by_cases hin : c'.start ≤ t ∧ t < c'.stop
    · exact .inl (mem_points.2 ⟨c', hc', hin⟩)
    · refine .inr (FocusInput.mem_edges.2 ⟨r, hreplay ▸ hr, c', hc', ?_⟩)
      unfold AtEdge
      omega

/-- More evidence leaves less unverified time, as long as time that is no longer decided became
evidence. -/
theorem unverified_anti (hwork : a.work = b.work) (hreplay : a.replaySpans = b.replaySpans)
    (hevidence : a.evidence ⊆ b.evidence)
    (hexplained : points a.explained ⊆ points b.explained ∪ points b.evidence) :
    points b.unverified ⊆ points a.unverified := by
  intro t ht
  have hcovered := covered_mono hreplay hevidence
  rw [FocusInput.points_unverified, Finset.mem_sdiff, Finset.mem_sdiff] at ht ⊢
  obtain ⟨⟨hin, hnot⟩, hexp⟩ := ht
  refine ⟨⟨by rwa [hwork, hreplay], fun h => hnot (hcovered h)⟩, fun h => ?_⟩
  rcases Finset.mem_union.1 (hexplained h) with h | h
  · exact hexp h
  · exact hnot (Finset.mem_union_left _ (FocusInput.mem_pieces.2 (.inl h)))

end MoreEvidence

/-! ## The seconds -/

/-- A whole number of seconds has the size of its instants. -/
theorem mul_toSec_eq_card {l : List Interval} (h : Cover.Whole 1000 (points l)) :
    1000 * toSec (lengthMs l) = (points l).card := by
  rw [mul_toSec_lengthMs h, lengthMs_eq_card]

/-- What `focusSec` is before it is kept from going below zero. -/
def FocusBreakdown.balance (f : FocusBreakdown) : ℤ :=
  f.adjustedSec + f.spanSec - f.breakSec - f.awayPendingSec - f.awayRejectedSec
    - f.awayUnexplainedSec + f.approvedPlusSec - f.rejectedMinusSec - f.unverifiedSec

namespace FocusInput

variable {a b : FocusInput}

/-- The focus time is the balance, and never negative. -/
theorem focusSec_eq (input : FocusInput) :
    (computeFocus input).focusSec = max 0 (computeFocus input).balance := rfl

/-- The break part of the unverified time. -/
def unverifiedBreakSec (input : FocusInput) : ℤ :=
  toSec (lengthMs (intersect input.unverified (intersect input.work input.breaks)))

/-- What the breaks are paid when all of them are verified. -/
def payableSec (input : FocusInput) : ℤ :=
  let breakSec := toSec (lengthMs (intersect input.work input.breaks))
  let t := input.breakTotals
  let scheduledTakenSec := min t.scheduledTakenSec breakSec
  let quickBreakSec := min t.quickBreakSec (max 0 (breakSec - scheduledTakenSec))
  min t.paidScheduledSec scheduledTakenSec +
    min input.bufferSec (t.overrunSec + quickBreakSec +
      max 0 (breakSec - scheduledTakenSec - quickBreakSec))

/-- The paid break time is what is verified of the breaks, up to what is payable. -/
theorem paidBreakSec_eq (input : FocusInput) : (computeFocus input).paidBreakSec =
    max 0 (min ((computeFocus input).breakSec - input.unverifiedBreakSec) input.payableSec) := rfl

/-- The unverified time that is shown is the part of it outside breaks, a thousand
instants to the second. -/
theorem mul_unverifiedSec (input : FocusInput) : 1000 * (computeFocus input).unverifiedSec =
    (points input.unverified \ points input.breaks).card := by
  have hwork : points input.unverified ⊆ points input.work := fun t ht => (mem_unverified.1 ht).1
  have hbreak : points input.unverified ∩ points (intersect input.work input.breaks) =
      points input.unverified ∩ points input.breaks := by
    rw [points_intersect, ← Finset.inter_assoc, Finset.inter_eq_left.2 hwork]
  have hall := mul_toSec_eq_card (whole_unverified : Cover.Whole 1000 (points input.unverified))
  have hpart : 1000 * input.unverifiedBreakSec =
      (points input.unverified ∩ points input.breaks).card := by
    rw [unverifiedBreakSec, mul_toSec_eq_card, points_intersect, hbreak]
    rw [points_intersect]
    exact whole_unverified.inter whole_breakInW
  have hsum := Finset.card_sdiff_add_card_inter (points input.unverified) (points input.breaks)
  have heq : (computeFocus input).unverifiedSec =
      toSec (lengthMs input.unverified) - input.unverifiedBreakSec := rfl
  rw [heq]
  omega

/-- Less unverified time shows less unverified time. -/
theorem unverifiedSec_le (hbreaks : a.breaks = b.breaks)
    (hunverified : points b.unverified ⊆ points a.unverified) :
    (computeFocus b).unverifiedSec ≤ (computeFocus a).unverifiedSec := by
  have hcard := Finset.card_le_card (Finset.sdiff_subset_sdiff hunverified
    (subset_of_eq (congrArg points hbreaks)))
  have ha := mul_unverifiedSec a
  have hb := mul_unverifiedSec b
  omega

/-- Less unverified time pays no less of the breaks, over the same work and the same breaks. -/
theorem paidBreakSec_mono (hwork : a.work = b.work) (hbreaks : a.breaks = b.breaks)
    (hpayable : a.payableSec = b.payableSec)
    (hunverified : points b.unverified ⊆ points a.unverified) :
    (computeFocus a).paidBreakSec ≤ (computeFocus b).paidBreakSec := by
  have hbreak : (computeFocus a).breakSec = (computeFocus b).breakSec := by
    show toSec (lengthMs (intersect a.work a.breaks)) = toSec (lengthMs (intersect b.work b.breaks))
    rw [hwork, hbreaks]
  have hpart : b.unverifiedBreakSec ≤ a.unverifiedBreakSec := by
    refine toSec_mono (lengthMs_mono ?_)
    simp only [points_intersect, hwork, hbreaks]
    exact Finset.inter_subset_inter_right hunverified
  rw [paidBreakSec_eq, paidBreakSec_eq, hbreak, hpayable]
  omega

/-- Less unverified time lowers neither the focus time nor the pay, when everything
else is unchanged. -/
theorem paidSec_mono (hwork : a.work = b.work) (hbreaks : a.breaks = b.breaks)
    (hpayable : a.payableSec = b.payableSec)
    (hunverified : points b.unverified ⊆ points a.unverified)
    (hbalance : (computeFocus a).balance ≤ (computeFocus b).balance) :
    (computeFocus a).focusSec ≤ (computeFocus b).focusSec ∧
      (computeFocus a).paidSec ≤ (computeFocus b).paidSec := by
  have hpaid := paidBreakSec_mono hwork hbreaks hpayable hunverified
  have hfocus : (computeFocus a).focusSec ≤ (computeFocus b).focusSec := by
    rw [focusSec_eq, focusSec_eq]
    exact max_le_max_left 0 hbalance
  exact ⟨hfocus, add_le_add hfocus hpaid⟩

/-- Added coverage leaves less unverified time. -/
theorem unverified_coverage_subset (input : FocusInput) {coverage : List FocusCoverage}
    (h : input.coverage ⊆ coverage) :
    points { input with coverage }.unverified ⊆ points input.unverified := by
  refine unverified_anti (a := input) rfl rfl ?_ (Finset.subset_union_left)
  exact List.append_subset.2 ⟨fun i hi => List.mem_append_left _ (List.map_subset _ h hi),
    List.subset_append_right _ _⟩

/-- Replay time at an edge lies in the session whose edge it is. -/
theorem mem_session_of_atEdge {r c : Interval} {t : ℤ} (h : AtEdge r c t) :
    r.start ≤ t ∧ t < r.stop := by
  unfold AtEdge at h
  omega

/-- A replay session that no other session overlaps and no piece of evidence touches is unverified
from end to end, apart from the time already decided. -/
theorem mem_unverified_of_untouched {input : FocusInput} {before after : List FocusSession}
    {s : FocusSession} (hs : input.sessions = before ++ s :: after) (hreplay : s.replay)
    (halone : ∀ s' ∈ before ++ after, Disjoint (points [s'.toStretch.wholeSpan input.now])
      (points [s.toStretch.wholeSpan input.now]))
    (hfar : ∀ c ∈ input.pieces, c.stop < (s.toStretch.wholeSpan input.now).start ∨
      (s.toStretch.wholeSpan input.now).stop < c.start)
    {t : ℤ} (ht : t ∈ points [s.toStretch.wholeSpan input.now]) :
    t ∈ points input.unverified ↔ t ∉ points (input.awaySpans fun s => s ≠ .approved) ∧
      t ∉ points (input.meetingSpans fun s => s = .rejected) := by
  have hmem : s ∈ input.sessions := by simp [hs]
  have hspan : (s.toStretch.wholeSpan input.now).start ≤ t ∧
      t < (s.toStretch.wholeSpan input.now).stop := by simpa using ht
  have hwork : t ∈ points input.work := by
    rw [work, points_normalize]
    exact mem_points.2 ⟨_, List.mem_map.2 ⟨s, hmem, rfl⟩, hspan⟩
  have hsession : t ∈ points input.replaySpans :=
    mem_points.2 ⟨_, List.mem_map.2 ⟨s, List.mem_filter.2 ⟨hmem, hreplay⟩, rfl⟩, hspan⟩
  have hpieces : t ∉ points input.pieces := by
    intro h
    obtain ⟨c, hc, h1, h2⟩ := mem_points.1 h
    have := hfar c hc
    omega
  have hedges : ¬ ∃ r ∈ input.replaySpans, ∃ c ∈ input.pieces, AtEdge r c t := by
    rintro ⟨r, hr, c, hc, hedge⟩
    obtain ⟨s', hs', rfl⟩ := List.mem_map.1 hr
    have hin := mem_session_of_atEdge hedge
    have hmem' : s' = s ∨ s' ∈ before ++ after := by
      have := (List.mem_filter.1 hs').1
      rw [hs] at this
      simp only [List.mem_append, List.mem_cons] at this ⊢
      tauto
    rcases hmem' with rfl | hother
    · have := hfar c hc
      have := hedge.1
      omega
    · exact Finset.disjoint_left.1 (halone s' hother) (by simpa using hin) ht
  rw [mem_pieces, not_or] at hpieces
  rw [mem_unverified]
  exact ⟨fun h => ⟨h.2.2.1, h.2.2.2.1⟩,
    fun h => ⟨hwork, hsession, h.1, h.2, hpieces.1, hpieces.2, hedges⟩⟩

end FocusInput

/-- The unverified instants are exactly the ones the offline evidence rule names; an untouched
replay session is unverified throughout; and added coverage never costs the person anything. -/
theorem offline_evidence_rule (input : FocusInput) :
    (∀ t, t ∈ points input.unverified ↔
      t ∈ points input.work ∧ t ∈ points input.replaySpans ∧
        t ∉ points (input.awaySpans fun s => s ≠ .approved) ∧
        t ∉ points (input.meetingSpans fun s => s = .rejected) ∧
        t ∉ points input.evidence ∧ ¬ InGap input.evidence t ∧
        ¬ ∃ r ∈ input.replaySpans, ∃ c ∈ input.pieces, AtEdge r c t) ∧
    (∀ before s after, input.sessions = before ++ s :: after → s.replay = true →
      (∀ s' ∈ before ++ after, Disjoint (points [s'.toStretch.wholeSpan input.now])
        (points [s.toStretch.wholeSpan input.now])) →
      (∀ c ∈ input.pieces, c.stop < (s.toStretch.wholeSpan input.now).start ∨
        (s.toStretch.wholeSpan input.now).stop < c.start) →
      ∀ t ∈ points [s.toStretch.wholeSpan input.now],
        (t ∈ points input.unverified ↔ t ∉ points (input.awaySpans fun s => s ≠ .approved) ∧
          t ∉ points (input.meetingSpans fun s => s = .rejected))) ∧
    ∀ coverage, input.coverage ⊆ coverage →
      (computeFocus { input with coverage }).unverifiedSec ≤ (computeFocus input).unverifiedSec ∧
      (computeFocus input).focusSec ≤ (computeFocus { input with coverage }).focusSec ∧
      (computeFocus input).paidSec ≤ (computeFocus { input with coverage }).paidSec := by
  refine ⟨fun t => FocusInput.mem_unverified, fun before s after hs hreplay halone hfar t ht =>
    FocusInput.mem_unverified_of_untouched hs hreplay halone hfar ht, fun coverage h => ?_⟩
  have hless := input.unverified_coverage_subset h
  have hsec : (computeFocus { input with coverage }).unverifiedSec ≤
      (computeFocus input).unverifiedSec := FocusInput.unverifiedSec_le (a := input) rfl hless
  refine ⟨hsec, FocusInput.paidSec_mono (a := input) rfl rfl rfl hless ?_⟩
  exact sub_le_sub_left hsec _

/-- Two replayed hours, the second covered from its first minute on. -/
def offlineDay : FocusInput where
  sessions := [{ startedAt := 0, endedAt := some 3600000, replay := true },
    { startedAt := 7200000, endedAt := some 10800000, replay := true }]
  coverage := [⟨7260000, 10000000⟩]
  now := 10800000

/-- The first hour of that day has no evidence, so what is not decided of it is unverified, and a
sample in it only helps. -/
theorem offlineDay_rule :
    (∀ t ∈ points [(⟨0, some 3600000⟩ : Stretch).wholeSpan offlineDay.now],
      t ∈ points offlineDay.unverified ↔
      t ∉ points (offlineDay.awaySpans fun s => s ≠ .approved) ∧
        t ∉ points (offlineDay.meetingSpans fun s => s = .rejected)) ∧
    (computeFocus offlineDay).focusSec ≤
      (computeFocus { offlineDay with coverage := [⟨7260000, 10000000⟩, ⟨60000, 90000⟩] }).focusSec
        := by
  have h := offline_evidence_rule offlineDay
  refine ⟨h.2.1 [] { startedAt := 0, endedAt := some 3600000, replay := true } _ rfl rfl ?_
    (by decide +kernel), (h.2.2 _ (by decide +kernel)).2.1⟩
  intro s' hs'
  obtain rfl := List.mem_singleton.1 hs'
  rw [Finset.disjoint_left]
  simp [offlineDay, Stretch.wholeSpan, wholeSpan, wholeSecond]
  omega

end RxVision
