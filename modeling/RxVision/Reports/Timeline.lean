import RxVision.Shifts.BreakSchedule
import RxVision.Worktime.Focus
import RxVision.Worktime.IntervalAlgebra

/-!
# The day's timeline (`buildTimeline` of `report-builder.ts`)

The segments of a day: breaks and meetings inside the work sessions, the work around them, and what
is off between two sessions. The segments are cut out with the interval operations, so each kind is
a set of instants (`mem_buildTimeline`); the chain at the end is `Cover.Convex.isChain`: segments
that share no instant and leave no gap end where the next one starts (`timeline_agrees`).
-/

namespace RxVision

open RxVision.Interval

/-- The kind of a timeline segment; `brk` is `BREAK`. -/
inductive SegmentKind
  | work | brk | lunch | meeting | off
  deriving DecidableEq, Repr

/-- Where the kind stands in the order of `localeCompare`: BREAK, LUNCH, MEETING, OFF, WORK. -/
def SegmentKind.rank : SegmentKind → ℕ
  | .brk => 0
  | .lunch => 1
  | .meeting => 2
  | .off => 3
  | .work => 4

/-- `TimelineSegment`; `toISOString` writes an instant as a text, which is left out. -/
structure TimelineSegment where
  kind : SegmentKind
  startedAt : ℤ
  endedAt : ℤ
  label : String
  deriving DecidableEq, Repr

/-- `push`. -/
def segment (kind : SegmentKind) (label : String) (i : Interval) : TimelineSegment :=
  ⟨kind, i.start, i.stop, label⟩

/-- `PresenceRow`. -/
structure PresenceRow extends Stretch where
  id : ℕ
  type : PresenceType
  note : Option String := none
  deriving DecidableEq, Repr

/-- What the timeline reads of a break record. -/
structure BreakRecordRow where
  presenceSessionId : Option ℕ
  kind : Option RecordKind
  deriving DecidableEq, Repr

/-- What the timeline reads of a meeting record. -/
structure MeetingRecordRow extends Stretch where
  mode : MeetingMode
  agenda : String
  deriving DecidableEq, Repr

/-- `PersonDayData`, as far as the timeline reads it. -/
structure PersonDayData where
  sessions : List Stretch
  presence : List PresenceRow := []
  breakRecords : List BreakRecordRow := []
  meetingRecords : List MeetingRecordRow := []

/-- `RECORD_LABEL`. -/
def RECORD_LABEL : RecordKind → String
  | .morning => BREAK_LABEL .morning
  | .lunch => BREAK_LABEL .lunch
  | .evening => BREAK_LABEL .evening
  | .quick => "Quick break"

/-- A presence session or a past meeting: what its segments are called, and its span. -/
structure AwayRow where
  kind : SegmentKind
  label : String
  span : Interval

namespace PersonDayData

variable (d : PersonDayData) (now : ℤ)

/-- The record of a presence session in `recordBySession`: of two records, the last. -/
def recordOf (id : ℕ) : Option BreakRecordRow :=
  d.breakRecords.reverse.find? fun r => r.presenceSessionId = some id

/-- The row of a presence session. -/
def presenceRow (p : PresenceRow) : AwayRow where
  kind := match p.type with
    | .brk => .brk
    | .lunch => .lunch
    | .meeting => .meeting
  label := match p.type with
    | .meeting => match p.note.filter (· ≠ "") with
      | some note => s!"Meeting: {note}"
      | none => "Meeting"
    | type => match (d.recordOf p.id).bind BreakRecordRow.kind with
      | some kind => RECORD_LABEL kind
      | none => if type = .lunch then "Lunch" else "Break"
  span := p.toStretch.span now

/-- The row of a past meeting. -/
def meetingRow (m : MeetingRecordRow) : AwayRow where
  kind := .meeting
  label := s!"Meeting: {m.agenda}"
  span := m.toStretch.span now

/-- The rows of the two loops over presence sessions and past meetings. -/
def awayRows : List AwayRow :=
  d.presence.map (d.presenceRow now) ++
    (d.meetingRecords.filter fun m => m.mode = .past).map (meetingRow now)

/-- `work`: the merged sessions. -/
def work : List Interval := normalize (d.sessions.map (Stretch.span now))

/-- The pieces of a row inside the sessions. -/
def pieces (r : AwayRow) : List Interval := intersect [r.span] (d.work now)

end PersonDayData

/-- The loop over `work[i - 1].end` and `work[i].start`. -/
def gapsOf : List Interval → List Interval
  | [] => []
  | [_] => []
  | i :: j :: rest => ⟨i.stop, j.start⟩ :: gapsOf (j :: rest)

/-- The comparison of the last sort. -/
def segmentLe (a b : TimelineSegment) : Prop :=
  a.startedAt < b.startedAt ∨ a.startedAt = b.startedAt ∧ a.kind.rank ≤ b.kind.rank

instance : DecidableRel segmentLe := fun a b => inferInstanceAs
  (Decidable (a.startedAt < b.startedAt ∨ a.startedAt = b.startedAt ∧ a.kind.rank ≤ b.kind.rank))

/-- `out` before it is sorted. -/
def timelineSegments (d : PersonDayData) (now : ℤ) : List TimelineSegment :=
  let rows := d.awayRows now
  (rows.flatMap fun r => (d.pieces now r).map (segment r.kind r.label)) ++
    (subtract (d.work now) (rows.flatMap (d.pieces now))).map (segment .work "Working") ++
    (gapsOf (d.work now)).map (segment .off "Off")

/-- `buildTimeline`. -/
def buildTimeline (d : PersonDayData) (now : ℤ) : List TimelineSegment :=
  (timelineSegments d now).insertionSort segmentLe

/-! ## The gaps between sessions -/

/-- The instants of the gaps are those between two sessions that lie in none. -/
theorem mem_points_gapsOf {l : List Interval} (hl : Separated l) {t : ℤ} :
    t ∈ points (gapsOf l) ↔ t ∉ points l ∧ (∃ a ∈ points l, a < t) ∧ ∃ b ∈ points l, t < b := by
  induction l with
  | nil => simp [gapsOf]
  | cons i l ih =>
    have hi : i.start < i.stop := hl.proper i (.head _)
    cases l with
    | nil =>
      rw [gapsOf]
      simp only [points_nil, Finset.notMem_empty, mem_points_cons, or_false, false_iff]
      rintro ⟨hnot, ⟨a, ha, hat⟩, b, hb, htb⟩
      omega
    | cons j l =>
      have hj : j.start < j.stop := hl.proper j (.tail _ (.head _))
      have hij : i.stop < j.start := List.rel_of_pairwise_cons hl.apart (.head _)
      have hjmem : j.start ∈ points (j :: l) := mem_points.2 ⟨j, .head _, le_rfl, hj⟩
      have hfirst : ∀ b ∈ points (j :: l), j.start ≤ b := fun b hb =>
        Cover.lo_le_of_mem_cover hl.tail.apart hj.le hb
      rw [gapsOf, mem_points_cons, ih hl.tail, mem_points_cons (i := i), not_or]
      dsimp only
      constructor
      · rintro (⟨h1, h2⟩ | ⟨hnot, ⟨a, ha, hat⟩, b, hb, htb⟩)
        · have hnot : t ∉ points (j :: l) := fun ht => by
            have := hfirst t ht
            omega
          have histart : i.start ∈ points (i :: j :: l) := mem_points.2 ⟨i, .head _, le_rfl, hi⟩
          exact ⟨⟨by omega, hnot⟩, ⟨i.start, histart, by omega⟩, j.start,
            mem_points_cons.2 (.inr hjmem), h2⟩
        · have := hfirst a ha
          exact ⟨⟨by omega, hnot⟩, ⟨a, mem_points_cons.2 (.inr ha), hat⟩, b,
            mem_points_cons.2 (.inr hb), htb⟩
      · rintro ⟨⟨hnot, hrest⟩, ⟨a, ha, hat⟩, b, hb, htb⟩
        rw [mem_points_cons] at ha hb
        by_cases hgap : t < j.start
        · -- an instant before `j` with one of the list before it comes after `i`
          have hai : a ∉ points (j :: l) := fun ha' => by
            have := hfirst a ha'
            omega
          have hain := ha.resolve_right hai
          exact .inl ⟨by omega, hgap⟩
        · have hne : t ≠ j.start := fun ht => hrest (ht ▸ hjmem)
          exact .inr ⟨hrest, ⟨j.start, hjmem, by omega⟩, b, hb.resolve_left (by omega), htb⟩

/-- The gaps are non-empty and separated, as the sessions are. By induction on the sessions. -/
theorem gapsOf_separated {l : List Interval} (hl : Separated l) : Separated (gapsOf l) := by
  induction l with
  | nil => exact .nil
  | cons i l ih =>
    cases l with
    | nil => exact .nil
    | cons j l =>
      have hj : j.start < j.stop := hl.proper j (.tail _ (.head _))
      have hij : i.stop < j.start := List.rel_of_pairwise_cons hl.apart (.head _)
      refine .cons hij (ih hl.tail) fun t ht => ?_
      obtain ⟨-, ⟨a, ha, hat⟩, -⟩ := (mem_points_gapsOf hl.tail).1 ht
      exact (Cover.lo_le_of_mem_cover hl.tail.apart hj.le ha).trans_lt hat

/-! ## The segments as sets of instants -/

instance : Std.Total segmentLe := ⟨fun a b => by unfold segmentLe; omega⟩

instance : IsTrans TimelineSegment segmentLe := ⟨fun a b c => by unfold segmentLe; omega⟩

/-- The instants of a list of segments. -/
def segmentPoints (l : List TimelineSegment) : Finset ℤ :=
  Cover.cover TimelineSegment.startedAt TimelineSegment.endedAt l

/-- The instants of a timeline are those of its segments. -/
@[simp] theorem mem_segmentPoints {l : List TimelineSegment} {t : ℤ} :
    t ∈ segmentPoints l ↔ ∃ s ∈ l, s.startedAt ≤ t ∧ t < s.endedAt := Cover.mem_cover

section Timeline

variable {d : PersonDayData} {now : ℤ}

/-- The presence sessions and past meetings share no instant. -/
def PersonDayData.AwayDisjoint (d : PersonDayData) (now : ℤ) : Prop :=
  (d.awayRows now).Pairwise fun a b => Disjoint (points [a.span]) (points [b.span])

/-- The work spans of a day lie apart. -/
theorem work_separated : Separated (d.work now) := normalize_separated _

/-- They cover the sessions. -/
theorem points_work : points (d.work now) = points (d.sessions.map (Stretch.span now)) :=
  points_normalize _

/-- The pieces of a row are what of it lies in the work spans. -/
@[simp] theorem points_pieces (r : AwayRow) :
    points (d.pieces now r) = points [r.span] ∩ points (d.work now) := points_intersect _ _

/-- They lie apart. -/
theorem pieces_separated (r : AwayRow) : Separated (d.pieces now r) := intersect_separated _ _

/-- No presence session or past meeting is called work or off. -/
theorem awayRows_kind {r : AwayRow} (hr : r ∈ d.awayRows now) : r.kind ≠ .work ∧ r.kind ≠ .off := by
  rcases List.mem_append.1 hr with hr | hr
  · obtain ⟨p, -, rfl⟩ := List.mem_map.1 hr
    simp only [PersonDayData.presenceRow]
    cases p.type <;> simp
  · obtain ⟨m, -, rfl⟩ := List.mem_map.1 hr
    simp [PersonDayData.meetingRow]

/-- A segment of the timeline is a piece of a row, a piece of the work around them, or a gap
between the sessions. -/
theorem mem_buildTimeline {s : TimelineSegment} :
    s ∈ buildTimeline d now ↔
      (∃ r ∈ d.awayRows now, ∃ i ∈ d.pieces now r, s = segment r.kind r.label i) ∨
      (∃ i ∈ subtract (d.work now) ((d.awayRows now).flatMap (d.pieces now)),
        s = segment .work "Working" i) ∨
      ∃ i ∈ gapsOf (d.work now), s = segment .off "Off" i := by
  rw [buildTimeline, List.mem_insertionSort, timelineSegments]
  simp only [List.mem_append, List.mem_flatMap, List.mem_map, or_assoc, eq_comm (a := s)]

/-- No segment is empty. -/
theorem buildTimeline_proper {s : TimelineSegment} (hs : s ∈ buildTimeline d now) :
    s.startedAt < s.endedAt := by
  rcases mem_buildTimeline.1 hs with ⟨r, -, i, hi, rfl⟩ | ⟨i, hi, rfl⟩ | ⟨i, hi, rfl⟩
  · exact (pieces_separated r).proper i hi
  · exact (subtract_separated _ _).proper i hi
  · exact (gapsOf_separated work_separated).proper i hi

/-- The instants of the pieces of all rows are those of the pieces of one of them. -/
theorem mem_points_away {t : ℤ} :
    t ∈ points ((d.awayRows now).flatMap (d.pieces now)) ↔
      ∃ r ∈ d.awayRows now, t ∈ points (d.pieces now r) := by
  simp only [mem_points, List.mem_flatMap]
  constructor
  · rintro ⟨i, ⟨r, hr, hi⟩, ht⟩
    exact ⟨r, hr, i, hi, ht⟩
  · rintro ⟨r, hr, i, hi, ht⟩
    exact ⟨i, ⟨r, hr, hi⟩, ht⟩

/-- The segments in the sessions fill the sessions: what is in no row's piece is shown as work. -/
theorem segmentPoints_inside :
    segmentPoints ((buildTimeline d now).filter fun s => s.kind ≠ .off) = points (d.work now) := by
  ext t
  simp only [mem_segmentPoints, List.mem_filter, decide_eq_true_eq]
  constructor
  · rintro ⟨s, ⟨hs, hkind⟩, ht⟩
    rcases mem_buildTimeline.1 hs with ⟨r, -, i, hi, rfl⟩ | ⟨i, hi, rfl⟩ | ⟨i, -, rfl⟩
    · have hmem : t ∈ points (d.pieces now r) := mem_points.2 ⟨i, hi, ht⟩
      rw [points_pieces, Finset.mem_inter] at hmem
      exact hmem.2
    · have hmem : t ∈ points (subtract (d.work now) ((d.awayRows now).flatMap (d.pieces now))) :=
        mem_points.2 ⟨i, hi, ht⟩
      rw [points_subtract, Finset.mem_sdiff] at hmem
      exact hmem.1
    · exact absurd rfl hkind
  · intro ht
    by_cases haway : t ∈ points ((d.awayRows now).flatMap (d.pieces now))
    · obtain ⟨r, hr, hmem⟩ := mem_points_away.1 haway
      obtain ⟨i, hi, hti⟩ := mem_points.1 hmem
      exact ⟨_, ⟨mem_buildTimeline.2 (.inl ⟨r, hr, i, hi, rfl⟩), (awayRows_kind hr).2⟩, hti⟩
    · have hmem : t ∈ points (subtract (d.work now) ((d.awayRows now).flatMap (d.pieces now))) := by
        rw [points_subtract, Finset.mem_sdiff]
        exact ⟨ht, haway⟩
      obtain ⟨i, hi, hti⟩ := mem_points.1 hmem
      exact ⟨_, ⟨mem_buildTimeline.2 (.inr (.inl ⟨i, hi, rfl⟩)), by simp [segment]⟩, hti⟩

/-- The segments called off are the gaps between the sessions, and nothing else. -/
theorem mem_off {s : TimelineSegment} :
    s ∈ (buildTimeline d now).filter (fun s => s.kind = .off) ↔
      ∃ i ∈ gapsOf (d.work now), s = segment .off "Off" i := by
  simp only [List.mem_filter, decide_eq_true_eq]
  constructor
  · rintro ⟨hs, hkind⟩
    rcases mem_buildTimeline.1 hs with ⟨r, hr, i, -, rfl⟩ | ⟨i, -, rfl⟩ | h
    · exact absurd hkind (awayRows_kind hr).2
    · cases hkind
    · exact h
  · rintro ⟨i, hi, rfl⟩
    exact ⟨mem_buildTimeline.2 (.inr (.inr ⟨i, hi, rfl⟩)), rfl⟩

/-- The segments that are off cover the gaps between the sessions. -/
theorem segmentPoints_off :
    segmentPoints ((buildTimeline d now).filter fun s => s.kind = .off) =
    points (gapsOf (d.work now)) := by
  ext t
  simp only [mem_segmentPoints, mem_off, mem_points]
  constructor
  · rintro ⟨s, ⟨i, hi, rfl⟩, ht⟩
    exact ⟨i, hi, ht⟩
  · rintro ⟨i, hi, ht⟩
    exact ⟨_, ⟨i, hi, rfl⟩, ht⟩

/-- The segments reach from the first session to the last without a gap. -/
theorem mem_segmentPoints_buildTimeline {t : ℤ} :
    t ∈ segmentPoints (buildTimeline d now) ↔
      (∃ a ∈ points (d.work now), a ≤ t) ∧ ∃ b ∈ points (d.work now), t ≤ b := by
  have hsplit : t ∈ segmentPoints (buildTimeline d now) ↔
      t ∈ points (d.work now) ∨ t ∈ points (gapsOf (d.work now)) := by
    rw [← segmentPoints_inside, ← segmentPoints_off]
    simp only [mem_segmentPoints, List.mem_filter, decide_eq_true_eq]
    grind
  rw [hsplit, mem_points_gapsOf work_separated]
  constructor
  · rintro (ht | ⟨-, ⟨a, ha, hat⟩, b, hb, htb⟩)
    · exact ⟨⟨t, ht, le_rfl⟩, t, ht, le_rfl⟩
    · exact ⟨⟨a, ha, hat.le⟩, b, hb, htb.le⟩
  · rintro ⟨⟨a, ha, hat⟩, b, hb, htb⟩
    by_cases ht : t ∈ points (d.work now)
    · exact .inl ht
    · refine .inr ⟨ht, ⟨a, ha, lt_of_le_of_ne hat ?_⟩, b, hb, lt_of_le_of_ne htb ?_⟩
      · exact fun h => ht (h ▸ ha)
      · exact fun h => ht (h ▸ hb)

/-! ## The order of the segments -/

/-- A timeline is in the order of its starts. -/
theorem buildTimeline_sorted :
    (buildTimeline d now).Pairwise fun a b => a.startedAt ≤ b.startedAt := by
  refine (List.pairwise_insertionSort segmentLe _).imp fun {a b} h => ?_
  unfold segmentLe at h
  omega

/-- The instants of one segment. -/
def TimelineSegment.instants (s : TimelineSegment) : Finset ℤ := segmentPoints [s]

/-- A segment made of an interval of a list lies in the list. -/
theorem instants_segment_subset {kind : SegmentKind} {label : String} {i : Interval}
    {l : List Interval} (hi : i ∈ l) : (segment kind label i).instants ⊆ points l := by
  intro t ht
  obtain ⟨s, hs, hts⟩ := mem_segmentPoints.1 ht
  obtain rfl := List.mem_singleton.1 hs
  exact mem_points.2 ⟨i, hi, hts⟩

/-- The intervals of a separated list make segments that share no instant. -/
theorem Separated.disjoint_segments {l : List Interval} (hl : Separated l) (kind : SegmentKind)
    (label : String) :
    (l.map (segment kind label)).Pairwise fun a b => Disjoint a.instants b.instants := by
  refine List.pairwise_map.2 (hl.apart.imp fun {i j} hij => ?_)
  rw [Finset.disjoint_left]
  intro t hti htj
  simp only [TimelineSegment.instants, mem_segmentPoints, List.mem_singleton, exists_eq_left,
    segment] at hti htj
  omega

/-- Two segments share no instant when the presence sessions and past meetings do not, and in any
case when one of the two is work. -/
theorem buildTimeline_disjoint :
    (buildTimeline d now).Pairwise fun a b =>
      d.AwayDisjoint now ∨ a.kind = .work ∨ b.kind = .work → Disjoint a.instants b.instants := by
  refine (List.perm_insertionSort segmentLe _).symm.pairwise (l := timelineSegments d now) ?_
    fun {a b} h hab => (h (hab.imp_right Or.symm)).symm
  have hgaps : Disjoint (points (d.work now)) (points (gapsOf (d.work now))) :=
    Finset.disjoint_left.2 fun t ht hgap => ((mem_points_gapsOf work_separated).1 hgap).1 ht
  have hwork : points (subtract (d.work now) ((d.awayRows now).flatMap (d.pieces now))) ⊆
      points (d.work now) := by
    rw [points_subtract]
    exact Finset.sdiff_subset
  have hrow : ∀ r, points (d.pieces now r) ⊆ points (d.work now) := fun r => by
    rw [points_pieces]
    exact Finset.inter_subset_right
  refine List.pairwise_append.2 ⟨List.pairwise_append.2 ⟨?_, ?_, ?_⟩, ?_, ?_⟩
  · refine List.pairwise_flatMap.2 ⟨fun r _ => ?_, ?_⟩
    · refine List.Pairwise.imp ?_ ((pieces_separated r).disjoint_segments r.kind r.label)
      exact fun h _ => h
    · refine List.pairwise_iff_forall_sublist.2 fun {r r'} hsub a ha b hb hab => ?_
      obtain ⟨i, hi, rfl⟩ := List.mem_map.1 ha
      obtain ⟨j, hj, rfl⟩ := List.mem_map.1 hb
      rcases hab with hd | hk | hk
      · have hspans := List.pairwise_iff_forall_sublist.1 hd hsub
        have hspan : ∀ r, points (d.pieces now r) ⊆ points [r.span] := fun r => by
          rw [points_pieces]
          exact Finset.inter_subset_left
        exact hspans.mono ((instants_segment_subset hi).trans (hspan r))
          ((instants_segment_subset hj).trans (hspan r'))
      · exact absurd hk (awayRows_kind (hsub.subset (.head _))).1
      · exact absurd hk (awayRows_kind (hsub.subset (.tail _ (.head _)))).1
  · refine List.Pairwise.imp ?_ ((subtract_separated _ _).disjoint_segments .work "Working")
    exact fun h _ => h
  · intro a ha b hb _
    obtain ⟨r, hr, ha⟩ := List.mem_flatMap.1 ha
    obtain ⟨i, hi, rfl⟩ := List.mem_map.1 ha
    obtain ⟨j, hj, rfl⟩ := List.mem_map.1 hb
    have hout : (segment .work "Working" j).instants ⊆ _ := instants_segment_subset hj
    rw [points_subtract] at hout
    refine Finset.disjoint_left.2 fun t hti htj => (Finset.mem_sdiff.1 (hout htj)).2 ?_
    exact mem_points_away.2 ⟨r, hr, instants_segment_subset hi hti⟩
  · refine List.Pairwise.imp ?_ ((gapsOf_separated work_separated).disjoint_segments .off "Off")
    exact fun h _ => h
  · intro a ha b hb _
    obtain ⟨j, hj, rfl⟩ := List.mem_map.1 hb
    refine hgaps.mono ?_ (instants_segment_subset hj)
    rcases List.mem_append.1 ha with ha | ha
    · obtain ⟨r, hr, ha⟩ := List.mem_flatMap.1 ha
      obtain ⟨i, hi, rfl⟩ := List.mem_map.1 ha
      exact (instants_segment_subset hi).trans (hrow r)
    · obtain ⟨i, hi, rfl⟩ := List.mem_map.1 ha
      exact (instants_segment_subset hi).trans hwork

/-- Each segment called off ends before the next one starts, as the sessions between them do. -/
theorem off_apart : Cover.Apart TimelineSegment.startedAt TimelineSegment.endedAt
    ((buildTimeline d now).filter fun s => s.kind = .off) := by
  have hgaps : (gapsOf (d.work now)).map (segment .off "Off") =
      (timelineSegments d now).filter fun s => s.kind = .off := by
    rw [timelineSegments, List.filter_append, List.filter_append, List.filter_eq_nil_iff.2,
      List.filter_eq_nil_iff.2, List.filter_eq_self.2, List.nil_append, List.nil_append]
    · simp [segment]
    · simp [segment]
    · intro s hs
      obtain ⟨r, hr, hs⟩ := List.mem_flatMap.1 hs
      obtain ⟨i, -, rfl⟩ := List.mem_map.1 hs
      rw [decide_eq_true_eq]
      exact (awayRows_kind hr).2
  have hperm : ((gapsOf (d.work now)).map (segment .off "Off")).Perm
      ((buildTimeline d now).filter fun s => s.kind = .off) := by
    rw [hgaps]
    exact ((List.perm_insertionSort segmentLe _).filter _).symm
  -- either of two gaps ends before the other starts, and the sort tells which
  have hapart : ((buildTimeline d now).filter fun s => s.kind = .off).Pairwise fun a b =>
      a.endedAt < b.startedAt ∨ b.endedAt < a.startedAt := by
    refine hperm.pairwise ?_ Or.symm
    exact List.pairwise_map.2 ((gapsOf_separated work_separated).apart.imp Or.inl)
  refine (hapart.and (buildTimeline_sorted.filter _)).imp_of_mem fun {a b} _ hb h => ?_
  have hproper := buildTimeline_proper (List.mem_filter.1 hb).1
  omega

/-- The timeline of a day, whatever its sessions, breaks and meetings: no segment is empty, those in
the sessions fill the sessions, work shares no instant with another segment, and what is off is the
gaps; when breaks and meetings share no instant, every segment ends where the next one starts. -/
theorem timeline_agrees (d : PersonDayData) (now : ℤ) :
    let timeline := buildTimeline d now
    let sessions := points (d.sessions.map (Stretch.span now))
    let off := timeline.filter fun s => s.kind = .off
    (∀ s ∈ timeline, s.startedAt < s.endedAt) ∧
      segmentPoints (timeline.filter fun s => s.kind ≠ .off) = sessions ∧
      (timeline.Pairwise fun a b => a.kind = .work ∨ b.kind = .work →
        Disjoint a.instants b.instants) ∧
      Cover.Apart TimelineSegment.startedAt TimelineSegment.endedAt off ∧
      (∀ t, t ∈ segmentPoints off ↔ t ∉ sessions ∧ (∃ a ∈ sessions, a < t) ∧
        ∃ b ∈ sessions, t < b) ∧
      (d.AwayDisjoint now → timeline.IsChain fun a b => a.endedAt = b.startedAt) := by
  intro timeline sessions off
  have hproper : ∀ s ∈ timeline, s.startedAt < s.endedAt := fun s => buildTimeline_proper
  have hoff : ∀ t, t ∈ segmentPoints off ↔
      t ∉ sessions ∧ (∃ a ∈ sessions, a < t) ∧ ∃ b ∈ sessions, t < b := by
    intro t
    rw [segmentPoints_off, mem_points_gapsOf work_separated, points_work]
  refine ⟨hproper, ?_, buildTimeline_disjoint.imp fun h hab => h (.inr hab), ?_, hoff, fun hd => ?_⟩
  · rw [segmentPoints_inside, points_work]
  · exact off_apart
  · have hconvex : Cover.Convex TimelineSegment.startedAt TimelineSegment.endedAt timeline := by
      intro x hx z hz y hxy hyz
      obtain ⟨⟨a, ha, hax⟩, -⟩ := mem_segmentPoints_buildTimeline.1 hx
      obtain ⟨-, b, hb, hzb⟩ := mem_segmentPoints_buildTimeline.1 hz
      exact mem_segmentPoints_buildTimeline.2 ⟨⟨a, ha, hax.trans hxy⟩, b, hb, hyz.trans hzb⟩
    exact hconvex.isChain buildTimeline_sorted hproper
      (buildTimeline_disjoint.imp fun h => h (.inl hd))

end Timeline

end RxVision
