import RxVision.Lib.Table
import RxVision.Shifts.BreakDay

/-!
# Assigning a shift (`prisma-shift.repository.ts`, `shift-resolution.ts`)

`applyAssignments` removes the rows of the same target that lie inside the new row's days, starts
the ones that run past them on the day after, and adds the new row. Rows that start earlier stay as
they are: the new row hides them, because `resolveShift` takes the row that starts last.

Moving the start of a row changes where it stands in that order. What keeps the picks the same is
`Timeline.later`: of two rows of one target that are in force on a common day, the one that starts
later was created later. Every call keeps it (`Timeline.applyRow`), so the table is a function of
the days that each call changes on the days of its row only (`assignment_pointUpdate`).
-/

namespace RxVision

/-! ## The rows and the calls -/

/-- A row of `shift_assignments`. -/
structure AssignmentRow extends ShiftAssignmentRecord where
  id : ℕ
  deriving DecidableEq, Repr

/-- The stored assignments. -/
abbrev AssignmentTable : Type := Table AssignmentRow.id

/-- The assignments as they are read. -/
def AssignmentTable.records (t : AssignmentTable) : List ShiftAssignmentRecord :=
  t.rows.map AssignmentRow.toShiftAssignmentRecord

/-- `NewAssignment`. -/
structure NewAssignment where
  target : AssignmentTarget
  companyId : Option ℕ
  shiftId : Option ℕ
  effectiveFrom : DateKey
  effectiveTo : Option DateKey
  deriving DecidableEq, Repr

namespace NewAssignment

variable (row : NewAssignment) (now : ℤ)

/-- The row as `create` stores it. -/
def record : ShiftAssignmentRecord where
  target := row.target
  companyId := row.companyId
  shiftId := row.shiftId
  effectiveFrom := row.effectiveFrom
  effectiveTo := row.effectiveTo
  createdAt := now

/-- `sameTarget`. -/
def sameTarget (o : ShiftAssignmentRecord) : Bool :=
  match row.target with
  | .user userId => o.target = .user userId
  | .department key => o.target = .department key && o.companyId = row.companyId

/-- The rows `applyAssignments` calls overlapping: they start on a day of the new row. -/
def overlapping (o : ShiftAssignmentRecord) : Bool :=
  row.sameTarget o && row.effectiveFrom.day ≤ o.effectiveFrom.day &&
    row.effectiveTo.all fun last => o.effectiveFrom.day ≤ last.day

/-- `endsInside`. -/
def endsInside (o : ShiftAssignmentRecord) : Bool :=
  match row.effectiveTo, o.effectiveTo with
  | some last, some oLast => oLast.day ≤ last.day
  | _, _ => false

/-- An overlapping row that is removed. -/
def removes (o : ShiftAssignmentRecord) : Bool := row.effectiveTo.isNone || row.endsInside o

/-- An overlapping row that runs past the new one: the part after it. -/
def partAfter (o : ShiftAssignmentRecord) : ShiftAssignmentRecord :=
  { o with effectiveFrom := row.effectiveTo.elim o.effectiveFrom fun last => addDaysToKey last 1 }

/-- The stored row with the part after. -/
def rowAfter (o : AssignmentRow) : AssignmentRow := ⟨row.partAfter o.toShiftAssignmentRecord, o.id⟩

/-- The created row. -/
def newRow (id : ℕ) : AssignmentRow := ⟨row.record now, id⟩

/-- What is left of a row after the new one keeps its id. -/
theorem rowAfter_id (o : AssignmentRow) : (row.rowAfter o).id = o.id := rfl

/-- The new row has the id it is given. -/
theorem newRow_id (id : ℕ) : (row.newRow now id).id = id := rfl

end NewAssignment

/-- One round of `applyAssignments`. -/
def applyRow (t : AssignmentTable) (row : NewAssignment) (now : ℤ) : AssignmentTable :=
  let remove := (t.rows.filter fun o => row.overlapping o.toShiftAssignmentRecord &&
    row.removes o.toShiftAssignmentRecord).map AssignmentRow.id
  let kept := t.updateMany (fun o => row.overlapping o.toShiftAssignmentRecord &&
    !row.removes o.toShiftAssignmentRecord) row.rowAfter row.rowAfter_id
  (kept.deleteMany fun o => o.id ∈ remove).create (row.newRow now) (row.newRow_id now)

/-- `applyAssignments`: each new row with the time it is created at. -/
def applyAssignments (t : AssignmentTable) (rows : List (NewAssignment × ℤ)) : AssignmentTable :=
  rows.foldl (fun t row => applyRow t row.1 row.2) t

/-! ## The pick of a target -/

/-- Whose shift a row is about: a person, or a department of a company. -/
def AssignmentTarget.scope (target : AssignmentTarget) (companyId : Option ℕ) :
    AssignmentTarget × Option ℕ :=
  match target with
  | .user _ => (target, none)
  | .department _ => (target, companyId)

/-- Whose shift a stored row is about. -/
def ShiftAssignmentRecord.scope (a : ShiftAssignmentRecord) : AssignmentTarget × Option ℕ :=
  a.target.scope a.companyId

/-- Whose shift a new row is about. -/
def NewAssignment.scope (row : NewAssignment) : AssignmentTarget × Option ℕ :=
  row.target.scope row.companyId

/-- The newest row of a target in force on a day. -/
def picked (scope : AssignmentTarget × Option ℕ) (dateKey : DateKey)
    (assignments : List ShiftAssignmentRecord) : Option ShiftAssignmentRecord :=
  ((assignments.filter fun a => a.scope = scope && inForce a dateKey).mergeSort newest).head?

/-- Rows for the same target are those of its scope. -/
theorem NewAssignment.sameTarget_iff {row : NewAssignment} {o : ShiftAssignmentRecord} :
    row.sameTarget o ↔ o.scope = row.scope := by
  unfold sameTarget ShiftAssignmentRecord.scope scope AssignmentTarget.scope
  cases o.target <;> cases row.target <;> simp

/-- A row is in force from its first day to its last. -/
theorem inForce_iff {a : ShiftAssignmentRecord} {d : DateKey} : inForce a d ↔
    a.effectiveFrom.day ≤ d.day ∧ ∀ last, a.effectiveTo = some last → d.day ≤ last.day := by
  unfold inForce
  cases a.effectiveTo <;> simp

/-- The newest row is the one that starts last, and of those that start together the one
that was made last. -/
theorem newest_iff {a b : ShiftAssignmentRecord} : newest a b ↔
    b.effectiveFrom.day < a.effectiveFrom.day ∨
      b.effectiveFrom.day = a.effectiveFrom.day ∧ b.createdAt ≤ a.createdAt := by
  unfold newest
  have hday : a.effectiveFrom = b.effectiveFrom ↔ b.effectiveFrom.day = a.effectiveFrom.day := by
    cases a.effectiveFrom
    cases b.effectiveFrom
    simp only [DateKey.mk.injEq]
    omega
  split
  · next h => rw [Ne, hday] at h; simp [h]
  · next h => rw [Ne, hday, not_not] at h; simp [h]

/-- The head of a sorted list is an element before every other, which determines it when the order
is antisymmetric on the list. -/
theorem head_mergeSort {α : Type*} {le : α → α → Bool} (htrans : ∀ a b c, le a b → le b c → le a c)
    (htotal : ∀ a b, le a b || le b a) {l : List α}
    (hanti : ∀ a ∈ l, ∀ b ∈ l, le a b → le b a → a = b) {m : α} :
    (l.mergeSort le).head? = some m ↔ m ∈ l ∧ ∀ x ∈ l, le m x := by
  have hsorted := List.pairwise_mergeSort htrans htotal l
  have hmem : ∀ x, x ∈ l.mergeSort le ↔ x ∈ l := fun x => List.mem_mergeSort
  cases he : l.mergeSort le with
  | nil =>
    rw [he] at hmem
    simp only [List.head?_nil, reduceCtorEq, false_iff]
    exact fun hm => absurd ((hmem m).2 hm.1) List.not_mem_nil
  | cons h rest =>
    rw [he] at hsorted hmem
    have hrefl : le h h := by simpa using htotal h h
    have hbest : ∀ x ∈ l, le h x := by
      intro x hx
      rcases List.mem_cons.1 ((hmem x).2 hx) with rfl | hrest
      · exact hrefl
      · exact List.rel_of_pairwise_cons hsorted hrest
    have hh : h ∈ l := (hmem h).1 (.head _)
    rw [List.head?_cons, Option.some_inj]
    constructor
    · rintro rfl
      exact ⟨hh, hbest⟩
    · rintro ⟨hm, hbest'⟩
      exact hanti h hh m hm (hbest m hm) (hbest' h hh)

/-- Being newer is transitive. -/
theorem newest_trans (a b c : ShiftAssignmentRecord) (hab : newest a b) (hbc : newest b c) :
    newest a c := by
  rw [newest_iff] at *
  omega

/-- Of two rows one is the newer. -/
theorem newest_total (a b : ShiftAssignmentRecord) : newest a b || newest b a := by
  rw [Bool.or_eq_true, newest_iff, newest_iff]
  omega

/-! ## The order of starts and creations -/

/-- What every call keeps of the stored assignments. -/
structure Timeline (assignments : List ShiftAssignmentRecord) (clock : ℤ) : Prop where
  created_le : ∀ a ∈ assignments, a.createdAt ≤ clock
  distinct : ∀ a ∈ assignments, ∀ b ∈ assignments, a.createdAt = b.createdAt → a = b
  ordered : ∀ a ∈ assignments, ∀ last, a.effectiveTo = some last →
    a.effectiveFrom.day ≤ last.day
  later : ∀ a ∈ assignments, ∀ b ∈ assignments, a.scope = b.scope →
    ∀ d, inForce a d → inForce b d → a.effectiveFrom.day < b.effectiveFrom.day →
      a.createdAt < b.createdAt

/-- The new row's days are in order. -/
def NewAssignment.Ordered (row : NewAssignment) : Prop :=
  ∀ last, row.effectiveTo = some last → row.effectiveFrom.day ≤ last.day

/-- The new row's days. -/
def NewAssignment.covers (row : NewAssignment) (d : DateKey) : Prop :=
  row.effectiveFrom.day ≤ d.day ∧ ∀ last, row.effectiveTo = some last → d.day ≤ last.day

/-- The tables that calls make of the empty one, each row created after every row before it. -/
inductive Assigned : AssignmentTable → ℤ → Prop
  | empty (clock : ℤ) : Assigned .empty clock
  | call {t : AssignmentTable} {clock : ℤ} {rows : List (NewAssignment × ℤ)} (h : Assigned t clock)
      (hrows : ∀ row ∈ rows, row.1.Ordered)
      (htimes : (clock :: rows.map Prod.snd).Pairwise (· < ·)) :
      Assigned (applyAssignments t rows) ((rows.map Prod.snd).getLastD clock)

/-! ## One call's row -/

section ApplyRow

variable {t : AssignmentTable} {row : NewAssignment} {now : ℤ} {a b : ShiftAssignmentRecord}

/-- The records are those of the rows. -/
theorem mem_records : a ∈ t.records ↔ ∃ r ∈ t, r.toShiftAssignmentRecord = a := List.mem_map

/-- The stored assignments after one row: the ones that do not overlap it, what comes after it of
the ones that run past it, and the row. -/
theorem mem_records_applyRow : a ∈ (applyRow t row now).records ↔
    (a ∈ t.records ∧ ¬ row.overlapping a) ∨
      (∃ o ∈ t.records, row.overlapping o ∧ ¬ row.removes o ∧ a = row.partAfter o) ∨
      a = row.record now := by
  have hremove : ∀ r ∈ t, r.id ∈ (t.rows.filter fun o =>
      row.overlapping o.toShiftAssignmentRecord && row.removes o.toShiftAssignmentRecord).map
        AssignmentRow.id ↔
      row.overlapping r.toShiftAssignmentRecord ∧ row.removes r.toShiftAssignmentRecord := by
    intro r hr
    rw [List.mem_map]
    constructor
    · rintro ⟨o, ho, hid⟩
      obtain ⟨hot, hp⟩ := List.mem_filter.1 ho
      rw [← Table.eq_of_key hot hr hid]
      exact (Bool.and_eq_true _ _).mp hp
    · exact fun hp => ⟨r, List.mem_filter.2 ⟨hr, (Bool.and_eq_true _ _).mpr hp⟩, rfl⟩
  rw [mem_records]
  constructor
  · rintro ⟨r, hr, rfl⟩
    rw [applyRow, Table.mem_create, Table.mem_deleteMany, Table.mem_updateMany] at hr
    rcases hr with ⟨⟨hrt, hkeep⟩ | ⟨o, hot, hcut, rfl⟩, hdel⟩ | rfl
    · refine .inl ⟨mem_records.2 ⟨r, hrt, rfl⟩, fun hover => ?_⟩
      simp only [hover, Bool.true_and, Bool.not_eq_false'] at hkeep
      exact of_decide_eq_false hdel ((hremove r hrt).2 ⟨hover, hkeep⟩)
    · simp only [Bool.and_eq_true, Bool.not_eq_true'] at hcut
      exact .inr (.inl ⟨_, mem_records.2 ⟨o, hot, rfl⟩, hcut.1, by simp [hcut.2], rfl⟩)
    · exact .inr (.inr rfl)
  · have hin : ∀ r, r ∈ applyRow t row now ↔ _ := fun r => by
      rw [applyRow, Table.mem_create, Table.mem_deleteMany, Table.mem_updateMany]
    rintro (⟨ha, hover⟩ | ⟨o, ho, hover, hrem, rfl⟩ | rfl)
    · obtain ⟨r, hr, rfl⟩ := mem_records.1 ha
      refine ⟨r, (hin r).2 (.inl ⟨.inl ⟨hr, by simp [hover]⟩, ?_⟩), rfl⟩
      exact decide_eq_false fun hdel => hover ((hremove r hr).1 hdel).1
    · obtain ⟨r, hr, rfl⟩ := mem_records.1 ho
      refine ⟨row.rowAfter r, (hin _).2 (.inl ⟨.inr ⟨r, hr, by simp [hover, hrem], rfl⟩, ?_⟩), rfl⟩
      exact decide_eq_false fun hdel => hrem ((hremove r hr).1 hdel).2
    · exact ⟨row.newRow now t.next, (hin _).2 (.inr rfl), rfl⟩

/-- The rows that a new one replaces start in its range. -/
theorem NewAssignment.overlapping_iff : row.overlapping a ↔ a.scope = row.scope ∧
    row.effectiveFrom.day ≤ a.effectiveFrom.day ∧
      ∀ last, row.effectiveTo = some last → a.effectiveFrom.day ≤ last.day := by
  unfold NewAssignment.overlapping
  rw [Bool.and_eq_true, Bool.and_eq_true, row.sameTarget_iff, decide_eq_true_eq, and_assoc]
  cases row.effectiveTo <;> simp

/-- The row leaves an assignment whose days it does not reach, or the part of it after `last`. -/
inductive NewAssignment.Leaves (row : NewAssignment) (o : ShiftAssignmentRecord) :
    ShiftAssignmentRecord → Prop
  | whole (h : o.scope = row.scope → row.effectiveFrom.day ≤ o.effectiveFrom.day →
      ∃ last, row.effectiveTo = some last ∧ last.day < o.effectiveFrom.day) : Leaves row o o
  | after {last : DateKey} (hlast : row.effectiveTo = some last) (hscope : o.scope = row.scope)
      (hfrom : row.effectiveFrom.day ≤ o.effectiveFrom.day) (hle : o.effectiveFrom.day ≤ last.day)
      (hpast : ∀ oLast, o.effectiveTo = some oLast → last.day < oLast.day) :
      Leaves row o { o with effectiveFrom := addDaysToKey last 1 }

/-- The stored assignments after one row: what the row leaves of the ones before, and
the row itself. -/
theorem mem_applyRow : a ∈ (applyRow t row now).records ↔
    (∃ o ∈ t.records, row.Leaves o a) ∨ a = row.record now := by
  rw [mem_records_applyRow, ← or_assoc]
  refine or_congr_left ?_
  constructor
  · rintro (⟨ha, hover⟩ | ⟨o, ho, hover, hrem, rfl⟩)
    · refine ⟨a, ha, .whole fun hscope hfrom => ?_⟩
      rw [NewAssignment.overlapping_iff] at hover
      by_contra hno
      refine hover ⟨hscope, hfrom, fun last hlast => ?_⟩
      by_contra hlt
      exact hno ⟨last, hlast, not_le.1 hlt⟩
    · obtain ⟨hscope, hfrom, hle⟩ := NewAssignment.overlapping_iff.1 hover
      unfold NewAssignment.removes NewAssignment.endsInside at hrem
      cases hto : row.effectiveTo with
      | none => simp [hto] at hrem
      | some last =>
        have hpart : row.partAfter o = { o with effectiveFrom := addDaysToKey last 1 } := by
          rw [NewAssignment.partAfter, hto]
          rfl
        refine ⟨o, ho, hpart ▸ .after hto hscope hfrom (hle last hto) fun oLast hoLast => ?_⟩
        simp only [hto, hoLast, Option.isNone_some, Bool.false_or, decide_eq_true_eq] at hrem
        exact not_le.1 hrem
  · rintro ⟨o, ho, hleaves⟩
    cases hleaves with
    | whole h =>
      refine .inl ⟨ho, fun hover => ?_⟩
      obtain ⟨hscope, hfrom, hle⟩ := NewAssignment.overlapping_iff.1 hover
      obtain ⟨last, hlast, hlt⟩ := h hscope hfrom
      exact absurd (hle last hlast) (not_le.2 hlt)
    | @after last hlast hscope hfrom hle hpast =>
      refine .inr ⟨o, ho, NewAssignment.overlapping_iff.2 ⟨hscope, hfrom, fun l hl => ?_⟩, ?_, ?_⟩
      · rwa [← Option.some.inj (hlast.symm.trans hl)]
      · unfold NewAssignment.removes NewAssignment.endsInside
        rw [hlast]
        cases hto : o.effectiveTo with
        | none => simp
        | some oLast => simpa using hpast oLast hto
      · rw [NewAssignment.partAfter, hlast]
        rfl

namespace NewAssignment.Leaves

/-- Only the start changes. -/
theorem same (h : row.Leaves a b) : b.scope = a.scope ∧ b.createdAt = a.createdAt ∧
    b.effectiveTo = a.effectiveTo ∧ a.effectiveFrom.day ≤ b.effectiveFrom.day := by
  cases h with
  | whole => exact ⟨rfl, rfl, rfl, le_rfl⟩
  | after hlast hscope hfrom hle hpast =>
    refine ⟨rfl, rfl, rfl, ?_⟩
    simp only [addDaysToKey]
    omega

/-- The row leaves at most one thing of an assignment: the whole, the part before it or
the part after it. -/
theorem unique {c : ShiftAssignmentRecord} (hb : row.Leaves a b) (hc : row.Leaves a c) : b = c := by
  cases hb with
  | whole h =>
    cases hc with
    | whole => rfl
    | after hlast hscope hfrom hle hpast =>
      obtain ⟨last, hlast', hlt⟩ := h hscope hfrom
      rw [Option.some.inj (hlast'.symm.trans hlast)] at hlt
      omega
  | after hlast hscope hfrom hle hpast =>
    cases hc with
    | whole h =>
      obtain ⟨last, hlast', hlt⟩ := h hscope hfrom
      rw [Option.some.inj (hlast'.symm.trans hlast)] at hlt
      omega
    | after hlast' =>
      rw [Option.some.inj (hlast.symm.trans hlast')]

/-- What is left is in force on the days the assignment was. -/
theorem inForce {d : DateKey} (h : row.Leaves a b) (hb : RxVision.inForce b d) :
    RxVision.inForce a d := by
  obtain ⟨-, -, hto, hfrom⟩ := h.same
  rw [inForce_iff] at hb ⊢
  exact ⟨hfrom.trans hb.1, hto ▸ hb.2⟩

/-- What is left keeps the order of the starts, on the row's own target. -/
theorem lt_of_lt {a' b' : ShiftAssignmentRecord} (ha : row.Leaves a a') (hb : row.Leaves b b')
    (hscope : a.scope = b.scope) (h : a'.effectiveFrom.day < b'.effectiveFrom.day) :
    a.effectiveFrom.day < b.effectiveFrom.day := by
  cases ha with
  | whole hwhole =>
    cases hb with
    | whole => exact h
    | @after last hlast hscope' hfrom hle hpast =>
      by_contra hge
      obtain ⟨last', hlast', hlt⟩ := hwhole (hscope.trans hscope') (by omega)
      rw [Option.some.inj (hlast'.symm.trans hlast)] at hlt
      simp only [addDaysToKey] at h
      omega
  | @after last hlast hscope' hfrom hle hpast =>
    cases hb with
    | whole =>
      simp only [addDaysToKey] at h
      omega
    | after hlast' =>
      rw [Option.some.inj (hlast.symm.trans hlast')] at h
      exact absurd h (lt_irrefl _)

end NewAssignment.Leaves

/-- A row created after every row before it keeps the timeline: assignments of one target overlap
only where the later one decides. -/
theorem Timeline.applyRow {clock : ℤ} (h : Timeline t.records clock) (hrow : row.Ordered)
    (hnow : clock < now) : Timeline (applyRow t row now).records now where
  created_le := by
    intro a ha
    rcases mem_applyRow.1 ha with ⟨o, ho, hleaves⟩ | rfl
    · have := h.created_le o ho
      have := hleaves.same.2.1
      omega
    · exact le_rfl
  distinct := by
    intro a ha b hb hab
    rcases mem_applyRow.1 ha with ⟨o, ho, hla⟩ | rfl
    · have hoa := h.created_le o ho
      rcases mem_applyRow.1 hb with ⟨o', ho', hlb⟩ | rfl
      · have ho'' := h.distinct o ho o' ho' (by rw [← hla.same.2.1, ← hlb.same.2.1, hab])
        subst ho''
        exact hla.unique hlb
      · rw [hla.same.2.1] at hab
        exact absurd hab (by show o.createdAt ≠ now; omega)
    · rcases mem_applyRow.1 hb with ⟨o', ho', hlb⟩ | rfl
      · have hob := h.created_le o' ho'
        rw [hlb.same.2.1] at hab
        exact absurd hab (by show now ≠ o'.createdAt; omega)
      · rfl
  ordered := by
    intro a ha last hto
    rcases mem_applyRow.1 ha with ⟨o, ho, hleaves⟩ | rfl
    · cases hleaves with
      | whole => exact h.ordered a ho last hto
      | after hlast hscope hfrom hle hpast =>
        have := hpast last hto
        simp only [addDaysToKey]
        omega
    · exact hrow last hto
  later := by
    intro a ha b hb hscope d hda hdb hlt
    rcases mem_applyRow.1 hb with ⟨ob, hob, hlb⟩ | rfl
    · rcases mem_applyRow.1 ha with ⟨oa, hoa, hla⟩ | rfl
      · rw [hla.same.2.1, hlb.same.2.1]
        have hscope' : oa.scope = ob.scope := hla.same.1.symm.trans (hscope.trans hlb.same.1)
        exact h.later oa hoa ob hob hscope' d (hla.inForce hda) (hlb.inForce hdb)
          (hla.lt_of_lt hlb hscope' hlt)
      · -- what is left after the new row's start begins after its last day
        exfalso
        have hscope' : b.scope = row.scope := hscope.symm
        rw [inForce_iff] at hda hdb
        cases hlb with
        | whole hwhole =>
          obtain ⟨last, hlast, hpast⟩ := hwhole hscope' hlt.le
          have := hda.2 last hlast
          omega
        | after hlast =>
          have := hda.2 _ hlast
          simp only [addDaysToKey] at hdb
          omega
    · rcases mem_applyRow.1 ha with ⟨oa, hoa, hla⟩ | rfl
      · rw [hla.same.2.1]
        exact (h.created_le oa hoa).trans_lt hnow
      · exact absurd hlt (lt_irrefl _)

/-! ## The picks -/

variable {clock : ℤ} {scope : AssignmentTarget × Option ℕ} {d : DateKey}
  {l : List ShiftAssignmentRecord}

/-- The pick of a target is the newest of its assignments in force. -/
theorem Timeline.picked_iff (h : Timeline l clock) : picked scope d l = some a ↔
    (a ∈ l ∧ a.scope = scope ∧ inForce a d) ∧
      ∀ x ∈ l, x.scope = scope → inForce x d → newest a x := by
  unfold picked
  rw [head_mergeSort newest_trans newest_total]
  · simp only [List.mem_filter, Bool.and_eq_true, decide_eq_true_eq, and_imp]
  · intro x hx y hy hxy hyx
    rw [newest_iff] at hxy hyx
    exact h.distinct x (List.mem_of_mem_filter hx) y (List.mem_of_mem_filter hy) (by omega)

/-- Nothing is picked on a day when no row of the scope is in force. -/
theorem picked_eq_none : picked scope d l = none ↔ ∀ x ∈ l, x.scope = scope → ¬ inForce x d := by
  unfold picked
  rw [List.head?_eq_none_iff, ← List.length_eq_zero_iff, List.length_mergeSort,
    List.length_eq_zero_iff, List.filter_eq_nil_iff]
  simp only [Bool.and_eq_true, decide_eq_true_eq, not_and]

/-- The assignment, less the day it starts. -/
def ShiftAssignmentRecord.lessStart (a : ShiftAssignmentRecord) : ShiftAssignmentRecord :=
  { a with effectiveFrom := ⟨0⟩ }

/-- What is left of a row keeps when it was made. -/
theorem NewAssignment.Leaves.lessStart (h : row.Leaves a b) : b.lessStart = a.lessStart := by
  cases h with
  | whole => rfl
  | after => rfl

/-- On the days of the new row the row is the pick of its target. -/
theorem Timeline.picked_inside (h : Timeline (RxVision.applyRow t row now).records now)
    (hd : row.covers d) :
    picked row.scope d (RxVision.applyRow t row now).records = some (row.record now) := by
  rw [h.picked_iff]
  refine ⟨⟨mem_applyRow.2 (.inr rfl), rfl, inForce_iff.2 hd⟩, fun x hx hscope hxd => ?_⟩
  rw [newest_iff]
  rcases mem_applyRow.1 hx with ⟨o, ho, hleaves⟩ | rfl
  · rw [inForce_iff] at hxd
    cases hleaves with
    | whole hwhole =>
      by_contra hno
      have hfrom : row.effectiveFrom.day ≤ x.effectiveFrom.day := by
        simp only [NewAssignment.record] at hno
        omega
      obtain ⟨last, hlast, hlt⟩ := hwhole hscope hfrom
      have := hd.2 last hlast
      omega
    | after hlast =>
      have := hd.2 _ hlast
      simp only [addDaysToKey] at hxd
      omega
  · exact .inr ⟨rfl, le_rfl⟩

/-- An assignment that is in force on a day outside the new row's days leaves one that
is in force there. -/
theorem exists_leaves (ha : inForce a d) (hd : ¬ row.covers d) :
    ∃ b, row.Leaves a b ∧ inForce b d := by
  rw [inForce_iff] at ha
  by_cases hover : a.scope = row.scope ∧ row.effectiveFrom.day ≤ a.effectiveFrom.day
  · obtain ⟨hscope, hfrom⟩ := hover
    cases hto : row.effectiveTo with
    | none => exact absurd ⟨hfrom.trans ha.1, by simp [hto]⟩ hd
    | some last =>
      have hlast : last.day < d.day := by
        by_contra hge
        refine hd ⟨hfrom.trans ha.1, fun last' hlast' => ?_⟩
        rw [← Option.some.inj (hto.symm.trans hlast')]
        exact not_lt.1 hge
      by_cases hle : a.effectiveFrom.day ≤ last.day
      · refine ⟨_, .after hto hscope hfrom hle fun oLast hoLast => ?_, ?_⟩
        · exact hlast.trans_le (ha.2 oLast hoLast)
        · rw [inForce_iff]
          refine ⟨?_, ha.2⟩
          simp only [addDaysToKey]
          omega
      · exact ⟨a, .whole fun _ _ => ⟨last, hto, not_le.1 hle⟩, inForce_iff.2 ha⟩
  · exact ⟨a, .whole fun hscope hfrom => absurd ⟨hscope, hfrom⟩ hover, inForce_iff.2 ha⟩

/-- On every other day the pick of a target is the one it was, possibly with a later start. -/
theorem Timeline.picked_outside (h : Timeline t.records clock)
    (h' : Timeline (RxVision.applyRow t row now).records now)
    (hd : scope = row.scope → ¬ row.covers d) :
    (picked scope d (RxVision.applyRow t row now).records).map ShiftAssignmentRecord.lessStart =
      (picked scope d t.records).map ShiftAssignmentRecord.lessStart := by
  have hnew : ∀ x ∈ (RxVision.applyRow t row now).records, x.scope = scope → inForce x d →
      ∃ o ∈ t.records, row.Leaves o x ∧ o.scope = scope ∧ inForce o d := by
    intro x hx hscope hxd
    rcases mem_applyRow.1 hx with ⟨o, ho, hleaves⟩ | rfl
    · exact ⟨o, ho, hleaves, hleaves.same.1.symm.trans hscope, hleaves.inForce hxd⟩
    · exact absurd (inForce_iff.1 hxd) (hd hscope.symm)
  have hold : ∀ o ∈ t.records, o.scope = scope → inForce o d →
      ∃ x ∈ (RxVision.applyRow t row now).records, row.Leaves o x ∧ x.scope = scope ∧
        inForce x d := by
    intro o ho hscope hod
    obtain ⟨x, hleaves, hxd⟩ : ∃ x, row.Leaves o x ∧ inForce x d := by
      by_cases hs : scope = row.scope
      · exact exists_leaves hod (hd hs)
      · exact ⟨o, .whole fun h => absurd (hscope.symm.trans h) hs, hod⟩
    exact ⟨x, mem_applyRow.2 (.inl ⟨o, ho, hleaves⟩), hleaves, hleaves.same.1.trans hscope, hxd⟩
  cases hp : picked scope d t.records with
  | none =>
    rw [picked_eq_none] at hp
    have hnone : picked scope d (RxVision.applyRow t row now).records = none := by
      rw [picked_eq_none]
      intro x hx hscope hxd
      obtain ⟨o, ho, -, hos, hod⟩ := hnew x hx hscope hxd
      exact hp o ho hos hod
    rw [hnone]
  | some m =>
    obtain ⟨⟨hm, hms, hmd⟩, hbest⟩ := h.picked_iff.1 hp
    obtain ⟨m', hm', hleaves, hms', hmd'⟩ := hold m hm hms hmd
    have hpick : picked scope d (RxVision.applyRow t row now).records = some m' := by
      rw [h'.picked_iff]
      refine ⟨⟨hm', hms', hmd'⟩, fun x hx hscope hxd => ?_⟩
      obtain ⟨o, ho, hlo, hos, hod⟩ := hnew x hx hscope hxd
      have hmo := newest_iff.1 (hbest o ho hos hod)
      -- the pick starts later, or was created later; a later start was created later as well
      have hcreated : o.createdAt ≤ m.createdAt := by
        rcases hmo with hlt | ⟨-, hle⟩
        · exact (h.later o ho m hm (hos.trans hms.symm) d hod hmd hlt).le
        · exact hle
      have hstart : x.effectiveFrom.day ≤ m'.effectiveFrom.day := by
        by_contra hlt
        have := hleaves.lt_of_lt hlo (hms.trans hos.symm) (not_le.1 hlt)
        omega
      rw [newest_iff, hlo.same.2.1, hleaves.same.2.1]
      omega
    rw [hpick, Option.map_some, Option.map_some, hleaves.lessStart]

/-- The assignments of another target stay as they are, rows and ids. -/
theorem mem_applyRow_other (hscope : a.scope ≠ row.scope) :
    a ∈ (applyRow t row now).records ↔ a ∈ t.records := by
  rw [mem_applyRow]
  constructor
  · rintro (⟨o, ho, hleaves⟩ | rfl)
    · cases hleaves with
      | whole => exact ho
      | after _ hs => exact absurd hs hscope
    · exact absurd rfl hscope
  · exact fun ha => .inl ⟨a, ha, .whole fun h => absurd h hscope⟩

/-- The picks of another target stay on every day, since its assignments do. -/
theorem Timeline.picked_other (h : Timeline t.records clock)
    (h' : Timeline (RxVision.applyRow t row now).records now) (hscope : scope ≠ row.scope) :
    picked scope d (RxVision.applyRow t row now).records = picked scope d t.records := by
  have hmem : ∀ x : ShiftAssignmentRecord, x.scope = scope →
      (x ∈ (RxVision.applyRow t row now).records ↔ x ∈ t.records) := fun x hx =>
    mem_applyRow_other (hx ▸ hscope)
  ext m
  rw [h'.picked_iff, h.picked_iff]
  constructor
  · rintro ⟨⟨hm, hs, hd⟩, hbest⟩
    exact ⟨⟨(hmem m hs).1 hm, hs, hd⟩, fun x hx hxs => hbest x ((hmem x hxs).2 hx) hxs⟩
  · rintro ⟨⟨hm, hs, hd⟩, hbest⟩
    exact ⟨⟨(hmem m hs).2 hm, hs, hd⟩, fun x hx hxs => hbest x ((hmem x hxs).1 hx) hxs⟩

end ApplyRow

/-! ## The rows `resolveShift` reads -/

/-- The personal assignment that `resolveShift` looks up is the pick of the person. -/
theorem userRow_eq_picked (person : PersonForShift) (d : DateKey) (l : List ShiftAssignmentRecord) :
    userRow person d l = picked (.user (some person.id), none) d l := by
  have hsame : (fun a : ShiftAssignmentRecord => decide (a.target = .user (some person.id)) &&
      inForce a d) = fun a => decide (a.scope = (.user (some person.id), none)) && inForce a d := by
    funext a
    congr 1
    rw [decide_eq_decide]
    unfold ShiftAssignmentRecord.scope AssignmentTarget.scope
    cases a.target <;> simp
  unfold userRow picked
  rw [hsame]

/-- The order of the departments' rows is transitive. -/
theorem companyFirst_trans (a b c : ShiftAssignmentRecord) (hab : companyFirst a b)
    (hbc : companyFirst b c) : companyFirst a c := by
  unfold companyFirst at *
  cases ha : a.companyId <;> cases hb : b.companyId <;> cases hc : c.companyId <;>
    simp_all <;> exact newest_trans a b c hab hbc

/-- Of two rows one comes first. -/
theorem companyFirst_total (a b : ShiftAssignmentRecord) :
    companyFirst a b || companyFirst b a := by
  have := newest_total a b
  unfold companyFirst
  cases ha : a.companyId <;> cases hb : b.companyId <;> simp_all

/-- The rows of a department's scope are those for it, in its organisation. -/
theorem ShiftAssignmentRecord.scope_department {a : ShiftAssignmentRecord} {key company} :
    a.scope = (.department key, company) ↔ a.target = .department key ∧ a.companyId = company := by
  unfold scope AssignmentTarget.scope
  cases a.target <;> simp

/-- The department's assignment is the pick of the department in the person's company, or else the
pick of the department in every company. -/
theorem Timeline.departmentRow_eq_picked {l : List ShiftAssignmentRecord} {clock : ℤ}
    (h : Timeline l clock) (person : PersonForShift) (d : DateKey) :
    departmentRow person d l = person.departmentKey.bind fun key =>
      (person.companyId.bind fun company => picked (.department (some key), some company) d l).or
        (picked (.department (some key), none) d l) := by
  unfold departmentRow
  cases person.departmentKey with
  | none => rfl
  | some key =>
    rw [Option.bind_some, Option.bind_some]
    -- the assignments that are compared, and the one they are sorted to
    have hmem : ∀ x, x ∈ l.filter (fun a => a.target = .department (some key) &&
        (a.companyId.isNone || a.companyId = person.companyId) && inForce a d) ↔
          x ∈ l ∧ (x.target = .department (some key) ∧
            (x.companyId = none ∨ x.companyId = person.companyId)) ∧ inForce x d := by
      intro x
      rw [List.mem_filter, Bool.and_eq_true, Bool.and_eq_true, Bool.or_eq_true, decide_eq_true_eq,
        decide_eq_true_eq, Option.isNone_iff_eq_none]
    have hhead := fun m => head_mergeSort companyFirst_trans companyFirst_total (m := m)
      (l := l.filter fun a => a.target = .department (some key) &&
        (a.companyId.isNone || a.companyId = person.companyId) && inForce a d) (by
      intro x hx y hy hxy hyx
      refine h.distinct x ((hmem x).1 hx).1 y ((hmem y).1 hy).1 ?_
      unfold companyFirst at hxy hyx
      cases hxc : x.companyId <;> cases hyc : y.companyId <;> simp [hxc, hyc] at hxy hyx <;>
        rw [newest_iff] at hxy hyx <;> omega)
    cases hrow : ((l.filter fun a => a.target = .department (some key) &&
        (a.companyId.isNone || a.companyId = person.companyId) && inForce a d).mergeSort
          companyFirst).head? with
    | none =>
      have hnone : ∀ x ∈ l, x.target = .department (some key) →
          (x.companyId = none ∨ x.companyId = person.companyId) → ¬ inForce x d := by
        rw [List.head?_eq_none_iff, ← List.length_eq_zero_iff, List.length_mergeSort,
          List.length_eq_zero_iff] at hrow
        intro x hx ht hc hd
        have hxm := (hmem x).2 ⟨hx, ⟨ht, hc⟩, hd⟩
        rw [hrow] at hxm
        exact absurd hxm List.not_mem_nil
      have hall : picked (.department (some key), none) d l = none := by
        rw [picked_eq_none]
        intro x hx hs
        rw [ShiftAssignmentRecord.scope_department] at hs
        exact hnone x hx hs.1 (.inl hs.2)
      rw [hall, Option.or_none]
      cases hc : person.companyId with
      | none => rfl
      | some company =>
        refine (picked_eq_none.2 fun x hx hs => ?_).symm
        rw [ShiftAssignmentRecord.scope_department] at hs
        exact hnone x hx hs.1 (.inr (hs.2.trans hc.symm))
    | some m =>
      obtain ⟨hm, hbest⟩ := (hhead m).1 hrow
      obtain ⟨hml, ⟨hmt, hmc⟩, hmd⟩ := (hmem m).1 hm
      have hfirst : ∀ x ∈ l, x.target = .department (some key) →
          (x.companyId = none ∨ x.companyId = person.companyId) → inForce x d → companyFirst m x :=
        fun x hx ht hc hd => hbest x ((hmem x).2 ⟨hx, ⟨ht, hc⟩, hd⟩)
      have hpick : picked (.department (some key), m.companyId) d l = some m := by
        rw [h.picked_iff]
        refine ⟨⟨hml, ShiftAssignmentRecord.scope_department.2 ⟨hmt, rfl⟩, hmd⟩,
          fun x hx hs hd => ?_⟩
        rw [ShiftAssignmentRecord.scope_department] at hs
        have hmx := hfirst x hx hs.1 (hs.2 ▸ hmc) hd
        unfold companyFirst at hmx
        rwa [hs.2, if_neg (not_not.2 rfl)] at hmx
      rcases hcompany : m.companyId with - | company
      · -- a row for every company comes first only when there is none for the company
        rw [hcompany] at hpick
        have hother : (person.companyId.bind fun company =>
            picked (.department (some key), some company) d l) = none := by
          cases hc : person.companyId with
          | none => rfl
          | some company =>
            refine picked_eq_none.2 fun x hx hs hd => ?_
            rw [ShiftAssignmentRecord.scope_department] at hs
            have hmx := hfirst x hx hs.1 (.inr (hs.2.trans hc.symm)) hd
            unfold companyFirst at hmx
            simp [hcompany, hs.2] at hmx
        rw [hother, Option.none_or, hpick]
      · rw [hcompany] at hpick hmc
        have hc : person.companyId = some company := (hmc.resolve_left (by simp)).symm
        rw [hc, Option.bind_some, hpick, Option.some_or]

/-! ## Every table of calls -/

/-- A call keeps the timeline, row by row, with the time of its last row as the new clock. -/
theorem Timeline.applyAssignments {t : AssignmentTable} {clock : ℤ}
    {rows : List (NewAssignment × ℤ)}
    (h : Timeline t.records clock) (hrows : ∀ row ∈ rows, row.1.Ordered)
    (htimes : (clock :: rows.map Prod.snd).Pairwise (· < ·)) :
    Timeline (applyAssignments t rows).records ((rows.map Prod.snd).getLastD clock) := by
  induction rows generalizing t clock with
  | nil => exact h
  | cons row rows ih =>
    have hnow : clock < row.2 := List.rel_of_pairwise_cons htimes (.head _)
    rw [List.map_cons, List.getLastD_cons]
    exact ih (h.applyRow (hrows row (.head _)) hnow)
      (fun r hr => hrows r (.tail _ hr)) htimes.of_cons

/-- Every table that calls make has the timeline. -/
theorem Assigned.timeline {t : AssignmentTable} {clock : ℤ} (h : Assigned t clock) :
    Timeline t.records clock := by
  induction h with
  | empty clock =>
    have hnil : ∀ {P : ShiftAssignmentRecord → Prop}, ∀ a ∈ AssignmentTable.records .empty, P a :=
      fun a ha => absurd ha List.not_mem_nil
    exact ⟨hnil, hnil, hnil, hnil⟩
  | call _ hrows htimes ih => exact ih.applyAssignments hrows htimes

/-- Assigning a shift changes the pick of its target on its days and no other pick: after the call
the new row is the pick of its target on its days, on every other day the pick is the assignment it
was, and so it is for every other target. The rows keep their days in order. The picks are the ones
`resolveShift` reads, before and after. -/
theorem assignment_pointUpdate (t : AssignmentTable) (clock : ℤ) (h : Assigned t clock)
    (row : NewAssignment) (hrow : row.Ordered) (now : ℤ) (hnow : clock < now) :
    (∀ d, row.covers d →
      picked row.scope d (applyAssignments t [(row, now)]).records = some (row.record now)) ∧
    (∀ d, ¬ row.covers d →
      (picked row.scope d (applyAssignments t [(row, now)]).records).map
          ShiftAssignmentRecord.lessStart =
        (picked row.scope d t.records).map ShiftAssignmentRecord.lessStart) ∧
    (∀ scope, scope ≠ row.scope → ∀ d,
      picked scope d (applyAssignments t [(row, now)]).records = picked scope d t.records) ∧
    (∀ a ∈ (applyAssignments t [(row, now)]).records, ∀ last, a.effectiveTo = some last →
      a.effectiveFrom.day ≤ last.day) ∧
    ∀ l ∈ [t.records, (applyAssignments t [(row, now)]).records], ∀ person d,
      userRow person d l = picked (.user (some person.id), none) d l ∧
        departmentRow person d l = person.departmentKey.bind fun key =>
          (person.companyId.bind fun company =>
              picked (.department (some key), some company) d l).or
            (picked (.department (some key), none) d l) := by
  have hold := h.timeline
  have hnew : Timeline (applyAssignments t [(row, now)]).records now := hold.applyRow hrow hnow
  refine ⟨fun d hd => Timeline.picked_inside hnew hd,
    fun d hd => hold.picked_outside hnew fun _ => hd,
    fun scope hscope d => hold.picked_other hnew hscope, hnew.ordered, fun l hl person d => ?_⟩
  rcases List.mem_cons.1 hl with rfl | hl
  · exact ⟨userRow_eq_picked person d _, hold.departmentRow_eq_picked person d⟩
  · obtain rfl := List.mem_singleton.1 hl
    exact ⟨userRow_eq_picked person d _, hnew.departmentRow_eq_picked person d⟩

/-- Shift 1 for person 7 from day 0 on, and shift 2 on the days 10 to 20. -/
def twoShifts : AssignmentTable :=
  applyAssignments .empty [
    ({ target := .user (some 7), companyId := some 1, shiftId := some 1, effectiveFrom := ⟨0⟩
       effectiveTo := none }, 1),
    ({ target := .user (some 7), companyId := some 1, shiftId := some 2, effectiveFrom := ⟨10⟩
       effectiveTo := some ⟨20⟩ }, 2)]

/-- Shift 3 on the days 8 to 12. -/
def thirdShift : NewAssignment where
  target := .user (some 7)
  companyId := some 1
  shiftId := some 3
  effectiveFrom := ⟨8⟩
  effectiveTo := some ⟨12⟩

/-- After the third assignment day 9 is shift 3's, and day 15 is still shift 2's. -/
theorem thirdShift_pointUpdate :
    picked thirdShift.scope ⟨9⟩ (applyAssignments twoShifts [(thirdShift, 3)]).records =
        some (thirdShift.record 3) ∧
      (picked thirdShift.scope ⟨15⟩ (applyAssignments twoShifts [(thirdShift, 3)]).records).map
          ShiftAssignmentRecord.lessStart =
        (picked thirdShift.scope ⟨15⟩ twoShifts.records).map ShiftAssignmentRecord.lessStart := by
  have hassigned : Assigned twoShifts 2 := by
    refine .call (.empty 0) (fun row hrow last hlast => ?_) (by decide)
    rcases List.mem_cons.1 hrow with rfl | hrow
    · exact absurd hlast (by simp)
    · obtain rfl := List.mem_singleton.1 hrow
      obtain rfl := Option.some.inj hlast
      decide
  have hordered : thirdShift.Ordered := by
    intro last hlast
    obtain rfl := Option.some.inj hlast
    decide
  have h := assignment_pointUpdate twoShifts 2 hassigned thirdShift hordered 3 (by decide)
  refine ⟨h.1 _ ⟨by decide, fun last hlast => ?_⟩, h.2.1 _ fun hc => ?_⟩
  · obtain rfl := Option.some.inj hlast
    decide
  · exact absurd (hc.2 ⟨12⟩ rfl) (by decide)

end RxVision
