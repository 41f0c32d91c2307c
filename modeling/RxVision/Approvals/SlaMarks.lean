import RxVision.Lib.Runs
import RxVision.Approvals.Items

/-!
# Reminders and escalations (`ApprovalsSlaJob.tick`, `slaCandidates`, `markSla`)

A pass of the job over one of the two mark columns: the query that finds the waiting items that
come due, the notices, and the update that marks the items the notices covered. A tick is a pass
over `reminded_at` and then one over `escalated_at`. The update looks at the mark column alone.
An item decided after the query is marked although it waits no more, and one decided and
reopened is marked for a period nobody was told about, so that its new clock comes due in
silence. `marks_belong_to_their_period` is what holds when no claimed item is decided before its
pass is over.
-/

namespace RxVision

/-- The column of a pass. -/
inductive SlaColumn
  | reminded | escalated
  deriving DecidableEq, Repr

/-- The mark of an item. -/
def SlaColumn.get (column : SlaColumn) (r : ApprovalItem) : Option ℤ :=
  match column with
  | .reminded => r.remindedAt
  | .escalated => r.escalatedAt

def SlaColumn.set (column : SlaColumn) (now : ℤ) (r : ApprovalItem) : ApprovalItem :=
  match column with
  | .reminded => { r with remindedAt := some now }
  | .escalated => { r with escalatedAt := some now }

/-- How long before its due time a reminder goes out. -/
def DUE_SOON_MS : ℤ := 12 * 60 * 60000

/-- Most candidates read of one table. -/
def SLA_LIMIT : ℕ := 5000

/-- The due times a pass looks for. -/
def SlaColumn.window (column : SlaColumn) (now dueAt : ℤ) : Bool :=
  match column with
  | .reminded => now ≤ dueAt && dueAt ≤ now + DUE_SOON_MS
  | .escalated => dueAt < now

/-- The condition of the candidate query. -/
def SlaColumn.selects (column : SlaColumn) (now : ℤ) (r : ApprovalItem) : Bool :=
  r.status = .pending && (column.get r).isNone && r.dueAt.any (column.window now)

/-- `slaCandidates`: of each table the first rows the query finds. -/
def slaCandidates (items : Table ApprovalItem.id) (column : SlaColumn) (now : ℤ) :
    List ApprovalItem :=
  [ApprovalType.brk, .meeting, .away].flatMap fun type =>
    (items.rows.filter fun r => r.type = type && column.selects now r).take SLA_LIMIT

/-- A candidate as the query read it, and which of its waiting periods that was. -/
structure SlaClaim where
  row : ApprovalItem
  period : ℕ
  deriving DecidableEq, Repr

/-- A notice that covered an item. -/
structure SlaNotice where
  column : SlaColumn
  id : ℕ
  period : ℕ
  dueAt : Option ℤ
  deriving DecidableEq, Repr

/-- The notice of a claim. -/
def SlaClaim.notice (c : SlaClaim) (column : SlaColumn) : SlaNotice :=
  ⟨column, c.row.id, c.period, c.row.dueAt⟩

/-- A pass in flight: what it claims, and whether the notices went out. -/
structure SlaPass where
  column : SlaColumn
  now : ℤ
  claims : List SlaClaim
  told : Bool
  deriving DecidableEq, Repr

/-- The rows the mark update of a table writes. -/
def SlaPass.marks (p : SlaPass) (type : ApprovalType) (r : ApprovalItem) : Bool :=
  r.type = type && (p.claims.any fun c => c.row.type = type && c.row.id = r.id) &&
    (p.column.get r).isNone

/-- The items, the passes in flight, and what was sent. -/
structure SlaState where
  items : Table ApprovalItem.id
  /-- Number of times an item became PENDING again. -/
  period : ℕ → ℕ
  passes : ℕ → Option SlaPass
  sent : List SlaNotice

/-- The steps of the job and the operations on items. -/
inductive SlaAction
  | query (pass : ℕ) (column : SlaColumn) (now : ℤ)
  /-- The notices; `covers` says which claims somebody was told about. -/
  | notices (pass : ℕ) (covers : SlaClaim → Bool)
  /-- The mark update of one table. -/
  | mark (pass : ℕ) (type : ApprovalType)
  | finish (pass : ℕ)
  /-- A new item, with the clock it starts with if it waits. -/
  | create (row : ApprovalItem)
  | decide (id : ℕ) (approve : Bool) (me : ℕ) (note : Option String) (now : ℤ) (monthOpen : Bool)
  | reopen (id : ℕ) (start slaHours : ℤ) (monthOpen : Bool)
  | finishBreak (id : ℕ) (overrunSec : ℤ) (ask : Option OverrunAsk) (start slaHours : ℤ)
      (monthOpen : Bool)
  /-- `fillMissingDueAt`: a due time for waiting rows without one. -/
  | fillMissingDueAt (dueAt : ApprovalItem → ℤ)

/-- A write of one row that keeps its id. -/
structure RowWrite where
  write : ApprovalItem → Option ApprovalItem
  id : ∀ r r', write r = some r' → r'.id = r.id

namespace RowWrite

/-- The decision of a waiting item. -/
def decide (approve : Bool) (me : ℕ) (note : Option String) (now : ℤ) (monthOpen : Bool) :
    RowWrite where
  write r := r.decide [.pending]
    ⟨if approve then .approved else .rejected, some me, some now, note⟩ now 0 monthOpen
  id _ _ h := (ApprovalItem.sameItem_of_decide h).1

/-- The way back to pending. -/
def reopen (start slaHours : ℤ) (monthOpen : Bool) : RowWrite where
  write r := r.decide DECIDED .reopening start slaHours monthOpen
  id _ _ h := (ApprovalItem.sameItem_of_decide h).1

/-- The end of a break. -/
def finishBreak (overrunSec : ℤ) (ask : Option OverrunAsk) (start slaHours : ℤ) (monthOpen : Bool) :
    RowWrite where
  write r := if r.type = .brk then r.finishBreak overrunSec ask start slaHours monthOpen else none
  id r r' h := by
    split at h
    · exact (ApprovalItem.finishBreak_cases h).1.1
    · cases h

end RowWrite

namespace SlaState

variable (s : SlaState)

/-- One row written; a row that becomes PENDING starts a new period. -/
def writeRow (id : ℕ) (w : RowWrite) : SlaState :=
  { s with
    items := s.items.updateMany (fun r => r.id = id) (fun r => (w.write r).getD r) (by
      intro r
      cases h : w.write r with
      | none => rfl
      | some r' => exact w.id r r' h)
    period := fun n =>
      if n = id && s.items.rows.any (fun r => r.id = id && r.status ≠ .pending &&
        (w.write r).any fun r' => r'.status = .pending) then s.period n + 1 else s.period n }

/-- `markSla` of one table. -/
def markSla (p : SlaPass) (type : ApprovalType) : Table ApprovalItem.id :=
  s.items.updateMany (p.marks type) (p.column.set p.now) fun r => by cases p.column <;> rfl

/-- The passes with one of them set. -/
def setPass (pass : ℕ) (p : Option SlaPass) : ℕ → Option SlaPass :=
  fun n => if n = pass then p else s.passes n

/-- One step. -/
def step : SlaAction → Option SlaState
  | .query pass column now =>
    if (s.passes pass).isSome then none
    else some { s with
      passes := s.setPass pass (some {
        column, now, told := false
        claims := (slaCandidates s.items column now).map fun r => ⟨r, s.period r.id⟩ }) }
  | .notices pass covers =>
    match s.passes pass with
    | some p =>
      if p.told then none
      else some { s with
        passes := s.setPass pass (some { p with claims := p.claims.filter covers, told := true })
        sent := s.sent ++ (p.claims.filter covers).map fun c => c.notice p.column }
    | none => none
  | .mark pass type =>
    match s.passes pass with
    | some p =>
      if p.told then some { s with
        items := s.markSla p type
        passes :=
          s.setPass pass (some { p with claims := p.claims.filter fun c => c.row.type ≠ type }) }
      else none
    | none => none
  | .finish pass => some { s with passes := s.setPass pass none }
  | .create row => some { s with
      items := s.items.create
        (fun id => { row with id := id, remindedAt := none, escalatedAt := none }) fun _ => rfl }
  | .decide id approve me note now monthOpen =>
    some (s.writeRow id (.decide approve me note now monthOpen))
  | .reopen id start slaHours monthOpen => some (s.writeRow id (.reopen start slaHours monthOpen))
  | .finishBreak id overrunSec ask start slaHours monthOpen =>
    some (s.writeRow id (.finishBreak overrunSec ask start slaHours monthOpen))
  | .fillMissingDueAt dueAt => some { s with
      items := s.items.updateMany (fun r => r.status = .pending && r.dueAt.isNone)
        (fun r => { r with dueAt := some (dueAt r) }) fun _ => rfl }

/-- Nothing waits and no pass is in flight. -/
def empty : SlaState where
  items := .empty
  period := fun _ => 0
  passes := fun _ => none
  sent := []

/-! ## What a write does to the clock -/

variable {s} {s' : SlaState} {r r' : ApprovalItem} {w : RowWrite} {id : ℕ} {p : SlaPass}
  {c : SlaClaim}

/-- A write keeps the clock of a waiting item and clears the marks of one that waits again. -/
structure Clocked (w : RowWrite) : Prop where
  type : ∀ {r r'}, w.write r = some r' → r'.type = r.type
  keeps : ∀ {r r'}, w.write r = some r' → r.status = .pending → r'.status = .pending →
    r'.dueAt = r.dueAt ∧ ∀ column, SlaColumn.get column r' = SlaColumn.get column r
  restarts : ∀ {r r'}, w.write r = some r' → r.status ≠ .pending → r'.status = .pending →
    ∀ column, SlaColumn.get column r' = none

/-- A decision ends the wait of an item and touches no mark: it needs an item that waits, and leaves
one that does not. -/
theorem clocked_decide {approve : Bool} {me : ℕ} {note : Option String} {now : ℤ}
    {monthOpen : Bool} : Clocked (.decide approve me note now monthOpen) where
  type h := (ApprovalItem.sameItem_of_decide h).2.1
  keeps h _ hp := by
    obtain ⟨-, -, -, rfl⟩ := ApprovalItem.decide_cases h
    cases approve <;> cases hp
  restarts h _ hp := by
    obtain ⟨-, -, -, rfl⟩ := ApprovalItem.decide_cases h
    cases approve <;> cases hp

/-- A reopening starts a new wait, with a new due time and without marks. -/
theorem clocked_reopen {start slaHours : ℤ} {monthOpen : Bool} :
    Clocked (.reopen start slaHours monthOpen) where
  type h := (ApprovalItem.sameItem_of_decide h).2.1
  keeps h hp _ := by
    obtain ⟨-, hdecided, -⟩ := ApprovalItem.decide_cases h
    rw [hp] at hdecided
    simp [DECIDED] at hdecided
  restarts h _ _ column := by
    obtain ⟨-, -, -, rfl⟩ := ApprovalItem.decide_cases h
    cases column <;> rfl

/-- Asking for an overrun starts a new wait without marks; a break that is only ended stays as it
is. -/
theorem clocked_finishBreak {overrunSec : ℤ} {ask : Option OverrunAsk} {start slaHours : ℤ}
    {monthOpen : Bool} : Clocked (.finishBreak overrunSec ask start slaHours monthOpen) where
  type {r r'} h := by
    simp only [RowWrite.finishBreak] at h
    split at h
    · exact (ApprovalItem.finishBreak_cases h).1.2.1
    · cases h
  keeps {r r'} h hp _ := by
    simp only [RowWrite.finishBreak] at h
    split at h
    · obtain ⟨-, ⟨-, -, -, -, -, -, -, -, hkeep, -⟩ | ⟨-, -, -, hdue, hrem, hesc⟩⟩ :=
        ApprovalItem.finishBreak_cases h
      · obtain ⟨hdue, hrem, hesc⟩ := hkeep hp
        exact ⟨hdue, fun column => by cases column; exacts [hrem, hesc]⟩
      · exact ⟨hdue, fun column => by cases column; exacts [hrem, hesc]⟩
    · cases h
  restarts {r r'} h hne hp column := by
    simp only [RowWrite.finishBreak] at h
    split at h
    · obtain ⟨-, ⟨-, -, -, -, -, -, -, -, -, hnew⟩ | ⟨-, hstatus, -⟩⟩ :=
        ApprovalItem.finishBreak_cases h
      · obtain ⟨-, hrem, hesc⟩ := hnew hne
        cases column
        exacts [hrem, hesc]
      · exact absurd (hstatus.symm.trans hp) hne
    · cases h

/-- After a write, an item is one that the write left alone or the one it wrote; the write of
another id leaves all. -/
theorem mem_writeRow (h : r' ∈ (s.writeRow id w).items) :
    (r' ∈ s.items ∧ (r'.id = id → w.write r' = none)) ∨
      ∃ r ∈ s.items, r.id = id ∧ w.write r = some r' := by
  obtain ⟨r, hr, h⟩ := List.mem_map.1 h
  dsimp only at h
  split at h
  · rename_i hid
    cases hw : w.write r with
    | none =>
      rw [hw] at h
      cases h
      exact Or.inl ⟨hr, fun _ => hw⟩
    | some r'' =>
      rw [hw] at h
      cases h
      exact Or.inr ⟨r, hr, by simpa using hid, hw⟩
  · rename_i hid
    cases h
    exact Or.inl ⟨hr, fun heq => absurd heq (by simpa using hid)⟩

/-- Every item is there after a write, changed if it was the one. -/
theorem writeRow_mem (h : r ∈ s.items) :
    (if r.id = id then (w.write r).getD r else r) ∈ (s.writeRow id w).items :=
  List.mem_map.2 ⟨r, h, by simp⟩

/-- A write starts no new wait of another item. -/
theorem period_writeRow_ne {n : ℕ} (h : n ≠ id) : (s.writeRow id w).period n = s.period n := by
  simp [writeRow, h]

/-- A write that does not make the row wait again starts no new period, so the row's number
of periods stays. -/
theorem period_writeRow (hr : r ∈ s.items)
    (h : ∀ r', w.write r = some r' → r'.status = .pending → r.status = .pending) :
    (s.writeRow r.id w).period r.id = s.period r.id := by
  have hno : (s.items.rows.any fun r' => r'.id = r.id && r'.status ≠ .pending &&
      (w.write r').any fun r'' => r''.status = .pending) = false := by
    refine List.any_eq_false.2 fun r' hr' hsel => ?_
    simp only [Bool.and_eq_true, decide_eq_true_eq, Option.any_eq_true] at hsel
    obtain ⟨⟨hid, hne⟩, r'', hw, hp⟩ := hsel
    obtain rfl := Table.eq_of_key hr' hr hid
    exact hne (h r'' hw hp)
  simp only [writeRow, hno, Bool.and_false, Bool.false_eq_true, if_false]

/-- A pass that is stored is the one just stored, or one there was. -/
theorem setPass_some {pass n : ℕ} {o : Option SlaPass} (h : s.setPass pass o n = some p) :
    (n = pass ∧ o = some p) ∨ s.passes n = some p := by
  unfold setPass at h
  split at h
  · exact Or.inl ⟨‹_›, h⟩
  · exact Or.inr h

/-! ## What a pass relies on -/

/-- The claimed item still waits as it did when the query read it, and its notice went out if the
notices did. -/
def Holds (s : SlaState) (p : SlaPass) (c : SlaClaim) : Prop :=
  (∃ r ∈ s.items, r.id = c.row.id ∧ r.status = .pending ∧ r.dueAt = c.row.dueAt ∧
    s.period r.id = c.period) ∧ c.row.dueAt ≠ none ∧ (p.told = true → c.notice p.column ∈ s.sent)

/-- Claims hold, and a waiting item's mark was earned in the period it waits in. -/
structure Inv (s : SlaState) : Prop where
  claims : ∀ n p, s.passes n = some p → ∀ c ∈ p.claims, s.Holds p c
  marks : ∀ r ∈ s.items, r.status = .pending → ∀ column, SlaColumn.get column r ≠ none →
    ⟨column, r.id, s.period r.id, r.dueAt⟩ ∈ s.sent
  sent : ∀ n ∈ s.sent, n.dueAt ≠ none

/-- Without items and passes there is nothing to claim. -/
theorem Inv.empty : Inv .empty where
  claims := fun _ _ h => by cases h
  marks := fun _ hr => by cases hr
  sent := fun _ hn => by cases hn

/-- No pass in flight claims the item. -/
def Unclaimed (s : SlaState) (id : ℕ) : Prop :=
  ∀ n p, s.passes n = some p → ∀ c ∈ p.claims, c.row.id ≠ id

/-- A write of one row keeps the invariant when it takes no claimed item out of its waiting period,
or when no pass has claimed the row. -/
theorem Inv.writeRow (h : s.Inv) (hw : Clocked w)
    (hstays : (∀ r ∈ s.items, r.id = id → r.status = .pending → ∀ r', w.write r = some r' →
      r'.status = .pending) ∨ s.Unclaimed id) : (s.writeRow id w).Inv := by
  refine ⟨fun n p hp c hc => ?_, fun r' hr' hpending column hmark => ?_, h.sent⟩
  · obtain ⟨⟨r, hr, hid, hpending, hdue, hperiod⟩, hsome, htold⟩ := h.claims n p hp c hc
    refine ⟨?_, hsome, htold⟩
    have hmem : (if r.id = id then (w.write r).getD r else r) ∈ (s.writeRow id w).items :=
      writeRow_mem hr
    by_cases hsame : r.id = id
    · subst hsame
      rw [if_pos rfl] at hmem
      rcases hstays with hstays | hfree
      · have hstill : (s.writeRow r.id w).period r.id = s.period r.id :=
          period_writeRow hr fun _ _ _ => hpending
        cases hwrite : w.write r with
        | none =>
          rw [hwrite] at hmem
          exact ⟨r, hmem, hid, hpending, hdue, hstill.trans hperiod⟩
        | some r' =>
          rw [hwrite] at hmem
          have hid' : r'.id = r.id := w.id r r' hwrite
          have hpending' := hstays r hr rfl hpending r' hwrite
          refine ⟨r', hmem, hid'.trans hid, hpending', ?_, ?_⟩
          · exact (hw.keeps hwrite hpending hpending').1.trans hdue
          · rw [hid']
            exact hstill.trans hperiod
      · exact absurd hid.symm (hfree n p hp c hc)
    · rw [if_neg hsame] at hmem
      exact ⟨r, hmem, hid, hpending, hdue, (period_writeRow_ne hsame).trans hperiod⟩
  · rcases mem_writeRow hr' with ⟨hr, hnone⟩ | ⟨r, hr, rfl, hwrite⟩
    · have hperiod : (s.writeRow id w).period r'.id = s.period r'.id := by
        by_cases hsame : r'.id = id
        · subst hsame
          exact period_writeRow hr fun r'' hr'' => absurd ((hnone rfl).symm.trans hr'') nofun
        · exact period_writeRow_ne hsame
      rw [hperiod]
      exact h.marks r' hr hpending column hmark
    · have hid' : r'.id = r.id := w.id r r' hwrite
      by_cases hwas : r.status = .pending
      · obtain ⟨hdue, hget⟩ := hw.keeps hwrite hwas hpending
        rw [hid', period_writeRow hr fun _ _ _ => hwas, hdue]
        exact h.marks r hr hwas column (hget column ▸ hmark)
      · exact absurd (hw.restarts hwrite hwas hpending column) hmark

/-! ## Every run -/

/-- No decision commits on an item that a pass in flight claims. -/
def MayStep (s : SlaState) : SlaAction → Prop
  | .decide id approve me note now monthOpen =>
    (∃ r ∈ s.items, r.id = id ∧
      ((RowWrite.decide approve me note now monthOpen).write r).isSome = true) → s.Unclaimed id
  | _ => True

/-- A candidate is an item that the column's query selects. -/
theorem mem_slaCandidates {items : Table ApprovalItem.id} {column : SlaColumn} {now : ℤ}
    (h : r ∈ slaCandidates items column now) : r ∈ items ∧ column.selects now r = true := by
  obtain ⟨type, -, h⟩ := List.mem_flatMap.1 h
  obtain ⟨hr, hsel⟩ := List.mem_filter.1 (List.mem_of_mem_take h)
  simp only [Bool.and_eq_true] at hsel
  exact ⟨hr, hsel.2⟩

/-- The query selects items that wait, are due and have no mark in its column. -/
theorem SlaColumn.selects_spec {column : SlaColumn} {now : ℤ} (h : column.selects now r = true) :
    r.status = .pending ∧ column.get r = none ∧ r.dueAt ≠ none := by
  simp only [SlaColumn.selects, Bool.and_eq_true, decide_eq_true_eq, Option.isNone_iff_eq_none] at h
  refine ⟨h.1.1, h.1.2, fun hnone => ?_⟩
  rw [hnone] at h
  exact absurd h.2 (by simp)

/-- Marking, and anything else that leaves the ids, statuses and due times of what waits alone,
keeps a claim of a pass. -/
theorem Holds.of_items {q : SlaPass} (h : s.Holds p c) (hperiod : s'.period = s.period)
    (hitems : ∀ r ∈ s.items, r.status = .pending → r.dueAt ≠ none → ∃ r' ∈ s'.items, r'.id = r.id ∧
      r'.status = .pending ∧ r'.dueAt = r.dueAt)
    (hsent : ∀ n ∈ s.sent, n ∈ s'.sent) (hcolumn : q.column = p.column)
    (htold : q.told = true → p.told = true ∨ c.notice p.column ∈ s'.sent) : s'.Holds q c := by
  obtain ⟨⟨r, hr, hid, hpending, hdue, hr'⟩, hsome, hnotice⟩ := h
  obtain ⟨r', hmem, hid', hpending', hdue'⟩ := hitems r hr hpending (hdue ▸ hsome)
  refine ⟨⟨r', hmem, hid'.trans hid, hpending', hdue'.trans hdue, ?_⟩, hsome, fun hq => ?_⟩
  · rw [hperiod, hid']
    exact hr'
  · rw [hcolumn]
    rcases htold hq with ht | ht
    · exact hsent _ (hnotice ht)
    · exact ht

/-- A mark changes neither an item's status nor its due time. -/
theorem SlaColumn.set_same (column : SlaColumn) (now : ℤ) (r : ApprovalItem) :
    (column.set now r).id = r.id ∧ (column.set now r).status = r.status ∧
      (column.set now r).dueAt = r.dueAt := by
  cases column <;> exact ⟨rfl, rfl, rfl⟩

/-- A marked item is a claimed one, so it waits in the period that its notice was sent for, with the
due time of the notice. -/
theorem Inv.marks_earned {n : ℕ} {type : ApprovalType} (h : s.Inv) (hp : s.passes n = some p)
    (htold : p.told = true) (hr : r ∈ s.items) (hmarks : p.marks type r = true) :
    r.status = .pending ∧ ⟨p.column, r.id, s.period r.id, r.dueAt⟩ ∈ s.sent := by
  simp only [SlaPass.marks, Bool.and_eq_true, List.any_eq_true, decide_eq_true_eq] at hmarks
  obtain ⟨⟨-, c, hc, -, hcid⟩, -⟩ := hmarks
  obtain ⟨⟨r', hr', hid, hpending, hdue, hperiod⟩, -, hnotice⟩ := h.claims n p hp c hc
  obtain rfl := Table.eq_of_key hr' hr (hid.trans hcid)
  refine ⟨hpending, ?_⟩
  rw [hperiod, hdue, hid]
  exact hnotice htold

/-- A pass starts, and claims what its query selects: items that wait, each with the
period it waits in. -/
theorem Inv.query {pass : ℕ} {column : SlaColumn} {now : ℤ} (h : s.Inv) :
    Inv { s with passes := s.setPass pass (some {
      column, now, told := false
      claims := (slaCandidates s.items column now).map fun r => ⟨r, s.period r.id⟩ }) } where
  claims n p hp c hc := by
    rcases setPass_some hp with ⟨-, hp⟩ | hp
    · cases hp
      obtain ⟨r, hr, rfl⟩ := List.mem_map.1 hc
      obtain ⟨hr, hsel⟩ := mem_slaCandidates hr
      obtain ⟨hpending, -, hdue⟩ := SlaColumn.selects_spec hsel
      exact ⟨⟨r, hr, rfl, hpending, rfl, rfl⟩, hdue, fun htold => by cases htold⟩
    · exact h.claims n p hp c hc
  marks := h.marks
  sent := h.sent

/-- The pass sends its notices and keeps the claims that they cover; every claim that is
kept is then told. -/
theorem Inv.notices {pass : ℕ} {covers : SlaClaim → Bool} (h : s.Inv)
    (hp : s.passes pass = some p) : Inv { s with
      passes := s.setPass pass (some { p with claims := p.claims.filter covers, told := true })
      sent := s.sent ++ (p.claims.filter covers).map fun c => c.notice p.column } where
  claims n q hq c hc := by
    rcases setPass_some hq with ⟨-, hq⟩ | hq
    · cases hq
      refine (h.claims pass p hp c (List.mem_filter.1 hc).1).of_items rfl
        (fun r hr hpending _ => ⟨r, hr, rfl, hpending, rfl⟩)
        (fun _ hn => List.mem_append_left _ hn) rfl fun _ => Or.inr ?_
      exact List.mem_append_right _ (List.mem_map.2 ⟨c, hc, rfl⟩)
    · exact (h.claims n q hq c hc).of_items rfl (fun r hr hpending _ => ⟨r, hr, rfl, hpending, rfl⟩)
        (fun _ hn => List.mem_append_left _ hn) rfl Or.inl
  marks r hr hpending column hmark := List.mem_append_left _ (h.marks r hr hpending column hmark)
  sent n hn := by
    rcases List.mem_append.1 hn with hn | hn
    · exact h.sent n hn
    · obtain ⟨c, hc, rfl⟩ := List.mem_map.1 hn
      exact (h.claims pass p hp c (List.mem_filter.1 hc).1).2.1

/-- A pass that has sent its notices marks the items of one type that it claimed, each in the
period of its notice. -/
theorem Inv.mark {pass : ℕ} {type : ApprovalType} (h : s.Inv) (hp : s.passes pass = some p)
    (htold : p.told = true) :
    Inv { s with
      items := s.markSla p type
      passes := s.setPass pass (some { p with
        claims := p.claims.filter fun c => c.row.type ≠ type }) } where
  claims n q hq c hc := by
    have hkeeps : ∀ r ∈ s.items, r.status = .pending → r.dueAt ≠ none → ∃ r' ∈ s.markSla p type,
        r'.id = r.id ∧ r'.status = .pending ∧ r'.dueAt = r.dueAt := by
      intro r hr hpending _
      obtain ⟨hid, hstatus, hdue⟩ := SlaColumn.set_same p.column p.now r
      refine ⟨_, List.mem_map.2 ⟨r, hr, rfl⟩, ?_⟩
      split
      · exact ⟨hid, hstatus.trans hpending, hdue⟩
      · exact ⟨rfl, hpending, rfl⟩
    rcases setPass_some hq with ⟨-, hq⟩ | hq
    · cases hq
      exact (h.claims pass p hp c (List.mem_filter.1 hc).1).of_items rfl hkeeps (fun _ hn => hn) rfl
        Or.inl
    · exact (h.claims n q hq c hc).of_items rfl hkeeps (fun _ hn => hn) rfl Or.inl
  marks r hr hpending column hmark := by
    obtain ⟨r₀, hr₀, rfl⟩ := List.mem_map.1 hr
    dsimp only at hpending hmark ⊢
    split at hpending
    · rename_i hsel
      rw [if_pos hsel] at hmark ⊢
      obtain ⟨hid, hstatus, hdue⟩ := SlaColumn.set_same p.column p.now r₀
      rw [hid, hdue]
      by_cases hcolumn : column = p.column
      · rw [hcolumn]
        exact (h.marks_earned hp htold hr₀ hsel).2
      · have hother : SlaColumn.get column (p.column.set p.now r₀) = SlaColumn.get column r₀ := by
          cases column <;> cases hpc : p.column <;> first | rfl | exact absurd hpc.symm hcolumn
        exact h.marks r₀ hr₀ (hstatus ▸ hpending) column (hother ▸ hmark)
    · rename_i hsel
      rw [if_neg hsel] at hmark ⊢
      exact h.marks r₀ hr₀ hpending column hmark
  sent := h.sent

/-- A pass is over. -/
theorem Inv.finish {pass : ℕ} (h : s.Inv) : Inv { s with passes := s.setPass pass none } where
  claims n q hq c hc := by
    rcases setPass_some hq with ⟨-, hq⟩ | hq
    · cases hq
    · exact h.claims n q hq c hc
  marks := h.marks
  sent := h.sent

/-- A new item starts its first wait without marks, and no pass has claimed its id. -/
theorem Inv.create {row : ApprovalItem} (h : s.Inv) :
    Inv { s with
      items := s.items.create
        (fun id => { row with id := id, remindedAt := none, escalatedAt := none }) fun _ =>
          rfl } where
  claims n q hq c hc :=
    (h.claims n q hq c hc).of_items rfl
      (fun r hr hpending _ => ⟨r, List.mem_append_left _ hr, rfl, hpending, rfl⟩)
        (fun _ hn => hn) rfl
      Or.inl
  marks r hr hpending column hmark := by
    rcases List.mem_append.1 hr with hr | hr
    · exact h.marks r hr hpending column hmark
    · rw [List.mem_singleton.1 hr] at hmark
      cases column <;> exact absurd rfl hmark
  sent := h.sent

/-- Filling in the due times that are missing changes no mark and starts no wait; a claimed item has
its due time already. -/
theorem Inv.fillMissingDueAt {dueAt : ApprovalItem → ℤ} (h : s.Inv) :
    Inv { s with
      items := s.items.updateMany (fun r => r.status = .pending && r.dueAt.isNone)
        (fun r => { r with dueAt := some (dueAt r) }) fun _ => rfl } where
  claims n q hq c hc := by
    refine (h.claims n q hq c hc).of_items rfl (fun r hr hpending hdue => ?_) (fun _ hn => hn) rfl
      Or.inl
    refine ⟨_, List.mem_map.2 ⟨r, hr, rfl⟩, ?_⟩
    rw [if_neg (by simp [hdue])]
    exact ⟨rfl, hpending, rfl⟩
  marks r hr hpending column hmark := by
    obtain ⟨r₀, hr₀, rfl⟩ := List.mem_map.1 hr
    dsimp only at hpending hmark ⊢
    split at hpending
    · rename_i hsel
      rw [if_pos hsel] at hmark
      have hmark₀ : SlaColumn.get column r₀ ≠ none := by cases column <;> exact hmark
      have hnotice := h.marks r₀ hr₀ hpending column hmark₀
      simp only [Bool.and_eq_true, Option.isNone_iff_eq_none] at hsel
      exact absurd hsel.2 (h.sent _ hnotice)
    · rename_i hsel
      rw [if_neg hsel] at hmark ⊢
      exact h.marks r₀ hr₀ hpending column hmark
  sent := h.sent

/-- Every step keeps the marks those of their items' waits, as long as no claimed item is decided
before its pass is over. -/
theorem Inv.step {a : SlaAction} (h : s.Inv) (hmay : s.MayStep a) (hstep : s.step a = some s') :
    s'.Inv := by
  cases a with
  | query pass column now =>
    simp only [SlaState.step] at hstep
    split at hstep
    · cases hstep
    · cases hstep
      exact h.query
  | notices pass covers =>
    simp only [SlaState.step] at hstep
    split at hstep
    · rename_i p hp
      split at hstep
      · cases hstep
      · cases hstep
        exact h.notices hp
    · cases hstep
  | mark pass type =>
    simp only [SlaState.step] at hstep
    split at hstep
    · rename_i p hp
      split at hstep
      · rename_i htold
        cases hstep
        exact h.mark hp htold
      · cases hstep
    · cases hstep
  | finish pass =>
    cases hstep
    exact h.finish
  | create row =>
    cases hstep
    exact h.create
  | decide id approve me note now monthOpen =>
    cases hstep
    refine h.writeRow clocked_decide ?_
    by_cases hcommits : ∃ r ∈ s.items, r.id = id ∧
        ((RowWrite.decide approve me note now monthOpen).write r).isSome = true
    · exact Or.inr (hmay hcommits)
    · refine Or.inl fun r hr hid _ r' hw => absurd ⟨r, hr, hid, ?_⟩ hcommits
      rw [hw]
      rfl
  | reopen id start slaHours monthOpen =>
    cases hstep
    refine h.writeRow clocked_reopen (Or.inl fun r _ _ _ r' hw => ?_)
    obtain ⟨-, -, -, rfl⟩ := ApprovalItem.decide_cases hw
    rfl
  | finishBreak id overrunSec ask start slaHours monthOpen =>
    cases hstep
    refine h.writeRow clocked_finishBreak (Or.inl fun r _ _ hpending r' hw => ?_)
    simp only [RowWrite.finishBreak] at hw
    split at hw
    · obtain ⟨-, ⟨-, -, -, -, -, hp, -⟩ | ⟨-, hstatus, -⟩⟩ := ApprovalItem.finishBreak_cases hw
      · exact hp
      · exact hstatus.trans hpending
    · cases hw
  | fillMissingDueAt dueAt =>
    cases hstep
    exact h.fillMissingDueAt

/-- In every run in which no claimed item is decided before its pass has marked it, an item is
marked only while it waits in the period, and with the due time, that its notice was sent for; and a
waiting item nobody was told about in its period is found by the query once its clock comes due. -/
theorem marks_belong_to_their_period {as : List SlaAction}
    (hmay : Runs.Meets step MayStep .empty as) (hrun : Runs.run step .empty as = some s) :
    (∀ n p type, s.passes n = some p → p.told = true → ∀ r ∈ s.items, p.marks type r = true →
      r.status = .pending ∧ ⟨p.column, r.id, s.period r.id, r.dueAt⟩ ∈ s.sent) ∧
    ∀ r ∈ s.items, r.status = .pending → ∀ column now,
      (⟨column, r.id, s.period r.id, r.dueAt⟩ : SlaNotice) ∉ s.sent →
        r.dueAt.any (SlaColumn.window column now) = true → column.selects now r = true := by
  have hinv : s.Inv :=
    Runs.invariant_run Inv (fun s a s' hs hok hstep => hs.step hok hstep) .empty hmay hrun
  refine ⟨fun n p type hp htold r hr => hinv.marks_earned hp htold hr, ?_⟩
  intro r hr hpending column now hnotice hdue
  have hmark : SlaColumn.get column r = none := by
    by_contra hne
    exact hnotice (hinv.marks r hr hpending column hne)
  simp [SlaColumn.selects, hpending, hmark, hdue]

/-! ## One break -/

/-- A break of Staff that waits until hour 48. -/
def waitingBreak : SlaAction := .create {
  id := 0, type := .brk, userId := 2, date := ⟨0⟩, startedAt := 0, status := .pending
  approverRole := some .manager, dueAt := some 172800000 }

/-- The reminder of hour 40: the query and the notice. -/
def queryHour40 : SlaAction := .query 0 .reminded 144000000

def tellManagers : SlaAction := .notices 0 fun _ => true

/-- Approved, and reopened with a new clock, within the same hour. -/
def approveItem : SlaAction := .decide 0 true 1 none 144000001 true

def reopenItem : SlaAction := .reopen 0 144000002 48 true

/-- Decided and reopened between the notice and the mark, the break is marked as reminded in a
period nobody was told about. -/
theorem reopened_item_is_marked :
    ∃ s p r, Runs.run step .empty [waitingBreak, queryHour40, tellManagers,
      approveItem, reopenItem] =
        some s ∧ s.passes 0 = some p ∧ p.told = true ∧ r ∈ s.items ∧ p.marks .brk r = true ∧
      ⟨p.column, r.id, s.period r.id, r.dueAt⟩ ∉ s.sent :=
  ⟨_, _, { id := 0, type := .brk, userId := 2, date := ⟨0⟩, startedAt := 0, status := .pending
           approverRole := some .manager, dueAt := some 316800002 },
    rfl, rfl, rfl, by decide +kernel, by decide +kernel, by decide +kernel⟩

/-- An item that still waits when the pass marks it is marked in the period that the
notice was for. -/
theorem told_item_is_marked :
    ∃ s, Runs.run step .empty [waitingBreak, queryHour40, tellManagers] = some s ∧
      ∀ p, s.passes 0 = some p → ∀ r ∈ s.items, p.marks .brk r = true →
        ⟨p.column, r.id, s.period r.id, r.dueAt⟩ ∈ s.sent := by
  have hmay : Runs.Meets step MayStep .empty [waitingBreak, queryHour40, tellManagers] :=
    .cons trivial rfl (.cons trivial rfl (.cons trivial rfl trivial))
  refine ⟨_, rfl, fun p hp r hr hmarks => ?_⟩
  have htold : p.told = true := by
    cases hp
    rfl
  exact ((marks_belong_to_their_period hmay rfl).1 0 p .brk hp htold r hr hmarks).2

end SlaState

end RxVision
