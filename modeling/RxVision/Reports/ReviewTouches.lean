import RxVision.Records.Reviews
import RxVision.Reports.Touches

/-!
# What decisions and skips touch

The same as `RecordOp.touches`, for `ReviewOp`. A decision always asks for the month of its record.
-/

namespace RxVision

namespace Db

variable {db : Db} {T : Touches} {monthOpen : DateKey → Bool}

/-- The break `id`, when its month is open or it does not wait for approval. -/
def changeBreakTouches (db : Db) (monthOpen : DateKey → Bool) (routed : Bool) (id : ℕ) : Touches :=
  ⟨fun d => ∃ r ∈ db.breakRecords, r.id = id ∧
    ((routed = true ∨ r.approvalStatus = .pending) → monthOpen r.date) ∧ d = r.date, fun _ => False⟩

/-- An update of some breaks that keeps their dates touches those dates; breaks of other dates
are the old rows. -/
theorem within_updateBreaks {p : BreakRecord → Bool} {f : BreakRecord → BreakRecord}
    {hf : ∀ r, (f r).id = r.id} (hdate : ∀ r, (f r).date = r.date)
    (h : ∀ r ∈ db.breakRecords, p r = true → T.dates r.date) :
    db.Within T { db with breakRecords := db.breakRecords.updateMany p f hf } :=
  { Within.refl T db with
    breakRecords := fun _ hr => Table.mem_updateMany_outside hf (R := fun r => T.dates r.date)
      (fun r hr hp => ⟨h r hr hp, (hdate r).symm ▸ h r hr hp⟩) hr }

/-- An update of some away time that keeps its dates touches those dates; away time of other
dates is the old rows. -/
theorem within_updateAway {p : AwayEvent → Bool} {f : AwayEvent → AwayEvent}
    {hf : ∀ a, (f a).id = a.id} (hdate : ∀ a, (f a).date = a.date)
    (h : ∀ a ∈ db.away, p a = true → T.dates a.date) :
    db.Within T { db with away := db.away.updateMany p f hf } :=
  { Within.refl T db with
    away := fun _ ha => Table.mem_updateMany_outside hf (R := fun a => T.dates a.date)
      (fun a ha hp => ⟨h a ha hp, (hdate a).symm ▸ h a ha hp⟩) ha }

/-- A row found by its id is the one with that id. -/
theorem eq_of_find? {ρ : Type*} {key : ρ → ℕ} {t : Table key} {id : ℕ} {r r' : ρ}
    (h : (t.find? fun r => key r = id) = some r) (hr : r' ∈ t) (hid : key r' = id) : r' = r := by
  have hkey : key r = id := by simpa using Table.find?_spec h
  exact Table.eq_of_key hr (Table.mem_of_find? h) (hid.trans hkey.symm)

/-! ## Decisions -/

/-- A decision on a break touches its date, in an open month only: `decide` asks for the month of
every item it finds. -/
theorem within_decideBreak {id : ℕ} {expected : List BreakApprovalStatus}
    {status : BreakApprovalStatus} :
    db.Within ⟨fun d => db.IsDayOfBreak id d ∧ monthOpen d = true, fun _ => False⟩
      (db.decideBreak monthOpen id expected status) := by
  unfold decideBreak
  split
  · exact .refl _ db
  · next found hfound =>
    split
    · exact .refl _ db
    · next hmonth =>
      refine within_updateBreaks ?_ fun r hr hsel => ?_
      · exact fun _ => rfl
      · have hid : r.id = id ∧ r.approvalStatus ∈ expected := of_decide_eq_true hsel
        refine ⟨⟨r, hr, hid.1, rfl⟩, ?_⟩
        rw [eq_of_find? hfound hr hid.1]
        simpa using hmonth

/-- A decision on a meeting touches its date, in an open month only; a meeting that is still
running is not decided. -/
theorem within_decideMeeting {id : ℕ} {expected : List BreakApprovalStatus}
    {status : BreakApprovalStatus} :
    db.Within ⟨fun d => (∃ m ∈ db.meetings, m.id = id ∧ d = m.date) ∧ monthOpen d = true,
      fun _ => False⟩ (db.decideMeeting monthOpen id expected status) := by
  unfold decideMeeting
  split
  · exact .refl _ db
  · next found hfound =>
    split
    · exact .refl _ db
    · next hmonth =>
      split
      · exact .refl _ db
      · refine within_updateMeetings ?_ fun m hm hsel => ?_
        · exact fun _ => rfl
        · have hid : m.id = id ∧ m.approvalStatus ∈ expected := of_decide_eq_true hsel
          refine ⟨⟨m, hm, hid.1, rfl⟩, ?_⟩
          rw [eq_of_find? hfound hm hid.1]
          simpa using hmonth

/-- A decision on away time touches its date, in an open month only. -/
theorem within_decideAway {id : ℕ} {expected : List AwayStatus} {status : AwayStatus} :
    db.Within ⟨fun d => (∃ a ∈ db.away, a.id = id ∧ d = a.date) ∧ monthOpen d = true,
      fun _ => False⟩ (db.decideAway monthOpen id expected status) := by
  unfold decideAway
  split
  · exact .refl _ db
  · next found hfound =>
    split
    · exact .refl _ db
    · next hmonth =>
      refine within_updateAway ?_ fun a ha hsel => ?_
      · exact fun _ => rfl
      · have hid : a.id = id ∧ a.status ∈ expected := of_decide_eq_true hsel
        refine ⟨⟨a, ha, hid.1, rfl⟩, ?_⟩
        rw [eq_of_find? hfound ha hid.1]
        simpa using hmonth

/-! ## Changes of a record -/

/-- Recording an overrun touches the break's date, unless it is to wait in a locked month, and
leaves the overruns of all other breaks. -/
theorem within_finishBreak {overruns : ℕ → Overrun} {id : ℕ} {overrunSec : ℤ}
    {ask : Option OverrunAsk} :
    db.Within (db.changeBreakTouches monthOpen (ask.bind OverrunAsk.routing).isSome id)
        (db.finishBreak monthOpen overruns id overrunSec ask).1 ∧
      ∀ r ∈ db.breakRecords,
        ¬ (db.changeBreakTouches monthOpen (ask.bind OverrunAsk.routing).isSome id).dates r.date →
        (db.finishBreak monthOpen overruns id overrunSec ask).2 r.id = overruns r.id := by
  unfold finishBreak
  split
  · exact ⟨.refl _ db, fun _ _ _ => rfl⟩
  · next current hcurrent =>
    dsimp only
    split
    · exact ⟨.refl _ db, fun _ _ _ => rfl⟩
    · next hmonth =>
      have hask : ∀ r ∈ db.breakRecords, r.id = id → (db.changeBreakTouches monthOpen
          (ask.bind OverrunAsk.routing).isSome id).dates r.date := by
        intro r hr hid
        refine ⟨r, hr, hid, fun hp => ?_, rfl⟩
        rw [eq_of_find? hcurrent hr hid] at hp ⊢
        rw [not_and, not_not] at hmonth
        exact hmonth hp
      refine ⟨?_, fun r hr hd => Function.update_of_ne (fun hid => hd (hask r hr hid)) ..⟩
      split
      · refine within_updateBreaks ?_ fun r hr hsel => hask r hr (of_decide_eq_true hsel)
        exact fun _ => rfl
      · exact .refl _ db

/-- A comment touches the break's date. A skip that begins to wait with the comment does so in
an open month only. -/
theorem within_addComment {id : ℕ} {comment : String} :
    db.Within (db.changeBreakTouches monthOpen false id) (db.addComment monthOpen id comment) := by
  unfold addComment
  split
  · exact .refl _ db
  · next current hcurrent =>
    split
    · exact .refl _ db
    · next hmonth =>
      refine within_updateBreaks ?_ fun r hr hsel => ?_
      · exact fun _ => rfl
      · have hid : r.id = id := (of_decide_eq_true hsel).1
        refine ⟨r, hr, hid, fun hp => ?_, rfl⟩
        rw [eq_of_find? hcurrent hr hid] at hp ⊢
        rw [not_and, not_not] at hmonth
        exact hmonth (hp.resolve_left Bool.false_ne_true)

/-! ## Records without a break -/

/-- A record of the day `record.date`, when its month is open or it needs no approval. -/
def insertTouches (monthOpen : DateKey → Bool) (record : NewBreakRecord) : Touches :=
  ⟨fun d => d = record.date ∧ (record.approvalStatus = .pending → monthOpen d), fun _ => False⟩

/-- A skip, and the session that an older agent's skip opens. -/
def createSkipTouches (db : Db) (monthOpen : DateKey → Bool) (record : NewBreakRecord)
    (generation : AgentGeneration) (today : DateKey) : Touches :=
  ⟨fun d => (d = record.date ∧ (record.approvalStatus = .pending → monthOpen d)) ∨
    (db.findOpen = none ∧ generation = .legacy ∧ d = today), fun _ => False⟩

/-- A skip that is inserted touches its date. -/
theorem within_insertSkip {record : NewBreakRecord} {outcome : BreakOutcome}
    (h : T.dates record.date) : db.Within T (db.insertSkip record outcome) :=
  { Within.refl T db with
    breakRecords := fun _ hr => Table.mem_create_outside (fun _ => rfl)
      (R := fun r => T.dates r.date) h hr }

/-- A skip touches its date, unless it waits in a locked month, and today when an older agent
opens a session with it. -/
theorem within_createSkip {record : NewBreakRecord} {generation : AgentGeneration} {now : ℤ}
    {today : DateKey} :
    db.Within (db.createSkipTouches monthOpen record generation today)
      (db.createSkip monthOpen record generation now today) := by
  unfold createSkip
  split
  · exact .refl _ db
  · split
    · exact .refl _ db
    · split
      · exact .refl _ db
      · split
        · exact .refl _ db
        · next hmonth =>
          have hopen : db.Within (db.createSkipTouches monthOpen record generation today)
              (db.ensureOpenTx generation now today).2 :=
            within_ensureOpenTx.mono (fun _ h => Or.inr h) fun _ h => h
          split
          · exact .refl _ db
          · next heq =>
            rw [heq] at hopen
            refine hopen.trans (within_insertSkip (Or.inl ⟨rfl, fun hp => ?_⟩))
            simpa [hp] using hmonth

/-- An automatic skip touches its date; one that waits for a decision is left out when the month of
the date is locked. -/
theorem within_createAutoSkip {record : NewBreakRecord} :
    db.Within (insertTouches monthOpen record) (db.createAutoSkip monthOpen record) := by
  unfold createAutoSkip
  split
  · exact .refl _ db
  · next hmonth =>
    split
    · exact .refl _ db
    · refine within_insertSkip ⟨rfl, fun hp => ?_⟩
      simpa [hp] using hmonth

/-- A break that is made for a presence session touches its date, unless it waits in a locked month.
-/
theorem within_createForSession {record : NewBreakRecord} {presenceSessionId : ℕ} :
    db.Within (insertTouches monthOpen record)
      (db.createForSession monthOpen record presenceSessionId) := by
  unfold createForSession
  split
  · exact .refl _ db
  · next hmonth =>
    split
    · exact .refl _ db
    · have hdate : (insertTouches monthOpen record).dates record.date :=
        ⟨rfl, fun hp => by simpa [hp] using hmonth⟩
      exact { Within.refl _ db with
        breakRecords := fun _ hr => Table.mem_create_outside (fun _ => rfl)
          (R := fun r => (insertTouches monthOpen record).dates r.date) hdate hr
        breakSegments := fun g hg => by
          obtain ⟨r, hr, hid, -⟩ := hg
          refine Table.mem_create_outside (fun _ => rfl)
            (R := fun g => g.breakRecordId = db.breakRecords.next) rfl ?_
          rw [← hid]
          exact Table.key_ne_next hr }

end Db

namespace ReviewOp

/-- What a decision, a change or a skip touches. -/
def touches (db : Db) : ReviewOp → Touches
  | .decideBreak monthOpen id _ _ =>
    ⟨fun d => db.IsDayOfBreak id d ∧ monthOpen d = true, fun _ => False⟩
  | .decideMeeting monthOpen id _ _ =>
    ⟨fun d => (∃ m ∈ db.meetings, m.id = id ∧ d = m.date) ∧ monthOpen d = true, fun _ => False⟩
  | .decideAway monthOpen id _ _ =>
    ⟨fun d => (∃ a ∈ db.away, a.id = id ∧ d = a.date) ∧ monthOpen d = true, fun _ => False⟩
  | .finishBreak monthOpen id _ ask =>
    db.changeBreakTouches monthOpen (ask.bind OverrunAsk.routing).isSome id
  | .addComment monthOpen id _ => db.changeBreakTouches monthOpen false id
  | .createSkip monthOpen record generation _ today =>
    db.createSkipTouches monthOpen record generation today
  | .createAutoSkip monthOpen record | .createForSession monthOpen record _ =>
    Db.insertTouches monthOpen record

/-- An operation of the reviewers stays within what it touches, in the tables and in the overrun
columns kept beside them. -/
theorem within_run {db : Db} {overruns : ℕ → Overrun} (op : ReviewOp) :
    db.Within (op.touches db) (op.run db overruns).1 ∧
      ∀ r ∈ db.breakRecords, ¬ (op.touches db).dates r.date →
        (op.run db overruns).2 r.id = overruns r.id := by
  cases op with
  | decideBreak => exact ⟨Db.within_decideBreak, fun _ _ _ => rfl⟩
  | decideMeeting => exact ⟨Db.within_decideMeeting, fun _ _ _ => rfl⟩
  | decideAway => exact ⟨Db.within_decideAway, fun _ _ _ => rfl⟩
  | finishBreak => exact Db.within_finishBreak
  | addComment => exact ⟨Db.within_addComment, fun _ _ _ => rfl⟩
  | createSkip => exact ⟨Db.within_createSkip, fun _ _ _ => rfl⟩
  | createAutoSkip => exact ⟨Db.within_createAutoSkip, fun _ _ _ => rfl⟩
  | createForSession => exact ⟨Db.within_createForSession, fun _ _ _ => rfl⟩

end ReviewOp

end RxVision
