import RxVision.Lib.ReadCommitted
import RxVision.Records.Breaks

/-!
# The break transactions, statement by statement

The transactions of `Records/Breaks.lean` as the database runs them: each statement reads what is
committed at that moment, and every update by id is written whatever has happened to the row since
it was read. `startScheduled`, `startQuick`, `pause`, `resume` and `endDay` take the row lock of the
person's `users` row first; `markEnded` and `endPausedTx` take no lock. `endExpiredPaused` and
`endPaused` look up the paused breaks and run `endPausedTx` for each in a transaction of its own, so
an interleaving of theirs is one of `endPausedTx` for the breaks they found.

In `Transaction.effect` the first argument gives the tables each statement reads, in the order of
the statements; `c` are the tables the transaction commits to. Run alone, each is the function of
`Records/Breaks.lean` (`BreakTx.tx_alone`).
-/

namespace RxVision

open ReadCommitted

/-! ## What the transactions read -/

/-- A break as it is read (`WITH_SESSION`): the record with its presence session, and its segments
with theirs. -/
structure BreakView where
  record : BreakRecord
  presence : Option PresenceSession
  segments : List (BreakSegment × Option PresenceSession)
  deriving DecidableEq

namespace Db

/-- The break `r` with its sessions and segments. -/
def viewOf (db : Db) (r : BreakRecord) : BreakView where
  record := r
  presence := db.presenceOf r.presenceSessionId
  segments := (db.breakSegments.rows.filter fun g => g.breakRecordId = r.id).map fun g =>
    (g, db.presenceOf g.presenceSessionId)

/-- The break `id` with its sessions and segments. -/
def breakView (db : Db) (id : ℕ) : Option BreakView :=
  (db.breakRecords.find? fun r => r.id = id).map db.viewOf

end Db

namespace BreakView

/-- A segment as it is read: its times are its presence session's when it still has one. -/
def rowOf : BreakSegment × Option PresenceSession → BreakSegmentRow
  | (_, some p) => ⟨p.startedAt, p.endedAt⟩
  | (g, none) => ⟨g.startedAt, g.endedAt⟩

/-- `breakRowFromPrisma`: the end of the break. -/
def breakEnd (v : BreakView) : Option ℤ :=
  match v.presence with
  | some p => p.endedAt
  | none => some v.record.startedAt

/-- `segmentsOf`. -/
def segmentsOf (v : BreakView) : List BreakSegmentRow :=
  match v.segments.map rowOf with
  | [] => if v.record.outcome ≠ .taken then [] else [⟨v.record.startedAt, v.breakEnd⟩]
  | segments => segments

/-- `takenSecOf`. -/
def takenSecOf (v : BreakView) (now : ℤ) : ℤ :=
  (v.segmentsOf.map fun g => max 0 (g.endedAt.getD now - g.startedAt)).sum / 1000

/-- The break is running (`pause`). -/
def isRunning (v : BreakView) : Bool :=
  v.record.state ≠ .paused ∧ v.record.presenceSessionId.isSome ∧
    (v.presence.bind PresenceSession.endedAt).isNone

/-- The last segment end of the break, else its start (`endPausedTx`). -/
def lastEnd (v : BreakView) : ℤ :=
  Spans.lastOr ((v.segments.map rowOf).filterMap BreakSegmentRow.endedAt) v.record.startedAt

end BreakView

/-! ## What they write -/

namespace Db

/-- Closes the presence session that was read as `p`, when it was read open. -/
def closeRead (db : Db) (p : Option PresenceSession) (t : ℤ) : Db :=
  match p with
  | some p => if p.endedAt.isNone then db.closePresence p.id t else db
  | none => db

/-- A segment that `closeSegments` ends. -/
def segmentEndedAt (t : ℤ) (g : BreakSegment) : BreakSegment := { g with endedAt := some t }

/-- `breakSegment.updateMany`: closes the segments of the break `id` that were open in
`read` and are still open. -/
def closeSegmentsRead (db read : Db) (id : ℕ) (t : ℤ) : Db :=
  { db with
    breakSegments := db.breakSegments.updateMany
      (fun g => g.breakRecordId = id ∧ g.endedAt.isNone ∧
        read.breakSegments.rows.any fun h => h.id = g.id ∧ h.endedAt.isNone)
      (segmentEndedAt t) fun _ => rfl }

/-- A presence session that `closeOpenPresence` closes. -/
def presenceClosedAt (t : ℤ) (p : PresenceSession) : PresenceSession :=
  let stop := if t < p.startedAt then p.startedAt else t
  { p with endedAt := some stop, durationSec := some (elapsedSec p.startedAt stop) }

/-- Closing a presence session keeps its id. -/
theorem presenceClosedAt_id (t : ℤ) (p : PresenceSession) : (presenceClosedAt t p).id = p.id := rfl

/-- `closeOpenPresence`: closes the presence sessions that were open in `read`. -/
def closePresenceRead (db read : Db) (t : ℤ) : Db :=
  { db with
    presence := db.presence.updateMany
      (fun p => read.presence.rows.any fun q => q.id = p.id ∧ q.endedAt.isNone)
      (presenceClosedAt t) (presenceClosedAt_id t) }

/-- The record of a break that is paused. -/
def pauses (r : BreakRecord) : BreakRecord := { r with state := .paused }

/-- The record of a break that goes on in the presence session `id`. -/
def resumes (id : ℕ) (r : BreakRecord) : BreakRecord :=
  { r with state := .active, presenceSessionId := some id }

/-- The record of a break that ends at `stop`. -/
def endsAt (stop taken : ℤ) (r : BreakRecord) : BreakRecord :=
  { r with state := .ended, endedAt := some stop, takenSec := some taken }

/-- The update at the end of `endPausedTx`, from the break as it was read. -/
def endPausedRead (db : Db) (v : Option BreakView) (id : ℕ) (now : ℤ) : Db :=
  match v with
  | some v =>
    if v.record.state ≠ .paused then db
    else db.updateBreak id (endsAt v.lastEnd (v.takenSecOf now)) fun _ => rfl
  | none => db

end Db

/-! ## The transactions -/

namespace Tx

/-- `startScheduled`. -/
def startScheduled (monthOpen : DateKey → Bool) (record : NewBreakRecord) (calendarDay : DateKey)
    (now : ℤ) : Transaction Db where
  locks := true
  reads := 3
  effect r c :=
    let opens := fun db : Db =>
      if record.approvalStatus = .pending ∧ ¬ monthOpen record.date then c
      else
        match (r 2).openPresence with
        | some p =>
          if p.type ≠ .meeting then db
          else ((db.closePresence p.id now).createBreak (Db.scheduledRow record) calendarDay now).2
        | none => (db.createBreak (Db.scheduledRow record) calendarDay now).2
    if ((r 0).workDayEnds calendarDay).isSome then c
    else
      match (r 1).takenBreak record with
      | some taken =>
        if ¬ isReplaceableAutoSkip taken now then c else opens (c.deleteBreak taken.id)
      | none => opens c

/-- `startQuick`. -/
def startQuick (input : NewQuickBreak) : Transaction Db where
  locks := true
  reads := 4
  effect r c :=
    if ((r 0).workDayEnds input.calendarDay).isSome then c
    else if (r 1).findOpen.isNone then c
    else
      match (r 2).openPresence with
      | some _ => c
      | none =>
        (c.createBreak
          { id := 0
            date := input.date
            kind := some .quick
            seq := ((r 3).breakRecords.rows.filter fun b =>
              b.date = input.date ∧ b.kind = some .quick).length + 1
            presenceType := .brk
            startedAt := input.startedAt
            plannedMin := some input.plannedMin } input.calendarDay input.startedAt).2

/-- `pause`. -/
def pause (id : ℕ) (now : ℤ) : Transaction Db where
  locks := true
  reads := 3
  effect r c :=
    match (r 0).breakView id with
    | none => c
    | some v =>
      if v.record.kind = some .quick ∨ v.record.kind = none then c
      else if ¬ v.isRunning then c
      else
        ((c.closeRead ((r 1).presenceOf v.record.presenceSessionId) now).closeSegmentsRead (r 2) id
          now).updateBreak id Db.pauses fun _ => rfl

/-- `resume`. -/
def resume (id : ℕ) (now : ℤ) (calendarDay : DateKey) : Transaction Db where
  locks := true
  reads := 4
  effect r c :=
    match (r 0).breakView id with
    | none => c
    | some v =>
      if v.record.state ≠ .paused then c
      else if v.record.windowClose.any fun close => now > close then
        c.endPausedRead ((r 1).breakView id) id now
      else if ((r 1).workDayEnds calendarDay).isSome then c
      else if (r 2).findOpen.isNone then c
      else
        match (r 3).openPresence with
        | some _ => c
        | none =>
          (c.openSegment id v.record.presenceType calendarDay now).updateBreak id
            (Db.resumes c.presence.next) fun _ => rfl

/-- `endPausedTx`, in a transaction of its own. -/
def endPausedTx (id : ℕ) (now : ℤ) : Transaction Db where
  locks := false
  reads := 1
  effect r c := c.endPausedRead ((r 0).breakView id) id now

/-- `markEnded`. -/
def markEnded (id : ℕ) (t : ℤ) : Transaction Db where
  locks := false
  reads := 4
  effect r c :=
    match (r 0).breakView id with
    | none => c
    | some v =>
      if v.record.state = .paused then c.endPausedRead ((r 1).breakView id) id t
      else if v.record.state = .ended ∧ v.record.endedAt.isSome then c
      else
        let closes := fun db : Db =>
          (db.closeRead ((r 1).presenceOf v.record.presenceSessionId)
            t).closeSegmentsRead (r 2) id t
        -- the last read sees the rows this transaction has written
        match (closes (r 3)).breakView id with
        | some fresh =>
          (closes c).updateBreak id (Db.endsAt (fresh.breakEnd.getD t) (fresh.takenSecOf t))
            fun _ => rfl
        | none => c

/-- `endDay`. -/
def endDay (calendarOf : DayKeyFn) (now : ℤ) (today : DateKey) (legacy : Bool) :
    Transaction Db where
  locks := true
  reads := 4
  effect r c :=
    match (r 0).findOpen with
    | some s =>
      { (c.closeDay calendarOf s now today).2 with
        presence := (c.closePresenceRead (r 1)
          (if now < s.startedAt then s.startedAt else now)).presence }
    | none =>
      match (r 1).workDayEnds today with
      | some _ => c
      | none =>
        match ((r 2).workSessions.findLast? (fun s => s.date = today ∧ s.endedAt.isSome)
            fun s => s.endedAt.getD 0).bind WorkSession.endedAt with
        | some e => c.markDayEnded today e
        | none =>
          if legacy then
            let calendar := calendarOf now
            let marked := (c.closePresenceRead (r 3) now).markDayEnded today now
            if calendar ≠ today then marked.markDayEnded calendar now else marked
          else c

end Tx

/-- The transactions that start, pause, resume and end a person's breaks. A break runs a presence
session of type `BREAK` or `LUNCH` (`BreakPresenceType`). -/
inductive BreakTx
  | startScheduled (record : NewBreakRecord) (hbreak : record.presenceType ≠ .meeting)
      (calendarDay : DateKey) (now : ℤ)
  | startQuick (input : NewQuickBreak)
  | pause (id : ℕ) (now : ℤ)
  | resume (id : ℕ) (now : ℤ) (calendarDay : DateKey)
  | markEnded (id : ℕ) (t : ℤ)
  | endPausedTx (id : ℕ) (now : ℤ)
  | endDay (now : ℤ) (today : DateKey) (legacy : Bool) (endedSince : ℤ)

namespace BreakTx

variable (monthOpen : DateKey → Bool) (calendarOf : DayKeyFn)

/-- The statements of a transaction. -/
def tx : BreakTx → Transaction Db
  | startScheduled record _ calendarDay now => Tx.startScheduled monthOpen record calendarDay now
  | startQuick input => Tx.startQuick input
  | pause id now => Tx.pause id now
  | resume id now calendarDay => Tx.resume id now calendarDay
  | markEnded id t => Tx.markEnded id t
  | endPausedTx id now => Tx.endPausedTx id now
  | endDay now today legacy _ => Tx.endDay calendarOf now today legacy

/-- What a transaction leaves of the tables, as one step. -/
def apply : BreakTx → Db → Db
  | startScheduled record _ calendarDay now, db =>
    (db.startScheduled monthOpen record calendarDay now).2
  | startQuick input, db => (db.startQuick input).2
  | pause id now, db => (db.pause id now).2
  | resume id now calendarDay, db => (db.resume id now calendarDay).2
  | markEnded id t, db => (db.markEnded id t).2
  | endPausedTx id now, db => (db.endPausedTx id now).2
  | endDay now today legacy endedSince, db => (db.endDay calendarOf now today legacy endedSince).2

end BreakTx

/-! ## Run alone -/

namespace Db

variable {db : Db} {id : ℕ} {r : BreakRecord} {t : ℤ}

/-- The segments of a break are those of its view. -/
theorem breakSegmentsOf_eq :
    db.breakSegmentsOf r.id = (db.viewOf r).segments.map BreakView.rowOf := by
  rw [breakSegmentsOf, viewOf, List.map_map]
  refine List.map_congr_left fun g _ => ?_
  cases h : db.presenceOf g.presenceSessionId <;> simp [BreakView.rowOf, h]

/-- The end of a break is that of its view. -/
theorem breakEnd_eq : db.breakEnd r = (db.viewOf r).breakEnd := rfl

/-- So are the spans of its segments. -/
theorem segmentsOf_eq : db.segmentsOf r = (db.viewOf r).segmentsOf := by
  rw [segmentsOf, breakSegmentsOf_eq, breakEnd_eq]
  rfl

/-- So are the seconds it took. -/
theorem takenSecOf_eq : db.takenSecOf r t = (db.viewOf r).takenSecOf t := by
  rw [takenSecOf, segmentsOf_eq]
  rfl

/-- The break found by its id has that id. -/
theorem id_of_find? (h : (db.breakRecords.find? fun r => r.id = id) = some r) : r.id = id := by
  simpa using Table.find?_spec h

/-- The view of a break that is found. -/
theorem breakView_of_find? (h : (db.breakRecords.find? fun r => r.id = id) = some r) :
    db.breakView id = some (db.viewOf r) := by
  rw [breakView, h]
  rfl

/-- Ending a paused break with nothing else going on is the operation in one piece: it
reads what is stored. -/
theorem endPausedRead_alone :
    db.endPausedRead (db.breakView id) id t = (db.endPausedTx id t).2 := by
  unfold breakView endPausedTx
  cases h : db.breakRecords.find? fun r => r.id = id with
  | none => rfl
  | some r =>
    obtain rfl := id_of_find? h
    dsimp only [Option.map_some, endPausedRead]
    rw [breakSegmentsOf_eq, takenSecOf_eq]
    change (if r.state ≠ .paused then db else _) = _
    split <;> rfl

/-- Closing a presence session that was read leaves the breaks. -/
@[simp] theorem closeRead_breakRecords {p : Option PresenceSession} :
    (db.closeRead p t).breakRecords = db.breakRecords := by
  unfold closeRead
  split
  · split <;> rfl
  · rfl

/-- It leaves the segments. -/
@[simp] theorem closeRead_breakSegments {p : Option PresenceSession} :
    (db.closeRead p t).breakSegments = db.breakSegments := by
  unfold closeRead
  split
  · split <;> rfl
  · rfl

/-- Segments that are read as they are: the open ones close. -/
theorem closeSegmentsRead_eq {read : Db} (h : read.breakSegments = db.breakSegments) :
    db.closeSegmentsRead read id t = db.closeSegments id t := by
  unfold closeSegmentsRead closeSegments
  congr 1
  refine Table.updateMany_congr fun g hg => ?_
  simp only [decide_eq_decide, List.any_eq_true, decide_eq_true_eq]
  exact ⟨fun hg => ⟨hg.1, hg.2.1⟩, fun hg' => ⟨hg'.1, hg'.2, g, h ▸ hg, rfl, hg'.2⟩⟩

/-- Closing what was read open closes what is open, with nothing else going on. -/
theorem closePresenceRead_alone : db.closePresenceRead db t = db.closeOpenPresence t := by
  unfold closePresenceRead closeOpenPresence
  congr 1
  refine Table.updateMany_congr fun p hp => ?_
  rw [Bool.eq_iff_iff]
  simp only [List.any_eq_true, decide_eq_true_eq]
  constructor
  · rintro ⟨q, hq, hid, hopen⟩
    rwa [← Table.eq_of_key (t := db.presence) hq hp hid]
  · exact fun h => ⟨p, hp, rfl, h⟩

end Db

namespace Tx

variable {db : Db} {id : ℕ} {now t : ℤ} {calendarDay : DateKey}

/-- With nothing else going on, starting a scheduled break is the operation in one piece. -/
theorem startScheduled_alone {monthOpen : DateKey → Bool} {record : NewBreakRecord} :
    (startScheduled monthOpen record calendarDay now).alone db =
      (db.startScheduled monthOpen record calendarDay now).2 := by
  simp only [Transaction.alone, startScheduled, Db.startScheduled, Db.openScheduled]
  cases db.takenBreak record with
  | none =>
    simp only [apply_ite Prod.snd]
    cases db.openPresence with
    | none => rfl
    | some p =>
      simp only [apply_ite Prod.snd]
  | some taken =>
    simp only [apply_ite Prod.snd]
    have hopen : (db.deleteBreak taken.id).openPresence = db.openPresence := rfl
    rw [hopen]
    cases db.openPresence with
    | none => rfl
    | some p =>
      simp only [apply_ite Prod.snd]

/-- So is a quick break. -/
theorem startQuick_alone {input : NewQuickBreak} :
    (startQuick input).alone db = (db.startQuick input).2 := by
  simp only [Transaction.alone, startQuick, Db.startQuick, apply_ite Prod.snd]
  cases db.openPresence <;> rfl

/-- What `pause` and `markEnded` close, when they read the break as it is. -/
theorem closes_alone {session : Option ℕ} :
    (db.closeRead (db.presenceOf session) t).closeSegmentsRead db id t =
      (db.closeOwnPresence session t).closeSegments id t :=
  Db.closeSegmentsRead_eq Db.closeRead_breakSegments.symm

/-- So is a pause. -/
theorem pause_alone : (pause id now).alone db = (db.pause id now).2 := by
  simp only [Transaction.alone, pause, Db.pause, Db.breakView, closes_alone]
  cases h : db.breakRecords.find? fun r => r.id = id with
  | none => rfl
  | some r =>
    simp only [Option.map_some, apply_ite Prod.snd]
    rfl

/-- So is a resumption. -/
theorem resume_alone : (resume id now calendarDay).alone db = (db.resume id now calendarDay).2 := by
  simp only [Transaction.alone, resume, Db.resume, Db.endPausedRead_alone]
  unfold Db.breakView
  cases h : db.breakRecords.find? fun r => r.id = id with
  | none => rfl
  | some r =>
    simp only [Option.map_some, apply_ite Prod.snd]
    cases db.openPresence <;> rfl

/-- With nothing else going on, the end of a break is the operation in one piece. -/
theorem markEnded_alone : (markEnded id t).alone db = (db.markEnded id t).2 := by
  simp only [Transaction.alone, markEnded, Db.markEnded, Db.endPausedRead_alone, closes_alone]
  cases h : db.breakRecords.find? fun r => r.id = id with
  | none =>
    rw [Db.breakView, h]
    rfl
  | some r =>
    -- the closes leave the record itself as it was read
    have hfind :
      (((db.closeOwnPresence r.presenceSessionId t).closeSegments id t).breakRecords.find?
        fun b => b.id = id) = some r := by
      rw [← closes_alone]
      exact (congrArg (fun tbl : Table BreakRecord.id => tbl.find? fun b => b.id = id)
        Db.closeRead_breakRecords).trans h
    have hview := Db.breakView_of_find? hfind
    have hrecord : (db.viewOf r).record = r := rfl
    simp only [Db.breakView_of_find? h, hrecord, hview, apply_ite Prod.snd, Db.takenSecOf_eq]
    rfl

/-- With nothing else going on, the end of the day is the operation in one piece. -/
theorem endDay_alone {calendarOf : DayKeyFn} {today : DateKey} {legacy : Bool} {endedSince : ℤ} :
    (endDay calendarOf now today legacy).alone db =
      (db.endDay calendarOf now today legacy endedSince).2 := by
  simp only [Transaction.alone, endDay, Db.endDay, Db.closePresenceRead_alone]
  cases db.findOpen with
  | some s =>
    simp only [Db.closeDay]
    split <;> split <;> rfl
  | none =>
    cases db.workDayEnds today with
    | some e => rfl
    | none =>
      cases h : (db.workSessions.findLast? (fun s => s.date = today ∧ s.endedAt.isSome)
          fun s => s.endedAt.getD 0).bind WorkSession.endedAt with
      | some e => rfl
      | none =>
        simp only [apply_ite Prod.snd]
        split
        · rfl
        · cases db.workSessions.findLast? (fun s => s.endedAt.any fun e => e ≥ endedSince)
            fun s => s.endedAt.getD 0 <;> rfl

end Tx

namespace BreakTx

variable {monthOpen : DateKey → Bool} {calendarOf : DayKeyFn}

/-- A transaction that runs alone is the one step of `Records/Breaks.lean`, so the two
models agree there. -/
theorem tx_alone (t : BreakTx) (db : Db) :
    (t.tx monthOpen calendarOf).alone db = t.apply monthOpen calendarOf db := by
  cases t with
  | startScheduled record _ calendarDay now => exact Tx.startScheduled_alone
  | startQuick input => exact Tx.startQuick_alone
  | pause id now => exact Tx.pause_alone
  | resume id now calendarDay => exact Tx.resume_alone
  | markEnded id t => exact Tx.markEnded_alone
  | endPausedTx id now => exact Db.endPausedRead_alone
  | endDay now today legacy _ => exact Tx.endDay_alone

end BreakTx

end RxVision
