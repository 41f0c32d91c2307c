import RxVision.Replay.Handlers

/-!
# A refused action leaves the day as it was

A replayed request may reopen an auto-closed day for its handler, and puts the day back when the
handler refuses. Reopening and putting back are two commits with the handler between them, and
neither looks at what happened since. A run with the refused event is compared here with the same
run without its steps (`refused_leaves_day`): they end with the same tables as long as no other copy
reads or writes the sessions while the event has the day open, and its own copy does not crash then.
-/

namespace RxVision

/-- How far a copy is with a day: it reads about the session it found, closed at `stop`; it decided
to reopen the day; the reopening is committed. -/
inductive Window
  | reading (last : WorkSession) (stop : ℤ)
  | decided (r : Reopened)
  | reopened (r : Reopened)

/-- The window of a copy: from the first read of a reopening until the day is put back. -/
def Phase.window : Phase → Option Window
  | .deciding _ last stop _ => some (.reading last stop)
  | .reopening _ r => some (.decided r)
  | .ready _ (some r) | .handled _ (some r) _ => some (.reopened r)
  | _ => none

/-- A handler that neither reads nor writes the sessions and the End Day marks. -/
def Frames (handler : ℤ → Db → Outcome × Db) : Prop :=
  ∀ t db ws marks, handler t { db with workSessions := ws, workDayEnds := marks } =
    ((handler t db).1, { (handler t db).2 with workSessions := ws, workDayEnds := marks })

/-- Putting the day back undoes its reopening. -/
def Db.PutBack (db : Db) (r : Reopened) : Prop := (db.reopenDay r).restore r = db

/-- How the tables `now` differ in the window from the tables `db` of the run without the event, and
that the day can be put back. -/
def Window.Holds : Window → Db → Db → Prop
  | .reading last stop, now, db =>
    now = db ∧ db.PutBack (last.remembered stop (db.workDayEnds last.date))
  | .decided r, now, db => now = db ∧ db.PutBack r
  | .reopened r, now, db => now = db.reopenDay r ∧ db.PutBack r

/-- How the tables `now` of a run differ from those of the run without the event, by the
windows of its copies. -/
inductive DayOf (win : CopyId → Option Window) (now db : Db) : Prop
  /-- No copy of the event has a window. -/
  | closed (hwin : ∀ c, win c = none) (hdb : now = db)
  /-- One copy has. -/
  | inWindow (c : CopyId) (w : Window) (hc : win c = some w) (honly : ∀ d, d ≠ c → win d = none)
      (hholds : w.Holds now db)

section Frames

variable {db db' : Db} {r : Reopened} {handler : ℤ → Db → Outcome × Db} {t : ℤ}

/-- Only the sessions and the marks matter. -/
theorem Db.PutBack.congr (h : db.PutBack r) (hws : db'.workSessions = db.workSessions)
    (hmarks : db'.workDayEnds = db.workDayEnds) : db'.PutBack r := by
  unfold PutBack at *
  cases db
  cases db'
  simp only [Db.reopenDay, Db.restore, Db.mk.injEq] at *
  subst hws hmarks
  exact ⟨h.1, h.2.1, trivial, trivial, trivial, trivial, trivial⟩

/-- Such a handler leaves the sessions. -/
theorem Frames.workSessions (h : Frames handler) (t : ℤ) (db : Db) :
    (handler t db).2.workSessions = db.workSessions :=
  congrArg (fun x => x.2.workSessions) (h t db db.workSessions db.workDayEnds)

/-- It leaves the End Day marks. -/
theorem Frames.workDayEnds (h : Frames handler) (t : ℤ) (db : Db) :
    (handler t db).2.workDayEnds = db.workDayEnds :=
  congrArg (fun x => x.2.workDayEnds) (h t db db.workSessions db.workDayEnds)

/-- Such a handler does the same while the day is open. -/
theorem Frames.reopenDay (h : Frames handler) (t : ℤ) (db : Db) (r : Reopened) :
    handler t (db.reopenDay r) = ((handler t db).1, (handler t db).2.reopenDay r) := by
  have hrun := h t db (db.reopenDay r).workSessions (db.reopenDay r).workDayEnds
  refine hrun.trans (Prod.ext rfl ?_)
  simp only [Db.reopenDay, h.workSessions, h.workDayEnds]

end Frames

/-! ## A copy on other tables -/

section Copy

variable {cp : Copy} {v : View} {act : CopyAction} {e : Effect}

/-- The order check is the only place where the latest completed event matters: with the same answer
there the checks are the same. -/
theorem Copy.check_last {last : Option ℤ} (locked : Option String)
    (h : inOrder last cp.eventAt = inOrder v.last cp.eventAt) :
    cp.check { v with last := last } locked = cp.check v locked := by
  unfold Copy.check
  cases htime : eventTime cp.now cp.eventAt with
  | error refusal => rfl
  | ok time =>
    cases hreplay : time.replay with
    | false => simp only [hreplay]; rfl
    | true =>
      obtain ⟨heq, -⟩ := eventTime_replay htime hreplay
      simp only [hreplay, heq, h]
      rfl

/-- Another latest completed event that the order check treats alike changes no step. -/
theorem Copy.step_last {last : Option ℤ}
    (h : (∃ locked, act = .check locked) → inOrder last cp.eventAt = inOrder v.last cp.eventAt) :
    cp.step { v with last := last } act = cp.step v act := by
  unfold Copy.step
  split
  case h_3 locked _ => exact congrArg some (Copy.check_last locked (h ⟨locked, rfl⟩))
  all_goals rfl

/-- What a copy does without the tables. -/
def CopyAction.quiet : CopyAction → Prop
  | .reopenRead _ | .countOpen | .readDayEnd | .reopenWrite | .handle | .restore _ => False
  | _ => True

/-- Looking the event up neither reads nor writes the tables of the day. -/
theorem Copy.lookup_db (db : Db) :
    (cp.lookup v).db = v.db ∧ cp.lookup { v with db := db } = { cp.lookup v with db := db } := by
  unfold Copy.lookup
  split
  · exact ⟨rfl, rfl⟩
  · dsimp only
    split
    · exact ⟨rfl, rfl⟩
    · split
      · exact ⟨rfl, rfl⟩
      · split <;> exact ⟨rfl, rfl⟩

/-- The checks neither read nor write the tables of the day. -/
theorem Copy.check_db (locked : Option String) (db : Db) :
    (cp.check v locked).db = v.db ∧
      cp.check { v with db := db } locked = { cp.check v locked with db := db } := by
  unfold Copy.check
  dsimp only
  split
  · exact ⟨rfl, rfl⟩
  · split
    · split
      · exact ⟨rfl, rfl⟩
      · split <;> exact ⟨rfl, rfl⟩
    · exact ⟨rfl, rfl⟩

/-- Nor does writing the placeholder. -/
theorem Copy.create_db (time : EventTime) (db : Db) :
    (cp.create v time).db = v.db ∧
      cp.create { v with db := db } time = { cp.create v time with db := db } := by
  unfold Copy.create
  dsimp only
  split <;> exact ⟨rfl, rfl⟩

/-- Nor does the latest end of the session. -/
theorem Copy.latestEnd_db {time : EventTime} {last : WorkSession} {stop : ℤ} (shiftEnd : Option ℤ)
    (graceMin : ℤ) (db : Db) :
    (v.latestEnd time last stop shiftEnd graceMin).db = v.db ∧
      View.latestEnd { v with db := db } time last stop shiftEnd graceMin =
        { v.latestEnd time last stop shiftEnd graceMin with db := db } := by
  unfold View.latestEnd
  split <;> exact ⟨rfl, rfl⟩

/-- A quiet step leaves the tables, and does the same on any others. -/
theorem Copy.step_quiet (h : cp.step v act = some e) (hq : act.quiet) (db : Db) :
    e.db = v.db ∧ cp.step { v with db := db } act = some { e with db := db } := by
  unfold Copy.step at h
  split at h
  · next hphase =>
    obtain rfl := Option.some.inj h
    simp only [Copy.step, hphase, Copy.lookup_db db, and_self]
  · next hphase =>
    obtain rfl := Option.some.inj h
    exact ⟨rfl, by simp only [Copy.step, hphase]; rfl⟩
  · next locked hphase =>
    obtain rfl := Option.some.inj h
    simp only [Copy.step, hphase, Copy.check_db locked db, and_self]
  · next time hphase =>
    obtain rfl := Option.some.inj h
    simp only [Copy.step, hphase, Copy.create_db time db, and_self]
  · exact hq.elim
  · exact hq.elim
  · next shiftEnd graceMin hphase =>
    obtain rfl := Option.some.inj h
    simp only [Copy.step, hphase, Copy.latestEnd_db shiftEnd graceMin db, and_self]
  · exact hq.elim
  · next time hphase =>
    obtain rfl := Option.some.inj h
    exact ⟨rfl, by simp only [Copy.step, hphase]; rfl⟩
  · next time last stop next hphase =>
    obtain rfl := Option.some.inj h
    exact ⟨rfl, by simp only [Copy.step, hphase]; rfl⟩
  · next time r hphase =>
    obtain rfl := Option.some.inj h
    exact ⟨rfl, by simp only [Copy.step, hphase]; rfl⟩
  · exact hq.elim
  · exact hq.elim
  · exact hq.elim
  · next time a went hphase =>
    obtain rfl := Option.some.inj h
    exact ⟨rfl, by simp only [Copy.step, hphase]; rfl⟩
  · next time reopened status body went hphase =>
    obtain rfl := Option.some.inj h
    exact ⟨rfl, by simp only [Copy.step, hphase]; rfl⟩
  · cases h
  · next hphase =>
    obtain rfl := Option.some.inj h
    refine ⟨rfl, ?_⟩
    cases hcase : cp.phase with
    | done => exact absurd hcase hphase
    | _ => simp only [Copy.step, hcase]; rfl
  · cases h

end Copy

/-! ## The condition -/

namespace Server

/-- The windows of the copies of the event `i`. -/
def window (s : Server) (i : ℕ) (c : CopyId) : Option Window :=
  if c.event = i then (s.copies c).bind fun cp => cp.phase.window else none

/-- The event's own copies: the handler refuses and wrote nothing, the day is put back when it was
reopened, and no copy crashes while it has a day open. -/
def OwnOk (s : Server) (c : CopyId) : CopyAction → Prop
  | .handle => ∀ cp time reopened, s.copies c = some cp → cp.phase = .ready time reopened →
      let run := cp.request.handler ((s.view c.event cp.request).handlerTime time) s.db
      (∃ a, run.1 = .error a) ∧ run.2 = s.db
  | .restore restored => restored = true
  | .crash => ∀ cp r, s.copies c = some cp → cp.phase.window ≠ some (.reopened r)
  | _ => True

/-- The other copies while a copy reads about a day to reopen, or has it open and has not put it
back: none of them reads or writes the sessions and the marks. -/
def OtherOk (s : Server) (c : CopyId) : CopyAction → Prop
  | .reopenRead _ | .countOpen | .readDayEnd | .reopenWrite | .restore _ => False
  | .handle => ∀ cp, s.copies c = some cp → Frames cp.request.handler
  | _ => True

/-- The order check refuses the copy only on account of another event than `i`. -/
def OrderOk (s : Server) (i : ℕ) (cp : Copy) : Prop :=
  (∀ j e, j ≠ i → s.events.lookup j = some e → e.Counts cp.request.api →
    e.eventAt - ORDER_TOLERANCE_MS ≤ cp.eventAt) →
  inOrder (s.lastEvent cp.request.api) cp.eventAt = true

/-- The event `i` is refused, and nothing comes between the first read of a reopening and the
putting back of its day. -/
def RefusedOk (i : ℕ) (s : Server) : ServerAction → Prop
  | .copy c act =>
    (c.event = i → s.OwnOk c act) ∧ ((∃ d, d ≠ c ∧ s.window i d ≠ none) → s.OtherOk c act) ∧
    (c.event ≠ i → (∃ locked, act = .check locked) → ∀ cp, s.copies c = some cp → s.OrderOk i cp)
  | _ => True

/-- `s'` is `s` without the event `i`. -/
structure Without (i : ℕ) (s s' : Server) : Prop where
  clock : s'.clock = s.clock
  copies : ∀ c, c.event ≠ i → s'.copies c = s.copies c
  events : ∀ j, j ≠ i → s'.events.lookup j = s.events.lookup j
  event : s'.events.lookup i = none
  refused : ∀ c cp time reopened outcome, c.event = i → s.copies c = some cp →
    cp.phase = .handled time reopened outcome → ∃ a, outcome = .error a
  day : DayOf (s.window i) s.db s'.db

variable {i : ℕ} {s s' t : Server} {c : CopyId} {cp : Copy} {act : CopyAction} {e : Effect}

/-- The window of a copy, by its phase. -/
theorem window_of (hc : s.copies c = some cp) : s.window c.event c = cp.phase.window := by
  simp [window, hc]

/-- A step of a copy of the event moves its own window only. -/
theorem window_commit_self (s : Server) (c : CopyId) (cp : Copy) (e : Effect) :
    (s.commit c cp e).window c.event = Function.update (s.window c.event) c e.phase.window := by
  funext d
  by_cases hd : d = c
  · subst hd
    simp [window]
  · simp [window, hd]

/-- A step of a copy of another event moves no window. -/
theorem window_commit_ne (s : Server) (cp : Copy) (e : Effect) (h : c.event ≠ i) :
    (s.commit c cp e).window i = s.window i := by
  funext d
  by_cases hd : d = c
  · subst hd
    simp [window, h]
  · simp [window, hd]

/-- A copy that is received has no window. -/
theorem window_receive {request : Request} (hnone : s.copies c = none) :
    (s.receive c request).window i = s.window i := by
  funext d
  by_cases hd : d = c
  · subst hd
    simp [window, hnone, Phase.window]
  · simp [window, hd]

end Server

section DayOf

variable {win : CopyId → Option Window} {now db : Db} {c : CopyId} {w : Window}

/-- What holds in the window of a copy, and that it is the only copy of the event in one. -/
theorem DayOf.of_window (h : DayOf win now db) (hc : win c = some w) :
    w.Holds now db ∧ ∀ d, d ≠ c → win d = none := by
  cases h with
  | closed hwin =>
    rw [hwin c] at hc
    cases hc
  | inWindow d w' hd honly hholds =>
    by_cases hcd : c = d
    · subst hcd
      obtain rfl := Option.some.inj (hd.symm.trans hc)
      exact ⟨hholds, honly⟩
    · rw [honly c hcd] at hc
      cases hc

/-- With no window at all the tables are the same. -/
theorem DayOf.eq_of_closed (h : DayOf win now db) (hwin : ∀ c, win c = none) : now = db := by
  cases h with
  | closed _ hdb => exact hdb
  | inWindow c w hc =>
    rw [hwin c] at hc
    cases hc

/-- The only window is closed. -/
theorem DayOf.close (honly : ∀ d, d ≠ c → win d = none) (hdb : now = db) :
    DayOf (Function.update win c none) now db := by
  refine .closed (fun d => ?_) hdb
  by_cases hd : d = c
  · subst hd
    exact Function.update_self ..
  · exact (Function.update_of_ne hd ..).trans (honly d hd)

/-- The only window opens, or moves on. -/
theorem DayOf.move (honly : ∀ d, d ≠ c → win d = none) (hholds : w.Holds now db) :
    DayOf (Function.update win c (some w)) now db :=
  .inWindow c w (Function.update_self ..)
    (fun d hd => (Function.update_of_ne hd ..).trans (honly d hd)) hholds

end DayOf

namespace Server

variable {i : ℕ} {s s' t : Server} {c : CopyId} {cp : Copy} {act : CopyAction} {e : Effect}

/-- A step of the event's own copy that changes neither its window nor the tables. -/
theorem day_of_same {db : Db} (hday : DayOf (s.window c.event) s.db db) (hc : s.copies c = some cp)
    (hwin : e.phase.window = cp.phase.window) (hdb : e.db = s.db) :
    DayOf ((s.commit c cp e).window c.event) e.db db := by
  rw [window_commit_self, hwin, ← window_of hc, Function.update_eq_self, hdb]
  exact hday

/-- A copy of the event that reads about a reopening stops, and has no window any more. -/
theorem day_of_stop {db : Db} {last : WorkSession} {stop : ℤ} {time : EventTime} {next : ReopenRead}
    (hday : DayOf (s.window c.event) s.db db) (hc : s.copies c = some cp)
    (hphase : cp.phase = .deciding time last stop next) (hwin : e.phase.window = none)
    (hdb : e.db = s.db) : DayOf ((s.commit c cp e).window c.event) e.db db := by
  obtain ⟨⟨hsame, -⟩, honly⟩ :=
    hday.of_window (c := c) (w := .reading last stop) (by rw [window_of hc, hphase]; rfl)
  rw [window_commit_self, hwin, hdb]
  exact .close honly hsame

/-- The day after a step of the event's own copy is the day without the event, or has a reopened
session that is still to be put back. -/
theorem Without.own_day (h : Without c.event s s') (hc : s.copies c = some cp)
    (hstep : cp.step (s.view c.event cp.request) act = some e)
    (hok : RefusedOk c.event s (.copy c act)) :
    DayOf ((s.commit c cp e).window c.event) e.db s'.db := by
  obtain ⟨hown, hother, -⟩ := hok
  have hown := hown rfl
  have hwindow := window_of hc
  cases Copy.step_cases hstep with
  | repeated _ _ hphase | unreadable hphase | running _ hphase | stale hphase | looked hphase
  | takenOver hphase | refused _ _ hphase | checked _ _ hphase | raced _ _ hphase
  | goesOn _ _ _ _ _ _ hphase => exact day_of_same h.day hc (by rw [hphase]; rfl) rfl
  | created time hphase =>
    refine day_of_same h.day hc ?_ rfl
    rw [hphase]
    dsimp only
    split <;> rfl
  | notReopened _ time hphase =>
    rcases hphase with hphase | ⟨last, stop, next, hphase⟩
    · exact day_of_same h.day hc (by rw [hphase]; rfl) rfl
    · exact day_of_stop h.day hc hphase rfl rfl
  | found time last stop hphase hlast hstop =>
    have hclosed : ∀ d, s.window c.event d = none := by
      intro d
      by_cases hd : d = c
      · subst hd
        rw [hwindow, hphase]
        rfl
      · by_contra hne
        exact hother ⟨d, hd, hne⟩
    have hdb : s.db = s'.db := h.day.eq_of_closed hclosed
    have hputBack : s.db.PutBack (last.remembered stop (s.db.workDayEnds last.date)) :=
      Db.restore_reopenDay hlast (WorkSession.closedBefore_eq_some hstop).1 rfl
    rw [window_commit_self]
    exact .move (fun d _ => hclosed d) ⟨hdb, hdb ▸ hputBack⟩
  | decided time last stop hphase =>
    obtain ⟨⟨hdb, hr⟩, honly⟩ :=
      h.day.of_window (c := c) (w := .reading last stop) (by rw [hwindow, hphase]; rfl)
    rw [window_commit_self]
    refine .move honly ⟨hdb, ?_⟩
    show s'.db.PutBack (last.remembered stop (s.db.workDayEnds last.date))
    rw [hdb]
    exact hr
  | reopenFailed hphase =>
    rcases hphase with ⟨time, hphase⟩ | ⟨time, last, stop, next, hphase⟩ | ⟨time, r, hphase⟩
    · exact day_of_same h.day hc (by rw [hphase]; rfl) rfl
    · exact day_of_stop h.day hc hphase rfl rfl
    · obtain ⟨⟨hdb, -⟩, honly⟩ :=
        h.day.of_window (c := c) (w := .decided r) (by rw [hwindow, hphase]; rfl)
      rw [window_commit_self]
      exact .close honly hdb
  | reopened time r hphase =>
    obtain ⟨⟨hdb, hr⟩, honly⟩ :=
      h.day.of_window (c := c) (w := .decided r) (by rw [hwindow, hphase]; rfl)
    rw [window_commit_self]
    exact .move honly ⟨congrArg (·.reopenDay r) hdb, hr⟩
  | ran time reopened hphase =>
    obtain ⟨-, hdb⟩ := hown cp time reopened hc hphase
    refine day_of_same h.day hc ?_ hdb
    rw [hphase]
    cases reopened <;> rfl
  | restored time r a went hphase =>
    obtain rfl : went = true := hown
    obtain ⟨⟨hdb, hr⟩, honly⟩ :=
      h.day.of_window (c := c) (w := .reopened r) (by rw [hwindow, hphase]; rfl)
    rw [window_commit_self]
    refine .close honly ?_
    show s.db.restore r = s'.db
    rw [hdb]
    exact hr
  | finished time reopened outcome went hphase hclosed =>
    obtain ⟨a, rfl⟩ := h.refused c cp time reopened outcome rfl hc hphase
    rcases hclosed with rfl | ⟨_, _, heq⟩
    · exact day_of_same h.day hc (by rw [hphase]; rfl) rfl
    · cases heq
  | crashed hphase =>
    cases hwin : cp.phase.window with
    | none => exact day_of_same h.day hc (by rw [hwin]; rfl) rfl
    | some w =>
      obtain ⟨hholds, honly⟩ := h.day.of_window (hwindow.trans hwin)
      cases w with
      | reading last stop | decided r =>
        rw [window_commit_self]
        exact .close honly hholds.1
      | reopened r => exact absurd hwin (hown cp r hc)

/-- A step of the event's own copy changes nothing of the run without the event: the windows
keep the difference. -/
theorem Without.own (h : Without c.event s s') (hc : s.copies c = some cp)
    (hstep : cp.step (s.view c.event cp.request) act = some e)
    (hok : RefusedOk c.event s (.copy c act)) : Without c.event (s.commit c cp e) s' := by
  refine ⟨h.clock, fun d hd => ?_, fun j hj => ?_, h.event, ?_, h.own_day hc hstep hok⟩
  · rw [h.copies d hd, commit_copies_ne _ _ _ fun hdc => hd (congrArg CopyId.event hdc)]
  · rw [h.events j hj, commit_lookup_ne _ _ _ hj]
  · intro d cp' time reopened outcome hd hdc hphase
    by_cases hdc' : d = c
    · subst hdc'
      rw [commit_copies_self] at hdc
      obtain rfl := Option.some.inj hdc
      cases Copy.step_cases hstep with
      | ran time' reopened' hphase' =>
        obtain ⟨⟨a, ha⟩, -⟩ := hok.1 rfl cp time' reopened' hc hphase'
        obtain ⟨-, -, rfl⟩ := Phase.handled.inj hphase
        exact ⟨a, ha⟩
      | restored _ _ a =>
        obtain ⟨-, -, rfl⟩ := Phase.handled.inj hphase
        exact ⟨a, rfl⟩
      | created time' _ _ =>
        dsimp only at hphase
        split at hphase <;> cases hphase
      | _ => cases hphase
    · rw [commit_copies_ne _ _ _ hdc'] at hdc
      exact h.refused d cp' time reopened outcome hd hdc hphase

/-- The order check of another copy answers the same without the event, when the event is not
what it turns on. -/
theorem Without.inOrder (h : Without i s s') (hok : s.OrderOk i cp) :
    inOrder (s'.lastEvent cp.request.api) cp.eventAt =
      inOrder (s.lastEvent cp.request.api) cp.eventAt := by
  rw [Bool.eq_iff_iff]
  constructor
  · intro horder
    refine hok fun j e hj he hcounts => ?_
    exact inOrder_lastEvent.1 horder j e ((h.events j hj).trans he) hcounts
  · intro horder
    refine inOrder_lastEvent.2 fun j e he hcounts => ?_
    by_cases hj : j = i
    · subst hj
      rw [h.event] at he
      cases he
    · exact inOrder_lastEvent.1 horder j e ((h.events j hj).symm.trans he) hcounts

/-- A copy that neither reads nor writes the sessions and the marks leaves them as they are. -/
theorem other_frame (hc : s.copies c = some cp)
    (hstep : cp.step (s.view c.event cp.request) act = some e) (hok : s.OtherOk c act) :
    e.db.workSessions = s.db.workSessions ∧ e.db.workDayEnds = s.db.workDayEnds := by
  cases act with
  | reopenRead | countOpen | readDayEnd | reopenWrite | restore => exact hok.elim
  | handle =>
    have hframes := hok cp hc
    cases Copy.step_cases hstep with
    | ran time reopened hphase =>
      exact ⟨hframes.workSessions _ _, hframes.workDayEnds _ _⟩
    | goesOn _ _ _ _ _ _ _ hact | notReopened _ _ _ hact => exact hact.elim
  | _ =>
    obtain ⟨hedb, -⟩ := Copy.step_quiet hstep trivial s.db
    rw [hedb]
    exact ⟨rfl, rfl⟩

/-- The step of another copy is one without the event too, with the same phase and the same row. -/
theorem Without.other_step (h : Without i s s') (hne : c.event ≠ i) (hc : s.copies c = some cp)
    (hstep : cp.step (s.view c.event cp.request) act = some e) (hok : RefusedOk i s (.copy c act)) :
    ∃ e', cp.step (s'.view c.event cp.request) act = some e' ∧ e'.phase = e.phase ∧ e'.row = e.row ∧
      DayOf (s.window i) e.db e'.db := by
  obtain ⟨-, hother, horder⟩ := hok
  have hlast : cp.step { s.view c.event cp.request with last := s'.lastEvent cp.request.api } act =
      some e :=
    (Copy.step_last fun hcheck => h.inOrder (horder hne hcheck cp hc)).trans hstep
  have hview : s'.view c.event cp.request =
      { { s.view c.event cp.request with last := s'.lastEvent cp.request.api } with
        db := s'.db } := by
    simp only [view, h.clock, h.events _ hne]
  have hsame : s.db = s'.db → cp.step (s'.view c.event cp.request) act = some e := by
    intro hdb
    rw [hview, ← hdb]
    exact hlast
  have hothers : ∀ d w, s.window i d = some w → s.OtherOk c act := by
    intro d w hd
    refine hother ⟨d, ?_, by rw [hd]; nofun⟩
    rintro rfl
    simp [window, hne] at hd
  cases h.day with
  | closed hwin hdb => exact ⟨e, hsame hdb, rfl, rfl, .closed hwin rfl⟩
  | inWindow d w hd honly hholds =>
    have hother' := hothers d w hd
    cases w with
    | reading last stop =>
      obtain ⟨hdb, hr⟩ := hholds
      refine ⟨e, hsame hdb, rfl, rfl, .inWindow d _ hd honly ⟨rfl, ?_⟩⟩
      rw [← hdb] at hr
      obtain ⟨hws, hmarks⟩ := other_frame hc hstep hother'
      rw [hmarks]
      exact hr.congr hws hmarks
    | decided r =>
      obtain ⟨hdb, hr⟩ := hholds
      refine ⟨e, hsame hdb, rfl, rfl, .inWindow d _ hd honly ⟨rfl, ?_⟩⟩
      rw [← hdb] at hr
      obtain ⟨hws, hmarks⟩ := other_frame hc hstep hother'
      exact hr.congr hws hmarks
    | reopened r =>
      obtain ⟨hdb, hr⟩ := hholds
      cases act with
      | reopenRead | countOpen | readDayEnd | reopenWrite | restore => exact hother'.elim
      | handle =>
        have hframes := hother' cp hc
        cases Copy.step_cases hstep with
        | ran time reopened hphase =>
          have hclock : (s'.view c.event cp.request).handlerTime time =
              (s.view c.event cp.request).handlerTime time := by
            simp only [View.handlerTime, view, h.clock]
          have hrun := hframes.reopenDay ((s.view c.event cp.request).handlerTime time) s'.db r
          rw [← hdb] at hrun
          refine ⟨cp.handle (s'.view c.event cp.request) time reopened, ?_, ?_, ?_, ?_⟩
          · simp only [Copy.step, hphase]
          · show Phase.handled time reopened (cp.request.handler _ s'.db).1 =
              .handled time reopened (cp.request.handler _ s.db).1
            rw [hclock, hrun]
          · show s'.events.lookup c.event = s.events.lookup c.event
            exact h.events _ hne
          · refine .inWindow d _ hd honly ⟨?_, ?_⟩
            · show (cp.request.handler _ s.db).2 = (cp.request.handler _ s'.db).2.reopenDay r
              rw [hclock, hrun]
            · exact hr.congr (hframes.workSessions _ _) (hframes.workDayEnds _ _)
        | goesOn _ _ _ _ _ _ _ hact | notReopened _ _ _ hact => exact hact.elim
      | _ =>
        obtain ⟨hedb, hstep'⟩ := Copy.step_quiet hlast trivial s'.db
        refine ⟨{ e with db := s'.db }, ?_, rfl, rfl, .inWindow d _ hd honly ⟨hedb.trans hdb, hr⟩⟩
        rw [hview]
        exact hstep'

/-- A step of another copy keeps the two runs together: each takes it, on its own tables. -/
theorem Without.other (h : Without i s s') (hne : c.event ≠ i) (hc : s.copies c = some cp)
    (hstep : cp.step (s.view c.event cp.request) act = some e) (hok : RefusedOk i s (.copy c act)) :
    ∃ t', s'.step (.copy c act) = some t' ∧ Without i (s.commit c cp e) t' := by
  obtain ⟨e', hstep', hphase, hrow, hday⟩ := h.other_step hne hc hstep hok
  refine ⟨s'.commit c cp e', ?_, h.clock, fun d hd => ?_, fun j hj => ?_, ?_, ?_, ?_⟩
  · simp only [Server.step, h.copies c hne, hc, hstep', Option.map_some]
  · by_cases hdc : d = c
    · subst hdc
      rw [commit_copies_self, commit_copies_self, hphase]
    · rw [commit_copies_ne _ _ _ hdc, commit_copies_ne _ _ _ hdc, h.copies d hd]
  · by_cases hjc : j = c.event
    · subst hjc
      rw [commit_lookup_self, commit_lookup_self, hrow]
    · rw [commit_lookup_ne _ _ _ hjc, commit_lookup_ne _ _ _ hjc, h.events j hj]
  · rw [commit_lookup_ne _ _ _ (Ne.symm hne), h.event]
  · intro d cp' time reopened outcome hd hdc hphase'
    have hdc' : d ≠ c := by
      rintro rfl
      exact hne hd
    rw [commit_copies_ne _ _ _ hdc'] at hdc
    exact h.refused d cp' time reopened outcome hd hdc hphase'
  · rw [window_commit_ne _ _ _ hne]
    exact hday

end Server

/-- The event a step belongs to. -/
def ServerAction.event : ServerAction → Option ℕ
  | .tick _ => none
  | .arrive c _ | .copy c _ => some c.event

namespace Server

variable {i : ℕ} {s s' t : Server} {a : ServerAction}

/-- Any step but those of the event is taken by both runs, and they stay together. -/
theorem Without.step_keep (h : Without i s s') (hok : RefusedOk i s a) (ha : a.event ≠ some i)
    (hstep : s.step a = some t) : ∃ t', s'.step a = some t' ∧ Without i t t' := by
  cases a with
  | tick now =>
    obtain ⟨hle, rfl⟩ := step_tick hstep
    refine ⟨{ s' with clock := now }, ?_, rfl, h.copies, h.events, h.event, h.refused, h.day⟩
    simp only [Server.step, h.clock, if_pos hle]
  | arrive c request =>
    obtain ⟨hnone, rfl⟩ := step_arrive hstep
    have hne : c.event ≠ i := fun hc => ha (congrArg some hc)
    refine ⟨s'.receive c request, ?_, h.clock, fun d hd => ?_, h.events, h.event, ?_, ?_⟩
    · simp only [Server.step, h.copies c hne, hnone]
    · by_cases hdc : d = c
      · subst hdc
        rw [receive_copies_self, receive_copies_self, h.clock]
      · rw [receive_copies_ne _ _ hdc, receive_copies_ne _ _ hdc, h.copies d hd]
    · intro d cp time reopened outcome hd hdc hphase
      have hdc' : d ≠ c := by
        rintro rfl
        exact hne hd
      rw [receive_copies_ne _ _ hdc'] at hdc
      exact h.refused d cp time reopened outcome hd hdc hphase
    · rw [window_receive hnone]
      exact h.day
  | copy c act =>
    obtain ⟨cp, e, hc, he, rfl⟩ := step_copy hstep
    exact h.other (fun hevent => ha (congrArg some hevent)) hc he hok

/-- The steps of the event are taken by the one run only, and the other stays where it is. -/
theorem Without.step_drop (h : Without i s s') (hok : RefusedOk i s a) (ha : a.event = some i)
    (hstep : s.step a = some t) : Without i t s' := by
  cases a with
  | tick now => cases ha
  | arrive c request =>
    obtain ⟨hnone, rfl⟩ := step_arrive hstep
    obtain rfl := Option.some.inj ha
    refine ⟨h.clock, fun d hd => ?_, h.events, h.event, ?_, ?_⟩
    · rw [h.copies d hd, receive_copies_ne _ _ fun hdc => hd (congrArg CopyId.event hdc)]
    · intro d cp time reopened outcome hd hdc hphase
      by_cases hdc' : d = c
      · subst hdc'
        rw [receive_copies_self] at hdc
        obtain rfl := Option.some.inj hdc
        cases hphase
      · rw [receive_copies_ne _ _ hdc'] at hdc
        exact h.refused d cp time reopened outcome hd hdc hphase
    · rw [window_receive hnone]
      exact h.day
  | copy c act =>
    obtain ⟨cp, e, hc, he, rfl⟩ := step_copy hstep
    obtain rfl := Option.some.inj ha
    exact h.own hc he hok

/-- At the start nothing is left out. -/
theorem Without.start (db : Db) (clock : ℤ) (i : ℕ) :
    Without i (Server.start db clock) (Server.start db clock) where
  clock := rfl
  copies := fun _ _ => rfl
  events := fun _ _ => rfl
  event := rfl
  refused := fun _ _ _ _ _ _ hc => by cases hc
  day := .closed (fun c => by simp [window, Server.start]) rfl

end Server

/-- An event is refused in a run whose steps meet `Server.RefusedOk`: once it has no day open, the
tables are those of the run without its steps. -/
theorem refused_leaves_day {db : Db} {clock : ℤ} {acts : List ServerAction} {s : Server} {i : ℕ}
    (h : Runs.run Server.step (Server.start db clock) acts = some s)
    (hok : Runs.Meets Server.step (Server.RefusedOk i) (Server.start db clock) acts)
    (hclosed : ∀ c, s.window i c = none) :
    ∃ s', Runs.run Server.step (Server.start db clock)
        (acts.filter fun a => a.event ≠ some i) = some s' ∧ s.db = s'.db := by
  have hkeep : ∀ u u' a t, Server.Without i u u' → Server.RefusedOk i u a →
      decide (ServerAction.event a ≠ some i) = true → Server.step u a = some t →
      ∃ t', Server.step u' a = some t' ∧ Server.Without i t t' :=
    fun _ _ _ _ hr ho hk hs => hr.step_keep ho (of_decide_eq_true hk) hs
  have hdrop : ∀ u u' a t, Server.Without i u u' → Server.RefusedOk i u a →
      decide (ServerAction.event a ≠ some i) = false → Server.step u a = some t →
      Server.Without i t u' :=
    fun _ _ _ _ hr ho hk hs => hr.step_drop ho (by simpa using hk) hs
  obtain ⟨s', hrun, hs⟩ :=
    Runs.run_filter (Server.Without i) _ hkeep hdrop (Server.Without.start db clock i) hok h
  exact ⟨s', hrun, hs.day.eq_of_closed hclosed⟩

/-- A day opened at 9:00 that was closed automatically at 17:00. -/
def closedDay : Db :=
  ((Db.empty.startDay utcDay 32400000 32400000 .agent utcDay).2.autoClose
    ⟨0, ⟨0⟩, 32400000, none, none, .agent⟩ 61200000).2

/-- The start, at 18:00, of a break that the person's day does not have. -/
def refusedBreak : Request :=
  offlineRequest ["breaks", "start"] 64800000
    (WorkdayBreaksController.startUnscheduled freelancer "evening break")

/-- The session of the closed day. -/
def closedSession : WorkSession := ⟨0, ⟨0⟩, 32400000, some 61200000, some .autoClosed, .agent⟩

/-- A copy of the refused break, up to the reopening of the day, whose latest end is 23:00. -/
def reopenForBreak : List ServerAction :=
  upToReopening ⟨0, 0⟩ refusedBreak closedSession ++
    [.copy ⟨0, 0⟩ .countOpen, .copy ⟨0, 0⟩ (.latestEnd none 30), .copy ⟨0, 0⟩ .readDayEnd,
      .copy ⟨0, 0⟩ .reopenWrite]

/-- The copy crashes with the day open, and the copy sent two minutes later is refused. -/
def crashWithDayOpen : List ServerAction :=
  reopenForBreak ++ [.copy ⟨0, 0⟩ .crash, .tick 86520000, .arrive ⟨0, 1⟩ refusedBreak,
    .copy ⟨0, 1⟩ .lookup, .copy ⟨0, 1⟩ .takeOver, .copy ⟨0, 1⟩ (.check none), .copy ⟨0, 1⟩ .create,
    .copy ⟨0, 1⟩ (.reopenRead { closedSession with endedAt := none, source := .replay }),
    .copy ⟨0, 1⟩ .handle, .copy ⟨0, 1⟩ (.finish true)]

/-- After a crash between the reopening and the refusal the day stays open, although the only
handler that ran refused and wrote nothing. -/
theorem crash_leaves_day_open :
    ¬ ∀ (db : Db) (clock : ℤ) (acts : List ServerAction) (s : Server) (i : ℕ),
      Runs.run Server.step (Server.start db clock) acts = some s →
      (∀ outcome before after, .ran outcome before after ∈ s.past i →
        (∃ a, outcome = .error a) ∧ after = before) →
      (∃ a, .answered true a ∈ s.past i) →
      ∃ s', Runs.run Server.step (Server.start db clock)
          (acts.filter fun a => a.event ≠ some i) = some s' ∧
        s.db.workSessions = s'.db.workSessions ∧ s.db.workDayEnds = s'.db.workDayEnds := by
  intro h
  have hrun : Runs.run Server.step (Server.start closedDay 86400000)
    crashWithDayOpen = some _ := rfl
  refine absurd (h _ _ _ _ 0 hrun ?_ ?_) ?_
  · intro outcome before after hran
    rcases List.mem_cons.1 hran with heq | hran
    · cases heq
      exact ⟨⟨_, rfl⟩, rfl⟩
    · cases List.mem_singleton.1 hran
  · exact ⟨_, List.mem_cons_of_mem _ (List.mem_singleton_self _)⟩
  · rintro ⟨s', hrun', hws, -⟩
    have hrun'' : Runs.run Server.step (Server.start closedDay 86400000)
        (crashWithDayOpen.filter fun a => a.event ≠ some 0) = some _ := rfl
    obtain rfl := Option.some.inj (hrun''.symm.trans hrun')
    have hrows := congrArg Table.rows hws
    exact absurd hrows (by decide)

section Alone

variable {s t : Server} {i : ℕ} {c : CopyId} {acts : List CopyAction}

/-- No copy but `c` has a window. -/
def Server.Alone (s : Server) (i : ℕ) (c : CopyId) : Prop := ∀ d, d ≠ c → s.window i d = none

/-- Receiving the one copy keeps it alone. -/
theorem Server.Alone.receive (h : s.Alone i c) (request : Request) :
    (s.receive c request).Alone i c := by
  intro d hd
  rw [← h d hd]
  simp only [Server.window, Server.receive_copies_ne _ _ hd]

/-- A step of the one copy keeps it alone. -/
theorem Server.Alone.commit (h : s.Alone i c) (cp : Copy) (e : Effect) :
    (s.commit c cp e).Alone i c := by
  intro d hd
  rw [← h d hd]
  simp only [Server.window, Server.commit_copies_ne _ _ _ hd]

/-- At the start there is no copy. -/
theorem Server.Alone.start (db : Db) (clock : ℤ) : (Server.start db clock).Alone i c := by
  intro d _
  simp [Server.window, Server.start]

/-- The steps of a copy of the event that is alone meet the condition when they
are fit on their own. -/
theorem Server.Alone.meets (h : s.Alone c.event c)
    (hown : Runs.Meets (fun s act => s.step (.copy c act)) (fun s act => s.OwnOk c act) s acts) :
    Runs.Meets Server.step (Server.RefusedOk c.event) s (acts.map (.copy c)) := by
  induction acts generalizing s with
  | nil => trivial
  | cons act acts ih =>
    refine ⟨⟨fun _ => hown.1, ?_, fun hne => absurd rfl hne⟩, fun s' hs => ?_⟩
    · rintro ⟨d, hd, hw⟩
      exact absurd (h d hd) hw
    · obtain ⟨cp, e, -, -, rfl⟩ := Server.step_copy hs
      exact ih (h.commit cp e) (hown.2 _ hs)

/-- A copy that is alone with its event is still alone after its own steps. -/
theorem Server.Alone.run (h : s.Alone i c)
    (hrun : Runs.run Server.step s (acts.map (.copy c)) = some t) : t.Alone i c := by
  induction acts generalizing s with
  | nil =>
    obtain rfl := Option.some.inj hrun
    exact h
  | cons act acts ih =>
    obtain ⟨s', hs, hrun⟩ := Runs.run_cons_eq_some.1 hrun
    obtain ⟨cp, e, -, -, rfl⟩ := Server.step_copy hs
    exact ih (h.commit cp e) hrun

end Alone

/-- The break is refused and nothing is written while a session is open that is not stale, so the
condition of the copy's own steps holds. -/
theorem ownOk_refusedBreak {s : Server} {c : CopyId} {cp : Copy} {reopened : Option Reopened}
    {session : WorkSession} (hc : s.copies c = some cp) (hrequest : cp.request = refusedBreak)
    (hphase : cp.phase = .ready ⟨64800000, true⟩ reopened) (hopen : s.db.findOpen = some session)
    (hfresh : 64800000 ≤ freelancer.rules.latestEndOfSession session) : s.OwnOk c .handle := by
  intro cp' time reopened' hc' hphase'
  obtain rfl := Option.some.inj (hc.symm.trans hc')
  obtain ⟨rfl, -⟩ := Phase.ready.inj (hphase.symm.trans hphase')
  rw [hrequest]
  obtain ⟨a, ha, -⟩ :=
    @WorkdayBreaksController.startUnscheduled_refuses freelancer "evening break" 64800000 s.db
  exact ⟨⟨a, ha⟩, WorkdayBreaksController.startUnscheduled_db _ hopen hfresh⟩

/-- The copy goes on to its refusal and puts the day back. -/
def refuseAndPutBack : List ServerAction :=
  reopenForBreak ++ [.copy ⟨0, 0⟩ .handle, .copy ⟨0, 0⟩ (.restore true),
    .copy ⟨0, 0⟩ (.finish true)]

/-- After the refusal the session is put back, and the tables are those of the run
without the event. -/
theorem refuseAndPutBack_leaves_day :
    ∃ s, Runs.run Server.step (Server.start closedDay 86400000) refuseAndPutBack = some s ∧
      ∃ s', Runs.run Server.step (Server.start closedDay 86400000)
        (refuseAndPutBack.filter fun a => a.event ≠ some 0) = some s' ∧ s.db = s'.db := by
  obtain ⟨s, hrun⟩ :
      ∃ s, Runs.run Server.step (Server.start closedDay 86400000) refuseAndPutBack = some s :=
    ⟨_, rfl⟩
  have hwindow : (Runs.run Server.step (Server.start closedDay 86400000) refuseAndPutBack).map
      (fun s => s.window 0 ⟨0, 0⟩) = some none := rfl
  have harrived : ((Server.start closedDay 86400000).receive ⟨0, 0⟩ refusedBreak).Alone 0 ⟨0, 0⟩ :=
    (Server.Alone.start _ _).receive _
  have hacts : refuseAndPutBack = .arrive ⟨0, 0⟩ refusedBreak :: List.map (.copy ⟨0, 0⟩)
      [.lookup, .check none, .create, .reopenRead closedSession, .countOpen, .latestEnd none 30,
        .readDayEnd, .reopenWrite, .handle, .restore true, .finish true] := rfl
  refine ⟨s, hrun, refused_leaves_day hrun ?_ fun c => ?_⟩
  · rw [hacts]
    refine .cons trivial rfl (harrived.meets ?_)
    refine .cons trivial rfl (.cons trivial rfl (.cons trivial rfl (.cons trivial rfl
      (.cons trivial rfl (.cons trivial rfl (.cons trivial rfl (.cons trivial rfl
      (.cons ?_ rfl (.cons rfl rfl (.cons trivial rfl trivial))))))))))
    exact ownOk_refusedBreak rfl rfl rfl rfl (by decide)
  · by_cases hc : c = ⟨0, 0⟩
    · subst hc
      rw [hrun] at hwindow
      exact Option.some.inj hwindow
    · rw [hacts] at hrun
      obtain ⟨s₁, hs₁, hrun⟩ := Runs.run_cons_eq_some.1 hrun
      obtain ⟨-, rfl⟩ := Server.step_arrive hs₁
      exact harrived.run hrun c hc

end RxVision
