import RxVision.Records.BreakOrder

/-!
# An ended break is over

`Db.EndedBreaksAreOver` says that nothing of an ended break is open and that its end is at or after
the end of each of its segments, and that a paused break has no open segment. It fails when
`endPausedTx` or `markEnded`, which take no lock, write over a break that has moved on since they
read it, when `endDay` closes a session again that one of them has closed, and when `markEnded` ends
a break before an earlier segment of it ended. `BreakTx.Sound` leaves these out; under it every
interleaving keeps the breaks in order (`Db.BreaksOk`), by the rule for transactions with one lock.
-/

namespace RxVision

open ReadCommitted

section

variable {c read : Db} {id : ℕ} {v : BreakView} {r : ℕ → Db} {now t : ℤ}

/-! ## Every interleaving -/

/-- Where a transaction of the breaks can go wrong, left out: `endPausedTx` and
`markEnded`, which take no lock, end a break only as they read it, `markEnded` not before
an earlier segment of it ended, and `endDay` closes the presence sessions it read open only
while they are as it read them. -/
def BreakTx.Sound : BreakTx → (ℕ → Db) → Db → Prop
  | .endPausedTx id _, r, c =>
    ∀ v, (r 0).breakView id = some v → v.record.state = .paused → c.breakView id = some v
  | .markEnded id t, r, c =>
    ∀ v, (r 0).breakView id = some v → (v.record.state ≠ .ended ∨ v.record.endedAt = none) →
      c.breakView id = some v ∧ (∀ n, (r n).breakView id = some v) ∧
        (v.record.state = .active → v.EndsBy t)
  | .endDay .., r, c =>
    ∀ p ∈ (r (if (r 0).findOpen.isSome then 1 else 3)).presence, p.endedAt = none → p ∈ c.presence
  | _, _, _ => True

variable {monthOpen : DateKey → Bool} {calendarOf : DayKeyFn}

/-- Closing the day's session leaves the breaks and their segments. -/
theorem closeDay_breaks {s : WorkSession} {today : DateKey} :
    (c.closeDay calendarOf s now today).2.breakRecords = c.breakRecords ∧
      (c.closeDay calendarOf s now today).2.breakSegments = c.breakSegments := by
  unfold Db.closeDay
  dsimp only
  split <;> split <;> exact ⟨rfl, rfl⟩

/-- The end of the day keeps that ended breaks are over, when the presence it read is
still what is stored. -/
theorem breaksOk_endDay {today : DateKey} {legacy : Bool} (h : c.BreaksOk)
    (hread : ∀ p ∈ (r (if (r 0).findOpen.isSome then 1 else 3)).presence, p.endedAt = none →
      p ∈ c.presence) : ((Tx.endDay calendarOf now today legacy).effect r c).BreaksOk := by
  dsimp only [Tx.endDay]
  split
  case h_1 s hs =>
    rw [hs] at hread
    exact breaksOk_congr (breaksOk_closePresenceRead h hread) closeDay_breaks.1
      closeDay_breaks.2 rfl
  case h_2 hs =>
    rw [hs] at hread
    split
    · exact h
    · split
      · exact breaksOk_congr h rfl rfl rfl
      · split
        · have hclosed := breaksOk_closePresenceRead (t := now) h hread
          split <;> exact breaksOk_congr hclosed rfl rfl rfl
        · exact h

/-- A transaction without the lock that meets the condition ends a break or changes nothing. -/
theorem endsBreak_of_sound {t : BreakTx} (h : c.BreaksOk)
    (hl : (t.tx monthOpen calendarOf).locks = false)
    (hsound : t.Sound r c) :
    (t.tx monthOpen calendarOf).effect r c = c ∨
      ∃ id, EndsBreak c ((t.tx monthOpen calendarOf).effect r c) id := by
  cases t with
  | startScheduled | startQuick | pause | resume | endDay => cases hl
  | endPausedTx id now =>
    change c.endPausedRead ((r 0).breakView id) id now = c ∨ _
    change _ ∨ ∃ k, EndsBreak c (c.endPausedRead ((r 0).breakView id) id now) k
    cases hv : (r 0).breakView id with
    | none => exact Or.inl rfl
    | some v =>
      by_cases hst : v.record.state = .paused
      · have hc := hsound v hv hst
        have hover := (h.view hc).over (by rw [hst]; simp)
        exact Or.inr ⟨id, endsBreak_endPausedRead hc hover hst rfl⟩
      · exact Or.inl (if_pos hst)
  | markEnded id t =>
    change (Tx.markEnded id t).effect r c = c ∨ ∃ k, EndsBreak c ((Tx.markEnded id t).effect r c) k
    dsimp only [Tx.markEnded]
    cases hv : (r 0).breakView id with
    | none => exact Or.inl rfl
    | some v =>
      dsimp only
      split
      · rename_i hst
        obtain ⟨hc, hr, -⟩ := hsound v hv (Or.inl (by rw [hst]; simp))
        have hover := (h.view hc).over (by rw [hst]; simp)
        rw [hr 1]
        exact Or.inr ⟨id, endsBreak_endPausedRead hc hover hst rfl⟩
      · rename_i hst
        split
        · exact Or.inl rfl
        · rename_i hended
          have hnot : v.record.state ≠ .ended ∨ v.record.endedAt = none := by
            rcases not_and_or.1 hended with hne | hnone
            · exact Or.inl hne
            · exact Or.inr (by simpa using hnone)
          obtain ⟨hc, hr, hends⟩ := hsound v hv hnot
          have hfresh : (((r 3).closeRead v.presence t).closeSegmentsRead (r 2) id t).breakView id =
              some (v.closed v.presence (r 2) id t) := by
            rw [breakView_closes, hr 3]
            rfl
          rw [presenceOf_read (hr 1), hfresh]
          exact Or.inr ⟨id, endsBreak_markEnded h hc (hr 2) hst hnot hends⟩

/-- A transaction under the lock that meets the condition keeps the breaks in order. -/
theorem breaksOk_of_lock {t : BreakTx} (h : c.BreaksOk)
    (hl : (t.tx monthOpen calendarOf).locks = true) (hs : ∀ n, (r n).Since c)
    (hsound : t.Sound r c) :
    ((t.tx monthOpen calendarOf).effect r c).BreaksOk := by
  cases t with
  | startScheduled record hbreak day now => exact breaksOk_startScheduled hbreak h hs
  | startQuick input => exact breaksOk_startQuick h
  | pause id now => exact breaksOk_pause h hs
  | resume id now day => exact breaksOk_resume h hs
  | endDay now today legacy endedSince => exact breaksOk_endDay h hsound
  | endPausedTx | markEnded => cases hl

end

/-- No break was ever started. -/
structure Db.NoBreaks (db : Db) : Prop where
  records : db.breakRecords.rows = []
  segments : db.breakSegments.rows = []

/-- Without breaks there is nothing to show. -/
theorem Db.NoBreaks.breaksOk {db : Db} (h : db.NoBreaks) : db.BreaksOk := by
  have hrecords : ∀ r, r ∉ db.breakRecords := fun r hr => by
    rw [← Table.mem_rows, h.records] at hr
    cases hr
  have hsegments : ∀ g, g ∉ db.breakSegments := fun g hg => by
    rw [← Table.mem_rows, h.segments] at hg
    cases hg
  have hruns : ∀ p id, ¬ db.RunsFor p id := by
    rintro p id (⟨r, hr, -⟩ | ⟨g, hg, -⟩)
    · exact hrecords r hr
    · exact hsegments g hg
  exact ⟨⟨fun r hr => (hrecords r hr).elim, fun hr => (hruns _ _ hr).elim,
    fun hr => (hruns _ _ hr).elim, fun g hg => (hsegments g hg).elim⟩,
    fun hv => (hrecords _ (Db.record_of_breakView hv).1).elim⟩

/-- No segment of the break `id` is open, as stored or as it is read. -/
def Db.NoOpenSegment (db : Db) (id : ℕ) : Prop :=
  (∀ g ∈ db.breakSegments, g.breakRecordId = id → g.endedAt ≠ none) ∧
    ∀ g ∈ db.breakSegmentsOf id, g.endedAt ≠ none

/-- An ended break has no open segment, its presence session has ended and its end is at or after
the end of each of its segments; a paused break has no open segment. -/
structure Db.EndedBreaksAreOver (db : Db) : Prop where
  segments : ∀ r ∈ db.breakRecords, r.state = .ended ∨ r.state = .paused → db.NoOpenSegment r.id
  presence : ∀ r ∈ db.breakRecords, r.state = .ended → ∀ p ∈ db.presence,
    r.presenceSessionId = some p.id → p.endedAt ≠ none
  ends : ∀ r ∈ db.breakRecords, r.state = .ended → ∀ g ∈ db.breakSegmentsOf r.id, ∀ e,
    g.endedAt = some e → ∃ E, r.endedAt = some E ∧ e ≤ E

/-- Breaks in order are over once they are ended: their sessions and segments have ended. -/
theorem Db.BreaksOk.endedBreaksAreOver {db : Db} (h : db.BreaksOk) : db.EndedBreaksAreOver where
  segments := fun r hr hst => by
    have hover := (h.view (Db.breakView_of_mem hr)).over (by
      change r.state ≠ .active
      rcases hst with hst | hst <;> rw [hst] <;> simp)
    constructor
    · intro g hg hid hnone
      have hsg : (g, db.presenceOf g.presenceSessionId) ∈ (db.viewOf r).segments :=
        List.mem_map.2 ⟨g, List.mem_filter.2 ⟨hg, decide_eq_true hid⟩, rfl⟩
      obtain ⟨e, hend, -⟩ := hover.segments _ hsg
      dsimp only at hend
      simp [hnone] at hend
    · intro g hg hnone
      rw [Db.breakSegmentsOf_eq] at hg
      obtain ⟨⟨g₀, q⟩, hsg, rfl⟩ := List.mem_map.1 hg
      obtain ⟨e, -, p, hp, he⟩ := hover.segments _ hsg
      cases hp
      exact absurd (he.symm.trans hnone) (by simp)
  presence := fun r hr hst p hp hid hnone => by
    have hover := ((BreakView.inOrder_ended hst).1 (h.view (Db.breakView_of_mem hr))).1
    have hend := hover.presence p (Db.presenceOf_eq_some.2 ⟨hid, hp⟩)
    simp [hnone] at hend
  ends := fun r hr hst g hg e he => by
    have hin := (BreakView.inOrder_ended hst).1 (h.view (Db.breakView_of_mem hr))
    rw [Db.breakSegmentsOf_eq] at hg
    obtain ⟨⟨g₀, q⟩, hsg, rfl⟩ := List.mem_map.1 hg
    obtain ⟨e', hclosed, p, hp, he'⟩ := hin.1.segments _ hsg
    cases hp
    obtain rfl := Option.some.inj (he'.symm.trans he)
    exact hin.2 _ hsg _ ⟨hclosed, p, rfl, he'⟩

namespace BreakTx

/-- In every interleaving of sound transactions, from tables without breaks, an ended break is
over: its session and its segments have ended, and it has an end. Under the lock a transaction
reads what is stored (`ReadCommitted.Inv.of_run`); the ends without the lock are sound when they
have read the break as it is. -/
theorem ended_breaks_are_over {monthOpen : DateKey → Bool} {calendarOf : DayKeyFn} {db : Db}
    {as : List (Action BreakTx)} {s : State Db BreakTx} (hstart : db.NoBreaks)
    (hsound : Runs.Meets (step (tx monthOpen calendarOf)) (CommitMeets Sound) (.idle db) as)
    (hrun : Runs.run (step (tx monthOpen calendarOf)) (.idle db) as = some s) :
    s.committed.EndedBreaksAreOver := by
  have hinv : Inv (tx monthOpen calendarOf) Db.BreaksOk Db.Since (State.idle db) :=
    Inv.idle hstart.breaksOk
  refine (Inv.of_run (fun c _ => Db.Since.refl c) (fun t r c hl h hs hok => ?_)
    (fun t r c hl h hok => ?_) hinv hsound hrun).store.endedBreaksAreOver
  · exact breaksOk_of_lock h hl hs hok
  · rcases endsBreak_of_sound h hl hok with heq | ⟨id, he⟩
    · exact ⟨heq.symm ▸ h, fun r' hr' => heq.symm ▸ hr'⟩
    · exact ⟨he.breaksOk h, fun r' hr' => he.since hr'⟩

/-! ### Lunch, paused -/

/-- The tables once the day has started, at 9:00; instants in minutes here. -/
def dayStarted : Db := (Db.empty.startDay (fun _ => ⟨0⟩) 540 540 .agent fun _ => ⟨0⟩).2

/-- Lunch, from 13:00. -/
def lunch : NewBreakRecord where
  date := ⟨0⟩
  kind := some .lunch
  presenceType := .lunch
  scheduledStart := some 780
  windowClose := some 900
  startedAt := 780
  reason := none
  approvalStatus := .notRequired

/-- Lunch is started and paused. -/
def lunchPaused : List BreakTx :=
  [startScheduled lunch (by decide) ⟨0⟩ 780, pause 0 790]

/-- The transactions in a month that is not locked, of a day in one zone. -/
abbrev lunchTx : BreakTx → Transaction Db := tx (fun _ => true) fun _ => ⟨0⟩

/-- The lunch that `endPaused` ends after it was paused is over. -/
theorem ended_lunch_is_over :
    ((lunchPaused ++ [endPausedTx 0 800]).foldl (fun c t => (lunchTx t).alone c)
      dayStarted).EndedBreaksAreOver := by
  have hsound : ∀ t ∈ lunchPaused ++ [endPausedTx 0 800], ∀ c, t.Sound (fun _ => c) c := by
    intro t ht c
    simp only [lunchPaused, List.cons_append, List.nil_append, List.mem_cons, List.not_mem_nil,
      or_false] at ht
    rcases ht with rfl | rfl | rfl
    · trivial
    · trivial
    · exact fun v hv _ => hv
  have hstart : dayStarted.NoBreaks := ⟨rfl, rfl⟩
  exact ended_breaks_are_over hstart (meets_serial hsound) (run_serial _ _)

/-- Lunch is resumed between the read of `endPausedTx` and its commit. -/
def resumedWhileEnded : List (Action BreakTx) :=
  serial lunchTx lunchPaused ++
    [.start 0 (endPausedTx 0 800), .read 0, .start 1 (resume 0 799 ⟨0⟩), .read 1, .read 1, .read 1,
      .read 1, .commit 1, .commit 0]

/-- Lunch is ended, and its second segment is open. -/
theorem run_resumedWhileEnded :
    (Runs.run (step lunchTx) (.idle dayStarted) resumedWhileEnded).map
        (fun s => (s.committed.breakRecords.rows.map fun r => (r.id, r.state),
          s.committed.breakSegments.rows.map fun g => (g.breakRecordId, g.endedAt))) =
      some ([(0, .ended)], [(0, some 790), (0, none)]) := by
  decide +kernel

/-- An ended break need not be over: `endPausedTx` ends a break that was resumed since
it read it. -/
theorem ended_break_stays_open :
    ¬ ∀ (monthOpen : DateKey → Bool) (calendarOf : DayKeyFn) (db : Db) (as : List (Action BreakTx))
        (s : State Db BreakTx), db.NoBreaks →
      Runs.run (step (tx monthOpen calendarOf)) (.idle db) as = some s →
        s.committed.EndedBreaksAreOver := by
  intro h
  obtain ⟨s, hs, hrows⟩ := Option.map_eq_some_iff.1 run_resumedWhileEnded
  have hstart : dayStarted.NoBreaks := ⟨rfl, rfl⟩
  have hover := h _ _ _ _ s hstart hs
  obtain ⟨hrecords, hsegments⟩ := Prod.mk.inj hrows
  have hr : (0, BreakState.ended) ∈ s.committed.breakRecords.rows.map fun r => (r.id, r.state) := by
    rw [hrecords]
    simp
  have hg : (0, none) ∈ s.committed.breakSegments.rows.map fun g =>
      (g.breakRecordId, g.endedAt) := by
    rw [hsegments]
    simp
  obtain ⟨r, hr, hrs⟩ := List.mem_map.1 hr
  obtain ⟨g, hg, hgs⟩ := List.mem_map.1 hg
  obtain ⟨hid, hstate⟩ := Prod.mk.inj hrs
  obtain ⟨hgid, hopen⟩ := Prod.mk.inj hgs
  exact (hover.segments r hr (Or.inl hstate)).1 g hg (hgid.trans hid.symm) hopen

end BreakTx

end RxVision
