import RxVision.Reports.MonthFrame

/-!
# A locked month is frozen

Locking a month stores a snapshot of its report, which is built from the month's rows as they are
read under the lock. `locked_month_is_frozen` says when those rows stay the ones that the lock
counted, so that the snapshot is the report that would be built now (`MonthStore.Steady` is the
condition on the run). An away stretch that nobody explained is stored without asking for its month:
`unexplained_away_changes_locked_month`.
-/

namespace RxVision

open Gate Reports

namespace MonthStore

variable {monthOf : DateKey → Month} {calendarOf : DayKeyFn} {c : MonthStore} {u : ℕ}
  {key : OrgMonth}
  {k : Option OrgMonth} {t : MonthTx}

/-! ## What the processes take from memory -/

variable {settings : ℕ → ReportSettings} {proc : ℕ} {part : MonthPart}

/-- No coverage is read of a session that is no REPLAY session of the month, so there the memory of
the process is not asked. -/
theorem coverage_eq_nil {id : ℕ}
    (h : replayed ((monthRows monthOf settings key c).person u).sessions id = none) :
    ((monthRows monthOf settings key c).person u).coverage id = [] := by
  change (c.personRows monthOf _ key u).coverage id = []
  change replayed (c.personRows monthOf _ key u).sessions id = none at h
  unfold personRows at *
  split at h
  · next hu =>
    rw [if_pos hu]
    change ((replayed _ id).map _).getD [] = []
    rw [show replayed ((c.person u).sessionsOf (InMonth monthOf key)) id = none from h]
    rfl
  · next hu =>
    rw [if_neg hu]

/-- No hours are read of a day without sessions, so there the memory of the process is not asked. -/
theorem hours_eq_nil {date : DateKey}
    (h :
      (((monthRows monthOf settings key c).person u).sessions.any fun s => s.date = date) = false) :
    ((monthRows monthOf settings key c).person u).hours date = [] := by
  change (c.personRows monthOf _ key u).hours date = []
  change ((c.personRows monthOf _ key u).sessions.any fun s => s.date = date) = false at h
  unfold personRows at *
  split at h
  · next hu =>
    rw [if_pos hu]
    refine if_neg fun h' => ?_
    obtain ⟨hin, hsome⟩ := h'
    rw [SameOn.sessionsOn_eq _ hin] at hsome
    refine hsome (List.filter_eq_nil_iff.2 fun s hs => ?_)
    exact List.any_eq_false.1 h s hs
  · next hu =>
    rw [if_neg hu]

/-- An answer is the one of the tables when what the process has in memory of the part
says what they do. -/
theorem answer_eq (h : Agrees monthOf settings proc key c part) :
    answer monthOf settings proc key c part = (monthRows monthOf settings key c).answer part := by
  cases part with
  | people | sessions | breaks | meetings | away | adjustments | presence | pending => rfl
  | coverage =>
    funext u id
    change (if (replayed ((monthRows monthOf settings key c).person u).sessions id).isSome then
        ((c.caches proc).coverage u id).getD
          (((monthRows monthOf settings key c).person u).coverage id)
      else []) = ((monthRows monthOf settings key c).person u).coverage id
    cases hreplayed : replayed ((monthRows monthOf settings key c).person u).sessions id with
    | none => exact (coverage_eq_nil hreplayed).symm
    | some s =>
      rw [Option.isSome_some, if_pos rfl]
      cases hcached : (c.caches proc).coverage u id with
      | none => rfl
      | some rows => exact h u id rows hcached (by rw [hreplayed]; rfl)
  | hours =>
    funext u date
    change (if (((monthRows monthOf settings key c).person u).sessions.any
      fun s => s.date = date) then
        ((c.caches proc).hours u date).getD
          (((monthRows monthOf settings key c).person u).hours date)
      else []) = ((monthRows monthOf settings key c).person u).hours date
    cases hany : ((monthRows monthOf settings key c).person u).sessions.any fun s =>
      s.date = date with
    | false => exact (hours_eq_nil hany).symm
    | true =>
      rw [if_pos rfl]
      cases hcached : (c.caches proc).hours u date with
      | none => rfl
      | some hours => exact h u date hours hcached hany
  | calendar =>
    funext d
    change calendarRows monthOf key (((c.caches proc).calendar key.companyId).getD
      (c.storedCalendar key.companyId)) d = calendarRows monthOf key
        (c.storedCalendar key.companyId) d
    cases hcached : (c.caches proc).calendar key.companyId with
    | none => rfl
    | some cal =>
      rw [Option.getD_some, calendarRows, calendarRows]
      split
      · next hin =>
        obtain ⟨hoverride, hpattern⟩ := h cal hcached d hin
        rw [hoverride, hpattern]
        rfl
      · rfl

/-! ## The snapshot of a locked month -/

/-- The rows are those the lock counted, and what has been read of them is what they answer. -/
structure Building (monthOf : DateKey → Month) (settings : ℕ → ReportSettings) (key : OrgMonth)
    (g : MonthBuilding) (c : MonthStore) : Prop where
  rows : monthRows monthOf settings key c = g.rows
  answers : ∀ part a, g.answers part = some a → a = g.rows.answer part

/-- The rows are those the lock counted, and the snapshot is the report of them. -/
structure Frozen (monthOf : DateKey → Month) (settings : ℕ → ReportSettings) (key : OrgMonth)
    (locked : LockedMonth) (c : MonthStore) : Prop where
  rows : monthRows monthOf settings key c = locked.rows
  snapshot : locked.snapshot = MonthAnswers.report locked.rows.answer (settings key.companyId)
    locked.snapshot.generatedAt key.month

/-- A part that is read true is what the rows that were counted answer, and joins the parts that
were read before. -/
theorem Building.add {r : MonthRead} {g : MonthBuilding} (h : Building monthOf settings key g c)
    (hr : ReadsTrue monthOf settings r key c) :
    Building monthOf settings key ((spec monthOf calendarOf settings).add r key c g) c := by
  cases r with
  | now t => exact ⟨h.rows, h.answers⟩
  | part proc part =>
    refine ⟨h.rows, fun part' a ha => ?_⟩
    change Function.update g.answers part _ part' = some a at ha
    rcases eq_or_ne part' part with rfl | hne
    · rw [Function.update_self] at ha
      rw [← Option.some.inj ha, answer_eq hr, h.rows]
      rfl
    · rw [Function.update_of_ne hne] at ha
      exact h.answers part' a ha

/-- Once every part is read the answers together are those of the rows that were counted. -/
theorem Building.all_eq {g : MonthBuilding} (h : Building monthOf settings key g c)
    {a : MonthAnswers} (ha : g.all = some a) : a = g.rows.answer := by
  unfold MonthBuilding.all at ha
  split at ha
  · next hsome =>
    obtain rfl := Option.some.inj ha
    exact funext fun part => h.answers part _ (Option.some_get _).symm
  · cases ha

/-- The snapshot that is stored in the end is the report of the rows that the lock counted, at
the time it read. -/
theorem Building.frozen {g : MonthBuilding} {locked : LockedMonth}
    (h : Building monthOf settings key g c)
    (hkept : (spec monthOf calendarOf settings).kept key g = some locked) :
    Frozen monthOf settings key locked c := by
  obtain ⟨now, -, hkept⟩ := Option.bind_eq_some_iff.1 hkept
  obtain ⟨a, ha, rfl⟩ := Option.map_eq_some_iff.1 hkept
  rw [h.all_eq ha]
  exact ⟨h.rows, rfl⟩

/-! ## The condition on runs -/

/-- The condition on the steps of a run: commits are sound, and snapshots are
built of true answers. -/
def Steady (monthOf : DateKey → Month) (settings : ℕ → ReportSettings) :
    State MonthStore OrgMonth MonthBuilding LockedMonth MonthTx →
    Action OrgMonth MonthRead MonthTx →
      Prop :=
  Ok (fun t _ c held => Sound monthOf t c held) (fun _ _ => True) (ReadsTrue monthOf settings)

/-- An adjustment or a voiding. -/
def adjusts : MonthTx → Bool
  | .adjust _ _ _ _ | .voidAdjustment _ _ _ _ => true
  | _ => false

/-- Only adjustments commit. -/
def AdjustsOnly (s : State MonthStore OrgMonth MonthBuilding LockedMonth MonthTx) :
    Action OrgMonth MonthRead MonthTx → Prop
  | .commit i =>
    match s.running i with
    | some (.placed t none) | some (.guarded t _) => adjusts t = true
    | _ => True
  | _ => True

instance {s : State MonthStore OrgMonth MonthBuilding LockedMonth MonthTx}
    {a : Action OrgMonth MonthRead MonthTx} : Decidable (AdjustsOnly s a) := by
  cases a <;> dsimp only [AdjustsOnly] <;> first | infer_instance | (split <;> infer_instance)

section

variable {s s' : State MonthStore OrgMonth MonthBuilding LockedMonth MonthTx}
  {a : Action OrgMonth MonthRead MonthTx}

/-- What commits is an adjustment. -/
theorem AdjustsOnly.adjusts_of_writes {i : ℕ} (h : AdjustsOnly s (.commit i))
    (hw : s.Writes i t k) : adjusts t = true := by
  cases hw with
  | free hi => rwa [AdjustsOnly, hi] at h
  | guarded hi => rwa [AdjustsOnly, hi] at h

/-- Adjustments leave alone what the processes have in memory. -/
theorem AdjustsOnly.caches_eq (h : AdjustsOnly s a)
    (hs : step (spec monthOf calendarOf settings) s a = some s') : s'.store.caches =
    s.store.caches := by
  rcases store_step hs with heq | ⟨i, t, k, rfl, hw, heq⟩
  · rw [heq]
  · rw [heq]
    have ht := h.adjusts_of_writes hw
    cases t with
    | adjust monthOpen u date deltaSec =>
      change MonthStore.caches (if monthOpen date then _ else s.store) = _
      split <;> rfl
    | voidAdjustment => rfl
    | _ => cases ht

/-- A process that has nothing in memory agrees with the tables in every part. -/
theorem agrees_of_empty (hcaches : c.caches = fun _ => ReportCaches.empty) :
    Agrees monthOf settings proc key c part := by
  cases part with
  | coverage =>
    intro u id rows hrows
    rw [hcaches] at hrows
    cases hrows
  | hours =>
    intro u date hours hhours
    rw [hcaches] at hhours
    cases hhours
  | calendar =>
    intro cal hcal
    rw [hcaches] at hcal
    cases hcal
  | people | sessions | breaks | meetings | away | adjustments | presence | pending => trivial

/-- Adjustments ask for their month, and where nothing is in memory every answer is the tables', so
nothing more has to hold of them. -/
theorem AdjustsOnly.steady (hcaches : s.store.caches = fun _ => ReportCaches.empty)
    (h : AdjustsOnly s a) : Steady monthOf settings s a := by
  cases a with
  | commit i =>
    intro t k hw
    have ht := h.adjusts_of_writes hw
    cases t <;> trivial
  | keep i r =>
    intro key g _
    cases r with
    | now t => trivial
    | part proc part => exact agrees_of_empty hcaches
  | count => exact fun _ _ => trivial
  | start | read | check | close | reopen | rollback => trivial

end

/-! ## One person in one organisation -/

/-- The hour of day 40. -/
def hourOfDay40 : WorkSession where
  id := 0
  date := ⟨40⟩
  startedAt := 0
  endedAt := some 3600000
  endReason := some .user
  source := .agent

/-- Somebody of organisation 1 who worked that hour. -/
def oneWorker : MonthStore where
  users := [0]
  companyOf _ := some 1
  active _ := true
  person _ :=
    { world :=
        ⟨{ Db.empty with workSessions := ⟨[hourOfDay40], 1, by decide, by decide⟩ }, 7200000, none,
          [], []⟩
      overruns := fun _ => {}
      durationMin := fun _ => none
      adjustments := .empty
      samples := .empty }
  days _ _ := none
  patterns _ := .initial
  caches _ := .empty

/-- A report on UTC of people without a shift. -/
def plainSettings : ReportSettings where
  tz := ⟨fun _ => 0⟩
  bufferMin := 0
  fullDayPct := 80
  halfDayPct := 40
  lateStartGraceMin := 15
  quietHourActiveMin := 10
  quietHoursFlag := 5
  shiftStart _ _ := none
  overrunGraceMin _ _ := none
  targetSec _ _ := 0
  joinedOn _ := none

/-- The month of day 40 in organisation 1. -/
def february : OrgMonth := ⟨1, calendarMonth ⟨40⟩⟩

/-- An adjustment by the transaction `i`, up to its look at the month. -/
def adjustment (i : ℕ) (day deltaSec : ℤ) : List (Action OrgMonth MonthRead MonthTx) :=
  [.start i (.adjust (fun _ => false) 0 ⟨day⟩ deltaSec), .read i, .check i]

/-- The lock is asked for on day 60, counts, and reads who there is and their sessions. -/
def beginLock : List (Action OrgMonth MonthRead MonthTx) :=
  [.close 0 february, .count 0, .keep 0 (.now 5184000000), .keep 0 (.part 0 .people),
    .keep 0 (.part 0 .sessions)]

/-- It reads the other parts and stores the snapshot. -/
def endLock : List (Action OrgMonth MonthRead MonthTx) :=
  [MonthPart.breaks, .meetings, .away, .adjustments, .presence, .coverage, .hours, .pending,
    .calendar].map (fun part => .keep 0 (.part 0 part)) ++ [.commit 0]

/-- An adjustment of day 40 before the lock, one of day 70 while the month of day 40 is read, and
one of day 40 that finds the month locked. -/
def adjustedAroundLock : List (Action OrgMonth MonthRead MonthTx) :=
  adjustment 0 40 600 ++ [.commit 0] ++ beginLock ++ adjustment 1 70 600 ++ [.commit 1] ++
    endLock ++ adjustment 0 40 600

/-- The agent reports ten minutes without input of day 40 after the month is locked. -/
def unexplainedAfterLock : List (Action OrgMonth MonthRead MonthTx) :=
  beginLock ++ endLock ++
    [.start 0 (.record 0 (.live (.unexplained (fun _ => false) 1200000 1800000))),
      .read 0, .commit 0]

/-- The focus time of User 0 in a snapshot. -/
def focusSec (snapshot : MonthSnapshot) : Option ℤ :=
  (snapshot.persons 0).map fun p => p.totals.get (.sum .focusSec)

/-! ## The theorem -/

/-- In every interleaving whose steps meet the condition, a locked month's rows are those that its
lock counted before the snapshot was read, and building the report again, with the same settings and
as of the same time, gives the snapshot. While the snapshot is read the rows are those already. -/
theorem locked_month_is_frozen (monthOf : DateKey → Month) (calendarOf : DayKeyFn)
    (settings : ℕ → ReportSettings) (c : MonthStore) (as : List (Action OrgMonth MonthRead MonthTx))
    (s : State MonthStore OrgMonth MonthBuilding LockedMonth MonthTx)
    (hm : Runs.Meets (step (spec monthOf calendarOf settings)) (Steady monthOf settings)
      (State.idle c) as)
    (hr : Runs.run (step (spec monthOf calendarOf settings)) (State.idle c) as = some s) :
    (∀ key locked, s.gates key = some locked →
      monthRows monthOf settings key s.store = locked.rows ∧
      ∀ proc, (∀ part, Agrees monthOf settings proc key s.store part) →
        rebuild monthOf settings proc key locked.snapshot.generatedAt s.store = locked.snapshot) ∧
    ∀ i key g, s.running i = some (.counted key g) →
      monthRows monthOf settings key s.store = g.rows := by
  have hwrite : ∀ t k c held, Fits monthOf t k c → Sound monthOf t c held →
      (∀ key, k = some key → ¬ held key) → ∀ key, held key →
      (∀ locked, Frozen monthOf settings key locked c →
        Frozen monthOf settings key locked (write calendarOf t c)) ∧
      ∀ g, Building monthOf settings key g c →
        Building monthOf settings key g (write calendarOf t c) := by
    intro t k c held hfit hok hfree key hheld
    have hrows : monthRows monthOf settings key (write calendarOf t c) =
        monthRows monthOf settings key c := rowsOf_write hfit hok hfree hheld
    exact ⟨fun _ h => ⟨hrows.trans h.rows, h.snapshot⟩, fun _ h => ⟨hrows.trans h.rows, h.answers⟩⟩
  have hinv : Inv (Frozen monthOf settings) (Building monthOf settings) (Fits monthOf) s := by
    refine Inv.of_run (fun key c _ _ => ⟨rfl, fun _ _ h => ?_⟩) (fun _ _ _ _ hread h => h.add hread)
      (fun _ _ _ _ h hkept => h.frozen hkept) (fun _ _ _ _ => fits_of_read)
      (fun _ _ _ _ => fits_write) hwrite (Inv.idle c) hm hr
    cases h
  refine ⟨fun key locked hlocked => ?_, fun _ _ _ h => (hinv.counted h).rows⟩
  have hfrozen := hinv.closed hlocked
  refine ⟨hfrozen.rows, fun proc hagrees => ?_⟩
  have hanswers : answer monthOf settings proc key s.store = locked.rows.answer := by
    rw [← hfrozen.rows]
    exact funext fun part => answer_eq (hagrees part)
  rw [rebuild, hanswers]
  exact hfrozen.snapshot.symm

/-- The month of day 40 with its adjustment, read while day 70 is adjusted. -/
theorem locked_month_is_frozen_adjusted :
    ∃ s locked, Runs.run (step (spec calendarMonth utcDay fun _ => plainSettings))
    (State.idle oneWorker)
        adjustedAroundLock = some s ∧
      s.gates february = some locked ∧
      rebuild calendarMonth (fun _ => plainSettings) 0 february
        locked.snapshot.generatedAt s.store =
        locked.snapshot := by
  have hlocked : (Runs.run (step (spec calendarMonth utcDay fun _ => plainSettings))
      (State.idle oneWorker) adjustedAroundLock).any
        (fun s => (s.gates february).isSome) = true := by
    decide +kernel
  have hadjusts : Runs.Meets (step (spec calendarMonth utcDay fun _ => plainSettings)) AdjustsOnly
      (State.idle oneWorker) adjustedAroundLock := by decide +kernel
  have hforgets : ∀ s a s', s.store.caches = (fun _ => ReportCaches.empty) → AdjustsOnly s a →
      step (spec calendarMonth utcDay fun _ => plainSettings) s a = some s' →
      s'.store.caches = fun _ => ReportCaches.empty :=
    fun s a s' hcaches h hs => (h.caches_eq hs).trans hcaches
  obtain ⟨s, hs, hgate⟩ := (Option.any_eq_true ..).1 hlocked
  obtain ⟨locked, hlocked⟩ := Option.isSome_iff_exists.1 hgate
  have hcaches : s.store.caches = fun _ => ReportCaches.empty :=
    Runs.invariant_run _ hforgets rfl hadjusts hs
  refine ⟨s, locked, hs, hlocked,
    ((locked_month_is_frozen calendarMonth utcDay (fun _ => plainSettings) oneWorker
      adjustedAroundLock s
      (hadjusts.mono_of_inv _ hforgets (fun _ _ hcaches h => h.steady hcaches) rfl) hs).1 february
        locked
      hlocked).2 0 fun part => ?_⟩
  exact agrees_of_empty hcaches

/-- Away time that nobody explained is stored in a locked month: built again, the report has ten
minutes less of focus time than the snapshot. -/
theorem unexplained_away_changes_locked_month :
    ¬ ∀ (as : List (Action OrgMonth MonthRead MonthTx))
      (s : State MonthStore OrgMonth MonthBuilding LockedMonth MonthTx),
      Runs.run (step (spec calendarMonth utcDay fun _ => plainSettings)) (State.idle oneWorker) as =
        some s →
      ∀ key locked, s.gates key = some locked →
        rebuild calendarMonth (fun _ => plainSettings) 0 key locked.snapshot.generatedAt s.store =
          locked.snapshot := by
  intro hclaim
  have hrun :
    ((Runs.run (step (spec calendarMonth utcDay fun _ => plainSettings)) (State.idle oneWorker)
      unexplainedAfterLock).map fun s => (s.gates february).map fun locked =>
        (focusSec locked.snapshot,
          focusSec (rebuild calendarMonth (fun _ => plainSettings) 0 february
          locked.snapshot.generatedAt s.store))) = some (some (some 3600, some 3000)) := by
    decide +kernel
  obtain ⟨s, hs, hgate⟩ := Option.map_eq_some_iff.1 hrun
  obtain ⟨locked, hlocked, hfocus⟩ := Option.map_eq_some_iff.1 hgate
  rw [hclaim _ s hs february locked hlocked, Prod.mk.injEq] at hfocus
  cases hfocus.1.symm.trans hfocus.2

end MonthStore

end RxVision
