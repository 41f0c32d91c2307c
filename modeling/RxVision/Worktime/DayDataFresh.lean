import RxVision.Worktime.DayData

/-!
# When cached day data is what an uncached read answers

What a call keeps of a day or a session stays right while nothing it rests on changes unnoticed. A
settled day's answer rests on nothing, so no stamp of a sample and no change of a session may reach
the day; another answer rests on a stamp and the sample version, so an unannounced sample may not
reach it while they hold, and a change may not bring its stamp back (`DayDataWorld.Ok`). A stamp
reaches a settled day when the person's last sample before a long absence is closed by the first one
after it. Under these conditions every kept answer that a call may take is right
(`DayDataWorld.Inv`), so a call that starts when all is quiet, and during which nothing is stored or
changed, answers as an uncached read does (`day_data_fresh`).
-/

namespace RxVision

/-! ## What the queries depend on -/

section Queries

variable {hourOf : ℤ → ℕ} {sessions : List WorkSession} {t : Samples} {prev : ActivitySampleRecord}
  {r : SessionRange} {sec : ℤ} {s : Sample}

/-- What a map holds after an entry was put in it. -/
theorem update_eq_some {α β : Type*} [DecidableEq α] {f : α → Option β} {a x : α}
    {v : Option β} {y : β}
    (h : Function.update f a v x = some y) : (x = a ∧ v = some y) ∨ f x = some y := by
  by_cases hx : x = a
  · subst hx
    exact .inl ⟨rfl, Function.update_self x v f ▸ h⟩
  · exact .inr (Function.update_of_ne hx v f ▸ h)

/-- A filter and map over rows of which one is changed, where neither sees the change,
gives the same list. -/
theorem map_filter_update {α β : Type*} {rows : List α} {p : α → Bool} {f : α → α} {g : α → β}
    (hp : ∀ x ∈ rows, p (f x) = p x) (hg : ∀ x ∈ rows, p x = true → g (f x) = g x) :
    ((rows.map f).filter p).map g = (rows.filter p).map g := by
  induction rows with
  | nil => rfl
  | cons x rows ih =>
    obtain ⟨hpx, hprows⟩ := List.forall_mem_cons.1 hp
    obtain ⟨hgx, hgrows⟩ := List.forall_mem_cons.1 hg
    rw [List.map_cons, List.filter_cons, List.filter_cons, hpx]
    cases hx : p x with
    | true => simp [hgx hx, ih hprows hgrows]
    | false => simpa using ih hprows hgrows

/-- Stamping a sample that counts in none of the sessions leaves the hour buckets of
the sessions. -/
theorem activeSecByHour_stampDuration (hprev : prev ∈ t)
    (h : ∀ ws ∈ sessions, (prev.counted && ws.holds prev.takenAt) = false) :
    activeSecByHour hourOf sessions (t.stampDuration prev.id sec) =
        activeSecByHour hourOf sessions t := by
  unfold activeSecByHour
  refine List.map_congr_left fun hour _ => congrArg List.sum (List.map_congr_left fun ws hws => ?_)
  refine congrArg List.sum (map_filter_update (fun x _ => ?_) fun x hx hcounts => ?_)
  · split <;> rfl
  · split
    · rename_i hid
      obtain rfl : x = prev := Table.eq_of_key hx hprev (of_decide_eq_true hid)
      rw [h ws hws] at hcounts
      cases hcounts
    · rfl

/-- A sample that is created has no duration yet, so it adds nothing to an hour bucket. -/
theorem activeSecByHour_createSample :
    activeSecByHour hourOf sessions (t.createSample s) = activeSecByHour hourOf sessions t := by
  unfold activeSecByHour Samples.createSample Table.create
  refine List.map_congr_left fun hour _ => congrArg List.sum (List.map_congr_left fun ws _ => ?_)
  have hnew : ∀ b : Bool, ∀ id,
    ((bif b then [({ s with durationSec := 0, id } : ActivitySampleRecord)]
      else []).map fun x => x.cappedSec).sum = 0 := by
    intro b id
    cases b <;> rfl
  rw [List.filter_append, List.map_append, List.sum_append, List.filter_singleton]
  exact (congrArg (_ + ·) (hnew _ _)).trans (Int.add_zero _)

/-- Stamping a sample outside the range leaves the coverage of the range. -/
theorem activityCoverage_stampDuration (hprev : prev ∈ t) (h : r.covers prev.takenAt = false) :
    activityCoverage r (t.stampDuration prev.id sec) = activityCoverage r t := by
  unfold activityCoverage
  refine congrArg _ (congrArg _ (map_filter_update (fun x _ => ?_) fun x hx hcovers => ?_))
  · split <;> rfl
  · split
    · rename_i hid
      obtain rfl : x = prev := Table.eq_of_key hx hprev (of_decide_eq_true hid)
      rw [h] at hcovers
      cases hcovers
    · rfl

/-- Creating a sample outside the range leaves the coverage. -/
theorem activityCoverage_createSample (h : r.covers s.takenAt = false) :
    activityCoverage r (t.createSample s) = activityCoverage r t := by
  unfold activityCoverage Samples.createSample Table.create
  rw [List.filter_append, List.filter_singleton, h]
  simp

end Queries

/-! ## What is kept -/

/-- What the kept buckets of a day rest on: nothing when it was settled, else its stamp and the
sample version; the buckets of an open day are not kept. -/
def SessionDayRow.basis (row : SessionDayRow) (version : ℕ) : Option (Option (DayStamp × ℕ)) :=
  if row.settled then some none else if row.closed then some (some (row.stamp, version)) else none

/-- What the kept coverage of a session rests on besides its range. -/
def CachedCoverage.basis (e : CachedCoverage) :
    Option ℕ := if e.settled then none else some e.version

/-- What the coverage of a session that ended at `stop` will rest on. -/
def DayQuery.basis (q : DayQuery) (version : ℕ) (stop : ℤ) : Option ℕ :=
  if stop < q.now - SETTLED_AFTER_MS then none else some version

/-- The step stores no sample and changes no session. -/
def DayDataAction.Reads : DayDataAction → Prop
  | .change _ | .storeStamp _ | .storeCreate _ | .storePublish _ => False
  | _ => True

namespace DayDataWorld

/-- The buckets of a day are kept, or were read by a call that will keep them. -/
inductive KeptHours (w : DayDataWorld) : DateKey → Option (DayStamp × ℕ) → Prop
  | settled {date : DateKey} {h : Hours} : w.caches.settled date = some h → KeptHours w date none
  | recent {date : DateKey} {e : RecentBuckets} :
      w.caches.recent date = some e → KeptHours w date (some (e.stamp, e.version))
  | read {i : ℕ} {q : DayQuery} {v : ℕ} {t : ℤ} {out fresh : List (SessionDayRow × Hours)}
      {x : SessionDayRow × Hours} {b : Option (DayStamp × ℕ)} :
      w.buckets i = some (.sampled q v t out fresh) → x ∈ fresh → x.1.basis v = some b →
      KeptHours w x.1.date b

/-- The coverage of a session is kept for a range, or was read by a call that will keep it. -/
inductive KeptCoverage (w : DayDataWorld) : SessionRange → Option ℕ → Prop
  | cached {id : ℕ} {e : CachedCoverage} : w.caches.coverage id = some e →
    KeptCoverage w e.stamp e.basis
  | read {i : ℕ} {q : DayQuery} {v : ℕ} {t stop : ℤ}
    {out fresh : List (WorkSession × List CoverageRow)}
      {x : WorkSession × List CoverageRow} :
      w.loads i = some (.sampled q v t out fresh) → x ∈ fresh → x.1.endedAt = some stop →
      KeptCoverage w x.1.range (q.basis v stop)

/-- A sample counts in the buckets of a day. -/
def CountsOn (d : DayData) (date : DateKey) (s : Sample) : Prop :=
  ∃ ws ∈ d.db.sessionsOn date, (s.counted && ws.holds s.takenAt) = true

/-- Kept buckets of a day that a sample, announced or not, does not make stale: those of a settled
day, and those whose stamp and version hold when it is not announced. -/
def HoursInUse (w : DayDataWorld) (announced : Bool) (date : DateKey) : Option (DayStamp × ℕ) → Prop
  | none => True
  | some (st, v) => announced = false ∧ v = w.data.version ∧ st = w.data.stamp date

/-- Kept coverage that a sample, announced or not, does not make stale. -/
def CoverageInUse (w : DayDataWorld) (announced : Bool) : Option ℕ → Prop
  | none => True
  | some v => announced = false ∧ v = w.data.version

/-- A sample taken at `t` reaches no kept coverage that stays in use. -/
def OutsideCoverage (w : DayDataWorld) (announced : Bool) (t : ℤ) : Prop :=
  ∀ range b, w.KeptCoverage range b → w.CoverageInUse announced b → range.covers t = false

/-- The session that a call listed still starts and ends as listed. -/
def Current (d : DayData) (s : WorkSession) : Prop :=
  ∃ r ∈ d.db.workSessions, r.id = s.id ∧ r.range = s.range

/-- The condition on a step: a sample that is stamped counts in no day, and one that is stamped or
created lies in no session, whose kept answer stays in use; a change of the sessions reaches no
settled day that is kept, gives no day a stamp that a kept answer of the day rests on, and leaves
the start and end of each session that a load has listed and not read yet. -/
def Ok (calendarOf : DayKeyFn) (w : DayDataWorld) : DayDataAction → Prop
  | .storeStamp r => ∀ prev ∈ w.data.closes r.takenAt,
      (∀ date b, w.KeptHours date b → w.HoursInUse (w.data.announces r) date b →
        ¬ CountsOn w.data date prev.toSample) ∧
      w.OutsideCoverage (w.data.announces r) prev.takenAt
  | .storeCreate i => ∀ p ∈ w.stores[i]?, ∀ r ∈ p.create, w.OutsideCoverage p.backfilled r.takenAt
  | .change c =>
    let d := w.data.change calendarOf c
    (∀ date, d.db.sessionsOn date ≠ w.data.db.sessionsOn date →
      ¬ w.KeptHours date none ∧ ∀ v, ¬ w.KeptHours date (some (d.stamp date, v))) ∧
    ∀ i call, w.loads i = some call → ∀ s ∈ call.unread, Current w.data s → Current d s
  | _ => True

/-! ## The invariant -/

/-- No sample under way will be announced. -/
def Quiet (w : DayDataWorld) : Prop := ∀ p ∈ w.stores, p.backfilled = false

section Invariant

variable (hourOf : ℤ → ℕ)

/-- Kept buckets of a day are right while what they rest on holds, once all is announced. -/
def HoursOk (w : DayDataWorld) (date : DateKey) : Option (DayStamp × ℕ) → Hours → Prop
  | none, h => h = w.data.hours hourOf date
  | some (st, v), h => v ≤ w.data.version ∧
      (v = w.data.version → st = w.data.stamp date → w.Quiet → h = w.data.hours hourOf date)

/-- Kept coverage is right for its range while what it rests on holds, once all is announced. -/
def CoverageOk (w : DayDataWorld) (range : SessionRange) : Option ℕ → List CoverageRow → Prop
  | none, rows => rows = activityCoverage range w.data.samples
  | some v, rows => v ≤ w.data.version ∧
      (v = w.data.version → w.Quiet → rows = activityCoverage range w.data.samples)

/-- The caches hold such answers. -/
structure CachesOk (w : DayDataWorld) (c : DayCaches) : Prop where
  settled : ∀ date h, c.settled date = some h → w.HoursOk hourOf date none h
  recent : ∀ date e, c.recent date = some e →
    w.HoursOk hourOf date (some (e.stamp, e.version)) e.hours
  coverage : ∀ id e, c.coverage id = some e → w.CoverageOk e.stamp e.basis e.rows

/-- What every reachable state keeps: the caches are right, and so is what the calls under way have
read; a session that a load has listed is as listed until its coverage is read. -/
structure Inv (w : DayDataWorld) : Prop where
  caches : w.CachesOk hourOf w.caches
  buckets : ∀ i call, w.buckets i = some call →
    call.Holds (fun _ v x => ∀ b, x.1.basis v = some b →
      w.HoursOk hourOf x.1.date b x.2) (fun _ => True)
      w.data.version
  loads : ∀ i call, w.loads i = some call →
    call.Holds (fun q v x => ∀ stop, x.1.endedAt = some stop →
      w.CoverageOk x.1.range (q.basis v stop) x.2)
      (Current w.data) w.data.version

end Invariant

/-- Nothing is stored or kept yet. -/
theorem Inv.empty {hourOf : ℤ → ℕ} : Inv hourOf DayDataWorld.empty where
  caches := ⟨fun _ _ h => (nomatch h), fun _ _ h => (nomatch h), fun _ _ h => (nomatch h)⟩
  buckets := fun _ _ h => nomatch h
  loads := fun _ _ h => nomatch h

/-! ## Steps that change the data -/

section Data

variable {clock : LocalTime} {hourOf : ℤ → ℕ} {calendarOf : DayKeyFn} {w w' : DayDataWorld}

/-- A step that leaves the caches and the calls keeps the invariant when it keeps each
kept answer. -/
theorem Inv.data (hi : Inv hourOf w) (hcaches : w'.caches = w.caches)
    (hbuckets : w'.buckets = w.buckets)
    (hloads : w'.loads = w.loads) (hv : w.data.version ≤ w'.data.version)
    (hhours : ∀ date b h, w.KeptHours date b → w.HoursOk hourOf date b h →
      w'.HoursOk hourOf date b h)
    (hcover : ∀ range b rows, w.KeptCoverage range b → w.CoverageOk range b rows →
      w'.CoverageOk range b rows)
    (hunread : ∀ i call, w.loads i = some call → ∀ s ∈ call.unread, Current w.data s →
      Current w'.data s) : Inv hourOf w' where
  caches := by
    rw [hcaches]
    exact ⟨fun date h hh => hhours date none h (.settled hh) (hi.caches.settled date h hh),
      fun date e he => hhours date _ e.hours (.recent he) (hi.caches.recent date e he),
      fun id e he => hcover e.stamp e.basis e.rows (.cached he) (hi.caches.coverage id e he)⟩
  buckets := by
    intro i call hcall
    rw [hbuckets] at hcall
    refine (hi.buckets i call hcall).mono hv (fun _ _ _ => trivial) ?_
    rintro q v t out fresh rfl x hx hok b hb
    exact hhours x.1.date b x.2 (.read hcall hx hb) (hok b hb)
  loads := by
    intro i call hcall
    rw [hloads] at hcall
    refine (hi.loads i call hcall).mono hv (hunread i call hcall) ?_
    rintro q v t out fresh rfl x hx hok stop hstop
    exact hcover x.1.range _ x.2 (.read hcall hx hstop) (hok stop hstop)

/-- Kept buckets stay right when those that may still be used are of a day whose buckets
have not changed. -/
theorem HoursOk.mono {date : DateKey} {b : Option (DayStamp × ℕ)} {h : Hours}
    (hv : w.data.version ≤ w'.data.version)
    (hnone : b = none → w'.data.hours hourOf date = w.data.hours hourOf date)
    (hsome : ∀ st, b = some (st, w'.data.version) → st = w'.data.stamp date → w'.Quiet →
      w'.data.version = w.data.version → w.Quiet ∧ st = w.data.stamp date ∧
        w'.data.hours hourOf date = w.data.hours hourOf date)
    (hok : w.HoursOk hourOf date b h) : w'.HoursOk hourOf date b h := by
  cases b with
  | none => exact hok.trans (hnone rfl).symm
  | some p =>
    obtain ⟨st, v⟩ := p
    refine ⟨hok.1.trans hv, fun hv' hst hq => ?_⟩
    have hveq : w'.data.version = w.data.version := le_antisymm (hv' ▸ hok.1) hv
    obtain ⟨hq', hst', hhours⟩ := hsome st (by rw [hv']) hst hq hveq
    rw [hhours]
    exact hok.2 (hv'.trans hveq) hst' hq'

/-- Kept coverage stays right when what may still be used rests on samples that have not changed. -/
theorem CoverageOk.mono {range : SessionRange} {b : Option ℕ} {rows : List CoverageRow}
    (hv : w.data.version ≤ w'.data.version)
    (hnone : b = none → activityCoverage range w'.data.samples =
      activityCoverage range w.data.samples)
    (hsome : b = some w'.data.version → w'.Quiet → w'.data.version = w.data.version → w.Quiet ∧
      activityCoverage range w'.data.samples = activityCoverage range w.data.samples)
    (hok : w.CoverageOk range b rows) : w'.CoverageOk range b rows := by
  cases b with
  | none => exact hok.trans (hnone rfl).symm
  | some v =>
    refine ⟨hok.1.trans hv, fun hv' hq => ?_⟩
    have hveq : w'.data.version = w.data.version := le_antisymm (hv' ▸ hok.1) hv
    obtain ⟨hq', hcover⟩ := hsome (by rw [hv']) hq hveq
    rw [hcover]
    exact hok.2 (hv'.trans hveq) hq'

/-- Time passes, and the recent buckets only grow older. -/
theorem Inv.tick {now : ℤ} (hi : Inv hourOf w) :
    Inv hourOf { w with data := { w.data with clock := now } } :=
  hi.data rfl rfl rfl le_rfl (fun _ _ _ _ h => h.mono le_rfl (fun _ => rfl) fun _ _ hst hq _ =>
    ⟨hq, hst, rfl⟩) (fun _ _ _ _ h => h.mono le_rfl (fun _ => rfl) fun _ hq _ => ⟨hq, rfl⟩)
    fun _ _ _ _ _ h => h

/-- Closing the previous sample gives it its duration (`DayData.closes` says which one it is), or
leaves the samples alone. -/
theorem closePrevious_eq (d : DayData) (takenAt now : ℤ) :
    (d.samples.closePrevious takenAt now).1 = match d.closes takenAt with
      | none => d.samples
      | some prev => d.samples.stampDuration prev.id (foregroundSec prev.takenAt takenAt) := by
  unfold Samples.closePrevious DayData.closes
  cases d.samples.findLatestForUser with
  | none => rfl
  | some prev =>
    by_cases h : prev.durationSec = 0 ∧ prev.takenAt ≤ takenAt ∧
      0 < foregroundSec prev.takenAt takenAt
    · simp [h, Option.filter]
    · simp [h, Option.filter]

/-- A report that gives the previous sample its duration keeps the invariant: while its sample is
not announced nothing is quiet. -/
theorem Inv.storeStamp {r : ActivityReport} (hi : Inv hourOf w)
    (hok : w.Ok calendarOf (.storeStamp r))
    (hs : w.step clock hourOf calendarOf (.storeStamp r) = some w') : Inv hourOf w' := by
  obtain rfl := Option.some.inj hs
  -- the store itself is quiet only when its sample is not announced
  have hquiet : ∀ w₂ : DayDataWorld, w₂.stores = w.stores ++ [⟨some r, w.data.announces r⟩] →
      w₂.Quiet → w.Quiet ∧ w.data.announces r = false := by
    intro w₂ hstores hq
    refine ⟨fun p hp => hq p ?_, hq ⟨some r, w.data.announces r⟩ ?_⟩
    · rw [hstores]
      exact List.mem_append_left _ hp
    · rw [hstores]
      exact List.mem_append_right _ (List.mem_singleton_self _)
  cases hclose : w.data.closes r.takenAt with
  | none =>
    have hsame : (w.data.samples.closePrevious r.takenAt r.now).1 = w.data.samples := by
      rw [closePrevious_eq, hclose]
    rw [hsame]
    refine hi.data rfl rfl rfl le_rfl (fun date b h _ hok => hok.mono ?_ ?_ ?_)
      (fun range b rows _ hok => hok.mono ?_ ?_ ?_) fun _ _ _ _ _ h => h
    · exact le_rfl
    · exact fun _ => rfl
    · exact fun st _ hst hq _ => ⟨(hquiet _ rfl hq).1, hst, rfl⟩
    · exact le_rfl
    · exact fun _ => rfl
    · exact fun _ hq _ => ⟨(hquiet _ rfl hq).1, rfl⟩
  | some prev =>
    have hsame : (w.data.samples.closePrevious r.takenAt r.now).1 =
        w.data.samples.stampDuration prev.id (foregroundSec prev.takenAt r.takenAt) := by
      rw [closePrevious_eq, hclose]
    have hprev : prev ∈ w.data.samples := by
      obtain ⟨hlast, -⟩ := Option.filter_eq_some_iff.1 hclose
      exact (Table.mem_of_findLast? hlast).1
    obtain ⟨hcounts, houtside⟩ := hok prev hclose
    have hhours : ∀ date b, w.KeptHours date b → w.HoursInUse (w.data.announces r) date b →
        activeSecByHour hourOf (w.data.db.sessionsOn date)
          (w.data.samples.closePrevious r.takenAt r.now).1 = w.data.hours hourOf date := by
      intro date b hkept huse
      rw [hsame]
      refine activeSecByHour_stampDuration hprev fun ws hws => ?_
      by_contra hc
      exact hcounts date b hkept huse ⟨ws, hws, by simpa using hc⟩
    have hcover : ∀ range b, w.KeptCoverage range b → w.CoverageInUse (w.data.announces r) b →
        activityCoverage range (w.data.samples.closePrevious r.takenAt r.now).1 =
          activityCoverage range w.data.samples := by
      intro range b hkept huse
      rw [hsame]
      exact activityCoverage_stampDuration hprev (houtside range b hkept huse)
    refine hi.data rfl rfl rfl le_rfl (fun date b h hkept hok => hok.mono ?_ ?_ ?_)
      (fun range b rows hkept hok => hok.mono ?_ ?_ ?_) fun _ _ _ _ _ h => h
    · exact le_rfl
    · rintro rfl
      exact hhours date none hkept trivial
    · rintro st rfl hst hq -
      obtain ⟨hq', hann⟩ := hquiet _ rfl hq
      exact ⟨hq', hst, hhours date _ hkept ⟨hann, rfl, hst⟩⟩
    · exact le_rfl
    · rintro rfl
      exact hcover range none hkept trivial
    · rintro rfl hq -
      obtain ⟨hq', hann⟩ := hquiet _ rfl hq
      exact ⟨hq', hcover range _ hkept ⟨hann, rfl⟩⟩

/-- The new sample of a report keeps the invariant, outside the days and sessions that
are kept for good. -/
theorem Inv.storeCreate {i : ℕ} (hi : Inv hourOf w) (hok : w.Ok calendarOf (.storeCreate i))
    (hs : w.step clock hourOf calendarOf (.storeCreate i) = some w') : Inv hourOf w' := by
  simp only [step] at hs
  split at hs
  · rename_i r backfilled hp
    obtain rfl := Option.some.inj hs
    have houtside := hok _ hp r rfl
    have hquiet : ∀ w₂ : DayDataWorld, w₂.stores = w.stores.set i ⟨none, backfilled⟩ → w₂.Quiet →
        w.Quiet ∧ backfilled = false := by
      intro w₂ hstores hq
      have hlt : i < w.stores.length := (List.getElem?_eq_some_iff.1 hp).1
      have hb : backfilled = false :=
        hq ⟨none, backfilled⟩ (by rw [hstores]; exact List.mem_set hlt _)
      refine ⟨fun p hp' => ?_, hb⟩
      obtain ⟨j, hj⟩ := List.getElem?_of_mem hp'
      by_cases hji : j = i
      · rw [hji, hp] at hj
        obtain rfl := Option.some.inj hj
        exact hb
      · refine hq p (List.mem_of_getElem? (i := j) ?_)
        rw [hstores, List.getElem?_set_ne (Ne.symm hji)]
        exact hj
    refine hi.data rfl rfl rfl le_rfl (fun date b h _ hok => hok.mono ?_ ?_ ?_)
      (fun range b rows hkept hok => hok.mono ?_ ?_ ?_) fun _ _ _ _ _ h => h
    · exact le_rfl
    · exact fun _ => activeSecByHour_createSample
    · exact fun st _ hst hq _ => ⟨(hquiet _ rfl hq).1, hst, activeSecByHour_createSample⟩
    · exact le_rfl
    · rintro rfl
      exact activityCoverage_createSample (houtside range none hkept trivial)
    · rintro rfl hq -
      obtain ⟨hq', hb⟩ := hquiet _ rfl hq
      exact ⟨hq', activityCoverage_createSample (houtside range _ hkept ⟨hb, rfl⟩)⟩
  · cases hs

/-- The announcement of a backfilled sample keeps the invariant: it raises the version, and buckets
of the old one are not used again. -/
theorem Inv.storePublish {i : ℕ} (hi : Inv hourOf w)
    (hs : w.step clock hourOf calendarOf (.storePublish i) = some w') : Inv hourOf w' := by
  simp only [step] at hs
  split at hs
  · rename_i backfilled hp
    obtain rfl := Option.some.inj hs
    have hle : w.data.version ≤ if backfilled then w.data.version + 1 else w.data.version := by
      split <;> omega
    have hquiet : ∀ w₂ : DayDataWorld, w₂.stores = w.stores.eraseIdx i → w₂.Quiet →
        (if backfilled then w.data.version + 1 else w.data.version) = w.data.version → w.Quiet := by
      intro w₂ hstores hq hv p hp'
      obtain ⟨j, hj⟩ := List.getElem?_of_mem hp'
      by_cases hji : j = i
      · rw [hji, hp] at hj
        obtain rfl := Option.some.inj hj
        cases backfilled with
        | false => rfl
        | true => simp at hv
      · exact hq p (by rw [hstores]; exact List.mem_eraseIdx_iff_getElem?.2 ⟨j, hji, hj⟩)
    exact hi.data rfl rfl rfl hle
      (fun _ _ _ _ hok => hok.mono hle (fun _ => rfl)
        fun _ _ hst hq hv => ⟨hquiet _ rfl hq hv, hst, rfl⟩)
      (fun _ _ _ _ hok => hok.mono hle (fun _ => rfl) fun _ hq hv => ⟨hquiet _ rfl hq hv, rfl⟩)
      fun _ _ _ _ _ h => h
  · cases hs

/-- A change of the sessions leaves the stamp of a day whose sessions it does not reach. -/
theorem stamp_change {d : DayData} {c : SessionChange} {date : DateKey}
    (h : (d.change calendarOf c).db.sessionsOn date = d.db.sessionsOn date) :
    (d.change calendarOf c).stamp date = d.stamp date := by
  unfold DayData.stamp
  rw [h]
  congr 2
  refine List.map_congr_left fun s hs => ?_
  have hmem : s ∈ d.db.workSessions := (List.mem_filter.1 hs).1
  have hmem' : s ∈ (d.change calendarOf c).db.workSessions := by
    rw [← h] at hs
    exact (List.mem_filter.1 hs).1
  exact if_pos ((Table.find?_key hmem').trans (Table.find?_key hmem).symm)

/-- A change of the sessions keeps the invariant when it reaches no day that is kept for good and
none that a call has listed. -/
theorem Inv.change {c : SessionChange} (hi : Inv hourOf w) (hok : w.Ok calendarOf (.change c)) :
    Inv hourOf { w with data := w.data.change calendarOf c } := by
  obtain ⟨hdays, hunread⟩ := hok
  have hhours : ∀ date, (w.data.change calendarOf c).db.sessionsOn date =
    w.data.db.sessionsOn date →
      (w.data.change calendarOf c).hours hourOf date = w.data.hours hourOf date := by
    intro date hsame
    unfold DayData.hours
    rw [hsame]
    rfl
  refine hi.data rfl rfl rfl le_rfl (fun date b h hkept hok => ?_)
    (fun _ _ _ _ hok => hok.mono le_rfl (fun _ => rfl) fun _ hq _ => ⟨hq, rfl⟩) hunread
  by_cases hsame : (w.data.change calendarOf c).db.sessionsOn date = w.data.db.sessionsOn date
  · refine hok.mono ?_ ?_ ?_
    · exact le_rfl
    · exact fun _ => hhours date hsame
    · exact fun st _ hst hq _ => ⟨hq, hst.trans (stamp_change hsame), hhours date hsame⟩
  · obtain ⟨hnone, hstamp⟩ := hdays date hsame
    refine hok.mono ?_ ?_ ?_
    · exact le_rfl
    · exact fun hb => absurd (hb ▸ hkept) hnone
    · exact fun st hb hst _ _ => absurd (hst ▸ hb ▸ hkept) (hstamp _)

end Data

/-! ## Steps of the calls -/

section Calls

variable {clock : LocalTime} {hourOf : ℤ → ℕ} {calendarOf : DayKeyFn} {w w' : DayDataWorld}

/-- A step that leaves the data and the stores keeps the invariant when the
caches and the calls do. -/
theorem Inv.of_calls (hdata : w'.data = w.data) (hstores : w'.stores = w.stores)
    (hcaches : w.CachesOk hourOf w'.caches)
    (hbuckets : ∀ i call, w'.buckets i = some call →
      call.Holds (fun _ v x => ∀ b, x.1.basis v = some b → w.HoursOk hourOf x.1.date b x.2)
        (fun _ => True) w.data.version)
    (hloads : ∀ i call, w'.loads i = some call →
      call.Holds (fun q v x => ∀ stop, x.1.endedAt = some stop →
        w.CoverageOk x.1.range (q.basis v stop) x.2) (Current w.data) w.data.version) :
    Inv hourOf w' := by
  obtain ⟨data, caches, stores, buckets, loads⟩ := w
  obtain ⟨data', caches', stores', buckets', loads'⟩ := w'
  obtain rfl : data' = data := hdata
  obtain rfl : stores' = stores := hstores
  have hHours : ∀ date b h, HoursOk hourOf ⟨data', caches, stores', buckets, loads⟩ date b h →
      HoursOk hourOf ⟨data', caches', stores', buckets', loads'⟩ date b h := by
    intro date b h hok
    cases b <;> exact hok
  have hCover : ∀ range b rows, CoverageOk ⟨data', caches, stores', buckets, loads⟩ range b rows →
      CoverageOk ⟨data', caches', stores', buckets', loads'⟩ range b rows := by
    intro range b rows hok
    cases b <;> exact hok
  refine ⟨⟨fun date h hh => hHours date none h (hcaches.settled date h hh),
    fun date e he => hHours date _ e.hours (hcaches.recent date e he),
    fun id e he => hCover e.stamp e.basis e.rows (hcaches.coverage id e he)⟩,
      fun i call hcall => ?_,
    fun i call hcall => ?_⟩
  · refine (hbuckets i call hcall).mono le_rfl (fun _ _ _ => trivial) ?_
    exact fun q v t out fresh _ x _ hok b hb => hHours x.1.date b x.2 (hok b hb)
  · refine (hloads i call hcall).mono le_rfl (fun _ _ h => h) ?_
    exact fun q v t out fresh _ x _ hok stop hstop => hCover x.1.range _ x.2 (hok stop hstop)

/-- Keeping the right buckets of a day keeps the caches right, in the map of settled days and in
that of recent ones. -/
theorem CachesOk.keepHours {c : DayCaches} {v : ℕ} {t : ℤ} {x : SessionDayRow × Hours}
    (hx : ∀ b, x.1.basis v = some b → w.HoursOk hourOf x.1.date b x.2) (hc : w.CachesOk hourOf c) :
    w.CachesOk hourOf (DayData.keepHours v t c x) := by
  obtain ⟨row, h⟩ := x
  unfold DayData.keepHours
  by_cases hsettled : row.settled = true
  · have hnew := hx none (by simp [SessionDayRow.basis, hsettled])
    simp only [hsettled, if_true]
    refine ⟨fun date h' hh => ?_, fun date e he => ?_, hc.coverage⟩
    · rcases update_eq_some hh with ⟨rfl, heq⟩ | hh
      · obtain rfl := Option.some.inj heq
        exact hnew
      · exact hc.settled date h' hh
    · rcases update_eq_some he with ⟨-, he⟩ | he
      · cases he
      · exact hc.recent date e he
  · by_cases hclosed : row.closed = true
    · have hnew := hx (some (row.stamp, v)) (by simp [SessionDayRow.basis, hsettled, hclosed])
      simp only [hsettled, hclosed, if_true, Bool.false_eq_true, if_false]
      refine ⟨hc.settled, fun date e he => ?_, hc.coverage⟩
      rcases update_eq_some he with ⟨rfl, heq⟩ | he
      · obtain rfl := Option.some.inj heq
        exact hnew
      · exact hc.recent date e he
    · simpa [hsettled, hclosed] using hc

/-- Keeping the right coverage of a session that has ended keeps the caches right; an open
session's is not kept. -/
theorem CachesOk.keepCoverage {c : DayCaches} {q : DayQuery} {v : ℕ} {t : ℤ}
    {x : WorkSession × List CoverageRow}
    (hx : ∀ stop, x.1.endedAt = some stop → w.CoverageOk x.1.range (q.basis v stop) x.2)
    (hc : w.CachesOk hourOf c) : w.CachesOk hourOf (DayData.keepCoverage q.now v t c x) := by
  obtain ⟨s, rows⟩ := x
  unfold DayData.keepCoverage
  cases hend : s.endedAt with
  | none => simpa [hend] using hc
  | some stop =>
    have hnew := hx stop hend
    simp only [hend]
    refine ⟨hc.settled, hc.recent, fun id e he => ?_⟩
    rcases update_eq_some he with ⟨-, he⟩ | he
    · obtain rfl := Option.some.inj he
      simpa [CachedCoverage.basis, DayQuery.basis] using hnew
    · exact hc.coverage id e he

/-- What is read of a session that starts and ends as it was listed is the
coverage of that range. -/
theorem coverageOf_eq {d : DayData} {s : WorkSession} (h : Current d s) :
    d.coverageOf s = activityCoverage s.range d.samples := by
  obtain ⟨r, hr, hid, hrange⟩ := h
  unfold DayData.coverageOf
  rw [show (d.db.workSessions.find? fun r' => r'.id = s.id) = some r from hid ▸ Table.find?_key hr]
  exact congrArg (activityCoverage · d.samples) hrange

/-- A session that is stored is as it is listed. -/
theorem current_of_mem {d : DayData} {s : WorkSession} (h : s ∈ d.db.workSessions) : Current d s :=
  ⟨s, h, rfl, rfl⟩

/-- The sessions that a load lists are stored. -/
theorem mem_load_list {d : DayData} {q : DayQuery} {s : WorkSession} (h : s ∈ load.list d q) :
    s ∈ d.db.workSessions :=
  (List.mem_filter.1 (List.mem_filter.1 h).1).1

/-- The buckets that a call reads of a day are right, under the version it began with. -/
theorem hoursOk_read {v : ℕ} (hv : v ≤ w.data.version) (row : SessionDayRow)
    (b : Option (DayStamp × ℕ)) (hb : row.basis v = some b) :
    w.HoursOk hourOf row.date b (w.data.hours hourOf row.date) := by
  unfold SessionDayRow.basis at hb
  split at hb
  · obtain rfl := Option.some.inj hb
    rfl
  · split at hb
    · obtain rfl := Option.some.inj hb
      exact ⟨hv, fun _ _ _ => rfl⟩
    · cases hb

/-- The coverage that a call reads of a session that is as listed is right, under the
version it began with. -/
theorem coverageOk_read {q : DayQuery} {v : ℕ} {stop : ℤ} {s : WorkSession}
    (hv : v ≤ w.data.version) (hcur : Current w.data s) :
    w.CoverageOk s.range (q.basis v stop) (w.data.coverageOf s) := by
  have hread := coverageOf_eq hcur
  unfold DayQuery.basis
  split
  · exact hread
  · exact ⟨hv, fun _ _ => hread⟩

/-- A step of a read of the hour buckets keeps the invariant: the data stay, and what the call
keeps is what it read. -/
theorem Inv.bucket {i : ℕ} {s : CachedRead.Step} (hi : Inv hourOf w)
    (hs : w.step clock hourOf calendarOf (.bucket i s) = some w') : Inv hourOf w' := by
  obtain ⟨call, hcall, hs⟩ := Option.bind_eq_some_iff.1 hs
  obtain ⟨⟨caches, call'⟩, hstep, rfl⟩ := Option.map_eq_some_iff.1 hs
  obtain ⟨hholds, hcaches⟩ := CachedRead.Call.Holds.step (fun _ _ _ => trivial)
    (fun q v row hv _ => hoursOk_read hv row) (fun q v t c x _ hx hc => hc.keepHours hx) hstep
    (hi.buckets i call hcall) hi.caches
  refine Inv.of_calls (w := w) rfl rfl hcaches (fun j call₂ hj => ?_) hi.loads
  rcases update_eq_some hj with ⟨-, hj⟩ | hj
  · obtain rfl := Option.some.inj hj
    exact hholds
  · exact hi.buckets j call₂ hj

/-- A step of a read of the coverage keeps the invariant, by the same rules of `CachedRead`. -/
theorem Inv.load {i : ℕ} {s : CachedRead.Step} (hi : Inv hourOf w)
    (hs : w.step clock hourOf calendarOf (.load i s) = some w') : Inv hourOf w' := by
  obtain ⟨call, hcall, hs⟩ := Option.bind_eq_some_iff.1 hs
  obtain ⟨⟨caches, call'⟩, hstep, rfl⟩ := Option.map_eq_some_iff.1 hs
  obtain ⟨hholds, hcaches⟩ := CachedRead.Call.Holds.step
    (fun q s hmem => current_of_mem (mem_load_list hmem))
      (fun q v s hv hcur stop _ => coverageOk_read hv hcur)
    (fun q v t c x _ hx hc => hc.keepCoverage hx) hstep (hi.loads i call hcall) hi.caches
  refine Inv.of_calls (w := w) rfl rfl hcaches hi.buckets fun j call₂ hj => ?_
  rcases update_eq_some hj with ⟨-, hj⟩ | hj
  · obtain rfl := Option.some.inj hj
    exact hholds
  · exact hi.loads j call₂ hj

/-- A call begins with the version of the moment, and has read nothing yet. -/
theorem holds_begun {Q ι α : Type*} {P : Q → ℕ → ι × α → Prop} {U : ι → Prop} {V : ℕ}
    {i j : ℕ} {q : Q}
    {calls : ℕ → Option (CachedRead.Call Q ι α)} {call : CachedRead.Call Q ι α}
    (h : ∀ i call, calls i = some call → call.Holds P U V)
    (hj : Function.update calls i (some (.begun q V)) j = some call) : call.Holds P U V := by
  rcases update_eq_some hj with ⟨-, hj⟩ | hj
  · obtain rfl := Option.some.inj hj
    exact le_rfl
  · exact h j call hj

/-- Every step that meets the condition keeps the invariant: reads and clearings always do, writes
by their lemmas above. -/
theorem Inv.step {a : DayDataAction} (hi : Inv hourOf w) (hok : w.Ok calendarOf a)
    (hs : w.step clock hourOf calendarOf a = some w') : Inv hourOf w' := by
  cases a with
  | tick now =>
    simp only [DayDataWorld.step] at hs
    split at hs
    · obtain rfl := Option.some.inj hs
      exact hi.tick
    · cases hs
  | change c =>
    obtain rfl := Option.some.inj hs
    exact hi.change hok
  | storeStamp r => exact hi.storeStamp hok hs
  | storeCreate i => exact hi.storeCreate hok hs
  | storePublish i => exact hi.storePublish hs
  | clearSettled =>
    obtain rfl := Option.some.inj hs
    exact Inv.of_calls (w := w) rfl rfl
      ⟨fun _ _ h => (nomatch h), hi.caches.recent, hi.caches.coverage⟩ hi.buckets hi.loads
  | clearRecent =>
    obtain rfl := Option.some.inj hs
    exact Inv.of_calls (w := w) rfl rfl
      ⟨hi.caches.settled, fun _ _ h => (nomatch h), hi.caches.coverage⟩ hi.buckets hi.loads
  | clearCoverage =>
    obtain rfl := Option.some.inj hs
    exact Inv.of_calls (w := w) rfl rfl
      ⟨hi.caches.settled, hi.caches.recent, fun _ _ h => (nomatch h)⟩ hi.buckets hi.loads
  | bucketBegin i q =>
    simp only [DayDataWorld.step] at hs
    split at hs
    · obtain rfl := Option.some.inj hs
      exact Inv.of_calls (w := w) rfl rfl hi.caches
        (fun j call hj => holds_begun hi.buckets hj) hi.loads
    · cases hs
  | bucket i s => exact hi.bucket hs
  | loadBegin i q =>
    simp only [DayDataWorld.step] at hs
    split at hs
    · obtain rfl := Option.some.inj hs
      exact Inv.of_calls (w := w) rfl rfl hi.caches hi.buckets fun j call hj =>
        holds_begun hi.loads hj
    · cases hs
  | load i s => exact hi.load hs

end Calls

/-! ## A call that starts when all is quiet -/

section Fresh

variable {clock : LocalTime} {hourOf : ℤ → ℕ} {calendarOf : DayKeyFn} {w w' : DayDataWorld}
  {a : DayDataAction} {as : List DayDataAction} {i : ℕ} {q : DayQuery}

/-- The condition asks nothing of a read, of the clearing of a cache or of the clock. -/
theorem Ok.of_reads (h : a.Reads) : w.Ok calendarOf a := by
  cases a with
  | change => cases h
  | storeStamp => cases h
  | storeCreate => cases h
  | storePublish => cases h
  | tick | clearSettled | clearRecent | clearCoverage | bucketBegin | bucket | loadBegin | load =>
    trivial

/-- A step that stores and changes nothing leaves the stores under way, and of the data
all but the clock. -/
theorem step_reads (h : a.Reads) (hs : w.step clock hourOf calendarOf a = some w') :
    w'.stores = w.stores ∧ ∃ now, w'.data = { w.data with clock := now } := by
  cases a with
  | change => cases h
  | storeStamp => cases h
  | storeCreate => cases h
  | storePublish => cases h
  | tick now =>
    simp only [DayDataWorld.step] at hs
    split at hs
    · obtain rfl := Option.some.inj hs
      exact ⟨rfl, now, rfl⟩
    · cases hs
  | clearSettled | clearRecent | clearCoverage =>
    obtain rfl := Option.some.inj hs
    exact ⟨rfl, w.data.clock, rfl⟩
  | bucketBegin | loadBegin =>
    simp only [DayDataWorld.step] at hs
    split at hs
    · obtain rfl := Option.some.inj hs
      exact ⟨rfl, w.data.clock, rfl⟩
    · cases hs
  | bucket | load =>
    obtain ⟨call, -, hs⟩ := Option.bind_eq_some_iff.1 hs
    obtain ⟨p, -, rfl⟩ := Option.map_eq_some_iff.1 hs
    exact ⟨rfl, w.data.clock, rfl⟩

/-- A call of `bucketHours` under way takes its own next step, or stays as it is while
others take theirs. -/
theorem bucket_step {call : BucketCall} (hcall : w.buckets i = some call)
    (hs : w.step clock hourOf calendarOf a = some w') :
    w'.buckets i = some call ∨ ∃ s caches call', w'.data = w.data ∧ w'.buckets i = some call' ∧
      (bucketHours hourOf).step w.data w.caches s call = some (caches, call') := by
  cases a with
  | bucket j s =>
    obtain ⟨call₂, hcall₂, hs⟩ := Option.bind_eq_some_iff.1 hs
    obtain ⟨⟨caches, call'⟩, hstep, rfl⟩ := Option.map_eq_some_iff.1 hs
    by_cases hij : i = j
    · subst hij
      obtain rfl := Option.some.inj (hcall.symm.trans hcall₂)
      exact .inr ⟨s, caches, call', rfl, Function.update_self .., hstep⟩
    · exact .inl ((Function.update_of_ne hij ..).trans hcall)
  | bucketBegin j q =>
    simp only [DayDataWorld.step] at hs
    split at hs
    · rename_i hnone
      obtain rfl := Option.some.inj hs
      refine .inl ((Function.update_of_ne ?_ ..).trans hcall)
      rintro rfl
      rw [hnone] at hcall
      cases hcall
    · cases hs
  | load j s =>
    obtain ⟨call₂, -, hs⟩ := Option.bind_eq_some_iff.1 hs
    obtain ⟨p, -, rfl⟩ := Option.map_eq_some_iff.1 hs
    exact .inl hcall
  | change | storeStamp | clearSettled | clearRecent | clearCoverage =>
    obtain rfl := Option.some.inj hs
    exact .inl hcall
  | tick | loadBegin | storeCreate | storePublish =>
    simp only [DayDataWorld.step] at hs
    split at hs
    · obtain rfl := Option.some.inj hs
      exact .inl hcall
    · cases hs

/-- A call of `load` under way takes its own next step, or stays as it is while
others take theirs. -/
theorem load_step {call : LoadCall} (hcall : w.loads i = some call)
    (hs : w.step clock hourOf calendarOf a = some w') :
    w'.loads i = some call ∨ ∃ s caches call', w'.data = w.data ∧ w'.loads i = some call' ∧
      RxVision.load.step w.data w.caches s call = some (caches, call') := by
  cases a with
  | load j s =>
    obtain ⟨call₂, hcall₂, hs⟩ := Option.bind_eq_some_iff.1 hs
    obtain ⟨⟨caches, call'⟩, hstep, rfl⟩ := Option.map_eq_some_iff.1 hs
    by_cases hij : i = j
    · subst hij
      obtain rfl := Option.some.inj (hcall.symm.trans hcall₂)
      exact .inr ⟨s, caches, call', rfl, Function.update_self .., hstep⟩
    · exact .inl ((Function.update_of_ne hij ..).trans hcall)
  | loadBegin j q =>
    simp only [DayDataWorld.step] at hs
    split at hs
    · rename_i hnone
      obtain rfl := Option.some.inj hs
      refine .inl ((Function.update_of_ne ?_ ..).trans hcall)
      rintro rfl
      rw [hnone] at hcall
      cases hcall
    · cases hs
  | bucket j s =>
    obtain ⟨call₂, -, hs⟩ := Option.bind_eq_some_iff.1 hs
    obtain ⟨p, -, rfl⟩ := Option.map_eq_some_iff.1 hs
    exact .inl hcall
  | change | storeStamp | clearSettled | clearRecent | clearCoverage =>
    obtain rfl := Option.some.inj hs
    exact .inl hcall
  | tick | bucketBegin | storeCreate | storePublish =>
    simp only [DayDataWorld.step] at hs
    split at hs
    · obtain rfl := Option.some.inj hs
      exact .inl hcall
    · cases hs

/-- Once all is quiet, the buckets that a call finds kept are those it would read
from the samples. -/
theorem Inv.lookupHours (hi : Inv hourOf w) (hq : w.Quiet) {row : SessionDayRow}
    (hrow : row ∈ w.data.sessionDays q) {h : Hours}
    (hh : w.data.lookupHours w.caches w.data.version row = some h) :
        h = w.data.hours hourOf row.date := by
  have hstamp : row.stamp = w.data.stamp row.date := by
    obtain ⟨date, -, rfl⟩ := List.mem_map.1 hrow
    rfl
  unfold DayData.lookupHours at hh
  split at hh
  · exact hi.caches.settled row.date h hh
  · split at hh
    · obtain ⟨e, he, hh⟩ := Option.bind_eq_some_iff.1 hh
      split at hh
      · rename_i hfound
        obtain rfl := Option.some.inj hh
        exact (hi.caches.recent row.date e he).2 hfound.2.1 (hfound.1.trans hstamp) hq
      · cases hh
    · cases hh

/-- Once all is quiet, the coverage that a call finds kept of a session is what it would read
from the samples. -/
theorem Inv.lookupCoverage (hi : Inv hourOf w) (hq : w.Quiet) {s : WorkSession}
    (hs : s ∈ w.data.db.workSessions) {rows : List CoverageRow}
    (hrows : w.data.lookupCoverage w.caches w.data.version s = some rows) :
    rows = w.data.coverageOf s := by
  rw [coverageOf_eq (current_of_mem hs)]
  unfold DayData.lookupCoverage at hrows
  split at hrows
  · obtain ⟨e, he, hrows⟩ := Option.bind_eq_some_iff.1 hrows
    split at hrows
    · rename_i hfound
      obtain ⟨hrange, hbasis⟩ := hfound
      obtain rfl := Option.some.inj hrows
      have hok := hi.caches.coverage s.id e he
      unfold CachedCoverage.basis at hok
      rw [hrange] at hok
      split at hok
      · exact hok
      · rename_i hsettled
        rcases hbasis with hbasis | hbasis
        · exact absurd hbasis hsettled
        · exact hok.2 hbasis.1 hq
    · cases hrows
  · cases hrows

/-- A call that is fresh stays so while nothing is stored or changed, when each step of the system
leaves it or is its own next step, and what it finds in a quiet system is what it would read. -/
theorem fresh_run {ι α : Type*} {k : CachedRead DayData DayCaches DayQuery ι α}
    {callOf : DayDataWorld → Option (CachedRead.Call DayQuery ι α)}
    {call : CachedRead.Call DayQuery ι α}
    (hstep : ∀ {w w' a call}, callOf w = some call →
      w.step clock hourOf calendarOf a = some w' → callOf w' = some call ∨
        ∃ s caches call', w'.data = w.data ∧ callOf w' = some call' ∧
          k.step w.data w.caches s call = some (caches, call'))
    (hlookup : ∀ {w : DayDataWorld}, Inv hourOf w → w.Quiet → ∀ x ∈ k.list w.data q, ∀ a,
      k.lookup w.data w.caches (k.version w.data) x = some a → a = k.read w.data x)
    (hclock : ∀ (d : DayData) now, k.version { d with clock := now } = k.version d ∧
      k.list { d with clock := now } q = k.list d q ∧
        ∀ x, k.read { d with clock := now } x = k.read d x)
    (hi : Inv hourOf w) (hq : w.Quiet) (hreads : ∀ a ∈ as, a.Reads) (hcall : callOf w = some call)
    (hfresh : k.Fresh w.data q call)
    (hrun : Runs.run (step clock hourOf calendarOf) w as = some w') :
    ∃ call', callOf w' = some call' ∧ k.Fresh w'.data q call' := by
  induction as generalizing w call with
  | nil =>
    obtain rfl := Option.some.inj hrun
    exact ⟨call, hcall, hfresh⟩
  | cons a as ih =>
    obtain ⟨w₁, hs, hrun⟩ := Runs.run_cons_eq_some.1 hrun
    obtain ⟨ha, has⟩ := List.forall_mem_cons.1 hreads
    obtain ⟨hstores, now, hdata⟩ := step_reads ha hs
    have hi₁ := hi.step (.of_reads ha) hs
    have hq₁ : w₁.Quiet := by
      rw [Quiet, hstores]
      exact hq
    rcases hstep hcall hs with hcall₁ | ⟨s, caches, call₁, hsame, hcall₁, hown⟩
    · -- the clock may have moved
      obtain ⟨hversion, hlist, hread⟩ := hclock w.data now
      refine ih hi₁ hq₁ has hcall₁ ?_ hrun
      rw [hdata]
      exact hfresh.congr hversion.symm hlist.symm fun x _ => (hread x).symm
    · refine ih hi₁ hq₁ has hcall₁ ?_ hrun
      rw [hsame]
      exact hfresh.step (hlookup hi hq) hown

/-- A call of `bucketHours` that is fresh stays so while nothing is stored or changed. -/
theorem bucket_fresh_run {call : BucketCall} (hi : Inv hourOf w) (hq : w.Quiet)
    (hreads : ∀ a ∈ as, a.Reads) (hcall : w.buckets i = some call)
    (hfresh : (bucketHours hourOf).Fresh w.data q call)
    (hrun : Runs.run (step clock hourOf calendarOf) w as = some w') :
    ∃ call', w'.buckets i = some call' ∧ (bucketHours hourOf).Fresh w'.data q call' :=
  fresh_run (k := bucketHours hourOf) (fun hcall hs => bucket_step hcall hs)
    (fun hi hq _ hrow _ hh => hi.lookupHours hq hrow hh) (fun _ _ => ⟨rfl, rfl, fun _ => rfl⟩) hi hq
    hreads hcall hfresh hrun

/-- A call of `load` that is fresh stays so while nothing is stored or changed. -/
theorem load_fresh_run {call : LoadCall} (hi : Inv hourOf w) (hq : w.Quiet)
    (hreads : ∀ a ∈ as, a.Reads) (hcall : w.loads i = some call)
    (hfresh : RxVision.load.Fresh w.data q call)
    (hrun : Runs.run (step clock hourOf calendarOf) w as = some w') :
    ∃ call', w'.loads i = some call' ∧ RxVision.load.Fresh w'.data q call' :=
  fresh_run (k := RxVision.load) (fun hcall hs => load_step hcall hs)
    (fun hi hq _ hs _ hrows => hi.lookupCoverage hq (mem_load_list hs) hrows)
    (fun _ _ => ⟨rfl, rfl, fun _ => rfl⟩) hi hq hreads hcall hfresh hrun

end Fresh

section Answers

variable (clock : LocalTime) (hourOf : ℤ → ℕ) (calendarOf : DayKeyFn)

/-- A call of `bucketHours` that starts now, and during which nothing is stored or changed, answers
for each day with sessions the buckets of an uncached read. -/
def BucketsFresh (w : DayDataWorld) : Prop :=
  ∀ i q w₁ as w' out, w.step clock hourOf calendarOf (.bucketBegin i q) = some w₁ →
    (∀ a ∈ as, a.Reads) → Runs.run (step clock hourOf calendarOf) w₁ as = some w' →
    w'.buckets i = some (.done out) →
    (∀ row ∈ w'.data.sessionDays q, ∃ h, (row, h) ∈ out) ∧
      ∀ x ∈ out, x.2 = w'.data.hours hourOf x.1.date

/-- A call of `load` that starts now, and during which nothing is stored or changed, answers for
each REPLAY session the coverage of an uncached read. -/
def LoadsFresh (w : DayDataWorld) : Prop :=
  ∀ i q w₁ as w' out, w.step clock hourOf calendarOf (.loadBegin i q) = some w₁ →
    (∀ a ∈ as, a.Reads) → Runs.run (step clock hourOf calendarOf) w₁ as = some w' →
    w'.loads i = some (.done out) →
    (∀ s ∈ w'.data.sessionsBetween q, s.source = .replay → ∃ rows, (s, rows) ∈ out) ∧
      ∀ x ∈ out, x.2 = activityCoverage x.1.range w'.data.samples

variable {clock hourOf calendarOf} {w : DayDataWorld} {as : List DayDataAction}

/-- While nothing is written, a call of `bucketHours` that begins and ends answers with the
buckets of the samples. -/
theorem Inv.bucketsFresh (hi : Inv hourOf w) (hq : w.Quiet) :
    BucketsFresh clock hourOf calendarOf w := by
  intro i q w₁ as w' out hbegin hreads hrun hdone
  have hi₁ := hi.step (.of_reads (a := .bucketBegin i q) trivial) hbegin
  simp only [DayDataWorld.step] at hbegin
  split at hbegin
  · obtain rfl := Option.some.inj hbegin
    obtain ⟨call, hcall, hfresh⟩ :=
      bucket_fresh_run hi₁ hq hreads (Function.update_self ..) .begun hrun
    obtain rfl := Option.some.inj (hdone.symm.trans hcall)
    cases hfresh with
    | done hout hall =>
      refine ⟨fun row hrow => ?_, hout⟩
      obtain ⟨x, hx, rfl⟩ := List.mem_map.1 ((hall row).1 hrow)
      exact ⟨x.2, hx⟩
  · cases hbegin

/-- While nothing is written, a call of `load` that begins and ends answers with the
coverage of the samples. -/
theorem Inv.loadsFresh (hi : Inv hourOf w) (hq : w.Quiet) :
    LoadsFresh clock hourOf calendarOf w := by
  intro i q w₁ as w' out hbegin hreads hrun hdone
  have hi₁ := hi.step (.of_reads (a := .loadBegin i q) trivial) hbegin
  simp only [DayDataWorld.step] at hbegin
  split at hbegin
  · obtain rfl := Option.some.inj hbegin
    obtain ⟨call, hcall, hfresh⟩ :=
      load_fresh_run hi₁ hq hreads (Function.update_self ..) .begun hrun
    obtain rfl := Option.some.inj (hdone.symm.trans hcall)
    cases hfresh with
    | done hout hall =>
      refine ⟨fun s hs hreplay => ?_, fun x hx => ?_⟩
      · have hlist : s ∈ RxVision.load.list w'.data q :=
          List.mem_filter.2 ⟨hs, decide_eq_true hreplay⟩
        obtain ⟨x, hx, rfl⟩ := List.mem_map.1 ((hall s).1 hlist)
        exact ⟨x.2, hx⟩
      · have hmem := mem_load_list ((hall x.1).2 (List.mem_map_of_mem hx))
        exact (hout x hx).trans (coverageOf_eq (current_of_mem hmem))
  · cases hbegin

/-- The invariant holds in every state that a run with its condition reaches. -/
theorem inv_run (hok : Runs.Meets (step clock hourOf calendarOf) (Ok calendarOf) .empty as)
    (hrun : Runs.run (step clock hourOf calendarOf) .empty as = some w) : Inv hourOf w :=
  Runs.invariant_run (Inv hourOf) (fun _ _ _ hi hok hs => hi.step hok hs) .empty hok hrun

/-- In every run whose steps meet the condition: whenever no store is under way, every call that
starts then, and during which nothing is stored or changed, answers as an uncached read does. -/
theorem day_data_fresh (hok : Runs.Meets (step clock hourOf calendarOf) (Ok calendarOf) .empty as)
    (hrun : Runs.run (step clock hourOf calendarOf) .empty as = some w) (hstores : w.stores = []) :
    BucketsFresh clock hourOf calendarOf w ∧ LoadsFresh clock hourOf calendarOf w := by
  have hq : w.Quiet := by
    rw [Quiet, hstores]
    exact fun p hp => absurd hp List.not_mem_nil
  exact ⟨(inv_run hok hrun).bucketsFresh hq, (inv_run hok hrun).loadsFresh hq⟩

end Answers

/-! ## A first day, and a long absence after it -/

section Runs

variable {clock : LocalTime} {hourOf : ℤ → ℕ} {calendarOf : DayKeyFn} {w w' : DayDataWorld}
  {as : List DayDataAction}

/-- Nothing was asked for yet. -/
structure Unused (w : DayDataWorld) : Prop where
  settled : ∀ date, w.caches.settled date = none
  recent : ∀ date, w.caches.recent date = none
  coverage : ∀ id, w.caches.coverage id = none
  buckets : ∀ i, w.buckets i = none
  loads : ∀ i, w.loads i = none

/-- Before anything is kept every write is allowed, since the condition only speaks of days and
sessions that are kept or listed. -/
theorem Unused.ok (h : w.Unused) (a : DayDataAction) : w.Ok calendarOf a := by
  have hhours : ∀ date b, ¬ w.KeptHours date b := by
    intro date b hkept
    cases hkept with
    | settled he => simp [h.settled] at he
    | recent he => simp [h.recent] at he
    | read he => simp [h.buckets] at he
  have hcover : ∀ range b, ¬ w.KeptCoverage range b := by
    intro range b hkept
    cases hkept with
    | cached he => simp [h.coverage] at he
    | read he => simp [h.loads] at he
  cases a with
  | storeStamp r =>
    exact fun prev _ => ⟨fun date b hkept => absurd hkept (hhours date b),
      fun range b hkept => absurd hkept (hcover range b)⟩
  | storeCreate i => exact fun p _ r _ range b hkept => absurd hkept (hcover range b)
  | change c =>
    exact ⟨fun date _ => ⟨hhours date none, fun v => hhours date _⟩,
      fun i call hcall => by simp [h.loads] at hcall⟩
  | storePublish => trivial
  | tick | clearSettled | clearRecent | clearCoverage | bucketBegin | bucket | loadBegin | load =>
    trivial

/-- The step stores a sample, changes a session or lets time pass. -/
def Writes : DayDataAction → Prop
  | .tick _ | .change _ | .storeStamp _ | .storeCreate _ | .storePublish _ => True
  | _ => False

/-- A write keeps nothing in a cache and starts no read, so nothing is kept afterwards either. -/
theorem Unused.step {a : DayDataAction} (h : w.Unused) (ha : Writes a)
    (hs : w.step clock hourOf calendarOf a = some w') : w'.Unused := by
  cases a with
  | change | storeStamp =>
    obtain rfl := Option.some.inj hs
    exact ⟨h.settled, h.recent, h.coverage, h.buckets, h.loads⟩
  | tick | storeCreate | storePublish =>
    simp only [DayDataWorld.step] at hs
    split at hs
    · obtain rfl := Option.some.inj hs
      exact ⟨h.settled, h.recent, h.coverage, h.buckets, h.loads⟩
    · cases hs
  | clearSettled | clearRecent | clearCoverage | bucketBegin | bucket | loadBegin | load => cases ha

/-- Before anything was asked for, the condition on the steps asks nothing: any writes meet it. -/
theorem Unused.meets (h : w.Unused) (ha : ∀ a ∈ as, Writes a) :
    Runs.Meets (DayDataWorld.step clock hourOf calendarOf) (Ok calendarOf) w as := by
  induction as generalizing w with
  | nil => trivial
  | cons a as ih =>
    obtain ⟨ha, has⟩ := List.forall_mem_cons.1 ha
    exact ⟨h.ok a, fun w' hs => ih (h.step ha hs) has⟩

end Runs

/-- A day with one sample, from Start Day to End Day. -/
def firstDay : List DayDataAction :=
  [.change (.startDay 0 .agent utcDay), .tick 60000, .storeStamp ⟨60000, {}, 60000, false⟩,
    .storeCreate 0, .storePublish 0, .tick 120000, .change (.endDay ⟨0⟩ false 0)]

/-- The state after a run from the start. -/
def after (as : List DayDataAction) : DayDataWorld :=
  (Runs.run (step .utc LocalTime.utc.getHours utcDay) .empty as).getD .empty

/-- The world after a run of writes, when it goes through. -/
theorem run_eq_after (as : List DayDataAction)
    (h : (Runs.run (step .utc LocalTime.utc.getHours utcDay) .empty as).isSome = true) :
    Runs.run (step .utc LocalTime.utc.getHours utcDay) .empty as = some (after as) := by
  obtain ⟨w, hw⟩ := Option.isSome_iff_exists.1 h
  rw [after, hw, Option.getD_some]

/-- The theorem for the state after the first day. -/
theorem day_data_fresh_firstDay :
    BucketsFresh .utc LocalTime.utc.getHours utcDay (after firstDay) ∧
      LoadsFresh .utc LocalTime.utc.getHours utcDay (after firstDay) := by
  have hunused : Unused .empty :=
    ⟨fun _ => rfl, fun _ => rfl, fun _ => rfl, fun _ => rfl, fun _ => rfl⟩
  have hwrites : ∀ a ∈ firstDay, Writes a := by simp [firstDay, Writes]
  exact day_data_fresh (hunused.meets hwrites) (run_eq_after firstDay (by decide +kernel))
    (by decide +kernel)

/-- A whole call of `bucketHours` for the first day, after its first step. -/
def bucketSteps (i : ℕ) : List DayDataAction :=
  [.bucket i .list, .bucket i .lookup, .bucket i .read, .bucket i .write]

/-- Nine days later the first day is asked for, and settled; then the person comes back. -/
def longAbsence : List DayDataAction :=
  firstDay ++ .tick 777600000 :: .bucketBegin 0 ⟨⟨0⟩, ⟨0⟩, 777600000⟩ :: bucketSteps 0 ++
    [.change (.startDay 777600000 .agent utcDay), .tick 777660000,
      .storeStamp ⟨777660000, {}, 777660000, false⟩, .storeCreate 0, .storePublish 0]

/-- The first day is asked for again. -/
def askedAgain : List DayDataAction := longAbsence ++ [.bucketBegin 1 ⟨⟨0⟩, ⟨0⟩, 777660000⟩]

/-- The first sample after a long absence gives the last one before it a duration, which the buckets
kept of its settled day never show. -/
theorem settled_day_goes_stale :
    ¬ ∀ (clock : LocalTime) (hourOf : ℤ → ℕ) (calendarOf : DayKeyFn) (as : List DayDataAction)
      (w : DayDataWorld), Runs.run (step clock hourOf calendarOf) .empty as =
        some w → w.stores = [] →
        BucketsFresh clock hourOf calendarOf w ∧ LoadsFresh clock hourOf calendarOf w := by
  intro h
  have hrun := run_eq_after longAbsence (by decide +kernel)
  obtain ⟨w, hw, hbegin⟩ := Runs.run_append_eq_some.1 (run_eq_after askedAgain (by decide +kernel))
  obtain ⟨w₁, hw₁, hsteps⟩ :=
    Runs.run_append_eq_some.1 (run_eq_after (askedAgain ++ bucketSteps 1) (by decide +kernel))
  obtain rfl := Option.some.inj (hrun.symm.trans hw)
  obtain rfl := Option.some.inj ((run_eq_after askedAgain (by decide +kernel)).symm.trans hw₁)
  obtain ⟨w₂, hbegin, hsame⟩ := Runs.run_cons_eq_some.1 hbegin
  obtain rfl := Option.some.inj hsame
  obtain ⟨hfresh, -⟩ := h .utc LocalTime.utc.getHours utcDay longAbsence _ hrun (by decide +kernel)
  have hreads : ∀ a ∈ bucketSteps 1, a.Reads := by simp [bucketSteps, DayDataAction.Reads]
  obtain ⟨-, hout⟩ := hfresh 1 _ _ _ _ [(⟨⟨0⟩, true, true, ⟨1, some 120000⟩⟩, List.replicate 24 0)]
    hbegin hreads hsteps (by decide +kernel)
  revert hout
  decide +kernel

end DayDataWorld

end RxVision
