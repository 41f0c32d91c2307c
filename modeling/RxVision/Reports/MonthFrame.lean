import RxVision.Reports.MonthWrites
import RxVision.Worktime.DayDataFresh

/-!
# What a write leaves of a month

Two states of a person's tables are the `SameOn` of a month's days when the same rows decide those
days and the samples say the same of their sessions; the person's month is then read the same. A
write that is `Sound` leaves the rows of every month that is locked or being locked
(`rowsOf_write`).
-/

namespace RxVision

open Gate Reports

namespace MonthStore

variable (monthOf : DateKey → Month) (calendarOf : DayKeyFn)

/-- The same rows decide the days `days`, and the samples say the same of their sessions. -/
structure SameOn (hourOf : ℤ → ℕ) (days : DateKey → Prop) (p p' : PersonRows) : Prop where
  rows : p'.world.db.monthRows days = p.world.db.monthRows days
  overruns : ∀ r ∈ p.world.db.breakRecords, days r.date → p'.overruns r.id = p.overruns r.id
  durationMin : p'.durationMin = p.durationMin
  adjustments : ∀ a : FocusAdjustment, days a.date → (a ∈ p'.adjustments ↔ a ∈ p.adjustments)
  coverage : ∀ s ∈ p.world.db.workSessions, days s.date →
    activityCoverage s.range p'.samples = activityCoverage s.range p.samples
  hours : ∀ d, days d → activeSecByHour hourOf (p.world.db.sessionsOn d) p'.samples =
    activeSecByHour hourOf (p.world.db.sessionsOn d) p.samples

namespace SameOn

variable {hourOf : ℤ → ℕ} {days : DateKey → Prop} {p p' : PersonRows}

/-- Nothing changes. -/
theorem refl (p : PersonRows) : SameOn hourOf days p p where
  rows := rfl
  overruns _ _ _ := rfl
  durationMin := rfl
  adjustments _ _ := .rfl
  coverage _ _ _ := rfl
  hours _ _ := rfl

/-- A row is one of the month before and after. -/
theorem mem_iff (h : SameOn hourOf days p p') (row : Row) :
    p'.world.db.Has row ∧ p'.world.db.Decides days row ↔
      p.world.db.Has row ∧ p.world.db.Decides days row :=
  Set.ext_iff.1 h.rows row

/-- The breaks of the days are the same. -/
theorem mem_breakRecords (h : SameOn hourOf days p p') {r : BreakRecord} (hd : days r.date) :
    r ∈ p'.world.db.breakRecords ↔ r ∈ p.world.db.breakRecords :=
  (and_iff_left (show p'.world.db.Decides days (.brk r) from hd)).symm.trans
    ((h.mem_iff (.brk r)).trans (and_iff_left (show p.world.db.Decides days (.brk r) from hd)))

/-- The segments of a break of the days are the same list before and after, in the same order. -/
theorem segments_eq (h : SameOn hourOf days p p') {r : BreakRecord}
    (hr : r ∈ p.world.db.breakRecords)
    (hd : days r.date) : (p'.world.db.breakSegments.rows.filter fun g => g.breakRecordId = r.id) =
      p.world.db.breakSegments.rows.filter fun g => g.breakRecordId = r.id := by
  refine Table.filter_eq_of_mem_iff fun g => ?_
  rw [decide_eq_true_eq]
  refine and_congr_left fun hg => ?_
  have hr' := (h.mem_breakRecords hd).2 hr
  have hsegment := h.mem_iff (.segment g)
  exact (and_iff_left
    (show p'.world.db.Decides days (.segment g) from ⟨r, hr', hg.symm, hd⟩)).symm.trans
    (hsegment.trans
      (and_iff_left (show p.world.db.Decides days (.segment g) from ⟨r, hr, hg.symm, hd⟩)))

/-- A presence session that a break of the days points at is found before and after,
as the same row. -/
theorem presenceOf_eq (h : SameOn hourOf days p p') {session : Option ℕ}
    (hlink : ∀ q : PresenceSession, session = some q.id →
      p'.world.db.Links days q ∧ p.world.db.Links days q) :
    p'.world.db.presenceOf session = p.world.db.presenceOf session := by
  refine Option.ext fun q => ?_
  rw [Db.presenceOf_eq_some, Db.presenceOf_eq_some]
  refine and_congr_right fun hq => ?_
  obtain ⟨hlink', hlink⟩ := hlink q hq
  exact (and_iff_left (show p'.world.db.Decides days (.presence q) from Or.inl hlink')).symm.trans
    ((h.mem_iff (.presence q)).trans
      (and_iff_left (show p.world.db.Decides days (.presence q) from Or.inl hlink)))

/-- A break of the days is read with the same sessions and segments before and after. -/
theorem viewOf_eq (h : SameOn hourOf days p p') {r : BreakRecord} (hr : r ∈ p.world.db.breakRecords)
    (hd : days r.date) : p'.world.db.viewOf r = p.world.db.viewOf r := by
  have hr' := (h.mem_breakRecords hd).2 hr
  have hsegments := h.segments_eq hr hd
  have hown : p'.world.db.presenceOf r.presenceSessionId = p.world.db.presenceOf
    r.presenceSessionId :=
    h.presenceOf_eq fun q hq => ⟨⟨r, hr', hd, Or.inl hq⟩, ⟨r, hr, hd, Or.inl hq⟩⟩
  have hof : ∀ g ∈ p.world.db.breakSegments.rows.filter fun g => g.breakRecordId = r.id,
      p'.world.db.presenceOf g.presenceSessionId = p.world.db.presenceOf g.presenceSessionId := by
    intro g hg
    have hg' := hg
    rw [← hsegments] at hg'
    obtain ⟨hmem, hid⟩ := List.mem_filter.1 hg
    obtain ⟨hmem', -⟩ := List.mem_filter.1 hg'
    have hid := of_decide_eq_true hid
    exact h.presenceOf_eq fun q hq =>
      ⟨⟨r, hr', hd, Or.inr ⟨g, hmem', hid, hq⟩⟩, ⟨r, hr, hd, Or.inr ⟨g, hmem, hid, hq⟩⟩⟩
  rw [Db.viewOf, Db.viewOf, hsegments, hown]
  congr 1
  exact List.map_congr_left fun g hg => by rw [hof g hg]

variable [DecidablePred days]

/-- The rows of a table that are dated on the days, from their membership in the month. -/
theorem filter_eq {ρ : Type*} {key : ρ → ℕ} {t t' : Table key} {q : ρ → DateKey}
    (h : ∀ r, r ∈ t' ∧ days (q r) ↔ r ∈ t ∧ days (q r)) :
    (t'.rows.filter fun r => days (q r)) = t.rows.filter fun r => days (q r) := by
  refine Table.filter_eq_of_mem_iff fun r => ?_
  simpa using h r

/-- The work sessions of the days are the same list. -/
theorem sessionsOf_eq (h : SameOn hourOf days p p') : p'.sessionsOf days = p.sessionsOf days :=
  filter_eq fun s => h.mem_iff (.session s)

/-- The work sessions of one of the days are those dated on it. -/
theorem sessionsOn_eq (p : PersonRows) {d : DateKey} (hd : days d) :
    p.world.db.sessionsOn d = (p.sessionsOf days).filter fun s => s.date = d := by
  rw [Db.sessionsOn, PersonRows.sessionsOf, List.filter_filter]
  refine List.filter_congr fun s _ => ?_
  by_cases hs : s.date = d <;> simp [hs, hd]

/-- The presence sessions that overlap the work sessions of the days are the same list
before and after. -/
theorem presence_eq (h : SameOn hourOf days p p') :
    p'.world.db.presence.rows.filter (p'.world.db.overlapsDays days) =
      p.world.db.presence.rows.filter (p.world.db.overlapsDays days) := by
  have hover : p'.world.db.overlapsDays days = p.world.db.overlapsDays days := by
    funext q
    have hsessions := h.sessionsOf_eq
    unfold PersonRows.sessionsOf at hsessions
    rw [Db.overlapsDays, Db.overlapsDays, hsessions]
  rw [hover]
  refine Table.filter_eq_of_mem_iff fun q => ?_
  refine and_congr_left fun hq => ?_
  have hdecides : ∀ db : Db, db.overlapsDays days q = true → db.Decides days (.presence q) :=
    fun db hdb => Or.inr (Db.overlapsDays_iff.1 hdb)
  exact (and_iff_left (hdecides _ (hover ▸ hq))).symm.trans
    ((h.mem_iff (.presence q)).trans (and_iff_left (hdecides _ hq)))

/-- What is read of the person for the days is the same: each list is that of rows which
have not changed. -/
theorem month_eq (h : SameOn hourOf days p p') : p'.month hourOf days = p.month hourOf days := by
  have hbreaks : (p'.world.db.breakRecords.rows.filter fun r => days r.date) =
      p.world.db.breakRecords.rows.filter fun r => days r.date := filter_eq fun r =>
        h.mem_iff (.brk r)
  refine PersonMonth.ext h.sessionsOf_eq ?_ (filter_eq fun m => h.mem_iff (.meeting m))
    (filter_eq fun a => h.mem_iff (.away a)) ?_ h.presence_eq ?_ ?_
  · change List.map _ (List.filter _ _) = List.map _ (List.filter _ _)
    rw [hbreaks, h.durationMin]
    refine List.map_congr_left fun r hr => ?_
    obtain ⟨hr, hd⟩ := List.mem_filter.1 hr
    have hd := of_decide_eq_true hd
    rw [h.viewOf_eq hr hd, h.overruns r hr hd]
  · refine filter_eq fun a => ?_
    exact and_congr_left fun ha => h.adjustments a ha
  · funext id
    change ((replayed (p'.sessionsOf days) id).map _).getD [] =
      ((replayed (p.sessionsOf days) id).map _).getD []
    rw [h.sessionsOf_eq]
    cases hfind : replayed (p.sessionsOf days) id with
    | none => rfl
    | some s =>
      obtain ⟨hs, hd⟩ := List.mem_filter.1 (List.mem_of_find?_eq_some hfind)
      exact h.coverage s hs (of_decide_eq_true hd)
  · funext d
    change (if days d ∧ p'.world.db.sessionsOn d ≠ [] then
        activeSecByHour hourOf (p'.world.db.sessionsOn d) p'.samples else []) =
      if days d ∧ p.world.db.sessionsOn d ≠ [] then
        activeSecByHour hourOf (p.world.db.sessionsOn d) p.samples else []
    by_cases hd : days d
    · have hon : p'.world.db.sessionsOn d = p.world.db.sessionsOn d := by
        rw [sessionsOn_eq p' hd, sessionsOn_eq p hd, h.sessionsOf_eq]
      rw [hon, h.hours d hd]
    · simp [hd]

end SameOn

variable {monthOf calendarOf} {c : MonthStore} {u : ℕ} {key : OrgMonth} {k : Option OrgMonth}
  {t : MonthTx} {held : OrgMonth → Prop} {hourOf : ℤ → ℕ}

/-- The month's rows stay when those of the one person whose rows change do; nobody else's are
read differently. -/
theorem rowsOf_setPerson {p : PersonRows} (h : c.companyOf u = some key.companyId →
    SameOn hourOf (InMonth monthOf key) (c.person u) p) :
    (c.setPerson u p).rowsOf monthOf hourOf key = c.rowsOf monthOf hourOf key := by
  have hperson : ∀ v, c.companyOf v = some key.companyId →
      SameOn hourOf (InMonth monthOf key) (c.person v) ((c.setPerson u p).person v) := by
    intro v hv
    rcases eq_or_ne v u with rfl | hne
    · change SameOn _ _ (c.person v) (Function.update c.person v p v)
      rw [Function.update_self]
      exact h hv
    · change SameOn _ _ (c.person v) (Function.update c.person u p v)
      rw [Function.update_of_ne hne]
      exact .refl _
  refine MonthRows.ext ?_ ?_ rfl
  · refine List.filter_congr fun v _ => ?_
    by_cases hv : c.companyOf v = some key.companyId
    · have hsessions := (hperson v hv).sessionsOf_eq
      simp only [setPerson] at hsessions
      simp only [setPerson, hv, true_and, hsessions]
    · simp [setPerson, hv]
  · funext v
    change (if c.companyOf v = some key.companyId then _ else _) =
      if c.companyOf v = some key.companyId then _ else _
    split
    · next hv => exact (hperson v hv).month_eq
    · rfl

/-- A day of the month a transaction found open is in no month held. -/
theorem not_inMonth_of_open {monthOpen : DateKey → Bool} (hasked : ∀ companyId,
      c.companyOf u = some companyId → ∀ d, monthOpen d = true → k = some ⟨companyId, monthOf d⟩)
    (hfree : ∀ key, k = some key → ¬ held key) (hheld : held key)
    (hu : c.companyOf u = some key.companyId) {d : DateKey} (hd : monthOpen d = true) :
    ¬ InMonth monthOf key d := by
  intro hin
  have hk := hasked _ hu d hd
  rw [show (⟨key.companyId, monthOf d⟩ : OrgMonth) = key by rw [hin]] at hk
  exact hfree key hk hheld

/-- A write of tables that spares the months held leaves the rows of each of them: what it touches
lies elsewhere, or was found open. -/
theorem Spares.sameOn {T : Touches} {asked : DateKey → Bool} {p : PersonRows}
    (h : c.Spares monthOf u T asked held) (hwithin : (c.person u).world.db.Within T p.world.db)
    (hoverruns : ∀ r ∈ (c.person u).world.db.breakRecords, ¬ T.dates r.date →
      p.overruns r.id = (c.person u).overruns r.id)
    (hadjustments : p.adjustments = (c.person u).adjustments)
    (hdurations : p.durationMin = (c.person u).durationMin)
    (hsamples : p.samples = (c.person u).samples)
    (hasked : ∀ companyId, c.companyOf u = some companyId →
      ∀ d, asked d = true → k = some ⟨companyId, monthOf d⟩)
    (hfree : ∀ key, k = some key → ¬ held key) (hheld : held key)
    (hu : c.companyOf u = some key.companyId) :
    SameOn hourOf (InMonth monthOf key) (c.person u) p := by
  obtain ⟨hdates, hstarts⟩ := h key hheld hu
  have hout : ∀ d, T.dates d → ¬ InMonth monthOf key d := by
    intro d hd hin
    cases hmonth : asked d with
    | false => exact hdates d hd hmonth hin
    | true => exact not_inMonth_of_open hasked hfree hheld hu hmonth hin
  exact
    { rows := hwithin.monthRows hout hstarts
      overruns := fun r hr hd => hoverruns r hr fun ht => hout _ ht hd
      durationMin := hdurations
      adjustments := fun a _ => by rw [hadjustments]
      coverage := fun s _ _ => by rw [hsamples]
      hours := fun d _ => by rw [hsamples] }

/-- A calendar day of another organisation or outside a month leaves the rows of the month. -/
theorem rowsOf_setOverride {companyId : ℕ} {date : DateKey} {override : Option DayOverride}
    (h : key ≠ ⟨companyId, monthOf date⟩) : (c.setOverride companyId date override).rowsOf monthOf
    hourOf key =
      c.rowsOf monthOf hourOf key := by
  refine MonthRows.ext rfl rfl (funext fun d => ?_)
  change (if InMonth monthOf key d then
    (Function.update c.days companyId (Function.update (c.days companyId) date override)
      key.companyId d,
      (c.patterns key.companyId).patternOn d) else (none, [])) =
    if InMonth monthOf key d then (c.days key.companyId d, (c.patterns key.companyId).patternOn d)
    else (none, [])
  split
  · next hin =>
    rcases eq_or_ne key.companyId companyId with hid | hne
    · have hd : d ≠ date := by
        rintro rfl
        exact h (by rw [← hid, hin])
      rw [hid, Function.update_self, Function.update_of_ne hd]
    · rw [Function.update_of_ne hne]
  · rfl

/-- A week pattern that applies from after a month leaves the calendar of the month. -/
theorem rowsOf_writePattern {companyId : ℕ} {days : List ℤ} {since : DateKey}
    (h : key.companyId = companyId → ∀ d, InMonth monthOf key d → d.day < since.day) :
    (c.setPatterns companyId ((c.patterns companyId).withPatternFrom since days)).rowsOf
      monthOf hourOf key = c.rowsOf monthOf hourOf key := by
  refine MonthRows.ext rfl rfl (funext fun d => ?_)
  change (if InMonth monthOf key d then (c.days key.companyId d,
    (Function.update c.patterns companyId
      ((c.patterns companyId).withPatternFrom since days) key.companyId).patternOn
        d) else (none, [])) =
    if InMonth monthOf key d then (c.days key.companyId d, (c.patterns key.companyId).patternOn d)
    else (none, [])
  split
  · next hin =>
    rcases eq_or_ne key.companyId companyId with rfl | hne
    · rw [Function.update_self, PatternHistory.patternOn_withPatternFrom _ _ (h rfl d hin)]
    · rw [Function.update_of_ne hne]
  · rfl

/-- A sample inside a session is evidence for it. -/
theorem covers_of_holds {s : WorkSession} {t : ℤ} (h : s.holds t = true) :
    s.range.covers t = true := by
  rw [WorkSession.holds, Bool.and_eq_true, decide_eq_true_eq] at h
  rw [SessionRange.covers, Bool.and_eq_true, decide_eq_true_eq]
  exact ⟨(Int.sub_le_self _ (by decide)).trans h.1, h.2⟩

/-- Samples that say the same of the sessions of a month, in coverage and by hour, leave the
rows of the month. -/
theorem rowsOf_setSamples {samples : Samples} (hcoverage : c.companyOf u = some key.companyId →
      ∀ s ∈ (c.person u).world.db.workSessions, InMonth monthOf key s.date →
        activityCoverage s.range samples = activityCoverage s.range (c.person u).samples)
    (hhours : c.companyOf u = some key.companyId → ∀ sessions : List WorkSession,
      (∀ s ∈ sessions, s ∈ (c.person u).world.db.workSessions ∧ InMonth monthOf key s.date) →
        activeSecByHour hourOf sessions samples = activeSecByHour hourOf sessions
          (c.person u).samples) :
    (c.setSamples u samples).rowsOf monthOf hourOf key = c.rowsOf monthOf hourOf key := by
  refine rowsOf_setPerson fun hu => ?_
  refine { (SameOn.refl (c.person u) : SameOn hourOf (InMonth monthOf key) _ _) with
    coverage := hcoverage hu
    hours := fun d hd => ?_ }
  refine hhours hu _ fun s hs => ?_
  obtain ⟨hmem, hdate⟩ := List.mem_filter.1 hs
  exact ⟨hmem, by rwa [of_decide_eq_true hdate]⟩

/-- The duration that a sample is given leaves the months held, when the sample is evidence for
no session of them. -/
theorem rowsOf_stampSample {takenAt now : ℤ} (h : ∀ prev,
      (c.person u).samples.findLatestForUser = some prev → prev.durationSec = 0 →
        prev.takenAt ≤ takenAt →
      c.SparesSample monthOf u prev.takenAt held) (hheld : held key) :
    (c.setSamples u ((c.person u).samples.closePrevious takenAt now).1).rowsOf monthOf hourOf key =
      c.rowsOf monthOf hourOf key := by
  have hsame : (c.setSamples u (c.person u).samples).rowsOf monthOf hourOf key =
      c.rowsOf monthOf hourOf key := rowsOf_setSamples (fun _ _ _ _ => rfl) fun _ _ _ => rfl
  unfold Samples.closePrevious
  split
  · exact hsame
  · next prev hprev =>
    dsimp only
    split
    · next hcloses =>
      have hspares := h prev hprev hcloses.1 hcloses.2.1 key hheld
      have hmem := (Table.mem_of_findLast? hprev).1
      refine rowsOf_setSamples (fun hu s hs hd => ?_) fun hu sessions hsessions => ?_
      · exact activityCoverage_stampDuration hmem (hspares hu s hs hd)
      · refine activeSecByHour_stampDuration hmem fun s hs => ?_
        obtain ⟨hs, hd⟩ := hsessions s hs
        have hout : s.holds prev.takenAt = false := by
          refine Bool.eq_false_iff.2 fun hin => ?_
          have hnot := hspares hu s hs hd
          rw [covers_of_holds hin] at hnot
          cases hnot
        rw [hout, Bool.and_false]
    · exact hsame

/-- A new sample that lies in no session of the months held leaves them. -/
theorem rowsOf_createSample {sample : Sample} (h : c.SparesSample monthOf u sample.takenAt held)
    (hheld : held key) : (c.setSamples u ((c.person u).samples.createSample sample)).rowsOf
    monthOf hourOf
      key = c.rowsOf monthOf hourOf key :=
  rowsOf_setSamples (fun hu s hs hd => activityCoverage_createSample (h key hheld hu s hs hd))
    fun _ _ _ => activeSecByHour_createSample

/-- A commit that meets the condition leaves the rows of every month that is
locked or about to be. -/
theorem rowsOf_write (hfit : Fits monthOf t k c) (hok : Sound monthOf t c held)
    (hfree : ∀ key, k = some key → ¬ held key) (hheld : held key) :
    (write calendarOf t c).rowsOf monthOf hourOf key = c.rowsOf monthOf hourOf key := by
  cases t with
  | record u a =>
    cases hw : (c.person u).world.stepRecords calendarOf a with
    | none => rw [write_record_of_none hw]
    | some w =>
      rw [write_record_of_some hw]
      refine rowsOf_setPerson fun hu => ?_
      exact Spares.sameOn hok (World.within_stepRecords hw) (fun _ _ _ => rfl) rfl rfl rfl
        hfit hfree hheld hu
  | restore u r =>
    refine rowsOf_setPerson fun hu => ?_
    exact Spares.sameOn hok Db.within_restore (fun _ _ _ => rfl) rfl rfl rfl
      (by simp) hfree hheld hu
  | review u op =>
    refine rowsOf_setPerson fun hu => ?_
    obtain ⟨hwithin, hoverruns⟩ := op.within_run
    exact Spares.sameOn hok hwithin hoverruns rfl rfl rfl hfit hfree hheld hu
  | adjust monthOpen u date deltaSec =>
    change MonthStore.rowsOf monthOf hourOf key (if monthOpen date then _ else c) = _
    split
    · next hopen =>
      refine rowsOf_setPerson fun hu => { (SameOn.refl _ : SameOn hourOf _ _ (c.person u)) with
        adjustments := fun a ha => ?_ }
      refine Table.mem_create_outside (fun _ => rfl)
        (R := fun a => a.date = date) rfl fun hdate => ?_
      exact not_inMonth_of_open hfit hfree hheld hu hopen (hdate ▸ ha)
    · rfl
  | voidAdjustment monthOpen u id now =>
    refine rowsOf_setPerson fun hu => { (SameOn.refl _ : SameOn hourOf _ _ (c.person u)) with
        adjustments := fun a ha => ?_ }
    refine Table.mem_updateMany_outside ?_ (R := fun a => monthOpen a.date = true)
      (fun a' _ hsel => ?_) fun hopen => not_inMonth_of_open hfit hfree hheld hu hopen ha
    · exact fun _ => rfl
    · have hsel : a'.id = id ∧ a'.voidedAt = none ∧ monthOpen a'.date = true :=
        of_decide_eq_true hsel
      exact ⟨hsel.2.2, hsel.2.2⟩
  | setDay companyId date isWorking label =>
    refine rowsOf_setOverride ?_
    rintro rfl
    exact hok hheld
  | clearDay companyId date =>
    refine rowsOf_setOverride ?_
    rintro rfl
    exact hok hheld
  | setWeekPattern companyId days since => rfl
  | writePattern companyId days since history =>
    obtain ⟨rfl, hlater⟩ := hok
    refine rowsOf_writePattern fun hid d hin => hlater d ?_
    rwa [show (⟨companyId, monthOf d⟩ : OrgMonth) = key by rw [← hid, hin]]
  | stampSample u takenAt now => exact rowsOf_stampSample hok hheld
  | createSample u sample => exact rowsOf_createSample hok hheld
  | remember proc caches => rfl

/-- The days that an operation finds open are those it was given. -/
theorem month_withMonth {monthOpen : DateKey → Bool} {op : RecordOp} {d : DateKey}
    (h : (op.withMonth monthOpen).month d = true) : monthOpen d = true := by
  cases op <;> first | exact h | cases h

/-- So are those of an action. -/
theorem month_withMonth_record {monthOpen : DateKey → Bool} {a : RecordAction} {d : DateKey}
    (h : (a.withMonth monthOpen).month d = true) : monthOpen d = true := by
  cases a with
  | day a => cases h
  | live op | replay eventAt op => exact month_withMonth h

/-- So are those of a decision. -/
theorem month_withMonth_review {monthOpen : DateKey → Bool} {op : ReviewOp} {d : DateKey}
    (h : (op.withMonth monthOpen).month d = true) : monthOpen d = true := by
  cases op <;> exact h

/-- An open month of somebody in an organisation is the one found open. -/
theorem eq_some_of_opens {companyId : ℕ} {d : DateKey} (hu : c.companyOf u = some companyId)
    (h : c.opens monthOf u k d = true) : k = some ⟨companyId, monthOf d⟩ := by
  rw [opens, hu] at h
  simpa using h

/-- A transaction takes only those days to be open whose month its lock stands for. -/
theorem fits_of_read {t' : MonthTx} (h : read monthOf t c = some (t', k)) :
    Fits monthOf t' k c := by
  cases t with
  | record u a =>
    cases h
    exact fun companyId hu d hd => eq_some_of_opens hu (month_withMonth_record hd)
  | review u op =>
    cases h
    exact fun companyId hu d hd => eq_some_of_opens hu (month_withMonth_review hd)
  | adjust monthOpen u date deltaSec =>
    cases h
    exact fun companyId hu d hd => eq_some_of_opens hu hd
  | voidAdjustment monthOpen u id now =>
    obtain ⟨current, -, h⟩ := Option.map_eq_some_iff.1 h
    cases h
    exact fun companyId hu d hd => eq_some_of_opens hu hd
  | setWeekPattern companyId days since =>
    obtain ⟨days', -, h⟩ := Option.map_eq_some_iff.1 h
    cases h
    trivial
  | writePattern => cases h
  | restore | setDay | clearDay | stampSample | createSample | remember =>
    cases h
    trivial

/-- None of these writes moves anybody to another organisation. -/
theorem companyOf_write : (write calendarOf t c).companyOf = c.companyOf := by
  cases t with
  | record u a =>
    cases hw : (c.person u).world.stepRecords calendarOf a with
    | none => rw [write_record_of_none hw]
    | some w =>
      rw [write_record_of_some hw]
      rfl
  | adjust monthOpen u date deltaSec =>
    change MonthStore.companyOf (if monthOpen date then _ else c) = _
    split <;> rfl
  | _ => rfl

/-- Another write leaves what a transaction found open. -/
theorem fits_write {t' : MonthTx} (h : Fits monthOf t k c) :
    Fits monthOf t k (write calendarOf t' c) := by
  unfold Fits at *
  rwa [companyOf_write]

end MonthStore

end RxVision
