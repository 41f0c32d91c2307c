import RxVision.Reports.MonthTotals

/-!
# Month reports add up (`report-builder.ts`, `reports.service.ts`, `combined-reports.service.ts`)

`AddsUp` says that totals are those of a list of days, whatever the list is of: a person's, a
team's, several organisations'. `monthTotals` makes such totals, and summing totals, filling in what
an older snapshot lacks, and blanking the activity keep them so. A locked month has ended, so its
totals are the same for every later day (`Past`), and its snapshot goes on adding up as long as it
is stored (`month_reports_add_up`).
-/

namespace RxVision.Reports

open RxVision.Calendar

variable {days days' : List PersonDaySummary} {today later : Units} {t : MonthTotals}
  {d : PersonDaySummary}
  {π : Type*} {k : TotalKey}

/-! ## Totals of days -/

/-- What a day adds to a total. -/
def PersonDaySummary.share (today : Units) (d : PersonDaySummary) : TotalKey → ℤ
  | .workdays => if d.counts today then 1 else 0
  | .full => if d.dayClass = .full then 1 else 0
  | .half => if d.dayClass = .half then 1 else 0
  | .absent => if d.dayClass = .absent then 1 else 0
  | .off => if d.dayClass = .off then 1 else 0
  | .extra => if d.dayClass = .extra then 1 else 0
  | .lateStarts => if d.lateStart.isSome then 1 else 0
  | .sum k => d.get k

/-- The sum of what days add. -/
def sumOf (days : List PersonDaySummary) (f : PersonDaySummary → ℤ) : ℤ := (days.map f).sum

/-- The totals are those of the days. -/
structure AddsUp (today : Units) (days : List PersonDaySummary) (t : MonthTotals) : Prop where
  sums : ∀ k, t.get k = sumOf days fun d => d.share today k
  avg : t.avgFocusSec = average (workdayFocus days today) (t.get .workdays)

/-- A sum over some of the days is one over all days, in which the others count nothing. By
induction on the days. -/
theorem sumOf_filter (p : PersonDaySummary → Bool) (f : PersonDaySummary → ℤ) :
    sumOf (days.filter p) f = sumOf days fun d => if p d then f d else 0 := by
  unfold sumOf
  induction days with
  | nil => rfl
  | cons d days ih =>
    rw [List.filter_cons, List.map_cons, List.sum_cons, ← ih]
    cases p d <;> simp

/-- The number of some of the days is a sum over all of them. -/
theorem length_filter_eq (p : PersonDaySummary → Bool) :
    ((days.filter p).length : ℤ) = sumOf days fun d => if p d then 1 else 0 := by
  rw [← sumOf_filter]
  simp [sumOf]

/-- The sums of two numbers that are the same on every day are the same. -/
theorem sumOf_congr {f g : PersonDaySummary → ℤ} (h : ∀ d ∈ days, f d = g d) :
    sumOf days f = sumOf days g :=
  congrArg List.sum (List.map_congr_left h)

/-- The sum of two numbers' sums. -/
theorem sumOf_add (f g : PersonDaySummary → ℤ) :
    sumOf days (fun d => f d + g d) = sumOf days f + sumOf days g :=
  List.sum_map_add

/-- The days of one list and then those of another. -/
theorem sumOf_append (f : PersonDaySummary → ℤ) :
    sumOf (days ++ days') f = sumOf days f + sumOf days' f := by
  simp [sumOf]

/-- The sum over changed days, by the days before the change. -/
theorem sumOf_map (g : PersonDaySummary → PersonDaySummary) (f : PersonDaySummary → ℤ) :
    sumOf (days.map g) f = sumOf days fun d => f (g d) := by
  simp [sumOf, Function.comp_def]

/-- The sum over all days of several people is the sum of the people's own sums. -/
theorem sumOf_flatMap {α : Type*} (l : List α) (days : α → List PersonDaySummary)
    (f : PersonDaySummary → ℤ) :
    sumOf (l.flatMap days) f = (l.map fun a => sumOf (days a) f).sum := by
  induction l with
  | nil => rfl
  | cons a l ih => rw [List.flatMap_cons, sumOf_append, ih, List.map_cons, List.sum_cons]

/-- The focus time of the working days that have ended, as a sum over all days. -/
theorem workdayFocus_eq : workdayFocus days today = sumOf days fun d =>
    if d.counts today then d.get .focusSec else 0 :=
  sumOf_filter _ _

/-- The totals that `monthTotals` makes of days are those of the days: each number is a count or a
sum that `share` tells day by day. -/
theorem addsUp_monthTotals (quietHoursFlag : ℤ) :
    AddsUp today days (monthTotals days today quietHoursFlag) where
  sums k := by
    cases k with
    | workdays => exact length_filter_eq fun d => d.counts today
    | lateStarts => exact length_filter_eq fun d => d.lateStart.isSome
    | sum k => rfl
    | full | half | absent | off | extra =>
      refine (length_filter_eq _).trans (sumOf_congr fun d _ => ?_)
      simp [PersonDaySummary.share]
  avg := rfl

/-- Totals summed over people are the totals of all their days together, when each person's totals
are those of the person's own days. -/
theorem addsUp_totalsOf {persons : List (PersonMonthReport π)}
    (h : ∀ p ∈ persons, AddsUp today p.days p.totals) :
    AddsUp today (persons.flatMap fun p => p.days) (totalsOf persons today).toMonthTotals := by
  constructor
  case sums =>
    intro k
    rw [sumOf_flatMap]
    simp only [totalsOf, teamTotals, MonthTotals.get, List.map_map, Option.getD_some,
      Function.comp_def]
    exact congrArg List.sum (List.map_congr_left fun p hp => (h p hp).sums k)
  case avg =>
    rw [workdayFocus_eq, sumOf_flatMap]
    simp only [totalsOf, teamTotals, MonthTotals.get, List.map_map, Option.getD_some,
      Function.comp_def, workdayFocus_eq]

/-- Totals of days that have ended are the same whatever the day is: only the number of working days
asks for today, and these have all come. -/
theorem AddsUp.of_past (h : AddsUp today days t) (hpast : ∀ d ∈ days, ¬ today < d.date ∧
    ¬ later < d.date) :
    AddsUp later days t := by
  have hcounts : ∀ d ∈ days, d.counts today = d.counts later := fun d hd => by
    obtain ⟨h₁, h₂⟩ := hpast d hd
    simp [PersonDaySummary.counts, h₁, h₂]
  constructor
  case sums =>
    intro k
    refine (h.sums k).trans (sumOf_congr fun d hd => ?_)
    cases k with
    | workdays => simp only [PersonDaySummary.share, hcounts d hd]
    | _ => rfl
  case avg =>
    rw [h.avg, workdayFocus_eq, workdayFocus_eq, sumOf_congr fun d hd => by rw [hcounts d hd]]

/-- Blanking the quiet hours of the days and of their totals keeps the totals those of the days; no
other number changes. -/
theorem AddsUp.quiet (h : AddsUp today days t) :
    AddsUp today (days.map fun d => d.quiet) t.quiet := by
  have hget : ∀ (d : PersonDaySummary) k, k ≠ .quietHours → d.quiet.get k = d.get k :=
      fun d k hk => by
    simp only [PersonDaySummary.quiet, PersonDaySummary.get, Function.update_of_ne hk]
  have hsame : ∀ k, k ≠ .sum .quietHours → t.quiet.get k = t.get k := fun k hk => by
    simp only [MonthTotals.quiet, MonthTotals.get, Function.update_of_ne hk]
  constructor
  case sums =>
    intro k
    rw [sumOf_map]
    by_cases hk : k = .sum .quietHours
    · subst hk
      simp [MonthTotals.quiet, MonthTotals.get, PersonDaySummary.share, PersonDaySummary.quiet,
        PersonDaySummary.get, sumOf]
    · rw [hsame k hk, h.sums k]
      refine sumOf_congr fun d _ => ?_
      cases k with
      | sum k => exact (hget d k fun hq => hk (hq ▸ rfl)).symm
      | _ => rfl
  case avg =>
    rw [hsame .workdays nofun, workdayFocus_eq, sumOf_map]
    refine h.avg.trans ?_
    rw [workdayFocus_eq]
    exact congrArg (average · _) (sumOf_congr fun d _ => by rw [hget d .focusSec nofun]; rfl)

/-- Filling in what an older snapshot lacks: either its months and days have paid time,
or neither. -/
theorem AddsUp.withPayrollFields {p : PersonMonthReport ℕ} (h : AddsUp today p.days p.totals)
    (hkeys : ∀ d ∈ p.days,
      (d.numbers .paidSec).isSome = (p.totals.numbers (.sum .paidSec)).isSome) :
    AddsUp today (withPayrollFields p).days (withPayrollFields p).totals := by
  have hsum : ∀ k, (p.totals.numbers (.sum k)).getD 0 = sumOf p.days fun d => d.get k :=
    fun k => h.sums (.sum k)
  constructor
  case sums =>
    intro k
    simp only [Reports.withPayrollFields]
    rw [sumOf_map]
    cases k with
    | sum k =>
      cases k with
      | paidSec =>
        simp only [MonthTotals.get, PersonDaySummary.share, PersonDaySummary.get, fill,
          Option.getD_some]
        cases htotal : p.totals.numbers (.sum .paidSec) with
        | none =>
          have hnone : ∀ d ∈ p.days, d.numbers .paidSec = none := fun d hd => by
            simpa [htotal] using hkeys d hd
          rw [Option.getD_none, hsum, hsum, ← sumOf_add]
          exact sumOf_congr fun d hd => by rw [hnone d hd, Option.getD_none]; rfl
        | some total =>
          have htotal' := hsum .paidSec
          rw [htotal, Option.getD_some] at htotal'
          rw [Option.getD_some, htotal']
          refine sumOf_congr fun d hd => ?_
          obtain ⟨v, hv⟩ := Option.isSome_iff_exists.1 ((hkeys d hd).trans (by rw [htotal]; rfl))
          rw [PersonDaySummary.get, hv, Option.getD_some, Option.getD_some]
      | unverifiedSec => exact hsum .unverifiedSec
      | _ => exact hsum _
    | _ => exact h.sums _
  case avg =>
    refine h.avg.trans (congrArg (average · _) ?_)
    rw [workdayFocus_eq, workdayFocus_eq]
    simp only [Reports.withPayrollFields]
    rw [sumOf_map]
    rfl

/-! ## Classes of days -/

/-- The class of a day fits the day: only a day that has ended has one of a
working day or of a day off. -/
def DayClass.Fits (c : DayClass) (date today : Units) (workday : Bool) : Prop :=
  match c with
  | .upcoming => today < date
  | .inProgress => date = today
  | .full | .half | .absent => date < today ∧ workday = true
  | .off | .extra => date < today ∧ workday = false

/-- A day that fits, with payroll time. -/
structure DayOk (today : Units) (d : PersonDaySummary) : Prop where
  fits : d.dayClass.Fits d.date today d.workday
  paid : d.get .paidSec = d.get .focusSec + d.get .paidBreakSec

section

variable {date : Units}

/-- A day that is neither later than today nor today has ended. -/
theorem lt_of_not_lt (hle : ¬ today < date) (hne : date ≠ today) : date < today := by
  by_contra h
  exact hne (List.le_antisymm (List.not_lt.1 hle) (List.not_lt.1 h))

/-- The class that `dayClassOf` gives a day fits it, by the order in which the function asks: later,
today, a day off, a working day. -/
theorem fits_dayClassOf {workday : Bool} {spanSec focusSec expectedSec fullDayPct halfDayPct : ℤ} :
    (dayClassOf date today workday spanSec focusSec expectedSec fullDayPct halfDayPct).Fits date
    today workday := by
  unfold dayClassOf
  by_cases hlt : today < date
  · rw [if_pos hlt]
    exact hlt
  by_cases heq : date = today
  · rw [if_neg hlt, if_pos heq]
    exact heq
  have hpast := lt_of_not_lt hlt heq
  rw [if_neg hlt, if_neg heq]
  cases workday
  · simp only [Bool.not_false, if_true]
    split <;> exact ⟨hpast, rfl⟩
  · simp only [Bool.not_true, Bool.false_eq_true, if_false]
    split_ifs <;> exact ⟨hpast, rfl⟩

/-- A day that has ended by `today` fits every later day with the class that it had: it is neither
upcoming nor going on. -/
theorem DayClass.Fits.of_past {c : DayClass} {workday : Bool} (h : c.Fits date today workday)
    (hpast : date < today) (hlater : ¬ later < today) : c.Fits date later workday := by
  have hlt : date < later := by
    by_contra hle
    exact hlater (List.lt_of_le_of_lt (List.not_lt.1 hle) hpast)
  cases c with
  | upcoming => exact absurd (List.lt_trans h hpast) (List.lt_irrefl _)
  | inProgress =>
    obtain rfl : date = today := h
    exact absurd hpast (List.lt_irrefl _)
  | full | half | absent | off | extra => exact ⟨hlt, h.2⟩

end

/-- The summary of a day is right, whatever data it is made of. -/
theorem dayOk_summary (date today : Units) (i : DayLoad) : DayOk today (summary date today i) where
  fits := fits_dayClassOf
  paid := rfl

/-- A working day up to today counts once: as a full, half or absent day, or as today,
which is going on. -/
theorem DayOk.share_workdays (h : DayOk today d) : d.share today .workdays =
    d.share today .full + d.share today .half + d.share today .absent +
      if d.date = today ∧ d.workday = true then 1 else 0 := by
  have hfits := h.fits
  simp only [PersonDaySummary.share, PersonDaySummary.counts]
  cases hclass : d.dayClass <;> rw [hclass] at hfits
  case upcoming =>
    have hlt : today < d.date := hfits
    have hne : d.date ≠ today := fun heq => List.lt_irrefl _ (heq ▸ hlt)
    simp [hlt, hne]
  case inProgress =>
    have heq : d.date = today := hfits
    simp [heq, List.lt_irrefl]
  case full | half | absent | off | extra =>
    obtain ⟨hpast, hworkday⟩ := hfits
    have hlt : ¬ today < d.date := List.lt_asymm hpast
    have hne : d.date ≠ today := fun heq => List.lt_irrefl _ (heq ▸ hpast)
    simp [hlt, hne, hworkday]

/-- A day stays right when its activity is blanked. -/
theorem DayOk.quiet (h : DayOk today d) : DayOk today d.quiet := ⟨h.fits, h.paid⟩

/-- Totals that are those of days: every number, the average, and so the parts of each. -/
structure Right (today : Units) (days : List PersonDaySummary) (t : MonthTotals) : Prop
    extends AddsUp today days t where
  workdays : t.get .workdays = t.get .full + t.get .half + t.get .absent +
    (days.filter fun d => d.date = today && d.workday).length
  paid : t.get (.sum .paidSec) = t.get (.sum .focusSec) + t.get (.sum .paidBreakSec)

/-- Totals that add up over days that are right are right: the working days, payroll time and the
parts of the focus time are sums of equations that hold on each day. -/
theorem AddsUp.right (h : AddsUp today days t) (hdays : ∀ d ∈ days, DayOk today d) :
    Right today days t where
  toAddsUp := h
  workdays := by
    rw [h.sums, h.sums, h.sums, h.sums, length_filter_eq, ← sumOf_add, ← sumOf_add, ← sumOf_add]
    refine sumOf_congr fun d hd => ?_
    simpa using (hdays d hd).share_workdays
  paid := by
    rw [h.sums, h.sums, h.sums, ← sumOf_add]
    exact sumOf_congr fun d hd => (hdays d hd).paid

/-! ## Reports -/

structure PersonOk (today : Units) (p : PersonMonthReport π) : Prop where
  addsUp : AddsUp today p.days p.totals
  days : ∀ d ∈ p.days, DayOk today d

/-- A report whose every number is that of its people's days. -/
structure BuildOk (today : Units) (b : MonthBuild π) : Prop where
  persons : ∀ p ∈ b.persons, PersonOk today p
  team : AddsUp today (b.persons.flatMap fun p => p.days) b.team.totals.toMonthTotals
  people : b.team.totals.people = b.persons.length
  needsALook : b.team.totals.needsALook = b.persons.any fun p => p.totals.needsALook
  rows : b.team.rows = b.persons.map fun p => p.row

variable {b : MonthBuild π} {p : PersonMonthReport ℕ}

/-- A person's report is right: its days are, and its totals are theirs. -/
theorem PersonOk.right {p : PersonMonthReport π} (h : PersonOk today p) :
    Right today p.days p.totals :=
  h.addsUp.right h.days

/-- A team's totals are right over the days of all its people. -/
theorem BuildOk.right (h : BuildOk today b) :
    Right today (b.persons.flatMap fun p => p.days) b.team.totals.toMonthTotals := by
  refine h.team.right fun d hd => ?_
  obtain ⟨p, hp, hd⟩ := List.mem_flatMap.1 hd
  exact (h.persons p hp).days d hd

/-- A report is right when its people's are, its totals are computed from them (`totalsOf`) and
its rows are theirs. -/
theorem BuildOk.of_persons (h : ∀ p ∈ b.persons, PersonOk today p)
    (htotals : b.team.totals = totalsOf b.persons today)
    (hrows : b.team.rows = b.persons.map fun p => p.row) : BuildOk today b where
  persons := h
  team := htotals ▸ addsUp_totalsOf fun p hp => (h p hp).addsUp
  people := by simp [htotals, totalsOf, teamTotals]
  needsALook := by simp [htotals, totalsOf, teamTotals, List.any_map, Function.comp_def]
  rows := hrows

/-- The report that `buildPerson` makes is right, whatever is loaded of the days: the totals are
those of the days it lists, and each summary is right. -/
theorem personOk_buildPerson {load : ℕ → Units → DayLoad} {quietHoursFlag now : ℤ} {month : Units}
    {activity : Bool}
    {id : ℕ} : PersonOk today (buildPerson load quietHoursFlag month now today activity id) where
  addsUp := addsUp_monthTotals quietHoursFlag
  days d hd := by
    obtain ⟨date, -, rfl⟩ := List.mem_map.1 hd
    exact dayOk_summary _ _ _

/-- The report that `buildMonth` makes of a team is right, whatever is loaded of its people. -/
theorem buildOk_buildMonth {load : ℕ → Units → DayLoad} {quietHoursFlag now : ℤ} {people : List ℕ}
    {month : Units}
    {scope : ReportScope} {activity : Bool} :
    BuildOk today (buildMonth load quietHoursFlag people month scope now today activity) := by
  refine .of_persons (fun p hp => ?_) rfl rfl
  obtain ⟨id, -, rfl⟩ := List.mem_map.1 hp
  exact personOk_buildPerson

/-- Without the activity grant the quiet hours of a person are blanked, in the days and in the
totals, and the report is still right. -/
theorem PersonOk.redactActivity (h : PersonOk today p) (activity : Bool) :
    PersonOk today (Reports.redactActivity p activity) := by
  unfold Reports.redactActivity
  split
  · exact h
  · refine ⟨h.addsUp.quiet, fun d hd => ?_⟩
    obtain ⟨e, he, rfl⟩ := List.mem_map.1 hd
    exact (h.days e he).quiet

/-- Without the activity grant the quiet hours of a team are blanked, and the report
is still right. -/
theorem BuildOk.redacted {b : MonthBuild ℕ} (h : BuildOk today b) (activity : Bool) :
    BuildOk today (b.redacted activity) := by
  unfold MonthBuild.redacted
  split
  · exact h
  constructor
  case persons =>
    intro p hp
    obtain ⟨q, hq, rfl⟩ := List.mem_map.1 hp
    exact (h.persons q hq).redactActivity false
  case team =>
    have hquiet := h.team.quiet
    rw [List.map_flatMap] at hquiet
    rw [List.flatMap_map]
    exact hquiet
  case people => exact h.people.trans (List.length_map _).symm
  case needsALook => simp [MonthTotals.quiet, Reports.redactActivity]
  case rows =>
    simp only [h.rows, List.map_map]
    refine List.map_congr_left fun p _ => ?_
    simp only [Function.comp_apply, PersonMonthReport.row, Reports.redactActivity,
      Bool.false_eq_true, if_false, List.map_map]
    rfl

/-- Naming the organisation of each person (`withOrg`) changes no number of the report. -/
theorem BuildOk.withOrg {b : MonthBuild ℕ} (h : BuildOk today b) (org : ℕ) :
    BuildOk today (b.withOrg org) := by
  constructor
  case persons =>
    intro p hp
    obtain ⟨q, hq, rfl⟩ := List.mem_map.1 hp
    exact ⟨(h.persons q hq).addsUp, (h.persons q hq).days⟩
  case team =>
    simp only [MonthBuild.withOrg, List.flatMap_map]
    exact h.team
  case people => exact h.people.trans (List.length_map _).symm
  case needsALook => simpa [MonthBuild.withOrg, List.any_map, Function.comp_def] using h.needsALook
  case rows =>
    simp only [MonthBuild.withOrg, h.rows, List.map_map]
    rfl

/-- The organisations in view add up together: one alone is shown as it is, and several are summed
again from their people. -/
theorem buildOk_combineTeamMonth {results : List (ℕ × MonthBuild ℕ)}
    (h : ∀ r ∈ results, BuildOk today r.2)
    {month : Units} {now : ℤ} : BuildOk today (combineTeamMonth results month today now) := by
  unfold combineTeamMonth
  split
  · next org value => exact (h (org, value) List.mem_cons_self).withOrg org
  · refine .of_persons (fun p hp => ?_) rfl ?_
    · obtain ⟨r, hr, hp⟩ := List.mem_flatMap.1 hp
      exact ((h r hr).withOrg r.1).persons p hp
    · rw [List.map_flatMap, List.flatMap_def, List.flatMap_def]
      exact congrArg List.flatten (List.map_congr_left fun r hr => ((h r hr).withOrg r.1).rows)

/-! ## Locked months -/

/-- A person's stored month, locked on the day `today`: the month had ended, its totals are those of
its days, and both have paid time or neither does. -/
structure StoredOk (today : Units) (p : PersonMonthReport ℕ) : Prop where
  addsUp : AddsUp today p.days p.totals
  keys : ∀ d ∈ p.days, (d.numbers .paidSec).isSome = (p.totals.numbers (.sum .paidSec)).isSome
  past : ∀ d ∈ p.days, d.date < today
  fits : ∀ d ∈ p.days, d.dayClass.Fits d.date today d.workday
  paid : ∀ d ∈ p.days, ∀ v ∈ d.numbers .paidSec, v = d.get .focusSec + d.get .paidBreakSec

/-- A stored month reads the same on every later day, since all its days had ended
when it was locked. -/
theorem StoredOk.personOk (h : StoredOk today p) (hlater : ¬ later < today) :
    PersonOk later (withPayrollFields { p with locked := true }) := by
  have hpast : ∀ d ∈ p.days, ¬ today < d.date ∧ ¬ later < d.date := fun d hd =>
    ⟨List.lt_asymm (h.past d hd), fun hlt => hlater (List.lt_trans hlt (h.past d hd))⟩
  refine ⟨(h.addsUp.of_past hpast).withPayrollFields (p := { p with locked := true }) h.keys,
    fun d hd => ?_⟩
  obtain ⟨e, he, rfl⟩ := List.mem_map.1 hd
  refine ⟨(h.fits e he).of_past (h.past e he) hlater, ?_⟩
  show (e.numbers .paidSec).getD _ = _
  cases hpaid : e.numbers .paidSec with
  | none => rfl
  | some v => exact h.paid e he v hpaid

/-- So does the report of any people of a snapshot, whose totals are summed as on the day
of the lock. -/
theorem buildOk_fromSnapshot {dateKey : ℤ → Units} {snapshot : MonthSnapshot} {people : List ℕ}
    {scope : ReportScope}
    (hpersons : ∀ id, ∀ p ∈ snapshot.persons id, StoredOk (dateKey snapshot.generatedAt) p)
    (hlater : ¬ later < dateKey snapshot.generatedAt) :
    BuildOk later (fromSnapshot dateKey snapshot people scope) := by
  have hstored : ∀ p ∈ (fromSnapshot dateKey snapshot people scope).persons, ∃ p₀,
      StoredOk (dateKey snapshot.generatedAt) p₀ ∧
        p = withPayrollFields { p₀ with locked := true } := by
    intro p hp
    obtain ⟨p₀, hp₀, rfl⟩ := List.mem_map.1 hp
    obtain ⟨id, -, hid⟩ := List.mem_filterMap.1 hp₀
    exact ⟨p₀, hpersons id p₀ hid, rfl⟩
  have hthen : BuildOk (dateKey snapshot.generatedAt)
      (fromSnapshot dateKey snapshot people scope) := by
    refine .of_persons (fun p hp => ?_) rfl rfl
    obtain ⟨p₀, hp₀, rfl⟩ := hstored p hp
    exact hp₀.personOk (List.lt_irrefl _)
  refine { hthen with persons := fun p hp => ?_, team := hthen.team.of_past fun d hd => ?_ }
  · obtain ⟨p₀, hp₀, rfl⟩ := hstored p hp
    exact hp₀.personOk hlater
  · obtain ⟨p, hp, hd⟩ := List.mem_flatMap.1 hd
    obtain ⟨p₀, hp₀, rfl⟩ := hstored p hp
    obtain ⟨e, he, rfl⟩ := List.mem_map.1 hd
    have hpast : e.date < dateKey snapshot.generatedAt := hp₀.past e he
    exact ⟨List.lt_asymm hpast, fun hlt => hlater (List.lt_trans hlt hpast)⟩

/-- A month whose text comes before the month of a day lies before it with every one of its days. By
induction on the month's text. -/
theorem lt_of_lt_take {month key : Units} (rest : Units) (h : month < key.take month.length) :
    month ++ rest < key := by
  induction month generalizing key with
  | nil => exact absurd h (List.lt_irrefl _)
  | cons u month ih =>
    cases key with
    | nil => exact absurd h (List.not_lt_nil _)
    | cons v key =>
      rw [List.length_cons, List.take_succ_cons, List.cons_lt_cons_iff] at h
      exact List.cons_lt_cons_iff.2 (h.imp_right fun ⟨heq, hlt⟩ => ⟨heq, ih hlt⟩)

/-- A month is named by seven units, `YYYY-MM`, which is what `isValidMonth` checks. -/
theorem length_of_isValidMonth {month : Units} (h : isValidMonth month = true) :
    month.length = 7 := by
  unfold isValidMonth at h
  split at h
  · rfl
  · cases h

/-- What `lockMonth` stores of a person is right for good: the month has ended, so all of its days
lie before the day of the lock. -/
theorem storedOk_buildPerson {load : ℕ → Units → DayLoad} {quietHoursFlag now : ℤ}
    {month : Units} {id : ℕ} (hmonth : isValidMonth month = true) (hended : month < today.take 7) :
    StoredOk today
      { buildPerson load quietHoursFlag month now today true id with locked := true } where
  addsUp := addsUp_monthTotals quietHoursFlag
  keys d hd := by
    obtain ⟨date, -, rfl⟩ := List.mem_map.1 hd
    rfl
  past d hd := by
    obtain ⟨date, hdate, rfl⟩ := List.mem_map.1 hd
    obtain ⟨i, -, rfl⟩ := List.mem_map.1 hdate
    exact lt_of_lt_take _ (length_of_isValidMonth hmonth ▸ hended)
  fits d hd := by
    obtain ⟨date, -, rfl⟩ := List.mem_map.1 hd
    exact fits_dayClassOf
  paid d hd v hv := by
    obtain ⟨date, -, rfl⟩ := List.mem_map.1 hd
    obtain rfl := Option.some.inj hv
    rfl

namespace LockedMonths

variable (dateKey : ℤ → Units)

/-- The months that are stored were locked by today, once they had ended. -/
def Ok (s : LockedMonths) : Prop :=
  ∀ companyId month, ∀ snapshot ∈ s.snapshots companyId month,
    ¬ dateKey s.now < dateKey snapshot.generatedAt ∧
      ∀ id, ∀ p ∈ snapshot.persons id, StoredOk (dateKey snapshot.generatedAt) p

variable {dateKey} {s s' : LockedMonths} {act : LockAction}

/-- Storing a snapshot that is right, or dropping one, keeps all of them right: the other
months are the same. -/
theorem Ok.set (h : s.Ok dateKey) (companyId : ℕ) (month : Units) {snapshot : Option MonthSnapshot}
    (hnew : ∀ new ∈ snapshot, ¬ dateKey s.now < dateKey new.generatedAt ∧
      ∀ id, ∀ p ∈ new.persons id, StoredOk (dateKey new.generatedAt) p) :
    (s.set companyId month snapshot).Ok dateKey := by
  intro companyId' month' found hfound
  simp only [LockedMonths.set] at hfound
  by_cases hcompany : companyId' = companyId
  · subst hcompany
    rw [Function.update_self] at hfound
    by_cases hmonth : month' = month
    · subst hmonth
      exact hnew found (by rwa [Function.update_self] at hfound)
    · exact h companyId' month' found (by rwa [Function.update_of_ne hmonth] at hfound)
  · exact h companyId' month' found (by rwa [Function.update_of_ne hcompany] at hfound)

/-- Time passes, and months are locked and unlocked: every stored snapshot stays right. A month is
locked once it has ended, and the clock does not go back. -/
theorem Ok.step (h : s.Ok dateKey) (hstep : s.step dateKey act = some s') : s'.Ok dateKey := by
  cases act with
  | tick now =>
    obtain ⟨⟨-, hday⟩, hstep⟩ := Option.ite_none_right_eq_some.1 hstep
    obtain rfl := Option.some.inj hstep
    intro companyId month snapshot hsnapshot
    obtain ⟨hlater, hpersons⟩ := h companyId month snapshot hsnapshot
    exact ⟨List.not_lt.2 (List.le_trans (List.not_lt.1 hlater) (List.not_lt.1 hday)), hpersons⟩
  | lock companyId month everyone load quietHoursFlag =>
    obtain ⟨⟨hmonth, hended⟩, hstep⟩ := Option.ite_none_right_eq_some.1 hstep
    split at hstep
    · obtain rfl := Option.some.inj hstep
      exact h
    · obtain rfl := Option.some.inj hstep
      refine h.set companyId month fun new hnew => ?_
      obtain rfl := Option.some.inj hnew
      refine ⟨List.lt_irrefl _, fun id p hp => ?_⟩
      obtain ⟨q, hq, rfl⟩ := Option.map_eq_some_iff.1 hp
      obtain ⟨id, -, rfl⟩ := List.mem_map.1 (List.mem_reverse.1 (List.mem_of_find?_eq_some hq))
      exact storedOk_buildPerson hmonth hended
  | unlock companyId month =>
    obtain rfl := Option.some.inj hstep
    exact h.set companyId month nofun

variable {month : Units} {activity : Bool} {scope : ReportScope}

/-- A person's month is right, live or from the snapshot, with the activity or without it. -/
theorem Ok.personMonth (h : s.Ok dateKey) {companyId userId : ℕ} {load : ℕ → Units → DayLoad}
    {quietHoursFlag : ℤ} :
    PersonOk (dateKey s.now)
        (s.personMonth dateKey month activity companyId userId load quietHoursFlag) := by
  unfold LockedMonths.personMonth
  split
  · next p hp =>
    obtain ⟨snapshot, hsnapshot, hp⟩ := Option.bind_eq_some_iff.1 hp
    obtain ⟨hlater, hpersons⟩ := h companyId month snapshot hsnapshot
    exact ((hpersons userId p hp).personOk hlater).redactActivity activity
  · have hbuilt := @personOk_buildPerson (dateKey s.now) load quietHoursFlag
      s.now month activity userId
    refine PersonOk.redactActivity ?_ activity
    exact ⟨hbuilt.addsUp, hbuilt.days⟩

/-- The month of a team of one organisation is right, live or from the snapshot, with the
activity or without it. -/
theorem Ok.teamMonth (h : s.Ok dateKey) (q : OrgQuery) :
    BuildOk (dateKey s.now) (s.teamMonthWithPersons dateKey month activity scope q) := by
  refine BuildOk.redacted ?_ activity
  split
  · next snapshot hsnapshot =>
    obtain ⟨hlater, hpersons⟩ := h q.companyId month snapshot hsnapshot
    exact buildOk_fromSnapshot hpersons hlater
  · exact buildOk_buildMonth

/-- So is that of several organisations put together. -/
theorem Ok.combinedMonth (h : s.Ok dateKey) (orgs : List OrgQuery) :
    BuildOk (dateKey s.now) (s.combinedMonth dateKey month activity scope orgs) := by
  refine buildOk_combineTeamMonth fun r hr => ?_
  obtain ⟨q, -, rfl⟩ := List.mem_map.1 hr
  exact h.teamMonth q

end LockedMonths

/-- The numbers of a report: of each person, of all together, and in the rows. -/
structure MonthBuild.Shows (today : Units) (b : MonthBuild π) : Prop where
  persons : ∀ p ∈ b.persons, Right today p.days p.totals
  team : Right today (b.persons.flatMap fun p => p.days) b.team.totals.toMonthTotals
  people : b.team.totals.people = b.persons.length
  needsALook : b.team.totals.needsALook = b.persons.any fun p => p.totals.needsALook
  rows : b.team.rows = b.persons.map fun p => p.row

/-- A right report shows numbers that add up: each person's, the team's, and the number of
people who need a look. -/
theorem BuildOk.shows (h : BuildOk today b) : b.Shows today where
  persons p hp := (h.persons p hp).right
  team := h.right
  people := h.people
  needsALook := h.needsALook
  rows := h.rows

/-- Whatever months were locked and unlocked, on whichever days and with whatever data: every report
of a month, live or locked, of one person, of a team or of several organisations, whole or without
the activity, adds up. -/
theorem month_reports_add_up {dateKey : ℤ → Units} {s₀ s : LockedMonths} {acts : List LockAction}
    (hstored : s₀.Ok dateKey) (hrun : Runs.run (LockedMonths.step dateKey) s₀ acts = some s)
    (month : Units)
    (activity : Bool) :
    (∀ companyId userId load quietHoursFlag,
      let p := s.personMonth dateKey month activity companyId userId load quietHoursFlag
      Right (dateKey s.now) p.days p.totals) ∧
    ∀ scope, (∀ q, (s.teamMonthWithPersons dateKey month activity scope q).Shows (dateKey s.now)) ∧
      ∀ orgs, (s.combinedMonth dateKey month activity scope orgs).Shows (dateKey s.now) := by
  have h : s.Ok dateKey := Runs.invariant_run (LockedMonths.Ok dateKey)
    (fun _ _ _ hi _ hs => hi.step hs) hstored
    (Runs.Meets.of_forall (fun _ _ => trivial) acts s₀) hrun
  exact ⟨fun _ _ _ _ => h.personMonth.right, fun _ => ⟨fun q => (h.teamMonth q).shows,
    fun orgs => (h.combinedMonth orgs).shows⟩⟩

/-- A day of a snapshot without payroll time: two hours of focus and a quarter of
an hour of paid breaks. -/
def oldDay : PersonDaySummary where
  date := text "2025-01-02"
  workday := true
  dayClass := .half
  lateStart := none
  activeMin := 90
  numbers
    | .focusSec => some 7200
    | .paidBreakSec => some 900
    | _ => none

def oldPerson : PersonMonthReport ℕ where
  person := 7
  month := text "2025-01"
  locked := true
  generatedAt := 0
  totals :=
    { numbers :=
        Function.update (monthTotals [oldDay] (text "2025-02-01") 3).numbers (.sum .paidSec) none
      avgFocusSec := average 7200 1
      needsALook := false }
  days := [oldDay]
  heatmap := []

/-- The first day is 2025-02-01, the next ones 2026-02-03. -/
def oldClock (t : ℤ) : Units := if t < 1000 then text "2025-02-01" else text "2026-02-03"

/-- Organisation 5 has locked its months. -/
def oldMonths : LockedMonths where
  now := 0
  snapshots companyId _ := if companyId = 5 then some
    { generatedAt := 0
      team :=
        (buildMonth (fun _ _ => { focus := { sessions := [], now := 0 } }) 3 [] (text "2025-01")
        .all 0
        (text "2025-02-01") true).team
      persons := fun _ => some oldPerson } else none

/-- The old snapshot, which has no payroll time of its own, is right: its days had ended. -/
theorem oldMonths_ok : oldMonths.Ok oldClock := by
  intro companyId month snapshot hsnapshot
  obtain ⟨-, hsnapshot⟩ := Option.ite_none_right_eq_some.1 hsnapshot
  obtain rfl := Option.some.inj hsnapshot
  refine ⟨List.lt_irrefl _, fun id p hp => ?_⟩
  obtain rfl := Option.some.inj hp
  refine ⟨⟨fun k => ?_, rfl⟩, by simp [oldPerson, oldDay], ?_, ?_, by simp [oldPerson, oldDay]⟩
  · cases k with
    | sum k => cases k <;> rfl
    | _ => rfl
  · simp only [oldPerson, List.mem_singleton, forall_eq]
    decide
  · simp only [oldPerson, List.mem_singleton, forall_eq]
    exact ⟨by decide, rfl⟩

/-- A year later organisation 6 locks its January: organisation 5's old one adds up
still, with paid time. -/
theorem month_reports_add_up_old : ∃ s,
    Runs.run (LockedMonths.step oldClock) oldMonths
      [.tick 1000, .lock 6 (text "2026-01") [8]
        (fun _ _ => { focus := { sessions := [], now := 1000 } }) 3] = some s ∧
    let p := s.personMonth oldClock (text "2025-01") true 5 7
      (fun _ _ => { focus := { sessions := [], now := 1000 } }) 3
    p.totals.get (.sum .paidSec) = 8100 ∧ Right (oldClock s.now) p.days p.totals := by
  obtain ⟨s, hs, hpaid⟩ : ∃ s, Runs.run (LockedMonths.step oldClock) oldMonths
      [.tick 1000, .lock 6 (text "2026-01") [8]
        (fun _ _ => { focus := { sessions := [], now := 1000 } }) 3] = some s ∧
      (s.personMonth oldClock (text "2025-01") true 5 7
        (fun _ _ => { focus := { sessions := [], now := 1000 } })
        3).totals.get (.sum .paidSec) = 8100 := ⟨_, rfl, rfl⟩
  exact ⟨s, hs, hpaid, (month_reports_add_up oldMonths_ok hs (text "2025-01") true).1 5 7 _ 3⟩

end RxVision.Reports
