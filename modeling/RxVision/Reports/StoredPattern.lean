import Mathlib.Data.List.Sort
import RxVision.Lib.Dict
import RxVision.Lib.Effective
import RxVision.Lib.JsonTree
import RxVision.Reports.WeekPattern

/-!
# The stored history of the week pattern (`calendar.rules.ts`, `CalendarService.setWeekPattern`)

The organisation's row holds the history as JSON, with dates as texts. `patternHistoryFromStored`
repairs whatever is stored, `withPatternFrom` writes a change and `patternOn` looks a date up.
The three agree: what is read is `Sound`, a change keeps it so, a sound history is read back as
it was written (`patternHistoryFromStored_stored`), and a change decides the dates from its own
on and no earlier one (`patternOn_withPatternFrom`). With day numbers for the dates it is a
`PatternHistory` (`Shows`).
-/

namespace RxVision.Calendar

open Effective

/-! ## Dates as texts -/

/-- The `from` of the first entry. -/
def PATTERN_SINCE_ALWAYS : Units := text "0000-01-01"

/-- `DATE_KEY`: a text like 2026-10-20. -/
def isDateText : Units → Bool
  | [y₁, y₂, y₃, y₄, s₁, m₁, m₂, s₂, d₁, d₂] =>
    [y₁, y₂, y₃, y₄, m₁, m₂, d₁, d₂].all isDigit && s₁ == 45 && s₂ == 45
  | _ => false

/-- `Number` of digits. -/
def number (digits : Units) : ℕ := digits.foldl (fun n u => 10 * n + (u.toNat - 48)) 0

/-- The days of a month. -/
def daysIn (year month : ℕ) : ℕ :=
  if month = 2 then if year % 4 = 0 ∧ (year % 100 ≠ 0 ∨ year % 400 = 0) then 29 else 28
  else if month = 4 ∨ month = 6 ∨ month = 9 ∨ month = 11 then 30
  else 31

/-- `isValidDateKey`: `Date.UTC` gives the year, month and day of a text back when there is such a
date. It takes the years 0 to 99 for 1900 to 1999, so it gives none of those back. -/
def isValidDateKey (value : Units) : Bool :=
  let year := number (value.take 4)
  let month := number ((value.drop 5).take 2)
  let day := number (value.drop 8)
  isDateText value && 100 ≤ year && 1 ≤ month && month ≤ 12 && 1 ≤ day && day ≤ daysIn year month

/-- `localeCompare` of texts like 2026-10-20: the digits are compared, the dashes
stand at the same places. -/
def localeCompare (a b : Units) :
    Ordering := compareOfLessAndEq (a.filter isDigit) (b.filter isDigit)

/-! ## Weekdays -/

/-- A weekday of a stored list. -/
def weekday (d : JsonTree) : Option ℤ := d.asInteger.filter fun n => 1 ≤ n ∧ n ≤ 7

/-- `weekPatternFromStored`: the weekdays of the stored list once each, in order. -/
def weekPatternFromStored : JsonTree → List ℤ
  | .arr elems => (elems.filterMap weekday).dedup.insertionSort (· ≤ ·)
  | _ => DEFAULT_WEEK_PATTERN

/-- `checkWeekPattern`. -/
def checkWeekPattern : JsonTree → Except String (List ℤ)
  | .arr elems =>
    if elems.any fun d => (weekday d).isNone then
      .error "Each weekday is a whole number from 1 (Monday) to 7 (Sunday)."
    else .ok ((elems.filterMap weekday).dedup.insertionSort (· ≤ ·))
  | _ => .error "days must be a list of weekdays (1 = Monday to 7 = Sunday)."

/-! ## The history -/

/-- `WeekPatternEntry`, with the text of its date. -/
structure WeekPatternEntry where
  since : Units
  days : List ℤ
  deriving DecidableEq

/-- The loop of `patternOn`, which stops at the first later entry. -/
def lastUpTo (date : Units) : Option (List ℤ) → List WeekPatternEntry → Option (List ℤ)
  | days, [] => days
  | days, e :: rest => if e.since ≤ date then lastUpTo date (some e.days) rest else days

/-- `patternOn`. -/
def patternOn (weekPattern : List ℤ) (history : List WeekPatternEntry) (date : Units) : List ℤ :=
  match history with
  | [] => weekPattern
  | first :: _ => (lastUpTo date none history).getD first.days

/-- What the reader takes of one stored entry. -/
def readEntry (raw : JsonTree) : Option (Units × List ℤ) :=
  match raw.get (text "from"), raw.get (text "days") with
  | .str since, .arr days =>
    if since = PATTERN_SINCE_ALWAYS ∨ isValidDateKey since then
      some (since, weekPatternFromStored (.arr days))
    else none
  | _, _ => none

/-- The order of `entries.sort(([a], [b]) => a.localeCompare(b))`. -/
def InOrder (e e' : Units × List ℤ) : Prop := localeCompare e.1 e'.1 ≠ .gt

instance : DecidableRel InOrder := fun _ _ => instDecidableNot

/-- `patternHistoryFromStored`. -/
def patternHistoryFromStored (history legacy : JsonTree) : List WeekPatternEntry :=
  let base : WeekPatternEntry := ⟨PATTERN_SINCE_ALWAYS, weekPatternFromStored legacy⟩
  match history with
  | .arr elems =>
    let byFrom := Dict.empty.setAll (elems.filterMap readEntry)
    let entries := (byFrom.entries.insertionSort InOrder).map fun e => WeekPatternEntry.mk e.1 e.2
    match entries with
    | [] => [base]
    | e :: rest => if e.since ≠ PATTERN_SINCE_ALWAYS then base :: e :: rest else e :: rest
  | _ => [base]

/-- `withPatternFrom`: entries from that date on are replaced; the days in force start
nothing new. -/
def withPatternFrom (history : List WeekPatternEntry) (since : Units) (days : List ℤ) :
    List WeekPatternEntry :=
  let kept := history.filter fun e => e.since < since
  if kept.getLast?.map WeekPatternEntry.days = some days then kept else kept ++ [⟨since, days⟩]

/-- The history as it is stored. -/
def stored (history : List WeekPatternEntry) : JsonTree :=
  .arr (history.map fun e => .obj [(text "from", .str e.since),
    (text "days", .arr (e.days.map fun d : ℤ => .num d))])

/-! ## The service -/

/-- The keys of the organisation's row that hold the week pattern. -/
structure StoredCalendar where
  weekPatternHistory : JsonTree
  weekPattern : JsonTree

/-- The history that is read of the row. -/
def StoredCalendar.history (raw : StoredCalendar) : List WeekPatternEntry :=
  patternHistoryFromStored raw.weekPatternHistory raw.weekPattern

/-- The row once `days` are written to apply from `since` on. -/
def StoredCalendar.change (raw : StoredCalendar) (since : Units) (days : List ℤ) : StoredCalendar :=
  { raw with weekPatternHistory := stored (withPatternFrom raw.history since days) }

inductive Refused
  | invalid (message field : String)
  | monthLocked (month : Units)
  deriving DecidableEq

/-- `assertDate`. -/
def assertDate (date : Units) (field : String) : Except Refused Unit :=
  let year := number (date.take 4)
  if !isValidDateKey date then .error (.invalid "Use a date like 2026-10-20." field)
  else if year < 2000 ∨ year > 2100 then .error (.invalid "That date is out of range." field)
  else .ok ()

/-- `setWeekPattern`, with the organisation's locked months: the row it leaves and its answer. -/
def setWeekPattern (raw : StoredCalendar) (lockedMonths : List Units) (today : Units)
    (days : JsonTree) (since : Option Units) : Except Refused (StoredCalendar × WeekPatternEntry) :=
  match checkWeekPattern days with
  | .error message => .error (.invalid message "days")
  | .ok checked =>
    let effective := since.getD today
    match since.elim (.ok ()) fun date => assertDate date "from" with
    | .error e => .error e
    | .ok () =>
      -- the latest of the locked months from that date's on
      match ((lockedMonths.filter fun m => effective.take 7 ≤ m).insertionSort
        fun m m' => m' ≤ m).head? with
      | some month => .error (.monthLocked month)
      | none => .ok (raw.change effective checked, ⟨effective, checked⟩)

/-! ## The order of date texts -/

local instance : LinearOrder Units where
  le_refl _ := Std.le_refl _
  le_trans _ _ _ := Std.le_trans
  lt_iff_le_not_ge _ _ := Std.lt_iff_le_and_not_ge
  le_antisymm _ _ := Std.le_antisymm
  le_total _ _ := Std.le_total
  toDecidableLE := inferInstance
  compare a b := compareOfLessAndEq a b
  compare_eq_compareOfLessAndEq _ _ := rfl

section Dates

variable {a b t : Units}

/-- A date text is eight digits with two dashes between them, four for the year and two each for the
month and the day. -/
theorem isDateText_iff : isDateText t = true ↔
    ∃ y₁ y₂ y₃ y₄ m₁ m₂ d₁ d₂, t = [y₁, y₂, y₃, y₄, 45, m₁, m₂, 45, d₁, d₂] ∧
      ∀ u ∈ [y₁, y₂, y₃, y₄, m₁, m₂, d₁, d₂], isDigit u = true := by
  constructor
  · intro h
    unfold isDateText at h
    split at h
    · next y₁ y₂ y₃ y₄ s₁ m₁ m₂ s₂ d₁ d₂ =>
      simp only [Bool.and_eq_true, beq_iff_eq, List.all_eq_true] at h
      obtain ⟨⟨hdigits, rfl⟩, rfl⟩ := h
      exact ⟨y₁, y₂, y₃, y₄, m₁, m₂, d₁, d₂, rfl, hdigits⟩
    · cases h
  · rintro ⟨y₁, y₂, y₃, y₄, m₁, m₂, d₁, d₂, rfl, hdigits⟩
    simp only [isDateText, List.all_eq_true.2 hdigits, beq_self_eq_true, Bool.and_self]

/-- Among date texts the order of the digits is the order of the texts: the dashes stand
in the same places. -/
theorem digits_lt_iff (ha : isDateText a = true) (hb : isDateText b = true) :
    a.filter isDigit < b.filter isDigit ↔ a < b := by
  obtain ⟨y₁, y₂, y₃, y₄, m₁, m₂, d₁, d₂, rfl, hd⟩ := isDateText_iff.1 ha
  obtain ⟨y₁', y₂', y₃', y₄', m₁', m₂', d₁', d₂', rfl, hd'⟩ := isDateText_iff.1 hb
  have hdash : isDigit 45 = false := by decide
  simp only [List.forall_mem_cons] at hd hd'
  simp [hd, hd', hdash, List.cons_lt_cons_iff]

/-- The digits of a date text determine it. -/
theorem digits_inj (ha : isDateText a = true) (hb : isDateText b = true)
    (h : a.filter isDigit = b.filter isDigit) : a = b := by
  rcases lt_trichotomy a b with hlt | heq | hlt
  · exact absurd ((digits_lt_iff ha hb).2 hlt) (by rw [h]; exact lt_irrefl _)
  · exact heq
  · exact absurd ((digits_lt_iff hb ha).2 hlt) (by rw [h]; exact lt_irrefl _)

/-- `localeCompare` puts date texts in the order of their digits, whatever it does
with the dashes. -/
theorem localeCompare_ne_gt : localeCompare a b ≠ .gt ↔ a.filter isDigit ≤ b.filter isDigit := by
  unfold localeCompare compareOfLessAndEq
  split
  · next hlt => simp [hlt.le]
  · split
    · next heq => simp [heq]
    · next hlt hne => simp [lt_of_le_of_ne (not_lt.1 hlt) (Ne.symm hne)]

/-- The first date of every history is a date text. -/
theorem isDateText_always : isDateText PATTERN_SINCE_ALWAYS = true := by decide

/-- A valid date is a date text. -/
theorem isDateText_of_valid (h : isValidDateKey t = true) : isDateText t = true := by
  simp only [isValidDateKey, Bool.and_eq_true] at h
  exact h.1.1.1.1.1

/-- No date lies at or before the beginning of time: the year of a valid date is 100 or later. -/
theorem always_lt (h : isValidDateKey t = true) : PATTERN_SINCE_ALWAYS < t := by
  have hyear : 100 ≤ number (t.take 4) := by
    simp only [isValidDateKey, Bool.and_eq_true, decide_eq_true_eq] at h
    exact h.1.1.1.1.2
  obtain ⟨y₁, y₂, y₃, y₄, m₁, m₂, d₁, d₂, rfl, hd⟩ := isDateText_iff.1 (isDateText_of_valid h)
  simp only [List.forall_mem_cons, isDigit, Bool.and_eq_true, decide_eq_true_eq,
    UInt16.le_iff_toNat_le, UInt16.reduceToNat] at hd
  obtain ⟨⟨h₁, -⟩, ⟨h₂, -⟩, ⟨h₃, h₃'⟩, ⟨h₄, h₄'⟩, -⟩ := hd
  simp only [number, List.take_succ_cons, List.take_zero, List.foldl_cons, List.foldl_nil] at hyear
  show [48, 48, 48, 48, 45, 48, 49, 45, 48, 49] < _
  -- one of the first two digits of the year is no zero
  rw [List.cons_lt_cons_iff, List.cons_lt_cons_iff]
  simp only [UInt16.lt_iff_toNat_lt, ← UInt16.toNat_inj, UInt16.reduceToNat]
  rcases h₁.lt_or_eq with hlt | heq
  · exact .inl hlt
  · exact .inr ⟨heq, .inl (by omega)⟩

end Dates

/-! ## Weeks -/

/-- Weekdays once each, in order. -/
structure IsWeek (days : List ℤ) : Prop where
  ascending : days.Pairwise (· < ·)
  weekdays : ∀ d ∈ days, 1 ≤ d ∧ d ≤ 7

section Weeks

variable {days checked : List ℤ} {elems : List JsonTree} {d : ℤ}

/-- A weekday that is read is one of 1 to 7. -/
theorem weekday_eq_some {j : JsonTree} (h : weekday j = some d) : 1 ≤ d ∧ d ≤ 7 := by
  simpa using (Option.filter_eq_some_iff.1 h).2

/-- Each number from 1 to 7 is read as that weekday. -/
theorem weekday_num (h : 1 ≤ d ∧ d ≤ 7) : weekday (.num d) = some d := by
  simp [weekday, h]

/-- Weekdays without repetition, in their order, make a week, as `checkWeekPattern` and the
reader both leave them. -/
theorem isWeek_sorted : IsWeek ((elems.filterMap weekday).dedup.insertionSort (· ≤ ·)) where
  ascending := by
    have hle := List.pairwise_insertionSort (· ≤ ·) (elems.filterMap weekday).dedup
    have hnodup := (List.perm_insertionSort (· ≤ ·) _).nodup_iff.2
      (List.nodup_dedup (elems.filterMap weekday))
    exact (hle.and hnodup).imp fun h => lt_of_le_of_ne h.1 h.2
  weekdays d hd := by
    rw [List.mem_insertionSort, List.mem_dedup] at hd
    obtain ⟨j, -, hj⟩ := List.mem_filterMap.1 hd
    exact weekday_eq_some hj

/-- What is read is a week, whatever is stored. -/
theorem isWeek_weekPatternFromStored (j : JsonTree) : IsWeek (weekPatternFromStored j) := by
  have hdefault : IsWeek DEFAULT_WEEK_PATTERN := ⟨by decide, by decide⟩
  cases j with
  | arr elems => exact isWeek_sorted
  | null | bool | num | str | obj => exact hdefault

/-- What `checkWeekPattern` accepts is a week: the days from 1 to 7 that were named, each
once and in order. -/
theorem isWeek_of_check {j : JsonTree} (h : checkWeekPattern j = .ok checked) : IsWeek checked := by
  cases j with
  | arr elems =>
    unfold checkWeekPattern at h
    dsimp only at h
    split at h
    · cases h
    · rw [← Except.ok.inj h]
      exact isWeek_sorted
  | null | bool | num | str | obj => cases h

/-- A week is read back as it was written: it has no repetition to drop and nothing to sort. -/
theorem weekPatternFromStored_num (h : IsWeek days) :
    weekPatternFromStored (.arr (days.map fun d : ℤ => .num d)) = days := by
  have hread : (days.map fun d : ℤ => JsonTree.num d).filterMap weekday = days := by
    rw [List.filterMap_map]
    refine (List.filterMap_congr fun d hd => ?_).trans List.filterMap_some
    exact weekday_num (h.weekdays d hd)
  have hnodup : days.Nodup := h.ascending.imp ne_of_lt
  unfold weekPatternFromStored
  dsimp only
  rw [hread, hnodup.dedup]
  exact List.Pairwise.insertionSort_eq (h.ascending.imp le_of_lt)

end Weeks

/-! ## Sound histories -/

/-- What the reader gives back: one entry for a date, in order of the dates, the first from
the beginning of time. -/
structure Sound (history : List WeekPatternEntry) : Prop where
  head : history.head?.map WeekPatternEntry.since = some PATTERN_SINCE_ALWAYS
  ascending : Ascending WeekPatternEntry.since history
  dates : ∀ e ∈ history, e.since = PATTERN_SINCE_ALWAYS ∨ isValidDateKey e.since = true
  weeks : ∀ e ∈ history, IsWeek e.days

section Histories

variable {history : List WeekPatternEntry} {since date : Units} {days : List ℤ}
  {p q : Units × List ℤ}
  {l : List (Units × List ℤ)}

/-- An entry under a date text. -/
def Dated (p : Units × List ℤ) : Prop :=
  (p.1 = PATTERN_SINCE_ALWAYS ∨ isValidDateKey p.1 = true) ∧ IsWeek p.2

/-- The date of an entry that is read is a date text. -/
theorem Dated.isDateText (h : Dated p) : isDateText p.1 = true := by
  rcases h.1 with heq | hvalid
  · rw [heq]
    exact isDateText_always
  · exact isDateText_of_valid hvalid

/-- An entry that is read has a valid date, or the beginning of time, and a week. -/
theorem readEntry_dated {raw : JsonTree} (h : readEntry raw = some p) : Dated p := by
  unfold readEntry at h
  split at h
  · split at h
    · next hdate =>
      obtain rfl := Option.some.inj h
      exact ⟨hdate, isWeek_weekPatternFromStored (.arr _)⟩
    · cases h
  · cases h

instance : Std.Total InOrder where
  total p q := by
    unfold InOrder
    rw [localeCompare_ne_gt, localeCompare_ne_gt]
    exact le_total _ _

instance : IsTrans _ InOrder where
  trans p q r hpq hqr := by
    unfold InOrder at *
    rw [localeCompare_ne_gt] at *
    exact hpq.trans hqr

/-- Entries in the order of their dates are in the order of the sort. -/
theorem inOrder_of_lt (hp : Dated p) (hq : Dated q) (h : p.1 < q.1) : InOrder p q := by
  unfold InOrder
  rw [localeCompare_ne_gt]
  exact ((digits_lt_iff hp.isDateText hq.isDateText).2 h).le

/-- Entries with different dates in the order of the sort are in the order of their dates. -/
theorem lt_of_inOrder (hp : Dated p) (hq : Dated q) (h : InOrder p q)
    (hne : p.1 ≠ q.1) : p.1 < q.1 := by
  unfold InOrder at h
  rw [localeCompare_ne_gt] at h
  refine (digits_lt_iff hp.isDateText hq.isDateText).1 (lt_of_le_of_ne h fun heq => hne ?_)
  exact digits_inj hp.isDateText hq.isDateText heq

/-- Sorted entries of a map ascend strictly, since a map has each date once. -/
theorem ascending_insertionSort {m : Dict Units (List ℤ)} (h : ∀ p ∈ m.entries, Dated p) :
    Ascending Prod.fst (m.entries.insertionSort InOrder) := by
  have hperm := List.perm_insertionSort InOrder m.entries
  have hnodup := (hperm.map Prod.fst).nodup_iff.2 m.nodup
  have hsorted := List.pairwise_insertionSort InOrder m.entries
  refine ((hsorted.and (List.pairwise_map.1 hnodup)).imp_of_mem fun hp hq hpq => ?_)
  exact lt_of_inOrder (h _ (hperm.mem_iff.1 hp)) (h _ (hperm.mem_iff.1 hq)) hpq.1 hpq.2

/-- The history of an organisation that never changed its week is sound. -/
theorem sound_base (legacy : JsonTree) :
    Sound [⟨PATTERN_SINCE_ALWAYS, weekPatternFromStored legacy⟩] where
  head := rfl
  ascending := List.pairwise_singleton _ _
  dates := by simp
  weeks := by simpa using isWeek_weekPatternFromStored legacy

/-- What is read is sound, whatever is stored: entries without a date are dropped, and a history
without a beginning gets one. -/
theorem sound_patternHistoryFromStored (history legacy : JsonTree) :
    Sound (patternHistoryFromStored history legacy) := by
  cases history with
  | arr elems =>
    unfold patternHistoryFromStored
    dsimp only
    obtain ⟨l, hl⟩ : ∃ l,
      (Dict.empty.setAll (elems.filterMap readEntry)).entries.insertionSort InOrder = l :=
      ⟨_, rfl⟩
    have hdated : ∀ p ∈ (Dict.empty.setAll (elems.filterMap readEntry)).entries, Dated p := by
      intro p hp
      rcases Dict.mem_setAll hp with hp | hp
      · cases hp
      · obtain ⟨raw, -, hraw⟩ := List.mem_filterMap.1 hp
        exact readEntry_dated hraw
    have hascending : Ascending Prod.fst l := hl ▸ ascending_insertionSort hdated
    replace hdated : ∀ p ∈ l, Dated p := fun p hp =>
      hdated p ((List.mem_insertionSort InOrder).1 (hl ▸ hp))
    rw [hl]
    cases l with
    | nil => exact sound_base legacy
    | cons p l =>
      obtain ⟨hp, hlater⟩ := List.forall_mem_cons.1 hdated
      have hentries : Ascending WeekPatternEntry.since ((p :: l).map fun e => ⟨e.1, e.2⟩) :=
        List.pairwise_map.2 hascending
      have hdates : ∀ e ∈ (p :: l).map fun e => WeekPatternEntry.mk e.1 e.2,
          (e.since = PATTERN_SINCE_ALWAYS ∨ isValidDateKey e.since = true) ∧ IsWeek e.days := by
        intro e he
        obtain ⟨q, hq, rfl⟩ := List.mem_map.1 he
        exact hdated q hq
      rw [List.map_cons] at hentries hdates ⊢
      dsimp only
      split
      · next hfirst =>
        have hbase : PATTERN_SINCE_ALWAYS < p.1 := always_lt (hp.1.resolve_left hfirst)
        refine ⟨rfl, List.pairwise_cons.2 ⟨?_, hentries⟩, ?_, ?_⟩
        · refine List.forall_mem_cons.2 ⟨hbase, fun e he => hbase.trans ?_⟩
          exact (List.pairwise_cons.1 hentries).1 e he
        · exact List.forall_mem_cons.2 ⟨.inl rfl, fun e he => (hdates e he).1⟩
        · exact List.forall_mem_cons.2 ⟨isWeek_weekPatternFromStored legacy,
            fun e he => (hdates e he).2⟩
      · next hfirst =>
        refine ⟨?_, hentries, fun e he => (hdates e he).1, fun e he => (hdates e he).2⟩
        rw [List.head?_cons, Option.map_some, not_not.1 hfirst]
  | null | bool | num | str | obj => exact sound_base legacy

/-- The entries of a sound history are such as are read. -/
theorem Sound.dated (h : Sound history) :
    ∀ p ∈ history.map fun e => (e.since, e.days), Dated p := by
  intro p hp
  obtain ⟨e, he, rfl⟩ := List.mem_map.1 hp
  exact ⟨h.dates e he, h.weeks e he⟩

/-- A stored entry with a date and a week is read back as it was. -/
theorem readEntry_stored {e : WeekPatternEntry}
    (hdate : e.since = PATTERN_SINCE_ALWAYS ∨ isValidDateKey e.since = true)
    (hweek : IsWeek e.days) :
    readEntry
      (.obj [(text "from", .str e.since), (text "days", .arr (e.days.map fun d : ℤ => .num d))]) =
      some (e.since, e.days) := by
  have hread : readEntry (.obj [(text "from", .str e.since),
      (text "days", .arr (e.days.map fun d : ℤ => .num d))]) =
      if e.since = PATTERN_SINCE_ALWAYS ∨ isValidDateKey e.since = true then
        some
          (e.since, weekPatternFromStored (.arr (e.days.map fun d : ℤ => .num d))) else none := rfl
  rw [hread, if_pos hdate, weekPatternFromStored_num hweek]

/-- A sound history is read back as it was written, so nothing is lost between two
changes of the pattern. -/
theorem patternHistoryFromStored_stored (h : Sound history) (legacy : JsonTree) :
    patternHistoryFromStored (stored history) legacy = history := by
  have hread : (history.map fun e => JsonTree.obj [(text "from", .str e.since),
      (text "days", .arr (e.days.map fun d : ℤ => .num d))]).filterMap readEntry =
      history.map fun e => (e.since, e.days) := by
    rw [List.filterMap_map]
    refine (List.filterMap_congr fun e he => ?_).trans (congrFun List.filterMap_eq_map _)
    exact readEntry_stored (h.dates e he) (h.weeks e he)
  have hascending : Ascending Prod.fst (history.map fun e => (e.since, e.days)) :=
    List.pairwise_map.2 h.ascending
  have hmap : (Dict.empty.setAll (history.map fun e => (e.since, e.days))).entries =
      history.map fun e => (e.since, e.days) :=
    Dict.entries_setAll (List.pairwise_map.2 (hascending.imp ne_of_lt))
  have hsorted : (history.map fun e => (e.since, e.days)).insertionSort InOrder =
      history.map fun e => (e.since, e.days) :=
    List.Pairwise.insertionSort_eq (hascending.imp_of_mem fun hp hq hlt =>
      inOrder_of_lt (h.dated _ hp) (h.dated _ hq) hlt)
  unfold patternHistoryFromStored stored
  dsimp only
  rw [hread, hmap, hsorted, List.map_map]
  cases history with
  | nil => cases h.head
  | cons e rest =>
    have hfirst : e.since = PATTERN_SINCE_ALWAYS := Option.some.inj h.head
    show (if e.since ≠ PATTERN_SINCE_ALWAYS then _ else _) = e :: rest
    rw [if_neg (not_not.2 hfirst)]
    exact congrArg (e :: ·) (List.map_id rest)

/-! ## A change -/

/-- A valid date keeps the entry that has applied since the beginning of time, which lies
before every date. -/
theorem Sound.head_before (h : Sound history) (hs : isValidDateKey since = true) :
    (before WeekPatternEntry.since history since).head? = history.head? := by
  cases history with
  | nil => rfl
  | cons e rest =>
    have hfirst : e.since = PATTERN_SINCE_ALWAYS := Option.some.inj h.head
    have hlt : e.since < since := hfirst ▸ always_lt hs
    rw [before, List.filter_cons_of_pos (by simpa using hlt), List.head?_cons, List.head?_cons]

/-- A change keeps the entries before its date, and adds its own unless the last of
them has the same days. -/
theorem withPatternFrom_eq : withPatternFrom history since days =
    if (before WeekPatternEntry.since history since).getLast?.map WeekPatternEntry.days =
    some days then
      before WeekPatternEntry.since history since
    else before WeekPatternEntry.since history since ++ [⟨since, days⟩] := rfl

/-- A change of the week from a valid date keeps a history sound: the earlier entries stay, and the
new one comes last. -/
theorem Sound.withPatternFrom (h : Sound history) (hs : isValidDateKey since = true)
    (hd : IsWeek days) : Sound (withPatternFrom history since days) := by
  have hkept : Sound (before WeekPatternEntry.since history since) :=
    { head := by rw [h.head_before hs, h.head]
      ascending := h.ascending.before
      dates := fun e he => h.dates e (List.mem_of_mem_filter he)
      weeks := fun e he => h.weeks e (List.mem_of_mem_filter he) }
  rw [withPatternFrom_eq]
  split
  · exact hkept
  · refine ⟨?_, hkept.ascending.concat fun e he => lt_of_mem_before he, ?_, ?_⟩
    · rw [List.head?_append, Option.map_or, hkept.head, Option.some_or]
    · exact List.forall_mem_append.2 ⟨hkept.dates, by simpa using .inr hs⟩
    · exact List.forall_mem_append.2 ⟨hkept.weeks, by simpa using hd⟩

/-- The scan for the last entry up to a date gives what is in force on it. By
induction on the entries. -/
theorem lastUpTo_some : lastUpTo date (some days) history =
    some (inForce WeekPatternEntry.since WeekPatternEntry.days days history date) := by
  induction history generalizing days with
  | nil => rfl
  | cons e rest ih =>
    rw [lastUpTo, inForce]
    split
    · exact ih
    · rfl

/-- The lookup of a date is the value in force from the first entry on; the legacy pattern is not
asked when there is one. -/
theorem patternOn_of_head {first : WeekPatternEntry} (weekPattern : List ℤ)
    (h : history.head? = some first) : patternOn weekPattern history date =
      inForce WeekPatternEntry.since WeekPatternEntry.days first.days history date := by
  obtain ⟨rest, rfl⟩ := List.head?_eq_some_iff.1 h
  rw [patternOn, lastUpTo, inForce]
  split
  · rw [lastUpTo_some, Option.getD_some]
  · rfl

/-- A change keeps the first entry, since it lies before every date. -/
theorem Sound.head_withPatternFrom (h : Sound history) (hs : isValidDateKey since = true) :
    (Calendar.withPatternFrom history since days).head? = history.head? := by
  rw [withPatternFrom_eq]
  split
  · exact h.head_before hs
  · rw [List.head?_append, h.head_before hs]
    cases hfirst : history.head? with
    | none =>
      have hhead := h.head
      rw [hfirst] at hhead
      cases hhead
    | some first => rfl

/-- A change decides the dates from its own on and no earlier one. -/
theorem patternOn_withPatternFrom (weekPattern : List ℤ) (h : Sound history)
    (hs : isValidDateKey since = true) :
    patternOn weekPattern (withPatternFrom history since days) date =
      if since ≤ date then days else patternOn weekPattern history date := by
  obtain ⟨first, hfirst, -⟩ := Option.map_eq_some_iff.1 h.head
  rw [patternOn_of_head weekPattern hfirst,
    patternOn_of_head weekPattern ((h.head_withPatternFrom hs).trans hfirst), withPatternFrom_eq]
  split
  · next hlast =>
    -- the days in force go on
    split
    · next hle => rw [inForce_before_of_le hle, hlast, Option.getD_some]
    · next hlt => exact inForce_before h.ascending (not_le.1 hlt)
  · rw [inForce_concat fun e he => lt_of_mem_before he]
    split
    · rfl
    · next hlt => exact inForce_before h.ascending (not_le.1 hlt)

end Histories

/-! ## The history by day numbers -/

/-- The numbers of the days are in the order of their dates. -/
def DayOrder (day : Units → ℤ) : Prop :=
  ∀ a b, isValidDateKey a = true → isValidDateKey b = true → (a < b ↔ day a < day b)

/-- The stored history is the history `h`, whose dates are day numbers. -/
structure Shows (day : Units → ℤ) (history : List WeekPatternEntry)
    (h : PatternHistory) : Prop where
  eq : ∃ first rest, history = first :: rest ∧ h.always = first.days ∧
    h.entries = rest.map fun e => ⟨⟨day e.since⟩, e.days⟩

section Abstract

variable {day : Units → ℤ} {history rest : List WeekPatternEntry} {first : WeekPatternEntry}
  {h : PatternHistory} {since date : Units} {days : List ℤ}

/-- Every entry after the first has a date; only the first begins with time. -/
theorem Sound.dates_rest (hs : Sound (first :: rest)) :
    ∀ e ∈ rest, isValidDateKey e.since = true := by
  intro e he
  have hfirst : first.since = PATTERN_SINCE_ALWAYS := Option.some.inj hs.head
  refine (hs.dates e (List.mem_cons_of_mem _ he)).resolve_left fun heq => ?_
  have hlt := (List.pairwise_cons.1 hs.ascending).1 e he
  rw [hfirst, heq] at hlt
  exact lt_irrefl _ hlt

/-- Every sound history is one with day numbers for its dates, and so a value of the abstract
`PatternHistory`. -/
theorem Sound.exists_shows (hday : DayOrder day) (hs : Sound history) :
    ∃ h, Shows day history h := by
  cases history with
  | nil => cases hs.head
  | cons first rest =>
    refine ⟨⟨first.days, rest.map fun e => ⟨⟨day e.since⟩, e.days⟩, ?_⟩,
      ⟨first, rest, rfl, rfl, rfl⟩⟩
    refine List.pairwise_map.2 ((List.pairwise_cons.1 hs.ascending).2.imp_of_mem ?_)
    intro e e' he he' hlt
    exact (hday _ _ (hs.dates_rest e he) (hs.dates_rest e' he')).1 hlt

/-- The numbers of the days are in the order of their dates, with equality. -/
theorem DayOrder.le_iff (hday : DayOrder day) {a b : Units} (ha : isValidDateKey a = true)
    (hb : isValidDateKey b = true) : a ≤ b ↔ day a ≤ day b := by
  rw [← not_lt, ← not_lt, hday b a hb ha]

/-- A date has the same weekdays in the stored history and in the one with day numbers. -/
theorem Shows.patternOn (hday : DayOrder day) (hs : Sound history) (hshows : Shows day history h)
    (hd : isValidDateKey date = true) (weekPattern : List ℤ) :
    Calendar.patternOn weekPattern history date = h.patternOn ⟨day date⟩ := by
  obtain ⟨first, rest, rfl, halways, hentries⟩ := hshows.eq
  have hfirst : first.since = PATTERN_SINCE_ALWAYS := Option.some.inj hs.head
  have hle : first.since ≤ date := hfirst ▸ (always_lt hd).le
  have hkeys : ∀ e ∈ rest, e.since ≤ date ↔ day e.since ≤ day date :=
    fun e he => hday.le_iff (hs.dates_rest e he) hd
  have hmap : inForce (fun e => e.since.day) RxVision.WeekPatternEntry.days first.days
      (rest.map fun e => ⟨⟨day e.since⟩, e.days⟩) (day date) =
      inForce WeekPatternEntry.since WeekPatternEntry.days first.days rest date :=
    inForce_map hkeys fun _ => rfl
  rw [patternOn_of_head weekPattern rfl, inForce, if_pos hle, PatternHistory.patternOn_eq,
    halways, hentries]
  exact hmap.symm

/-- A change leaves the same history in both, so the two stay in step over any number of changes. -/
theorem Shows.withPatternFrom (hday : DayOrder day) (hs : Sound history)
    (hshows : Shows day history h) (hd : isValidDateKey since = true) :
    Shows day (Calendar.withPatternFrom history since days)
        (h.withPatternFrom ⟨day since⟩ days) := by
  obtain ⟨first, rest, rfl, halways, hentries⟩ := hshows.eq
  have hfirst : first.since = PATTERN_SINCE_ALWAYS := Option.some.inj hs.head
  have hlt : first.since < since := hfirst ▸ always_lt hd
  have hbefore : before WeekPatternEntry.since (first :: rest) since =
      first :: before WeekPatternEntry.since rest since :=
    List.filter_cons_of_pos (by simpa using hlt)
  have hkept : h.kept ⟨day since⟩ =
      (before WeekPatternEntry.since rest since).map fun e => ⟨⟨day e.since⟩, e.days⟩ := by
    rw [PatternHistory.kept, hentries, List.filter_map]
    refine congrArg _ (List.filter_congr fun e he => ?_)
    exact decide_eq_decide.2 (hday e.since since (hs.dates_rest e he) hd).symm
  have hlast : h.lastDays (h.kept ⟨day since⟩) =
      ((before WeekPatternEntry.since rest since).getLast?.getD first).days := by
    rw [PatternHistory.lastDays, hkept, List.getLast?_map, halways]
    cases (before WeekPatternEntry.since rest since).getLast? <;> rfl
  rw [withPatternFrom_eq, hbefore, List.getLast?_cons, Option.map_some,
    PatternHistory.withPatternFrom, hlast]
  by_cases hsame : ((before WeekPatternEntry.since rest since).getLast?.getD first).days = days
  · rw [if_pos (congrArg some hsame), if_pos hsame]
    exact ⟨first, _, rfl, halways, hkept⟩
  · rw [if_neg fun heq => hsame (Option.some.inj heq), if_neg hsame]
    refine ⟨first, before WeekPatternEntry.since rest since ++ [⟨since, days⟩], rfl, halways, ?_⟩
    rw [List.map_append, ← hkept]
    rfl

end Abstract

/-! ## The row -/

section Row

variable {raw raw' : StoredCalendar} {since today date : Units} {days : JsonTree} {checked : List ℤ}

/-- What is read after a change is the changed history. -/
theorem history_change (hs : isValidDateKey since = true) (hd : IsWeek checked) :
    (raw.change since checked).history = withPatternFrom raw.history since checked :=
  patternHistoryFromStored_stored ((sound_patternHistoryFromStored _ _).withPatternFrom hs hd) _

/-- What `setWeekPattern` accepts is a change of the stored history from a valid date on, to a week
that `checkWeekPattern` accepts. -/
theorem setWeekPattern_eq_ok {lockedMonths : List Units} {from' : Option Units}
    {entry : WeekPatternEntry} (htoday : isValidDateKey today = true)
    (h : setWeekPattern raw lockedMonths today days from' = .ok (raw', entry)) :
    checkWeekPattern days = .ok entry.days ∧ isValidDateKey entry.since = true ∧
      raw' = raw.change entry.since entry.days := by
  unfold setWeekPattern at h
  split at h
  · cases h
  · next checked hchecked =>
    dsimp only at h
    split at h
    · cases h
    · next hdate =>
      split at h
      · cases h
      · obtain ⟨rfl, rfl⟩ := Prod.mk.inj (Except.ok.inj h)
        refine ⟨hchecked, ?_, rfl⟩
        cases from' with
        | none => exact htoday
        | some date =>
          change assertDate date "from" = _ at hdate
          unfold assertDate at hdate
          dsimp only at hdate
          split at hdate
          · cases hdate
          · next hvalid => simpa using hvalid

/-- A change reads back as the new days from its date on, and as before on every earlier one. -/
theorem patternOn_change (raw : StoredCalendar) (weekPattern : List ℤ)
    (hs : isValidDateKey since = true) (hd : checkWeekPattern days = .ok checked) (date : Units) :
    patternOn weekPattern (raw.change since checked).history date =
      if since ≤ date then checked else patternOn weekPattern raw.history date := by
  rw [history_change hs (isWeek_of_check hd)]
  exact patternOn_withPatternFrom weekPattern (sound_patternHistoryFromStored _ _) hs

/-- Changing the working week never rewrites earlier days: neither does storing what
`withPatternFrom` makes of the history, nor a sequence of such changes, nor whatever
`setWeekPattern` accepts. -/
theorem weekPattern_changes (raw : StoredCalendar) (weekPattern : List ℤ) :
    (∀ since days checked, isValidDateKey since = true → checkWeekPattern days = .ok checked →
      let changed := (raw.change since checked).history
      changed.Pairwise (fun e e' => e.since < e'.since) ∧
        changed.head?.map WeekPatternEntry.since = some PATTERN_SINCE_ALWAYS ∧
        ∀ date, patternOn weekPattern changed date =
          if since ≤ date then checked else patternOn weekPattern raw.history date) ∧
    (∀ changes : List (Units × List ℤ),
      (∀ c ∈ changes, isValidDateKey c.1 = true ∧ ∃ days, checkWeekPattern days = .ok c.2) →
      ∀ date,
        patternOn weekPattern (changes.foldl (fun raw c => raw.change c.1 c.2) raw).history date =
          ((changes.reverse.find? fun c => c.1 ≤ date).map Prod.snd).getD
            (patternOn weekPattern raw.history date)) ∧
    ∀ lockedMonths today days from' raw' entry, isValidDateKey today = true →
      setWeekPattern raw lockedMonths today days from' = .ok (raw', entry) →
      checkWeekPattern days = .ok entry.days ∧
        ∀ date, patternOn weekPattern raw'.history date =
          if entry.since ≤ date then entry.days else patternOn weekPattern raw.history date := by
  refine ⟨fun since days checked hs hd => ?_, fun changes hc date => ?_,
    fun lockedMonths today days from' raw' entry htoday hset => ?_⟩
  · have hsound : Sound (raw.change since checked).history := sound_patternHistoryFromStored _ _
    exact ⟨hsound.ascending, hsound.head, patternOn_change raw weekPattern hs hd⟩
  · rw [← foldl_changes changes fun date => patternOn weekPattern raw.history date]
    induction changes generalizing raw with
    | nil => rfl
    | cons c changes ih =>
      obtain ⟨⟨hs, days, hd⟩, hchanges⟩ := List.forall_mem_cons.1 hc
      rw [List.foldl_cons, List.foldl_cons, ih _ hchanges]
      simp only [patternOn_change raw weekPattern hs hd]
  · obtain ⟨hd, hs, rfl⟩ := setWeekPattern_eq_ok htoday hset
    exact ⟨hd, patternOn_change raw weekPattern hs hd⟩

end Row

end RxVision.Calendar
