import RxVision.Database
import RxVision.Lib.Effective
import Mathlib.Data.List.Sort
import Mathlib.Data.List.Dedup

/-!
# The week pattern (`calendar.rules.ts`)

The working weekdays of an organisation and since when they apply. A new pattern replaces the
entries from its date on and keeps the earlier ones, so the days before it keep their pattern
(`PatternHistory.patternOn_withPatternFrom`).
-/

namespace RxVision

/-- `WeekPatternEntry`: weekdays and the date they apply from. -/
structure WeekPatternEntry where
  since : DateKey
  days : List ℤ
  deriving DecidableEq, Repr

/-- What `patternHistoryFromStored` reads: the weekdays that have always applied, and the later
entries in order of their dates. -/
structure PatternHistory where
  always : List ℤ
  entries : List WeekPatternEntry
  sorted : entries.Pairwise fun e e' => e.since.day < e'.since.day

/-- `DEFAULT_WEEK_PATTERN`: Monday to Saturday. -/
def DEFAULT_WEEK_PATTERN : List ℤ := [1, 2, 3, 4, 5, 6]

/-- The history of an organisation that never set a pattern. -/
def PatternHistory.initial : PatternHistory := ⟨DEFAULT_WEEK_PATTERN, [], .nil⟩

/-- `checkWeekPattern`: the weekdays once each, in order; none when one is no weekday. -/
def checkWeekPattern (days : List ℤ) : Option (List ℤ) :=
  if days.any fun d => d < 1 ∨ d > 7 then none else some (days.dedup.insertionSort (· ≤ ·))

namespace PatternHistory

/-- The weekdays after the entries `es`. -/
def lastDays (h : PatternHistory) (es : List WeekPatternEntry) : List ℤ :=
  (es.getLast?.map WeekPatternEntry.days).getD h.always

/-- `patternOn`: the weekdays that apply on `date`. -/
def patternOn (h : PatternHistory) (date : DateKey) : List ℤ :=
  h.lastDays (h.entries.takeWhile fun e => e.since.day ≤ date.day)

/-- The entries before `since`. -/
def kept (h : PatternHistory) (since : DateKey) : List WeekPatternEntry :=
  h.entries.filter fun e => e.since.day < since.day

/-- `withPatternFrom`: `days` apply from `since` on; the days in force start nothing new. -/
def withPatternFrom (h : PatternHistory) (since : DateKey) (days : List ℤ) : PatternHistory :=
  if h.lastDays (h.kept since) = days then ⟨h.always, h.kept since, h.sorted.filter _⟩
  else
    { always := h.always
      entries := h.kept since ++ [⟨since, days⟩]
      sorted := by
        refine List.pairwise_append.2 ⟨h.sorted.filter _, List.pairwise_singleton _ _, ?_⟩
        intro e he e' he'
        rw [List.mem_singleton.1 he']
        exact of_decide_eq_true (List.mem_filter.1 he).2 }

/-- The lookup, as the value in force on a day. -/
theorem patternOn_eq (h : PatternHistory) (date : DateKey) : h.patternOn date =
    Effective.inForce (fun e => e.since.day) WeekPatternEntry.days h.always h.entries date.day :=
  Effective.inForce_eq_takeWhile.symm

/-- The days before a new pattern keep theirs. -/
theorem patternOn_withPatternFrom (h : PatternHistory) {since date : DateKey} (days : List ℤ)
    (hd : date.day < since.day) : (h.withPatternFrom since days).patternOn date =
    h.patternOn date := by
  have hkept : ∀ e ∈ h.kept since, e.since.day < since.day :=
    fun e he => of_decide_eq_true (List.mem_filter.1 he).2
  rw [patternOn_eq, patternOn_eq, withPatternFrom]
  split
  · exact Effective.inForce_before h.sorted hd
  · refine (Effective.inForce_concat hkept).trans ?_
    rw [if_neg (not_le.2 hd)]
    exact Effective.inForce_before h.sorted hd

example : ((PatternHistory.initial.withPatternFrom ⟨30⟩ [1, 2, 3]).patternOn ⟨29⟩,
    (PatternHistory.initial.withPatternFrom ⟨30⟩ [1, 2, 3]).patternOn ⟨30⟩) =
    (DEFAULT_WEEK_PATTERN, [1, 2, 3]) := by decide

end PatternHistory

end RxVision
