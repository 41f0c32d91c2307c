import Mathlib.Algebra.Ring.Int.Defs
import Mathlib.Data.List.Sort
import RxVision.Database
import RxVision.Lib.Text

/-!
# The activity samples of a person (`ReportActivityUseCase.store`, `PrismaActivitySampleRepository`)

The agent posts a sample about once a minute, live or later from its offline backlog. Storing one
closes the sample that is the person's latest at that moment and creates the new one with no
duration yet. A report that changes what a closed day may hold is announced (`backfilled`), so that
cached hour buckets are built again.
-/

namespace RxVision

/-! ## Time -/

/-- The server's clock as a `Date` reads it: how far the wall clock is ahead of UTC at an
instant, and the instant that stands for a wall-clock time. A time the clock shows stands for
an instant that shows it; a skipped one is taken with the offset before it was skipped, and
shows as a later time. -/
structure HostClock where
  offset : ℤ → ℤ
  toUtc : ℤ → ℤ
  offset_lt : ∀ t, -86400000 < offset t ∧ offset t < 86400000
  le_reading : ∀ wall, wall ≤ toUtc wall + offset (toUtc wall)

namespace HostClock

variable (clock : HostClock)

/-- What the wall clock shows, in milliseconds. -/
def reading (t : ℤ) : ℤ := t + clock.offset t

/-- The local calendar day. -/
def localDateString (t : ℤ) : DateKey := ⟨clock.reading t / 86400000⟩

def getHours (t : ℤ) : ℕ := (clock.reading t % 86400000 / 3600000).toNat

/-- The start of the next hour: `setMinutes(0, 0, 0)`, then `setHours(getHours() + 1)`. -/
def nextHour (t : ℤ) : ℤ :=
  let onHour := clock.toUtc (clock.reading t / 3600000 * 3600000)
  clock.toUtc (clock.reading onHour + 3600000)

/-- An hour is one of the day. -/
theorem getHours_lt (t : ℤ) : clock.getHours t < 24 := by
  unfold getHours
  omega

/-- The wall clock shows a later time at the start of the next hour, even where that lies behind. -/
theorem reading_lt_nextHour (t : ℤ) : clock.reading t < clock.reading (clock.nextHour t) := by
  have honHour := clock.le_reading (clock.reading t / 3600000 * 3600000)
  have hnext := clock.le_reading
    (clock.reading (clock.toUtc (clock.reading t / 3600000 * 3600000)) + 3600000)
  unfold nextHour reading at *
  dsimp only at *
  omega

end HostClock

/-- A server clock on which the next hour lies ahead, on a whole second: one that is never put back
across the start of an hour it has shown. -/
structure LocalTime extends HostClock where
  lt_nextHour : ∀ t, t < toHostClock.nextHour t
  nextHour_whole : ∀ t, 1000 ∣ toHostClock.nextHour t

instance : Coe LocalTime HostClock := ⟨LocalTime.toHostClock⟩

/-- A server on UTC. -/
def LocalTime.utc : LocalTime where
  offset _ := 0
  toUtc wall := wall
  offset_lt _ := by omega
  le_reading _ := by omega
  lt_nextHour t := by
    unfold HostClock.nextHour HostClock.reading
    dsimp only
    omega
  nextHour_whole t := by
    unfold HostClock.nextHour HostClock.reading
    dsimp only
    omega

/-- Whole seconds between two instants, never negative (`Math.round` takes halves up). -/
def elapsedSeconds (start stop : ℤ) : ℤ := max 0 ((stop - start + 500) / 1000)

/-- Clamp a value into `[lo, hi]`. -/
def clamp (value lo hi : ℤ) : ℤ := min hi (max lo value)

/-- Longest span a single sample may represent. -/
def MAX_GAP_SEC : ℤ := 150

/-- A sample (or a stamped previous sample) older than this is not live. -/
def LIVE_LAG_MS : ℤ := 2 * 60000

/-- Foreground process name of the Windows lock screen. -/
def LOCK_SCREEN_APP : String := "LockApp.exe"

/-- The seconds a sample taken at `start` was in the foreground when the next one is taken
at `stop`. -/
def foregroundSec (start stop : ℤ) : ℤ := clamp (elapsedSeconds start stop) 0 MAX_GAP_SEC

/-- Between whole seconds all the time counts. -/
theorem elapsedSeconds_of_dvd {a b : ℤ} (h : 1000 ∣ b - a) (hle : a ≤ b) :
    elapsedSeconds a b * 1000 = b - a := by
  unfold elapsedSeconds
  omega

/-- No time counts for less than nothing. -/
theorem elapsedSeconds_nonneg (a b : ℤ) : 0 ≤ elapsedSeconds a b := le_max_left _ _

/-- Nor do foreground seconds. -/
theorem foregroundSec_nonneg (a b : ℤ) : 0 ≤ foregroundSec a b := by
  unfold foregroundSec clamp MAX_GAP_SEC
  omega

/-- A sample counts for at most the longest gap. -/
theorem foregroundSec_le (a b : ℤ) : foregroundSec a b ≤ MAX_GAP_SEC := min_le_left _ _

/-- Of two later samples the nearer one leaves fewer seconds, unless both are a longest
span away. -/
theorem foregroundSec_lt {a b c : ℤ} (hab : 1000 ∣ b - a) (hac : 1000 ∣ c - a) (hle : a ≤ b)
    (hbc : b < c) (hnear : b < a + MAX_GAP_SEC * 1000) : foregroundSec a b < foregroundSec a c := by
  have hb := elapsedSeconds_of_dvd hab hle
  have hc := elapsedSeconds_of_dvd hac (hle.trans hbc.le)
  unfold foregroundSec clamp MAX_GAP_SEC at *
  omega

/-- It counts for the longest gap when the next one is that far away. -/
theorem foregroundSec_of_far {a b : ℤ} (h : a + MAX_GAP_SEC * 1000 ≤ b) :
    foregroundSec a b = MAX_GAP_SEC := by
  unfold foregroundSec clamp elapsedSeconds MAX_GAP_SEC at *
  omega

/-- It counts for something when the next one is at least a second later. -/
theorem foregroundSec_pos {a b : ℤ} (h : 1000 ∣ b - a) (hlt : a < b) : 0 < foregroundSec a b := by
  have hb := elapsedSeconds_of_dvd h hlt.le
  unfold foregroundSec clamp MAX_GAP_SEC
  omega

/-! ## The table -/

/-- What a row of `activity_samples` says; `takenAt` is its column `at`. -/
structure Sample where
  date : DateKey
  takenAt : ℤ
  durationSec : ℤ
  idle : Bool
  locked : Bool
  app : Option String
  title : Option String
  url : Option String
  deriving DecidableEq

/-- A row of `activity_samples`. -/
structure ActivitySampleRecord extends Sample where
  id : ℕ
  deriving DecidableEq

/-- The samples of one person. -/
abbrev Samples := Table ActivitySampleRecord.id

namespace Samples

/-- `findLatestForUser`. -/
def findLatestForUser (t : Samples) : Option ActivitySampleRecord :=
  t.findLast? (fun _ => true) fun s => s.takenAt

/-- `stampDuration`. -/
def stampDuration (t : Samples) (id : ℕ) (durationSec : ℤ) : Samples :=
  t.updateMany (fun s => s.id = id) (fun s => { s with durationSec }) fun _ => rfl

/-- `create`: the new sample has no duration yet. -/
def createSample (t : Samples) (s : Sample) : Samples :=
  t.create (fun id => { s with durationSec := 0, id }) fun _ => rfl

/-- `listForUserByDate`: the samples of a local day in time order. -/
def listForUserByDate (t : Samples) (date : DateKey) : List Sample :=
  ((t.rows.map ActivitySampleRecord.toSample).filter fun s => s.date = date).insertionSort
    fun s s' => s.takenAt ≤ s'.takenAt

end Samples

/-! ## Storing a sample -/

/-- `ReportActivityDto`: what the agent says of a sample. -/
structure ReportActivityDto where
  idle : Option Bool := none
  locked : Option Bool := none
  app : Option String := none
  title : Option String := none
  url : Option String := none
  deriving DecidableEq

/-- A posted sample as it reaches the store: its instant and text, the server's clock, and whether
its day has ended or its session is closed. -/
structure ActivityReport where
  takenAt : ℤ
  body : ReportActivityDto := {}
  now : ℤ
  history : Bool := false
  deriving DecidableEq

/-- The number of UTF-16 units of a character. -/
def unitsOf (c : Char) : ℕ := if c.toNat < 0x10000 then 1 else 2

/-- `v.slice(0, max)`, which counts UTF-16 units: of a character of two units that is cut the first
one is left, which the database stores as the replacement character. -/
def sliceUnits : List Char → ℕ → List Char
  | [], _ => []
  | c :: v, max =>
    if unitsOf c ≤ max then c :: sliceUnits v (max - unitsOf c)
    else if max = 0 then [] else [Char.ofNat 0xFFFD]

/-- A text that is short enough is whole. -/
theorem sliceUnits_of_le {v : List Char} {max : ℕ} (h : (v.map unitsOf).sum ≤ max) :
    sliceUnits v max = v := by
  induction v generalizing max with
  | nil => rfl
  | cons c v ih =>
    rw [List.map_cons, List.sum_cons] at h
    rw [sliceUnits, if_pos (by omega), ih (by omega)]

/-- What is shorter than the limit was not cut. -/
theorem sliceUnits_of_lt {v : List Char} {max : ℕ}
    (h : ((sliceUnits v max).map unitsOf).sum < max) : sliceUnits v max = v := by
  induction v generalizing max with
  | nil => rfl
  | cons c v ih =>
    have hunits : unitsOf c ≤ 2 := by
      unfold unitsOf
      split <;> omega
    rw [sliceUnits] at h ⊢
    split at h
    · next hle =>
      rw [List.map_cons, List.sum_cons] at h
      rw [if_pos hle, ih (by omega)]
    · next hcut =>
      -- the first unit of a character that is cut fills what was left
      split at h
      · omega
      · have hone : ([Char.ofNat 0xFFFD].map unitsOf).sum = 1 := by decide
        omega

/-- The private `trim` of the use case: without blanks at the ends and at most `max` units long;
nothing for an empty text. -/
def trimTo (value : Option String) (max : ℕ) : Option String :=
  value.bind fun v => if trim v = "" then none else some
    (String.ofList (sliceUnits (trim v).toList max))

/-- The sample created for a report: an agent that never sends `locked` still gives the lock screen
away by name, and locked always counts as idle. -/
def newSample (clock : LocalTime) (r : ActivityReport) : Sample :=
  let app := trimTo r.body.app 200
  let locked := r.body.locked.getD false || app == some LOCK_SCREEN_APP
  { date := clock.localDateString r.takenAt
    takenAt := r.takenAt
    durationSec := 0
    idle := r.body.idle.getD false || locked
    locked
    app
    title := trimTo r.body.title 500
    url := trimTo r.body.url 255 }

namespace Samples

/-- Closing the open sample when one taken at `takenAt` arrives: it was foreground until then.
Answers whether an old sample was stamped. -/
def closePrevious (t : Samples) (takenAt now : ℤ) : Samples × Bool :=
  match t.findLatestForUser with
  | none => (t, false)
  | some prev =>
    let dur := foregroundSec prev.takenAt takenAt
    if prev.durationSec = 0 ∧ prev.takenAt ≤ takenAt ∧ 0 < dur then
      (t.stampDuration prev.id dur, decide (LIVE_LAG_MS < now - prev.takenAt))
    else (t, false)

/-- `ReportActivityUseCase.store`: the samples afterwards, and whether closed days are announced as
changed. -/
def store (clock : LocalTime) (t : Samples) (r : ActivityReport) : Samples × Bool :=
  let closed := t.closePrevious r.takenAt r.now
  (closed.1.createSample (newSample clock r),
    r.history || decide (LIVE_LAG_MS < r.now - r.takenAt) || closed.2)

/-- The samples after reports were stored one after another. -/
def storeAll (clock : LocalTime) (reports : List ActivityReport) : Samples :=
  reports.foldl (fun t r => (t.store clock r).1) .empty

end Samples

end RxVision
