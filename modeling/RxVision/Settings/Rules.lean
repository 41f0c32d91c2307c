import Mathlib.Logic.Function.Basic
import Mathlib.Algebra.Order.Group.Int

/-!
# Organisation settings (`settings/domain/settings.rules.ts`)

The settings table of an organisation: its defaults and bounds, how it is read from the stored JSON
object and how a partial update is applied to it. `settingsFromStored` answers the same for two
objects that agree on the table's keys (`settingsFromStored_congr`), and reads a table back that was
stored whole (`settingsFromStored_of_stored`).
-/

namespace RxVision

/-- A JSON value. What is neither a whole number nor a boolean goes by a number. -/
inductive Json
  | num (n : ℤ)
  | bool (b : Bool)
  | other (n : ℕ)
  deriving DecidableEq, Repr

/-- The number, in a comparison. -/
def Json.toInt : Json → ℤ
  | .num n => n
  | _ => 0

/-- `SettingKey`. -/
inductive SettingKey
  | approvalSlaHours | blockManagerEndDayWhenOverdue | fullDayPct | halfDayPct | lateStartGraceMin
  | quietHourActiveMin | quietHoursFlag | autoCloseAfterShiftEndMin | breakBufferMin
  | focusAdjustmentsEnabled
  deriving DecidableEq, Repr

/-- A top-level key of the organisation's object: one of the settings table, or of a section
that another module owns. -/
inductive RawKey
  | setting (key : SettingKey)
  | sect (name : String)
  deriving DecidableEq, Repr

/-- `Raw`: the object, `none` at the keys it does not have. -/
abbrev Raw := RawKey → Option Json

open SettingKey

/-- `SETTING_KEYS`. -/
def SETTING_KEYS : List SettingKey :=
  [approvalSlaHours, blockManagerEndDayWhenOverdue, fullDayPct, halfDayPct, lateStartGraceMin,
    quietHourActiveMin, quietHoursFlag, autoCloseAfterShiftEndMin, breakBufferMin,
    focusAdjustmentsEnabled]

/-- Every setting is listed. -/
theorem mem_SETTING_KEYS (key : SettingKey) : key ∈ SETTING_KEYS := by
  cases key <;> decide

/-- `DEFAULT_SETTINGS`. -/
def DEFAULT_SETTINGS : SettingKey → Json
  | approvalSlaHours => .num 48
  | blockManagerEndDayWhenOverdue => .bool true
  | fullDayPct => .num 80
  | halfDayPct => .num 40
  | lateStartGraceMin => .num 10
  | quietHourActiveMin => .num 20
  | quietHoursFlag => .num 4
  | autoCloseAfterShiftEndMin => .num 240
  | breakBufferMin => .num 10
  | focusAdjustmentsEnabled => .bool true

/-- `SETTING_BOUNDS`; the two on/off settings have none. -/
def SETTING_BOUNDS : SettingKey → Option (ℤ × ℤ)
  | approvalSlaHours => some (12, 168)
  | blockManagerEndDayWhenOverdue => none
  | fullDayPct => some (1, 100)
  | halfDayPct => some (1, 99)
  | lateStartGraceMin => some (0, 120)
  | quietHourActiveMin => some (1, 59)
  | quietHoursFlag => some (1, 100)
  | autoCloseAfterShiftEndMin => some (30, 720)
  | breakBufferMin => some (0, 60)
  | focusAdjustmentsEnabled => none

/-- `LABEL`. -/
def LABEL : SettingKey → String
  | approvalSlaHours => "Approval time limit (hours)"
  | blockManagerEndDayWhenOverdue => "Block End Day for managers with overdue approvals"
  | fullDayPct => "Full day (% of expected)"
  | halfDayPct => "Half day (% of expected)"
  | lateStartGraceMin => "Late start grace (minutes)"
  | quietHourActiveMin => "Quiet hour (active minutes)"
  | quietHoursFlag => "Quiet hours before a look"
  | autoCloseAfterShiftEndMin => "Auto-close after shift end (minutes)"
  | breakBufferMin => "Paid break buffer (minutes)"
  | focusAdjustmentsEnabled => "Manual focus adjustments by the Super Manager"

/-- `problemWith`: the problem with one value, `none` when it is valid. -/
def problemWith (key : SettingKey) (value : Json) : Option String :=
  match SETTING_BOUNDS key, value with
  | none, .bool _ => none
  | none, _ => some (LABEL key ++ " must be true or false.")
  | some (min, max), .num n =>
    if n < min ∨ max < n then
      some (LABEL key ++ s!" must be a whole number from {min} to {max}.")
    else none
  | some (min, max), _ => some (LABEL key ++ s!" must be a whole number from {min} to {max}.")

/-- Every default passes its own check. -/
theorem problemWith_default (key : SettingKey) : problemWith key (DEFAULT_SETTINGS key) = none := by
  cases key <;> decide

/-- `AppSettings`: every value is in bounds, and a full day is more than a half day. -/
structure AppSettings where
  value : SettingKey → Json
  valid : ∀ key, problemWith key (value key) = none
  ordered : (value halfDayPct).toInt < (value fullDayPct).toInt

/-- A failed update: the setting it is about, and the message. -/
structure PatchProblem where
  field : SettingKey
  message : String
  deriving DecidableEq, Repr

/-! ## Reading the stored object -/

/-- The loop of `settingsFromStored`. -/
def storedOrDefault (raw : Raw) (key : SettingKey) : Json :=
  match raw (.setting key) with
  | some value => if problemWith key value = none then value else DEFAULT_SETTINGS key
  | none => DEFAULT_SETTINGS key

/-- What is stored and valid, or else the default, passes its check. -/
theorem storedOrDefault_valid (raw : Raw) (key : SettingKey) :
    problemWith key (storedOrDefault raw key) = none := by
  unfold storedOrDefault
  split
  · split
    · assumption
    · exact problemWith_default key
  · exact problemWith_default key

/-- The table with the default for the full and the half day. -/
def resetDays (out : SettingKey → Json) : SettingKey → Json :=
  Function.update (Function.update out fullDayPct (DEFAULT_SETTINGS fullDayPct)) halfDayPct
    (DEFAULT_SETTINGS halfDayPct)

/-- Resetting the day shares keeps every setting valid. -/
theorem resetDays_valid {out : SettingKey → Json} (h : ∀ key, problemWith key (out key) = none)
    (key : SettingKey) : problemWith key (resetDays out key) = none := by
  unfold resetDays
  rcases eq_or_ne key halfDayPct with rfl | hhalf
  · rw [Function.update_self]
    exact problemWith_default _
  · rw [Function.update_of_ne hhalf]
    rcases eq_or_ne key fullDayPct with rfl | hfull
    · rw [Function.update_self]
      exact problemWith_default _
    · rw [Function.update_of_ne hfull]
      exact h key

/-- After it half a day is less than a full one. -/
theorem resetDays_ordered (out : SettingKey → Json) :
    (resetDays out halfDayPct).toInt < (resetDays out fullDayPct).toInt := by
  unfold resetDays
  rw [Function.update_self, Function.update_of_ne (by decide), Function.update_self]
  decide

/-- `settingsFromStored`. -/
def settingsFromStored (raw : Raw) : AppSettings :=
  let out := storedOrDefault raw
  if h : (out fullDayPct).toInt ≤ (out halfDayPct).toInt then
    ⟨resetDays out, resetDays_valid (storedOrDefault_valid raw), resetDays_ordered out⟩
  else ⟨out, storedOrDefault_valid raw, not_le.1 h⟩

/-- Only the table's own keys matter. -/
theorem settingsFromStored_congr {raw raw' : Raw}
    (h : ∀ key, raw (.setting key) = raw' (.setting key)) :
    settingsFromStored raw = settingsFromStored raw' := by
  have hout : storedOrDefault raw = storedOrDefault raw' := by
    funext key
    unfold storedOrDefault
    rw [h key]
  unfold settingsFromStored
  simp only [hout]

/-- A table that was stored whole is read back. -/
theorem settingsFromStored_of_stored {raw : Raw} {s : AppSettings}
    (h : ∀ key, raw (.setting key) = some (s.value key)) : settingsFromStored raw = s := by
  have hout : storedOrDefault raw = s.value := by
    funext key
    simp only [storedOrDefault, h key, s.valid key, if_true]
  unfold settingsFromStored
  simp only [hout, not_le.2 s.ordered, dite_false]

/-! ## A partial update -/

/-- The loop of `applySettingsPatch`: the values given, one key after another, until one is out of
bounds; with the keys that changed. -/
def applyKeys (patch : SettingKey → Option Json) :
    List SettingKey → (SettingKey → Json) → List SettingKey →
      Except PatchProblem ((SettingKey → Json) × List SettingKey)
  | [], next, changed => .ok (next, changed)
  | key :: keys, next, changed =>
    match patch key with
    | none => applyKeys patch keys next changed
    | some value =>
      match problemWith key value with
      | some message => .error ⟨key, message⟩
      | none =>
        applyKeys patch keys (Function.update next key value)
          (if next key ≠ value then changed ++ [key] else changed)

/-- What the loop leaves at each key of its list: what the patch gives, else what was there. -/
theorem applyKeys_eq_ok {patch : SettingKey → Option Json} {keys : List SettingKey}
    {next next' : SettingKey → Json} {changed changed' : List SettingKey}
    (h : applyKeys patch keys next changed = .ok (next', changed')) (key : SettingKey) :
    next' key = if key ∈ keys then (patch key).getD (next key) else next key := by
  induction keys generalizing next changed with
  | nil =>
    obtain ⟨rfl, -⟩ := Prod.mk.inj (Except.ok.inj h)
    rfl
  | cons k keys ih =>
    unfold applyKeys at h
    cases hk : patch k with
    | none =>
      simp only [hk] at h
      rw [ih h]
      rcases eq_or_ne key k with rfl | hne
      · simp [hk]
      · simp [hne]
    | some value =>
      simp only [hk] at h
      cases hp : problemWith k value with
      | some message => simp [hp] at h
      | none =>
        simp only [hp] at h
        rw [ih h]
        rcases eq_or_ne key k with rfl | hne
        · simp [hk]
        · simp [hne]

/-- The loop stops at a value out of bounds, so it keeps a valid table valid. -/
theorem applyKeys_valid {patch : SettingKey → Option Json} {keys : List SettingKey}
    {next next' : SettingKey → Json} {changed changed' : List SettingKey}
    (hvalid : ∀ key, problemWith key (next key) = none)
    (h : applyKeys patch keys next changed = .ok (next', changed')) (key : SettingKey) :
    problemWith key (next' key) = none := by
  induction keys generalizing next changed with
  | nil =>
    obtain ⟨rfl, -⟩ := Prod.mk.inj (Except.ok.inj h)
    exact hvalid key
  | cons k keys ih =>
    unfold applyKeys at h
    cases hk : patch k with
    | none =>
      simp only [hk] at h
      exact ih hvalid h
    | some value =>
      simp only [hk] at h
      cases hp : problemWith k value with
      | some message => simp [hp] at h
      | none =>
        simp only [hp] at h
        refine ih (fun key => ?_) h
        rcases eq_or_ne key k with rfl | hne
        · rw [Function.update_self]
          exact hp
        · rw [Function.update_of_ne hne]
          exact hvalid key

/-- The setting that a table with too low a full day is about. -/
def fieldOfDays (patch : SettingKey → Option Json) : SettingKey :=
  if patch fullDayPct ≠ none ∨ patch halfDayPct = none then fullDayPct else halfDayPct

/-- The message about a table with too low a full day. -/
def daysMessage (next : SettingKey → Json) : String :=
  let full := (next fullDayPct).toInt
  let half := (next halfDayPct).toInt
  s!"A full day ({full}%) must be more than a half day ({half}%)."

/-- `applySettingsPatch`: the new table and the keys that changed, or the first problem. -/
def applySettingsPatch (current : AppSettings) (patch : SettingKey → Option Json) :
    Except PatchProblem (AppSettings × List SettingKey) :=
  match h : applyKeys patch SETTING_KEYS current.value [] with
  | .error problem => .error problem
  | .ok (next, changed) =>
    if hle : (next fullDayPct).toInt ≤ (next halfDayPct).toInt then
      .error ⟨fieldOfDays patch, daysMessage next⟩
    else .ok (⟨next, applyKeys_valid current.valid h, not_le.1 hle⟩, changed)

/-- The new table has what the patch gives, and else what the current one has. -/
theorem applySettingsPatch_eq_ok {current result : AppSettings} {patch : SettingKey → Option Json}
    {changed : List SettingKey} (h : applySettingsPatch current patch = .ok (result, changed))
    (key : SettingKey) : result.value key = (patch key).getD (current.value key) := by
  unfold applySettingsPatch at h
  split at h
  · cases h
  · next next' changed' hkeys =>
    split at h
    · cases h
    · obtain ⟨rfl, -⟩ := Prod.mk.inj (Except.ok.inj h)
      exact (applyKeys_eq_ok hkeys key).trans (if_pos (mem_SETTING_KEYS key))

end RxVision
