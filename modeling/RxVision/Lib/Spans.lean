import RxVision.Lib.Table

/-!
# Tables of spans

Rows with a start and an end that may still be missing: a row without an end is *open* and runs on.
A table is *ordered* when every closed row ends at or after its start (`Spans.Ordered`), and has
*one open* row at most (`Spans.OneOpen`). For each of the two there is one rule for each operation
of the table.

Nothing here depends on what the rows are: the start and the end are parameters.
-/

namespace Spans

/-- The last of some times, `t` when there are none. -/
def lastOr {α : Type*} [LinearOrder α] (times : List α) (t : α) : α := times.maximum.unbotD t

/-- No time is after the last one. -/
theorem le_lastOr {α : Type*} [LinearOrder α] {times : List α} {e t : α} (he : e ∈ times) :
    e ≤ lastOr times t := by
  have hle := List.le_maximum_of_mem' he
  rw [lastOr]
  cases hmax : times.maximum with
  | bot =>
    rw [hmax, le_bot_iff] at hle
    exact absurd hle WithBot.coe_ne_bot
  | coe m =>
    rw [hmax] at hle
    exact WithBot.coe_le_coe.1 hle

variable {ρ α : Type*} {key : ρ → ℕ} {lo : ρ → α} {hi : ρ → Option α} {t : Table key}

/-! ## Ordered tables -/

/-- Every closed row ends at or after its start. -/
def Ordered [LE α] (lo : ρ → α) (hi : ρ → Option α) (t : Table key) : Prop :=
  ∀ r ∈ t, ∀ e, hi r = some e → lo r ≤ e

namespace Ordered

variable [LE α]

/-- No rows are in order. -/
theorem empty : Ordered lo hi (Table.empty : Table key) :=
  fun r hr => absurd hr (Table.not_mem_empty r)

/-- A row that is created open, or in order, keeps the table ordered. -/
theorem create (h : Ordered lo hi t) {row : ℕ → ρ} (hrow : ∀ n, key (row n) = n)
    (hnew : ∀ e, hi (row t.next) = some e → lo (row t.next) ≤ e) :
    Ordered lo hi (t.create row hrow) := by
  intro r hr
  rcases Table.mem_create.1 hr with hr | rfl
  · exact h r hr
  · exact hnew

/-- An update that leaves the rows it changes in order keeps the table ordered. -/
theorem updateMany (h : Ordered lo hi t) {p : ρ → Bool} {f : ρ → ρ} (hf : ∀ r, key (f r) = key r)
    (hnew : ∀ r ∈ t, p r = true → ∀ e, hi (f r) = some e → lo (f r) ≤ e) :
    Ordered lo hi (t.updateMany p f hf) := by
  intro r hr
  rcases Table.mem_updateMany.1 hr with ⟨hr, -⟩ | ⟨r', hr', hp, rfl⟩
  · exact h r hr
  · exact hnew r' hr' hp

end Ordered

/-! ## One open row -/

/-- At most one row is open. -/
def OneOpen (hi : ρ → Option α) (t : Table key) : Prop :=
  ∀ r ∈ t, ∀ s ∈ t, hi r = none → hi s = none → r = s

namespace OneOpen

/-- Of no rows none is open. -/
theorem empty : OneOpen hi (Table.empty : Table key) :=
  fun r hr => absurd hr (Table.not_mem_empty r)

/-- A row may be created when every other one is closed. -/
theorem create (hclosed : ∀ r ∈ t, hi r ≠ none) {row : ℕ → ρ} (hrow : ∀ n, key (row n) = n) :
    OneOpen hi (t.create row hrow) := by
  intro r hr s hs hr0 hs0
  rcases Table.mem_create.1 hr with hr | rfl
  · exact absurd hr0 (hclosed r hr)
  · rcases Table.mem_create.1 hs with hs | rfl
    · exact absurd hs0 (hclosed s hs)
    · rfl

/-- Closing rows opens none. -/
theorem updateMany (h : OneOpen hi t) {p : ρ → Bool} {f : ρ → ρ} (hf : ∀ r, key (f r) = key r)
    (hclose : ∀ r ∈ t, p r = true → hi (f r) ≠ none) : OneOpen hi (t.updateMany p f hf) := by
  intro r hr s hs hr0 hs0
  rcases Table.mem_updateMany.1 hr with ⟨hr, -⟩ | ⟨r', hr', hp, rfl⟩
  · rcases Table.mem_updateMany.1 hs with ⟨hs, -⟩ | ⟨s', hs', hp, rfl⟩
    · exact h r hr s hs hr0 hs0
    · exact absurd hs0 (hclose s' hs' hp)
  · exact absurd hr0 (hclose r' hr' hp)

end OneOpen

end Spans
