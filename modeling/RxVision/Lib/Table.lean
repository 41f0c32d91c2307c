import Mathlib.Data.List.Basic
import Mathlib.Data.List.Pairwise
import Mathlib.Data.List.MinMax
import Mathlib.Data.List.Sort

/-!
# Keyed tables

A table of rows with a numeric key: the rows in the order they were created, and the next key. Keys
are unique and never used again (`Table.sorted`, `Table.fresh` are fields, so that no other table
can be built). The operations are the ones of a relational store: `create`, `updateMany`,
`deleteMany`. For each there is one rule that says which rows the new table has; proofs about a
program that writes tables go through these rules and never look at the list.
-/

/-- A table with the key `key`. -/
structure Table {ρ : Type*} (key : ρ → ℕ) where
  /-- The rows, in the order they were created. -/
  rows : List ρ
  /-- The key of the next row. -/
  next : ℕ
  sorted : rows.Pairwise fun r r' => key r < key r'
  fresh : ∀ r ∈ rows, key r < next

namespace Table

variable {ρ : Type*} {key : ρ → ℕ}

/-- The table with no rows. -/
def empty : Table key := ⟨[], 0, List.Pairwise.nil, by simp⟩

instance : Membership ρ (Table key) := ⟨fun t r => r ∈ t.rows⟩

/-- The rows of a table are its members. -/
theorem mem_rows {t : Table key} {r : ρ} : r ∈ t.rows ↔ r ∈ t := Iff.rfl

/-- An empty table has none. -/
@[simp] theorem not_mem_empty (r : ρ) : r ∉ (empty : Table key) := List.not_mem_nil

/-- Two rows with one key are the same row. -/
theorem eq_of_key {t : Table key} {r r' : ρ} (hr : r ∈ t) (hr' : r' ∈ t) (h : key r = key r') :
    r = r' := by
  by_contra hne
  obtain ⟨i, hi, rfl⟩ := List.getElem_of_mem hr
  obtain ⟨j, hj, rfl⟩ := List.getElem_of_mem hr'
  have hlt := List.pairwise_iff_getElem.1 t.sorted
  rcases Nat.lt_trichotomy i j with hij | rfl | hij
  · exact absurd h (Nat.ne_of_lt (hlt i j hi hj hij))
  · exact hne rfl
  · exact absurd h (Nat.ne_of_gt (hlt j i hj hi hij))

/-- Rows selected of two tables are the same list when they are the same rows: both lists stand in
the order of the keys. -/
theorem filter_eq_of_mem_iff {t t' : Table key} {p p' : ρ → Bool}
    (h : ∀ r, r ∈ t ∧ p r = true ↔ r ∈ t' ∧ p' r = true) :
    t.rows.filter p = t'.rows.filter p' := by
  have : Std.Irrefl fun r r' => key r < key r' := ⟨fun r => Nat.lt_irrefl _⟩
  have : Std.Antisymm fun r r' => key r < key r' := ⟨fun _ _ h h' => absurd h (Nat.lt_asymm h')⟩
  refine (t.sorted.filter _).eq_of_mem_iff (t'.sorted.filter _) fun r => ?_
  rw [List.mem_filter, List.mem_filter]
  exact h r

/-! ## Creating a row -/

/-- The table with the row `row next` added. -/
def create (t : Table key) (row : ℕ → ρ) (hrow : ∀ n, key (row n) = n) : Table key where
  rows := t.rows ++ [row t.next]
  next := t.next + 1
  sorted := by
    refine List.pairwise_append.2 ⟨t.sorted, List.pairwise_singleton _ _, fun r hr r' hr' => ?_⟩
    rw [List.mem_singleton.1 hr', hrow]
    exact t.fresh r hr
  fresh := by
    intro r hr
    rcases List.mem_append.1 hr with hr | hr
    · exact Nat.lt_succ_of_lt (t.fresh r hr)
    · rw [List.mem_singleton.1 hr, hrow]
      exact Nat.lt_succ_self _

section Create

variable {t : Table key} {row : ℕ → ρ} {hrow : ∀ n, key (row n) = n} {r : ρ}

/-- A table with one more row. -/
@[simp] theorem mem_create : r ∈ t.create row hrow ↔ r ∈ t ∨ r = row t.next := by
  change r ∈ t.rows ++ [row t.next] ↔ _
  rw [List.mem_append, List.mem_singleton, mem_rows]

/-- Rows unlike the created one stay. -/
theorem mem_create_outside (hrow : ∀ n, key (row n) = n) {R : ρ → Prop} (h : R (row t.next))
    (hr : ¬ R r) :
    r ∈ t.create row hrow ↔ r ∈ t := by
  rw [mem_create]
  refine or_iff_left ?_
  rintro rfl
  exact hr h

/-- No row had the key of the created one. -/
theorem key_ne_next (hr : r ∈ t) : key r ≠ t.next :=
  Nat.ne_of_lt (t.fresh r hr)

end Create

/-! ## Updating rows -/

/-- The table with `f` applied to the rows that meet `p`; `f` keeps the key. -/
def updateMany (t : Table key) (p : ρ → Bool) (f : ρ → ρ) (hf : ∀ r, key (f r) = key r) :
    Table key where
  rows := t.rows.map fun r => if p r then f r else r
  next := t.next
  sorted := by
    refine List.pairwise_map.2 (t.sorted.imp fun {r r'} h => ?_)
    have hkey : ∀ r, key (if p r then f r else r) = key r := fun r => by
      split
      · exact hf r
      · rfl
    rwa [hkey, hkey]
  fresh := by
    intro r hr
    obtain ⟨r', hr', rfl⟩ := List.mem_map.1 hr
    have := t.fresh r' hr'
    split
    · rwa [hf]
    · exact this

section Update

variable {t : Table key} {p : ρ → Bool} {f : ρ → ρ} {hf : ∀ r, key (f r) = key r} {r : ρ}

/-- After an update a row is one that it left alone, or one that it changed. -/
theorem mem_updateMany :
    r ∈ t.updateMany p f hf ↔ (r ∈ t ∧ p r = false) ∨ ∃ r' ∈ t, p r' = true ∧ r = f r' := by
  change r ∈ t.rows.map (fun r => if p r then f r else r) ↔ _
  rw [List.mem_map]
  constructor
  · rintro ⟨r', hr', rfl⟩
    cases hp : p r' with
    | true => exact Or.inr ⟨r', hr', hp, by simp⟩
    | false => exact Or.inl (by simpa [hp, mem_rows] using hr')
  · rintro (⟨hr, hp⟩ | ⟨r', hr', hp, rfl⟩)
    · exact ⟨r, hr, by simp [hp]⟩
    · exact ⟨r', hr', by simp [hp]⟩

/-- A row of the updated table is a row of the table, changed or not. -/
theorem exists_of_mem_updateMany (h : r ∈ t.updateMany p f hf) :
    ∃ r' ∈ t, r = if p r' then f r' else r' := by
  obtain ⟨r', hr', h⟩ := List.mem_map.1 h
  exact ⟨r', hr', h.symm⟩

/-- Rows unlike the ones an update meets, and unlike what it makes of them, stay. -/
theorem mem_updateMany_outside (hf : ∀ r, key (f r) = key r) {R : ρ → Prop}
    (h : ∀ r ∈ t, p r = true → R r ∧ R (f r)) (hr : ¬ R r) : r ∈ t.updateMany p f hf ↔ r ∈ t := by
  rw [mem_updateMany]
  constructor
  · rintro (⟨hmem, -⟩ | ⟨r', hr', hp, rfl⟩)
    · exact hmem
    · exact absurd (h r' hr' hp).2 hr
  · intro hmem
    cases hp : p r with
    | true => exact absurd (h r hmem hp).1 hr
    | false => exact Or.inl ⟨hmem, rfl⟩

/-- What becomes of a row. -/
theorem mem_updateMany_of_mem (h : r ∈ t) : (if p r then f r else r) ∈ t.updateMany p f hf :=
  List.mem_map.2 ⟨r, h, rfl⟩

/-- An update that meets one row replaces it. -/
theorem mem_updateMany_one {r₀ : ρ} (h₀ : r₀ ∈ t) (hp : p r₀ = true)
    (hone : ∀ r' ∈ t, p r' = true → r' = r₀) :
    r ∈ t.updateMany p f hf ↔ (r ∈ t ∧ r ≠ r₀) ∨ r = f r₀ := by
  rw [mem_updateMany]
  constructor
  · rintro (⟨hr, hpr⟩ | ⟨r', hr', hpr, rfl⟩)
    · refine Or.inl ⟨hr, ?_⟩
      rintro rfl
      rw [hp] at hpr
      cases hpr
    · rw [hone r' hr' hpr]
      exact Or.inr rfl
  · rintro (⟨hr, hne⟩ | rfl)
    · refine Or.inl ⟨hr, ?_⟩
      cases hpr : p r with
      | true => exact absurd (hone r hr hpr) hne
      | false => rfl
    · exact Or.inr ⟨r₀, h₀, hp, rfl⟩

/-- An update that leaves every row it meets changes nothing. -/
theorem updateMany_eq_self (h : ∀ r ∈ t, p r = true → f r = r) : t.updateMany p f hf = t := by
  cases t with
  | mk rows next sorted fresh =>
    have hrows : (rows.map fun r => if p r then f r else r) = rows := by
      conv_rhs => rw [← List.map_id rows]
      refine List.map_congr_left fun r hr => ?_
      by_cases hp : p r = true
      · simpa [hp] using h r hr hp
      · simp [hp]
    simp only [updateMany, hrows]

/-- An update only depends on which rows of the table it meets. -/
theorem updateMany_congr {q : ρ → Bool} (h : ∀ r ∈ t, p r = q r) :
    t.updateMany p f hf = t.updateMany q f hf := by
  have hrows : (t.rows.map fun r => if p r then f r else r) =
      t.rows.map fun r => if q r then f r else r :=
    List.map_congr_left fun r hr => by rw [h r hr]
  simp only [updateMany, hrows]

/-- Two updates of the same rows are one. -/
theorem updateMany_updateMany {g : ρ → ρ} {hg : ∀ r, key (g r) = key r}
    (hp : ∀ r, p (f r) = p r) :
    (t.updateMany p f hf).updateMany p g hg =
      t.updateMany p (fun r => g (f r)) fun r => (hg _).trans (hf r) := by
  have hrows : (t.rows.map fun r => if p r then f r else r).map (fun r => if p r then g r else r) =
      t.rows.map fun r => if p r then g (f r) else r := by
    rw [List.map_map]
    refine List.map_congr_left fun r _ => ?_
    by_cases h : p r = true
    · simp [h, hp]
    · simp [h]
  simp only [updateMany, hrows]

end Update

/-! ## Deleting rows -/

/-- The table without the rows that meet `p`. -/
def deleteMany (t : Table key) (p : ρ → Bool) : Table key where
  rows := t.rows.filter fun r => !p r
  next := t.next
  sorted := t.sorted.filter _
  fresh := fun r hr => t.fresh r (List.mem_filter.1 hr).1

/-- After a deletion the rows are those that it left. -/
@[simp] theorem mem_deleteMany {t : Table key} {p : ρ → Bool} {r : ρ} :
    r ∈ t.deleteMany p ↔ r ∈ t ∧ p r = false := by
  change r ∈ t.rows.filter (fun r => !p r) ↔ _
  rw [List.mem_filter, Bool.not_eq_true', mem_rows]

/-- Rows unlike the deleted ones stay. -/
theorem mem_deleteMany_outside {t : Table key} {p R : ρ → Prop} [DecidablePred p] {r : ρ}
    (h : ∀ r ∈ t, p r → R r) (hr : ¬ R r) : r ∈ t.deleteMany (fun r => p r) ↔ r ∈ t := by
  rw [mem_deleteMany]
  refine and_iff_left_of_imp fun hmem => decide_eq_false fun hp => hr (h r hmem hp)

/-! ## Finding a row -/

/-- The first row that meets `p`. -/
def find? (t : Table key) (p : ρ → Bool) : Option ρ := t.rows.find? p

section Find

variable {t : Table key} {p : ρ → Bool} {r : ρ}

/-- What is found is a row. -/
theorem mem_of_find? (h : t.find? p = some r) : r ∈ t := List.mem_of_find?_eq_some h

/-- What is found meets the condition. -/
theorem find?_spec (h : t.find? p = some r) : p r = true := List.find?_some h

/-- Nothing is found when no row meets it. -/
theorem find?_eq_none : t.find? p = none ↔ ∀ r ∈ t, p r = false := by
  rw [find?, List.find?_eq_none]
  simp only [Bool.not_eq_true, mem_rows]

/-- A search that only a row with one key can meet finds the row that meets it. -/
theorem find?_eq_some_of_key (hr : r ∈ t) (hp : p r = true)
    (hkey : ∀ r', p r' = true → key r' = key r) : t.find? p = some r := by
  cases h : t.find? p with
  | none =>
    rw [find?_eq_none.1 h r hr] at hp
    cases hp
  | some r' => rw [eq_of_key (mem_of_find? h) hr (hkey r' (find?_spec h))]

/-- The row with a key is found by it. -/
theorem find?_key (hr : r ∈ t) : (t.find? fun r' => key r' = key r) = some r :=
  find?_eq_some_of_key hr (decide_eq_true rfl) fun _ h => of_decide_eq_true h

/-- A search that an update does not disturb finds the same row, updated. -/
theorem find?_updateMany {u : ρ → Bool} {f : ρ → ρ} {hf : ∀ r, key (f r) = key r}
    (hp : ∀ r, p (f r) = p r) :
    (t.updateMany u f hf).find? p = (t.find? p).map fun r => if u r then f r else r := by
  have hcomp : (p ∘ fun r => if u r then f r else r) = p := by
    funext r
    simp only [Function.comp]
    split
    · exact hp r
    · rfl
  rw [find?, find?, updateMany, List.find?_map, hcomp]

end Find

/-- A row with the largest `f` among those that meet `p`. -/
def findLast? {α : Type*} [LinearOrder α] (t : Table key) (p : ρ → Bool) (f : ρ → α) : Option ρ :=
  (t.rows.filter p).argmax f

section FindLast

variable {α : Type*} [LinearOrder α] {t : Table key} {p : ρ → Bool} {f : ρ → α} {r : ρ}

/-- The last that is found is a row that meets the condition. -/
theorem mem_of_findLast? (h : t.findLast? p f = some r) : r ∈ t ∧ p r = true :=
  List.mem_filter.1 (List.argmax_mem h)

/-- No row that meets the condition has a larger value than the one found. -/
theorem le_of_findLast? (h : t.findLast? p f = some r) {r' : ρ} (hr : r' ∈ t) (hp : p r' = true) :
    f r' ≤ f r :=
  List.le_of_mem_argmax (List.mem_filter.2 ⟨hr, hp⟩) h

/-- No last one is found when no row meets it. -/
theorem findLast?_eq_none : t.findLast? p f = none ↔ ∀ r ∈ t, p r = false := by
  rw [findLast?, List.argmax_eq_none, List.filter_eq_nil_iff]
  simp only [Bool.not_eq_true, mem_rows]

/-- `r` is a row with the largest `f` among those that meet `p`: what a read ordered by `f` may
return, whichever of several such rows it takes. -/
def IsLast (t : Table key) (p : ρ → Bool) (f : ρ → α) (r : ρ) : Prop :=
  (r ∈ t.rows ∧ p r = true) ∧ ∀ r' ∈ t.rows, p r' = true → f r' ≤ f r

instance [DecidableEq ρ] : Decidable (t.IsLast p f r) :=
  inferInstanceAs (Decidable ((r ∈ t.rows ∧ p r = true) ∧ ∀ r' ∈ t.rows, p r' = true → f r' ≤ f r))

instance [DecidableEq ρ] : Decidable (r ∈ t) := inferInstanceAs (Decidable (r ∈ t.rows))

end FindLast

end Table
