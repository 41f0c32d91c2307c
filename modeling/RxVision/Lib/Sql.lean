import Mathlib.Logic.Basic
import Mathlib.Data.List.Basic

/-!
# Conditions of a relational query

A condition of a relational store has three truth values: a comparison with NULL is neither true nor
false (`Truth.unknown`), and a row is selected only where the condition is true (`Truth.Holds`). A
nullable column is an `Option`. For each operator there is one rule that says when the condition
holds; a proof about a query rewrites with these rules and never evaluates the three-valued tables.
`NOT` has no such rule of its own (a negated condition holds where the condition is false, not where
it fails to hold), so negation comes only as `ne` and `notExists`.
-/

/-- A truth value of SQL. -/
inductive Truth
  | yes | no | unknown
  deriving DecidableEq, Repr

namespace Truth

/-- The row is selected. -/
def Holds (t : Truth) : Prop := t = yes

instance (t : Truth) : Decidable t.Holds := inferInstanceAs (Decidable (t = yes))

/-- A condition on columns that are never null. -/
def ofBool : Bool → Truth
  | true => yes
  | false => no

/-- `AND`. -/
def and : Truth → Truth → Truth
  | no, _ => no
  | _, no => no
  | yes, yes => yes
  | _, _ => unknown

/-- `OR`. -/
def or : Truth → Truth → Truth
  | yes, _ => yes
  | _, yes => yes
  | no, no => no
  | _, _ => unknown

variable {α ρ : Type*} [DecidableEq α]

/-- `a = x`. -/
def eq : Option α → α → Truth
  | none, _ => unknown
  | some a, x => ofBool (a = x)

/-- `a <> x`. -/
def ne : Option α → α → Truth
  | none, _ => unknown
  | some a, x => ofBool (a ≠ x)

/-- `a IN (xs)`, also written `a = ANY(xs)`. -/
def isIn : Option α → List α → Truth
  | none, [] => no
  | none, _ => unknown
  | some a, xs => ofBool (a ∈ xs)

/-- `a IS NULL`. -/
def isNull (a : Option α) : Truth := ofBool a.isNone

/-- `a IS NOT NULL`. -/
def isNotNull (a : Option α) : Truth := ofBool a.isSome

/-- `EXISTS (SELECT 1 FROM rows WHERE c)`. -/
def exist (rows : List ρ) (c : ρ → Truth) : Truth := ofBool (rows.any fun r => decide (c r).Holds)

/-- `NOT EXISTS (SELECT 1 FROM rows WHERE c)`; an `EXISTS` is never unknown. -/
def notExists (rows : List ρ) (c : ρ → Truth) : Truth :=
  ofBool (!rows.any fun r => decide (c r).Holds)

/-! ## When a condition holds -/

/-- The truth holds. -/
@[simp] theorem holds_yes : yes.Holds := rfl

/-- The falsehood does not. -/
@[simp] theorem not_holds_no : ¬no.Holds := nofun

/-- A decided condition holds when it is true. -/
@[simp] theorem holds_ofBool {b : Bool} : (ofBool b).Holds ↔ b = true := by
  cases b
  · exact ⟨fun h => (nomatch h), fun h => (nomatch h)⟩
  · exact ⟨fun _ => rfl, fun _ => rfl⟩

/-- Both hold. -/
@[simp] theorem holds_and {s t : Truth} : (s.and t).Holds ↔ s.Holds ∧ t.Holds := by
  cases s <;> cases t <;> decide

/-- One of them holds. -/
@[simp] theorem holds_or {s t : Truth} : (s.or t).Holds ↔ s.Holds ∨ t.Holds := by
  cases s <;> cases t <;> decide

/-- A comparison with NULL does not hold. -/
@[simp] theorem holds_eq {a : Option α} {x : α} : (eq a x).Holds ↔ a = some x := by
  cases a with
  | none => exact ⟨fun h => (nomatch h), fun h => (nomatch h)⟩
  | some a => simp [eq]

/-- Nor does its negation. -/
@[simp] theorem holds_ne {a : Option α} {x : α} : (ne a x).Holds ↔ ∃ y, a = some y ∧ y ≠ x := by
  cases a with
  | none => exact ⟨fun h => (nomatch h), fun ⟨_, h, _⟩ => (nomatch h)⟩
  | some a => simp [ne]

/-- NULL is in no list. -/
@[simp] theorem holds_isIn {a : Option α} {xs : List α} :
    (isIn a xs).Holds ↔ ∃ x, a = some x ∧ x ∈ xs := by
  cases a with
  | none => cases xs <;> exact ⟨fun h => (nomatch h), fun ⟨_, h, _⟩ => (nomatch h)⟩
  | some a => simp [isIn]

omit [DecidableEq α] in
/-- `IS NULL` is decided. -/
@[simp] theorem holds_isNull {a : Option α} : (isNull a).Holds ↔ a = none := by simp [isNull]

omit [DecidableEq α] in
/-- So is `IS NOT NULL`. -/
@[simp] theorem holds_isNotNull {a : Option α} : (isNotNull a).Holds ↔ ∃ x, a = some x := by
  simp [isNotNull, Option.isSome_iff_exists]

/-- `EXISTS` holds when a row meets the condition. -/
@[simp] theorem holds_exist {rows : List ρ} {c : ρ → Truth} :
    (exist rows c).Holds ↔ ∃ r ∈ rows, (c r).Holds := by
  simp [exist]

/-- `NOT EXISTS` holds when no row meets it; one for which it is unknown does not. -/
@[simp] theorem holds_notExists {rows : List ρ} {c : ρ → Truth} :
    (notExists rows c).Holds ↔ ∀ r ∈ rows, ¬(c r).Holds := by
  simp [notExists]

end Truth
