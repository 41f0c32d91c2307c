import RxVision.Lib.ReadCommitted
import RxVision.Lib.Table
import RxVision.Lib.Text

/-!
# Shift names and the default shift (`prisma-shift.repository.ts`)

`createUnique` and `updateUnique` take an advisory lock for the shift's scope, an organisation or
the shared one, look for another live shift of the name there, and write. `softDelete` and
`setDefault` take no lock. The transactions run as `ReadCommitted` has it, in the eyes of one scope:
the locks of the other scopes are left out, which only adds interleavings.

No two live shifts of a scope ever have one name (`names_unique`). An organisation with shifts keeps
exactly one default as long as no default is deleted and a `setDefault` has seen every default when
it commits (`one_default`); two of them at once have not (`two_defaults`).
-/

namespace RxVision.ShiftNames

open ReadCommitted

variable {δ : Type}

/-! ## The rows and the statements -/

/-- A row of `shifts`; `definition` is its times and rules with its breaks. -/
structure Shift (δ : Type) where
  id : ℕ
  companyId : Option ℕ
  name : Units
  definition : δ
  isDefault : Bool := false
  deletedAt : Option ℤ := none
  deriving DecidableEq, Repr

/-- The stored shifts. -/
abbrev Shifts (δ : Type) := Table (Shift.id (δ := δ))

/-- `ShiftWriteData`. -/
structure ShiftWriteData (δ : Type) where
  companyId : Option ℕ
  name : Units
  definition : δ
  deriving DecidableEq, Repr

/-- `name.trim()`. -/
def trimmed (name : Units) : Units := trimBy isSpaceUnit name

/-- A shift of a scope that is not deleted. -/
def Shift.isIn (r : Shift δ) (scope : Option ℕ) : Bool := r.deletedAt.isNone && r.companyId = scope

/-- `nameClash`; `clashes` is how the database compares a stored name with one asked for. -/
def nameClash (clashes : Units → Units → Bool) (shifts : Shifts δ) (scope : Option ℕ) (name : Units)
    (exceptId : Option ℕ) : Bool :=
  shifts.rows.any fun r => r.isIn scope && clashes r.name (trimmed name) &&
    !decide (exceptId = some r.id)

/-- Whether an organisation has a default shift. -/
def hasDefault (shifts : Shifts δ) (scope : Option ℕ) : Bool :=
  shifts.rows.any fun r => r.isIn scope && r.isDefault

/-- The row that `createUnique` adds. -/
def ShiftWriteData.row (data : ShiftWriteData δ) (isDefault : Bool) (id : ℕ) : Shift δ where
  id := id
  companyId := data.companyId
  name := trimmed data.name
  definition := data.definition
  isDefault := isDefault

/-- A new row has its id. -/
theorem ShiftWriteData.row_id (data : ShiftWriteData δ) (isDefault : Bool) :
    ∀ n, (data.row isDefault n).id = n := fun _ => rfl

/-- `columns`: what `updateUnique` leaves of a row. -/
def ShiftWriteData.columns (data : ShiftWriteData δ) (r : Shift δ) : Shift δ :=
  { r with companyId := data.companyId, name := trimmed data.name, definition := data.definition }

/-- An edit keeps the row's id. -/
theorem ShiftWriteData.columns_id (data : ShiftWriteData δ) :
    ∀ r : Shift δ, (data.columns r).id = r.id :=
  fun _ => rfl

/-- A deleted row, no default any more. -/
def Shift.deleted (now : ℤ) (r : Shift δ) :
    Shift δ := { r with deletedAt := some now, isDefault := false }

/-- A deletion keeps the row's id. -/
theorem Shift.deleted_id (now : ℤ) : ∀ r : Shift δ, (r.deleted now).id = r.id := fun _ => rfl

/-- The row with `isDefault` set. -/
def Shift.withDefault (isDefault : Bool) (r : Shift δ) : Shift δ := { r with isDefault }

/-- Making a shift the default keeps the row's id. -/
theorem Shift.withDefault_id (isDefault : Bool) :
    ∀ r : Shift δ, (r.withDefault isDefault).id = r.id :=
  fun _ => rfl

/-- The rows that `setDefault` takes the default from: of the scope, deleted ones too. -/
def otherDefaults (id : ℕ) (scope : Option ℕ) (r : Shift δ) : Bool :=
  r.companyId = scope && r.isDefault && !decide (r.id = id)

/-! ## The transactions -/

/-- A write of the shifts. -/
inductive ShiftOp (δ : Type)
  | createUnique (data : ShiftWriteData δ)
  | updateUnique (id : ℕ) (data : ShiftWriteData δ)
  | softDelete (id : ℕ) (now : ℤ)
  | setDefault (id : ℕ)
  deriving DecidableEq, Repr

/-- What `createUnique` writes: `named` is what the name check reads, `checked` what
the look for a default. -/
def created (clashes : Units → Units → Bool) (data : ShiftWriteData δ)
    (named checked c : Shifts δ) :
    Shifts δ :=
  if nameClash clashes named data.companyId data.name none then c
  else
    let first := data.companyId.isSome && !hasDefault checked data.companyId
    c.create (data.row first) (data.row_id first)

/-- What `updateUnique` writes. -/
def updated (clashes : Units → Units → Bool) (id : ℕ) (data : ShiftWriteData δ)
    (named c : Shifts δ) :
    Shifts δ :=
  if nameClash clashes named data.companyId data.name (some id) then c
  else c.updateMany (fun r => r.id = id) data.columns data.columns_id

/-- What `setDefault` writes. The update of the other defaults finds its rows as it reads, and
leaves those of them alone that do not meet its condition any more. -/
def defaulted (id : ℕ) (found seen c : Shifts δ) : Shifts δ :=
  match found.find? fun r => r.id = id with
  | none => c
  | some shift =>
    (c.updateMany (fun r => otherDefaults id shift.companyId r &&
        seen.rows.any fun r' => otherDefaults id shift.companyId r' && decide (r'.id = r.id))
      (Shift.withDefault false) (Shift.withDefault_id false)).updateMany (fun r => r.id = id)
        (Shift.withDefault true) (Shift.withDefault_id true)

/-- The transactions in the eyes of one scope: those that take its lock, and the others. -/
def ShiftOp.tx (clashes : Units → Units → Bool) (scope : Option ℕ) :
    ShiftOp δ → Transaction (Shifts δ)
  | .createUnique data => ⟨data.companyId = scope, 2, fun r c => created clashes data (r 0) (r 1) c⟩
  | .updateUnique id data => ⟨data.companyId = scope, 1, fun r c => updated clashes id data (r 0) c⟩
  | .softDelete id now =>
    ⟨false, 0, fun _ c => c.updateMany (fun r => r.id = id) (Shift.deleted now)
      (Shift.deleted_id now)⟩
  | .setDefault id => ⟨false, 2, fun r c => defaulted id (r 0) (r 1) c⟩

/-! ## Names -/

variable {clashes : Units → Units → Bool} {lower : Units → Units} {scope : Option ℕ}
  {c c' : Shifts δ}
  {r r' : Shift δ}

/-- Whatever the scope has later on it has had under the same name. -/
def Had (scope : Option ℕ) (c c' : Shifts δ) : Prop :=
  ∀ r ∈ c', r.isIn scope = true → ∃ r₀ ∈ c, r₀.isIn scope = true ∧ r₀.id = r.id ∧ r₀.name = r.name

/-- Every name is there. -/
theorem Had.refl (c : Shifts δ) : Had scope c c := fun r hr hin => ⟨r, hr, hin, rfl, rfl⟩

/-- A name that was there before both is there. -/
theorem Had.trans {c₀ : Shifts δ} (h : Had scope c₀ c) (h' : Had scope c c') : Had scope c₀ c' := by
  intro r hr hin
  obtain ⟨r₁, hr₁, hin₁, hid₁, hname₁⟩ := h' r hr hin
  obtain ⟨r₀, hr₀, hin₀, hid₀, hname₀⟩ := h r₁ hr₁ hin₁
  exact ⟨r₀, hr₀, hin₀, hid₀.trans hid₁, hname₀.trans hname₁⟩

/-- Names compared without regard to the letters' case, as far as ASCII goes. -/
def asciiClash (a b : Units) : Bool := a.map upper = b.map upper

/-- A live shift of the scope. -/
def Live (scope : Option ℕ) (c : Shifts δ) (i : ℕ) : Prop := ∃ r ∈ c, r.id = i ∧ r.isIn scope = true

/-- A default of the scope. -/
def IsDefault (scope : Option ℕ) (c : Shifts δ) (i : ℕ) : Prop :=
  ∃ r ∈ c, r.id = i ∧ r.isIn scope = true ∧ r.isDefault = true

/-- A scope with shifts has one default. -/
def OneDefault (scope : Option ℕ) (c : Shifts δ) : Prop :=
  (∃ i, Live scope c i) → ∃! i, IsDefault scope c i

/-- What an interleaving has to respect: an edit leaves a shift where it is, as `update` does; what
is deleted is no default, as `remove` has checked; and the shift that becomes the default is a live
one, as `makeDefault` has checked, and `setDefault` has seen every other default of its scope. -/
def Careful : ShiftOp δ → (ℕ → Shifts δ) → Shifts δ → Prop
  | .createUnique _, _, _ => True
  | .updateUnique id data, _, c => ∀ r ∈ c, r.id = id → r.companyId = data.companyId
  | .softDelete id _, _, c => ∀ r ∈ c, r.id = id → r.isDefault = false
  | .setDefault id, reads, c => ∀ shift, ((reads 0).find? fun r => r.id = id) = some shift →
    Live shift.companyId c id ∧ ∀ r ∈ c, otherDefaults id shift.companyId r = true →
      ∃ r' ∈ reads 1, otherDefaults id shift.companyId r' = true ∧ r'.id = r.id

/-- There is a default when a live row says so. -/
theorem hasDefault_iff : hasDefault c scope = true ↔ ∃ i, IsDefault scope c i := by
  simp only [hasDefault, List.any_eq_true, Bool.and_eq_true, Table.mem_rows]
  constructor
  · rintro ⟨r, hr, hin, hdef⟩
    exact ⟨r.id, r, hr, rfl, hin, hdef⟩
  · rintro ⟨i, r, hr, -, hin, hdef⟩
    exact ⟨r, hr, hin, hdef⟩

/-- A default is live. -/
theorem IsDefault.live {i : ℕ} (h : IsDefault scope c i) : Live scope c i := by
  obtain ⟨r, hr, hid, hin, -⟩ := h
  exact ⟨r, hr, hid, hin⟩

/-- A scope that gets no shift and keeps its defaults keeps one of them. -/
theorem OneDefault.of_same (h : OneDefault scope c) (hlive : ∀ i, Live scope c' i → Live scope c i)
    (hdef : ∀ i, IsDefault scope c' i ↔ IsDefault scope c i) :
    OneDefault scope c' ∧ hasDefault c' scope = hasDefault c scope := by
  refine ⟨?_, ?_⟩
  · rintro ⟨i, hi⟩
    simp only [hdef]
    exact h ⟨i, hlive i hi⟩
  · rw [Bool.eq_iff_iff, hasDefault_iff, hasDefault_iff]
    simp only [hdef]

/-- An update that brings nothing into a scope and changes no default of it leaves the
scope's defaults. -/
theorem same_of_updateMany {p : Shift δ → Bool} {f : Shift δ → Shift δ} (hf : ∀ r, (f r).id = r.id)
    {c : Shifts δ} {scope : Option ℕ}
    (hin : ∀ r ∈ c, p r = true → (f r).isIn scope = true → r.isIn scope = true)
    (hdef : ∀ r ∈ c, p r = true → ((f r).isIn scope = true ∧ (f r).isDefault = true ↔
      r.isIn scope = true ∧ r.isDefault = true)) :
    (∀ i, Live scope (c.updateMany p f hf) i → Live scope c i) ∧
      ∀ i, IsDefault scope (c.updateMany p f hf) i ↔ IsDefault scope c i := by
  refine ⟨?_, fun i => ⟨?_, ?_⟩⟩
  · rintro i ⟨r, hr, hid, hisIn⟩
    rcases Table.mem_updateMany.1 hr with ⟨hr, -⟩ | ⟨r₀, hr₀, hp, rfl⟩
    · exact ⟨r, hr, hid, hisIn⟩
    · exact ⟨r₀, hr₀, (hf r₀).symm.trans hid, hin r₀ hr₀ hp hisIn⟩
  · rintro ⟨r, hr, hid, hisDef⟩
    rcases Table.mem_updateMany.1 hr with ⟨hr, -⟩ | ⟨r₀, hr₀, hp, rfl⟩
    · exact ⟨r, hr, hid, hisDef⟩
    · exact ⟨r₀, hr₀, (hf r₀).symm.trans hid, (hdef r₀ hr₀ hp).1 hisDef⟩
  · rintro ⟨r, hr, hid, hisDef⟩
    cases hp : p r with
    | false => exact ⟨r, Table.mem_updateMany.2 (.inl ⟨hr, hp⟩), hid, hisDef⟩
    | true =>
      exact ⟨f r, Table.mem_updateMany.2 (.inr ⟨r, hr, hp, rfl⟩), (hf r).trans hid,
        (hdef r hr hp).2 hisDef⟩

/-- After `setDefault` of a live shift whose update has seen every other default, it is
the only one. -/
theorem isDefault_defaulted {id : ℕ} {found seen : Shifts δ} {shift : Shift δ}
    (hfound : (found.find? fun r => r.id = id) = some shift) (hlive : Live shift.companyId c id)
    (hseen : ∀ r ∈ c, otherDefaults id shift.companyId r = true →
      ∃ r' ∈ seen, otherDefaults id shift.companyId r' = true ∧ r'.id = r.id) (i : ℕ) :
    IsDefault shift.companyId (defaulted id found seen c) i ↔ i = id := by
  simp only [defaulted, hfound]
  constructor
  · rintro ⟨r, hr, hid, hin, hdef⟩
    rcases Table.mem_updateMany.1 hr with ⟨hr, hne⟩ | ⟨r₀, -, hp, rfl⟩
    · rcases Table.mem_updateMany.1 hr with ⟨hr, hkept⟩ | ⟨r₀, -, -, rfl⟩
      · -- a default of the scope that the first update has left alone is the shift itself
        have hother : otherDefaults id shift.companyId r = true := by
          simp only [Shift.isIn, Bool.and_eq_true, decide_eq_true_eq] at hin
          simpa [otherDefaults, hin.2, hdef] using of_decide_eq_false hne
        obtain ⟨r', hr', hother', hid'⟩ := hseen r hr hother
        have hany : (seen.rows.any fun r' => otherDefaults id shift.companyId r' &&
          decide (r'.id = r.id)) =
            true := List.any_eq_true.2 ⟨r', hr', by simp [hother', hid']⟩
        rw [hother, hany] at hkept
        cases hkept
      · cases hdef
    · exact hid.symm.trans (of_decide_eq_true hp)
  · rintro rfl
    obtain ⟨r, hr, hid, hin⟩ := hlive
    have hfirst : ∃ r₁ ∈ c.updateMany (fun r => otherDefaults i shift.companyId r &&
        seen.rows.any fun r' => otherDefaults i shift.companyId r' && decide (r'.id = r.id))
        (Shift.withDefault false) (Shift.withDefault_id false), r₁.id = i ∧
          r₁.isIn shift.companyId = true := by
      refine ⟨_, Table.mem_updateMany_of_mem hr, ?_⟩
      split
      · exact ⟨hid, hin⟩
      · exact ⟨hid, hin⟩
    obtain ⟨r₁, hr₁, hid₁, hin₁⟩ := hfirst
    refine ⟨r₁.withDefault true, Table.mem_updateMany.2 (.inr ⟨r₁, hr₁, decide_eq_true hid₁, rfl⟩),
      hid₁, hin₁, rfl⟩

/-- A scope's default does not depend on the rows' being default in another scope. -/
theorem same_withDefault (p : Shift δ → Bool) (b : Bool) {c : Shifts δ} {scope : Option ℕ}
    (hp : ∀ r ∈ c, p r = true → r.isIn scope = false) :
    (∀ i, Live scope (c.updateMany p (Shift.withDefault b) (Shift.withDefault_id b)) i →
      Live scope c i) ∧
      ∀ i, IsDefault scope (c.updateMany p (Shift.withDefault b) (Shift.withDefault_id b)) i ↔
        IsDefault scope c i := by
  refine same_of_updateMany (Shift.withDefault_id b) (fun _ _ _ hin => hin) fun r hr hpr => ?_
  change r.isIn scope = true ∧ b = true ↔ _
  simp [hp r hr hpr]

/-- `setDefault` of a live shift of another scope leaves this one's default as it is. -/
theorem OneDefault.of_defaulted_elsewhere {id : ℕ} {found seen : Shifts δ} {shift : Shift δ}
    (h : OneDefault scope c) (hfound : (found.find? fun r => r.id = id) = some shift)
    (hlive : Live shift.companyId c id) (hscope : shift.companyId ≠ scope) :
    OneDefault scope (defaulted id found seen c) ∧
      hasDefault (defaulted id found seen c) scope = hasDefault c scope := by
  simp only [defaulted, hfound]
  have houtside : ∀ r : Shift δ, r.companyId = shift.companyId → r.isIn scope = false := by
    intro r hcompany
    simp [Shift.isIn, hcompany, hscope]
  have hothers : ∀ r ∈ c, (otherDefaults id shift.companyId r && seen.rows.any fun r' =>
      otherDefaults id shift.companyId r' && decide (r'.id = r.id)) = true →
          r.isIn scope = false := by
    intro r _ hp
    simp only [otherDefaults, Bool.and_eq_true, decide_eq_true_eq] at hp
    exact houtside r hp.1.1.1
  obtain ⟨hlive₁, hdef₁⟩ := same_withDefault _ false hothers
  have hself : ∀ r ∈ c.updateMany (fun r => otherDefaults id shift.companyId r &&
    seen.rows.any fun r' =>
      otherDefaults id shift.companyId r' && decide (r'.id = r.id))
      (Shift.withDefault false) (Shift.withDefault_id false),
      decide (r.id = id) = true → r.isIn scope = false := by
    intro r hr hid
    obtain ⟨r₀, hr₀, hsplit⟩ := Table.exists_of_mem_updateMany hr
    obtain ⟨r₁, hr₁, hid₁, hin₁⟩ := hlive
    have hfields : r.id = r₀.id ∧ r.companyId = r₀.companyId := by
      rw [hsplit]
      split
      · exact ⟨rfl, rfl⟩
      · exact ⟨rfl, rfl⟩
    obtain rfl : r₀ = r₁ :=
      Table.eq_of_key hr₀ hr₁ (by rw [← hfields.1, of_decide_eq_true hid, hid₁])
    simp only [Shift.isIn, Bool.and_eq_true, decide_eq_true_eq] at hin₁
    exact houtside r (hfields.2.trans hin₁.2)
  obtain ⟨hlive₂, hdef₂⟩ := same_withDefault _ true hself
  exact h.of_same (fun i hi => hlive₁ i (hlive₂ i hi)) fun i => (hdef₂ i).trans (hdef₁ i)

/-- A careful commit other than a creation keeps one default, and whether there is one at all. -/
theorem OneDefault.of_careful {op : ShiftOp δ} {reads : ℕ → Shifts δ} (h : OneDefault scope c)
    (hop : ∀ data, op = .createUnique data → data.companyId ≠ scope) (hok : Careful op reads c) :
    OneDefault scope ((op.tx clashes scope).effect reads c) ∧
      hasDefault ((op.tx clashes scope).effect reads c) scope = hasDefault c scope := by
  have hstay : OneDefault scope c ∧ hasDefault c scope = hasDefault c scope := ⟨h, rfl⟩
  cases op with
  | createUnique data =>
    have hother := hop data rfl
    change OneDefault scope (created clashes data (reads 0) (reads 1) c) ∧
      hasDefault (created clashes data (reads 0) (reads 1) c) scope = hasDefault c scope
    unfold created
    split
    · exact hstay
    · refine h.of_same ?_ fun i => ⟨?_, ?_⟩
      · rintro i ⟨r, hr, hid, hin⟩
        rcases Table.mem_create.1 hr with hr | rfl
        · exact ⟨r, hr, hid, hin⟩
        · simp [Shift.isIn, ShiftWriteData.row, hother] at hin
      · rintro ⟨r, hr, hid, hin, hdef⟩
        rcases Table.mem_create.1 hr with hr | rfl
        · exact ⟨r, hr, hid, hin, hdef⟩
        · simp [Shift.isIn, ShiftWriteData.row, hother] at hin
      · rintro ⟨r, hr, hrest⟩
        exact ⟨r, Table.mem_create.2 (.inl hr), hrest⟩
  | updateUnique id data =>
    change OneDefault scope (updated clashes id data (reads 0) c) ∧
      hasDefault (updated clashes id data (reads 0) c) scope = hasDefault c scope
    unfold updated
    split
    · exact hstay
    · have hsame : ∀ r ∈ c, decide (r.id = id) = true → (data.columns r).isIn scope =
          r.isIn scope := by
        intro r hr hid
        have hcompany : r.companyId = data.companyId := hok r hr (of_decide_eq_true hid)
        change (r.deletedAt.isNone && decide (data.companyId = scope)) = r.isIn scope
        rw [← hcompany]
        rfl
      obtain ⟨hlive, hdef⟩ := same_of_updateMany data.columns_id
        (fun r hr hid hin => hsame r hr hid ▸ hin) (fun r hr hid => by
          rw [hsame r hr hid]; exact Iff.rfl)
      exact h.of_same hlive hdef
  | softDelete id now =>
    have hin : ∀ r ∈ c, decide (r.id = id) = true → (r.deleted now).isIn scope = true →
        r.isIn scope = true := fun r _ _ hin => by simp [Shift.isIn, Shift.deleted] at hin
    have hdef : ∀ r ∈ c, decide (r.id = id) = true → ((r.deleted now).isIn scope = true ∧
        (r.deleted now).isDefault = true ↔ r.isIn scope = true ∧ r.isDefault = true) :=
          fun r hr hid => by
      simp [Shift.isIn, Shift.deleted, hok r hr (of_decide_eq_true hid)]
    obtain ⟨hlive, hsame⟩ := same_of_updateMany (Shift.deleted_id now) hin hdef
    exact h.of_same hlive hsame
  | setDefault id =>
    change OneDefault scope (defaulted id (reads 0) (reads 1) c) ∧
      hasDefault (defaulted id (reads 0) (reads 1) c) scope = hasDefault c scope
    cases hfound : (reads 0).find? fun r => r.id = id with
    | none => simpa [defaulted, hfound] using hstay
    | some shift =>
      obtain ⟨hlive, hseen⟩ := hok shift hfound
      have honly := isDefault_defaulted hfound hlive hseen
      by_cases hscope : shift.companyId = scope
      · subst hscope
        refine ⟨fun _ => ⟨id, (honly id).2 rfl, fun i hi => (honly i).1 hi⟩, ?_⟩
        have hbefore := (h ⟨id, hlive⟩).exists
        rw [hasDefault_iff.2 hbefore, hasDefault_iff.2 ⟨id, (honly id).2 rfl⟩]
      · exact h.of_defaulted_elsewhere hfound hlive hscope

/-- A creation under the lock gives the scope its default when what it read has none. -/
theorem OneDefault.of_created {data : ShiftWriteData δ} {named checked : Shifts δ} {org : ℕ}
    (h : OneDefault (some org) c) (horg : data.companyId = some org)
    (hchecked : hasDefault checked (some org) = hasDefault c (some org)) :
    OneDefault (some org) (created clashes data named checked c) := by
  unfold created
  split
  next => exact h
  next =>
    have hfirst : (data.companyId.isSome && !hasDefault checked data.companyId) =
        !hasDefault c (some org) := by
      rw [horg, hchecked]
      rfl
    dsimp only
    generalize (data.companyId.isSome && !hasDefault checked data.companyId) = first at hfirst ⊢
    cases first with
    | false =>
      -- there is a default: the new shift is none
      have hdef : hasDefault c (some org) = true := by simpa using hfirst.symm
      have hsame : ∀ i, IsDefault (some org) (c.create (data.row false) (data.row_id false)) i ↔
          IsDefault (some org) c i := by
        refine fun i => ⟨?_, ?_⟩
        · rintro ⟨r, hr, hid, hin, hdefault⟩
          rcases Table.mem_create.1 hr with hr | rfl
          · exact ⟨r, hr, hid, hin, hdefault⟩
          · cases hdefault
        · rintro ⟨r, hr, hrest⟩
          exact ⟨r, Table.mem_create.2 (.inl hr), hrest⟩
      obtain ⟨i, hi⟩ := hasDefault_iff.1 hdef
      intro _
      simp only [hsame]
      exact h ⟨i, hi.live⟩
    | true =>
      -- there is none, so there is no shift but the new one
      have hdef : hasDefault c (some org) = false := by simpa using hfirst.symm
      have hnone : ∀ i, ¬Live (some org) c i := by
        intro i hi
        have hsome := hasDefault_iff.2 (h ⟨i, hi⟩).exists
        rw [hdef] at hsome
        cases hsome
      have hnew : (data.row true c.next).isIn (some org) = true := by
        simp [ShiftWriteData.row, Shift.isIn, horg]
      refine fun _ => ⟨c.next, ⟨_, Table.mem_create.2 (.inr rfl), rfl, hnew, rfl⟩, ?_⟩
      rintro i ⟨r, hr, hid, hin, -⟩
      rcases Table.mem_create.1 hr with hr | rfl
      · exact absurd ⟨r, hr, hid, hin⟩ (hnone i)
      · exact hid.symm

/-- In every interleaving whose commits are careful, an organisation with shifts has exactly one
default. A creation looks for a default under the lock of the names; the other commits are careful
when an edit leaves a shift in its scope, what is deleted is no default, and `setDefault` has seen
every other default. -/
theorem one_default {org : ℕ} {as : List (Action (ShiftOp δ))} {t : State (Shifts δ) (ShiftOp δ)}
    (h : OneDefault (some org) c)
    (hok : Runs.Meets (step (ShiftOp.tx clashes (some org))) (CommitMeets Careful) (.idle c) as)
    (hrun : Runs.run (step (ShiftOp.tx clashes (some org))) (.idle c) as = some t) :
    OneDefault (some org) t.committed := by
  have hinv : Inv (ShiftOp.tx clashes (some org)) (OneDefault (some org))
      (fun c₀ c => hasDefault c₀ (some org) = hasDefault c (some org)) t := by
    refine Inv.of_run (fun _ _ => rfl) ?_ ?_ (.idle h) hok hrun
    · intro op reads c hlocked hone hreads hcareful
      cases op with
      | createUnique data =>
        have horg : data.companyId = some org := of_decide_eq_true hlocked
        exact hone.of_created horg (hreads 1)
      | updateUnique id data => exact (hone.of_careful (fun _ h => by cases h) hcareful).1
      | softDelete | setDefault => cases hlocked
    · intro op reads c hfree hone hcareful
      have hother : ∀ data, op = .createUnique data → data.companyId ≠ some org := by
        rintro data rfl
        exact of_decide_eq_false hfree
      obtain ⟨hkept, hsame⟩ := hone.of_careful hother hcareful
      exact ⟨hkept, fun c₀ h₀ => h₀.trans hsame.symm⟩
  exact hinv.store

/-- Two shifts of organisation 0, the first of them its default. -/
def twoShifts : Shifts Unit :=
  let day : ShiftWriteData Unit := ⟨some 0, text "Day", ()⟩
  let late : ShiftWriteData Unit := ⟨some 0, text "Late", ()⟩
  (Table.empty.create (day.row true) (day.row_id true)).create (late.row false) (late.row_id false)

/-- The first of the two shifts is the only default. -/
theorem oneDefault_twoShifts : OneDefault (some 0) twoShifts := by
  refine fun _ => ⟨0, ⟨⟨0, some 0, text "Day", (), true, none⟩, by decide, rfl, by decide, rfl⟩, ?_⟩
  have hrows : twoShifts.rows =
      [⟨0, some 0, text "Day", (), true, none⟩, ⟨1, some 0, text "Late", (), false, none⟩] := by
        decide
  rintro i ⟨r, hr, hid, -, hdef⟩
  rw [← Table.mem_rows, hrows, List.mem_cons, List.mem_singleton] at hr
  rcases hr with rfl | rfl
  · exact hid.symm
  · cases hdef

/-- After `setDefault` of the second shift it is the only default. -/
theorem one_default_moved :
    OneDefault (some 0) ((ShiftOp.tx asciiClash (some 0) (.setDefault 1)).alone twoShifts) := by
  have hcareful : Careful (ShiftOp.setDefault 1) (fun _ => twoShifts) twoShifts := by
    intro shift hshift
    have hfind : (twoShifts.find? fun r => r.id = 1) =
        some ⟨1, some 0, text "Late", (), false, none⟩ := by
      decide
    obtain rfl := Option.some.inj (hfind.symm.trans hshift)
    refine ⟨⟨⟨1, some 0, text "Late", (), false, none⟩, by decide, rfl, by decide⟩, ?_⟩
    exact fun r hr hother => ⟨r, hr, hother, rfl⟩
  have hrun : Runs.run (step (ShiftOp.tx asciiClash (some 0))) (.idle twoShifts)
      (steps (ShiftOp.tx asciiClash (some 0)) 0 (ShiftOp.setDefault 1)) =
        some (.idle ((ShiftOp.tx asciiClash (some 0) (ShiftOp.setDefault 1)).alone twoShifts)) :=
    run_steps twoShifts 0 _
  exact one_default oneDefault_twoShifts (meets_steps 0 hcareful) hrun

/-- Two changes of the default at once: neither sees the other's, and both shifts are
the default. -/
theorem two_defaults :
    (Runs.run (step (ShiftOp.tx asciiClash (some 0))) (.idle (twoShifts.create
        ((⟨some 0, text "Night", ()⟩ : ShiftWriteData Unit).row false)
          (ShiftWriteData.row_id _ false)))
      [.start 0 (.setDefault 1), .read 0, .read 0, .start 1 (.setDefault 2), .read 1, .read 1,
        .commit 0, .commit 1]).map
      (fun t => (t.committed.rows.filter fun r => r.isIn (some 0) && r.isDefault).map Shift.id) =
    some [1, 2] := by decide

end RxVision.ShiftNames
