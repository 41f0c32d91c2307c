import RxVision.Lib.Table

/-!
# Accounts, organisations and departments (`prisma/schema.prisma`)

The tables that say who somebody is and where they belong: `users` (with the name of their role),
`companies`, `departments` and `manager_departments`. The foreign keys of the schema are fields of
`Directory`, so that a directory with a dangling reference cannot be built.

A UUID column stores a number and prints it in lower case; the text a request names it by may be
written in other letters. `UuidText` keeps the two apart: comparing columns compares numbers,
comparing texts in the program (`===`) compares the letters too.
-/

namespace RxVision

/-- `Role` (`shared/rbac/roles.enum.ts`). -/
inductive Role
  | superAdmin | superManager | admin | manager | user
  deriving DecidableEq, Repr

/-- `UserStatus`. -/
inductive UserStatus
  | active | disabled
  deriving DecidableEq, Repr

/-- `seesEveryOrg`: roles that belong to no organisation and act in the one they pick. -/
def seesEveryOrg (role : Role) : Bool := role = .superAdmin || role = .superManager

/-- The text of a UUID: its value, and the letters written in upper case (as a bit mask). -/
structure UuidText where
  uuid : ℕ
  upper : ℕ := 0
  deriving DecidableEq, Repr

/-- The text the database prints. -/
def UuidText.printed (uuid : ℕ) : UuidText := { uuid }

/-- A printed id is read back. -/
@[simp] theorem UuidText.printed_uuid (u : ℕ) : (printed u).uuid = u := rfl

/-- A text is the printed one exactly when it has no upper-case letter. -/
theorem UuidText.eq_printed {t : UuidText} {u : ℕ} : printed u = t ↔ t.uuid = u ∧ t.upper = 0 := by
  cases t
  simp only [printed, UuidText.mk.injEq, eq_comm]

/-- `companies`. -/
structure Company where
  id : ℕ
  deletedAt : Option ℤ := none
  deriving DecidableEq, Repr

/-- A new organisation has its id. -/
theorem Company.id_new : ∀ n, ({ id := n } : Company).id = n := fun _ => rfl

/-- A deletion keeps the organisation's id. -/
theorem Company.id_deleted (now : ℤ) :
    ∀ c : Company, ({ c with deletedAt := some now } : Company).id = c.id :=
  fun _ => rfl

/-- One organisation. -/
def oneCompany : Table Company.id := Table.empty.create (fun id => { id }) fun _ => rfl

/-- `departments`. -/
structure Department where
  id : ℕ
  companyId : ℕ
  deletedAt : Option ℤ := none
  deriving DecidableEq, Repr

/-- A deletion keeps the department's id. -/
theorem Department.id_deleted (now : ℤ) :
    ∀ de : Department, ({ de with deletedAt := some now } : Department).id = de.id := fun _ => rfl

/-- `ViewGrants`: a Manager's view grants. -/
structure ViewGrants where
  screenshots : Bool
  timeline : Bool
  activity : Bool
  deriving DecidableEq, Repr

/-- `NO_GRANTS`. -/
def NO_GRANTS : ViewGrants := ⟨false, false, false⟩

/-- `users`. -/
structure Account where
  id : ℕ
  role : Role
  status : UserStatus := .active
  companyId : Option ℕ := none
  departmentId : Option ℕ := none
  deletedAt : Option ℤ := none
  grants : ViewGrants := NO_GRANTS
  deriving DecidableEq, Repr

/-- A deletion keeps the account's id. -/
theorem Account.id_deleted (now : ℤ) :
    ∀ u : Account, ({ u with deletedAt := some now } : Account).id = u.id :=
  fun _ => rfl

/-- `manager_departments`: a department a Manager oversees. -/
structure ManagerDepartment where
  managerId : ℕ
  departmentId : ℕ
  deriving DecidableEq, Repr

/-- The tables of the directory, with their foreign keys. -/
structure Directory where
  companies : Table Company.id
  departments : Table Department.id
  users : Table Account.id
  managerDepartments : List ManagerDepartment
  user_company : ∀ u ∈ users, ∀ c, u.companyId = some c → ∃ co ∈ companies, co.id = c
  user_department : ∀ u ∈ users, ∀ p, u.departmentId = some p → ∃ de ∈ departments, de.id = p
  managed_manager : ∀ m ∈ managerDepartments, ∃ u ∈ users, u.id = m.managerId
  managed_department : ∀ m ∈ managerDepartments, ∃ de ∈ departments, de.id = m.departmentId

namespace Directory

variable (d : Directory)

/-- The account's organisation, as the row a relation includes. -/
def companyOf (u : Account) : Option Company := d.companies.find? fun c => u.companyId = some c.id

/-- The account's organisation exists and was deleted: `!!row.company?.deletedAt`. -/
def companyDeleted (u : Account) : Bool := (d.companyOf u).any fun c => c.deletedAt.isSome

/-- An account of an organisation that is not deleted. -/
def InLiveOrg (u : Account) (c : ℕ) : Prop :=
  u.companyId = some c ∧ ∃ co ∈ d.companies, co.id = c ∧ co.deletedAt = none

variable {d} {u : Account}

/-- Somebody in an organisation is in a live one exactly when theirs was not deleted. -/
theorem exists_inLiveOrg (hu : u ∈ d.users) :
    (∃ c, d.InLiveOrg u c) ↔ (∃ c, u.companyId = some c) ∧ d.companyDeleted u = false := by
  unfold companyDeleted companyOf
  constructor
  · rintro ⟨c, hc, co, hco, rfl, hlive⟩
    refine ⟨⟨co.id, hc⟩, ?_⟩
    cases h : d.companies.find? fun c => decide (u.companyId = some c.id) with
    | none => rfl
    | some co' =>
      have hid := Table.find?_spec h
      rw [decide_eq_true_eq, hc, Option.some_inj] at hid
      obtain rfl := Table.eq_of_key hco (Table.mem_of_find? h) hid
      simp [hlive]
  · rintro ⟨⟨c, hc⟩, hdel⟩
    obtain ⟨co, hco, rfl⟩ := d.user_company u hu c hc
    cases h : d.companies.find? fun c => decide (u.companyId = some c.id) with
    | none =>
      have := Table.find?_eq_none.1 h co hco
      simp [hc] at this
    | some co' =>
      have hid := Table.find?_spec h
      rw [decide_eq_true_eq, hc, Option.some_inj] at hid
      obtain rfl := Table.eq_of_key hco (Table.mem_of_find? h) hid
      rw [h] at hdel
      exact ⟨co.id, hc, co, hco, rfl, by simpa using hdel⟩

end Directory

end RxVision
