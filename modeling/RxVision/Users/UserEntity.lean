import RxVision.Tenancy.Directory
import RxVision.Lib.Text

/-!
# The user entity (`users/domain/entities/user.entity.ts`, `postgres-user.repository.ts`)

An account as its row has it, the entity that `findById` makes of the row, the changes that the
use cases make to it, and `save`, which writes every column of the entity back. A column's
value is a `Cell`.
-/

namespace RxVision

/-- The columns of an account that the entity carries; `managedDepartments` is the account's part of
`manager_departments`. -/
inductive Column
  | email | passwordHash | firstName | lastName | designation | role | department | managerId
    | companyId
  | shiftId | shiftStart | shiftEnd | status | screenshotsEnabled | departmentId | grantScreenshots
  | grantTimeline | grantActivity | idleEnabled | idleMinutes | managedDepartments
  deriving DecidableEq, Repr

/-- The value of a column. -/
inductive Cell
  | null
  | text (s : String)
  | flag (b : Bool)
  | num (n : ℤ)
  | role (r : Role)
  | status (s : UserStatus)
  | ids (l : List ℕ)
  deriving DecidableEq, Repr

namespace Cell

/-- The text of the cell. -/
def str : Cell → String
  | .text s => s
  | _ => ""

/-- A value that may be missing. -/
def ofText : Option String → Cell
  | none => .null
  | some s => .text s

def ofFlag : Option Bool → Cell
  | none => .null
  | some b => .flag b

def ofNum : Option ℤ → Cell
  | none => .null
  | some n => .num n

end Cell

/-- An account's row. -/
abbrev UserRow := Column → Cell

/-- `User`. -/
structure User where
  props : UserRow
  /-- `pendingManaged`: the next save writes the managed departments. -/
  pendingManaged : Bool := false

namespace User

/-- `UserPersistenceMapper.toDomain`: only a Manager has managed departments. -/
def toDomain (row : UserRow) : User where
  props := fun c =>
    if c = .managedDepartments ∧ row .role ≠ .role .manager then .ids [] else row c

/-- Sets one column. -/
def set (u : User) (c : Column) (value : Cell) :
    User := { u with props := Function.update u.props c value }

/-- `rename`; it throws on an empty first name. -/
def rename (u : User) (firstName lastName : String) : Option User :=
  if trim firstName = "" then none
  else some ((u.set .firstName (.text (trim firstName))).set .lastName (.text (trim lastName)))

/-- `setDesignation`. -/
def setDesignation (u : User) (designation : Option String) : User :=
  u.set .designation (match designation with
    | none => .null
    | some d => if trim d = "" then .null else .text (trim d))

/-- `changeStatus`. -/
def changeStatus (u : User) (status : UserStatus) : User := u.set .status (.status status)

/-- `setPasswordHash`. -/
def setPasswordHash (u : User) (hash : String) : User := u.set .passwordHash (.text hash)

/-- `setScreenshotsEnabled`. -/
def setScreenshotsEnabled (u : User) (enabled : Bool) :
    User := u.set .screenshotsEnabled (.flag enabled)

/-- `setGrants`. -/
def setGrants (u : User) (g : ViewGrants) : User :=
  ((u.set .grantScreenshots (.flag g.screenshots)).set .grantTimeline (.flag g.timeline)).set
    .grantActivity (.flag g.activity)

/-- `setIdle`. -/
def setIdle (u : User) (enabled : Option Bool) (minutes : Option ℤ) : User :=
  (u.set .idleEnabled (.ofFlag enabled)).set .idleMinutes (.ofNum minutes)

/-- `changeEmail`, of an address that is valid and in lower case. -/
def changeEmail (u : User) (email : String) : User := u.set .email (.text email)

/-- `changeRole`. -/
def changeRole (u : User) (role : Role) : User := u.set .role (.role role)

/-- `assignDepartment`: the department's id and name. -/
def assignDepartment (u : User) (dept : Option (ℕ × String)) : User :=
  (u.set .departmentId (match dept with
    | none => .null
    | some (id, _) => .num id)).set .department (.ofText (dept.map Prod.snd))

/-- `setManagedDepartments`. -/
def setManagedDepartments (u : User) (ids : List ℕ) : User :=
  { (u.set .managedDepartments (.ids ids.eraseDups)) with pendingManaged := true }

/-- `reactivateWith`. -/
def reactivateWith (u : User) (firstName lastName : String) (designation : Option String) :
    Option User :=
  ((u.changeStatus .active).rename firstName lastName).map fun u =>
    match designation with
    | none => u
    | some d => u.setDesignation (some d)

/-- `save`: every column but the managed departments, and these when they are pending. -/
def save (row : UserRow) (u : User) : UserRow := fun c =>
  if c = .managedDepartments ∧ u.pendingManaged = false then row c else u.props c

end User

/-! ## The use cases -/

/-- What `resolvePlacement` has found for the person. -/
structure PlacementFound where
  role : Role
  department : Option (ℕ × String)
  managed : List ℕ
  grants : ViewGrants
  deriving DecidableEq, Repr

/-- The placement of an edit. -/
def User.place (u : User) (p : PlacementFound) : User :=
  (((u.changeRole p.role).assignDepartment p.department).setManagedDepartments p.managed).setGrants
    p.grants

/-- `UpdateUserDto`, with the placement it comes to when it asks for one. -/
structure UpdateUserDto where
  email : Option String := none
  firstName : Option String := none
  lastName : Option String := none
  designation : Option (Option String) := none
  placement : Option PlacementFound := none
  deriving DecidableEq, Repr

/-- A use case that reads an account, changes it and saves it, with what it was given. -/
inductive AccountEdit
  | selfRename (firstName lastName : Option String)
  | updateUser (dto : UpdateUserDto)
  | setUserStatus (status : UserStatus)
  /-- `SetUserPassword` and `ChangePassword`. -/
  | setUserPassword (hash : String)
  | setUserGrants (grants : ViewGrants)
  | setUserIdle (enabled : Option Bool) (minutes : Option ℤ)
  | setUserScreenshots (enabled : Bool)
  /-- `reactivate` of `CreateUsers`. -/
  | reactivate (firstName lastName designation hash : String) (placement : PlacementFound)
  deriving DecidableEq, Repr

/-- What a use case makes of the entity it has read. -/
inductive Edited
  | refused
  /-- It returns without saving. -/
  | unchanged
  | changed (u : User)

/-- The names of an edit: the given ones, or the ones that are there. -/
def User.editNames (u : User) (firstName lastName : Option String) : Option User :=
  if firstName = none ∧ lastName = none then some u
  else
    let first := trim (firstName.getD (u.props .firstName).str)
    if first = "" then none
    else u.rename first (trim (lastName.getD (u.props .lastName).str))

/-- The edit of the entity, once the checks have passed. -/
def AccountEdit.edit (e : AccountEdit) (u : User) : Edited :=
  match e with
  | .selfRename firstName lastName =>
    if firstName = none ∧ lastName = none then .unchanged
    else
      match u.editNames firstName lastName with
      | none => .refused
      | some u => .changed u
  | .updateUser dto =>
    let u := match dto.email with
      | none => u
      | some email => u.changeEmail email
    match u.editNames dto.firstName dto.lastName with
    | none => .refused
    | some u =>
      let u := match dto.designation with
        | none => u
        | some designation => u.setDesignation designation
      match dto.placement with
      | none => .changed u
      | some placement => .changed (u.place placement)
  | .setUserStatus status => .changed (u.changeStatus status)
  | .setUserPassword hash => .changed (u.setPasswordHash hash)
  | .setUserGrants grants =>
    if u.props .grantScreenshots = .flag grants.screenshots ∧
        u.props .grantTimeline = .flag grants.timeline ∧
          u.props .grantActivity = .flag grants.activity then .unchanged
    else .changed (u.setGrants grants)
  | .setUserIdle enabled minutes =>
    if u.props .idleEnabled = .ofFlag enabled ∧ u.props .idleMinutes =
      .ofNum minutes then .unchanged
    else .changed (u.setIdle enabled minutes)
  | .setUserScreenshots enabled => .changed (u.setScreenshotsEnabled enabled)
  | .reactivate firstName lastName designation hash placement =>
    match u.reactivateWith firstName lastName
      (if designation = "" then none else some designation) with
    | none => .refused
    | some u => .changed ((u.place placement).setPasswordHash hash)

/-- The edit sets the managed departments. -/
def AccountEdit.setsManaged : AccountEdit → Bool
  | .updateUser dto => dto.placement.isSome
  | .reactivate _ _ _ _ _ => true
  | _ => false

namespace User

variable {u u' : User} {c : Column}

/-! ## What an edit does to the managed departments -/

/-- The managed departments are as they were, and not pending. -/
def SameManaged (u u' : User) : Prop :=
  u'.props .managedDepartments = u.props .managedDepartments ∧ u'.pendingManaged = u.pendingManaged

/-- Setting another column keeps the managed departments. -/
theorem set_sameManaged (hc : c ≠ .managedDepartments) (value : Cell) :
    SameManaged u (u.set c value) :=
  ⟨Function.update_of_ne hc.symm _ _, rfl⟩

/-- What two changes keep, both keep. -/
theorem SameManaged.trans {u'' : User} (h : SameManaged u u') (h' : SameManaged u' u'') :
    SameManaged u u'' :=
  ⟨h'.1.trans h.1, h'.2.trans h.2⟩

/-- Grants keep the managed departments. -/
theorem setGrants_sameManaged (g : ViewGrants) : SameManaged u (u.setGrants g) :=
  ((set_sameManaged (by decide) _).trans (set_sameManaged (by decide) _)).trans
    (set_sameManaged (by decide) _)

/-- So does a new name. -/
theorem rename_sameManaged {firstName lastName : String}
    (h : u.rename firstName lastName = some u') :
    SameManaged u u' := by
  unfold rename at h
  split at h
  · cases h
  · obtain rfl := Option.some.inj h
    exact (set_sameManaged (by decide) _).trans (set_sameManaged (by decide) _)

/-- So do new names. -/
theorem editNames_sameManaged {firstName lastName : Option String}
    (h : u.editNames firstName lastName = some u') : SameManaged u u' := by
  unfold editNames at h
  split at h
  · obtain rfl := Option.some.inj h
    exact ⟨rfl, rfl⟩
  · simp only at h
    split at h
    · cases h
    · exact rename_sameManaged h

/-- An edit that does not set the managed departments leaves them alone; one that does makes them
pending. -/
theorem edit_managed {e : AccountEdit} (h : e.edit u = .changed u') :
    if e.setsManaged then u'.pendingManaged = true else SameManaged u u' := by
  cases e with
  | selfRename firstName lastName =>
    simp only [AccountEdit.edit] at h
    split at h
    · cases h
    · split at h
      · cases h
      · next hnames =>
        obtain rfl := Edited.changed.inj h
        exact editNames_sameManaged hnames
  | updateUser dto =>
    simp only [AccountEdit.edit] at h
    split at h
    · cases h
    · next u₁ hnames =>
      cases hp : dto.placement with
      | some p =>
        rw [hp] at h
        obtain rfl := Edited.changed.inj h
        simp only [AccountEdit.setsManaged, hp, Option.isSome_some, if_true]
        rfl
      | none =>
        rw [hp] at h
        obtain rfl := Edited.changed.inj h
        simp only [AccountEdit.setsManaged, hp, Option.isSome_none, Bool.false_eq_true, if_false]
        have hemail : SameManaged u (match dto.email with
            | none => u
            | some email => u.changeEmail email) := by
          cases dto.email with
          | none => exact ⟨rfl, rfl⟩
          | some email => exact set_sameManaged (by decide) _
        refine (hemail.trans (editNames_sameManaged hnames)).trans ?_
        cases dto.designation with
        | none => exact ⟨rfl, rfl⟩
        | some designation => exact set_sameManaged (by decide) _
  | setUserStatus status =>
    obtain rfl := Edited.changed.inj h
    exact set_sameManaged (by decide) _
  | setUserPassword hash =>
    obtain rfl := Edited.changed.inj h
    exact set_sameManaged (by decide) _
  | setUserGrants grants =>
    simp only [AccountEdit.edit] at h
    split at h
    · cases h
    · obtain rfl := Edited.changed.inj h
      exact setGrants_sameManaged grants
  | setUserIdle enabled minutes =>
    simp only [AccountEdit.edit] at h
    split at h
    · cases h
    · obtain rfl := Edited.changed.inj h
      exact (set_sameManaged (by decide) _).trans (set_sameManaged (by decide) _)
  | setUserScreenshots enabled =>
    obtain rfl := Edited.changed.inj h
    exact set_sameManaged (by decide) _
  | reactivate firstName lastName designation hash placement =>
    simp only [AccountEdit.edit] at h
    split at h
    · cases h
    · obtain rfl := Edited.changed.inj h
      rfl

end User

end RxVision
