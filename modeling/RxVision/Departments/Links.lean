import RxVision.Lib.Runs
import RxVision.Tenancy.Directory

/-!
# Department links (`departments.service.ts`, `people-placement.ts`, `postgres-user.repository.ts`)

A person's department, its name in the person's row, and the departments a Manager oversees, as
`DepartmentsService.update` and `remove`, `create`, `save` and `assignPerson` read and write them,
one statement at a time. A statement that changes many rows picks them when it runs (`renames`,
`swept`, `unmanaged`); what it makes of them shows at the commit. The rows it has picked keep other
transactions waiting: the model lets these go first or afterwards. The organisation's row lock of
`create` and `assignPerson` orders them against the organisation's deletion, and is left out, as is
the check that a new name is free, which only refuses.
-/

namespace RxVision

/-- `departments`. -/
structure DepartmentRow where
  id : ℕ
  companyId : ℕ
  name : String
  icon : String
  deletedAt : Option ℤ := none
  deriving DecidableEq, Repr

/-- `users`; `department` is the stored text. -/
structure PersonRow where
  id : ℕ
  role : Role
  status : UserStatus := .active
  companyId : Option ℕ := none
  departmentId : Option ℕ := none
  department : Option String := none
  deletedAt : Option ℤ := none
  deriving DecidableEq, Repr

/-- The tables; `liveOrgs` says which organisations are not deleted. -/
structure LinkStore where
  liveOrgs : ℕ → Bool
  departments : Table DepartmentRow.id
  people : Table PersonRow.id
  managed : List ManagerDepartment

/-- The placement that an edit asks for, or comes to with what the person has. -/
structure PlacementAsked where
  asManager : Bool
  department : Option ℕ
  managed : List ℕ
  deriving DecidableEq, Repr

/-- `Placement`. -/
structure PlacementMade where
  role : Role
  department : Option DepartmentRow
  managed : List ℕ
  deriving DecidableEq, Repr

/-- What a transaction does. -/
inductive LinkOp
  /-- `update`; a field that is not given stays. -/
  | update (org id : ℕ) (name icon : Option String)
  | remove (org id : ℕ) (now : ℤ)
  | create (org : ℕ) (asked : PlacementAsked)
  | updateUser (userId org : ℕ) (asked : Option PlacementAsked)
  | reactivate (userId org : ℕ) (asked : PlacementAsked)
  | assignPerson (userId org : ℕ)
  deriving DecidableEq, Repr

/-- Where a transaction is. -/
inductive LinkPhase
  | begun
  /-- `update` has read the department, and writes this name and icon. -/
  | updating (name icon : String) (renamed : Bool)
  /-- It changes the text in the rows of these people, too. -/
  | renames (name icon : String) (ids : List ℕ)
  /-- `findInOrg` has found the department; `assignPerson` has found the person. -/
  | found
  /-- `remove` has counted no staff. -/
  | counted
  /-- It deletes these rows of `manager_departments`. -/
  | unmanaged (links : List ManagerDepartment)
  /-- It changes the rows of these people, too. -/
  | swept (links : List ManagerDepartment) (ids : List ℕ)
  /-- `findById` has answered; the placement is next. -/
  | loaded (person : PersonRow)
  /-- The placement is made; the account is next. -/
  | placed (placement : PlacementMade)
  /-- It saves next. -/
  | ready (person : PersonRow) (placement : Option PlacementMade)
  | finished
  deriving DecidableEq, Repr

/-- A transaction. -/
structure LinkTx where
  op : LinkOp
  phase : LinkPhase
  deriving DecidableEq, Repr

/-- The tables and the transactions in the order they began. -/
structure LinkWorld where
  db : LinkStore
  txs : List LinkTx

/-- What happens to the links. -/
inductive LinkAction
  | begins (op : LinkOp)
  /-- The next statement of the transaction `i`. -/
  | proceed (i : ℕ)
  /-- The transaction `i` is refused or rolled back. -/
  | fails (i : ℕ)
  deriving DecidableEq, Repr

namespace LinkStore

variable (db : LinkStore)

/-- `findInOrg`: the department, unless it is deleted or another organisation's. -/
def findInOrg (org id : ℕ) : Option DepartmentRow :=
  db.departments.find? fun d => d.id = id && d.companyId = org && d.deletedAt.isNone

/-- The account, unless it is deleted. -/
def findPerson (userId : ℕ) : Option PersonRow :=
  db.people.find? fun u => u.id = userId && u.deletedAt.isNone

/-- `remove` counts staff who are `ACTIVE`. -/
def hasStaff (id : ℕ) : Bool :=
  db.people.rows.any fun u =>
    u.departmentId = some id && u.deletedAt.isNone && u.status = .active && u.role = .user

/-- `resolvePlacement`: every department asked for is the organisation's; Staff have one, a Manager
oversees at least one. -/
def resolvePlacement (org : ℕ) (asked : PlacementAsked) : Option PlacementMade :=
  if asked.asManager then
    if asked.managed ≠ [] ∧ asked.managed.all (fun id => (db.findInOrg org id).isSome) then
      match asked.department with
      | none => some ⟨.manager, none, asked.managed⟩
      | some id => (db.findInOrg org id).map fun d => ⟨.manager, some d, asked.managed⟩
    else none
  else asked.department.bind fun id => (db.findInOrg org id).map fun d => ⟨.user, some d, []⟩

/-- The rows of `manager_departments` of a department, and of a person. -/
def linksOf (id : ℕ) : List ManagerDepartment := db.managed.filter fun l => l.departmentId = id

def linksOfManager (userId : ℕ) : List ManagerDepartment :=
  db.managed.filter fun l => l.managerId = userId

/-- The people who are in the department. -/
def peopleIn (id : ℕ) : List ℕ :=
  (db.people.rows.filter fun u => u.departmentId = some id).map PersonRow.id

/-- The members of the department whose text follows its name. -/
def membersOf (id : ℕ) : List ℕ :=
  (db.people.rows.filter fun u => u.departmentId = some id && u.deletedAt.isNone).map PersonRow.id

/-- The writes of `update`: the name and the icon, and the text of the rows that were picked. -/
def updated (id : ℕ) (name icon : String) (ids : List ℕ) : LinkStore :=
  { db with
    departments := db.departments.updateMany (fun d => d.id = id)
      (fun d => { d with name, icon }) fun _ => rfl
    people := db.people.updateMany
      (fun u => ids.contains u.id && u.departmentId = some id && u.deletedAt.isNone)
      (fun u => { u with department := some name }) fun _ => rfl }

/-- The writes of `remove`. -/
def removed (id : ℕ) (now : ℤ) (links : List ManagerDepartment) (ids : List ℕ) : LinkStore :=
  { db with
    departments := db.departments.updateMany (fun d => d.id = id)
      (fun d => { d with deletedAt := some now }) fun _ => rfl
    people := db.people.updateMany (fun u => ids.contains u.id && u.departmentId = some id)
      (fun u => { u with departmentId := none }) fun _ => rfl
    managed := db.managed.filter fun l => !links.contains l }

/-- `createMany` of the departments a Manager oversees, without duplicates. -/
def withLinks (userId : ℕ) (ids : List ℕ) (links : List ManagerDepartment) :
    List ManagerDepartment :=
  links ++ ((ids.eraseDups.map fun id => ⟨userId, id⟩).filter fun l => !links.contains l)

/-- The writes of `create`. -/
def created (org : ℕ) (p : PlacementMade) : LinkStore :=
  { db with
    people := db.people.create (fun id =>
      { id, role := p.role, companyId := some org, departmentId := p.department.map DepartmentRow.id
        department := p.department.map DepartmentRow.name }) fun _ => rfl
    managed := withLinks db.people.next p.managed db.managed }

/-- The entity that a use case saves: what it has read, with the placement it has made. -/
def entity (person : PersonRow) : Option PlacementMade → PersonRow
  | none => person
  | some p =>
    { person with
      role := p.role
      departmentId := p.department.map DepartmentRow.id
      department := p.department.map DepartmentRow.name }

/-- A row once the entity is saved; a reactivation makes it `ACTIVE`. -/
def savedRow (person : PersonRow) (p : Option PlacementMade) (activates : Bool)
    (u : PersonRow) : PersonRow :=
  { entity person p with
    id := u.id
    deletedAt := u.deletedAt
    status := if activates then .active else person.status }

/-- A saved account keeps its id. -/
theorem savedRow_id (person : PersonRow) (p : Option PlacementMade) (activates : Bool)
    (u : PersonRow) : (savedRow person p activates u).id = u.id := rfl

/-- The departments that the person oversees, replaced when the placement has set them. -/
def savedLinks (person : PersonRow) : Option PlacementMade → List ManagerDepartment
  | none => db.managed
  | some p => withLinks person.id p.managed
      (db.managed.filter fun l => !(l.managerId = person.id && !p.managed.contains l.departmentId))

/-- The writes of `save`: every column of the entity, and the departments it oversees. -/
def saved (person : PersonRow) (p : Option PlacementMade) (activates : Bool) : LinkStore :=
  { db with
    people := db.people.updateMany (fun u => u.id = person.id) (savedRow person p activates)
      (savedRow_id person p activates)
    managed := db.savedLinks person p }

/-- The writes of `assignPerson`. -/
def assigned (userId org : ℕ) (links : List ManagerDepartment) : LinkStore :=
  { db with
    people := db.people.updateMany (fun u => u.id = userId)
      (fun u => { u with companyId := some org, departmentId := none }) fun _ => rfl
    managed := db.managed.filter fun l => !links.contains l }

end LinkStore

namespace LinkWorld

/-- No transaction is under way. -/
def start (db : LinkStore) : LinkWorld := ⟨db, []⟩

/-- `findById` or `findByEmail` in the organisation. -/
def load (db : LinkStore) (userId org : ℕ) (next : PersonRow → LinkPhase) : LinkPhase :=
  match db.findPerson userId with
  | some person => if person.companyId = some org then next person else .finished
  | none => .finished

/-- `resolvePlacement`, or a refusal. -/
def place (db : LinkStore) (org : ℕ) (asked : PlacementAsked) (next : PlacementMade → LinkPhase) :
    LinkPhase :=
  match db.resolvePlacement org asked with
  | some p => next p
  | none => .finished

/-- The next statement of a transaction: the tables, and where it is then. -/
def proceed (db : LinkStore) (tx : LinkTx) : LinkStore × LinkPhase :=
  match tx.op, tx.phase with
  | .update org id name icon, .begun =>
    (db, match db.findInOrg org id with
      | some d =>
        let name := name.getD d.name
        let icon := icon.getD d.icon
        if name = d.name ∧ icon = d.icon then .finished else .updating name icon (name ≠ d.name)
      | none => .finished)
  | .update _ id _ _, .updating name icon renamed =>
    if renamed then (db, .renames name icon (db.membersOf id))
    else (db.updated id name icon [], .finished)
  | .update _ id _ _, .renames name icon ids => (db.updated id name icon ids, .finished)
  | .remove org id _, .begun => (db, if (db.findInOrg org id).isSome then .found else .finished)
  | .remove _ id _, .found => (db, if db.hasStaff id then .finished else .counted)
  | .remove _ id _, .counted => (db, .unmanaged (db.linksOf id))
  | .remove _ id _, .unmanaged links => (db, .swept links (db.peopleIn id))
  | .remove _ id now, .swept links ids => (db.removed id now links ids, .finished)
  | .create org asked, .begun => (db, place db org asked .placed)
  | .create org _, .placed p => (db.created org p, .finished)
  | .updateUser userId org none, .begun => (db, load db userId org fun person => .ready person none)
  | .updateUser userId org (some _), .begun => (db, load db userId org .loaded)
  | .updateUser _ org (some asked), .loaded person =>
    (db, place db org asked fun p => .ready person (some p))
  | .updateUser _ _ _, .ready person p => (db.saved person p false, .finished)
  | .reactivate _ org asked, .begun => (db, place db org asked .placed)
  | .reactivate userId org _, .placed p =>
    (db, load db userId org fun person => .ready person (some p))
  | .reactivate _ _ _, .ready person p => (db.saved person p true, .finished)
  | .assignPerson userId _, .begun =>
    (db, match db.findPerson userId with
      | some person => if person.companyId.any db.liveOrgs then .finished else .found
      | none => .finished)
  | .assignPerson userId _, .found => (db, .unmanaged (db.linksOfManager userId))
  | .assignPerson userId org, .unmanaged links => (db.assigned userId org links, .finished)
  | _, _ => (db, .finished)

/-- One step; `none` when it cannot happen. -/
def step (w : LinkWorld) : LinkAction → Option LinkWorld
  | .begins op => some { w with txs := w.txs ++ [⟨op, .begun⟩] }
  | .proceed i =>
    match w.txs[i]? with
    | some tx =>
      let (db, phase) := proceed w.db tx
      some ⟨db, w.txs.set i { tx with phase }⟩
    | none => none
  | .fails i =>
    match w.txs[i]? with
    | some tx => some { w with txs := w.txs.set i { tx with phase := .finished } }
    | none => none

end LinkWorld

end RxVision
