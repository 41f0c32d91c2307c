import RxVision.Lib.Runs
import RxVision.Tenancy.Directory

/-!
# Who belongs to an organisation (`organisations/infrastructure/prisma-organisation.store.ts`)

The transactions that make, move, delete or reactivate the people of organisations, one statement at
a time. `createAdmin`, `create`, `assignPerson` and `softDelete` take the organisation's row lock
first and hold it to their end; `save` takes none. What a transaction writes shows when it commits,
so its writing statements are one step. A row that a transaction has written keeps the others from
it until then.
-/

namespace RxVision

/-- The tables. -/
structure OrgStore where
  companies : Table Company.id
  users : Table Account.id

/-- The account is in the organisation, and not deleted. -/
def Account.isMember (u : Account) (org : ℕ) : Bool := u.companyId = some org && u.deletedAt.isNone

/-- What a transaction does. -/
inductive OrgOp
  | createAdmin (org : ℕ)
  /-- `create` of a Manager, or of Staff. -/
  | create (org : ℕ) (asManager : Bool) (departmentId : Option ℕ) (grants : ViewGrants)
  | assignPerson (userId org : ℕ)
  | softDelete (org : ℕ) (now : ℤ)
  /-- By a caller who acts in `org`. -/
  | setUserStatus (userId : ℕ) (org : Option ℕ) (status : UserStatus)
  | reactivate (userId org : ℕ) (asManager : Bool) (departmentId : Option ℕ) (grants : ViewGrants)
  deriving DecidableEq, Repr

/-- The organisation whose row the transaction locks. -/
def OrgOp.lockOf : OrgOp → Option ℕ
  | .createAdmin org | .create org _ _ _ | .assignPerson _ org | .softDelete org _ => some org
  | .setUserStatus _ _ _ | .reactivate _ _ _ _ _ => none

/-- The save makes the account `ACTIVE`. -/
def OrgOp.activates : OrgOp → Bool
  | .setUserStatus _ _ status => status = .active
  | .reactivate _ _ _ _ _ => true
  | _ => false

/-- Where a transaction is. -/
inductive OrgPhase
  | begun
  /-- It holds the organisation's row, which is not deleted. -/
  | locked
  /-- `assignPerson` has read an Admin who is in no organisation. -/
  | found (person : Account)
  /-- There is no other Admin: it writes next. -/
  | clear (person : Option Account)
  /-- `softDelete` has counted nobody who is `ACTIVE`. -/
  | counted
  /-- A use case that saves has read the account. -/
  | loaded (person : Account)
  | finished
  deriving DecidableEq, Repr

/-- The transaction holds the lock. -/
def OrgPhase.holds : OrgPhase → Bool
  | .locked | .found _ | .clear _ | .counted => true
  | .begun | .loaded _ | .finished => false

/-- The account that a use case which saves has read. -/
def OrgPhase.loadedPerson : OrgPhase → Option Account
  | .loaded person => some person
  | _ => none

/-- A transaction. -/
structure OrgTx where
  op : OrgOp
  phase : OrgPhase
  deriving DecidableEq, Repr

/-- The tables, which transaction holds the lock of an organisation's row, and the transactions in
the order they began. -/
structure OrgWorld where
  db : OrgStore
  locks : ℕ → Option ℕ
  txs : List OrgTx

/-- What happens to the organisations. -/
inductive OrgAction
  | begins (op : OrgOp)
  /-- The next statement of the transaction `i`. -/
  | proceed (i : ℕ)
  /-- The transaction `i` is rolled back. -/
  | fails (i : ℕ)
  deriving DecidableEq, Repr

/-- The role of a new or reactivated person. -/
def roleOf (asManager : Bool) : Role := if asManager then .manager else .user

namespace OrgStore

variable (db : OrgStore)

/-- The row that `lockOrganisation` looks for exists. -/
def live (org : ℕ) : Bool := db.companies.rows.any fun c => c.id = org && c.deletedAt.isNone

/-- `findFirst` of an Admin of the organisation other than `except`. -/
def hasAdmin (org : ℕ) (except : Option ℕ) : Bool :=
  db.users.rows.any fun u => u.isMember org && u.role = .admin && some u.id ≠ except

/-- `softDelete` counts people who are `ACTIVE`. -/
def hasActive (org : ℕ) : Bool := db.users.rows.any fun u => u.isMember org && u.status = .active

/-- The account, unless it is deleted. -/
def findPerson (userId : ℕ) : Option Account := db.users.find? fun u => u.id = userId &&
    u.deletedAt.isNone

/-- A new account in the organisation. -/
def addAccount (org : ℕ) (role : Role) (departmentId : Option ℕ) (grants : ViewGrants) : OrgStore :=
  { db with
    users := db.users.create (fun id => { id, role, companyId := some org, departmentId, grants })
      fun _ => rfl }

/-- The account's columns change. -/
def updateUser (userId : ℕ) (f : Account → Account) (hf : ∀ u, (f u).id = u.id) : OrgStore :=
  { db with users := db.users.updateMany (fun u => u.id = userId) f hf }

/-- The update of `assignPerson`. -/
def assign (userId org : ℕ) : OrgStore :=
  db.updateUser userId
    (fun u => { u with companyId := some org, departmentId := none, grants := NO_GRANTS })
      fun _ => rfl

/-- `save` of the entity: its columns, as it has them. -/
def save (entity : Account) : OrgStore :=
  db.updateUser entity.id (fun u => { entity with id := u.id, deletedAt := u.deletedAt })
    fun _ => rfl

/-- The writes of `softDelete`. -/
def remove (org : ℕ) (now : ℤ) : OrgStore where
  users := db.users.updateMany (fun u => u.isMember org) (fun u => { u with deletedAt := some now })
    fun _ => rfl
  companies := db.companies.updateMany (fun c => c.id = org)
    (fun c => { c with deletedAt := some now }) fun _ => rfl

/-! ## The statements -/

/-- `findById` or `findByEmail`, and the checks of the use case. -/
def load (op : OrgOp) : OrgPhase :=
  match op with
  | .setUserStatus userId org _ =>
    match db.findPerson userId with
    | some person => if person.companyId = org then .loaded person else .finished
    | none => .finished
  | .reactivate userId org _ _ _ =>
    match db.findPerson userId with
    | some person =>
      if person.companyId = some org ∧ person.status ≠ .active ∧ person.role ≠ .admin ∧
          person.role ≠ .superAdmin ∧ person.role ≠ .superManager then .loaded person
      else .finished
    | none => .finished
  | _ => .finished

/-- The first statement under the lock. -/
def afterLock (op : OrgOp) : OrgStore × OrgPhase :=
  match op with
  | .createAdmin org => (db, if db.hasAdmin org none then .finished else .clear none)
  | .create org asManager departmentId grants =>
    (db.addAccount org (roleOf asManager) departmentId grants, .finished)
  | .assignPerson userId _ =>
    match db.findPerson userId with
    | none => (db, .finished)
    | some person =>
      -- the same organisation, or another one
      if person.companyId.any db.live then (db, .finished)
      else (db, if person.role = .admin then .found person else .clear (some person))
  | .softDelete org _ => (db, if db.hasActive org then .finished else .counted)
  | .setUserStatus _ _ _ | .reactivate _ _ _ _ _ => (db, .finished)

/-- What the transaction writes once there is no other Admin. -/
def whenClear (op : OrgOp) : OrgStore :=
  match op with
  | .createAdmin org => db.addAccount org .admin none NO_GRANTS
  | .assignPerson userId org => db.assign userId org
  | _ => db

/-- The entity that a use case saves. -/
def entity (op : OrgOp) (person : Account) : Account :=
  match op with
  | .setUserStatus _ _ status => { person with status }
  | .reactivate _ _ asManager departmentId grants =>
    { person with status := .active, role := roleOf asManager, departmentId, grants }
  | _ => person

end OrgStore

namespace OrgWorld

/-- No transaction is under way. -/
def start (db : OrgStore) : OrgWorld := ⟨db, fun _ => none, []⟩

/-- The next statement of a transaction: the tables, and where it is then. It waits for a lock that
another transaction holds. -/
def proceed (w : OrgWorld) (tx : OrgTx) : Option (OrgStore × OrgPhase) :=
  match tx.phase with
  | .begun =>
    match tx.op.lockOf with
    | some org =>
      if w.locks org = none then some (w.db, if w.db.live org then .locked else .finished) else none
    | none => some (w.db, w.db.load tx.op)
  | .locked => some (w.db.afterLock tx.op)
  | .found person =>
    match tx.op with
    | .assignPerson _ org =>
      some (w.db, if w.db.hasAdmin org (some person.id) then .finished else .clear (some person))
    | _ => some (w.db, .finished)
  | .clear _ => some (w.db.whenClear tx.op, .finished)
  | .counted =>
    match tx.op with
    | .softDelete org now => some (w.db.remove org now, .finished)
    | _ => some (w.db, .finished)
  | .loaded person => some (w.db.save (OrgStore.entity tx.op person), .finished)
  | .finished => some (w.db, .finished)

/-- The locks once the transaction `i` is in the phase. -/
def locksAfter (w : OrgWorld) (i : ℕ) (op : OrgOp) (phase : OrgPhase) : ℕ → Option ℕ := fun org =>
  match phase with
  | .locked => if op.lockOf = some org then some i else w.locks org
  | .finished => if w.locks org = some i then none else w.locks org
  | _ => w.locks org

/-- One step; `none` when it cannot happen. -/
def step (w : OrgWorld) : OrgAction → Option OrgWorld
  | .begins op => some { w with txs := w.txs ++ [⟨op, .begun⟩] }
  | .proceed i =>
    match w.txs[i]? with
    | some tx => (w.proceed tx).map fun (db, phase) =>
        ⟨db, w.locksAfter i tx.op phase, w.txs.set i { tx with phase }⟩
    | none => none
  | .fails i =>
    match w.txs[i]? with
    | some tx =>
      some ⟨w.db, w.locksAfter i tx.op .finished, w.txs.set i { tx with phase := .finished }⟩
    | none => none

end OrgWorld

end RxVision
