import RxVision.Activity.Daily
import RxVision.Tenancy.People
import RxVision.Tenancy.Placement

/-!
# Live rooms (`shared/websocket`, `activity.gateway.ts`, `activity-redaction.ts`)

A portal socket joins the rooms of what its account oversees (`roomsFor`), and a live update about a
person goes to the rooms of that person (`roomsOfSubject`): the organisation's, and for Staff the
department's. A Manager with one of the timeline and activity grants is in a room of the department
that gets the update without the other part. So the rooms decide once more who sees whom, apart from
`canSeePerson` and `canViewSection`; they decide the same (`live_agrees`).

The organisation that the handshake names is read by its cases, as the `X-Org-Id` header is.
-/

namespace RxVision

/-- `LiveSection`: which grant the live data of a namespace needs. -/
inductive LiveSection
  | presence | activity | screenshots
  deriving DecidableEq, Repr

/-- `PartialActivityView`: one part of a live activity push. -/
inductive PartialActivityView
  | timeline | activity
  deriving DecidableEq, Repr

/-- The rooms of a namespace (`orgRoom`, `deptRoom`, `activityViewRoom`). Their texts are the ids
after a word for the kind. -/
inductive Room
  | org (companyId : ℕ)
  | dept (departmentId : ℕ)
  | activityView (departmentId : ℕ) (view : PartialActivityView)
  deriving DecidableEq, Repr

/-- `RoomSubject`. -/
structure RoomSubject where
  companyId : Option ℕ
  departmentId : Option ℕ
  role : Role
  deriving DecidableEq, Repr

/-- An account as a subject. -/
def Account.subject (u : Account) : RoomSubject := ⟨u.companyId, u.departmentId, u.role⟩

/-- `roomsOfSubject`. -/
def roomsOfSubject (s : RoomSubject) : List Room :=
  (match s.companyId with
    | some companyId => [.org companyId]
    | none => []) ++
  match s.departmentId with
  | some departmentId => if s.role = .user then [.dept departmentId] else []
  | none => []

/-- The rooms of the departments for a Manager's grants. -/
def managerRooms (grants : ViewGrants) (departmentIds : List ℕ) : LiveSection → List Room
  | .presence =>
    if grants.timeline || grants.activity || grants.screenshots then departmentIds.map .dept else []
  | .screenshots => if grants.screenshots then departmentIds.map .dept else []
  | .activity =>
    if grants.timeline && grants.activity then departmentIds.map .dept
    else if grants.timeline then departmentIds.map fun p => .activityView p .timeline
    else if grants.activity then departmentIds.map fun p => .activityView p .activity
    else []

/-- `roomsFor`, of an account that is found. -/
def Directory.roomsOfAccount (d : Directory) (row : Account) (orgHint : OrgHeader)
    (sec : LiveSection) :
    List Room :=
  match row.role with
  | .superAdmin | .superManager =>
    match orgHint with
    | .uuid text =>
      match d.companies.find? fun c => c.id = text.uuid && c.deletedAt.isNone with
      | some org => [.org org.id]
      | none => []
    | .blank | .all | .other => []
  | .admin =>
    match row.companyId with
    | some companyId => [.org companyId]
    | none => []
  | .manager => managerRooms row.grants (d.managedDepartments row.id) sec
  | .user => []

/-- `roomsFor`: the rooms a portal socket joins in one namespace. -/
def Directory.roomsFor (d : Directory) (userId : ℕ) (orgHint : OrgHeader) (sec : LiveSection) :
    List Room :=
  match d.users.find? fun u => u.id = userId && u.deletedAt.isNone && u.status = .active with
  | none => []
  | some row => d.roomsOfAccount row orgHint sec

/-! ## Pushes -/

/-- `server.to(rooms).emit`: a socket gets the message once when it is in one of the rooms. -/
def reaches (joined rooms : List Room) : Bool := joined.any fun r => rooms.contains r

variable {d : Directory} {cache : UuidText → Option Bool} {me : AuthenticatedUser} {row t : Account}
  {header : OrgHeader} {joined rooms : List Room} {r : Room} {s : RoomSubject} {p : ℕ}
  {view : PartialActivityView} {ids : List ℕ} {g : ViewGrants} {sec : LiveSection}
  {joinedIn : LiveSection → List Room}

/-- A live update reaches a socket that has joined one of its rooms. -/
theorem reaches_iff : reaches joined rooms = true ↔ ∃ r ∈ joined, r ∈ rooms := by
  simp [reaches]

/-- The rooms of a signed-in account. -/
theorem roomsFor_eq (hrow : row ∈ d.users) (hlive : row.deletedAt = none)
    (hactive : row.status = .active) :
    d.roomsFor row.id header sec = d.roomsOfAccount row header sec := by
  unfold Directory.roomsFor
  rw [Table.find?_eq_some_of_key hrow (by simp [hlive, hactive])
    fun u hu => by simp only [Bool.and_eq_true, decide_eq_true_eq] at hu; exact hu.1.1]

end RxVision
