import RxVision.Lib.Sql
import RxVision.Tenancy.Directory

/-!
# Who sees whom (`shared/tenancy/scope.ts`, `shared/tenancy/combined.ts`)

A signed-in caller is what `loadById` reads of their account (`prisma-auth-user-reader.ts`); a Super
Admin or Super Manager also names an organisation with the `X-Org-Id` header. `canSeePerson` judges
one person, `peopleWhere` and `peopleWhereAnyOrg` are the same matrix as a condition on `users`. A
condition is the function from the directory and the row to its truth value.

The header is read by its cases: the text is trimmed, blank and `all` name no organisation, and a
text that is not a UUID names none that exists. The answers of the 30-second cache of `orgExists`
are a parameter, so every statement holds for whatever it remembers.
-/

namespace RxVision

/-- The exceptions of `shared/exceptions`, with their message and code. -/
inductive AppException
  | notFound (message code : String)
  | validation (message code : String)
  | forbidden (message code : String)
  | conflict (message code : String)
  deriving DecidableEq, Repr

/-- A check that throws. -/
def refuseIf (p : Bool) (e : AppException) : Except AppException Unit :=
  if p then .error e else .ok ()

/-- A request that goes on went through the check before. -/
theorem bind_eq_ok {α β : Type} {x : Except AppException α} {f : α → Except AppException β} {b : β}
    (h : x >>= f = .ok b) : ∃ a, x = .ok a ∧ f a = .ok b := by
  cases x with
  | error e => cases h
  | ok a => exact ⟨a, rfl, h⟩

/-- What passes a refusal does not meet its condition. -/
theorem refuseIf_eq_ok {p : Bool} {e : AppException} {u : Unit} (h : refuseIf p e = .ok u) :
    p = false := by
  cases p with
  | true => cases h
  | false => rfl

/-- `AuthenticatedUser`, as far as scope rules read it. -/
structure AuthenticatedUser where
  id : ℕ
  role : Role
  companyId : Option UuidText
  status : UserStatus
  orgId : Option UuidText := none
  orgHeaderInvalid : Bool := false
  orgDeleted : Bool := false
  departmentId : Option ℕ := none
  managedDepartmentIds : List ℕ := []
  grants : Option ViewGrants := none
  deriving DecidableEq, Repr

/-- The `X-Org-Id` header after `trim`. -/
inductive OrgHeader
  | blank | all | uuid (text : UuidText) | other
  deriving DecidableEq, Repr

/-- The facts about a person that scope decisions need. -/
structure PersonFacts where
  id : ℕ
  role : Role
  companyId : Option UuidText
  departmentId : Option ℕ
  deriving DecidableEq, Repr

/-- An account row as a person; a row prints its organisation's id. -/
def Account.facts (u : Account) : PersonFacts where
  id := u.id
  role := u.role
  companyId := u.companyId.map .printed
  departmentId := u.departmentId

/-! ## Signing in -/

namespace Directory

variable (d : Directory)

/-- The departments a Manager is assigned to, deleted ones left out. -/
def managedDepartments (managerId : ℕ) : List ℕ :=
  (d.managerDepartments.filter fun m => m.managerId = managerId &&
    d.departments.rows.any fun de => de.id = m.departmentId && de.deletedAt.isNone).map
      ManagerDepartment.departmentId

/-- `orgExists`: what the cache remembers of this text, else whether a live organisation has it. -/
def orgExists (cache : UuidText → Option Bool) (text : UuidText) : Bool :=
  (cache text).getD (d.companies.rows.any fun c => c.id = text.uuid && c.deletedAt.isNone)

/-- The organisation the header puts in view: the picked one, and whether the header is invalid. -/
def pickedOrg (cache : UuidText → Option Bool) : OrgHeader → Option UuidText × Bool
  | .blank | .all => (none, false)
  | .uuid text => if d.orgExists cache text then (some text, false) else (none, true)
  | .other => (none, true)

/-- `loadById`. -/
def loadById (cache : UuidText → Option Bool) (id : ℕ) (orgHeader : OrgHeader) :
    Option AuthenticatedUser :=
  match d.users.find? fun u => u.id = id && u.deletedAt.isNone with
  | none => none
  | some row =>
    let orgDeleted := !seesEveryOrg row.role && d.companyDeleted row
    let picked := d.pickedOrg cache orgHeader
    some {
      id := row.id
      role := row.role
      companyId := row.companyId.map .printed
      status := row.status
      orgId := if seesEveryOrg row.role then picked.1
        else if orgDeleted then none else row.companyId.map .printed
      orgHeaderInvalid := seesEveryOrg row.role && picked.2
      orgDeleted
      departmentId := row.departmentId
      managedDepartmentIds := if row.role = .manager then d.managedDepartments row.id else []
      grants := if row.role = .manager then some row.grants else none }

/-- A caller as the guards let one in: an active account with whatever header it sent. -/
def SignedIn (cache : UuidText → Option Bool) (me : AuthenticatedUser) : Prop :=
  ∃ id orgHeader, d.loadById cache id orgHeader = some me ∧ me.status = .active

end Directory

/-! ## The organisation a request acts in -/

/-- `orgOf`: the organisation this request acts in. -/
def orgOf (me : AuthenticatedUser) : Option UuidText :=
  if me.orgDeleted then none
  else if seesEveryOrg me.role then me.orgId
  else me.orgId <|> me.companyId

/-- `requireOrg`: `orgOf`, or the right refusal. -/
def requireOrg (me : AuthenticatedUser) : Except AppException UuidText :=
  if me.orgHeaderInvalid || me.orgDeleted then
    .error (.notFound "That organisation does not exist." "ORG_NOT_FOUND")
  else
    match orgOf me with
    | some org => .ok org
    | none =>
      if seesEveryOrg me.role then
        .error (.validation "Choose an organisation first." "ORG_REQUIRED")
      else
        .error (.forbidden
          "Your account is not part of an organisation yet. Ask your administrator."
          "NO_ORGANISATION")

/-- `isAdminLike`. -/
def isAdminLike (me : AuthenticatedUser) : Bool := me.role = .admin || me.role = .superAdmin

/-- `isSuperManager`. -/
def isSuperManager (me : AuthenticatedUser) : Bool := me.role = .superManager

/-- `seesWholeOrg`: sees everyone in the organisation it acts in. -/
def seesWholeOrg (me : AuthenticatedUser) : Bool := isAdminLike me || isSuperManager me

/-- `managedDeptIds`. -/
def managedDeptIds (me : AuthenticatedUser) : List ℕ :=
  if me.role = .manager then me.managedDepartmentIds else []

/-- `orgInView`: the organisation picked, or none for "All organisations". -/
def orgInView (me : AuthenticatedUser) : Except AppException (Option UuidText) :=
  if me.orgHeaderInvalid then
    .error (.notFound "That organisation does not exist." "ORG_NOT_FOUND")
  else if seesEveryOrg me.role then .ok me.orgId
  else (requireOrg me).map some

/-- `allOrgsInView`: a caller of every organisation with none picked. -/
def allOrgsInView (me : AuthenticatedUser) : Bool :=
  seesEveryOrg me.role && !me.orgHeaderInvalid && me.orgId.isNone

/-- `actingIn`: the same caller acting in one organisation. -/
def actingIn (me : AuthenticatedUser) (companyId : UuidText) : AuthenticatedUser :=
  if seesEveryOrg me.role then
    { me with orgId := some companyId, orgHeaderInvalid := false, orgDeleted := false }
  else me

/-! ## One person -/

/-- `inMyOrg`: whether `t` belongs to the organisation the caller acts in. -/
def inMyOrg (me : AuthenticatedUser) (t : PersonFacts) : Bool :=
  match orgOf me with
  | some org => t.companyId = some org
  | none => false

/-- `canSeePerson`: whether the caller may read `t` at all. -/
def canSeePerson (me : AuthenticatedUser) (t : PersonFacts) : Bool :=
  if t.id = me.id then true
  else if t.role = .superAdmin then false
  else if !inMyOrg me t then false
  else if seesWholeOrg me then true
  else if me.role = .manager then
    t.role = .user && t.departmentId.any fun p => (managedDeptIds me).contains p
  else false

/-- `Section`: a detail section of a person's day. -/
inductive Section
  | screenshots | timeline | activity
  deriving DecidableEq, Repr

/-- The grant of one section. -/
def ViewGrants.has (g : ViewGrants) : Section → Bool
  | .screenshots => g.screenshots
  | .timeline => g.timeline
  | .activity => g.activity

/-- `grantsOf`. -/
def grantsOf (me : AuthenticatedUser) : ViewGrants :=
  if seesWholeOrg me then ⟨true, true, true⟩
  else if me.role = .manager then me.grants.getD NO_GRANTS
  else NO_GRANTS

/-- `canViewSection`: whether the caller may see one detail section of `t`. -/
def canViewSection (me : AuthenticatedUser) (t : PersonFacts) (sec : Section) : Bool :=
  if t.id = me.id then true
  else if !canSeePerson me t then false
  else (grantsOf me).has sec

/-- `canEditPerson`: whether the caller may change `t`. -/
def canEditPerson (me : AuthenticatedUser) (t : PersonFacts) : Bool :=
  if t.id = me.id then false
  else if t.role = .superAdmin then false
  else if t.role = .superManager then me.role = .superAdmin
  else if !inMyOrg me t then false
  else
    match me.role with
    | .superAdmin => true
    | .admin => t.role = .manager || t.role = .user
    | .superManager => t.role = .user
    | .manager | .user => false

/-- `assertCanEdit`: 404 outside the caller's scope, 403 when visible but not editable. -/
def assertCanEdit (me : AuthenticatedUser) (t : PersonFacts) : Except AppException Unit :=
  if !canSeePerson me t && !canEditPerson me t then
    .error (.notFound "Unknown user" "NOT_FOUND")
  else if !canEditPerson me t then
    .error (.forbidden
      (if t.id = me.id then "You cannot change your own account here."
      else if me.role = .superManager then
        "The Super Manager changes Staff only; Managers and admins are read-only."
      else "Only the organisation admin can change people.") "FORBIDDEN")
  else .ok ()

/-! ## Lists -/

/-- A `where` on `users`. -/
abbrev UserWhere := Directory → Account → Truth

/-- The options of `peopleWhere`. -/
structure PeopleOpts where
  includeDeleted : Bool := false
  includeSelf : Bool := false
  deriving DecidableEq, Repr

/-- `base` of `peopleWhere`: the accounts of one organisation but its Super Admins. -/
def orgWhere (org : UuidText) (opts : PeopleOpts) : UserWhere := fun _ u =>
  ((Truth.eq u.companyId org.uuid).and (.ofBool (u.role ≠ .superAdmin))).and
    (if opts.includeDeleted then .yes else .isNull u.deletedAt)

/-- The alternatives of `peopleWhere` for a caller who does not see the whole organisation. -/
def visibleWhere (me : AuthenticatedUser) (opts : PeopleOpts) : List UserWhere :=
  (if me.role = .manager && !(managedDeptIds me).isEmpty then
    [fun _ u => (Truth.ofBool (u.role = .user)).and (.isIn u.departmentId (managedDeptIds me))]
  else []) ++
    if opts.includeSelf then [fun _ u => .ofBool (u.id = me.id)] else []

/-- `peopleWhere`: everyone the caller may see in lists. -/
def peopleWhere (me : AuthenticatedUser) (opts : PeopleOpts) : Except AppException UserWhere :=
  (requireOrg me).map fun org =>
    let base := orgWhere org opts
    if seesWholeOrg me then base
    else
      match visibleWhere me opts with
      | [] => fun d u => (base d u).and (.isIn (some u.id) [])
      | visible => fun d u => (base d u).and (visible.foldr (fun w t => (w d u).or t) .no)

/-- The condition of the combined lists: everyone in every live organisation but Super Admins. -/
def anyOrgWhere (opts : PeopleOpts) : UserWhere := fun d u =>
  ((Truth.isNotNull u.companyId).and
    (.exist d.companies.rows fun c => (Truth.eq u.companyId c.id).and (.isNull c.deletedAt))).and
  ((Truth.ofBool (u.role ≠ .superAdmin)).and
    (if opts.includeDeleted then .yes else .isNull u.deletedAt))

/-- `peopleWhereAnyOrg`: `peopleWhere`, except with "All organisations" in view. -/
def peopleWhereAnyOrg (me : AuthenticatedUser) (opts : PeopleOpts) :
    Except AppException UserWhere :=
  if !seesEveryOrg me.role then peopleWhere me opts
  else
    match orgInView me with
    | .error e => .error e
    | .ok (some _) => peopleWhere me opts
    | .ok none => .ok (anyOrgWhere opts)

end RxVision
