import RxVision.Approvals.Items
import RxVision.Tenancy.Scope

/-!
# Routing and deciding (`shifts/application/break-approval.policy.ts`)

Who an item waits for (`route`) and who may decide it (`canDecide`), from the subject's role,
organisation and department at the time of asking.
-/

namespace RxVision

/-- The subject of an approval item, as far as routing needs it (`toPerson`). -/
structure ApprovalSubject where
  id : ℕ
  role : Role
  companyId : Option UuidText
  departmentId : Option ℕ
  companyDeleted : Bool
  deriving DecidableEq, Repr

/-- `toPerson`: an account row with its organisation. -/
def Directory.toPerson (d : Directory) (u : Account) : ApprovalSubject where
  id := u.id
  role := u.role
  companyId := u.companyId.map .printed
  departmentId := u.departmentId
  companyDeleted := d.companyDeleted u

/-- The facts of a subject that scope decisions need. -/
def ApprovalSubject.facts (s : ApprovalSubject) : PersonFacts where
  id := s.id
  role := s.role
  companyId := s.companyId
  departmentId := s.departmentId

/-- The person of an account has the account's role and placements. -/
theorem Directory.toPerson_facts (d : Directory) (u : Account) : (d.toPerson u).facts = u.facts :=
  rfl

namespace BreakApprovalPolicy

/-- `route`: whether an item needs a decision, and who it waits for. -/
def route (role : Role) (departmentId : Option ℕ) : AwayStatus × Routing :=
  if role = .superAdmin || role = .superManager || role = .admin then
    (.notRequired, ⟨none, none⟩)
  else if role = .user && departmentId.isSome then (.pending, ⟨some .manager, none⟩)
  else (.pending, ⟨some .admin, none⟩)

/-- `actorFor`: on "All organisations", the caller acting in the subject's live organisation. -/
def actorFor (actor : AuthenticatedUser) (subject : ApprovalSubject) : Option AuthenticatedUser :=
  if !allOrgsInView actor then some actor
  else
    match subject.companyId with
    | none => none
    | some c => if subject.companyDeleted then none else some (actingIn actor c)

/-- `canDecide`: whether `actor` may approve, reject or reopen an item of `subject`. -/
def canDecide (actor : AuthenticatedUser) (recordUserId : ℕ) (subject : Option ApprovalSubject) :
    Bool :=
  if recordUserId = actor.id then false
  else
    match subject with
    | none => false
    | some subject =>
      match actorFor actor subject with
      | none => false
      | some actor =>
        if !canSeePerson actor subject.facts then false
        else if seesWholeOrg actor then subject.role = .user || subject.role = .manager
        else if actor.role = .manager then
          subject.role = .user &&
            subject.departmentId.any fun p => (managedDeptIds actor).contains p
        else false

/-- An item of a Staff member or a Manager always waits for somebody. -/
theorem route_pending {role : Role} {departmentId : Option ℕ} (h : role = .user ∨ role = .manager) :
    (route role departmentId).1 = .pending ∧ (route role departmentId).2.approverRole ≠ none := by
  rcases h with rfl | rfl
  · cases departmentId <;> exact ⟨rfl, nofun⟩
  · exact ⟨rfl, nofun⟩

/-- Only an item of a Staff member waits for their Managers. -/
theorem role_of_route_manager {role : Role} {departmentId : Option ℕ}
    (h : (route role departmentId).2.approverRole = some .manager) : role = .user := by
  cases role <;> first | rfl | cases h

/-- A waiting item waits for the Admin unless it waits for the Managers. -/
theorem route_approverRole {role : Role} {departmentId : Option ℕ}
    (h : (route role departmentId).1 = .pending) :
    (route role departmentId).2.approverRole = some .manager ∨
      (route role departmentId).2.approverRole = some .admin := by
  cases role with
  | superAdmin | superManager | admin => cases h
  | manager => exact Or.inr rfl
  | user => cases departmentId with
    | none => exact Or.inr rfl
    | some p => exact Or.inl rfl

end BreakApprovalPolicy

end RxVision
