import RxVision.Tenancy.Scope

/-!
# Roles and departments change (`people-placement.ts`, `departments.service.ts`)

An edit of a person's role and departments is checked into a `Placement`: every department in it is
a live one of the person's organisation. `updateUser` stores it and replaces the departments the
person manages; `removeDepartment` unassigns everybody from a department and marks it deleted. Both
keep a directory `Placed`: nobody is in, or manages, a department of another organisation.

View grants are left out but for whether the edit turns one on and whether it changes any: the first
is refused for Staff, the second is published like a change of role.
-/

namespace RxVision

/-- `PlacementInput`: what an edit asks for; what is missing keeps what the person has. -/
structure PlacementInput where
  role : Option Role := none
  departmentId : Option (Option ℕ) := none
  departmentIds : Option (List ℕ) := none
  grantsOn : Bool := false
  grantsChanged : Bool := false
  deriving DecidableEq, Repr

namespace Directory

/-- A live department of an organisation. -/
def DepartmentOf (d : Directory) (org p : ℕ) : Prop :=
  ∃ de ∈ d.departments, de.id = p ∧ de.companyId = org ∧ de.deletedAt = none

/-- `findInOrg`, asked for one id. -/
def isDepartmentOf (d : Directory) (org p : ℕ) : Bool :=
  d.departments.rows.any fun de => de.id = p && de.companyId = org && de.deletedAt.isNone

/-- The check of a department is that it is a live one of the organisation. -/
theorem isDepartmentOf_iff {d : Directory} {org p : ℕ} :
    d.isDepartmentOf org p = true ↔ d.DepartmentOf org p := by
  simp [isDepartmentOf, DepartmentOf, Table.mem_rows, and_assoc]

/-- `Placement`: a checked placement, a Staff member in one department or a Manager over some. -/
structure Placement (d : Directory) (org : ℕ) where
  role : Role
  departmentId : Option ℕ
  managed : List ℕ
  role_ok : role = .user ∨ role = .manager
  department_ok : ∀ p, departmentId = some p → d.DepartmentOf org p
  managed_ok : ∀ p ∈ managed, d.DepartmentOf org p

/-- The departments found in the organisation keep their promise. -/
theorem departmentOf_of_mem_filter {d : Directory} {org : ℕ} {l : List ℕ} {p : ℕ}
    (h : p ∈ l.filter (d.isDepartmentOf org)) : d.DepartmentOf org p :=
  isDepartmentOf_iff.1 (List.mem_filter.1 h).2

/-- A department that passes the check is one of the organisation. -/
theorem departmentOf_of_filter {d : Directory} {org : ℕ} {o : Option ℕ} {p : ℕ}
    (h : o.filter (d.isDepartmentOf org) = some p) : d.DepartmentOf org p := by
  obtain ⟨-, hp⟩ := Option.filter_eq_some_iff.1 h
  exact isDepartmentOf_iff.1 hp

/-- The departments a manager's edit asks for. -/
def managedIds (input : PlacementInput) (current : Account) (managedNow : List ℕ) : List ℕ :=
  input.departmentIds.getD
    (if current.role = .manager then managedNow else current.departmentId.toList)

/-- `resolvePlacement` in the organisation `org`, for somebody who is placed as `current`. -/
def resolvePlacement (d : Directory) (org : ℕ) (input : PlacementInput) (current : Account)
    (managedNow : List ℕ) : Except AppException (d.Placement org) :=
  let role := input.role.getD current.role
  let asked := (input.departmentId.join.toList ++ input.departmentIds.getD [])
  if hrole : role = .user ∨ role = .manager then
    if !asked.all (d.isDepartmentOf org) then
      .error (.notFound "That department does not exist in this organisation."
        "DEPARTMENT_NOT_FOUND")
    else if role = .user then
      if input.departmentIds.any fun ids => !ids.isEmpty then
        .error (.validation "Staff belong to one department. Use departmentId."
          "STAFF_ONE_DEPARTMENT")
      else if input.grantsOn then
        .error (.validation "Grants apply to managers only." "GRANTS_MANAGERS_ONLY")
      else
        match hp : (input.departmentId.getD current.departmentId).filter (d.isDepartmentOf org) with
        | none =>
          .error (.validation "Choose a department for this staff member." "DEPARTMENT_REQUIRED")
        | some p => .ok {
            role, departmentId := some p, managed := [], role_ok := hrole
            department_ok := fun q hq => by cases hq; exact departmentOf_of_filter hp
            managed_ok := by simp }
    else
      match hm : (managedIds input current managedNow).eraseDups.filter (d.isDepartmentOf org) with
      | [] =>
        .error (.validation "Choose at least one department for this manager."
          "DEPARTMENTS_REQUIRED")
      | first :: more => .ok {
          role
          departmentId := match input.departmentId with
            | some asked => asked.filter (d.isDepartmentOf org)
            | none => (current.departmentId.filter (d.isDepartmentOf org)).or (some first)
          managed := first :: more
          role_ok := hrole
          department_ok := by
            intro p hp
            have hfirst : d.DepartmentOf org first :=
              departmentOf_of_mem_filter (hm ▸ List.mem_cons_self)
            cases hd : input.departmentId with
            | some asked => rw [hd] at hp; exact departmentOf_of_filter hp
            | none =>
              rw [hd] at hp
              rcases Option.or_eq_some_iff.1 hp with h | ⟨-, h⟩
              · exact departmentOf_of_filter h
              · exact (Option.some.inj h) ▸ hfirst
          managed_ok := fun p hp => departmentOf_of_mem_filter (hm ▸ hp) }
  else
    .error (.validation
      "Choose Manager or Staff. An organisation's Admin is created from Organisations."
      "ROLE_NOT_ALLOWED")

/-- A placement gives the role asked for, or keeps the one held. -/
theorem resolvePlacement_role {d : Directory} {org : ℕ} {input : PlacementInput} {current : Account}
    {managedNow : List ℕ} {placement : d.Placement org}
    (h : d.resolvePlacement org input current managedNow = .ok placement) :
    placement.role = input.role.getD current.role := by
  unfold resolvePlacement at h
  dsimp only at h
  split at h
  · split at h
    · cases h
    · split at h
      · split at h
        · cases h
        · split at h
          · cases h
          · split at h
            · cases h
            · cases h
              rfl
      · split at h
        · cases h
        · cases h
          rfl
  · cases h

/-! ## Storing a placement -/

/-- `save`: the role and department of the person, and the set of departments they manage. -/
def place {org : ℕ} (d : Directory) (target : Account) (htarget : target ∈ d.users)
    (placement : d.Placement org) : Directory where
  companies := d.companies
  departments := d.departments
  users := d.users.updateMany (fun u => u.id = target.id)
    (fun u => { u with role := placement.role, departmentId := placement.departmentId })
      fun _ => rfl
  managerDepartments :=
    (d.managerDepartments.filter fun m =>
      m.managerId ≠ target.id || placement.managed.contains m.departmentId) ++
    (placement.managed.filter fun p => !d.managerDepartments.contains ⟨target.id, p⟩).map
      fun p => ⟨target.id, p⟩
  user_company := by
    intro u hu c hc
    obtain ⟨u', hu', rfl⟩ := Table.exists_of_mem_updateMany hu
    refine d.user_company u' hu' c ?_
    split at hc <;> exact hc
  user_department := by
    intro u hu p hp
    obtain ⟨u', hu', rfl⟩ := Table.exists_of_mem_updateMany hu
    split at hp
    · obtain ⟨de, hde, hid, -⟩ := placement.department_ok p hp
      exact ⟨de, hde, hid⟩
    · exact d.user_department u' hu' p hp
  managed_manager := by
    intro m hm
    have hstays : ∀ v ∈ d.users, ∃ v' ∈ d.users.updateMany (fun u => u.id = target.id)
        (fun u => { u with role := placement.role, departmentId := placement.departmentId })
        (fun _ => rfl), v'.id = v.id := by
      intro v hv
      refine ⟨_, Table.mem_updateMany_of_mem hv, ?_⟩
      split <;> rfl
    rcases List.mem_append.1 hm with h | h
    · obtain ⟨v, hv, hid⟩ := d.managed_manager m (List.mem_filter.1 h).1
      obtain ⟨v', hv', hid'⟩ := hstays v hv
      exact ⟨v', hv', hid'.trans hid⟩
    · obtain ⟨p, -, rfl⟩ := List.mem_map.1 h
      exact hstays target htarget
  managed_department := by
    intro m hm
    rcases List.mem_append.1 hm with h | h
    · exact d.managed_department m (List.mem_filter.1 h).1
    · obtain ⟨p, hp, rfl⟩ := List.mem_map.1 h
      obtain ⟨de, hde, hid, -⟩ := placement.managed_ok p (List.mem_filter.1 hp).1
      exact ⟨de, hde, hid⟩

/-- `managedDepartmentIds` of a person, as their entity reads it. -/
def managedDepartmentIds (d : Directory) (u : Account) : List ℕ :=
  if u.role = .manager then d.managedDepartments u.id else []

/-- `assertCanAssignRole`: who may give which role (`assignableRoles`). -/
def assertCanAssignRole (me : AuthenticatedUser) (role : Role) : Except AppException Unit :=
  let allowed : Bool := match role with
    | .superManager => me.role = .superAdmin
    | .manager => me.role = .superAdmin || me.role = .admin
    | .user => me.role = .superAdmin || me.role = .admin || me.role = .superManager
    | .superAdmin | .admin => true
  if allowed then .ok ()
  else
    .error (.forbidden
      (if me.role = .superManager then "The Super Manager adds and edits Staff only."
      else if role = .superManager then "Only a Super Admin can make someone a Super Manager."
      else "You cannot give that role.") "ROLE_NOT_ALLOWED")

/-- `sameIds`. -/
def sameIds (a b : List ℕ) : Bool := a.all b.contains && b.all a.contains

/-- What an edit leaves: the directory, and the people whose access is published as changed
(`UserAccessChangedEvent`, `ROLE`). -/
structure AccessChange where
  dir : Directory
  published : List ℕ

/-- `UpdateUserUseCase.execute`, the part that changes role and departments. -/
def updateUser (d : Directory) (me : AuthenticatedUser) (targetId : ℕ) (input : PlacementInput) :
    Except AppException AccessChange :=
  match hfound : d.users.find? fun u => u.id = targetId && u.deletedAt.isNone with
  | none => .error (.notFound "Unknown user" "NOT_FOUND")
  | some target =>
    do
      refuseIf (target.id = me.id) (.forbidden ("You can change your own name only. " ++
        "Ask your organisation admin to change anything else.") "FORBIDDEN")
      assertCanEdit me target.facts
      refuseIf (target.role = .superManager) (.forbidden
        "A Super Manager's role cannot be changed. Edit their name or email instead."
        "SUPER_MANAGER_ROLE_FIXED")
      (if input.role.any fun role => role ≠ target.role then
        assertCanAssignRole me (input.role.getD target.role) else .ok ())
      let org ← requireOrg me
      refuseIf (target.role = .admin) (.forbidden
        ("The organisation admin's role and departments cannot be changed. " ++
          "Edit their name or email instead.") "ADMIN_ROLE_FIXED")
      let placement ← d.resolvePlacement org.uuid input target (d.managedDepartmentIds target)
      return {
        dir := d.place target (Table.mem_of_find? hfound) placement
        published :=
          if placement.role ≠ target.role || placement.departmentId ≠ target.departmentId ||
            !sameIds placement.managed (d.managedDepartmentIds target) || input.grantsChanged
          then [target.id] else [] }

/-! ## Removing a department -/

/-- The tables after a department is deleted: nobody manages it or is in it. -/
def withoutDepartment (d : Directory) (id : ℕ) (now : ℤ) : Directory where
  companies := d.companies
  departments := d.departments.updateMany (fun de => de.id = id)
    (fun de => { de with deletedAt := some now }) fun _ => rfl
  users := d.users.updateMany (fun u => u.departmentId = some id)
    (fun u => { u with departmentId := none }) fun _ => rfl
  managerDepartments := d.managerDepartments.filter fun m => m.departmentId ≠ id
  user_company := by
    intro u hu c hc
    obtain ⟨u', hu', rfl⟩ := Table.exists_of_mem_updateMany hu
    refine d.user_company u' hu' c ?_
    split at hc <;> exact hc
  user_department := by
    intro u hu p hp
    obtain ⟨u', hu', rfl⟩ := Table.exists_of_mem_updateMany hu
    split at hp
    · cases hp
    · obtain ⟨de, hde, rfl⟩ := d.user_department u' hu' p hp
      refine ⟨_, Table.mem_updateMany_of_mem hde, ?_⟩
      split <;> rfl
  managed_manager := by
    intro m hm
    obtain ⟨v, hv, hid⟩ := d.managed_manager m (List.mem_filter.1 hm).1
    refine ⟨_, Table.mem_updateMany_of_mem hv, ?_⟩
    split <;> exact hid
  managed_department := by
    intro m hm
    obtain ⟨de, hde, hid⟩ := d.managed_department m (List.mem_filter.1 hm).1
    refine ⟨_, Table.mem_updateMany_of_mem hde, ?_⟩
    split <;> exact hid

/-- `DepartmentsService.remove`: an empty department goes, and its managers are told. -/
def removeDepartment (d : Directory) (me : AuthenticatedUser) (id : ℕ) (now : ℤ) :
    Except AppException AccessChange := do
  let org ← requireOrg me
  refuseIf (!isAdminLike me)
    (.forbidden "Only the organisation admin can change departments." "FORBIDDEN")
  refuseIf (!d.isDepartmentOf org.uuid id)
    (.notFound "That department does not exist." "DEPARTMENT_NOT_FOUND")
  refuseIf (d.users.rows.any fun u => u.departmentId = some id && u.deletedAt.isNone &&
      u.status = .active && u.role = .user)
    (.conflict "Move them to another department first." "DEPARTMENT_NOT_EMPTY")
  return {
    dir := d.withoutDepartment id now
    published :=
      ((d.managerDepartments.filter fun m => m.departmentId = id).map
        ManagerDepartment.managerId).eraseDups }

/-! ## Departments stay inside their organisation -/

/-- Nobody is in a department of another organisation, or manages one. -/
structure Placed (d : Directory) : Prop where
  member : ∀ u ∈ d.users, ∀ p, u.departmentId = some p → ∀ de ∈ d.departments, de.id = p →
    u.companyId = some de.companyId
  manager : ∀ m ∈ d.managerDepartments, ∀ u ∈ d.users, u.id = m.managerId →
    ∀ de ∈ d.departments, de.id = m.departmentId → u.companyId = some de.companyId

variable {d : Directory} {me : AuthenticatedUser} {now : ℤ}

/-- After an edit a row is as it was, or has the placement. -/
theorem mem_place {org : ℕ} {target : Account} {htarget : target ∈ d.users}
    {placement : d.Placement org} {u : Account}
    (hu : u ∈ (d.place target htarget placement).users) :
    ∃ u' ∈ d.users, u = if u'.id = target.id then
      { u' with role := placement.role, departmentId := placement.departmentId } else u' := by
  obtain ⟨u', hu', h⟩ := List.mem_map.1 hu
  exact ⟨u', hu', by simpa using h.symm⟩

/-- Every account is there after an edit. -/
theorem mem_place_of_mem {org : ℕ} {target : Account} {htarget : target ∈ d.users}
    {placement : d.Placement org} {u : Account} (hu : u ∈ d.users) :
    (if u.id = target.id then
      { u with role := placement.role, departmentId := placement.departmentId } else u) ∈
        (d.place target htarget placement).users :=
  List.mem_map.2 ⟨u, hu, by simp⟩

/-- Every account is there after a removal. -/
theorem mem_withoutDepartment_of_mem {id : ℕ} {u : Account} (hu : u ∈ d.users) :
    (if u.departmentId = some id then { u with departmentId := none } else u) ∈
      (d.withoutDepartment id now).users :=
  List.mem_map.2 ⟨u, hu, by simp⟩

/-- After a removal nobody is in the department. -/
theorem mem_withoutDepartment {id : ℕ} {u : Account}
    (hu : u ∈ (d.withoutDepartment id now).users) :
    ∃ u' ∈ d.users, u = if u'.departmentId = some id then { u' with departmentId := none }
      else u' := by
  obtain ⟨u', hu', h⟩ := List.mem_map.1 hu
  exact ⟨u', hu', by simpa using h.symm⟩

/-- After a removal the department is marked deleted. -/
theorem mem_withoutDepartment_departments {id : ℕ} {de : Department}
    (hde : de ∈ (d.withoutDepartment id now).departments) :
    ∃ de' ∈ d.departments, de = if de'.id =
        id then { de' with deletedAt := some now } else de' := by
  obtain ⟨de', hde', h⟩ := List.mem_map.1 hde
  exact ⟨de', hde', by simpa using h.symm⟩

/-- A placement puts nobody into another organisation's department. -/
theorem Placed.place {org : ℕ} (h : d.Placed) {target : Account} (htarget : target ∈ d.users)
    (horg : target.companyId = some org) (placement : d.Placement org) :
    (d.place target htarget placement).Placed where
  member := by
    intro u hu p hp de hde hid
    obtain ⟨u', hu', rfl⟩ := mem_place hu
    by_cases hsel : u'.id = target.id
    · obtain rfl := Table.eq_of_key hu' htarget hsel
      rw [if_pos rfl] at hp ⊢
      obtain ⟨de', hde', hid', hco, -⟩ := placement.department_ok p hp
      obtain rfl := Table.eq_of_key hde hde' (hid.trans hid'.symm)
      rw [horg, hco]
    · rw [if_neg hsel] at hp ⊢
      exact h.member u' hu' p hp de hde hid
  manager := by
    intro m hm u hu hmu de hde hid
    obtain ⟨u', hu', rfl⟩ := mem_place hu
    have hsame : (if u'.id = target.id then { u' with
        role := placement.role, departmentId := placement.departmentId } else u').companyId =
        u'.companyId := by split <;> rfl
    have hmu' : u'.id = m.managerId := by rw [← hmu]; split <;> rfl
    rw [hsame]
    rcases List.mem_append.1 hm with hm | hm
    · exact h.manager m (List.mem_filter.1 hm).1 u' hu' hmu' de hde hid
    · obtain ⟨p, hp, rfl⟩ := List.mem_map.1 hm
      obtain rfl := Table.eq_of_key hu' htarget hmu'
      obtain ⟨de', hde', hid', hco, -⟩ := placement.managed_ok p (List.mem_filter.1 hp).1
      obtain rfl := Table.eq_of_key hde hde' (hid.trans hid'.symm)
      rw [horg, hco]

/-- Nor does a removal. -/
theorem Placed.withoutDepartment (h : d.Placed) (id : ℕ) :
    (d.withoutDepartment id now).Placed where
  member := by
    intro u hu p hp de hde hid
    obtain ⟨u', hu', rfl⟩ := mem_withoutDepartment hu
    obtain ⟨de', hde', rfl⟩ := mem_withoutDepartment_departments hde
    split at hp
    · cases hp
    · rename_i hstays
      rw [if_neg hstays]
      have hmember := h.member u' hu' p hp de' hde' (by rw [← hid]; split <;> rfl)
      split <;> exact hmember
  manager := by
    intro m hm u hu hmu de hde hid
    obtain ⟨u', hu', rfl⟩ := mem_withoutDepartment hu
    obtain ⟨de', hde', rfl⟩ := mem_withoutDepartment_departments hde
    have hmanager := h.manager m (List.mem_filter.1 hm).1 u' hu' (by rw [← hmu]; split <;> rfl)
      de' hde' (by rw [← hid]; split <;> rfl)
    split <;> split <;> exact hmanager

/-! ## What an edit does -/

/-- Whoever may be edited, but a Super Manager, is of the organisation acted in. -/
theorem inMyOrg_of_canEdit {t : Account} {org : UuidText} {x : Unit}
    (hcan : assertCanEdit me t.facts = .ok x) (hmanager : t.role ≠ .superManager)
    (horg : requireOrg me = .ok org) : t.companyId = some org.uuid ∧ t.role ≠ .superAdmin := by
  have hedit : canEditPerson me t.facts = true := by
    unfold assertCanEdit at hcan
    split at hcan
    · cases hcan
    · split at hcan
      · cases hcan
      · rename_i hedit
        simpa using hedit
  unfold canEditPerson at hedit
  split at hedit
  · cases hedit
  split at hedit
  · cases hedit
  rename_i hsa
  split at hedit
  · rename_i hsm
    exact absurd hsm hmanager
  split at hedit
  · cases hedit
  rename_i hin
  have horg' : orgOf me = some org := by
    unfold requireOrg at horg
    split at horg
    · cases horg
    · cases ho : orgOf me with
      | some o => rw [ho] at horg; cases horg; rfl
      | none =>
        simp only [ho] at horg
        split at horg <;> cases horg
  have hin' : inMyOrg me t.facts = true := by simpa using hin
  simp only [inMyOrg, horg', Account.facts, decide_eq_true_eq, Option.map_eq_some_iff,
    UuidText.eq_printed] at hin'
  obtain ⟨c, hc, rfl, -⟩ := hin'
  exact ⟨hc, hsa⟩

/-- An edit places a Staff member or Manager of the organisation in view; a change of role is
published. -/
theorem updateUser_cases {targetId : ℕ} {input : PlacementInput} {change : AccessChange}
    (h : d.updateUser me targetId input = .ok change) :
    ∃ target, ∃ htarget : target ∈ d.users, ∃ org : UuidText, ∃ placement : d.Placement org.uuid,
      target.id = targetId ∧ target.deletedAt = none ∧ target.companyId = some org.uuid ∧
      (target.role = .user ∨ target.role = .manager) ∧
      placement.role = input.role.getD target.role ∧
      change.dir = d.place target htarget placement ∧
      (placement.role ≠ target.role → change.published = [target.id]) ∧
      (change.published = [target.id] ∨ change.published = []) := by
  unfold updateUser at h
  split at h
  · cases h
  rename_i target hfound
  have hsel := Table.find?_spec hfound
  simp only [Bool.and_eq_true, decide_eq_true_eq, Option.isNone_iff_eq_none] at hsel
  obtain ⟨-, -, h⟩ := bind_eq_ok h
  obtain ⟨_, hcan, h⟩ := bind_eq_ok h
  obtain ⟨_, hmanager, h⟩ := bind_eq_ok h
  obtain ⟨-, -, h⟩ := bind_eq_ok h
  obtain ⟨org, horg, h⟩ := bind_eq_ok h
  obtain ⟨_, hadmin, h⟩ := bind_eq_ok h
  obtain ⟨placement, hplacement, h⟩ := bind_eq_ok h
  cases h
  replace hmanager := of_decide_eq_false (refuseIf_eq_ok hmanager)
  replace hadmin := of_decide_eq_false (refuseIf_eq_ok hadmin)
  obtain ⟨hcompany, hsa⟩ := inMyOrg_of_canEdit hcan hmanager horg
  refine ⟨target, Table.mem_of_find? hfound, org, placement, hsel.1, hsel.2, hcompany, ?_,
    resolvePlacement_role hplacement, rfl, ?_, ?_⟩
  · cases hr : target.role with
    | superAdmin => exact absurd hr hsa
    | superManager => exact absurd hr hmanager
    | admin => exact absurd hr hadmin
    | manager => exact Or.inr rfl
    | user => exact Or.inl rfl
  · intro hne
    simp [hne]
  · dsimp only
    split
    · exact Or.inl rfl
    · exact Or.inr rfl

/-- Removing a department leaves the tables without it. -/
theorem removeDepartment_cases {id : ℕ} {change : AccessChange}
    (h : d.removeDepartment me id now = .ok change) : change.dir = d.withoutDepartment id now := by
  obtain ⟨_, -, h⟩ := bind_eq_ok h
  obtain ⟨_, -, h⟩ := bind_eq_ok h
  obtain ⟨_, -, h⟩ := bind_eq_ok h
  obtain ⟨_, -, h⟩ := bind_eq_ok h
  cases h
  rfl

end Directory

end RxVision
