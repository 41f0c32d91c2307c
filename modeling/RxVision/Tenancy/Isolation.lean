import RxVision.Approvals.Decisions
import RxVision.Tenancy.People

/-!
# No way across organisations

`canSeePerson`, `canViewSection`, `canEditPerson` and `canDecide` are written in different modules
and share `inMyOrg`. Each of them lets a caller through only to the organisation the caller acts in;
the two exceptions are a Super Admin who edits a Super Manager, and a decision taken with "All
organisations" in view, which is judged inside the subject's own live organisation
(`TenantIsolated`). Nothing else of the organisations a caller names or belongs to is read
(`SameAnswers`).
-/

namespace RxVision

/-- The person belongs to the organisation the caller acts in. -/
def InActingOrg (me : AuthenticatedUser) (t : Account) : Prop :=
  ∃ org, orgOf me = some org ∧ t.facts.companyId = some org

/-- What the four predicates let `me` do with `t`, who is somebody else. -/
structure TenantIsolated (d : Directory) (me : AuthenticatedUser) (t : Account) : Prop where
  see : canSeePerson me t.facts = true → InActingOrg me t
  view : ∀ sec, canViewSection me t.facts sec = true → InActingOrg me t
  edit : canEditPerson me t.facts = true →
    InActingOrg me t ∨ me.role = .superAdmin ∧ t.role = .superManager
  decide : ∀ userId, BreakApprovalPolicy.canDecide me userId (some (d.toPerson t)) = true →
    InActingOrg me t ∨ allOrgsInView me = true ∧ ∃ c, d.InLiveOrg t c
  superAdmin : t.role = .superAdmin →
    canSeePerson me t.facts = false ∧ (∀ sec, canViewSection me t.facts sec = false) ∧
      canEditPerson me t.facts = false ∧
      ∀ userId, BreakApprovalPolicy.canDecide me userId (some (d.toPerson t)) = false
  viewSees : ∀ sec, canViewSection me t.facts sec = true → canSeePerson me t.facts = true
  decideSees : ∀ userId, BreakApprovalPolicy.canDecide me userId (some (d.toPerson t)) = true →
    ∃ acting, BreakApprovalPolicy.actorFor me (d.toPerson t) = some acting ∧
      canSeePerson acting t.facts = true

/-- The two callers differ in organisations only, and act in the same one or both in none or all. -/
structure DifferInOtherOrgs (me me' : AuthenticatedUser) : Prop where
  id : me'.id = me.id
  role : me'.role = me.role
  departmentId : me'.departmentId = me.departmentId
  managedDepartmentIds : me'.managedDepartmentIds = me.managedDepartmentIds
  grants : me'.grants = me.grants
  orgHeaderInvalid : me'.orgHeaderInvalid = me.orgHeaderInvalid
  orgDeleted : me'.orgDeleted = me.orgDeleted
  actsIn : orgOf me' = orgOf me

/-- The four predicates answer the two callers alike, whoever they are asked about. -/
structure SameAnswers (me me' : AuthenticatedUser) : Prop where
  see : ∀ t, canSeePerson me' t = canSeePerson me t
  view : ∀ t sec, canViewSection me' t sec = canViewSection me t sec
  edit : ∀ t, canEditPerson me' t = canEditPerson me t
  decide : ∀ userId subject, BreakApprovalPolicy.canDecide me' userId subject =
    BreakApprovalPolicy.canDecide me userId subject

variable {d d' : Directory} {cache cache' : UuidText → Option Bool} {me me' : AuthenticatedUser}
  {t : Account} {sec : Section}

/-! ## One predicate at a time -/

/-- A person in the caller's organisation is in the one the caller acts in. -/
theorem inMyOrg_acting (h : inMyOrg me t.facts = true) : InActingOrg me t := by
  unfold inMyOrg at h
  cases horg : orgOf me with
  | none => simp [horg] at h
  | some org => exact ⟨org, horg, by simpa [horg] using h⟩

/-- Somebody else is seen inside the acting organisation, and is no Super Admin. -/
theorem canSeePerson_inOrg (hne : t.id ≠ me.id) (h : canSeePerson me t.facts = true) :
    InActingOrg me t ∧ t.role ≠ .superAdmin := by
  obtain ⟨hin, hrole, -⟩ := (canSeePerson_iff hne).1 h
  exact ⟨inMyOrg_acting hin, hrole⟩

/-- A person with a section in view is in view. -/
theorem canSeePerson_of_canViewSection (hne : t.id ≠ me.id)
    (h : canViewSection me t.facts sec = true) : canSeePerson me t.facts = true := by
  have hid : ¬t.facts.id = me.id := hne
  unfold canViewSection at h
  rw [if_neg hid] at h
  cases hsee : canSeePerson me t.facts with
  | true => rfl
  | false => simp [hsee] at h

/-- Somebody is edited inside the acting organisation, or is a Super Manager and the caller a Super
Admin. -/
theorem canEditPerson_cases (h : canEditPerson me t.facts = true) :
    t.role ≠ .superAdmin ∧ (InActingOrg me t ∨ me.role = .superAdmin ∧ t.role = .superManager) := by
  unfold canEditPerson at h
  split at h
  · cases h
  · split at h
    · cases h
    · next hadmin =>
      refine ⟨hadmin, ?_⟩
      split at h
      · next hmanager => exact Or.inr ⟨of_decide_eq_true h, hmanager⟩
      · cases hin : inMyOrg me t.facts with
        | false => simp [hin] at h
        | true => exact Or.inl (inMyOrg_acting hin)

/-- A decision is taken by the caller, or by the caller acting in the subject's live
organisation. -/
theorem actorFor_cases {acting : AuthenticatedUser}
    (h : BreakApprovalPolicy.actorFor me (d.toPerson t) = some acting) :
    acting = me ∨ allOrgsInView me = true ∧ d.companyDeleted t = false ∧
      ∃ c, t.companyId = some c ∧ acting = actingIn me (.printed c) := by
  unfold BreakApprovalPolicy.actorFor at h
  cases hall : allOrgsInView me with
  | false =>
    simp only [hall, Bool.not_false, if_true, Option.some.injEq] at h
    exact Or.inl h.symm
  | true =>
    right
    cases hc : t.companyId with
    | none => simp [hall, Directory.toPerson, hc] at h
    | some c =>
      cases hdel : d.companyDeleted t with
      | true => simp [hall, Directory.toPerson, hc, hdel] at h
      | false =>
        simp only [hall, Directory.toPerson, hc, hdel, Bool.not_true, Bool.false_eq_true, if_false,
          Option.map_some, Option.some.injEq] at h
        exact ⟨rfl, rfl, c, rfl, h.symm⟩

/-- Acting in an organisation does not change who one is. -/
theorem actingIn_id (me : AuthenticatedUser) (org : UuidText) : (actingIn me org).id = me.id := by
  unfold actingIn
  split <;> rfl

/-- Whoever decides sees the subject. -/
theorem canDecide_cases {userId : ℕ}
    (h : BreakApprovalPolicy.canDecide me userId (some (d.toPerson t)) = true) :
    ∃ acting, BreakApprovalPolicy.actorFor me (d.toPerson t) = some acting ∧
      canSeePerson acting t.facts = true := by
  unfold BreakApprovalPolicy.canDecide at h
  split at h
  · cases h
  · cases hactor : BreakApprovalPolicy.actorFor me (d.toPerson t) with
    | none => simp [hactor] at h
    | some acting =>
      refine ⟨acting, rfl, ?_⟩
      cases hsee : canSeePerson acting t.facts with
      | true => rfl
      | false => simp [hactor, d.toPerson_facts t, hsee] at h

/-! ## All of them -/

/-- What the predicates let through stays in the organisation acted in. -/
theorem tenantIsolated (ht : t ∈ d.users) (hne : t.id ≠ me.id) : TenantIsolated d me t := by
  have hacting : ∀ {acting}, BreakApprovalPolicy.actorFor me (d.toPerson t) = some acting →
      t.id ≠ acting.id := by
    intro acting hactor
    rcases actorFor_cases hactor with rfl | ⟨-, -, c, -, rfl⟩
    · exact hne
    · rwa [actingIn_id]
  have hdecide : ∀ userId, BreakApprovalPolicy.canDecide me userId (some (d.toPerson t)) = true →
      t.role ≠ .superAdmin := by
    intro userId h
    obtain ⟨acting, hactor, hsee⟩ := canDecide_cases h
    exact (canSeePerson_inOrg (hacting hactor) hsee).2
  constructor
  case see => exact fun h => (canSeePerson_inOrg hne h).1
  case view =>
    exact fun _ h => (canSeePerson_inOrg hne (canSeePerson_of_canViewSection hne h)).1
  case edit => exact fun h => (canEditPerson_cases h).2
  case decide =>
    intro userId h
    obtain ⟨acting, hactor, hsee⟩ := canDecide_cases h
    rcases actorFor_cases hactor with rfl | ⟨hall, hdel, c, hc, -⟩
    · exact Or.inl (canSeePerson_inOrg hne hsee).1
    · exact Or.inr ⟨hall, (Directory.exists_inLiveOrg ht).2 ⟨⟨c, hc⟩, hdel⟩⟩
  case superAdmin =>
    intro hrole
    refine ⟨?_, fun sec => ?_, ?_, fun userId => ?_⟩
    · exact Bool.eq_false_iff.2 fun h => (canSeePerson_inOrg hne h).2 hrole
    · exact Bool.eq_false_iff.2 fun h =>
        (canSeePerson_inOrg hne (canSeePerson_of_canViewSection hne h)).2 hrole
    · exact Bool.eq_false_iff.2 fun h => (canEditPerson_cases h).1 hrole
    · exact Bool.eq_false_iff.2 fun h => hdecide userId h hrole
  case viewSees => exact fun _ h => canSeePerson_of_canViewSection hne h
  case decideSees => exact fun _ h => canDecide_cases h

/-! ## Organisations a caller does not act in -/

namespace DifferInOtherOrgs

variable (h : DifferInOtherOrgs me me')
include h

/-- Whether the whole organisation is in view does not depend on other organisations. -/
theorem seesWholeOrg_eq : seesWholeOrg me' = seesWholeOrg me := by
  simp only [seesWholeOrg, isAdminLike, isSuperManager, h.role]

/-- Nor do the managed departments. -/
theorem managedDeptIds_eq : managedDeptIds me' = managedDeptIds me := by
  simp only [managedDeptIds, h.role, h.managedDepartmentIds]

/-- Nor does who is in the organisation. -/
theorem inMyOrg_eq (t : PersonFacts) : inMyOrg me' t = inMyOrg me t := by
  simp only [inMyOrg, h.actsIn]

/-- Nor does who is in view. -/
theorem canSeePerson_eq (t : PersonFacts) : canSeePerson me' t = canSeePerson me t := by
  simp only [canSeePerson, h.id, h.role, h.inMyOrg_eq, h.seesWholeOrg_eq, h.managedDeptIds_eq]

/-- Acting in an organisation forgets the others. -/
theorem actingIn_differ (hrole : seesEveryOrg me.role = true) (org : UuidText) :
    DifferInOtherOrgs (actingIn me org) (actingIn me' org) := by
  have hrole' : seesEveryOrg me'.role = true := by rw [h.role, hrole]
  simp only [actingIn, hrole, hrole', if_true]
  exact ⟨h.id, h.role, h.departmentId, h.managedDepartmentIds, h.grants, rfl, rfl, by
    simp [orgOf, hrole, hrole']⟩

/-- The one of two signed-in callers has all organisations in view when the other has. -/
theorem allOrgsInView_eq (hme : d.SignedIn cache me) (hme' : d'.SignedIn cache' me') :
    allOrgsInView me' = allOrgsInView me := by
  obtain ⟨row, hl⟩ := hme.loadedFrom
  obtain ⟨row', hl'⟩ := hme'.loadedFrom
  cases hrole : seesEveryOrg me.role with
  | false =>
    have hrole' : seesEveryOrg me'.role = false := by rw [h.role, hrole]
    simp [allOrgsInView, hrole, hrole']
  | true =>
    have hrole' : seesEveryOrg me'.role = true := by rw [h.role, hrole]
    have horg : me'.orgId = me.orgId := by
      simpa [orgOf, hrole, hrole', (hl.picked hrole).1, (hl'.picked hrole').1] using h.actsIn
    simp only [allOrgsInView, hrole, hrole', horg, h.orgHeaderInvalid]

/-- The two decide alike as long as both or none of them have all organisations in view. -/
theorem canDecide_eq (hall : allOrgsInView me' = allOrgsInView me) (userId : ℕ)
    (subject : Option ApprovalSubject) : BreakApprovalPolicy.canDecide me' userId subject =
      BreakApprovalPolicy.canDecide me userId subject := by
  cases subject with
  | none => simp [BreakApprovalPolicy.canDecide]
  | some s =>
    cases hview : allOrgsInView me with
    | false =>
      simp only [BreakApprovalPolicy.canDecide, BreakApprovalPolicy.actorFor, hall, hview,
        Bool.not_false, if_true, h.id, h.role, h.canSeePerson_eq, h.seesWholeOrg_eq,
        h.managedDeptIds_eq]
    | true =>
      have hrole : seesEveryOrg me.role = true := by
        simp only [allOrgsInView, Bool.and_eq_true] at hview
        exact hview.1.1
      have hact := fun org => h.actingIn_differ hrole org
      simp only [BreakApprovalPolicy.canDecide, BreakApprovalPolicy.actorFor, hall, hview,
        Bool.not_true, Bool.false_eq_true, if_false, h.id]
      cases s.companyId with
      | none => rfl
      | some c =>
        cases s.companyDeleted with
        | true => rfl
        | false =>
          simp only [Bool.false_eq_true, if_false, (hact c).role, (hact c).canSeePerson_eq,
            (hact c).seesWholeOrg_eq, (hact c).managedDeptIds_eq]

/-- So all the predicates answer the same. -/
theorem sameAnswers (hall : allOrgsInView me' = allOrgsInView me) : SameAnswers me me' where
  see := h.canSeePerson_eq
  view t sec := by
    simp only [canViewSection, grantsOf, h.id, h.canSeePerson_eq, h.seesWholeOrg_eq, h.role,
      h.grants]
  edit t := by simp only [canEditPerson, h.id, h.role, h.inMyOrg_eq]
  decide := h.canDecide_eq hall

end DifferInOtherOrgs

/-- Whatever a signed-in caller may do with somebody else's account lies inside the organisation
the caller acts in, but for a Super Admin's edit of a Super Manager and a decision with all
organisations in view; and another caller that differs only in organisations neither acts in
gets the same answers. -/
theorem tenants_isolated (hme : d.SignedIn cache me) (ht : t ∈ d.users) (hne : t.id ≠ me.id) :
    TenantIsolated d me t ∧
      ∀ (d' : Directory) (cache' : UuidText → Option Bool) (me' : AuthenticatedUser),
        d'.SignedIn cache' me' → DifferInOtherOrgs me me' → SameAnswers me me' :=
  ⟨tenantIsolated ht hne, fun _ _ _ hme' h => h.sameAnswers (h.allOrgsInView_eq hme hme')⟩

/-- The Super Admin of `smallOrg` acts in its organisation, and asks about the Staff member. -/
theorem smallOrg_isolated :
    TenantIsolated smallOrg (pickingAdmin (.printed 0)) smallStaff ∧
      ∀ (d' : Directory) (cache' : UuidText → Option Bool) (me' : AuthenticatedUser),
        d'.SignedIn cache' me' → DifferInOtherOrgs (pickingAdmin (.printed 0)) me' →
          SameAnswers (pickingAdmin (.printed 0)) me' := by
  have hme : smallOrg.SignedIn (fun _ => none) (pickingAdmin (.printed 0)) :=
    ⟨0, .uuid (.printed 0), by decide, rfl⟩
  exact tenants_isolated hme (by decide) (by decide)

end RxVision
