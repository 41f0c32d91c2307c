import RxVision.Approvals.Policy
import RxVision.Tenancy.People

/-!
# The approvals inbox (`prisma-approvals.reader.ts`, `approver-scope.ts`)

`approverScopeOf` says which items a caller's inbox lists, `scopeSql` is the condition the list
query puts on an item: the same rule as `canDecide`, as SQL over the tables of the directory.
`EXISTS` over a join is written as nested conditions, one table at a time.

`inbox_agrees_iff` is the agreement of the two on the scope `all`, under the one condition lists and
single-person checks already need (`PrintedFor`).
-/

namespace RxVision

/-- `ApprovalScope`: what an approvals query is limited to. -/
inductive ApprovalScope
  | all
  | subject (userId : ℕ)
  | org (companyId : UuidText) (excludeUserId : ℕ)
  | orgAdminMine (companyId : UuidText) (excludeUserId : ℕ)
  | anyOrg (companyId : Option UuidText) (adminMine : Bool) (excludeUserId : ℕ)
  | depts (companyId : UuidText) (departmentIds : List ℕ) (excludeUserId : ℕ)
  deriving DecidableEq, Repr

/-- Which of the caller's items: the ones waiting for them, or all they may decide. -/
inductive InboxScope
  | mine | all
  deriving DecidableEq, Repr

/-- `approverScopeOf`: the approval items a person decides, or none. -/
def approverScopeOf (me : AuthenticatedUser) (scope : InboxScope) (companyId : Option UuidText) :
    Option ApprovalScope :=
  if allOrgsInView me then some (.anyOrg companyId (isAdminLike me && scope ≠ .all) me.id)
  else
    match orgOf me with
    | none => none
    | some org =>
      if me.role = .manager then some (.depts org (managedDeptIds me) me.id)
      else if !seesWholeOrg me then none
      else if scope = .all || me.role = .superManager then some (.org org me.id)
      else some (.orgAdminMine org me.id)

namespace Directory

variable (d : Directory)

/-- `EXISTS (SELECT 1 FROM users su WHERE su.id = a.user_id AND ...)`. -/
def subjectWhere (a : ApprovalItem) (c : Account → Truth) : Truth :=
  .exist d.users.rows fun su => (Truth.ofBool (su.id = a.userId)).and (c su)

/-- `inOrg`: the subject belongs to the organisation. -/
def inOrg (companyId : UuidText) (a : ApprovalItem) : Truth :=
  d.subjectWhere a fun su => .eq su.companyId companyId.uuid

/-- The managers an item may wait for: active, not deleted, of a live department of the subject. -/
def hasManager (a : ApprovalItem) (su : Account) : Truth :=
  .exist d.managerDepartments fun md =>
    (Truth.eq su.departmentId md.departmentId).and <|
    (Truth.exist d.users.rows fun mu =>
      (Truth.ofBool (mu.id = md.managerId)).and <| (Truth.isNull mu.deletedAt).and <|
      (Truth.ofBool (mu.status = .active)).and <| (Truth.ofBool (mu.role = .manager)).and
        (.ofBool (mu.id ≠ a.userId))).and
    (.exist d.departments.rows fun de =>
      (Truth.ofBool (de.id = md.departmentId)).and (.isNull de.deletedAt))

/-- `ADMIN_POOL`: waiting for the Admin, escalated, or for a department without a manager. -/
def ADMIN_POOL (a : ApprovalItem) : Truth :=
  ((Truth.isIn a.approverRole [.admin, .superAdmin]).or (.isNotNull a.escalatedAt)).or
    ((Truth.eq a.approverRole .manager).and
      (.notExists d.users.rows fun su =>
        (Truth.ofBool (su.id = a.userId)).and (d.hasManager a su)))

/-- `scopeSql`: the condition of a scope on an item. -/
def scopeSql (scope : ApprovalScope) (a : ApprovalItem) : Truth :=
  match scope with
  | .all => .yes
  | .subject userId => .ofBool (a.userId = userId)
  | .org companyId excludeUserId =>
    (d.inOrg companyId a).and (.ofBool (a.userId ≠ excludeUserId))
  | .orgAdminMine companyId excludeUserId =>
    ((d.inOrg companyId a).and (.ofBool (a.userId ≠ excludeUserId))).and (d.ADMIN_POOL a)
  | .anyOrg companyId adminMine excludeUserId =>
    ((d.subjectWhere a fun su =>
        (Truth.exist d.companies.rows fun sc =>
          (Truth.eq su.companyId sc.id).and (.isNull sc.deletedAt)).and
        (match companyId with
          | some one => .eq su.companyId one.uuid
          | none => .yes)).and
      (.ofBool (a.userId ≠ excludeUserId))).and
      (if adminMine then d.ADMIN_POOL a else .yes)
  | .depts companyId departmentIds excludeUserId =>
    if departmentIds.isEmpty then .no
    else
      (d.subjectWhere a fun su =>
        ((Truth.eq su.companyId companyId.uuid).and (.ofBool (su.role = .user))).and
          (.isIn su.departmentId departmentIds)).and
      (.ofBool (a.userId ≠ excludeUserId))

end Directory

/-- An item matches a scope; no scope matches nothing. -/
def Directory.Listed (d : Directory) (scope : Option ApprovalScope) (a : ApprovalItem) : Prop :=
  match scope with
  | none => False
  | some s => (d.scopeSql s a).Holds

instance (d : Directory) (scope : Option ApprovalScope) (a : ApprovalItem) :
    Decidable (d.Listed scope a) :=
  match scope with
  | none => inferInstanceAs (Decidable False)
  | some s => inferInstanceAs (Decidable (d.scopeSql s a).Holds)

variable {d : Directory} {cache : UuidText → Option Bool} {me : AuthenticatedUser} {u row : Account}
  {a : ApprovalItem}

/-! ## The deciding side -/

/-- Acting for a person in that person's organisation does not change who decides. -/
theorem actorFor_id {acting : AuthenticatedUser} {s : ApprovalSubject}
    (h : BreakApprovalPolicy.actorFor me s = some acting) : acting.id = me.id := by
  unfold BreakApprovalPolicy.actorFor at h
  split at h
  · cases h
    rfl
  · split at h
    · cases h
    · split at h
      · cases h
      · cases h
        unfold actingIn
        split <;> rfl

/-- Whoever may see a Staff member or a Manager may decide for them, but nobody for themselves. -/
theorem canDecide_iff (ha : a.userId = u.id) (hrole : u.role = .user ∨ u.role = .manager) :
    BreakApprovalPolicy.canDecide me a.userId (some (d.toPerson u)) = true ↔
      a.userId ≠ me.id ∧ ∃ acting, BreakApprovalPolicy.actorFor me (d.toPerson u) = some acting ∧
        inMyOrg acting u.facts = true ∧ Visible acting u := by
  unfold BreakApprovalPolicy.canDecide
  by_cases hme : a.userId = me.id
  · simp [hme]
  rw [if_neg hme]
  dsimp only
  cases hact : BreakApprovalPolicy.actorFor me (d.toPerson u) with
  | none => simp
  | some acting =>
    dsimp only
    have hne : u.id ≠ acting.id := by rw [actorFor_id hact, ← ha]; exact hme
    have hsees := canSeePerson_iff (t := u) hne
    have hperson : (d.toPerson u).role = u.role := rfl
    have hdept : (d.toPerson u).departmentId = u.departmentId := rfl
    simp only [Directory.toPerson_facts, Option.some.injEq, exists_eq_left', ne_eq, hme,
      not_false_eq_true, true_and, ← hsees]
    by_cases hcan : canSeePerson acting u.facts = true
    · obtain ⟨-, -, hvis⟩ := hsees.1 hcan
      by_cases hwhole : seesWholeOrg acting = true
      · rcases hrole with hr | hr <;> simp [hcan, hwhole, hperson, hr]
      · obtain ⟨hm, hu, p, hp, hmem⟩ := hvis.resolve_left hwhole
        simp [hcan, hwhole, hm, hperson, hu, hdept, hp, hmem]
    · simp [hcan]

/-- Over all organisations one acts in that of the person, when it is not deleted. -/
theorem actorFor_allOrgs (hall : allOrgsInView me = true) :
    BreakApprovalPolicy.actorFor me (d.toPerson u) =
      u.companyId.bind fun c =>
        if d.companyDeleted u then none else some (actingIn me (.printed c)) := by
  unfold BreakApprovalPolicy.actorFor
  rw [hall]
  cases hc : u.companyId with
  | none => simp [Directory.toPerson, hc]
  | some c => simp [Directory.toPerson, hc]

/-- On "All organisations" the caller may decide for anybody else of a live organisation. -/
theorem canDecide_allOrgs (hu : u ∈ d.users) (ha : a.userId = u.id)
    (hrole : u.role = .user ∨ u.role = .manager) (hall : allOrgsInView me = true) :
    BreakApprovalPolicy.canDecide me a.userId (some (d.toPerson u)) = true ↔
      a.userId ≠ me.id ∧ ∃ c, d.InLiveOrg u c := by
  rw [canDecide_iff ha hrole, Directory.exists_inLiveOrg hu]
  have hsees : seesEveryOrg me.role = true := by
    simp only [allOrgsInView, Bool.and_eq_true] at hall
    exact hall.1.1
  refine and_congr_right fun _ => ?_
  rw [actorFor_allOrgs hall]
  cases hc : u.companyId with
  | none => simp
  | some c =>
    by_cases hdel : d.companyDeleted u = true
    · simp [hdel]
    have hacting : actingIn me (.printed c) =
        { me with orgId := some (.printed c), orgHeaderInvalid := false, orgDeleted := false } := by
      simp [actingIn, hsees]
    have horg : orgOf (actingIn me (.printed c)) = some (.printed c) := by
      simp [hacting, orgOf, hsees]
    have hwhole : seesWholeOrg (actingIn me (.printed c)) = true :=
      seesWholeOrg_of_seesEveryOrg (by rw [hacting]; exact hsees)
    have hsa : u.role ≠ .superAdmin := by rcases hrole with h | h <;> rw [h] <;> decide
    have hin : inMyOrg (actingIn me (.printed c)) u.facts = true := (inMyOrg_iff horg).2 ⟨hc, rfl⟩
    rw [Bool.not_eq_true] at hdel
    exact iff_of_true ⟨_, by simp [hdel], hin, hsa, Or.inl hwhole⟩ ⟨⟨c, rfl⟩, hdel⟩

/-- In one organisation: anybody else of it whom the caller sees, if it is named as
rows print it. -/
theorem canDecide_oneOrg (ha : a.userId = u.id) (hrole : u.role = .user ∨ u.role = .manager)
    (hall : allOrgsInView me = false) {org : UuidText} (horg : orgOf me = some org) :
    BreakApprovalPolicy.canDecide me a.userId (some (d.toPerson u)) = true ↔
      a.userId ≠ me.id ∧ (u.companyId = some org.uuid ∧ org.upper = 0) ∧ Visible me u := by
  have hact : BreakApprovalPolicy.actorFor me (d.toPerson u) = some me := by
    simp [BreakApprovalPolicy.actorFor, hall]
  rw [canDecide_iff ha hrole, hact, ← inMyOrg_iff horg]
  simp

/-- Who acts in no organisation decides nothing. -/
theorem not_canDecide_of_noOrg (ha : a.userId = u.id) (hrole : u.role = .user ∨ u.role = .manager)
    (hall : allOrgsInView me = false) (horg : orgOf me = none) :
    ¬BreakApprovalPolicy.canDecide me a.userId (some (d.toPerson u)) = true := by
  have hact : BreakApprovalPolicy.actorFor me (d.toPerson u) = some me := by
    simp [BreakApprovalPolicy.actorFor, hall]
  rw [canDecide_iff ha hrole, hact]
  simp [inMyOrg, horg]

/-! ## The listing side -/

/-- The subject of an item is one row, so a condition on it is one on that row. -/
theorem subjectWhere_holds (hu : u ∈ d.users) (ha : a.userId = u.id) {c : Account → Truth} :
    (d.subjectWhere a c).Holds ↔ (c u).Holds := by
  simp only [Directory.subjectWhere, Truth.holds_exist, Truth.holds_and, Truth.holds_ofBool,
    decide_eq_true_eq]
  constructor
  · rintro ⟨v, hv, hid, hc⟩
    obtain rfl := Table.eq_of_key hv hu (hid.trans ha)
    exact hc
  · intro hc
    exact ⟨u, hu, ha.symm, hc⟩

/-- Over all organisations the inbox lists what is of somebody else in a live organisation. -/
theorem listed_allOrgs (hu : u ∈ d.users) (ha : a.userId = u.id)
    (hall : allOrgsInView me = true) :
    d.Listed (approverScopeOf me .all none) a ↔ a.userId ≠ me.id ∧ ∃ c, d.InLiveOrg u c := by
  simp only [approverScopeOf, hall, if_true, Directory.Listed, Directory.scopeSql, ne_eq,
    not_true_eq_false, decide_false, Bool.and_false, Bool.false_eq_true, if_false,
    Truth.holds_and, Truth.holds_yes, and_true, Truth.holds_ofBool, decide_eq_true_eq,
    subjectWhere_holds hu ha, Truth.holds_exist, Truth.holds_eq, Truth.holds_isNull]
  rw [and_comm]
  refine and_congr_right fun _ => ?_
  constructor
  · rintro ⟨co, hco, hc, hlive⟩
    exact ⟨co.id, hc, co, hco, rfl, hlive⟩
  · rintro ⟨c, hc, co, hco, rfl, hlive⟩
    exact ⟨co, hco, hc, hlive⟩

/-- In one organisation the inbox lists what is of somebody else there who is visible to the caller,
and is for the caller's role to decide. -/
theorem listed_oneOrg (hu : u ∈ d.users) (ha : a.userId = u.id)
    (hrole : u.role = .user ∨ u.role = .manager) (hall : allOrgsInView me = false)
    {org : UuidText} (horg : orgOf me = some org) :
    d.Listed (approverScopeOf me .all none) a ↔
      a.userId ≠ me.id ∧ u.companyId = some org.uuid ∧ Visible me u := by
  have hsa : u.role ≠ .superAdmin := by rcases hrole with h | h <;> rw [h] <;> decide
  unfold approverScopeOf Visible
  simp only [hall, Bool.false_eq_true, if_false, horg]
  by_cases hm : me.role = .manager
  · have hwhole : seesWholeOrg me = false := by
      simp [seesWholeOrg, isAdminLike, isSuperManager, hm]
    simp only [hm, if_true, Directory.Listed, Directory.scopeSql, hwhole]
    cases hdepts : managedDeptIds me with
    | nil => simp
    | cons p ps =>
      simp [subjectWhere_holds hu ha, hsa, and_comm, and_assoc, and_left_comm]
  · cases hwhole : seesWholeOrg me with
    | false => simp [hm, Directory.Listed]
    | true =>
      simp [hm, Directory.Listed, Directory.scopeSql, Directory.inOrg,
        subjectWhere_holds hu ha, hsa, and_comm]

/-- Without an organisation it lists nothing. -/
theorem not_listed_of_noOrg (hall : allOrgsInView me = false) (horg : orgOf me = none) :
    ¬d.Listed (approverScopeOf me .all none) a := by
  simp [approverScopeOf, hall, horg, Directory.Listed]

/-! ## The two agree -/

/-- The inbox of all items lists an item exactly when the caller may decide it. -/
def InboxAgrees (d : Directory) (me : AuthenticatedUser) (u : Account) (a : ApprovalItem) : Prop :=
  d.Listed (approverScopeOf me .all none) a ↔
    BreakApprovalPolicy.canDecide me a.userId (some (d.toPerson u)) = true

/-- The inbox and the decision rule agree on an item of a Staff member or Manager exactly when the
organisation in view is named as its row prints it, or does not hold that person. -/
theorem inbox_agrees_iff (hme : d.SignedIn cache me) (hu : u ∈ d.users) (ha : a.userId = u.id)
    (hrole : u.role = .user ∨ u.role = .manager) : InboxAgrees d me u a ↔ PrintedFor me u := by
  obtain ⟨row, h⟩ := hme.loadedFrom
  have hsa : u.role ≠ .superAdmin := by rcases hrole with h | h <;> rw [h] <;> decide
  unfold InboxAgrees
  cases hall : allOrgsInView me with
  | true =>
    rw [listed_allOrgs hu ha hall, canDecide_allOrgs hu ha hrole hall]
    refine iff_of_true Iff.rfl fun org horg => ?_
    simp [allOrgsInView, horg] at hall
  | false =>
    cases horg : orgOf me with
    | none =>
      refine iff_of_true (iff_of_false (not_listed_of_noOrg hall horg)
        (not_canDecide_of_noOrg ha hrole hall horg)) fun org hpicked => ?_
      exact absurd hpicked (h.orgId_of_orgOf_none horg)
    | some org =>
      rw [listed_oneOrg hu ha hrole hall horg, canDecide_oneOrg ha hrole hall horg]
      constructor
      · intro hiff org' hpicked
        obtain rfl := orgOf_of_orgId hpicked horg
        by_contra hbad
        obtain ⟨hup, hbad⟩ := not_or.1 hbad
        have hin := not_not.1 (not_or.1 hbad).1
        have hrole' : seesEveryOrg me.role = true := by
          cases hrole' : seesEveryOrg me.role with
          | true => rfl
          | false => exact absurd (orgOf_printed h hrole' horg) hup
        have hother : a.userId ≠ me.id := by
          intro hself
          have hrow := Table.eq_of_key hu h.mem (by rw [← ha, hself, h.id])
          rw [← h.role, ← hrow] at hrole'
          rcases hrole with hr | hr <;> rw [hr] at hrole' <;> cases hrole'
        have hvis : Visible me u := ⟨hsa, Or.inl (seesWholeOrg_of_seesEveryOrg hrole')⟩
        exact hup (hiff.1 ⟨hother, hin, hvis⟩).2.1.2
      · intro hprinted
        refine and_congr_right fun _ => and_congr_left fun _ => ⟨fun hin => ⟨hin, ?_⟩, And.left⟩
        cases hrole' : seesEveryOrg me.role with
        | false => exact orgOf_printed h hrole' horg
        | true =>
          have hpicked : me.orgId = some org := by
            simpa [orgOf, (h.picked hrole').1, hrole'] using horg
          rcases hprinted org hpicked with hup | hout | hsa'
          · exact hup
          · exact absurd hin hout
          · exact absurd hsa' hsa

/-- A break of Staff 2 of `smallOrg`, waiting. -/
def smallItem : ApprovalItem where
  id := 0
  type := .brk
  userId := 2
  date := ⟨0⟩
  startedAt := 0
  status := .pending
  approverRole := some .manager

/-- With the organisation's id in other letters, the inbox lists what the rule refuses to decide. -/
theorem upperCase_inbox_disagrees :
    ∃ cache me u a, smallOrg.SignedIn cache me ∧ u ∈ smallOrg.users ∧ a.userId = u.id ∧
      a.status = .pending ∧ u.role = .user ∧ ¬InboxAgrees smallOrg me u a := by
  refine ⟨fun _ => none, pickingAdmin ⟨0, 1⟩, smallStaff, smallItem,
    ⟨0, .uuid ⟨0, 1⟩, by decide, rfl⟩, by decide, rfl, rfl, rfl, ?_⟩
  intro hagrees
  have hlisted : (smallOrg.scopeSql (.org ⟨0, 1⟩ 0) smallItem).Holds := by decide
  exact absurd (hagrees.1 hlisted) (by decide)

/-- As the row prints it, the same pick lists and decides the same item. -/
theorem printed_inbox_agrees :
    InboxAgrees smallOrg (pickingAdmin (.printed 0)) smallStaff smallItem := by
  have hme : smallOrg.SignedIn (fun _ => none) (pickingAdmin (.printed 0)) :=
    ⟨0, .uuid (.printed 0), by decide, rfl⟩
  have hu : smallStaff ∈ smallOrg.users := by decide
  refine (inbox_agrees_iff hme hu rfl (Or.inl rfl)).2 ?_
  intro org horg
  cases horg
  exact Or.inl rfl

end RxVision
