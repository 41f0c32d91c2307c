import RxVision.Tenancy.Scope

/-!
# Lists and single-person checks

`peopleWhere` and `canSeePerson` write the visibility matrix twice. They agree on every account but
for one kind of caller: the header is accepted in any letter case (the UUID test ignores it, and so
does the database) while `inMyOrg` compares the text with the one the row prints. So a Super Admin
or Super Manager who names their organisation in other letters lists people they are told do not
exist. `lists_agree_iff` says exactly when the two agree.
-/

namespace RxVision

variable {d : Directory} {cache : UuidText → Option Bool} {me : AuthenticatedUser} {t u : Account}
  {opts : PeopleOpts}

/-! ## What signing in gives -/

/-- What is known of a signed-in caller: their account, and the organisation they act in. -/
structure LoadedFrom (d : Directory) (me : AuthenticatedUser) (row : Account) : Prop where
  mem : row ∈ d.users
  id : row.id = me.id
  role : row.role = me.role
  live : row.deletedAt = none
  /-- Everyone but the Super Admin and the Super Manager acts in their own organisation. -/
  own : seesEveryOrg me.role = false →
    me.orgId = (if me.orgDeleted then none else row.companyId.map .printed) ∧
      me.companyId = row.companyId.map .printed ∧ me.orgHeaderInvalid = false
  /-- A Super Admin or Super Manager acts in the picked one, and in none after an invalid header. -/
  picked : seesEveryOrg me.role = true →
    me.orgDeleted = false ∧ (me.orgHeaderInvalid = true → me.orgId = none)
  deleted : me.orgDeleted = (!seesEveryOrg me.role && d.companyDeleted row)
  managed : me.managedDepartmentIds = if me.role = .manager then d.managedDepartments me.id else []

/-- A header that names no live organisation picks none. -/
theorem pickedOrg_invalid {header : OrgHeader} (h : (d.pickedOrg cache header).2 = true) :
    (d.pickedOrg cache header).1 = none := by
  cases header with
  | blank | all => cases h
  | other => rfl
  | uuid text =>
    cases hex : d.orgExists cache text with
    | true => simp [Directory.pickedOrg, hex] at h
    | false => simp [Directory.pickedOrg, hex]

/-- A signed-in caller was loaded from a row of the accounts (`loadById`). -/
theorem Directory.SignedIn.loadedFrom (h : d.SignedIn cache me) : ∃ row, LoadedFrom d me row := by
  obtain ⟨id, header, hload, -⟩ := h
  unfold loadById at hload
  split at hload
  · cases hload
  · rename_i row hrow
    cases hload
    have hsel := Table.find?_spec hrow
    simp only [Bool.and_eq_true, decide_eq_true_eq, Option.isNone_iff_eq_none] at hsel
    refine ⟨row, Table.mem_of_find? hrow, rfl, rfl, hsel.2, ?_, ?_, rfl, rfl⟩
    · intro hrole
      have hrole' : seesEveryOrg row.role = false := hrole
      simp [hrole']
    · intro hrole
      have hrole' : seesEveryOrg row.role = true := hrole
      simpa [hrole'] using pickedOrg_invalid

/-! ## The organisation a caller acts in -/

/-- A caller that sees every organisation is not a Manager and sees the whole of the one
it acts in. -/
theorem seesWholeOrg_of_seesEveryOrg (h : seesEveryOrg me.role = true) :
    seesWholeOrg me = true := by
  unfold seesEveryOrg at h
  unfold seesWholeOrg isAdminLike isSuperManager
  cases hr : me.role <;> simp_all

/-- A caller with an acting organisation is refused nothing by `requireOrg`, and is given
that organisation. -/
theorem requireOrg_eq_ok {row : Account} (h : LoadedFrom d me row) {org : UuidText}
    (horg : orgOf me = some org) : requireOrg me = .ok org := by
  have hdel : me.orgDeleted = false := by
    cases hdel : me.orgDeleted with
    | false => rfl
    | true => simp [orgOf, hdel] at horg
  have hheader : me.orgHeaderInvalid = false := by
    cases hrole : seesEveryOrg me.role with
    | false => exact (h.own hrole).2.2
    | true =>
      cases hinv : me.orgHeaderInvalid with
      | false => rfl
      | true =>
        have hnone := (h.picked hrole).2 hinv
        simp [orgOf, hdel, hrole, hnone] at horg
  simp [requireOrg, hdel, hheader, horg]

/-- Somebody who does not see every organisation acts in one as its row prints it, in
small letters. -/
theorem orgOf_printed {row : Account} (h : LoadedFrom d me row)
    (hrole : seesEveryOrg me.role = false) {org : UuidText} (horg : orgOf me = some org) :
    org.upper = 0 := by
  obtain ⟨horgId, hcompany, -⟩ := h.own hrole
  have hdel : me.orgDeleted = false := by
    cases hdel : me.orgDeleted with
    | false => rfl
    | true => simp [orgOf, hdel] at horg
  have hown : row.companyId.map .printed = some org := by
    simpa [orgOf, hdel, hrole, horgId, hcompany] using horg
  obtain ⟨c, -, rfl⟩ := Option.map_eq_some_iff.1 hown
  rfl

/-- The organisation in `orgId` is the one acted in. -/
theorem orgOf_of_orgId {org org' : UuidText} (hpicked : me.orgId = some org')
    (horg : orgOf me = some org) : org' = org := by
  unfold orgOf at horg
  split at horg
  · cases horg
  · split at horg
    · exact Option.some.inj (hpicked.symm.trans horg)
    · rw [hpicked] at horg
      exact Option.some.inj horg

/-- A caller who acts in no organisation has picked none, or a deleted one. -/
theorem LoadedFrom.orgId_of_orgOf_none {row : Account} (h : LoadedFrom d me row)
    (horg : orgOf me = none) {org : UuidText} : me.orgId ≠ some org := by
  intro hpicked
  have hdel : me.orgDeleted = true := by
    cases hdel : me.orgDeleted with
    | true => rfl
    | false => simp [orgOf, hdel, hpicked] at horg
  cases hrole : seesEveryOrg me.role with
  | true => rw [(h.picked hrole).1] at hdel; cases hdel
  | false =>
    have hown := (h.own hrole).1
    rw [hdel, hpicked] at hown
    cases hown

/-- Whether somebody belongs to the acting organisation: the same value in the same letters. -/
theorem inMyOrg_iff {org : UuidText} (horg : orgOf me = some org) :
    inMyOrg me t.facts = true ↔ t.companyId = some org.uuid ∧ org.upper = 0 := by
  simp only [inMyOrg, horg, Account.facts, decide_eq_true_eq, Option.map_eq_some_iff,
    UuidText.eq_printed]
  constructor
  · rintro ⟨c, hc, rfl, hup⟩
    exact ⟨hc, hup⟩
  · rintro ⟨hc, hup⟩
    exact ⟨_, hc, rfl, hup⟩

/-! ## The two sides of the matrix -/

/-- What the matrix asks of somebody else than the caller, apart from their organisation. -/
def Visible (me : AuthenticatedUser) (t : Account) : Prop :=
  t.role ≠ .superAdmin ∧
    (seesWholeOrg me = true ∨
      (me.role = .manager ∧ t.role = .user ∧
        ∃ p, t.departmentId = some p ∧ p ∈ managedDeptIds me))

/-- A Manager's test on the department of a person. -/
theorem any_mem {o : Option ℕ} {l : List ℕ} :
    (o.any fun p => decide (p ∈ l)) = true ↔ ∃ p, o = some p ∧ p ∈ l := by
  cases o <;> simp

/-- Another person is in view when they are in the acting organisation and visible to the
caller's role in it. -/
theorem canSeePerson_iff (hne : t.id ≠ me.id) :
    canSeePerson me t.facts = true ↔ inMyOrg me t.facts = true ∧ Visible me t := by
  have hid : ¬t.facts.id = me.id := hne
  unfold canSeePerson Visible
  rw [if_neg hid]
  change (if t.role = .superAdmin then false else _) = true ↔ _
  by_cases hsa : t.role = .superAdmin
  · simp [hsa]
  cases horg : inMyOrg me t.facts with
  | false => simp
  | true =>
    cases hwhole : seesWholeOrg me with
    | true => simp [hsa]
    | false =>
      by_cases hm : me.role = .manager
      · have hrole : t.facts.role = t.role := rfl
        have hdept : t.facts.departmentId = t.departmentId := rfl
        simp [hsa, hm, hrole, hdept, any_mem]
      · simp [hsa, hm]

/-- The list of an organisation is its accounts that are not deleted, Super Admins apart. -/
theorem orgWhere_holds {org : UuidText} :
    (orgWhere org {} d t).Holds ↔
      (t.companyId = some org.uuid ∧ t.role ≠ .superAdmin) ∧ t.deletedAt = none := by
  simp [orgWhere]

/-- Who a list of one organisation shows: its people who are visible to the caller's role. -/
theorem peopleWhere_holds {org : UuidText} (horg : requireOrg me = .ok org)
    (hlive : t.deletedAt = none) :
    ∃ f, peopleWhere me {} = .ok f ∧
      ((f d t).Holds ↔ t.companyId = some org.uuid ∧ Visible me t) := by
  refine ⟨_, by simp only [peopleWhere, horg]; rfl, ?_⟩
  unfold Visible
  cases hwhole : seesWholeOrg me with
  | true => simp [orgWhere_holds, hlive]
  | false =>
    by_cases hm : me.role = .manager
    · cases hdepts : managedDeptIds me with
      | nil => simp [visibleWhere, hdepts]
      | cons p ps => simp [visibleWhere, hm, hdepts, orgWhere_holds, hlive, and_assoc]
    · simp [visibleWhere, hm]

/-- The list of all organisations is the accounts of the live ones, without the Super Admins. -/
theorem anyOrgWhere_holds (hlive : t.deletedAt = none) :
    (anyOrgWhere {} d t).Holds ↔ (∃ c, d.InLiveOrg t c) ∧ t.role ≠ .superAdmin := by
  simp only [anyOrgWhere, Truth.holds_and, Truth.holds_isNotNull, Truth.holds_exist,
    Truth.holds_eq, Truth.holds_isNull, Truth.holds_ofBool, decide_eq_true_eq, hlive,
    Bool.false_eq_true, if_false, and_true, Directory.InLiveOrg, Table.mem_rows]
  constructor
  · rintro ⟨⟨-, co, hco, hc, hdel⟩, hrole⟩
    exact ⟨⟨co.id, hc, co, hco, rfl, hdel⟩, hrole⟩
  · rintro ⟨⟨c, hc, co, hco, rfl, hdel⟩, hrole⟩
    exact ⟨⟨⟨_, hc⟩, co, hco, hc, hdel⟩, hrole⟩

/-! ## The two agree -/

/-- `peopleWhere` lists exactly the people `canSeePerson` shows, for a caller with an acting
organisation. -/
def ListAgrees (d : Directory) (me : AuthenticatedUser) (t : Account) : Prop :=
  ∀ org, orgOf me = some org →
    ∃ f, peopleWhere me {} = .ok f ∧ ((f d t).Holds ↔ canSeePerson me t.facts = true)

/-- With "All organisations" in view, `peopleWhereAnyOrg` lists exactly the people of live
organisations whom the caller sees when acting there. -/
def AnyOrgAgrees (d : Directory) (me : AuthenticatedUser) (t : Account) : Prop :=
  allOrgsInView me = true →
    ∃ f, peopleWhereAnyOrg me {} = .ok f ∧
      ((f d t).Holds ↔
        ∃ c, d.InLiveOrg t c ∧ canSeePerson (actingIn me (.printed c)) t.facts = true)

/-- The organisation in view is named as its row prints it, or has nothing to do with `t`. -/
def PrintedFor (me : AuthenticatedUser) (t : Account) : Prop :=
  ∀ org, me.orgId = some org →
    org.upper = 0 ∨ t.companyId ≠ some org.uuid ∨ t.role = .superAdmin

/-- List and check agree about a person exactly when the organisation is named as rows print it: the
list compares uuids, the check texts. -/
theorem listAgrees_iff {row : Account} (h : LoadedFrom d me row) (hlive : t.deletedAt = none)
    (hne : t.id ≠ me.id) : ListAgrees d me t ↔ PrintedFor me t := by
  constructor
  · intro hagrees org hpicked
    by_contra hbad
    obtain ⟨hup, hbad⟩ := not_or.1 hbad
    obtain ⟨hin, hsa⟩ := not_or.1 hbad
    rw [not_not] at hin
    cases hrole : seesEveryOrg me.role with
    | false =>
      have hown := (h.own hrole).1
      rw [hpicked] at hown
      split at hown
      · cases hown
      · obtain ⟨c, -, rfl⟩ := Option.map_eq_some_iff.1 hown.symm
        exact hup rfl
    | true =>
      have horg : orgOf me = some org := by simp [orgOf, (h.picked hrole).1, hrole, hpicked]
      obtain ⟨f, hf, hiff⟩ := hagrees org horg
      obtain ⟨f', hf', hlist⟩ := peopleWhere_holds (requireOrg_eq_ok h horg) hlive
      obtain rfl : f = f' := Except.ok.inj (hf.symm.trans hf')
      have hsees := hiff.1 (hlist.2 ⟨hin, hsa, Or.inl (seesWholeOrg_of_seesEveryOrg hrole)⟩)
      exact hup ((inMyOrg_iff horg).1 ((canSeePerson_iff hne).1 hsees).1).2
  · intro hprinted org horg
    obtain ⟨f, hf, hlist⟩ := peopleWhere_holds (requireOrg_eq_ok h horg) hlive
    refine ⟨f, hf, ?_⟩
    rw [hlist, canSeePerson_iff hne, inMyOrg_iff horg]
    constructor
    · rintro ⟨hin, hvis⟩
      refine ⟨⟨hin, ?_⟩, hvis⟩
      cases hrole : seesEveryOrg me.role with
      | false => exact orgOf_printed h hrole horg
      | true =>
        have hpicked : me.orgId = some org := by
          simpa [orgOf, (h.picked hrole).1, hrole] using horg
        rcases hprinted org hpicked with hup | hout | hsa
        · exact hup
        · exact absurd hin hout
        · exact absurd hsa hvis.1
    · rintro ⟨⟨hin, -⟩, hvis⟩
      exact ⟨hin, hvis⟩

/-- Over all organisations list and check always agree, since no organisation is named. -/
theorem anyOrgAgrees (hlive : t.deletedAt = none) (hne : t.id ≠ me.id) : AnyOrgAgrees d me t := by
  intro hall
  simp only [allOrgsInView, Bool.and_eq_true, Bool.not_eq_true', Option.isNone_iff_eq_none] at hall
  obtain ⟨⟨hrole, hheader⟩, hpicked⟩ := hall
  refine ⟨anyOrgWhere {}, by simp [peopleWhereAnyOrg, orgInView, hrole, hheader, hpicked], ?_⟩
  rw [anyOrgWhere_holds hlive]
  have hacting : ∀ c, t.companyId = some c →
      (canSeePerson (actingIn me (.printed c)) t.facts = true ↔ t.role ≠ .superAdmin) := by
    intro c hc
    have hact : actingIn me (.printed c) =
        { me with orgId := some (.printed c), orgHeaderInvalid := false, orgDeleted := false } := by
      simp [actingIn, hrole]
    have hrole' : seesEveryOrg (actingIn me (.printed c)).role = true := by rw [hact]; exact hrole
    have horg : orgOf (actingIn me (.printed c)) = some (.printed c) := by simp [hact, orgOf, hrole]
    have hne' : t.id ≠ (actingIn me (.printed c)).id := by rw [hact]; exact hne
    rw [canSeePerson_iff hne', inMyOrg_iff horg]
    constructor
    · rintro ⟨-, hvis⟩
      exact hvis.1
    · intro hsa
      exact ⟨⟨hc, rfl⟩, hsa, Or.inl (seesWholeOrg_of_seesEveryOrg hrole')⟩
  constructor
  · rintro ⟨⟨c, hin⟩, hsa⟩
    exact ⟨c, hin, (hacting c hin.1).2 hsa⟩
  · rintro ⟨c, hin, hsees⟩
    exact ⟨⟨c, hin⟩, (hacting c hin.1).1 hsees⟩

/-- Lists and single-person checks agree on somebody else's live account exactly when the
organisation in view is named as its row prints it, or does not hold that account. -/
theorem lists_agree_iff (hme : d.SignedIn cache me) (hlive : t.deletedAt = none)
    (hne : t.id ≠ me.id) : ListAgrees d me t ∧ AnyOrgAgrees d me t ↔ PrintedFor me t := by
  obtain ⟨row, h⟩ := hme.loadedFrom
  rw [listAgrees_iff h hlive hne, and_iff_left (anyOrgAgrees hlive hne)]

/-! ## A header in other letters

One organisation, its Manager, one of its Staff and a Super Admin of the platform.
-/

/-- A Manager of department 0 and a member of it come to the organisation 0. -/
def withTeam (users : Table Account.id) : Table Account.id :=
  (users.create
    (fun id => { id, role := .manager, companyId := some 0, departmentId := some 0 }) fun _ =>
      rfl).create
    (fun id => { id, role := .user, companyId := some 0, departmentId := some 0 }) fun _ => rfl

/-- Organisation 0 with department 0; Super Admin 0, Manager 1 of the department, Staff 2 in it. -/
def smallOrg : Directory where
  companies := oneCompany
  departments := Table.empty.create (fun id => { id, companyId := 0 }) fun _ => rfl
  users := withTeam (Table.empty.create (fun id => { id, role := .superAdmin }) fun _ => rfl)
  managerDepartments := [⟨1, 0⟩]
  user_company := by
    intro u hu c hc
    refine ⟨{ id := 0 }, by decide, ?_⟩
    simp only [withTeam, Table.mem_create, Table.not_mem_empty, false_or] at hu
    rcases hu with (rfl | rfl) | rfl <;> cases hc <;> rfl
  user_department := by
    intro u hu p hp
    refine ⟨{ id := 0, companyId := 0 }, by decide, ?_⟩
    simp only [withTeam, Table.mem_create, Table.not_mem_empty, false_or] at hu
    rcases hu with (rfl | rfl) | rfl <;> cases hp <;> rfl
  managed_manager := by decide
  managed_department := by decide

/-- The Super Admin of `smallOrg` with an organisation picked by `text`. -/
def pickingAdmin (text : UuidText) : AuthenticatedUser where
  id := 0
  role := .superAdmin
  companyId := none
  status := .active
  orgId := some text

/-- Staff 2 of `smallOrg`. -/
def smallStaff : Account := { id := 2, role := .user, companyId := some 0, departmentId := some 0 }

/-- With the organisation's id in capital letters everyone of it is listed, and the check
sees nobody of it. -/
theorem upperCase_lists_disagree :
    ∃ cache me t, smallOrg.SignedIn cache me ∧ orgOf me ≠ none ∧ t ∈ smallOrg.users ∧
      t.deletedAt = none ∧ t.id ≠ me.id ∧ ¬ListAgrees smallOrg me t := by
  refine ⟨fun _ => none, pickingAdmin ⟨0, 1⟩, smallStaff, ⟨0, .uuid ⟨0, 1⟩, by decide, rfl⟩,
    by decide, by decide, rfl, by decide, ?_⟩
  intro hagrees
  obtain ⟨f, hf, hiff⟩ := hagrees ⟨0, 1⟩ rfl
  have horg : requireOrg (pickingAdmin ⟨0, 1⟩) = .ok ⟨0, 1⟩ := rfl
  have hlive : smallStaff.deletedAt = none := rfl
  obtain ⟨f', hf', hlist⟩ := peopleWhere_holds (d := smallOrg) horg hlive
  obtain rfl : f = f' := Except.ok.inj (hf.symm.trans hf')
  have hlisted := hlist.2 ⟨rfl, by decide, Or.inl rfl⟩
  exact absurd (hiff.1 hlisted) (by decide)

/-- As the row prints it, the same pick lists and shows the same people. -/
theorem printed_lists_agree :
    ListAgrees smallOrg (pickingAdmin (.printed 0)) smallStaff ∧
      AnyOrgAgrees smallOrg (pickingAdmin (.printed 0)) smallStaff := by
  have hme : smallOrg.SignedIn (fun _ => none) (pickingAdmin (.printed 0)) :=
    ⟨0, .uuid (.printed 0), by decide, rfl⟩
  refine (lists_agree_iff hme rfl (by decide)).2 ?_
  intro org horg
  cases horg
  exact Or.inl rfl

end RxVision
