import RxVision.Tenancy.People

/-!
# Who may message whom

`contactsWhere` is the condition of a caller's contacts and `canMessage` the check of one recipient.
The list and the check agree but on the caller: an id is compared as text with the caller's own and
as a value in the database, so that an Admin who writes their own id in other letters may message
themselves (`can_message_iff`). Whoever got a message can answer it in the same organisation, unless
a Super Manager sent it (`can_answer`).
-/

namespace RxVision.Chat

variable {d : Directory} {cache : UuidText → Option Bool} {me you : AuthenticatedUser} {u : Account}
  {org : UuidText}

/-! ## Contacts -/

/-- `inOrg`. -/
def inOrg (org : UuidText) : UserWhere := fun _ u => .eq u.companyId org.uuid

/-- `admins`: the Admins of the organisation. -/
def admins (org : UuidText) :
    UserWhere := fun d u => (inOrg org d u).and (.ofBool (u.role = .admin))

/-- Everyone of the organisation but Super Admins. -/
def members (org : UuidText) : UserWhere :=
  fun d u => (inOrg org d u).and (.ofBool (u.role ≠ .superAdmin))

/-- The Staff of some departments. -/
def staffOf (org : UuidText) (depts : List ℕ) : UserWhere :=
  fun d u => ((inOrg org d u).and (.ofBool (u.role = .user))).and (.isIn u.departmentId depts)

/-- The managers of a department that is not deleted. -/
def managersOf (org : UuidText) (dept : ℕ) : UserWhere := fun d u =>
  ((inOrg org d u).and (.ofBool (u.role = .manager))).and
    (.exist d.managerDepartments fun m =>
      ((Truth.ofBool (m.managerId = u.id)).and (.ofBool (m.departmentId = dept))).and
        (.exist d.departments.rows fun de =>
          (Truth.ofBool (de.id = m.departmentId)).and (.isNull de.deletedAt)))

/-- `contactsWhere`: none when the caller acts in no organisation. -/
def contactsWhere (me : AuthenticatedUser) : Option UserWhere :=
  (orgOf me).map fun org =>
    match me.role with
    | .superAdmin => admins org
    | .superManager => members org
    | .admin => fun d u => (members org d u).or (.ofBool (u.role = .superAdmin))
    | .manager =>
      let depts := managedDeptIds me
      if depts.isEmpty then admins org else fun d u => (admins org d u).or (staffOf org depts d u)
    | .user =>
      match me.departmentId with
      | some dept => fun d u => (admins org d u).or (managersOf org dept d u)
      | none => admins org

/-- `ChatRelation`. -/
inductive ChatRelation
  | manager | report | org
  deriving DecidableEq, Repr

/-- `relationOf`: how `theirs` relates to someone with `mine`. -/
def relationOf (mine theirs : Role) : ChatRelation :=
  match mine with
  | .user => if theirs = .manager then .manager else .org
  | .manager => if theirs = .user then .report else if theirs = .admin then .manager else .org
  | .admin => if theirs = .superAdmin then .manager else .report
  | .superAdmin | .superManager => .report

/-- `ChatContact`, without names. -/
structure ChatContact where
  id : ℕ
  role : Role
  relation : ChatRelation
  deriving DecidableEq, Repr

/-- `findContacts`. -/
def findContacts (d : Directory) (me : AuthenticatedUser) : List ChatContact :=
  match contactsWhere me with
  | none => []
  | some scope =>
    (d.users.rows.filter fun u =>
      decide ((scope d u).and (((Truth.ne (some u.id) me.id).and (.ofBool (u.status = .active))).and
        (.isNull u.deletedAt))).Holds).map fun u => ⟨u.id, u.role, relationOf me.role u.role⟩

/-- `canMessage`: the recipient's id is compared with the caller's as text, then as a value. -/
def canMessage (d : Directory) (me : AuthenticatedUser) (toUserId : UuidText) : Bool :=
  if toUserId = .printed me.id then false
  else
    match contactsWhere me with
    | none => false
    | some scope =>
      (d.users.find? fun u =>
        decide ((scope d u).and (((Truth.ofBool (u.id = toUserId.uuid)).and
          (.ofBool (u.status = .active))).and (.isNull u.deletedAt))).Holds).isSome

/-! ## The matrix -/

/-- The roles and departments that a caller of the organisation `org` may message. -/
def MayMessage (d : Directory) (me : AuthenticatedUser) (org : UuidText) (u : Account) : Prop :=
  match me.role with
  | .superAdmin => u.companyId = some org.uuid ∧ u.role = .admin
  | .superManager => u.companyId = some org.uuid ∧ u.role ≠ .superAdmin
  | .admin => u.companyId = some org.uuid ∧ u.role ≠ .superAdmin ∨ u.role = .superAdmin
  | .manager => u.companyId = some org.uuid ∧
      (u.role = .admin ∨ u.role = .user ∧ ∃ p ∈ me.managedDepartmentIds, u.departmentId = some p)
  | .user => u.companyId = some org.uuid ∧
      (u.role = .admin ∨ u.role = .manager ∧ ∃ p ∈ d.managedDepartments u.id,
        me.departmentId = some p)

/-- A live active account that the caller may message. -/
def Reaches (d : Directory) (me : AuthenticatedUser) (u : Account) : Prop :=
  u ∈ d.users ∧ u.status = .active ∧ u.deletedAt = none ∧ ∃ org, orgOf me = some org ∧
    MayMessage d me org u

/-- The Admins of the organisation. -/
@[simp] theorem holds_admins : (admins org d u).Holds ↔ u.companyId = some org.uuid ∧
    u.role = .admin := by
  simp [admins, inOrg]

/-- The members of the organisation, Super Admins apart. -/
@[simp] theorem holds_members :
    (members org d u).Holds ↔ u.companyId = some org.uuid ∧ u.role ≠ .superAdmin := by
  simp [members, inOrg]

/-- The Staff of some departments. -/
@[simp] theorem holds_staffOf {depts : List ℕ} : (staffOf org depts d u).Holds ↔
    u.companyId = some org.uuid ∧ u.role = .user ∧ ∃ p ∈ depts, u.departmentId = some p := by
  simp only [staffOf, inOrg, Truth.holds_and, Truth.holds_eq, Truth.holds_ofBool, decide_eq_true_eq,
    Truth.holds_isIn, and_assoc]
  simp only [and_comm]

/-- A department of the list a Manager signs in with is one their link names and that is
not deleted. -/
theorem mem_managedDepartments {managerId p : ℕ} : p ∈ d.managedDepartments managerId ↔
    ∃ m ∈ d.managerDepartments, m.managerId = managerId ∧ m.departmentId = p ∧
      ∃ de ∈ d.departments.rows, de.id = m.departmentId ∧ de.deletedAt = none := by
  simp only [Directory.managedDepartments, List.mem_map, List.mem_filter, Bool.and_eq_true,
    decide_eq_true_eq, List.any_eq_true, Option.isNone_iff_eq_none]
  constructor
  · rintro ⟨m, ⟨hm, hid, hlive⟩, hp⟩
    exact ⟨m, hm, hid, hp, hlive⟩
  · rintro ⟨m, hm, hid, hp, hlive⟩
    exact ⟨m, ⟨hm, hid, hlive⟩, hp⟩

/-- The Managers of a department. -/
@[simp] theorem holds_managersOf {dept : ℕ} : (managersOf org dept d u).Holds ↔
    u.companyId = some org.uuid ∧ u.role = .manager ∧ dept ∈ d.managedDepartments u.id := by
  simp only [managersOf, inOrg, Truth.holds_and, Truth.holds_eq, Truth.holds_ofBool,
    decide_eq_true_eq, Truth.holds_exist, Truth.holds_isNull, mem_managedDepartments, and_assoc]

/-- The condition of the query for contacts is the matrix of who may write to whom. -/
theorem contactsWhere_eq (horg : orgOf me = some org) :
    ∃ scope, contactsWhere me = some scope ∧ ∀ d u, (scope d u).Holds ↔ MayMessage d me org u := by
  simp only [contactsWhere, horg, Option.map_some]
  refine ⟨_, rfl, fun d u => ?_⟩
  unfold MayMessage
  cases hrole : me.role with
  | superAdmin => simp
  | superManager => simp
  | admin => simp
  | manager =>
    simp only [managedDeptIds, hrole, if_true]
    cases hdepts : me.managedDepartmentIds with
    | nil => simp
    | cons p ps =>
      simp only [List.isEmpty_cons, Bool.false_eq_true, if_false, Truth.holds_or, holds_admins,
        holds_staffOf, and_or_left]
  | user =>
    cases hdept : me.departmentId with
    | none => simp
    | some p => simp [and_or_left]

/-- Who acts in no organisation has no contacts. -/
theorem contactsWhere_none (horg : orgOf me = none) : contactsWhere me = none := by
  simp [contactsWhere, horg]

/-- The contacts are the accounts that the caller reaches, without the caller. -/
theorem mem_findContacts {c : ChatContact} : c ∈ findContacts d me ↔
    ∃ u, Reaches d me u ∧ u.id ≠ me.id ∧ c = ⟨u.id, u.role, relationOf me.role u.role⟩ := by
  unfold findContacts Reaches
  cases horg : orgOf me with
  | none => simp [contactsWhere_none horg]
  | some org =>
    obtain ⟨scope, hscope, hholds⟩ := contactsWhere_eq horg
    simp only [hscope, List.mem_map, List.mem_filter, decide_eq_true_eq, Truth.holds_and, hholds,
      Truth.holds_ne, Truth.holds_ofBool, Truth.holds_isNull, Table.mem_rows, Option.some.injEq]
    constructor
    · rintro ⟨u, ⟨hu, hmay, ⟨⟨_, rfl, hne⟩, hactive⟩, hlive⟩, rfl⟩
      exact ⟨u, ⟨hu, hactive, hlive, org, rfl, hmay⟩, hne, rfl⟩
    · rintro ⟨u, ⟨hu, hactive, hlive, org', rfl, hmay⟩, hne, rfl⟩
      exact ⟨u, ⟨hu, hmay, ⟨⟨_, rfl, hne⟩, hactive⟩, hlive⟩, rfl⟩

/-- The check is passed by the id of an account the caller reaches that is not
written as the caller's. -/
theorem canMessage_eq {text : UuidText} : canMessage d me text = true ↔
    text ≠ .printed me.id ∧ ∃ u, Reaches d me u ∧ u.id = text.uuid := by
  unfold canMessage Reaches
  split
  next hself => simp [hself]
  next hother =>
  cases horg : orgOf me with
  | none => simp [contactsWhere_none horg]
  | some org =>
    obtain ⟨scope, hscope, hholds⟩ := contactsWhere_eq horg
    simp only [hscope, Table.find?, List.find?_isSome, decide_eq_true_eq, Truth.holds_and, hholds,
      Truth.holds_ofBool, Truth.holds_isNull, Table.mem_rows, Option.some.injEq]
    constructor
    · rintro ⟨u, hu, hmay, ⟨hid, hactive⟩, hlive⟩
      exact ⟨hother, u, ⟨hu, hactive, hlive, org, rfl, hmay⟩, hid⟩
    · rintro ⟨-, u, ⟨hu, hactive, hlive, org', rfl, hmay⟩, hid⟩
      exact ⟨u, hu, hmay, ⟨hid, hactive⟩, hlive⟩

/-! ## What a signed-in caller has of its row -/

/-- The account of a signed-in caller: active, with the caller's organisation and department. -/
structure OwnRow (d : Directory) (me : AuthenticatedUser) (row : Account) : Prop where
  loaded : LoadedFrom d me row
  active : row.status = .active
  company : me.companyId = row.companyId.map .printed
  department : me.departmentId = row.departmentId

/-- A signed-in caller has a row of their own, which later proofs read role and
organisation from. -/
theorem exists_ownRow (h : d.SignedIn cache me) : ∃ row, OwnRow d me row := by
  obtain ⟨row, hfrom⟩ := h.loadedFrom
  obtain ⟨id, header, hload, hactive⟩ := h
  unfold Directory.loadById at hload
  split at hload
  · cases hload
  next row' hrow =>
  have hme := Option.some.inj hload
  obtain rfl : row' = row := by
    refine Table.eq_of_key (Table.mem_of_find? hrow) hfrom.mem ?_
    rw [hfrom.id, ← hme]
  refine ⟨row', hfrom, ?_, ?_, ?_⟩
  · rw [← hactive, ← hme]
  · rw [← hme]
  · rw [← hme]

variable {row yours : Account}

/-- Whoever does not see every organisation acts in the one of their row. -/
theorem OwnRow.companyId (h : OwnRow d me row) (hrole : seesEveryOrg me.role = false)
    (horg : orgOf me = some org) : row.companyId = some org.uuid := by
  obtain ⟨horgId, hcompany, -⟩ := h.loaded.own hrole
  have hdel : me.orgDeleted = false := by
    cases hdel : me.orgDeleted with
    | false => rfl
    | true => simp [orgOf, hdel] at horg
  have hown : row.companyId.map .printed = some org := by
    simpa [orgOf, hdel, hrole, horgId, hcompany] using horg
  obtain ⟨c, hc, rfl⟩ := Option.map_eq_some_iff.1 hown
  exact hc

/-! ## The list and the check -/

/-- The caller's own id in other letters, for a caller whose contacts take in the caller. -/
structure OwnIdInOtherLetters (me : AuthenticatedUser) (text : UuidText) : Prop where
  own : text.uuid = me.id
  letters : text.upper ≠ 0
  role : me.role = .admin ∨ me.role = .superManager
  inside : ∃ org c, orgOf me = some org ∧ me.companyId = some c ∧ c.uuid = org.uuid

/-- A caller reaches their own account when they are an Admin or a Super Manager of the
organisation. -/
theorem OwnRow.reaches_iff (h : OwnRow d me row) : Reaches d me row ↔
    (me.role = .admin ∨ me.role = .superManager) ∧
      ∃ org c, orgOf me = some org ∧ me.companyId = some c ∧ c.uuid = org.uuid := by
  have hrole := h.loaded.role
  have hcompany : ∀ org : UuidText, row.companyId = some org.uuid ↔
      ∃ c, me.companyId = some c ∧ c.uuid = org.uuid := by
    intro org
    rw [h.company]
    cases row.companyId <;> simp
  constructor
  · rintro ⟨-, -, -, org, horg, hmay⟩
    unfold MayMessage at hmay
    cases hcase : me.role with
    | superAdmin => simp [hcase, hrole] at hmay
    | superManager =>
      rw [hcase] at hmay
      obtain ⟨c, hc, huuid⟩ := (hcompany org).1 hmay.1
      exact ⟨.inr rfl, org, c, horg, hc, huuid⟩
    | admin =>
      have hown := h.companyId (by simp [seesEveryOrg, hcase]) horg
      obtain ⟨c, hc, huuid⟩ := (hcompany org).1 hown
      exact ⟨.inl rfl, org, c, horg, hc, huuid⟩
    | manager => simp [hcase, hrole] at hmay
    | user => simp [hcase, hrole] at hmay
  · rintro ⟨hcase, org, c, horg, hc, huuid⟩
    have hin := (hcompany org).2 ⟨c, hc, huuid⟩
    refine ⟨h.loaded.mem, h.active, h.loaded.live, org, horg, ?_⟩
    unfold MayMessage
    rcases hcase with hcase | hcase
    · rw [hcase, hrole, hcase]
      exact .inl ⟨hin, by decide⟩
    · rw [hcase, hrole, hcase]
      exact ⟨hin, by decide⟩

/-- Whom a caller reaches is of the organisation acted in, or a Super Admin that an Admin
writes to. -/
theorem Reaches.isolated (h : Reaches d me u) : ∃ org, orgOf me = some org ∧
    (u.companyId = some org.uuid ∧ u.role ≠ .superAdmin ∨ me.role = .admin ∧
      u.role = .superAdmin) := by
  obtain ⟨-, -, -, org, horg, hmay⟩ := h
  refine ⟨org, horg, ?_⟩
  unfold MayMessage at hmay
  cases hcase : me.role with
  | superAdmin =>
    rw [hcase] at hmay
    exact .inl ⟨hmay.1, by simp [hmay.2]⟩
  | superManager =>
    rw [hcase] at hmay
    exact .inl hmay
  | admin =>
    rw [hcase] at hmay
    exact hmay.imp_right fun hsuper => ⟨rfl, hsuper⟩
  | manager =>
    rw [hcase] at hmay
    refine .inl ⟨hmay.1, ?_⟩
    rcases hmay.2 with hadmin | ⟨hstaff, -⟩
    · simp [hadmin]
    · simp [hstaff]
  | user =>
    rw [hcase] at hmay
    refine .inl ⟨hmay.1, ?_⟩
    rcases hmay.2 with hadmin | ⟨hmanager, -⟩
    · simp [hadmin]
    · simp [hmanager]

/-- A message may be sent exactly to the listed contacts and, by an Admin or a Super Manager of the
organisation, to oneself with the id in other letters; and it goes to a live active account of the
organisation acted in, or from an Admin to a Super Admin. -/
theorem can_message_iff (hme : d.SignedIn cache me) (text : UuidText) :
    (canMessage d me text = true ↔
      (∃ c ∈ findContacts d me, c.id = text.uuid) ∨ OwnIdInOtherLetters me text) ∧
    (canMessage d me text = true → ∃ u ∈ d.users, u.id = text.uuid ∧ u.status = .active ∧
      u.deletedAt = none ∧ ∃ org, orgOf me = some org ∧
        (u.companyId = some org.uuid ∧ u.role ≠ .superAdmin ∨
          me.role = .admin ∧ u.role = .superAdmin)) := by
  obtain ⟨row, hrow⟩ := exists_ownRow hme
  refine ⟨?_, ?_⟩
  · rw [canMessage_eq]
    constructor
    · rintro ⟨hother, u, hreach, hid⟩
      by_cases hself : u.id = me.id
      · obtain rfl : u = row := by
          refine Table.eq_of_key hreach.1 hrow.loaded.mem ?_
          rw [hself, hrow.loaded.id]
        obtain ⟨hrole, hinside⟩ := hrow.reaches_iff.1 hreach
        refine .inr ⟨hid.symm.trans hself, fun hup => hother ?_, hrole, hinside⟩
        exact (UuidText.eq_printed.2 ⟨hid.symm.trans hself, hup⟩).symm
      · exact .inl ⟨_, mem_findContacts.2 ⟨u, hreach, hself, rfl⟩, hid⟩
    · rintro (⟨c, hc, hid⟩ | hown)
      · obtain ⟨u, hreach, hne, rfl⟩ := mem_findContacts.1 hc
        refine ⟨fun htext => hne ?_, u, hreach, hid⟩
        rw [show u.id = text.uuid from hid, htext, UuidText.printed_uuid]
      · refine ⟨fun htext => hown.letters ?_, row, hrow.reaches_iff.2 ⟨hown.role, hown.inside⟩, ?_⟩
        · rw [htext, UuidText.printed]
        · rw [hrow.loaded.id, hown.own]
  · intro hcan
    obtain ⟨-, u, hreach, hid⟩ := canMessage_eq.1 hcan
    exact ⟨u, hreach.1, hid, hreach.2.1, hreach.2.2.1, hreach.isolated⟩

/-- An Admin comes to organisation 0. -/
def newAdmin (id : ℕ) : Account := { id, role := .admin, companyId := some 0 }

/-- The new Admin has their id. -/
theorem newAdmin_id : ∀ n, (newAdmin n).id = n := fun _ => rfl

/-- `smallOrg` with its Admin 3. -/
def adminOrg : Directory where
  companies := smallOrg.companies
  departments := smallOrg.departments
  users := smallOrg.users.create newAdmin newAdmin_id
  managerDepartments := smallOrg.managerDepartments
  user_company := by
    intro u hu c hc
    obtain hu | rfl := Table.mem_create.1 hu
    · exact smallOrg.user_company u hu c hc
    · cases hc
      exact ⟨{ id := 0 }, by decide, rfl⟩
  user_department := by
    intro u hu p hp
    obtain hu | rfl := Table.mem_create.1 hu
    · exact smallOrg.user_department u hu p hp
    · cases hp
  managed_manager := by decide
  managed_department := smallOrg.managed_department

/-- Admin 3 of `adminOrg`. -/
def theAdmin : AuthenticatedUser where
  id := 3
  role := .admin
  companyId := some (.printed 0)
  status := .active
  orgId := some (.printed 0)

/-- An Admin is no contact of their own, but may message themselves with their id in capitals. -/
theorem can_message_self : canMessage adminOrg theAdmin (.printed 3) = false ∧
    canMessage adminOrg theAdmin ⟨3, 1⟩ = true := by
  have hme : adminOrg.SignedIn (fun _ => none) theAdmin := ⟨3, .blank, by decide, rfl⟩
  have hown : OwnIdInOtherLetters theAdmin ⟨3, 1⟩ :=
    ⟨rfl, by decide, .inl rfl, .printed 0, .printed 0, rfl, rfl, rfl⟩
  exact ⟨by decide, (can_message_iff hme ⟨3, 1⟩).1.2 (.inr hown)⟩

/-! ## Answers -/

/-- Whoever may be written to may write back, in the same organisation and to
anyone but a Super Manager. -/
theorem MayMessage.answer {org' : UuidText} (hme : OwnRow d me row) (hyou : OwnRow d you yours)
    (horg : orgOf me = some org) (hsame : org'.uuid = org.uuid)
    (hrole : me.role ≠ .superManager) (h : MayMessage d me org yours) :
        MayMessage d you org' row := by
  have hmine := hme.loaded.role
  have htheirs := hyou.loaded.role
  unfold MayMessage at h ⊢
  rw [hsame, hmine]
  cases hcase : me.role with
  | superManager => exact absurd hcase hrole
  | superAdmin =>
    rw [hcase] at h
    rw [← htheirs, h.2]
    exact .inr rfl
  | admin =>
    have hin := hme.companyId (by simp [seesEveryOrg, hcase]) horg
    cases you.role with
    | superAdmin => exact ⟨hin, rfl⟩
    | superManager => exact ⟨hin, by decide⟩
    | admin => exact .inl ⟨hin, by decide⟩
    | manager | user => exact ⟨hin, .inl rfl⟩
  | manager =>
    have hin := hme.companyId (by simp [seesEveryOrg, hcase]) horg
    rw [hcase] at h
    obtain ⟨-, hadmin | ⟨hstaff, p, hp, hdept⟩⟩ := h
    · rw [← htheirs, hadmin]
      exact .inl ⟨hin, by decide⟩
    · rw [← htheirs, hstaff]
      refine ⟨hin, .inr ⟨rfl, p, ?_, hyou.department.trans hdept⟩⟩
      rwa [hme.loaded.managed, if_pos hcase, ← hme.loaded.id] at hp
  | user =>
    have hin := hme.companyId (by simp [seesEveryOrg, hcase]) horg
    rw [hcase] at h
    obtain ⟨-, hadmin | ⟨hmanager, p, hp, hdept⟩⟩ := h
    · rw [← htheirs, hadmin]
      exact .inl ⟨hin, by decide⟩
    · have hmanages : you.role = .manager := htheirs.symm.trans hmanager
      rw [hmanages]
      refine ⟨hin, .inr ⟨rfl, p, ?_, hme.department.symm.trans hdept⟩⟩
      rwa [hyou.loaded.managed, if_pos hmanages, ← hyou.loaded.id]

/-- A Super Manager without an organisation is in nobody's contacts. -/
theorem not_reaches_superManager (hrole : row.role = .superManager)
    (hcompany : row.companyId = none) : ¬Reaches d you row := by
  rintro ⟨-, -, -, org, -, hmay⟩
  unfold MayMessage at hmay
  cases hcase : you.role <;> simp [hcase, hrole, hcompany] at hmay

/-- Someone shown as above one sees one as below. -/
theorem relationOf_mirrored {mine theirs : Role} (h : relationOf mine theirs = .manager) :
    relationOf theirs mine = .report := by
  cases mine <;> cases theirs <;> first | rfl | cases h

/-- A message can be answered by a recipient who acts in the sender's organisation, and the sender
that is listed there is below a recipient listed as above them; a Super Manager without an
organisation is answered by nobody, whatever was sent. -/
theorem can_answer {cache' : UuidText → Option Bool} (hme : d.SignedIn cache me)
    (hyou : d.SignedIn cache' you) :
    (canMessage d me (.printed you.id) = true →
      (orgOf you).map UuidText.uuid = (orgOf me).map UuidText.uuid → me.role ≠ .superManager →
      canMessage d you (.printed me.id) = true ∧
        (⟨you.id, you.role, .manager⟩ ∈ findContacts d me →
          ⟨me.id, me.role, .report⟩ ∈ findContacts d you)) ∧
    (me.role = .superManager → me.companyId = none →
      canMessage d you (.printed me.id) = false) := by
  obtain ⟨row, hrow⟩ := exists_ownRow hme
  obtain ⟨yours, hyours⟩ := exists_ownRow hyou
  refine ⟨fun hsent hacting hrole => ?_, fun hrole hcompany => ?_⟩
  · obtain ⟨hother, u, hreach, hid⟩ := canMessage_eq.1 hsent
    obtain rfl : u = yours :=
      Table.eq_of_key hreach.1 hyours.loaded.mem (hid.trans hyours.loaded.id.symm)
    have hne : you.id ≠ me.id := fun h => hother (congrArg UuidText.printed h)
    have hback : Reaches d you row := by
      obtain ⟨-, -, -, org, horg, hmay⟩ := hreach
      rw [horg] at hacting
      obtain ⟨org', horg', hsame⟩ := Option.map_eq_some_iff.1 hacting
      exact ⟨hrow.loaded.mem, hrow.active, hrow.loaded.live, org', horg',
        hmay.answer hrow hyours horg hsame hrole⟩
    have hnotSelf : UuidText.printed me.id ≠ .printed you.id :=
      fun h => hne (congrArg UuidText.uuid h).symm
    refine ⟨canMessage_eq.2 ⟨hnotSelf, row, hback, hrow.loaded.id⟩, fun hlisted => ?_⟩
    obtain ⟨w, -, -, hw⟩ := mem_findContacts.1 hlisted
    simp only [ChatContact.mk.injEq] at hw
    obtain ⟨-, hwrole, hrel⟩ := hw
    refine mem_findContacts.2 ⟨row, hback, fun h => hne (h.symm.trans hrow.loaded.id), ?_⟩
    have habove : relationOf me.role you.role = .manager := hwrole ▸ hrel.symm
    rw [hrow.loaded.id, hrow.loaded.role, relationOf_mirrored habove]
  · rw [Bool.eq_false_iff]
    intro hcan
    obtain ⟨-, u, hreach, hid⟩ := canMessage_eq.1 hcan
    obtain rfl : u = row :=
      Table.eq_of_key hreach.1 hrow.loaded.mem (hid.trans hrow.loaded.id.symm)
    refine not_reaches_superManager (hrow.loaded.role.trans hrole) ?_ hreach
    simpa [hrow.company] using hcompany

/-- Staff 2 of `smallOrg` signed in. -/
def theStaff : AuthenticatedUser where
  id := 2
  role := .user
  companyId := some (.printed 0)
  status := .active
  orgId := some (.printed 0)
  departmentId := some 0

/-- Manager 1 of `smallOrg` signed in. -/
def theManager : AuthenticatedUser where
  id := 1
  role := .manager
  companyId := some (.printed 0)
  status := .active
  orgId := some (.printed 0)
  departmentId := some 0
  managedDepartmentIds := [0]
  grants := some NO_GRANTS

/-- One of the Staff writes to the manager of their department, who answers. -/
theorem can_answer_staff : canMessage smallOrg theManager (.printed 2) = true ∧
    ⟨2, .user, .report⟩ ∈ findContacts smallOrg theManager := by
  have hme : smallOrg.SignedIn (fun _ => none) theStaff := ⟨2, .blank, by decide, rfl⟩
  have hyou : smallOrg.SignedIn (fun _ => none) theManager := ⟨1, .blank, by decide, rfl⟩
  have hanswer := (can_answer hme hyou).1 (by decide) rfl (by decide)
  exact ⟨hanswer.1, hanswer.2 (by decide)⟩

end RxVision.Chat
