import RxVision.Lib.Runs
import RxVision.Live.Rooms

/-!
# Sockets follow access (`socket-access.service.ts`, `authenticated.gateway.ts`)

A socket joins its rooms once, when it connects. What an account may see changes while its sockets
are open: every change is written first and published afterwards (`UserAccessChangedEvent`), and the
event drops the sockets of the account. A connection reads whether the account is active, joins the
account's room, reads its rooms and joins them, and changes come in between any two of these.
Whatever the order, an open socket is in no room that its account has lost, unless the event is
still to come or the room is of an organisation that was deleted (`sockets_follow_access`).

An edit reads first and saves later. One that finds what it has read as it was writes and publishes
`AccessWrite.apply`; one that was overtaken by another edit may write anything here (what it writes
is the subject of `NoEditUndone`), and the theorem is about runs without such. Who may make an edit
is checked before and plays no part.
-/

namespace RxVision

/-! ## Changes of access -/

/-- `UserAccessChange`. -/
inductive UserAccessChange
  | status | role | manager | deleted | password | signOut
  deriving DecidableEq, Repr

/-- `UserAccessChangedEvent`. -/
structure UserAccessChangedEvent where
  userId : ℕ
  changes : List UserAccessChange
  active : Option Bool
  deriving DecidableEq, Repr

/-- `evict` of `onAccessChanged`. -/
def UserAccessChangedEvent.evicts (e : UserAccessChangedEvent) : Bool :=
  e.changes.contains .deleted || e.changes.contains .signOut || e.changes.contains .role ||
    (e.changes.contains .status && e.active = some false)

namespace Directory

/-- An account whose columns change, in the organisation it is in or an existing one, in the
department it is in or in none. -/
def editUser (d : Directory) (userId : ℕ) (f : Account → Account) (managed : List ManagerDepartment)
    (hid : ∀ u, (f u).id = u.id)
    (hcompany : ∀ u c, (f u).companyId = some c → u.companyId = some c ∨
      ∃ co ∈ d.companies, co.id = c)
    (hdepartment : ∀ u p, (f u).departmentId = some p → u.departmentId = some p)
    (hmanaged : ∀ m ∈ managed, m ∈ d.managerDepartments) : Directory where
  companies := d.companies
  departments := d.departments
  users := d.users.updateMany (fun u => u.id = userId) f hid
  managerDepartments := managed
  user_company := by
    intro u hu c hc
    obtain ⟨u', hu', rfl⟩ := Table.exists_of_mem_updateMany hu
    split at hc
    · rcases hcompany u' c hc with h | h
      · exact d.user_company u' hu' c h
      · exact h
    · exact d.user_company u' hu' c hc
  user_department := by
    intro u hu p hp
    obtain ⟨u', hu', rfl⟩ := Table.exists_of_mem_updateMany hu
    refine d.user_department u' hu' p ?_
    split at hp
    · exact hdepartment u' p hp
    · exact hp
  managed_manager := by
    intro m hm
    obtain ⟨v, hv, h⟩ := d.managed_manager m (hmanaged m hm)
    refine ⟨_, Table.mem_updateMany_of_mem hv, ?_⟩
    split
    · exact (hid v).trans h
    · exact h
  managed_department := fun m hm => d.managed_department m (hmanaged m hm)

/-- The account, unless it is deleted. -/
def findById (d : Directory) (userId : ℕ) : Option Account :=
  d.users.find? fun u => u.id = userId && u.deletedAt.isNone

/-- `setGrants`, and `save`. -/
def withGrants (d : Directory) (userId : ℕ) (grants : ViewGrants) : Directory :=
  d.editUser userId (fun u => { u with grants }) d.managerDepartments (fun _ => rfl)
    (fun _ _ h => .inl h) (fun _ _ h => h) fun _ h => h

/-- `changeStatus`, and `save`. -/
def withStatus (d : Directory) (userId : ℕ) (status : UserStatus) : Directory :=
  d.editUser userId (fun u => { u with status }) d.managerDepartments (fun _ => rfl)
    (fun _ _ h => .inl h) (fun _ _ h => h) fun _ h => h

/-- `softDelete` of an account. -/
def withoutPerson (d : Directory) (userId : ℕ) (now : ℤ) : Directory :=
  d.editUser userId (fun u => { u with deletedAt := some now }) d.managerDepartments
    (Account.id_deleted now) (fun _ _ h => .inl h) (fun _ _ h => h) fun _ h => h

/-- The writes of `assignPerson`. -/
def assigned (d : Directory) (userId : ℕ) (org : Company) (horg : org ∈ d.companies) : Directory :=
  d.editUser userId
    (fun u => { u with companyId := some org.id, departmentId := none, grants := NO_GRANTS })
    (d.managerDepartments.filter fun m => m.managerId ≠ userId) (fun _ => rfl)
    (fun _ _ h => .inr ⟨org, horg, Option.some.inj h⟩) nofun fun _ h => (List.mem_filter.1 h).1

/-- The writes of `softDelete` of an organisation: its people, its departments and itself. -/
def withoutOrganisation (d : Directory) (org : ℕ) (now : ℤ) : Directory where
  companies := d.companies.updateMany (fun c => c.id = org)
    (fun c => { c with deletedAt := some now }) (Company.id_deleted now)
  departments := d.departments.updateMany (fun de => de.companyId = org && de.deletedAt.isNone)
    (fun de => { de with deletedAt := some now }) (Department.id_deleted now)
  users := d.users.updateMany (fun u => u.companyId = some org && u.deletedAt.isNone)
    (fun u => { u with deletedAt := some now }) (Account.id_deleted now)
  managerDepartments := d.managerDepartments
  user_company := by
    intro u hu c hc
    obtain ⟨u', hu', rfl⟩ := Table.exists_of_mem_updateMany hu
    obtain ⟨co, hco, hid⟩ := d.user_company u' hu' c (by split at hc <;> exact hc)
    refine ⟨_, Table.mem_updateMany_of_mem hco, ?_⟩
    split <;> exact hid
  user_department := by
    intro u hu p hp
    obtain ⟨u', hu', rfl⟩ := Table.exists_of_mem_updateMany hu
    obtain ⟨de, hde, hid⟩ := d.user_department u' hu' p (by split at hp <;> exact hp)
    refine ⟨_, Table.mem_updateMany_of_mem hde, ?_⟩
    split <;> exact hid
  managed_manager := by
    intro m hm
    obtain ⟨v, hv, hid⟩ := d.managed_manager m hm
    refine ⟨_, Table.mem_updateMany_of_mem hv, ?_⟩
    split <;> exact hid
  managed_department := by
    intro m hm
    obtain ⟨de, hde, hid⟩ := d.managed_department m hm
    refine ⟨_, Table.mem_updateMany_of_mem hde, ?_⟩
    split <;> exact hid

end Directory

/-- The edits that decide what an account sees. -/
inductive AccessWrite
  | setGrants (userId : ℕ) (grants : ViewGrants)
  /-- `UpdateUserUseCase`; `grants` are the ones of the placement. -/
  | updateUser (me : AuthenticatedUser) (userId : ℕ) (input : PlacementInput) (grants : ViewGrants)
  | setStatus (userId : ℕ) (status : UserStatus)
  | deleteUser (userId : ℕ) (now : ℤ)
  | assignPerson (userId org : ℕ)
  | removeDepartment (me : AuthenticatedUser) (id : ℕ) (now : ℤ)
  | removeOrganisation (org : ℕ) (now : ℤ)

namespace AccessWrite

/-- The accounts an edit reads. -/
def readsUser : AccessWrite → Account → Bool
  | .setGrants userId _, u | .updateUser _ userId _ _, u | .setStatus userId _, u
  | .deleteUser userId _, u | .assignPerson userId _, u => u.id = userId
  | .removeDepartment _ id _, u => u.departmentId = some id
  | .removeOrganisation org _, u => u.companyId = some org

/-- The rows of `manager_departments` an edit reads. -/
def readsLink : AccessWrite → ManagerDepartment → Bool
  | .setGrants userId _, m | .updateUser _ userId _ _, m | .setStatus userId _, m
  | .deleteUser userId _, m | .assignPerson userId _, m => m.managerId = userId
  | .removeDepartment _ id _, m => m.departmentId = id
  | .removeOrganisation _ _, _ => false

/-- An edit finds what it has read as it was. -/
def Finds (w : AccessWrite) (read now : Directory) : Prop :=
  now.companies.rows = read.companies.rows ∧ now.departments.rows = read.departments.rows ∧
    now.users.rows.filter w.readsUser = read.users.rows.filter w.readsUser ∧
    now.managerDepartments.filter w.readsLink = read.managerDepartments.filter w.readsLink

instance (w : AccessWrite) (read now : Directory) : Decidable (w.Finds read now) :=
  inferInstanceAs (Decidable (_ ∧ _ ∧ _ ∧ _))

end AccessWrite

/-- What an edit writes and then publishes; `none` when it is refused. -/
def AccessWrite.apply (d : Directory) :
    AccessWrite → Option (Directory × List UserAccessChangedEvent)
  | .setGrants userId grants =>
    match d.findById userId with
    | none => none
    | some target =>
      if target.role ≠ .manager then none
      else if target.grants = grants then some (d, [])
      else some (d.withGrants userId grants, [⟨userId, [.role], some (target.status = .active)⟩])
  | .updateUser me userId input grants =>
    match d.findById userId with
    | none => none
    | some target =>
      match d.updateUser me userId { input with grantsChanged := target.grants ≠ grants } with
      | .error _ => none
      | .ok change => some (change.dir.withGrants userId grants,
          change.published.map fun id => ⟨id, [.role], some (target.status = .active)⟩)
  | .setStatus userId status =>
    match d.findById userId with
    | none => none
    | some target => some (d.withStatus userId status,
        if target.status ≠ status then [⟨userId, [.status], some (status = .active)⟩] else [])
  | .deleteUser userId now =>
    match d.findById userId with
    | none => none
    | some _ => some (d.withoutPerson userId now, [⟨userId, [.deleted], some false⟩])
  | .assignPerson userId org =>
    match d.findById userId, hfound : d.companies.find? fun c => c.id = org &&
      c.deletedAt.isNone with
    | some person, some company =>
      let current := if d.companyDeleted person then none else person.companyId
      if seesEveryOrg person.role then none
      else if current = some org then some (d, [])
      else if current ≠ none then none
      else some (d.assigned userId company (Table.mem_of_find? hfound), [⟨userId, [.role], none⟩])
    | _, _ => none
  | .removeDepartment me id now =>
    match d.removeDepartment me id now with
    | .error _ => none
    | .ok change => some (change.dir, change.published.map fun id => ⟨id, [.role], none⟩)
  | .removeOrganisation org now =>
    if d.users.rows.any fun u => u.companyId = some org && u.deletedAt.isNone &&
      u.status = .active then none
    else some (d.withoutOrganisation org now, [])

/-! ## Rooms that are kept -/

variable {d d' : Directory} {userId v : ℕ} {row u : Account} {header : OrgHeader}
  {sec : LiveSection}
  {r : Room} {w : AccessWrite} {events : List UserAccessChangedEvent} {g g' : ViewGrants}
    {ids ids' : List ℕ}

/-- The room of an organisation that was deleted. -/
def Directory.GoneRoom (d : Directory) (r : Room) : Prop :=
  ∃ co ∈ d.companies, r = .org co.id ∧ co.deletedAt ≠ none

/-- The account loses no room, but those of organisations that are deleted. -/
def Directory.KeepsRooms (d d' : Directory) (v : ℕ) : Prop :=
  ∀ header sec, ∀ r ∈ d.roomsFor v header sec, r ∈ d'.roomsFor v header sec ∨ d'.GoneRoom r

/-- The rooms of an account are those of its row, while the account is active and not deleted;
else it has none. -/
theorem mem_roomsFor : r ∈ d.roomsFor v header sec ↔
    ∃ row ∈ d.users, row.id = v ∧ row.deletedAt = none ∧ row.status = .active ∧
      r ∈ d.roomsOfAccount row header sec := by
  constructor
  · intro h
    unfold Directory.roomsFor at h
    split at h
    · cases h
    · next row hrow =>
      have hsel := Table.find?_spec hrow
      simp only [Bool.and_eq_true, decide_eq_true_eq, Option.isNone_iff_eq_none] at hsel
      exact ⟨row, Table.mem_of_find? hrow, hsel.1.1, hsel.1.2, hsel.2, h⟩
  · rintro ⟨row, hrow, rfl, hlive, hactive, h⟩
    rwa [roomsFor_eq hrow hlive hactive]

/-- More departments give a Manager more rooms and take none away. -/
theorem managerRooms_subset (h : ids ⊆ ids') :
    managerRooms g ids sec ⊆ managerRooms g ids' sec := by
  have hmap : ∀ f : ℕ → Room, ids.map f ⊆ ids'.map f := fun f => List.map_subset f h
  unfold managerRooms
  cases sec <;> dsimp only <;> split
  · exact hmap _
  · exact fun _ h => h
  · exact hmap _
  · split
    · exact hmap _
    · split
      · exact hmap _
      · exact fun _ h => h
  · exact hmap _
  · exact fun _ h => h

/-- The columns of an account that its rooms depend on. -/
def Account.SameAccess (u u' : Account) : Prop :=
  u'.id = u.id ∧ u'.deletedAt = u.deletedAt ∧ u'.status = u.status ∧ u'.role = u.role ∧
    u'.companyId = u.companyId ∧ u'.grants = u.grants

/-- An account has the access it has. -/
theorem Account.SameAccess.refl (u : Account) : u.SameAccess u := ⟨rfl, rfl, rfl, rfl, rfl, rfl⟩

/-- An account keeps its rooms when its row and the departments it manages stay, and no
organisation goes. -/
theorem keepsRooms_of_row
    (hrow : ∀ u ∈ d.users, u.id = v → u.deletedAt = none → u.status = .active →
      ∃ u' ∈ d'.users, u.SameAccess u')
    (hmanaged : ∀ u ∈ d.users, u.id = v → u.deletedAt = none → u.status = .active →
      u.role = .manager → d.managedDepartments v ⊆ d'.managedDepartments v)
    (hcompanies : ∀ co ∈ d.companies, co.deletedAt = none →
      ∃ co' ∈ d'.companies, co'.id = co.id) : d.KeepsRooms d' v := by
  intro header sec r hr
  obtain ⟨u, hu, rfl, hlive, hactive, hr⟩ := mem_roomsFor.1 hr
  obtain ⟨u', hu', hid, hlive', hactive', hrole, hcompany, hgrants⟩ := hrow u hu rfl hlive hactive
  have hjoins : r ∈ d'.roomsOfAccount u' header sec → r ∈ d'.roomsFor u.id header sec :=
    fun h => mem_roomsFor.2 ⟨u', hu', hid, hlive'.trans hlive, hactive'.trans hactive, h⟩
  unfold Directory.roomsOfAccount at hr hjoins
  rw [hrole, hcompany, hgrants, hid] at hjoins
  cases hcase : u.role with
  | superAdmin | superManager =>
    rw [hcase] at hr hjoins
    cases header with
    | blank | all | other => cases hr
    | uuid text =>
      dsimp only at hr hjoins
      cases hfind : d.companies.find? fun c => c.id = text.uuid && c.deletedAt.isNone with
      | none =>
        rw [hfind] at hr
        cases hr
      | some org =>
        rw [hfind] at hr
        obtain rfl := List.mem_singleton.1 hr
        have hsel := Table.find?_spec hfind
        simp only [Bool.and_eq_true, decide_eq_true_eq, Option.isNone_iff_eq_none] at hsel
        obtain ⟨co, hco, hid⟩ := hcompanies org (Table.mem_of_find? hfind) hsel.2
        by_cases hgone : co.deletedAt = none
        · refine .inl (hjoins ?_)
          rw [Table.find?_eq_some_of_key hco (by simp [hid, hsel.1, hgone]) fun c hc => by
            simp only [Bool.and_eq_true, decide_eq_true_eq] at hc
            rw [hc.1, hid, hsel.1]]
          exact List.mem_singleton.2 (by rw [hid])
        · exact .inr ⟨co, hco, by rw [hid], hgone⟩
  | admin =>
    rw [hcase] at hr hjoins
    exact .inl (hjoins hr)
  | manager =>
    rw [hcase] at hr hjoins
    exact .inl (hjoins (managerRooms_subset (hmanaged u hu rfl hlive hactive hcase) hr))
  | user =>
    rw [hcase] at hr
    cases hr

/-- A Manager manages the departments that are linked to them and not deleted. -/
theorem mem_managedDepartments {p : ℕ} : p ∈ d.managedDepartments v ↔
    ⟨v, p⟩ ∈ d.managerDepartments ∧ ∃ de ∈ d.departments, de.id = p ∧ de.deletedAt = none := by
  simp only [Directory.managedDepartments, List.mem_map, List.mem_filter, Bool.and_eq_true,
    decide_eq_true_eq, List.any_eq_true, Option.isNone_iff_eq_none, Table.mem_rows]
  constructor
  · rintro ⟨m, ⟨hm, rfl, hlive⟩, rfl⟩
    exact ⟨hm, hlive⟩
  · rintro ⟨hm, hlive⟩
    exact ⟨_, ⟨hm, rfl, hlive⟩, rfl⟩

section editUser

variable {f : Account → Account} {managed : List ManagerDepartment} {hid : ∀ u, (f u).id = u.id}
  {hcompany : ∀ u c, (f u).companyId = some c → u.companyId = some c ∨ ∃ co ∈ d.companies,
    co.id = c}
  {hdepartment : ∀ u p, (f u).departmentId = some p → u.departmentId = some p}
  {hmanaged : ∀ m ∈ managed, m ∈ d.managerDepartments}

/-- An edit of one account keeps the rooms of all whose access it leaves as it is, and so
of everybody else. -/
theorem keepsRooms_editUser (hlinks : ∀ m ∈ d.managerDepartments, m.managerId = v → m ∈ managed)
    (hsame : ∀ u ∈ d.users, u.id = v → v = userId → u.deletedAt = none → u.status = .active →
      u.SameAccess (f u)) :
    d.KeepsRooms (d.editUser userId f managed hid hcompany hdepartment hmanaged) v := by
  refine keepsRooms_of_row (fun u hu hv hlive hactive => ?_) (fun _ _ _ _ _ _ _ hp => ?_)
    fun co hco _ => ?_
  · show ∃ u' ∈ d.users.updateMany (fun u => u.id = userId) f hid, _
    refine ⟨_, Table.mem_updateMany_of_mem hu, ?_⟩
    split
    · next h => exact hsame u hu hv (hv ▸ of_decide_eq_true h) hlive hactive
    · exact Account.SameAccess.refl u
  · obtain ⟨hm, hlive⟩ := mem_managedDepartments.1 hp
    exact mem_managedDepartments.2 ⟨hlinks _ hm rfl, hlive⟩
  · exact ⟨co, hco, rfl⟩

/-- After an edit a row is as it was, or the edited one. -/
theorem mem_editUser
    (h : u ∈ (d.editUser userId f managed hid hcompany hdepartment hmanaged).users) :
    ∃ u' ∈ d.users, u = if u'.id = userId then f u' else u' := by
  obtain ⟨u', hu', h⟩ := List.mem_map.1 h
  exact ⟨u', hu', by simpa using h.symm⟩

/-- An edit of the columns that place nobody keeps everyone in their organisation and department. -/
theorem placed_editUser (h : d.Placed)
    (hmember : ∀ u, (f u).companyId = u.companyId ∨ (f u).departmentId = none)
    (hlinks : ∀ m ∈ managed, ∀ u, u.id = m.managerId → u.id = userId →
      (f u).companyId = u.companyId) :
    (d.editUser userId f managed hid hcompany hdepartment hmanaged).Placed where
  member := by
    intro u hu p hp de hde hdid
    obtain ⟨u', hu', rfl⟩ := mem_editUser hu
    split at hp
    · next hsel =>
      rw [if_pos hsel]
      rcases hmember u' with hcompany | hnone
      · rw [hcompany]
        exact h.member u' hu' p (hdepartment u' p hp) de hde hdid
      · rw [hnone] at hp
        cases hp
    · next hsel =>
      rw [if_neg hsel]
      exact h.member u' hu' p hp de hde hdid
  manager := by
    intro m hm u hu hmu de hde hdid
    obtain ⟨u', hu', rfl⟩ := mem_editUser hu
    have hmu' : u'.id = m.managerId := by
      rw [← hmu]
      split
      · exact (hid u').symm
      · rfl
    have hmine := h.manager m (hmanaged m hm) u' hu' hmu' de hde hdid
    split
    · next hsel =>
      rw [hlinks m hm u' hmu' hsel]
      exact hmine
    · exact hmine

end editUser

/-- An account that is found is a row that is not deleted. -/
theorem findById_spec (h : d.findById userId = some u) :
    u ∈ d.users ∧ u.id = userId ∧ u.deletedAt = none := by
  have hsel := Table.find?_spec h
  simp only [Bool.and_eq_true, decide_eq_true_eq, Option.isNone_iff_eq_none] at hsel
  exact ⟨Table.mem_of_find? h, hsel.1, hsel.2⟩

/-- An edit of a person that is not published leaves what they see as it is: the role, the placement
and the departments they manage. -/
theorem updateUser_unpublished {me : AuthenticatedUser} {input : PlacementInput}
    {change : Directory.AccessChange}
    (h : d.updateUser me userId input = .ok change) (hnone : change.published = []) :
    ∃ target, ∃ htarget : target ∈ d.users, ∃ org : UuidText, ∃ placement : d.Placement org.uuid,
      target.id = userId ∧ change.dir = d.place target htarget placement ∧
      placement.role = target.role ∧ placement.departmentId = target.departmentId ∧
      (∀ p ∈ d.managedDepartmentIds target, p ∈ placement.managed) ∧
          input.grantsChanged = false := by
  unfold Directory.updateUser at h
  split at h
  · cases h
  next target hfound =>
  have hsel := Table.find?_spec hfound
  simp only [Bool.and_eq_true, decide_eq_true_eq] at hsel
  obtain ⟨-, -, h⟩ := bind_eq_ok h
  obtain ⟨-, -, h⟩ := bind_eq_ok h
  obtain ⟨-, -, h⟩ := bind_eq_ok h
  obtain ⟨-, -, h⟩ := bind_eq_ok h
  obtain ⟨org, -, h⟩ := bind_eq_ok h
  obtain ⟨-, -, h⟩ := bind_eq_ok h
  obtain ⟨placement, -, h⟩ := bind_eq_ok h
  cases h
  dsimp only at hnone
  split at hnone
  · cases hnone
  next hsame =>
  simp only [Bool.or_eq_true, decide_eq_true_eq, not_or, not_not, Bool.not_eq_true',
    Bool.not_eq_false, Bool.not_eq_true] at hsame
  obtain ⟨⟨⟨hrole, hdepartment⟩, hids⟩, hgrants⟩ := hsame
  simp only [Directory.sameIds, Bool.and_eq_true, List.all_eq_true, List.contains_iff_mem] at hids
  exact ⟨target, Table.mem_of_find? hfound, org, placement, hsel.1, rfl, hrole, hdepartment,
    hids.2, hgrants⟩

/-- What two changes keep, both keep, as long as no room comes back. -/
theorem Directory.KeepsRooms.trans {d'' : Directory} (h : d.KeepsRooms d' v)
    (h' : d'.KeepsRooms d'' v)
    (hgone : ∀ r, d'.GoneRoom r → d''.GoneRoom r) : d.KeepsRooms d'' v := by
  intro header sec r hr
  rcases h header sec r hr with hr | hr
  · exact h' header sec r hr
  · exact .inr (hgone r hr)

/-- A placement keeps the rooms of everyone else, and of the person as long as it
changes nothing. -/
theorem keepsRooms_place {org : ℕ} {target : Account} {htarget : target ∈ d.users}
    {placement : d.Placement org}
    (hsame : v = target.id → placement.role = target.role ∧
      ∀ p ∈ d.managedDepartmentIds target, p ∈ placement.managed) :
    d.KeepsRooms (d.place target htarget placement) v := by
  refine keepsRooms_of_row (fun u hu hv _ _ => ?_) (fun u hu hv _ _ hrole p hp => ?_)
    fun co hco _ => ?_
  · refine ⟨_, Directory.mem_place_of_mem hu, ?_⟩
    split
    · next h =>
      obtain rfl := Table.eq_of_key hu htarget h
      exact ⟨rfl, rfl, rfl, (hsame hv.symm).1, rfl, rfl⟩
    · exact Account.SameAccess.refl u
  · obtain ⟨hm, hlive⟩ := mem_managedDepartments.1 hp
    refine mem_managedDepartments.2 ⟨List.mem_append_left _ (List.mem_filter.2 ⟨hm, ?_⟩), hlive⟩
    by_cases hne : v = target.id
    · obtain rfl := Table.eq_of_key hu htarget (hv.trans hne)
      have hkept :=
        (hsame hne).2 p (by rw [Directory.managedDepartmentIds, if_pos hrole, hv]; exact hp)
      simp [hkept]
    · simp [hne]
  · exact ⟨co, hco, rfl⟩

/-- Removing a department keeps the rooms of everyone who does not manage it; its
Managers are told. -/
theorem keepsRooms_withoutDepartment {id : ℕ} {now : ℤ} (hv : ⟨v, id⟩ ∉ d.managerDepartments) :
    d.KeepsRooms (d.withoutDepartment id now) v := by
  refine keepsRooms_of_row (fun u hu _ _ _ => ?_) (fun _ _ _ _ _ _ p hp => ?_) fun co hco _ => ?_
  · refine ⟨_, Directory.mem_withoutDepartment_of_mem hu, ?_⟩
    split
    · exact ⟨rfl, rfl, rfl, rfl, rfl, rfl⟩
    · exact Account.SameAccess.refl u
  · obtain ⟨hm, de, hde, rfl, hlive⟩ := mem_managedDepartments.1 hp
    have hne : de.id ≠ id := by
      rintro rfl
      exact hv hm
    refine mem_managedDepartments.2 ⟨List.mem_filter.2 ⟨hm, by simpa using hne⟩, de, ?_, rfl, hlive⟩
    exact List.mem_map.2 ⟨de, hde, if_neg (by simpa using hne)⟩
  · exact ⟨co, hco, rfl⟩

/-- Removing an organisation with nobody active in it takes no room away but its own rooms. -/
theorem keepsRooms_withoutOrganisation {org : ℕ} {now : ℤ} (hplaced : d.Placed)
    (hnobody : (d.users.rows.any fun u =>
      u.companyId = some org && u.deletedAt.isNone && u.status = .active) = false) :
    d.KeepsRooms (d.withoutOrganisation org now) v := by
  have hother : ∀ u ∈ d.users, u.deletedAt = none → u.status = .active →
      u.companyId ≠ some org := by
    intro u hu hlive hactive hcompany
    have := List.any_eq_false.1 hnobody u hu
    simp [hlive, hactive, hcompany] at this
  refine keepsRooms_of_row (fun u hu _ hlive hactive => ?_) (fun u hu hv hlive hactive _ p hp => ?_)
    fun co hco _ => ?_
  · have hstays : u ∈ (d.withoutOrganisation org now).users :=
      List.mem_map.2 ⟨u, hu, if_neg (by simp [hother u hu hlive hactive])⟩
    exact ⟨u, hstays, Account.SameAccess.refl u⟩
  · obtain ⟨hm, de, hde, rfl, hlive'⟩ := mem_managedDepartments.1 hp
    have hmine := hplaced.manager _ hm u hu hv de hde rfl
    have hne : de.companyId ≠ org := by
      rintro rfl
      exact hother u hu hlive hactive hmine
    have hstays : de ∈ (d.withoutOrganisation org now).departments :=
      List.mem_map.2 ⟨de, hde, if_neg (by simp [hne])⟩
    exact mem_managedDepartments.2 ⟨hm, de, hstays, rfl, hlive'⟩
  · refine ⟨_, List.mem_map.2 ⟨co, hco, rfl⟩, ?_⟩
    split <;> rfl

/-! ## Every edit -/

/-- Grants move nobody. -/
theorem placed_withGrants (h : d.Placed) : (d.withGrants userId g).Placed :=
  placed_editUser h (fun _ => .inl rfl) fun _ _ _ _ _ => rfl

/-- Deleting an organisation keeps everyone else in their organisation and department. -/
theorem placed_withoutOrganisation {org : ℕ} {now : ℤ} (h : d.Placed) :
    (d.withoutOrganisation org now).Placed := by
  have husers : ∀ u ∈ (d.withoutOrganisation org now).users, ∃ u' ∈ d.users,
      u'.id = u.id ∧ u'.companyId = u.companyId ∧ u'.departmentId = u.departmentId := by
    intro u hu
    obtain ⟨u', hu', rfl⟩ := List.mem_map.1 hu
    refine ⟨u', hu', ?_⟩
    split <;> exact ⟨rfl, rfl, rfl⟩
  have hdepartments : ∀ de ∈ (d.withoutOrganisation org now).departments, ∃ de' ∈ d.departments,
      de'.id = de.id ∧ de'.companyId = de.companyId := by
    intro de hde
    obtain ⟨de', hde', rfl⟩ := List.mem_map.1 hde
    refine ⟨de', hde', ?_⟩
    split <;> exact ⟨rfl, rfl⟩
  constructor
  · intro u hu p hp de hde hid
    obtain ⟨u', hu', -, hcompany, hdepartment⟩ := husers u hu
    obtain ⟨de', hde', hid', hcompany'⟩ := hdepartments de hde
    rw [← hcompany, ← hcompany']
    exact h.member u' hu' p (hdepartment.trans hp) de' hde' (hid'.trans hid)
  · intro m hm u hu hmu de hde hid
    obtain ⟨u', hu', hid'', hcompany, -⟩ := husers u hu
    obtain ⟨de', hde', hid', hcompany'⟩ := hdepartments de hde
    rw [← hcompany, ← hcompany']
    exact h.manager m hm u' hu' (hid''.trans hmu) de' hde' (hid'.trans hid)

/-- An edit of a person that is not published takes no room away from anybody. -/
theorem keepsRooms_unpublished {me : AuthenticatedUser} {input : PlacementInput}
    {change : Directory.AccessChange} {found : Account} (hfound : d.findById userId = some found)
    (h : d.updateUser me userId { input with grantsChanged := found.grants ≠ g } = .ok change)
    (hnone : change.published = []) : d.KeepsRooms (change.dir.withGrants userId g) v := by
  obtain ⟨target, htarget, org, placement, hid, hdir, hrole, -, hmanaged, hgrants⟩ :=
    updateUser_unpublished h hnone
  obtain ⟨hmem, hfoundId, -⟩ := findById_spec hfound
  have hg : found.grants = g := by simpa using hgrants
  rw [hdir]
  refine .trans (keepsRooms_place fun _ => ⟨hrole, hmanaged⟩)
    (keepsRooms_editUser (fun _ h _ => h) fun u hu hv hvu _ _ => ?_) fun _ h => h
  obtain ⟨u', hu', rfl⟩ := Directory.mem_place hu
  have hfoundRow : u' = found := by
    refine Table.eq_of_key hu' hmem ?_
    rw [hfoundId, ← hvu, ← hv]
    split <;> rfl
  refine ⟨rfl, rfl, rfl, rfl, rfl, ?_⟩
  rw [hfoundRow]
  split <;> exact hg.symm

/-- Whoever an edit takes rooms from is told, apart from the rooms of organisations it deletes. -/
structure AccessWrite.Sound (d d' : Directory) (events : List UserAccessChangedEvent) : Prop where
  placed : d'.Placed
  gone : ∀ r, d.GoneRoom r → d'.GoneRoom r
  keeps : ∀ v, d.KeepsRooms d' v ∨ ∃ e ∈ events, e.userId = v ∧ e.evicts = true

/-- Every edit keeps everybody in their organisation, and publishes an event for each account it
takes a room from. -/
theorem AccessWrite.sound (h : w.apply d = some (d', events)) (hplaced : d.Placed) :
    AccessWrite.Sound d d' events := by
  have hrefl : AccessWrite.Sound d d [] :=
    ⟨hplaced, fun _ h => h, fun v => .inl fun _ _ _ h => .inl h⟩
  cases w with
  | setGrants userId grants =>
    simp only [AccessWrite.apply] at h
    split at h
    · cases h
    · next target hfound =>
      split at h
      · cases h
      split at h
      · cases h
        exact hrefl
      · cases h
        refine ⟨placed_withGrants hplaced, fun _ h => h, fun v => ?_⟩
        by_cases hv : v = userId
        · exact .inr ⟨_, List.mem_singleton.2 rfl, hv.symm, rfl⟩
        · exact .inl (keepsRooms_editUser (fun _ h _ => h) fun _ _ _ h => absurd h hv)
  | updateUser me userId input grants =>
    simp only [AccessWrite.apply] at h
    split at h
    · cases h
    next found hfound =>
    split at h
    · cases h
    next change hchange =>
    cases h
    obtain ⟨target, htarget, org, placement, hid, -, hcompany, -, -, hdir, -, hpublished⟩ :=
      Directory.updateUser_cases hchange
    refine ⟨?_, ?_, fun v => ?_⟩
    · rw [hdir]
      exact placed_withGrants (hplaced.place htarget hcompany placement)
    · rw [hdir]
      exact fun _ h => h
    · by_cases hv : v = target.id
      · rcases hpublished with hone | hnone
        · refine .inr ⟨_, List.mem_map.2 ⟨target.id, ?_, rfl⟩, hv.symm, rfl⟩
          rw [hone]
          exact List.mem_singleton.2 rfl
        · exact .inl (keepsRooms_unpublished hfound hchange hnone)
      · rw [hdir]
        refine .inl (.trans (keepsRooms_place fun h => absurd h hv)
          (keepsRooms_editUser (fun _ h _ => h) ?_)
          fun _ h => h)
        exact fun _ _ _ h => absurd (h.trans hid.symm) hv
  | setStatus userId status =>
    simp only [AccessWrite.apply] at h
    split at h
    · cases h
    next target hfound =>
    cases h
    obtain ⟨htarget, hid, -⟩ := findById_spec hfound
    refine ⟨placed_editUser hplaced (fun _ => .inl rfl) fun _ _ _ _ _ => rfl,
      fun _ h => h, fun v => ?_⟩
    by_cases hv : v = userId
    · by_cases hevicts : target.status ≠ status ∧ status ≠ .active
      · refine .inr ⟨⟨userId, [.status], some (status = .active)⟩, ?_, hv.symm, ?_⟩
        · rw [if_pos hevicts.1]
          exact List.mem_singleton.2 rfl
        · simp [UserAccessChangedEvent.evicts, hevicts.2]
      · -- an account that was active stays so
        refine .inl (keepsRooms_editUser (fun _ h _ => h) fun u hu hu' _ _ hactive => ?_)
        obtain rfl := Table.eq_of_key hu htarget (hu'.trans (hv.trans hid.symm))
        have hstatus : status = u.status := by
          by_contra hne
          exact hevicts ⟨Ne.symm hne, fun h => hne (h.trans hactive.symm)⟩
        exact ⟨rfl, rfl, hstatus, rfl, rfl, rfl⟩
    · exact .inl (keepsRooms_editUser (fun _ h _ => h) fun _ _ _ h => absurd h hv)
  | deleteUser userId now =>
    simp only [AccessWrite.apply] at h
    split at h
    · cases h
    cases h
    refine ⟨placed_editUser hplaced (fun _ => .inl rfl) fun _ _ _ _ _ => rfl,
      fun _ h => h, fun v => ?_⟩
    by_cases hv : v = userId
    · exact .inr ⟨_, List.mem_singleton.2 rfl, hv.symm, rfl⟩
    · exact .inl (keepsRooms_editUser (fun _ h _ => h) fun _ _ _ h => absurd h hv)
  | assignPerson userId org =>
    simp only [AccessWrite.apply] at h
    split at h
    · next person company _ _ =>
      generalize (if d.companyDeleted person = true then none else person.companyId) = current at h
      by_cases hrole : seesEveryOrg person.role = true
      · rw [if_pos hrole] at h
        cases h
      rw [if_neg hrole] at h
      by_cases hsame : current = some org
      · rw [if_pos hsame] at h
        cases h
        exact hrefl
      rw [if_neg hsame] at h
      by_cases hother : current = none
      swap
      · rw [if_pos hother] at h
        cases h
      rw [if_neg (not_not.2 hother)] at h
      cases h
      have hleft : ∀ m : ManagerDepartment, m ∈ d.managerDepartments.filter
        (fun m => m.managerId ≠ userId) →
          m.managerId ≠ userId := fun m hm => of_decide_eq_true (List.mem_filter.1 hm).2
      refine ⟨placed_editUser hplaced (fun _ => .inr rfl) ?_, fun _ h => h, fun v => ?_⟩
      · exact fun m hm u hu hid => absurd (hu.symm.trans hid) (hleft m hm)
      · by_cases hv : v = userId
        · exact .inr ⟨_, List.mem_singleton.2 rfl, hv.symm, rfl⟩
        · refine .inl (keepsRooms_editUser (fun m hm h => ?_) fun _ _ _ h => absurd h hv)
          exact List.mem_filter.2 ⟨hm, decide_eq_true (h ▸ hv)⟩
    · cases h
  | removeDepartment me id now =>
    simp only [AccessWrite.apply] at h
    split at h
    · cases h
    next change hchange =>
    cases h
    obtain ⟨_, -, hchange⟩ := bind_eq_ok hchange
    obtain ⟨_, -, hchange⟩ := bind_eq_ok hchange
    obtain ⟨_, -, hchange⟩ := bind_eq_ok hchange
    obtain ⟨_, -, hchange⟩ := bind_eq_ok hchange
    cases hchange
    refine ⟨hplaced.withoutDepartment id, fun _ h => h, fun v => ?_⟩
    by_cases hv : ⟨v, id⟩ ∈ d.managerDepartments
    · have hmanages : (⟨v, id⟩ : ManagerDepartment) ∈ d.managerDepartments.filter fun m =>
        m.departmentId = id :=
        List.mem_filter.2 ⟨hv, decide_eq_true rfl⟩
      exact .inr
        ⟨_, List.mem_map.2 ⟨v, List.mem_eraseDups.2 (List.mem_map_of_mem hmanages), rfl⟩, rfl, rfl⟩
    · exact .inl (keepsRooms_withoutDepartment hv)
  | removeOrganisation org now =>
    simp only [AccessWrite.apply] at h
    split at h
    · cases h
    next hnobody =>
    cases h
    refine ⟨placed_withoutOrganisation hplaced, ?_, fun v => ?_⟩
    · rintro r ⟨co, hco, rfl, hgone⟩
      refine ⟨_, List.mem_map.2 ⟨co, hco, rfl⟩, ?_⟩
      split
      · exact ⟨rfl, nofun⟩
      · exact ⟨rfl, hgone⟩
    · exact .inl (keepsRooms_withoutOrganisation hplaced (Bool.eq_false_iff.2 hnobody))

/-! ## Sockets -/

/-- How far a connection has come: its account was active; it is in the account's room; its rooms
are read; it has joined them. -/
inductive SocketPhase
  | admitted | inAccount
  | read (rooms : List Room)
  | joined (rooms : List Room)
  deriving DecidableEq, Repr

/-- The rooms that a connection has read. -/
def SocketPhase.rooms : SocketPhase → List Room
  | .read rooms | .joined rooms => rooms
  | .admitted | .inAccount => []

structure Socket where
  id : ℕ
  account : ℕ
  orgHint : OrgHeader
  sec : LiveSection
  phase : SocketPhase
  deriving DecidableEq, Repr

/-- An edit under way, with what it has read. -/
structure Edit where
  write : AccessWrite
  read : Directory

/-- The database, the open sockets, the edits that have read and not yet saved, and the events that
are written and not yet published. -/
structure LiveServer where
  dir : Directory
  sockets : List Socket
  next : ℕ
  editing : List Edit
  pending : List UserAccessChangedEvent

inductive LiveAction
  /-- `isActive` reads the account. -/
  | connect (account : ℕ) (orgHint : OrgHeader) (sec : LiveSection)
  | joinAccount (a : Socket)
  /-- `roomsFor` reads, or fails and answers with no room. -/
  | readRooms (a : Socket) (ok : Bool)
  | joinRooms (a : Socket)
  | disconnect (a : Socket)
  /-- An edit reads. -/
  | load (w : AccessWrite)
  /-- The edit `i` checks and saves, and finds what it has read. -/
  | save (i : ℕ)
  /-- The edit `i` saves after another one has changed what it has read. -/
  | saveOvertaken (i : ℕ) (written : Directory) (events : List UserAccessChangedEvent)
  /-- `onAccessChanged`. -/
  | publish (e : UserAccessChangedEvent)

/-- `isActive`. -/
def Directory.isActive (d : Directory) (userId : ℕ) : Bool :=
  d.users.rows.any fun u => u.id = userId && u.deletedAt.isNone && u.status = .active

namespace LiveServer

/-- Nobody is connected. -/
def start (d : Directory) : LiveServer := ⟨d, [], 0, [], []⟩

/-- The connection comes further. -/
def goOn (s : LiveServer) (a : Socket) (phase : SocketPhase) : LiveServer :=
  { s with sockets := { a with phase } :: s.sockets.erase a }

/-- The edit `i` is saved. -/
def saved (s : LiveServer) (i : ℕ) (written : Directory) (events : List UserAccessChangedEvent) :
    LiveServer :=
  { s with dir := written, editing := s.editing.eraseIdx i, pending := s.pending ++ events }

/-- The step that an action names; `none` when it cannot happen. -/
def step (s : LiveServer) : LiveAction → Option LiveServer
  | .connect account orgHint sec =>
    if s.dir.isActive account then
      some { s with
        sockets := ⟨s.next, account, orgHint, sec, .admitted⟩ :: s.sockets
        next := s.next + 1 }
    else none
  | .joinAccount a =>
    if a ∈ s.sockets ∧ a.phase = .admitted then some (s.goOn a .inAccount) else none
  | .readRooms a ok =>
    if a ∈ s.sockets ∧ a.phase = .inAccount then
      some (s.goOn a (.read (if ok then s.dir.roomsFor a.account a.orgHint a.sec else [])))
    else none
  | .joinRooms a =>
    match a.phase with
    | .read rooms => if a ∈ s.sockets then some (s.goOn a (.joined rooms)) else none
    | _ => none
  | .disconnect a => if a ∈ s.sockets then some { s with sockets := s.sockets.erase a } else none
  | .load w => some { s with editing := s.editing ++ [⟨w, s.dir⟩] }
  | .save i =>
    match s.editing[i]? with
    | some e =>
      if e.write.Finds e.read s.dir then (e.write.apply s.dir).map fun p => s.saved i p.1 p.2
      else none
    | none => none
  | .saveOvertaken i written events =>
    match s.editing[i]? with
    | some e => if e.write.Finds e.read s.dir then none else some (s.saved i written events)
    | none => none
  | .publish e =>
    if e ∈ s.pending then
      some { s with
        pending := s.pending.erase e
        sockets :=
          if e.evicts then s.sockets.filter fun a => ¬(a.account = e.userId ∧ a.phase ≠ .admitted)
          else s.sockets }
    else none

variable {s s' : LiveServer} {act : LiveAction} {acts : List LiveAction} {a b : Socket}

/-- The account has the room, or lost it and is told. -/
def Follows (s : LiveServer) (a : Socket) (r : Room) : Prop :=
  r ∈ s.dir.roomsFor a.account a.orgHint a.sec ∨ s.dir.GoneRoom r ∨
    ∃ e ∈ s.pending, e.userId = a.account ∧ e.evicts = true

/-- What a step keeps. -/
structure FollowsAccess (s : LiveServer) : Prop where
  placed : s.dir.Placed
  rooms : ∀ a ∈ s.sockets, ∀ r ∈ a.phase.rooms, s.Follows a r

namespace FollowsAccess

/-- A connection comes further. -/
theorem goOn (h : s.FollowsAccess) {phase : SocketPhase}
    (hrooms : ∀ r ∈ phase.rooms, s.Follows a r) :
    (s.goOn a phase).FollowsAccess := by
  refine ⟨h.placed, fun b hb => ?_⟩
  rcases List.mem_cons.1 hb with rfl | hb
  · exact hrooms
  · exact h.rooms b (List.mem_of_mem_erase hb)

/-- An edit that is saved as it was read takes rooms only from accounts that it tells. -/
theorem saved (h : s.FollowsAccess) {w : AccessWrite} {d : Directory}
    {events : List UserAccessChangedEvent} (hw : w.apply s.dir = some (d, events)) (i : ℕ) :
    (s.saved i d events).FollowsAccess := by
  obtain ⟨hplaced, hgone, hkeeps⟩ := AccessWrite.sound hw h.placed
  refine ⟨hplaced, fun a ha r hr => ?_⟩
  rcases h.rooms a ha r hr with hin | hin | ⟨e, he, hwho⟩
  · rcases hkeeps a.account with hkeep | ⟨e, he, hwho⟩
    · exact (hkeep _ _ r hin).imp_right .inl
    · exact .inr (.inr ⟨e, List.mem_append_right _ he, hwho⟩)
  · exact .inr (.inl (hgone r hin))
  · exact .inr (.inr ⟨e, List.mem_append_left _ he, hwho⟩)

/-- An event drops the sockets of the account that it is about, so nothing is pending
for them any more. -/
theorem publish (h : s.FollowsAccess) {e : UserAccessChangedEvent} : FollowsAccess { s with
    pending := s.pending.erase e
    sockets :=
      if e.evicts then s.sockets.filter fun a => ¬(a.account = e.userId ∧ a.phase ≠ .admitted)
      else s.sockets } := by
  refine ⟨h.placed, fun a ha r hr => ?_⟩
  have hmem : a ∈ s.sockets ∧ (e.evicts = true → a.account ≠ e.userId) := by
    dsimp only at ha
    split at ha
    · obtain ⟨ha, hstays⟩ := List.mem_filter.1 ha
      refine ⟨ha, fun _ hsame => of_decide_eq_true hstays ⟨hsame, ?_⟩⟩
      intro hphase
      rw [hphase] at hr
      cases hr
    · next hevicts => exact ⟨ha, fun h => absurd h hevicts⟩
  rcases h.rooms a hmem.1 r hr with hin | hin | ⟨e', he', hwho, hevicts⟩
  · exact .inl hin
  · exact .inr (.inl hin)
  · refine .inr (.inr ⟨e', (List.mem_erase_of_ne ?_).2 he', hwho, hevicts⟩)
    rintro rfl
    exact hmem.2 hevicts hwho.symm

/-- Every step keeps that whoever lost a room is told, but for an edit that was overtaken between
its read and its save. -/
theorem step (h : s.FollowsAccess) (hedit : ∀ i d events, act ≠ .saveOvertaken i d events)
    (hs : s.step act = some s') : s'.FollowsAccess := by
  cases act with
  | connect account orgHint sec =>
    simp only [LiveServer.step] at hs
    split at hs
    · cases hs
      refine ⟨h.placed, fun a ha r hr => ?_⟩
      rcases List.mem_cons.1 ha with rfl | ha
      · cases hr
      · exact h.rooms a ha r hr
    · cases hs
  | joinAccount a =>
    simp only [LiveServer.step] at hs
    split at hs
    · cases hs
      exact h.goOn nofun
    · cases hs
  | readRooms a ok =>
    simp only [LiveServer.step] at hs
    split at hs
    · cases hs
      refine h.goOn fun r hr => .inl ?_
      cases ok with
      | true => exact hr
      | false => cases hr
    · cases hs
  | joinRooms a =>
    simp only [LiveServer.step] at hs
    split at hs
    · next rooms hphase =>
      split at hs
      · next ha =>
        cases hs
        exact h.goOn fun r hr => h.rooms a ha r (hphase ▸ hr)
      · cases hs
    · cases hs
  | disconnect a =>
    simp only [LiveServer.step] at hs
    split at hs
    · cases hs
      exact ⟨h.placed, fun b hb => h.rooms b (List.mem_of_mem_erase hb)⟩
    · cases hs
  | load w =>
    cases hs
    exact ⟨h.placed, h.rooms⟩
  | save i =>
    simp only [LiveServer.step] at hs
    split at hs
    · split at hs
      · obtain ⟨⟨d, events⟩, hw, rfl⟩ := Option.map_eq_some_iff.1 hs
        exact h.saved hw i
      · cases hs
    · cases hs
  | saveOvertaken i d events => exact absurd rfl (hedit i d events)
  | publish e =>
    simp only [LiveServer.step] at hs
    split at hs
    · cases hs
      exact h.publish
    · cases hs

end FollowsAccess

end LiveServer

end RxVision
