import RxVision.Departments.Links

/-!
# Department links never dangle

`create` and `save` write a link to a department, and its name, as they have read it, in a
transaction that reads neither again; `update` and `remove` change the rows that their statements
have picked. So a rename or a removal between the read and the write leaves an old text or a link to
a deleted department (`rename_leaves_old_text`), and so does a write between the pick and the
commit. `update` itself writes the name it has read when only the icon is to change, and so takes
back a rename that came between, without the texts. In every run whose writes find what they write
still standing (`LinksStand`), the links are sound (`links_sound`).
-/

namespace RxVision

/-- The department of every account that is not deleted is live, of the account's organisation and
under its current name, and so are, but for the name, the departments that Managers oversee. -/
structure LinksSound (db : LinkStore) : Prop where
  placed : ∀ u ∈ db.people, u.deletedAt = none → ∀ id, u.departmentId = some id →
    ∃ d ∈ db.departments, d.id = id ∧ d.deletedAt = none ∧ u.companyId = some d.companyId ∧
      u.department = some d.name
  managing : ∀ l ∈ db.managed, ∃ u ∈ db.people, u.id = l.managerId ∧
    ∃ d ∈ db.departments, d.id = l.departmentId ∧ d.deletedAt = none ∧ u.companyId =
      some d.companyId

/-- The department whose people the transaction has picked. -/
def LinkTx.picksPeople (tx : LinkTx) : Option ℕ :=
  match tx.op, tx.phase with
  | .update _ id _ _, .renames _ _ _ | .remove _ id _, .swept _ _ => some id
  | _, _ => none

/-- The department whose rows of `manager_departments` the transaction has picked. -/
def LinkTx.picksLinks (tx : LinkTx) : Option ℕ :=
  match tx.op, tx.phase with
  | .remove _ id _, .unmanaged _ | .remove _ id _, .swept _ _ => some id
  | _, _ => none

namespace LinkWorld

/-- The department is the organisation's, not deleted, under that name, and nobody is about to
rename or delete it once its people are picked. -/
def DepartmentStands (w : LinkWorld) (org : ℕ) (departmentId : Option ℕ)
    (text : Option String) : Prop :=
  ∀ id ∈ departmentId, (∃ d ∈ w.db.departments, d.id = id ∧ d.deletedAt = none ∧ d.companyId = org ∧
    text = some d.name) ∧ ∀ tx ∈ w.txs, tx.picksPeople ≠ some id

/-- The departments are the organisation's, not deleted, and nobody is about to delete one once
its Managers are picked. -/
def ManagedStand (w : LinkWorld) (org : ℕ) (ids : List ℕ) : Prop :=
  ∀ id ∈ ids, (∃ d ∈ w.db.departments, d.id = id ∧ d.deletedAt = none ∧ d.companyId = org) ∧
    ∀ tx ∈ w.txs, tx.picksLinks ≠ some id

/-- What a transaction writes still stands. -/
def WriteStands (w : LinkWorld) (tx : LinkTx) : Prop :=
  match tx.op, tx.phase with
  -- the name it has read is written again
  | .update _ id _ _, .updating name _ false =>
    ∀ d ∈ w.db.departments, d.id = id → d.deletedAt = none → d.name = name
  | .create org _, .placed p =>
    w.DepartmentStands org (p.department.map DepartmentRow.id)
      (p.department.map DepartmentRow.name) ∧ w.ManagedStand org p.managed
  | .updateUser _ org _, .ready person p | .reactivate _ org _, .ready person p =>
    w.DepartmentStands org (LinkStore.entity person p).departmentId
        (LinkStore.entity person p).department ∧
      match p with
      | some p => w.ManagedStand org p.managed
      -- the departments it oversees stay with the account
      | none => ∀ u ∈ w.db.people, u.id = person.id → u.companyId = person.companyId
  | .assignPerson userId _, .unmanaged links => ∀ l ∈ w.db.managed, l.managerId = userId → l ∈ links
  | _, _ => True

/-- Every write finds what it writes still standing. -/
def LinksStand (w : LinkWorld) : LinkAction → Prop
  | .proceed i => ∀ tx ∈ w.txs[i]?, w.WriteStands tx
  | .begins _ | .fails _ => True

end LinkWorld

variable {db db' : LinkStore} {u : PersonRow} {l : ManagerDepartment}

/-! ## The tables after a commit -/

namespace LinkStore

variable {id userId org : ℕ} {name icon : String} {ids : List ℕ} {links : List ManagerDepartment}
  {now : ℤ} {p : PlacementMade} {pl : Option PlacementMade} {person : PersonRow} {activates : Bool}
  {d : DepartmentRow}

/-- The links of `withLinks` are those there were and those of the person to the departments:
`createMany` skips duplicates. -/
theorem mem_withLinks : l ∈ withLinks userId ids links ↔
    l ∈ links ∨ (l.managerId = userId ∧ l.departmentId ∈ ids) := by
  simp only [withLinks, List.mem_append, List.mem_filter, List.mem_map, List.mem_eraseDups,
    Bool.not_eq_true', List.contains_eq_mem, decide_eq_false_iff_not]
  constructor
  · rintro (hl | ⟨⟨id, hid, rfl⟩, -⟩)
    · exact Or.inl hl
    · exact Or.inr ⟨rfl, hid⟩
  · rintro (hl | ⟨rfl, hid⟩)
    · exact Or.inl hl
    · exact (em (l ∈ links)).imp_right fun hnot => ⟨⟨l.departmentId, hid, rfl⟩, hnot⟩

/-- A rename writes the new text to the picked people that are still in the
department and not deleted. -/
theorem mem_updated : u ∈ (db.updated id name icon ids).people ↔
    (u ∈ db.people ∧ ¬ (u.id ∈ ids ∧ u.departmentId = some id ∧ u.deletedAt = none)) ∨
      ∃ u₀ ∈ db.people, (u₀.id ∈ ids ∧ u₀.departmentId = some id ∧ u₀.deletedAt = none) ∧
        u = { u₀ with department := some name } := by
  rw [updated, Table.mem_updateMany]
  simp only [← Bool.not_eq_true, Bool.and_eq_true, List.contains_eq_mem, decide_eq_true_eq,
    Option.isNone_iff_eq_none, and_assoc]

/-- A rename writes the name and the icon of its department. -/
theorem mem_updated_departments : d ∈ (db.updated id name icon ids).departments ↔
    (d ∈ db.departments ∧ d.id ≠ id) ∨
      ∃ d₀ ∈ db.departments, d₀.id = id ∧ d = { d₀ with name, icon } := by
  rw [updated, Table.mem_updateMany]
  simp only [decide_eq_false_iff_not, decide_eq_true_eq]

/-- A removal takes the picked people that are still in the department out of it. -/
theorem mem_removed : u ∈ (db.removed id now links ids).people ↔
    (u ∈ db.people ∧ ¬ (u.id ∈ ids ∧ u.departmentId = some id)) ∨
      ∃ u₀ ∈ db.people, (u₀.id ∈ ids ∧ u₀.departmentId = some id) ∧
        u = { u₀ with departmentId := none } := by
  rw [removed, Table.mem_updateMany]
  simp only [← Bool.not_eq_true, Bool.and_eq_true, List.contains_eq_mem, decide_eq_true_eq]

/-- A removal marks its department deleted. -/
theorem mem_removed_departments : d ∈ (db.removed id now links ids).departments ↔
    (d ∈ db.departments ∧ d.id ≠ id) ∨
      ∃ d₀ ∈ db.departments, d₀.id = id ∧ d = { d₀ with deletedAt := some now } := by
  rw [removed, Table.mem_updateMany]
  simp only [decide_eq_false_iff_not, decide_eq_true_eq]

/-- A removal deletes the picked links. -/
theorem mem_removed_managed : l ∈ (db.removed id now links ids).managed ↔
    l ∈ db.managed ∧ l ∉ links := by
  simp only [removed, List.mem_filter, Bool.not_eq_true', List.contains_eq_mem,
    decide_eq_false_iff_not]

/-- A created account is a new row with the department that its placement found. -/
theorem mem_created : u ∈ (db.created org p).people ↔
    u ∈ db.people ∨
    u = ⟨db.people.next, p.role, .active, some org, p.department.map DepartmentRow.id,
      p.department.map DepartmentRow.name, none⟩ := by
  rw [created, Table.mem_create]

/-- A save writes the row it has read the person from. -/
theorem mem_saved : u ∈ (db.saved person pl activates).people ↔
    (u ∈ db.people ∧ u.id ≠ person.id) ∨
      ∃ u₀ ∈ db.people, u₀.id = person.id ∧ u = savedRow person pl activates u₀ := by
  rw [saved, Table.mem_updateMany]
  simp only [decide_eq_false_iff_not, decide_eq_true_eq]

/-- After a save that has set them, the person oversees the departments of the placement only; the
links of everybody else are as they were. -/
theorem mem_saved_managed : l ∈ (db.saved person (some p) activates).managed ↔
    (l ∈ db.managed ∧ l.managerId ≠ person.id) ∨
      (l.managerId = person.id ∧ l.departmentId ∈ p.managed) := by
  change l ∈ withLinks person.id p.managed _ ↔ _
  rw [mem_withLinks, List.mem_filter]
  simp only [Bool.not_eq_true', Bool.and_eq_false_iff, decide_eq_false_iff_not, Bool.not_eq_false',
    List.contains_eq_mem, decide_eq_true_eq]
  tauto

/-- `assignPerson` writes the person's organisation and clears the department. -/
theorem mem_assigned : u ∈ (db.assigned userId org links).people ↔
    (u ∈ db.people ∧ u.id ≠ userId) ∨ ∃ u₀ ∈ db.people, u₀.id = userId ∧
      u = { u₀ with companyId := some org, departmentId := none } := by
  rw [assigned, Table.mem_updateMany]
  simp only [decide_eq_false_iff_not, decide_eq_true_eq]

/-- `assignPerson` deletes the picked links. -/
theorem mem_assigned_managed : l ∈ (db.assigned userId org links).managed ↔
    l ∈ db.managed ∧ l ∉ links := by
  simp only [assigned, List.mem_filter, Bool.not_eq_true', List.contains_eq_mem,
    decide_eq_false_iff_not]

/-! ## The commits keep the links sound -/

/-- After an `update` every department is there, with the new name if it is the one, in the same
organisation and as much deleted as before. -/
theorem exists_updated_department (id : ℕ) (name icon : String) (ids : List ℕ) {d : DepartmentRow}
    (hd : d ∈ db.departments) :
    ∃ d' ∈ (db.updated id name icon ids).departments, d'.id = d.id ∧
      d'.deletedAt = d.deletedAt ∧ d'.companyId = d.companyId ∧
      d'.name = if d.id = id then name else d.name := by
  rcases eq_or_ne d.id id with hid | hne
  · exact ⟨{ d with name, icon }, mem_updated_departments.2 (Or.inr ⟨d, hd, hid, rfl⟩), rfl, rfl,
      rfl, (if_pos hid).symm⟩
  · exact ⟨d, mem_updated_departments.2 (Or.inl ⟨hd, hne⟩), rfl, rfl, rfl, (if_neg hne).symm⟩

/-- An `update` keeps the links sound when it sweeps all members of the department, or writes the
name that stands: an update of the icon alone writes the name it read and sweeps nobody. -/
theorem sound_updated (h : LinksSound db)
    (hids : (∀ u ∈ db.people, u.deletedAt = none → u.departmentId = some id → u.id ∈ ids) ∨
      ∀ d ∈ db.departments, d.id = id → d.deletedAt = none → d.name = name) :
    LinksSound (db.updated id name icon ids) where
  placed u hu hdel id' hid' := by
    rcases mem_updated.1 hu with ⟨hu₀, hnot⟩ | ⟨u₀, hu₀, ⟨-, hid₀, hdel₀⟩, rfl⟩
    · obtain ⟨d, hd, rfl, hlive, horg, htext⟩ := h.placed u hu₀ hdel id' hid'
      obtain ⟨d', hd', hdid, hdlive, hdorg, hdname⟩ :=
        exists_updated_department id name icon ids hd
      refine ⟨d', hd', hdid, hdlive.trans hlive, by rw [hdorg]; exact horg, ?_⟩
      rw [hdname, htext]
      split
      · next hid =>
        -- the member was not picked, so the name is the one that stands
        have hstands := hids.resolve_left fun hall =>
          hnot ⟨hall u hu₀ hdel (hid ▸ hid'), hid ▸ hid', hdel⟩
        rw [hstands d hd hid hlive]
      · rfl
    · obtain rfl := Option.some.inj (hid₀.symm.trans hid')
      obtain ⟨d, hd, rfl, hlive, horg, -⟩ := h.placed u₀ hu₀ hdel₀ id hid₀
      exact ⟨{ d with name, icon }, mem_updated_departments.2 (Or.inr ⟨d, hd, rfl, rfl⟩), rfl,
        hlive, horg, rfl⟩
  managing l hl := by
    obtain ⟨u, hu, hlu, d, hd, hdl, hlive, horg⟩ := h.managing l hl
    obtain ⟨d', hd', hdid, hdlive, hdorg, -⟩ := exists_updated_department id name icon ids hd
    have hu' : ∃ u' ∈ (db.updated id name icon ids).people,
        u'.id = u.id ∧ u'.companyId = u.companyId := by
      rcases em (u.id ∈ ids ∧ u.departmentId = some id ∧ u.deletedAt = none) with hp | hnot
      · exact ⟨_, mem_updated.2 (Or.inr ⟨u, hu, hp, rfl⟩), rfl, rfl⟩
      · exact ⟨u, mem_updated.2 (Or.inl ⟨hu, hnot⟩), rfl, rfl⟩
    obtain ⟨u', hu', huid, huorg⟩ := hu'
    exact ⟨u', hu', huid.trans hlu, d', hd', hdid.trans hdl, hdlive.trans hlive, by
      rw [huorg, hdorg]
      exact horg⟩

/-- A removal keeps the links sound when it has picked everybody in the department and
everybody that manages it. -/
theorem sound_removed (h : LinksSound db)
    (hids : ∀ u ∈ db.people, u.departmentId = some id → u.id ∈ ids)
    (hlinks : ∀ l ∈ db.managed, l.departmentId = id → l ∈ links) :
    LinksSound (db.removed id now links ids) where
  placed u hu hdel id' hid' := by
    rcases mem_removed.1 hu with ⟨hu₀, hnot⟩ | ⟨u₀, -, -, rfl⟩
    · have hne : id' ≠ id := by
        rintro rfl
        exact hnot ⟨hids u hu₀ hid', hid'⟩
      obtain ⟨d, hd, rfl, hlive⟩ := h.placed u hu₀ hdel id' hid'
      exact ⟨d, mem_removed_departments.2 (Or.inl ⟨hd, hne⟩), rfl, hlive⟩
    · cases hid'
  managing l hl := by
    obtain ⟨hl₀, hnot⟩ := mem_removed_managed.1 hl
    obtain ⟨u, hu, hlu, d, hd, hdl, hlive, horg⟩ := h.managing l hl₀
    have hne : d.id ≠ id := fun hid => hnot (hlinks l hl₀ (hdl.symm.trans hid))
    have hu' : ∃ u' ∈ (db.removed id now links ids).people, u'.id = u.id ∧ u'.companyId =
        u.companyId := by
      rcases em (u.id ∈ ids ∧ u.departmentId = some id) with hp | hnot
      · exact ⟨_, mem_removed.2 (Or.inr ⟨u, hu, hp, rfl⟩), rfl, rfl⟩
      · exact ⟨u, mem_removed.2 (Or.inl ⟨hu, hnot⟩), rfl, rfl⟩
    obtain ⟨u', hu', huid, huorg⟩ := hu'
    exact ⟨u', hu', huid.trans hlu, d, mem_removed_departments.2 (Or.inl ⟨hd, hne⟩), hdl, hlive,
      huorg.trans horg⟩

/-- A creation keeps the links sound when its departments are live ones of the organisation, and its
own has the name it writes. -/
theorem sound_created (h : LinksSound db)
    (hdepartment : ∀ id ∈ p.department.map DepartmentRow.id, ∃ d ∈ db.departments, d.id = id ∧
      d.deletedAt = none ∧ d.companyId = org ∧ p.department.map DepartmentRow.name = some d.name)
    (hmanaged : ∀ id ∈ p.managed, ∃ d ∈ db.departments, d.id = id ∧ d.deletedAt = none ∧
      d.companyId = org) : LinksSound (db.created org p) where
  placed u hu hdel id hid := by
    rcases mem_created.1 hu with hu₀ | rfl
    · exact h.placed u hu₀ hdel id hid
    · obtain ⟨d, hd, hdid, hlive, horg, htext⟩ := hdepartment id hid
      exact ⟨d, hd, hdid, hlive, congrArg some horg.symm, htext⟩
  managing l hl := by
    rcases mem_withLinks.1 hl with hl₀ | ⟨hmanager, hid⟩
    · obtain ⟨u, hu, hrest⟩ := h.managing l hl₀
      exact ⟨u, mem_created.2 (Or.inl hu), hrest⟩
    · obtain ⟨d, hd, hdid, hlive, horg⟩ := hmanaged l.departmentId hid
      exact ⟨_, mem_created.2 (Or.inr rfl), hmanager.symm, d, hd, hdid, hlive,
        congrArg some horg.symm⟩

/-- The account that a save writes is there, with the organisation of the entity that was read. -/
theorem exists_saved (pl : Option PlacementMade) (activates : Bool)
    (hperson : ∃ u ∈ db.people, u.id = person.id) :
    ∃ u ∈ (db.saved person pl activates).people, u.id = person.id ∧ u.companyId =
        person.companyId := by
  obtain ⟨u, hu, hid⟩ := hperson
  refine ⟨_, mem_saved.2 (Or.inr ⟨u, hu, hid, rfl⟩), hid, ?_⟩
  cases pl <;> rfl

/-- A save keeps the links sound when the departments it writes are live ones of the organisation it
read, and the person's own has the name it writes. -/
theorem sound_saved (h : LinksSound db) (hperson : ∃ u ∈ db.people, u.id = person.id)
    (horg : person.companyId = some org)
    (hdepartment : ∀ id ∈ (entity person pl).departmentId, ∃ d ∈ db.departments, d.id = id ∧
      d.deletedAt = none ∧ d.companyId = org ∧ (entity person pl).department = some d.name)
    (hmanaged : ∀ p, pl = some p → ∀ id ∈ p.managed, ∃ d ∈ db.departments, d.id = id ∧
      d.deletedAt = none ∧ d.companyId = org)
    (hstays : pl = none → ∀ u ∈ db.people, u.id = person.id → u.companyId = person.companyId) :
    LinksSound (db.saved person pl activates) where
  placed u hu hdel id hid := by
    rcases mem_saved.1 hu with ⟨hu₀, -⟩ | ⟨u₀, hu₀, -, rfl⟩
    · exact h.placed u hu₀ hdel id hid
    · obtain ⟨d, hd, hdid, hlive, hdorg, htext⟩ := hdepartment id hid
      refine ⟨d, hd, hdid, hlive, ?_, htext⟩
      change (entity person pl).companyId = _
      rw [hdorg, ← horg]
      cases pl <;> rfl
  managing l hl := by
    -- the account of a row that stays is the saved one, or another one
    have hkept : ∀ l ∈ db.managed, (l.managerId = person.id → ∀ u ∈ db.people, u.id = person.id →
        u.companyId = person.companyId) → ∃ u ∈ (db.saved person pl activates).people,
          u.id = l.managerId ∧ ∃ d ∈ db.departments, d.id = l.departmentId ∧ d.deletedAt = none ∧
            u.companyId = some d.companyId := by
      intro l hl hsame
      obtain ⟨u, hu, hlu, d, hd, hdl, hlive, hdorg⟩ := h.managing l hl
      rcases eq_or_ne u.id person.id with hid | hne
      · obtain ⟨u', hu', hid', hcompany⟩ := exists_saved pl activates hperson
        refine ⟨u', hu', (hid'.trans hid.symm).trans hlu, d, hd, hdl, hlive, ?_⟩
        rw [hcompany, ← hsame (hlu.symm.trans hid) u hu hid]
        exact hdorg
      · exact ⟨u, mem_saved.2 (Or.inl ⟨hu, hne⟩), hlu, d, hd, hdl, hlive, hdorg⟩
    cases pl with
    | none => exact hkept l hl fun _ => hstays rfl
    | some p =>
      rcases mem_saved_managed.1 hl with ⟨hl₀, hne⟩ | ⟨hmanager, hid⟩
      · exact hkept l hl₀ fun heq => absurd heq hne
      · obtain ⟨d, hd, hdid, hlive, hdorg⟩ := hmanaged p rfl l.departmentId hid
        obtain ⟨u', hu', hid', hcompany⟩ := exists_saved (some p) activates hperson
        refine ⟨u', hu', hid'.trans hmanager.symm, d, hd, hdid, hlive, ?_⟩
        rw [hcompany, hdorg]
        exact horg

/-- `assignPerson` keeps the links sound when it has picked every link of the person, and so
deletes them all. -/
theorem sound_assigned (h : LinksSound db)
    (hlinks : ∀ l ∈ db.managed, l.managerId = userId → l ∈ links) :
    LinksSound (db.assigned userId org links) where
  placed u hu hdel id hid := by
    rcases mem_assigned.1 hu with ⟨hu₀, -⟩ | ⟨u₀, -, -, rfl⟩
    · exact h.placed u hu₀ hdel id hid
    · cases hid
  managing l hl := by
    obtain ⟨hl₀, hnot⟩ := mem_assigned_managed.1 hl
    obtain ⟨u, hu, hlu, hrest⟩ := h.managing l hl₀
    refine ⟨u, mem_assigned.2 (Or.inl ⟨hu, fun hid => ?_⟩), hlu, hrest⟩
    exact hnot (hlinks l hl₀ (hlu.symm.trans hid))

end LinkStore

/-! ## What a transaction knows -/

/-- Between the two stores, only the departments of `people` get new people, and only those of
`links` get new rows of `manager_departments`. -/
structure LinkMoves (db db' : LinkStore) (people links : ℕ → Prop) : Prop where
  people : ∀ u' ∈ db'.people, ∀ id, u'.departmentId = some id → ¬ people id →
    ∃ u ∈ db.people, u.id = u'.id ∧ u.departmentId = some id ∧
      (u'.deletedAt = none → u.deletedAt = none)
  links : ∀ l ∈ db'.managed, ¬ links l.departmentId → l ∈ db.managed
  stay : ∀ u ∈ db.people, ∃ u' ∈ db'.people, u'.id = u.id

/-- What a transaction has picked or read. -/
def LinkFacts (db : LinkStore) : LinkOp → LinkPhase → Prop
  | .update _ id _ _, .renames _ _ ids =>
    ∀ u ∈ db.people, u.deletedAt = none → u.departmentId = some id → u.id ∈ ids
  | .remove _ id _, .unmanaged links => ∀ l ∈ db.managed, l.departmentId = id → l ∈ links
  | .remove _ id _, .swept links ids => (∀ l ∈ db.managed, l.departmentId = id → l ∈ links) ∧
      ∀ u ∈ db.people, u.departmentId = some id → u.id ∈ ids
  | .updateUser _ org _, .loaded person | .updateUser _ org _, .ready person _
  | .reactivate _ org _, .ready person _ =>
    person.companyId = some org ∧ ∃ u ∈ db.people, u.id = person.id
  | _, _ => True

/-- What a step keeps. -/
structure LinksInv (w : LinkWorld) : Prop where
  sound : LinksSound w.db
  facts : ∀ tx ∈ w.txs, LinkFacts w.db tx.op tx.phase

namespace LinkMoves

variable {people links : ℕ → Prop} {id userId org : ℕ} {name icon : String} {ids : List ℕ}
  {picked : List ManagerDepartment} {now : ℤ} {p : PlacementMade} {pl : Option PlacementMade}
  {person : PersonRow} {activates : Bool}

/-- Nothing moves. -/
theorem refl (db : LinkStore) : LinkMoves db db people links where
  people u hu _ hid _ := ⟨u, hu, rfl, hid, fun hdel => hdel⟩
  links _ hl _ := hl
  stay u hu := ⟨u, hu, rfl⟩

/-- A rename moves nobody: the accounts it sweeps stay in their department, and no link changes. -/
theorem updated : LinkMoves db (db.updated id name icon ids) people links where
  people u' hu' id' hid' _ := by
    rcases LinkStore.mem_updated.1 hu' with ⟨hu, -⟩ | ⟨u, hu, -, rfl⟩
    · exact ⟨u', hu, rfl, hid', fun hdel => hdel⟩
    · exact ⟨u, hu, rfl, hid', fun hdel => hdel⟩
  links _ hl _ := hl
  stay u hu := by
    rcases em (u.id ∈ ids ∧ u.departmentId = some id ∧ u.deletedAt = none) with hp | hnot
    · exact ⟨_, LinkStore.mem_updated.2 (Or.inr ⟨u, hu, hp, rfl⟩), rfl⟩
    · exact ⟨u, LinkStore.mem_updated.2 (Or.inl ⟨hu, hnot⟩), rfl⟩

/-- A removal moves nobody into a department; it takes people and links out of its own. -/
theorem removed : LinkMoves db (db.removed id now picked ids) people links where
  people u' hu' id' hid' _ := by
    rcases LinkStore.mem_removed.1 hu' with ⟨hu, -⟩ | ⟨u, -, -, rfl⟩
    · exact ⟨u', hu, rfl, hid', fun hdel => hdel⟩
    · cases hid'
  links _ hl _ := (LinkStore.mem_removed_managed.1 hl).1
  stay u hu := by
    rcases em (u.id ∈ ids ∧ u.departmentId = some id) with hp | hnot
    · exact ⟨_, LinkStore.mem_removed.2 (Or.inr ⟨u, hu, hp, rfl⟩), rfl⟩
    · exact ⟨u, LinkStore.mem_removed.2 (Or.inl ⟨hu, hnot⟩), rfl⟩

/-- A creation puts its own person into a department, and links the person to the departments it
manages; nobody else moves. -/
theorem created : LinkMoves db (db.created org p) (fun id => id ∈ p.department.map DepartmentRow.id)
    (· ∈ p.managed) where
  people u' hu' id' hid' hnot := by
    rcases LinkStore.mem_created.1 hu' with hu | rfl
    · exact ⟨u', hu, rfl, hid', fun hdel => hdel⟩
    · exact absurd hid' hnot
  links l hl hnot := by
    rcases LinkStore.mem_withLinks.1 hl with hl | ⟨-, hid⟩
    · exact hl
    · exact absurd hid hnot
  stay u hu := ⟨u, LinkStore.mem_created.2 (Or.inl hu), rfl⟩

/-- A save puts its person into the department of the entity, and links the person to those the
placement manages; nobody else moves. -/
theorem saved : LinkMoves db (db.saved person pl activates)
    (fun id => id ∈ (LinkStore.entity person pl).departmentId)
    (fun id => ∃ p, pl = some p ∧ id ∈ p.managed) where
  people u' hu' id' hid' hnot := by
    rcases LinkStore.mem_saved.1 hu' with ⟨hu, -⟩ | ⟨u, -, -, rfl⟩
    · exact ⟨u', hu, rfl, hid', fun hdel => hdel⟩
    · exact absurd hid' hnot
  links l hl hnot := by
    cases pl with
    | none => exact hl
    | some p =>
      rcases LinkStore.mem_saved_managed.1 hl with ⟨hl, -⟩ | ⟨-, hid⟩
      · exact hl
      · exact absurd ⟨p, rfl, hid⟩ hnot
  stay u hu := by
    rcases eq_or_ne u.id person.id with hid | hne
    · exact ⟨_, LinkStore.mem_saved.2 (Or.inr ⟨u, hu, hid, rfl⟩), rfl⟩
    · exact ⟨u, LinkStore.mem_saved.2 (Or.inl ⟨hu, hne⟩), rfl⟩

/-- `assignPerson` moves nobody into a department; the person leaves the one it was in. -/
theorem assigned : LinkMoves db (db.assigned userId org picked) people links where
  people u' hu' id' hid' _ := by
    rcases LinkStore.mem_assigned.1 hu' with ⟨hu, -⟩ | ⟨u, -, -, rfl⟩
    · exact ⟨u', hu, rfl, hid', fun hdel => hdel⟩
    · cases hid'
  links _ hl _ := (LinkStore.mem_assigned_managed.1 hl).1
  stay u hu := by
    rcases eq_or_ne u.id userId with hid | hne
    · exact ⟨_, LinkStore.mem_assigned.2 (Or.inr ⟨u, hu, hid, rfl⟩), rfl⟩
    · exact ⟨u, LinkStore.mem_assigned.2 (Or.inl ⟨hu, hne⟩), rfl⟩

end LinkMoves

/-- What a transaction has picked or read, when another one's commit brings nobody to the
departments it has picked. -/
theorem LinkFacts.of_moves {people links : ℕ → Prop} {tx : LinkTx} (h : LinkFacts db tx.op tx.phase)
    (hmoves : LinkMoves db db' people links)
    (hpeople : ∀ id, tx.picksPeople = some id → ¬ people id)
    (hlinks : ∀ id, tx.picksLinks = some id → ¬ links id) : LinkFacts db' tx.op tx.phase := by
  have hthere : ∀ person : PersonRow, (∃ u ∈ db.people, u.id = person.id) →
      ∃ u ∈ db'.people, u.id = person.id := by
    rintro person ⟨u, hu, hid⟩
    obtain ⟨u', hu', hid'⟩ := hmoves.stay u hu
    exact ⟨u', hu', hid'.trans hid⟩
  obtain ⟨op, phase⟩ := tx
  cases op with
  | update org id name icon =>
    cases phase with
    | renames name icon ids =>
      intro u hu hdel hid
      obtain ⟨u₀, hu₀, hu₀id, hdepartment, hdel₀⟩ := hmoves.people u hu id hid (hpeople id rfl)
      rw [← hu₀id]
      exact h u₀ hu₀ (hdel₀ hdel) hdepartment
    | begun | updating | found | counted | unmanaged | swept | loaded | placed | ready | finished =>
      trivial
  | remove org id now =>
    cases phase with
    | unmanaged picked =>
      intro l hl hid
      exact h l (hmoves.links l hl (hid ▸ hlinks id rfl)) hid
    | swept picked ids =>
      refine ⟨fun l hl hid => h.1 l (hmoves.links l hl (hid ▸ hlinks id rfl)) hid,
        fun u hu hid => ?_⟩
      obtain ⟨u₀, hu₀, hu₀id, hdepartment, -⟩ := hmoves.people u hu id hid (hpeople id rfl)
      rw [← hu₀id]
      exact h.2 u₀ hu₀ hdepartment
    | begun | updating | renames | found | counted | loaded | placed | ready | finished => trivial
  | updateUser userId org asked =>
    cases phase with
    | loaded person => exact ⟨h.1, hthere person h.2⟩
    | ready person p => exact ⟨h.1, hthere person h.2⟩
    | begun | updating | renames | found | counted | unmanaged | swept | placed | finished =>
      trivial
  | reactivate userId org asked =>
    cases phase with
    | ready person p => exact ⟨h.1, hthere person h.2⟩
    | begun | updating | renames | found | counted | unmanaged | swept | loaded | placed
      | finished =>
      trivial
  | create | assignPerson => cases phase <;> trivial

namespace LinksInv

variable {w w' : LinkWorld} {op : LinkOp} {phase : LinkPhase} {i : ℕ} {people links : ℕ → Prop}

/-- At the start nothing is under way. -/
theorem start (h : LinksSound db) : LinksInv (.start db) where
  sound := h
  facts _ htx := absurd htx List.not_mem_nil

/-- The transaction `i` goes on and leaves `db'`: the invariant holds when nobody is moved into a
department whose people another transaction has picked, or linked to one whose links it has. -/
theorem of_step (h : LinksInv w) (hsound : LinksSound db')
    (hmoves : LinkMoves w.db db' people links)
    (hpeople : ∀ tx ∈ w.txs, ∀ id, tx.picksPeople = some id → ¬ people id)
    (hlinks : ∀ tx ∈ w.txs, ∀ id, tx.picksLinks = some id → ¬ links id)
    (hnew : LinkFacts db' op phase) : LinksInv ⟨db', w.txs.set i ⟨op, phase⟩⟩ where
  sound := hsound
  facts tx' htx' := by
    obtain htx' | rfl := List.mem_or_eq_of_mem_set htx'
    · exact (h.facts tx' htx').of_moves hmoves (hpeople tx' htx') (hlinks tx' htx')
    · exact hnew

/-- The transaction `i` reads, or ends without a write. -/
theorem of_read (h : LinksInv w) (hfacts : LinkFacts w.db op phase) :
    LinksInv ⟨w.db, w.txs.set i ⟨op, phase⟩⟩ :=
  have hmoves : LinkMoves w.db w.db (fun _ => False) (fun _ => False) := .refl _
  h.of_step h.sound hmoves (fun _ _ _ _ => id) (fun _ _ _ _ => id) hfacts

/-- The transaction `i` commits and is over, in a store in which nobody has come to a department. -/
theorem of_commit (h : LinksInv w) (hsound : LinksSound db')
    (hmoves : LinkMoves w.db db' (fun _ => False) (fun _ => False)) :
    LinksInv ⟨db', w.txs.set i ⟨op, .finished⟩⟩ :=
  h.of_step hsound hmoves (fun _ _ _ _ => id) (fun _ _ _ _ => id) (by cases op <;> trivial)

/-- Reading a person finds somebody of the organisation, or ends the transaction with the error that
it was not found. -/
theorem load_cases (db : LinkStore) (userId org : ℕ) (next : PersonRow → LinkPhase) :
    (∃ person ∈ db.people, person.companyId = some org ∧
      LinkWorld.load db userId org next = next person) ∨
      LinkWorld.load db userId org next = .finished := by
  unfold LinkWorld.load
  cases hp : db.findPerson userId with
  | none => exact Or.inr rfl
  | some person =>
    simp only
    split
    · next horg => exact Or.inl ⟨person, Table.mem_of_find? hp, horg, rfl⟩
    · exact Or.inr rfl

/-- A placement is found in the organisation, or the transaction ends with an error. -/
theorem place_cases (db : LinkStore) (org : ℕ) (asked : PlacementAsked)
    (next : PlacementMade → LinkPhase) :
    (∃ p, LinkWorld.place db org asked next = next p) ∨
        LinkWorld.place db org asked next = .finished := by
  unfold LinkWorld.place
  cases db.resolvePlacement org asked with
  | none => exact Or.inr rfl
  | some p => exact Or.inl ⟨p, rfl⟩

/-- A use case that saves an entity keeps the invariant when what the entity says of departments
still stands in the tables. -/
theorem of_save (h : LinksInv w) {org : ℕ} {person : PersonRow} {pl : Option PlacementMade}
    {activates : Bool} (hread : person.companyId = some org ∧ ∃ u ∈ w.db.people, u.id = person.id)
    (hok : w.DepartmentStands org (LinkStore.entity person pl).departmentId
        (LinkStore.entity person pl).department ∧
      match pl with
      | some p => w.ManagedStand org p.managed
      | none => ∀ u ∈ w.db.people, u.id = person.id → u.companyId = person.companyId) :
    LinksInv ⟨w.db.saved person pl activates, w.txs.set i ⟨op, .finished⟩⟩ := by
  obtain ⟨hdepartment, hrest⟩ := hok
  have hmanaged : ∀ p, pl = some p → w.ManagedStand org p.managed := by
    rintro p rfl
    exact hrest
  have hstays : pl = none → ∀ u ∈ w.db.people, u.id = person.id → u.companyId =
      person.companyId := by
    rintro rfl
    exact hrest
  refine h.of_step
    (LinkStore.sound_saved h.sound hread.2 hread.1 (fun id hid => (hdepartment id hid).1)
    (fun p hp id hid => (hmanaged p hp id hid).1) hstays) .saved (fun tx htx id hpicks hid => ?_)
      (fun tx htx id hpicks hid => ?_) (by cases op <;> trivial)
  · exact (hdepartment id hid).2 tx htx hpicks
  · obtain ⟨p, hp, hid⟩ := hid
    exact (hmanaged p hp id hid).2 tx htx hpicks

/-- The next statement of a transaction keeps the invariant when what it writes still stands. The
reads note what they have picked, and only the writes move anybody. -/
theorem proceed (h : LinksInv w) {tx : LinkTx} (htx : tx ∈ w.txs) (hok : w.WriteStands tx) :
    LinksInv ⟨(LinkWorld.proceed w.db tx).1,
      w.txs.set i { tx with phase := (LinkWorld.proceed w.db tx).2 }⟩ := by
  have hfacts := h.facts tx htx
  obtain ⟨op, phase⟩ := tx
  have hover : LinksInv ⟨w.db, w.txs.set i ⟨op, .finished⟩⟩ := h.of_read (by cases op <;> trivial)
  cases op with
  | update org id name icon =>
    cases phase with
    | begun =>
      simp only [LinkWorld.proceed]
      split
      · split
        · exact hover
        · exact h.of_read trivial
      · exact hover
    | updating name icon renamed =>
      cases renamed with
      | true =>
        refine h.of_read fun u hu hdel hid => ?_
        exact List.mem_map.2 ⟨u, List.mem_filter.2 ⟨hu, by simp [hid, hdel]⟩, rfl⟩
      | false => exact h.of_commit (LinkStore.sound_updated h.sound (Or.inr hok)) .updated
    | renames name icon ids =>
      exact h.of_commit (LinkStore.sound_updated h.sound (Or.inl hfacts)) .updated
    | found | counted | unmanaged | swept | loaded | placed | ready | finished => exact hover
  | remove org id now =>
    cases phase with
    | begun =>
      change LinksInv
        ⟨w.db, w.txs.set i ⟨_, if (w.db.findInOrg org id).isSome then .found else .finished⟩⟩
      split
      · exact h.of_read trivial
      · exact hover
    | found =>
      change LinksInv ⟨w.db, w.txs.set i ⟨_, if w.db.hasStaff id then .finished else .counted⟩⟩
      split
      · exact hover
      · exact h.of_read trivial
    | counted =>
      refine h.of_read fun l hl hid => ?_
      exact List.mem_filter.2 ⟨hl, decide_eq_true hid⟩
    | unmanaged picked =>
      refine h.of_read ⟨hfacts, fun u hu hid => ?_⟩
      exact List.mem_map.2 ⟨u, List.mem_filter.2 ⟨hu, decide_eq_true hid⟩, rfl⟩
    | swept picked ids =>
      exact h.of_commit (LinkStore.sound_removed h.sound hfacts.2 hfacts.1) .removed
    | updating | renames | loaded | placed | ready | finished => exact hover
  | create org asked =>
    cases phase with
    | begun =>
      change LinksInv ⟨w.db, w.txs.set i ⟨_, LinkWorld.place w.db org asked .placed⟩⟩
      rcases place_cases w.db org asked .placed with ⟨p, hp⟩ | hp <;> rw [hp]
      · exact h.of_read trivial
      · exact hover
    | placed p =>
      obtain ⟨hdepartment, hmanaged⟩ := hok
      refine h.of_step (LinkStore.sound_created h.sound (fun id hid => (hdepartment id hid).1)
        fun id hid => (hmanaged id hid).1) .created (fun tx htx id hpicks hid => ?_)
          (fun tx htx id hpicks hid => ?_) trivial
      · exact (hdepartment id hid).2 tx htx hpicks
      · exact (hmanaged id hid).2 tx htx hpicks
    | updating | renames | found | counted | unmanaged | swept | loaded | ready | finished =>
      exact hover
  | updateUser userId org asked =>
    cases phase with
    | begun =>
      cases asked with
      | none =>
        change LinksInv ⟨w.db, w.txs.set i
          ⟨_, LinkWorld.load w.db userId org fun person => .ready person none⟩⟩
        rcases load_cases w.db userId org fun person => .ready person none with
          ⟨person, hmem, horg, hload⟩ | hload <;> rw [hload]
        · exact h.of_read ⟨horg, person, hmem, rfl⟩
        · exact hover
      | some asked =>
        change LinksInv ⟨w.db, w.txs.set i ⟨_, LinkWorld.load w.db userId org .loaded⟩⟩
        rcases load_cases w.db userId org .loaded with ⟨person, hmem, horg, hload⟩ | hload <;>
          rw [hload]
        · exact h.of_read ⟨horg, person, hmem, rfl⟩
        · exact hover
    | loaded person =>
      cases asked with
      | none => exact hover
      | some asked =>
        change LinksInv ⟨w.db, w.txs.set i
          ⟨_, LinkWorld.place w.db org asked fun p => .ready person (some p)⟩⟩
        rcases place_cases w.db org asked fun p => .ready person (some p) with ⟨p, hp⟩ | hp <;>
          rw [hp]
        · exact h.of_read hfacts
        · exact hover
    | ready person p =>
      cases asked <;> exact h.of_save hfacts hok
    | updating | renames | found | counted | unmanaged | swept | placed | finished =>
      cases asked <;> exact hover
  | reactivate userId org asked =>
    cases phase with
    | begun =>
      change LinksInv ⟨w.db, w.txs.set i ⟨_, LinkWorld.place w.db org asked .placed⟩⟩
      rcases place_cases w.db org asked .placed with ⟨p, hp⟩ | hp <;> rw [hp]
      · exact h.of_read trivial
      · exact hover
    | placed p =>
      change LinksInv ⟨w.db, w.txs.set i
        ⟨_, LinkWorld.load w.db userId org fun person => .ready person (some p)⟩⟩
      rcases load_cases w.db userId org fun person => .ready person (some p) with
        ⟨person, hmem, horg, hload⟩ | hload <;> rw [hload]
      · exact h.of_read ⟨horg, person, hmem, rfl⟩
      · exact hover
    | ready person p => exact h.of_save hfacts hok
    | updating | renames | found | counted | unmanaged | swept | loaded | finished => exact hover
  | assignPerson userId org =>
    cases phase with
    | begun =>
      simp only [LinkWorld.proceed]
      split
      · split
        · exact hover
        · exact h.of_read trivial
      · exact hover
    | found => exact h.of_read trivial
    | unmanaged links => exact h.of_commit (LinkStore.sound_assigned h.sound hok) .assigned
    | updating | renames | counted | swept | loaded | placed | ready | finished => exact hover

/-- Every step whose write still stands keeps the invariant: a transaction begins with nothing
picked, and a statement is `proceed`. -/
theorem step (h : LinksInv w) {a : LinkAction} (hok : w.LinksStand a) (hs : w.step a = some w') :
    LinksInv w' := by
  cases a with
  | begins op =>
    obtain rfl := Option.some.inj hs
    refine ⟨h.sound, fun tx htx => ?_⟩
    obtain htx | htx := List.mem_append.1 htx
    · exact h.facts tx htx
    · obtain rfl := List.mem_singleton.1 htx
      cases op <;> trivial
  | proceed i =>
    simp only [LinkWorld.step] at hs
    cases hi : w.txs[i]? with
    | none => simp [hi] at hs
    | some tx =>
      simp only [hi, Option.some.injEq] at hs
      subst hs
      exact h.proceed (List.mem_of_getElem? hi) (hok tx hi)
  | fails i =>
    simp only [LinkWorld.step] at hs
    cases hi : w.txs[i]? with
    | none => simp [hi] at hs
    | some tx =>
      simp only [hi, Option.some.injEq] at hs
      subst hs
      exact h.of_read (by cases tx.op <;> trivial)

end LinksInv

/-- In every run whose writes find what they write still standing (`LinkWorld.LinksStand`), from a
sound state, the links stay sound: the department of every account that is not deleted is live, of
its organisation and under the name the account shows, and every link of a Manager leads to such a
department. What each transaction has picked so far is part of the invariant. -/
theorem links_sound {acts : List LinkAction} {w : LinkWorld} (hsound : LinksSound db)
    (h : Runs.run LinkWorld.step (.start db) acts = some w)
    (hok : Runs.Meets LinkWorld.step LinkWorld.LinksStand (.start db) acts) : LinksSound w.db :=
  (Runs.invariant_run LinksInv (fun _ _ _ hi ho hs => hi.step ho hs) (.start hsound) hok h).sound

/-- A department, with one member of Staff. -/
def oneDepartment : LinkStore where
  liveOrgs := fun _ => true
  departments :=
    Table.empty.create (fun id => { id, companyId := 0, name := "Electronics", icon := "chip" })
    fun _ => rfl
  people := Table.empty.create
    (fun id => ⟨id, .user, .active, some 0, some 0, some "Electronics", none⟩) fun _ => rfl
  managed := []

/-- The tables of the example are sound: one department and one of its Staff under its name. -/
theorem oneDepartment_sound : LinksSound oneDepartment where
  placed u hu _ id hid := by
    rcases Table.mem_create.1 hu with hu | rfl
    · exact absurd hu (Table.not_mem_empty u)
    · obtain rfl := Option.some.inj hid
      exact ⟨_, Table.mem_create.2 (Or.inr rfl), rfl, rfl, rfl, rfl⟩
  managing _ hl := absurd hl List.not_mem_nil

/-- The department is renamed while an edit of its member is under way. -/
def renamedDuringEdit : List LinkAction :=
  [.begins (.updateUser 0 0 none), .begins (.update 0 0 (some "Hardware") none), .proceed 0,
    .proceed 1, .proceed 1, .proceed 1, .proceed 0]

/-- A rename that commits between the read and the save of an edit leaves its member under the old
name, and the links are not sound. -/
theorem rename_leaves_old_text :
    ¬ ∀ (db : LinkStore) (acts : List LinkAction) (w : LinkWorld), LinksSound db →
      Runs.run LinkWorld.step (.start db) acts = some w → LinksSound w.db := by
  intro h
  have hrun : Runs.run LinkWorld.step (.start oneDepartment) renamedDuringEdit = some _ := rfl
  obtain ⟨d, hd, hid, -, -, hname⟩ := (h _ _ _ oneDepartment_sound hrun).placed
    ⟨0, .user, .active, some 0, some 0, some "Electronics", none⟩ (by decide) rfl 0 rfl
  have hone : d = ⟨0, 0, "Hardware", "chip", none⟩ := List.mem_singleton.1 hd
  subst hone
  revert hname
  decide

/-- An icon edit that has read the department before the rename writes the old name again; the
member keeps the new one. -/
example : (Runs.run LinkWorld.step (.start oneDepartment)
    [.begins (.update 0 0 none (some "bolt")), .proceed 0,
      .begins (.update 0 0 (some "Hardware") none), .proceed 1, .proceed 1, .proceed 1,
      .proceed 0]).map (fun w => (w.db.departments.rows.map DepartmentRow.name,
        w.db.people.rows.map PersonRow.department)) =
      some (["Electronics"], [some "Hardware"]) := by decide

/-- An edit that begins after the rename has committed reads the new name, and the
links are sound. -/
theorem editAfterRename_sound :
    ∃ w, Runs.run LinkWorld.step (.start oneDepartment)
    [.begins (.update 0 0 (some "Hardware") none), .proceed 0,
      .proceed 0, .proceed 0, .begins (.updateUser 0 0 none), .proceed 1, .proceed 1] = some w ∧
        LinksSound w.db := by
  have hrun : Runs.run LinkWorld.step (.start oneDepartment)
    [.begins (.update 0 0 (some "Hardware") none),
    .proceed 0, .proceed 0, .proceed 0, .begins (.updateUser 0 0 none), .proceed 1,
    .proceed 1] = some _ := rfl
  refine ⟨_, hrun, links_sound oneDepartment_sound hrun ⟨trivial, fun w₁ h₁ => ?_⟩⟩
  obtain rfl := Option.some.inj h₁
  refine ⟨fun tx htx => ?_, fun w₂ h₂ => ?_⟩
  · obtain rfl := Option.some.inj htx
    trivial
  obtain rfl := Option.some.inj h₂
  refine ⟨fun tx htx => ?_, fun w₃ h₃ => ?_⟩
  · obtain rfl := Option.some.inj htx
    trivial
  obtain rfl := Option.some.inj h₃
  refine ⟨fun tx htx => ?_, fun w₄ h₄ => ⟨trivial, fun w₅ h₅ => ?_⟩⟩
  · obtain rfl := Option.some.inj htx
    trivial
  obtain rfl := Option.some.inj h₄
  obtain rfl := Option.some.inj h₅
  refine ⟨fun tx htx => ?_, fun w₆ h₆ => ?_⟩
  · obtain rfl := Option.some.inj htx
    trivial
  obtain rfl := Option.some.inj h₆
  refine ⟨fun tx htx => ?_, fun _ _ => trivial⟩
  obtain rfl := Option.some.inj htx
  refine ⟨fun id hid => ?_, fun u hu _ => ?_⟩
  · obtain rfl := Option.some.inj hid
    refine ⟨⟨⟨0, 0, "Hardware", "chip", none⟩, by decide, rfl, rfl, rfl, rfl⟩, by decide⟩
  · obtain rfl := List.mem_singleton.1 hu
    rfl

end RxVision
