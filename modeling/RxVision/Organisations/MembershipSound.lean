import RxVision.Organisations.Membership

/-!
# Organisation membership stays sound

The organisation's row lock orders `createAdmin`, `create`, `assignPerson` and `softDelete` of one
organisation. `save` takes no lock and writes the organisation, the role and the status it has read:
it can make an account `ACTIVE` between the count and the commit of `softDelete`, and move an
account back that two `assignPerson` have moved since (`reactivated_while_deleted`). In every run
without the two (`SavesInOrder`), membership stays sound and nobody `ACTIVE` is deleted
(`membership_sound`).
-/

namespace RxVision

/-- The account is an Admin of the organisation, and not deleted. -/
def Account.IsAdminOf (u : Account) (org : ℕ) : Prop := u.isMember org = true ∧ u.role = .admin

/-- A live organisation has at most one Admin, the accounts of a deleted one are deleted, and every
account's organisation exists. -/
structure MembershipSound (db : OrgStore) : Prop where
  oneAdmin : ∀ c ∈ db.companies, c.deletedAt = none → ∀ u ∈ db.users, ∀ v ∈ db.users,
    u.IsAdminOf c.id → v.IsAdminOf c.id → u = v
  gone : ∀ c ∈ db.companies, c.deletedAt ≠ none → ∀ u ∈ db.users, u.companyId = some c.id →
    u.deletedAt ≠ none
  known : ∀ u ∈ db.users, ∀ org, u.companyId = some org → ∃ c ∈ db.companies, c.id = org

namespace OrgWorld

/-- No transaction that is about to delete an organisation deletes an account that is `ACTIVE`. -/
def DeletesNobodyActive (w : OrgWorld) : Prop :=
  ∀ tx ∈ w.txs, ∀ org now, tx = ⟨.softDelete org now, .counted⟩ →
    ∀ u ∈ w.db.users, u.isMember org = true → u.status ≠ .active

/-- A save finds the account in the organisation it read it in, and does not make it `ACTIVE` while
that organisation is being deleted, once its people are counted. -/
def SavesInOrder (w : OrgWorld) : OrgAction → Prop
  | .proceed i => ∀ tx ∈ w.txs[i]?, ∀ person ∈ tx.phase.loadedPerson, ∀ u ∈ w.db.users,
      u.id = person.id → u.companyId = person.companyId ∧
        (tx.op.activates → u.deletedAt = none →
          ∀ tx' ∈ w.txs, tx'.phase = .counted → tx'.op.lockOf ≠ u.companyId)
  | .begins _ | .fails _ => True

instance (w : OrgWorld) : ∀ a, Decidable (w.SavesInOrder a)
  | .proceed i => inferInstanceAs (Decidable (∀ tx ∈ w.txs[i]?, ∀ person ∈ tx.phase.loadedPerson,
      ∀ u ∈ w.db.users.rows, u.id = person.id → u.companyId = person.companyId ∧
        (tx.op.activates → u.deletedAt = none →
          ∀ tx' ∈ w.txs, tx'.phase = .counted → tx'.op.lockOf ≠ u.companyId)))
  | .begins _ | .fails _ => isTrue trivial

end OrgWorld

variable {db db' : OrgStore} {u v : Account} {org : ℕ}

/-- A member is an account of the organisation that is not deleted. -/
theorem Account.isMember_iff : u.isMember org = true ↔ u.companyId = some org ∧
    u.deletedAt = none := by
  simp [Account.isMember]

/-- A live organisation is one that is not deleted. -/
theorem OrgStore.live_iff : db.live org = true ↔ ∃ c ∈ db.companies, c.id = org ∧
    c.deletedAt = none := by
  simp only [OrgStore.live, List.any_eq_true, Bool.and_eq_true, decide_eq_true_eq,
    Option.isNone_iff_eq_none, Table.mem_rows]

namespace MembershipSound

/-- The organisation of an account that is not deleted is live. -/
theorem live_of_isMember (h : MembershipSound db) (hu : u ∈ db.users)
    (hmem : u.isMember org = true) : db.live org = true := by
  obtain ⟨horg, hdel⟩ := Account.isMember_iff.1 hmem
  obtain ⟨c, hc, rfl⟩ := h.known u hu org horg
  refine OrgStore.live_iff.2 ⟨c, hc, rfl, ?_⟩
  by_contra hgone
  exact h.gone c hc hgone u hu horg hdel

/-- Tables in which the accounts' organisations exist, and are live where the account is. -/
theorem of_live (hone : ∀ org, db.live org = true → ∀ u ∈ db.users, ∀ v ∈ db.users,
    u.IsAdminOf org → v.IsAdminOf org → u = v)
    (hlive : ∀ u ∈ db.users, ∀ org, u.isMember org = true → db.live org = true)
    (hknown : ∀ u ∈ db.users, ∀ org, u.companyId = some org → ∃ c ∈ db.companies, c.id = org) :
    MembershipSound db where
  oneAdmin c hc hdel := hone c.id (OrgStore.live_iff.2 ⟨c, hc, rfl, hdel⟩)
  gone c hc hgone u hu horg hdel := by
    obtain ⟨c', hc', hid, hlive'⟩ :=
      OrgStore.live_iff.1 (hlive u hu c.id (Account.isMember_iff.2 ⟨horg, hdel⟩))
    rw [Table.eq_of_key hc' hc hid] at hlive'
    exact hgone hlive'
  known := hknown

/-- A live organisation has at most one Admin. -/
theorem oneAdmin_of_live (h : MembershipSound db) (hlive : db.live org = true) (hu : u ∈ db.users)
    (hv : v ∈ db.users) (hadmin : u.IsAdminOf org) (hadmin' : v.IsAdminOf org) : u = v := by
  obtain ⟨c, hc, rfl, hdel⟩ := OrgStore.live_iff.1 hlive
  exact h.oneAdmin c hc hdel u hu v hv hadmin hadmin'

end MembershipSound

/-! ## What a commit does to the other organisations -/

/-- Between the two stores, only `touched` organisations come or go or get new people, and only in
`woken` ones does anybody become `ACTIVE`; nobody becomes or stops being an Admin. -/
structure Moves (db db' : OrgStore) (touched woken : ℕ → Prop) : Prop where
  live : ∀ org, ¬ touched org → db'.live org = db.live org
  rank : ∀ u ∈ db.users, ∃ u' ∈ db'.users, u'.id = u.id ∧ (u'.role = .admin ↔ u.role = .admin)
  member : ∀ u' ∈ db'.users, ∀ org, ¬ touched org → u'.isMember org = true →
    ∃ u ∈ db.users, u.id = u'.id ∧ u.isMember org = true ∧ (u'.role = .admin ↔ u.role = .admin) ∧
      (u'.status = .active → ¬ woken org → u.status = .active)

namespace Moves

variable {touched woken : ℕ → Prop}

/-- Nothing moves. -/
theorem refl (db : OrgStore) : Moves db db touched woken where
  live _ _ := rfl
  rank u hu := ⟨u, hu, rfl, Iff.rfl⟩
  member u hu _ _ hmem := ⟨u, hu, rfl, hmem, Iff.rfl, fun ha _ => ha⟩

/-- An organisation that is not touched keeps at most one Admin. -/
theorem oneAdmin (h : Moves db db' touched woken) (hsound : MembershipSound db)
    (horg : ¬ touched org)
    (hlive : db'.live org = true) (hu : u ∈ db'.users) (hv : v ∈ db'.users)
      (hadmin : u.IsAdminOf org)
    (hadmin' : v.IsAdminOf org) : u = v := by
  obtain ⟨u₀, hu₀, hid, hmem, hrole, -⟩ := h.member u hu org horg hadmin.1
  obtain ⟨v₀, hv₀, hid', hmem', hrole', -⟩ := h.member v hv org horg hadmin'.1
  rw [h.live org horg] at hlive
  have hsame := hsound.oneAdmin_of_live hlive hu₀ hv₀ ⟨hmem, hrole.1 hadmin.2⟩
    ⟨hmem', hrole'.1 hadmin'.2⟩
  refine Table.eq_of_key hu hv ?_
  rw [← hid, ← hid', hsame]

/-- Tables in which only one organisation is touched are sound when that one is. -/
theorem sound (h : Moves db db' (· = org) woken) (hsound : MembershipSound db)
    (hone : db'.live org = true → ∀ u ∈ db'.users, ∀ v ∈ db'.users, u.IsAdminOf org →
      v.IsAdminOf org →
      u = v)
    (hlive : ∀ u ∈ db'.users, u.isMember org = true → db'.live org = true)
    (hknown : ∀ u ∈ db'.users, ∀ org, u.companyId = some org → ∃ c ∈ db'.companies, c.id = org) :
    MembershipSound db' := by
  refine .of_live (fun org' hlive' u hu v hv hadmin hadmin' => ?_) (fun u hu org' hmem => ?_) hknown
  · rcases eq_or_ne org' org with rfl | hne
    · exact hone hlive' u hu v hv hadmin hadmin'
    · exact h.oneAdmin hsound hne hlive' hu hv hadmin hadmin'
  · rcases eq_or_ne org' org with rfl | hne
    · exact hlive u hu hmem
    · obtain ⟨u₀, hu₀, -, hmem₀, -⟩ := h.member u hu org' hne hmem
      rw [h.live org' hne]
      exact hsound.live_of_isMember hu₀ hmem₀

end Moves

/-- An update writes the row of its account. -/
theorem OrgStore.mem_updateUser {userId : ℕ} {f : Account → Account} {hf : ∀ u, (f u).id = u.id} :
    u ∈ (db.updateUser userId f hf).users ↔
      (u ∈ db.users ∧ u.id ≠ userId) ∨ ∃ u₀ ∈ db.users, u₀.id = userId ∧ u = f u₀ := by
  rw [OrgStore.updateUser, Table.mem_updateMany]
  simp only [decide_eq_false_iff_not, decide_eq_true_eq]

/-- A change of one account. -/
theorem Moves.updateUser {touched woken : ℕ → Prop} {userId : ℕ} {f : Account → Account}
    {hf : ∀ u, (f u).id = u.id}
    (hrole : ∀ u ∈ db.users, u.id = userId → ((f u).role = .admin ↔ u.role = .admin))
    (hmember : ∀ u ∈ db.users, u.id = userId → ∀ org, ¬ touched org → (f u).isMember org = true →
      u.isMember org = true ∧ ((f u).status = .active → ¬ woken org → u.status = .active)) :
    Moves db (db.updateUser userId f hf) touched woken where
  live _ _ := rfl
  rank u hu := by
    rcases eq_or_ne u.id userId with hid | hne
    · exact ⟨f u, OrgStore.mem_updateUser.2 (Or.inr ⟨u, hu, hid, rfl⟩), hf u, hrole u hu hid⟩
    · exact ⟨u, OrgStore.mem_updateUser.2 (Or.inl ⟨hu, hne⟩), rfl, Iff.rfl⟩
  member u' hu' org horg hmem := by
    rcases OrgStore.mem_updateUser.1 hu' with ⟨hu, -⟩ | ⟨u, hu, hid, rfl⟩
    · exact ⟨u', hu, rfl, hmem, Iff.rfl, fun ha _ => ha⟩
    · obtain ⟨hmem₀, hactive⟩ := hmember u hu hid org horg hmem
      exact ⟨u, hu, (hf u).symm, hmem₀, hrole u hu hid, hactive⟩

/-! ## The commits -/

section Commits

variable {role : Role} {departmentId : Option ℕ} {grants : ViewGrants} {userId : ℕ} {now : ℤ}
  {woken : ℕ → Prop}

/-- A new account is a row of the organisation. -/
theorem OrgStore.mem_addAccount : u ∈ (db.addAccount org role departmentId grants).users ↔
    u ∈ db.users ∨ u = ⟨db.users.next, role, .active, some org, departmentId, none, grants⟩ := by
  rw [OrgStore.addAccount, Table.mem_create]

/-- A new account moves nobody else. -/
theorem Moves.addAccount :
    Moves db (db.addAccount org role departmentId grants) (· = org) woken where
  live _ _ := rfl
  rank u hu := ⟨u, OrgStore.mem_addAccount.2 (Or.inl hu), rfl, Iff.rfl⟩
  member u' hu' org' horg hmem := by
    rcases OrgStore.mem_addAccount.1 hu' with hu | rfl
    · exact ⟨u', hu, rfl, hmem, Iff.rfl, fun ha _ => ha⟩
    · exact absurd (Option.some.inj (Account.isMember_iff.1 hmem).1).symm horg

/-- A new account of a live organisation keeps membership sound, when it is no second
Admin of it. -/
theorem MembershipSound.addAccount (h : MembershipSound db) (hlive : db.live org = true)
    (hrole : role = .admin → ∀ u ∈ db.users, ¬ u.IsAdminOf org) :
    MembershipSound (db.addAccount org role departmentId grants) := by
  have hmoves : Moves db (db.addAccount org role departmentId grants) (· = org) (fun _ => True) :=
    .addAccount
  refine hmoves.sound h (fun _ u hu v hv hadmin hadmin' => ?_)
    (fun _ _ _ => hlive) fun u hu org' horg => ?_
  · rcases OrgStore.mem_addAccount.1 hu with hu₀ | rfl <;>
      rcases OrgStore.mem_addAccount.1 hv with hv₀ | rfl
    · exact h.oneAdmin_of_live hlive hu₀ hv₀ hadmin hadmin'
    · exact absurd hadmin (hrole hadmin'.2 u hu₀)
    · exact absurd hadmin' (hrole hadmin.2 v hv₀)
    · rfl
  · rcases OrgStore.mem_addAccount.1 hu with hu₀ | rfl
    · exact h.known u hu₀ org' horg
    · obtain rfl := Option.some.inj horg
      obtain ⟨c, hc, hid, -⟩ := OrgStore.live_iff.1 hlive
      exact ⟨c, hc, hid⟩

/-- A person who is assigned moves into the organisation. -/
theorem Moves.assign : Moves db (db.assign userId org) (· = org) woken :=
  .updateUser (fun _ _ _ => Iff.rfl) fun _ _ _ _ horg hmem =>
    absurd (Option.some.inj (Account.isMember_iff.1 hmem).1).symm horg

/-- A person who is assigned to a live organisation keeps membership sound, when nobody
else is its Admin. -/
theorem MembershipSound.assign (h : MembershipSound db) (hlive : db.live org = true)
    (hrole : ∀ u ∈ db.users, u.id = userId → u.role = .admin →
      ∀ v ∈ db.users, v.IsAdminOf org → v.id = userId) :
    MembershipSound (db.assign userId org) := by
  have hmoves : Moves db (db.assign userId org) (· = org) (fun _ => True) := .assign
  refine hmoves.sound h (fun _ u hu v hv hadmin hadmin' => ?_)
    (fun _ _ _ => hlive) fun u hu org' horg => ?_
  · rcases OrgStore.mem_updateUser.1 hu with ⟨hu₀, hne⟩ | ⟨u₀, hu₀, hid, rfl⟩ <;>
      rcases OrgStore.mem_updateUser.1 hv with ⟨hv₀, hne'⟩ | ⟨v₀, hv₀, hid', rfl⟩
    · exact h.oneAdmin_of_live hlive hu₀ hv₀ hadmin hadmin'
    · exact absurd (hrole v₀ hv₀ hid' hadmin'.2 u hu₀ hadmin) hne
    · exact absurd (hrole u₀ hu₀ hid hadmin.2 v hv₀ hadmin') hne'
    · rw [Table.eq_of_key hu₀ hv₀ (hid.trans hid'.symm)]
  · rcases OrgStore.mem_updateUser.1 hu with ⟨hu₀, -⟩ | ⟨u₀, hu₀, -, rfl⟩
    · exact h.known u hu₀ org' horg
    · obtain rfl := Option.some.inj horg
      obtain ⟨c, hc, hid, -⟩ := OrgStore.live_iff.1 hlive
      exact ⟨c, hc, hid⟩

/-- A deletion of the organisation marks its members deleted. -/
theorem OrgStore.mem_remove : u ∈ (db.remove org now).users ↔
    (u ∈ db.users ∧ u.isMember org = false) ∨
      ∃ u₀ ∈ db.users, u₀.isMember org = true ∧ u = { u₀ with deletedAt := some now } := by
  rw [OrgStore.remove, Table.mem_updateMany]

/-- It marks the organisation deleted. -/
theorem OrgStore.mem_remove_companies {c : Company} : c ∈ (db.remove org now).companies ↔
    (c ∈ db.companies ∧ c.id ≠ org) ∨
      ∃ c₀ ∈ db.companies, c₀.id = org ∧ c = { c₀ with deletedAt := some now } := by
  rw [OrgStore.remove, Table.mem_updateMany]
  simp only [decide_eq_false_iff_not, decide_eq_true_eq]

/-- A deleted organisation is not live, and the others are as live as before. -/
theorem OrgStore.live_remove {org' : ℕ} :
    (db.remove org now).live org' = true ↔ org' ≠ org ∧ db.live org' = true := by
  rw [OrgStore.live_iff, OrgStore.live_iff]
  constructor
  · rintro ⟨c, hc, rfl, hdel⟩
    rcases OrgStore.mem_remove_companies.1 hc with ⟨hc₀, hne⟩ | ⟨c₀, -, -, rfl⟩
    · exact ⟨hne, c, hc₀, rfl, hdel⟩
    · cases hdel
  · rintro ⟨hne, c, hc, rfl, hdel⟩
    exact ⟨c, OrgStore.mem_remove_companies.2 (Or.inl ⟨hc, hne⟩), rfl, hdel⟩

/-- The deletion of an organisation moves nobody into an organisation and wakes nobody. -/
theorem Moves.remove : Moves db (db.remove org now) (· = org) woken where
  live org' horg := by
    rw [Bool.eq_iff_iff, OrgStore.live_remove]
    exact and_iff_right horg
  rank u hu := by
    cases hmem : u.isMember org with
    | false => exact ⟨u, OrgStore.mem_remove.2 (Or.inl ⟨hu, hmem⟩), rfl, Iff.rfl⟩
    | true =>
      exact ⟨{ u with deletedAt := some now },
        OrgStore.mem_remove.2 (Or.inr ⟨u, hu, hmem, rfl⟩), rfl,
        Iff.rfl⟩
  member u' hu' org' horg hmem := by
    rcases OrgStore.mem_remove.1 hu' with ⟨hu, -⟩ | ⟨u, -, -, rfl⟩
    · exact ⟨u', hu, rfl, hmem, Iff.rfl, fun ha _ => ha⟩
    · cases (Account.isMember_iff.1 hmem).2

/-- The deletion of an organisation keeps membership sound: nobody is left in it as a member. -/
theorem MembershipSound.remove (h : MembershipSound db) : MembershipSound (db.remove org now) := by
  have hgone : (db.remove org now).live org ≠ true := fun hlive =>
    (OrgStore.live_remove.1 hlive).1 rfl
  have hmoves : Moves db (db.remove org now) (· = org) (fun _ => True) := .remove
  refine hmoves.sound h (fun hlive => absurd hlive hgone)
    (fun u hu hmem => ?_) fun u hu org' horg => ?_
  · rcases OrgStore.mem_remove.1 hu with ⟨-, hnot⟩ | ⟨u₀, -, -, rfl⟩
    · rw [hnot] at hmem
      cases hmem
    · cases (Account.isMember_iff.1 hmem).2
  · have hold : ∃ c ∈ db.companies, c.id = org' := by
      rcases OrgStore.mem_remove.1 hu with ⟨hu₀, -⟩ | ⟨u₀, hu₀, -, rfl⟩
      · exact h.known u hu₀ org' horg
      · exact h.known u₀ hu₀ org' horg
    obtain ⟨c, hc, rfl⟩ := hold
    rcases eq_or_ne c.id org with hid | hne
    · exact ⟨{ c with deletedAt := some now }, OrgStore.mem_remove_companies.2
        (Or.inr ⟨c, hc, hid, rfl⟩), rfl⟩
    · exact ⟨c, OrgStore.mem_remove_companies.2 (Or.inl ⟨hc, hne⟩), rfl⟩

/-- A save that leaves the account in its organisation and its rank moves nobody, and wakes at
most its own account. -/
theorem Moves.save {entity : Account} {touched : ℕ → Prop}
    (hsame : ∀ u ∈ db.users, u.id = entity.id → u.companyId = entity.companyId ∧
      (entity.role = .admin ↔ u.role = .admin))
    (hwoken : ∀ u ∈ db.users, u.id = entity.id → ∀ org, u.isMember org = true →
      entity.status = .active → ¬ woken org → u.status = .active) :
    Moves db (db.save entity) touched woken := by
  refine .updateUser (fun u hu hid => (hsame u hu hid).2) fun u hu hid org' _ hmem => ?_
  have hmem₀ : u.isMember org' = true := by
    obtain ⟨horg, hdel⟩ := Account.isMember_iff.1 hmem
    exact Account.isMember_iff.2 ⟨(hsame u hu hid).1.trans horg, hdel⟩
  exact ⟨hmem₀, hwoken u hu hid org' hmem₀⟩

/-- A save that keeps the organisation, and whether the account is an Admin, keeps the members
sound. -/
theorem MembershipSound.save (h : MembershipSound db) {entity : Account}
    (hsame : ∀ u ∈ db.users, u.id = entity.id → u.companyId = entity.companyId ∧
      (entity.role = .admin ↔ u.role = .admin)) :
    MembershipSound (db.save entity) := by
  have hmoves : Moves db (db.save entity) (fun _ => False) (fun _ => True) :=
    .save hsame fun _ _ _ _ _ _ hnot => absurd trivial hnot
  refine .of_live (fun org hlive u hu v hv => hmoves.oneAdmin h id hlive hu hv)
    (fun u hu org hmem => ?_) fun u hu org horg => ?_
  · obtain ⟨u₀, hu₀, -, hmem₀, -⟩ := hmoves.member u hu org id hmem
    exact h.live_of_isMember hu₀ hmem₀
  · rcases OrgStore.mem_updateUser.1 hu with ⟨hu₀, -⟩ | ⟨u₀, hu₀, hid, rfl⟩
    · exact h.known u hu₀ org horg
    · exact h.known u₀ hu₀ org ((hsame u₀ hu₀ hid).1.trans horg)

end Commits

/-! ## What a transaction knows -/

/-- The account exists, and is an Admin when it was one. -/
def SameRank (db : OrgStore) (person : Account) : Prop :=
  ∃ u ∈ db.users, u.id = person.id ∧ (u.role = .admin ↔ person.role = .admin)

/-- What a transaction has found out still holds. -/
def TxFacts (db : OrgStore) : OrgOp → OrgPhase → Prop
  | .createAdmin org, .clear _ => ∀ u ∈ db.users, ¬ u.IsAdminOf org
  | .assignPerson userId _, .found person => person.id = userId ∧ SameRank db person
  | .assignPerson userId org, .clear _ => ∃ u ∈ db.users, u.id = userId ∧
      (u.role = .admin → ∀ v ∈ db.users, v.IsAdminOf org → v.id = userId)
  | .softDelete org _, .counted => ∀ u ∈ db.users, u.isMember org = true → u.status ≠ .active
  | .setUserStatus _ _ _, .loaded person => SameRank db person
  | .reactivate _ _ _ _ _, .loaded person => SameRank db person ∧ person.role ≠ .admin
  | _, .loaded _ => False
  | _, _ => True

/-- The transaction `i` holds its organisation's lock, the organisation is live, and what
it has found out holds. -/
structure TxInv (w : OrgWorld) (i : ℕ) (tx : OrgTx) : Prop where
  held : tx.phase.holds = true → ∃ org, tx.op.lockOf = some org ∧ w.locks org = some i ∧
    w.db.live org = true
  facts : TxFacts w.db tx.op tx.phase

/-- What a step keeps. -/
structure SoundInv (w : OrgWorld) : Prop where
  sound : MembershipSound w.db
  txs : ∀ i tx, w.txs[i]? = some tx → TxInv w i tx

section Facts

variable {touched woken : ℕ → Prop} {op : OrgOp} {phase : OrgPhase} {person : Account}

/-- An account that nobody moves keeps its organisation and rank. -/
theorem SameRank.of_moves (h : SameRank db person) (hmoves : Moves db db' touched woken) :
    SameRank db' person := by
  obtain ⟨u, hu, hid, hrole⟩ := h
  obtain ⟨u', hu', hid', hrole'⟩ := hmoves.rank u hu
  exact ⟨u', hu', hid'.trans hid, hrole'.trans hrole⟩

/-- An Admin of an organisation that is not touched was one before. -/
theorem Moves.isAdminOf (hmoves : Moves db db' touched woken) (horg : ¬ touched org)
    (hv : v ∈ db'.users)
    (hadmin : v.IsAdminOf org) : ∃ v₀ ∈ db.users, v₀.id = v.id ∧ v₀.IsAdminOf org := by
  obtain ⟨v₀, hv₀, hid, hmem, hrole, -⟩ := hmoves.member v hv org horg hadmin.1
  exact ⟨v₀, hv₀, hid, hmem, hrole.1 hadmin.2⟩

/-- What a transaction has found out of an organisation that the commit of
another one does not touch. -/
theorem TxFacts.of_moves (h : TxFacts db op phase) (hmoves : Moves db db' touched woken)
    (htouched : ∀ org, op.lockOf = some org → phase.holds = true → ¬ touched org)
    (hwoken : ∀ org, op.lockOf = some org → phase = .counted → ¬ woken org) :
    TxFacts db' op phase := by
  match op, phase with
  | .createAdmin org, .clear _ =>
    intro v hv hadmin
    obtain ⟨v₀, hv₀, -, hadmin₀⟩ := hmoves.isAdminOf (htouched org rfl rfl) hv hadmin
    exact h v₀ hv₀ hadmin₀
  | .assignPerson userId _, .found person => exact ⟨h.1, h.2.of_moves hmoves⟩
  | .assignPerson userId org, .clear _ =>
    obtain ⟨u, hu, hid, hclear⟩ := h
    obtain ⟨u', hu', hid', hrole⟩ := hmoves.rank u hu
    refine ⟨u', hu', hid'.trans hid, fun hadmin v hv hv' => ?_⟩
    obtain ⟨v₀, hv₀, hidv, hadmin₀⟩ := hmoves.isAdminOf (htouched org rfl rfl) hv hv'
    rw [← hidv]
    exact hclear (hrole.1 hadmin) v₀ hv₀ hadmin₀
  | .softDelete org _, .counted =>
    intro u hu hmem hactive
    obtain ⟨u₀, hu₀, -, hmem₀, -, hwas⟩ := hmoves.member u hu org (htouched org rfl rfl) hmem
    exact h u₀ hu₀ hmem₀ (hwas hactive (hwoken org rfl rfl))
  | .setUserStatus _ _ _, .loaded person =>
    have hrank : SameRank db person := h
    exact hrank.of_moves hmoves
  | .reactivate _ _ _ _ _, .loaded person => exact ⟨h.1.of_moves hmoves, h.2⟩
  | .createAdmin _, .loaded _ | .create _ _ _ _, .loaded _ | .assignPerson _ _, .loaded _
  | .softDelete _ _, .loaded _ => exact h.elim
  | .createAdmin _, .begun | .createAdmin _, .locked | .createAdmin _, .found _
  | .createAdmin _, .counted | .createAdmin _, .finished => trivial
  | .create _ _ _ _, .begun | .create _ _ _ _, .locked | .create _ _ _ _, .found _
  | .create _ _ _ _, .clear _ | .create _ _ _ _, .counted | .create _ _ _ _, .finished => trivial
  | .assignPerson _ _, .begun | .assignPerson _ _, .locked | .assignPerson _ _, .counted
  | .assignPerson _ _, .finished => trivial
  | .softDelete _ _, .begun | .softDelete _ _, .locked | .softDelete _ _, .found _
  | .softDelete _ _, .clear _ | .softDelete _ _, .finished => trivial
  | .setUserStatus _ _ _, .begun | .setUserStatus _ _ _, .locked | .setUserStatus _ _ _, .found _
  | .setUserStatus _ _ _, .clear _ | .setUserStatus _ _ _, .counted
  | .setUserStatus _ _ _, .finished => trivial
  | .reactivate _ _ _ _ _, .begun | .reactivate _ _ _ _ _, .locked | .reactivate _ _ _ _ _, .found _
  | .reactivate _ _ _ _ _, .clear _ | .reactivate _ _ _ _ _, .counted
  | .reactivate _ _ _ _ _, .finished => trivial

end Facts

namespace SoundInv

variable {w w' : OrgWorld} {tx : OrgTx} {phase : OrgPhase} {i : ℕ} {touched woken : ℕ → Prop}

/-- At the start nothing is under way. -/
theorem start (h : MembershipSound db) : SoundInv (.start db) where
  sound := h
  txs _ _ hi := by cases hi

/-- The transaction `i` goes on and leaves `db'`: the other transactions hold what they have
counted, when nobody is moved into an organisation whose lock another one holds. -/
theorem of_step (h : SoundInv w) (hi : w.txs[i]? = some tx) (hsound : MembershipSound db')
    (hmoves : Moves w.db db' touched woken) (htouched : ∀ org, touched org → w.locks org = some i)
    (hwoken : ∀ tx' ∈ w.txs, tx'.phase = .counted → ∀ org, tx'.op.lockOf = some org → ¬ woken org)
    (hlock : phase = .locked → ∀ org, tx.op.lockOf = some org → w.locks org = none)
    (hnew : TxInv ⟨db', w.locksAfter i tx.op phase, w.txs.set i { tx with phase }⟩ i
      { tx with phase }) :
    SoundInv ⟨db', w.locksAfter i tx.op phase, w.txs.set i { tx with phase }⟩ where
  sound := hsound
  txs j tx' hj := by
    rcases eq_or_ne i j with rfl | hne
    · change (w.txs.set i _)[i]? = _ at hj
      rw [List.getElem?_set_self (List.getElem?_eq_some_iff.1 hi).1] at hj
      obtain rfl := Option.some.inj hj
      exact hnew
    · change (w.txs.set i _)[j]? = _ at hj
      rw [List.getElem?_set_ne hne] at hj
      have hother := h.txs j tx' hj
      -- the others hold other locks
      have hheld : ∀ org, w.locks org = some j →
          w.locksAfter i tx.op phase org = some j ∧ ¬ touched org := by
        intro org horg
        refine ⟨?_, fun ht => hne (Option.some.inj ((htouched org ht).symm.trans horg))⟩
        cases phase with
        | locked =>
          rw [OrgWorld.locksAfter, if_neg, horg]
          intro hop
          rw [hlock rfl org hop] at horg
          cases horg
        | finished =>
          rw [OrgWorld.locksAfter, if_neg, horg]
          rw [horg]
          exact fun he => hne (Option.some.inj he).symm
        | begun | found | clear | counted | loaded => exact horg
      refine ⟨fun hholds => ?_, hother.facts.of_moves hmoves (fun org hop hholds => ?_)
        fun org hop hcounted => hwoken tx' (List.mem_of_getElem? hj) hcounted org hop⟩
      · obtain ⟨org, hop, hlocks, hlive⟩ := hother.held hholds
        obtain ⟨hafter, hnot⟩ := hheld org hlocks
        exact ⟨org, hop, hafter, (hmoves.live org hnot).trans hlive⟩
      · obtain ⟨org', hop', hlocks, -⟩ := hother.held hholds
        obtain rfl := Option.some.inj (hop.symm.trans hop')
        exact (hheld org hlocks).2

/-- The transaction `i` reads, or ends without a write: the tables are the same, and only what
it has read is new. -/
theorem of_read (h : SoundInv w) (hi : w.txs[i]? = some tx)
    (hphase : tx.phase.holds = true ∨ phase.holds = false) (hnot : phase ≠ .locked)
    (hfacts : TxFacts w.db tx.op phase) :
    SoundInv ⟨w.db, w.locksAfter i tx.op phase, w.txs.set i { tx with phase }⟩ := by
  refine h.of_step hi h.sound (.refl _) (fun org ht => absurd ht id) (fun _ _ _ _ _ => id)
    (fun hl => absurd hl hnot) ⟨fun hholds => ?_, hfacts⟩
  have hholds' : phase.holds = true := hholds
  rcases hphase with hwas | hno
  · obtain ⟨org, hop, hlocks, hlive⟩ := (h.txs i tx hi).held hwas
    refine ⟨org, hop, ?_, hlive⟩
    change w.locksAfter i tx.op phase org = some i
    cases phase <;> first | exact hlocks | cases hholds'
    exact absurd rfl hnot
  · rw [hno] at hholds'
    cases hholds'

/-- The transaction `i` commits and is over. -/
theorem of_commit (h : SoundInv w) (hi : w.txs[i]? = some tx) (hsound : MembershipSound db')
    (hmoves : Moves w.db db' touched woken) (htouched : ∀ org, touched org → w.locks org = some i)
    (hwoken : ∀ tx' ∈ w.txs, tx'.phase = .counted → ∀ org, tx'.op.lockOf = some org → ¬ woken org) :
    SoundInv ⟨db', w.locksAfter i tx.op .finished, w.txs.set i { tx with phase := .finished }⟩ :=
  h.of_step hi hsound hmoves htouched hwoken nofun ⟨nofun, by cases tx.op <;> trivial⟩

/-! ## The statements -/

/-- What a use case that saves has read of the account is its row, with the rank and the
organisation that it has. -/
theorem load_facts (db : OrgStore) (op : OrgOp) : TxFacts db op (db.load op) ∧
    (db.load op).holds = false ∧ db.load op ≠ .locked := by
  have hread : ∀ userId person, db.findPerson userId = some person → SameRank db person :=
    fun _ person hp => ⟨person, Table.mem_of_find? hp, rfl, Iff.rfl⟩
  cases op with
  | createAdmin | create | assignPerson | softDelete => exact ⟨trivial, rfl, nofun⟩
  | setUserStatus userId org status =>
    cases hp : db.findPerson userId with
    | none =>
      have hload : db.load (.setUserStatus userId org status) = .finished := by
        simp only [OrgStore.load, hp]
      rw [hload]
      exact ⟨trivial, rfl, nofun⟩
    | some person =>
      have hload : db.load (.setUserStatus userId org status) =
          if person.companyId = org then .loaded person else .finished := by
            simp only [OrgStore.load, hp]
      rw [hload]
      split
      · exact ⟨hread userId person hp, rfl, nofun⟩
      · exact ⟨trivial, rfl, nofun⟩
  | reactivate userId org asManager departmentId grants =>
    cases hp : db.findPerson userId with
    | none =>
      have hload : db.load (.reactivate userId org asManager departmentId grants) = .finished := by
        simp only [OrgStore.load, hp]
      rw [hload]
      exact ⟨trivial, rfl, nofun⟩
    | some person =>
      have hload : db.load (.reactivate userId org asManager departmentId grants) =
          if person.companyId = some org ∧ person.status ≠ .active ∧ person.role ≠ .admin ∧
            person.role ≠ .superAdmin ∧ person.role ≠ .superManager then .loaded person
          else .finished := by simp only [OrgStore.load, hp]
      rw [hload]
      split
      · next hchecks => exact ⟨⟨hread userId person hp, hchecks.2.2.1⟩, rfl, nofun⟩
      · exact ⟨trivial, rfl, nofun⟩

/-- An organisation that is found without an Admin has none but the one left out of the search. -/
theorem hasAdmin_eq_false {except : Option ℕ} (h : db.hasAdmin org except = false)
    (hu : u ∈ db.users) (hadmin : u.IsAdminOf org) : some u.id = except := by
  rw [OrgStore.hasAdmin, List.any_eq_false] at h
  by_contra hne
  refine h u hu ?_
  simp [hadmin.1, hadmin.2, hne]

/-- The first statement under the lock: what is counted of the organisation stays true until the
transaction ends, for those who take the lock. -/
theorem proceed_locked (h : SoundInv w) (hi : w.txs[i]? = some tx) (hphase : tx.phase = .locked) :
    SoundInv ⟨(w.db.afterLock tx.op).1, w.locksAfter i tx.op (w.db.afterLock tx.op).2,
      w.txs.set i { tx with phase := (w.db.afterLock tx.op).2 }⟩ := by
  have hholds : tx.phase.holds = true := by rw [hphase]; rfl
  obtain ⟨org, hop, hlocks, hlive⟩ := (h.txs i tx hi).held hholds
  cases hop' : tx.op with
  | createAdmin org' =>
    cases hadmin : w.db.hasAdmin org' none with
    | true =>
      have hafter : w.db.afterLock (.createAdmin org') = (w.db, .finished) := by
        simp only [OrgStore.afterLock, hadmin, if_true]
      rw [hafter, ← hop']
      exact h.of_read hi (Or.inl hholds) nofun (by rw [hop']; trivial)
    | false =>
      have hafter : w.db.afterLock (.createAdmin org') = (w.db, .clear none) := by
        simp only [OrgStore.afterLock, hadmin, Bool.false_eq_true, if_false]
      rw [hafter, ← hop']
      refine h.of_read hi (Or.inl hholds) nofun ?_
      rw [hop']
      intro u hu hu'
      cases hasAdmin_eq_false hadmin hu hu'
  | create org' asManager departmentId grants =>
    rw [hop'] at hop
    obtain rfl := Option.some.inj hop
    have hrole : roleOf asManager = .admin → ∀ u ∈ w.db.users, ¬ u.IsAdminOf org' := by
      cases asManager <;> exact nofun
    have hmoves : Moves w.db (w.db.addAccount org' (roleOf asManager) departmentId grants)
      (· = org') (fun _ => False) := .addAccount
    have hcommit := h.of_commit hi (h.sound.addAccount hlive hrole) hmoves (fun _ ht => ht ▸ hlocks)
      fun _ _ _ _ _ => id
    rw [hop'] at hcommit
    exact hcommit
  | assignPerson userId org' =>
    rw [hop'] at hop
    obtain rfl := Option.some.inj hop
    cases hp : w.db.findPerson userId with
    | none =>
      have hafter : w.db.afterLock (.assignPerson userId org') = (w.db, .finished) := by
        simp only [OrgStore.afterLock, hp]
      rw [hafter, ← hop']
      exact h.of_read hi (Or.inl hholds) nofun (by rw [hop']; trivial)
    | some person =>
      have hmem := Table.mem_of_find? hp
      have hid : person.id = userId := by
        have hspec := Table.find?_spec hp
        simp only [Bool.and_eq_true, decide_eq_true_eq] at hspec
        exact hspec.1
      cases hcurrent : person.companyId.any w.db.live with
      | true =>
        have hafter : w.db.afterLock (.assignPerson userId org') = (w.db, .finished) := by
          simp only [OrgStore.afterLock, hp, hcurrent, if_true]
        rw [hafter, ← hop']
        exact h.of_read hi (Or.inl hholds) nofun (by rw [hop']; trivial)
      | false =>
        rcases eq_or_ne person.role .admin with hrole | hrole
        · have hafter : w.db.afterLock (.assignPerson userId org') = (w.db, .found person) := by
            simp only [OrgStore.afterLock, hp, hcurrent, Bool.false_eq_true,
              if_false, hrole, if_true]
          rw [hafter, ← hop']
          refine h.of_read hi (Or.inl hholds) nofun ?_
          rw [hop']
          exact ⟨hid, person, hmem, rfl, Iff.rfl⟩
        · have hafter : w.db.afterLock (.assignPerson userId org') =
              (w.db, .clear (some person)) := by
            simp only [OrgStore.afterLock, hp, hcurrent, Bool.false_eq_true, if_false, hrole]
          rw [hafter, ← hop']
          refine h.of_read hi (Or.inl hholds) nofun ?_
          rw [hop']
          exact ⟨person, hmem, hid, fun hadmin => absurd hadmin hrole⟩
  | softDelete org' now =>
    cases hactive : w.db.hasActive org' with
    | true =>
      have hafter : w.db.afterLock (.softDelete org' now) = (w.db, .finished) := by
        simp only [OrgStore.afterLock, hactive, if_true]
      rw [hafter, ← hop']
      exact h.of_read hi (Or.inl hholds) nofun (by rw [hop']; trivial)
    | false =>
      have hafter : w.db.afterLock (.softDelete org' now) = (w.db, .counted) := by
        simp only [OrgStore.afterLock, hactive, Bool.false_eq_true, if_false]
      rw [hafter, ← hop']
      refine h.of_read hi (Or.inl hholds) nofun ?_
      rw [hop']
      intro u hu hmem hstatus
      rw [OrgStore.hasActive, List.any_eq_false] at hactive
      exact hactive u hu (by simp [hmem, hstatus])
  | setUserStatus | reactivate =>
    rw [hop'] at hop
    cases hop

/-- A save in order keeps the invariant: the account is still in the organisation it was read in,
and is no member that a deletion has counted. -/
theorem proceed_loaded (h : SoundInv w) (hi : w.txs[i]? = some tx) {person : Account}
    (hphase : tx.phase = .loaded person) (hok : w.SavesInOrder (.proceed i)) :
    SoundInv ⟨w.db.save (OrgStore.entity tx.op person), w.locksAfter i tx.op .finished,
      w.txs.set i { tx with phase := .finished }⟩ := by
  have hfacts := (h.txs i tx hi).facts
  rw [hphase] at hfacts
  have hplace : ∀ u ∈ w.db.users, u.id = person.id → u.companyId = person.companyId ∧
      (tx.op.activates → u.deletedAt = none →
        ∀ tx' ∈ w.txs, tx'.phase = .counted → tx'.op.lockOf ≠ u.companyId) :=
    hok tx hi person (by rw [hphase]; rfl)
  -- the entity keeps the account's id, organisation and rank; it is `ACTIVE` when the use case
  -- makes it so
  have hentity : (OrgStore.entity tx.op person).id = person.id ∧
      (OrgStore.entity tx.op person).companyId = person.companyId ∧
      (∀ u ∈ w.db.users, u.id = person.id →
        ((OrgStore.entity tx.op person).role = .admin ↔ u.role = .admin)) ∧
      ((OrgStore.entity tx.op person).status = .active → tx.op.activates = true) := by
    have hrank : SameRank w.db person → ∀ u ∈ w.db.users, u.id = person.id →
        (u.role = .admin ↔ person.role = .admin) := by
      rintro ⟨u₀, hu₀, hid₀, hrole⟩ u hu hid
      rw [Table.eq_of_key hu hu₀ (hid.trans hid₀.symm)]
      exact hrole
    cases hop : tx.op with
    | createAdmin | create | assignPerson | softDelete =>
      rw [hop] at hfacts
      exact hfacts.elim
    | setUserStatus userId org status =>
      rw [hop] at hfacts
      exact ⟨rfl, rfl, fun u hu hid => (hrank hfacts u hu hid).symm, fun ha => decide_eq_true ha⟩
    | reactivate userId org asManager departmentId grants =>
      rw [hop] at hfacts
      refine ⟨rfl, rfl, fun u hu hid => iff_of_false ?_ ?_, fun _ => rfl⟩
      · cases asManager <;> exact nofun
      · exact fun hadmin => hfacts.2 ((hrank hfacts.1 u hu hid).1 hadmin)
  obtain ⟨hid, hcompany, hrole, hstatus⟩ := hentity
  have hsame : ∀ u ∈ w.db.users, u.id = (OrgStore.entity tx.op person).id →
      u.companyId = (OrgStore.entity tx.op person).companyId ∧
        ((OrgStore.entity tx.op person).role = .admin ↔ u.role = .admin) := by
    intro u hu hu'
    rw [hid] at hu'
    rw [hcompany]
    exact ⟨(hplace u hu hu').1, hrole u hu hu'⟩
  have hmoves : Moves w.db (w.db.save (OrgStore.entity tx.op person)) (fun _ => False)
      (fun org => tx.op.activates = true ∧
        ∃ u ∈ w.db.users, u.id = person.id ∧ u.isMember org = true) :=
    .save hsame fun u hu hu' org hmem hactive hnot =>
      absurd ⟨hstatus hactive, u, hu, hu'.trans hid, hmem⟩ hnot
  refine h.of_commit hi (h.sound.save hsame) hmoves (fun _ ht => ht.elim)
    fun tx' htx' hcounted org hlock hwoken => ?_
  obtain ⟨hactivates, u, hu, hu', hmem⟩ := hwoken
  obtain ⟨horg, hdel⟩ := Account.isMember_iff.1 hmem
  exact (hplace u hu hu').2 hactivates hdel tx' htx' hcounted (hlock.trans horg.symm)

/-- The next statement of a transaction keeps the invariant, by its phase: under the lock, after the
count, or a save without the lock. -/
theorem proceed (h : SoundInv w) (hi : w.txs[i]? = some tx) (hok : w.SavesInOrder (.proceed i))
    (hp : w.proceed tx = some (db', phase)) :
    SoundInv ⟨db', w.locksAfter i tx.op phase, w.txs.set i { tx with phase }⟩ := by
  have hinv := h.txs i tx hi
  have hidle : ∀ tx' ∈ w.txs, tx'.phase = .counted → ∀ org, tx'.op.lockOf = some org → ¬ False :=
    fun _ _ _ _ _ => id
  cases hphase : tx.phase with
  | begun =>
    simp only [OrgWorld.proceed, hphase] at hp
    cases hop : tx.op.lockOf with
    | none =>
      simp only [hop, Option.some.injEq, Prod.mk.injEq] at hp
      obtain ⟨rfl, rfl⟩ := hp
      obtain ⟨hfacts, hholds, hnot⟩ := load_facts w.db tx.op
      exact h.of_read hi (Or.inr hholds) hnot hfacts
    | some org =>
      simp only [hop] at hp
      split at hp
      · next hfree =>
        obtain ⟨rfl, rfl⟩ := Prod.mk.inj (Option.some.inj hp)
        cases hlive : w.db.live org with
        | false =>
          simp only [Bool.false_eq_true, if_false]
          exact h.of_read hi (Or.inr rfl) nofun (by cases tx.op <;> trivial)
        | true =>
          simp only [if_true]
          refine h.of_step hi h.sound (.refl _) (fun _ ht => absurd ht id) (fun _ _ _ _ _ => id)
            (fun _ org' hop' => ?_) ⟨fun _ => ⟨org, hop, ?_, hlive⟩, by cases tx.op <;> trivial⟩
          · obtain rfl := Option.some.inj (hop.symm.trans hop')
            exact hfree
          · exact if_pos hop
      · cases hp
  | locked =>
    simp only [OrgWorld.proceed, hphase, Option.some.injEq] at hp
    have hlocked := h.proceed_locked hi hphase
    rw [hp] at hlocked
    exact hlocked
  | found person =>
    have hholds : tx.phase.holds = true := by rw [hphase]; rfl
    cases hop : tx.op with
    | assignPerson userId org =>
      simp only [OrgWorld.proceed, hphase, hop, Option.some.injEq, Prod.mk.injEq] at hp
      obtain ⟨rfl, rfl⟩ := hp
      have hfacts := hinv.facts
      rw [hop, hphase] at hfacts
      obtain ⟨hid, u, hu, hu', -⟩ := hfacts
      rw [← hop]
      cases hadmin : w.db.hasAdmin org (some person.id) with
      | true =>
        simp only [if_true]
        exact h.of_read hi (Or.inl hholds) nofun (by rw [hop]; trivial)
      | false =>
        simp only [Bool.false_eq_true, if_false]
        refine h.of_read hi (Or.inl hholds) nofun ?_
        rw [hop]
        refine ⟨u, hu, hu'.trans hid, fun _ v hv hv' => ?_⟩
        exact (Option.some.inj (hasAdmin_eq_false hadmin hv hv')).trans hid
    | createAdmin | create | softDelete | setUserStatus | reactivate =>
      simp only [OrgWorld.proceed, hphase, hop, Option.some.injEq, Prod.mk.injEq] at hp
      obtain ⟨rfl, rfl⟩ := hp
      rw [← hop]
      exact h.of_read hi (Or.inl hholds) nofun (by rw [hop]; trivial)
  | clear person =>
    have hholds : tx.phase.holds = true := by rw [hphase]; rfl
    simp only [OrgWorld.proceed, hphase, Option.some.injEq, Prod.mk.injEq] at hp
    obtain ⟨rfl, rfl⟩ := hp
    obtain ⟨org, hlock, hlocks, hlive⟩ := hinv.held hholds
    have hfacts := hinv.facts
    rw [hphase] at hfacts
    cases hop : tx.op with
    | createAdmin org' =>
      rw [hop] at hlock hfacts
      obtain rfl := Option.some.inj hlock
      rw [← hop]
      have hmoves : Moves w.db (w.db.addAccount org' .admin none NO_GRANTS) (· = org')
          (fun _ => False) := .addAccount
      have hcommit := h.of_commit hi (h.sound.addAccount hlive fun _ => hfacts) hmoves
        (fun _ ht => ht ▸ hlocks) hidle
      rw [hop] at hcommit ⊢
      exact hcommit
    | assignPerson userId org' =>
      rw [hop] at hlock hfacts
      obtain rfl := Option.some.inj hlock
      obtain ⟨u, hu, hid, hclear⟩ := hfacts
      have hsound : MembershipSound (w.db.assign userId org') := by
        refine h.sound.assign hlive fun u' hu' hid' hadmin => ?_
        rw [Table.eq_of_key hu' hu (hid'.trans hid.symm)] at hadmin
        exact hclear hadmin
      have hmoves : Moves w.db (w.db.assign userId org') (· = org') (fun _ => False) := .assign
      have hcommit := h.of_commit hi hsound hmoves (fun _ ht => ht ▸ hlocks) hidle
      rw [hop] at hcommit
      exact hcommit
    | create | softDelete | setUserStatus | reactivate =>
      rw [← hop]
      have hsame : w.db.whenClear tx.op = w.db := by rw [hop]; rfl
      rw [hsame]
      exact h.of_read hi (Or.inl hholds) nofun (by rw [hop]; trivial)
  | counted =>
    have hholds : tx.phase.holds = true := by rw [hphase]; rfl
    obtain ⟨org, hlock, hlocks, -⟩ := hinv.held hholds
    cases hop : tx.op with
    | softDelete org' now =>
      simp only [OrgWorld.proceed, hphase, hop, Option.some.injEq, Prod.mk.injEq] at hp
      obtain ⟨rfl, rfl⟩ := hp
      rw [hop] at hlock
      obtain rfl := Option.some.inj hlock
      have hmoves : Moves w.db (w.db.remove org' now) (· = org') (fun _ => False) := .remove
      have hcommit := h.of_commit hi h.sound.remove hmoves (fun _ ht => ht ▸ hlocks) hidle
      rw [hop] at hcommit
      exact hcommit
    | createAdmin | create | assignPerson | setUserStatus | reactivate =>
      simp only [OrgWorld.proceed, hphase, hop, Option.some.injEq, Prod.mk.injEq] at hp
      obtain ⟨rfl, rfl⟩ := hp
      rw [← hop]
      exact h.of_read hi (Or.inl hholds) nofun (by rw [hop]; trivial)
  | loaded person =>
    simp only [OrgWorld.proceed, hphase, Option.some.injEq, Prod.mk.injEq] at hp
    obtain ⟨rfl, rfl⟩ := hp
    exact h.proceed_loaded hi hphase hok
  | finished =>
    simp only [OrgWorld.proceed, hphase, Option.some.injEq, Prod.mk.injEq] at hp
    obtain ⟨rfl, rfl⟩ := hp
    exact h.of_read hi (Or.inr rfl) nofun (by cases tx.op <;> trivial)

/-- Every step whose saves are in order keeps the invariant. -/
theorem step (h : SoundInv w) {a : OrgAction} (hok : w.SavesInOrder a) (hs : w.step a = some w') :
    SoundInv w' := by
  cases a with
  | begins op =>
    obtain rfl := Option.some.inj hs
    refine ⟨h.sound, fun j tx hj => ?_⟩
    change (w.txs ++ [_])[j]? = _ at hj
    rw [List.getElem?_append] at hj
    split at hj
    · exact ⟨(h.txs j tx hj).held, (h.txs j tx hj).facts⟩
    · obtain rfl := List.mem_singleton.1 (List.mem_of_getElem? hj)
      exact ⟨nofun, by cases op <;> trivial⟩
  | proceed i =>
    simp only [OrgWorld.step] at hs
    cases hi : w.txs[i]? with
    | none => simp [hi] at hs
    | some tx =>
      simp only [hi, Option.map_eq_some_iff] at hs
      obtain ⟨⟨db', phase⟩, hp, rfl⟩ := hs
      exact h.proceed hi hok hp
  | fails i =>
    simp only [OrgWorld.step] at hs
    cases hi : w.txs[i]? with
    | none => simp [hi] at hs
    | some tx =>
      simp only [hi, Option.some.injEq] at hs
      subst hs
      exact h.of_read hi (Or.inr rfl) nofun (by cases tx.op <;> trivial)

/-- A deletion of an organisation deletes no active account, in a sound state. -/
theorem deletesNobodyActive (h : SoundInv w) : w.DeletesNobodyActive := by
  rintro tx htx org now rfl u hu hmem
  obtain ⟨i, hi⟩ := List.mem_iff_getElem?.1 htx
  exact (h.txs i _ hi).facts u hu hmem

end SoundInv

/-- In every run whose saves are in order, membership stays sound, and no organisation is
deleted while one of its accounts is `ACTIVE`. Whoever takes the organisation's lock sees what
is stored; a save without the lock must not wake an account of an organisation whose members a
deletion has counted. -/
theorem membership_sound {acts : List OrgAction} {w : OrgWorld} (hsound : MembershipSound db)
    (h : Runs.run OrgWorld.step (.start db) acts = some w)
    (hok : Runs.Meets OrgWorld.step OrgWorld.SavesInOrder (.start db) acts) :
    MembershipSound w.db ∧ w.DeletesNobodyActive := by
  have hinv := Runs.invariant_run SoundInv (fun _ _ _ hi ho hs => hi.step ho hs)
    (.start hsound) hok h
  exact ⟨hinv.sound, hinv.deletesNobodyActive⟩

/-- An organisation with one member of Staff. -/
def oneStaff (status : UserStatus) : OrgStore where
  companies := oneCompany
  users := Table.empty.create (fun id => { id, role := .user, status, companyId := some 0 })
    fun _ => rfl

/-- The tables of the example are sound: an organisation with one of Staff. -/
theorem oneStaff_sound (status : UserStatus) : MembershipSound (oneStaff status) where
  oneAdmin c _ _ u hu v _ hadmin _ := by
    rcases Table.mem_create.1 hu with hu | rfl
    · exact absurd hu (Table.not_mem_empty u)
    · exact absurd hadmin.2 nofun
  gone c hc hgone := by
    rcases Table.mem_create.1 hc with hc | rfl
    · exact absurd hc (Table.not_mem_empty c)
    · exact absurd rfl hgone
  known u hu org horg := by
    rcases Table.mem_create.1 hu with hu | rfl
    · exact absurd hu (Table.not_mem_empty u)
    · obtain rfl := Option.some.inj horg
      exact ⟨{ id := 0 }, Table.mem_create.2 (Or.inr rfl), rfl⟩

/-- The organisation's people are counted, and then its blocked member is unblocked. -/
def unblockedWhileDeleted : List OrgAction :=
  [.begins (.softDelete 0 1), .begins (.setUserStatus 0 (some 0) .active), .proceed 1, .proceed 0,
    .proceed 0, .proceed 1]

/-- A reactivation that saves between the count and the commit of a deletion is lost: the deletion
goes on to delete an account that is `ACTIVE`. -/
theorem reactivated_while_deleted :
    ¬ ∀ (db : OrgStore) (acts : List OrgAction) (w : OrgWorld), MembershipSound db →
      Runs.run OrgWorld.step (.start db) acts = some w →
        MembershipSound w.db ∧ w.DeletesNobodyActive := by
  intro h
  have hrun : Runs.run OrgWorld.step (.start (oneStaff .disabled))
    unblockedWhileDeleted = some _ := rfl
  obtain ⟨-, hnobody⟩ := h _ _ _ (oneStaff_sound _) hrun
  refine hnobody ⟨.softDelete 0 1, .counted⟩ (by decide) 0 1 rfl
    { id := 0, role := .user, companyId := some 0 } (by decide) rfl rfl

/-- A member is blocked and then the organisation is deleted: nobody active is deleted, and
membership is sound. -/
theorem deletedAfterBlock_sound :
    ∃ w, Runs.run OrgWorld.step (.start (oneStaff .active))
      [.begins (.setUserStatus 0 (some 0) .disabled), .proceed 0, .proceed 0,
        .begins (.softDelete 0 1),
        .proceed 1, .proceed 1, .proceed 1] = some w ∧
      MembershipSound w.db ∧ w.DeletesNobodyActive := by
  have hrun : Runs.run OrgWorld.step (.start (oneStaff .active))
    [.begins (.setUserStatus 0 (some 0) .disabled), .proceed 0, .proceed 0,
      .begins (.softDelete 0 1),
      .proceed 1, .proceed 1, .proceed 1] = some _ := rfl
  exact ⟨_, hrun, membership_sound (oneStaff_sound _) hrun (by decide +kernel)⟩

end RxVision
