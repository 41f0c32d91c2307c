import RxVision.Lib.Runs
import RxVision.Approvals.Decisions
import RxVision.Approvals.Inbox
import RxVision.Approvals.Reroute
import RxVision.Tenancy.Placement

/-!
# Waiting items and the people who can decide them

The directory and all approval items together, under the operations that create, decide, reopen and
re-route items and that move people between roles and departments. Every waiting item should be on
the list of somebody who may decide it. The list goes by the approver role stored on the row, the
decision by the person's role now, and the two stay in step as long as a row that waits for Managers
belongs to Staff (`ItemOk`). Reopening is the one operation that makes a row wait again without
routing it, and a change of role re-routes no more than `BATCH` rows of a kind; those are the
conditions of `waiting_item_is_listed`.
-/

namespace RxVision

/-- The directory and the approval items. -/
structure Office where
  dir : Directory
  items : Table ApprovalItem.id

/-- What an agent or a job stores as a new item; `asks` when the item needs a decision at all. -/
structure NewItem where
  type : ApprovalType
  date : DateKey
  startedAt : ℤ
  endedAt : Option ℤ := none
  asks : Bool

/-- The operations on items, roles and departments; a refused request changes nothing. -/
inductive OfficeAction
  /-- Break, skip, meeting or away stretch of somebody, routed as it is stored. -/
  | create (userId : ℕ) (item : NewItem) (start slaHours : ℤ)
  | decide (me : AuthenticatedUser) (id : ℕ) (approve : Bool) (note : Option String) (now : ℤ)
      (monthOpen : Bool)
  | reopen (me : AuthenticatedUser) (id : ℕ) (start slaHours : ℤ) (monthOpen : Bool)
  /-- The end of a break, asking for the overrun to count when `asks` holds the reason. -/
  | finishBreak (id : ℕ) (overrunSec : ℤ) (asks : Option (Option String)) (start slaHours : ℤ)
      (monthOpen : Bool)
  | updateUser (me : AuthenticatedUser) (userId : ℕ) (input : PlacementInput)
  | removeDepartment (me : AuthenticatedUser) (id : ℕ) (now : ℤ)

/-- A new item: routed when it needs a decision, with its clock when it waits. -/
def NewItem.row (item : NewItem) (u : Account) (start slaHours : ℤ) (id : ℕ) : ApprovalItem :=
  let row : ApprovalItem := {
    id, type := item.type, userId := u.id, date := item.date, startedAt := item.startedAt
    endedAt := item.endedAt, status := .notRequired }
  if item.asks && u.route.1 = .pending then
    { row with status := .pending, approverRole := u.route.2.approverRole }.pendingClock start
      slaHours
  else row

/-- A new item has its id. -/
theorem NewItem.row_id (item : NewItem) (u : Account) (start slaHours : ℤ) (n : ℕ) :
    (item.row u start slaHours n).id = n := by
  unfold NewItem.row
  dsimp only
  split <;> rfl

namespace Office

variable (s : Office)

/-- The items with one row written by `f`, or left alone where it writes nothing. -/
def writeItem (id : ℕ) (f : ApprovalItem → Option ApprovalItem)
    (hf : ∀ r r', f r = some r' → r'.id = r.id) : Table ApprovalItem.id :=
  s.items.updateMany (fun r => r.id = id) (fun r => (f r).getD r) (by
    intro r
    cases h : f r with
    | none => rfl
    | some r' => exact hf r r' h)

/-- `decideRow`: the checks on the item as read, and the decision. -/
def decideRow (me : AuthenticatedUser) (approve : Bool) (note : Option String) (now : ℤ)
    (monthOpen : Bool) (r : ApprovalItem) : Option ApprovalItem :=
  match checkDecide s.dir me r with
  | .error _ => none
  | .ok _ => r.decide [.pending]
      { status := if approve then .approved else .rejected
        decidedById := some me.id
        decidedAt := some now
        note } now 0 monthOpen

/-- `reopen`: the checks on the item as read, and the way back to pending. -/
def reopenRow (me : AuthenticatedUser) (start slaHours : ℤ) (monthOpen : Bool) (r : ApprovalItem) :
    Option ApprovalItem :=
  match checkReopen s.dir me r with
  | .error _ => none
  | .ok _ => r.decide DECIDED .reopening start slaHours monthOpen

/-- The end of a break: the overrun is routed by the person's role and department now. -/
def finishRow (overrunSec : ℤ) (asks : Option (Option String)) (start slaHours : ℤ)
    (monthOpen : Bool) (r : ApprovalItem) : Option ApprovalItem :=
  if r.type ≠ .brk then none
  else
    let routing := (s.dir.findPerson r.userId).bind fun u =>
      if u.route.1 = .pending then some u.route.2 else none
    r.finishBreak overrunSec (asks.map fun reason => { reason, routing }) start slaHours monthOpen

/-- A decision keeps the item's id. -/
theorem decideRow_id {me : AuthenticatedUser} {approve : Bool} {note : Option String} {now : ℤ}
    {monthOpen : Bool} (r r' : ApprovalItem)
    (h : s.decideRow me approve note now monthOpen r = some r') : r'.id = r.id := by
  unfold decideRow at h
  split at h
  · cases h
  · exact (ApprovalItem.sameItem_of_decide h).1

/-- A reopening keeps the item's id. -/
theorem reopenRow_id {me : AuthenticatedUser} {start slaHours : ℤ} {monthOpen : Bool}
    (r r' : ApprovalItem) (h : s.reopenRow me start slaHours monthOpen r = some r') :
    r'.id = r.id := by
  unfold reopenRow at h
  split at h
  · cases h
  · exact (ApprovalItem.sameItem_of_decide h).1

/-- Asking for an overrun keeps the item's id. -/
theorem finishRow_id {overrunSec : ℤ} {asks : Option (Option String)} {start slaHours : ℤ}
    {monthOpen : Bool} (r r' : ApprovalItem)
    (h : s.finishRow overrunSec asks start slaHours monthOpen r = some r') : r'.id = r.id := by
  unfold finishRow at h
  split at h
  · cases h
  · exact (ApprovalItem.finishBreak_cases h).1.1

/-- A change of access, and the subscribers run for everybody it is published for. -/
def published (change : Directory.AccessChange) : Office where
  dir := change.dir
  items := change.published.foldl (fun items userId => onAccessChanged change.dir userId items)
    s.items

/-- One operation. -/
def step : OfficeAction → Office
  | .create userId item start slaHours =>
    match s.dir.findPerson userId with
    | none => s
    | some u =>
      { s with items := s.items.create (item.row u start slaHours) (item.row_id u start slaHours) }
  | .decide me id approve note now monthOpen =>
    { s with items := s.writeItem id (s.decideRow me approve note now monthOpen) s.decideRow_id }
  | .reopen me id start slaHours monthOpen =>
    { s with items := s.writeItem id (s.reopenRow me start slaHours monthOpen) s.reopenRow_id }
  | .finishBreak id overrunSec asks start slaHours monthOpen =>
    { s with
      items := s.writeItem id (s.finishRow overrunSec asks start slaHours monthOpen)
        s.finishRow_id }
  | .updateUser me userId input =>
    match s.dir.updateUser me userId input with
    | .error _ => s
    | .ok change => s.published change
  | .removeDepartment me id now =>
    match s.dir.removeDepartment me id now with
    | .error _ => s
    | .ok change => s.published change

/-! ## What an operation keeps -/

/-- Departments stay inside their organisation, and items wait for the right people. -/
structure Inv (s : Office) : Prop where
  placed : s.dir.Placed
  items : ∀ r ∈ s.items, ItemOk s.dir r

variable {s} {d : Directory} {r r' : ApprovalItem}

/-- After a write an item is one there was, or the one it wrote. -/
theorem mem_writeItem {id : ℕ} {f : ApprovalItem → Option ApprovalItem}
    {hf : ∀ r r', f r = some r' → r'.id = r.id} (h : r' ∈ s.writeItem id f hf) :
    r' ∈ s.items ∨ ∃ r ∈ s.items, r.id = id ∧ f r = some r' := by
  rcases Table.mem_updateMany.1 h with ⟨hr, -⟩ | ⟨r, hr, hid, rfl⟩
  · exact Or.inl hr
  · cases hw : f r with
    | none => exact Or.inl hr
    | some r' => exact Or.inr ⟨r, hr, by simpa using hid, hw⟩

/-- A row with the same status, approver role and person is as right. -/
theorem itemOk_of_same (h : ItemOk d r) (hstatus : r'.status = r.status)
    (hrole : r'.approverRole = r.approverRole) (huser : r'.userId = r.userId) : ItemOk d r' := by
  obtain ⟨hknown, hstaff⟩ := h
  unfold Known at hknown
  rw [← hstatus, ← hrole, ← huser] at hknown
  rw [← hstatus, ← hrole, ← huser] at hstaff
  exact ⟨hknown, hstaff⟩

/-- A new item waits for Managers only if it is of Staff, as the route of its kind says. -/
theorem itemOk_row {item : NewItem} {userId : ℕ} {u : Account} {start slaHours : ℤ} {n : ℕ}
    (hu : d.findPerson userId = some u) : ItemOk d (item.row u start slaHours n) := by
  obtain ⟨-, hid⟩ := findPerson_mem hu
  unfold NewItem.row
  dsimp only
  split
  · rename_i hasks
    simp only [Bool.and_eq_true, decide_eq_true_eq] at hasks
    refine itemOk_routed (u := u) ?_ hasks.2 rfl
    change d.findPerson u.id = some u
    rw [hid]
    exact hu
  · exact .of_not_pending (fun h => absurd rfl h) nofun

/-- A decided row waits for nobody, so nothing is asked of whom it waits for. -/
theorem itemOk_decideRow {me : AuthenticatedUser} {approve : Bool} {note : Option String} {now : ℤ}
    {monthOpen : Bool} (h : ItemOk s.dir r)
    (hw : s.decideRow me approve note now monthOpen r = some r') : ItemOk s.dir r' := by
  unfold decideRow at hw
  split at hw
  · cases hw
  · obtain ⟨-, hpending, -, rfl⟩ := ApprovalItem.decide_cases hw
    have hp : r.status = .pending := by simpa using hpending
    have hknown := h.known (by rw [hp]; decide)
    cases approve with
    | true => exact .of_not_pending (fun _ => hknown) nofun
    | false => exact .of_not_pending (fun _ => hknown) nofun

/-- A reopened row waits for whom it waited before it was decided, so a row of a former
Staff member must not. -/
theorem itemOk_reopenRow {me : AuthenticatedUser} {start slaHours : ℤ} {monthOpen : Bool}
    (h : ItemOk s.dir r)
    (hstaff : r.approverRole = some .manager → ∀ u ∈ s.dir.users, u.id = r.userId → u.role = .user)
    (hw : s.reopenRow me start slaHours monthOpen r = some r') : ItemOk s.dir r' := by
  unfold reopenRow at hw
  split at hw
  · cases hw
  · obtain ⟨-, hdecided, -, rfl⟩ := ApprovalItem.decide_cases hw
    have hknown : r.status ≠ .notRequired := by
      rintro hn
      simp [hn, DECIDED] at hdecided
    exact ⟨fun _ => h.known hknown, fun _ => hstaff⟩

/-- The end of a break leaves a row as it was, or routes it now by the person's present role. -/
theorem itemOk_finishRow {overrunSec : ℤ} {asks : Option (Option String)} {start slaHours : ℤ}
    {monthOpen : Bool} (h : ItemOk s.dir r)
    (hw : s.finishRow overrunSec asks start slaHours monthOpen r = some r') : ItemOk s.dir r' := by
  unfold finishRow at hw
  split at hw
  · cases hw
  · obtain ⟨⟨-, -, huser, -⟩, ⟨ask, routing, hask, hrouting, -, hpending, hrole, -⟩ |
      ⟨-, hstatus, hrole, -⟩⟩ := ApprovalItem.finishBreak_cases hw
    · obtain ⟨reason, -, rfl⟩ := Option.map_eq_some_iff.1 hask
      obtain ⟨u, hu, hto⟩ := Option.bind_eq_some_iff.1 hrouting
      split at hto
      · rename_i hroute
        cases hto
        exact itemOk_routed (by rw [huser]; exact hu) hroute hrole
      · cases hto
    · exact itemOk_of_same h hstatus hrole huser

/-! ## Changes of the directory -/

section Place

variable {org : ℕ} {target : Account} {htarget : target ∈ d.users} {placement : d.Placement org}

/-- A known item stays known when somebody is placed. -/
theorem known_place (h : Known d r) : Known (d.place target htarget placement) r := by
  intro hn
  obtain ⟨hroles, u, hu, hid, hrole⟩ := h hn
  refine ⟨hroles, _, Directory.mem_place_of_mem hu, ?_⟩
  split
  · exact ⟨hid, placement.role_ok⟩
  · exact ⟨hid, hrole⟩

/-- A placement of somebody else, or as Staff, or of a Manager, leaves a row right. -/
theorem itemOk_place (h : ItemOk d r)
    (hother : r.userId ≠ target.id ∨ placement.role = .user ∨ target.role = .manager) :
    ItemOk (d.place target htarget placement) r := by
  refine ⟨known_place h.known, fun hp hm u hu hid => ?_⟩
  obtain ⟨u', hu', rfl⟩ := Directory.mem_place hu
  split at hid
  · rename_i hsel
    rw [if_pos hsel]
    rcases hother with hne | huser | hmanager
    · exact absurd (hid.symm.trans hsel) hne
    · exact huser
    · have hstaff := h.staff hp hm u' hu' hid
      obtain rfl := Table.eq_of_key hu' htarget hsel
      rw [hmanager] at hstaff
      cases hstaff
  · rename_i hsel
    rw [if_neg hsel]
    exact h.staff hp hm u' hu' hid

/-- A placed person is found afterwards, with the role of the placement. -/
theorem findPerson_place (hlive : target.deletedAt = none) :
    ∃ u, (d.place target htarget placement).findPerson target.id = some u ∧
      u.role = placement.role := by
  cases hu : (d.place target htarget placement).findPerson target.id with
  | none =>
    have hnone := Table.find?_eq_none.1 hu _ (Directory.mem_place_of_mem htarget)
    simp [hlive] at hnone
  | some u =>
    refine ⟨u, rfl, ?_⟩
    obtain ⟨hmem, hid⟩ := findPerson_mem hu
    obtain ⟨u', -, rfl⟩ := Directory.mem_place hmem
    split at hid
    · rename_i hsel
      rw [if_pos hsel]
    · rename_i hsel
      exact absurd hid hsel

end Place

/-- Deleting a department changes nobody's role. -/
theorem itemOk_withoutDepartment {id : ℕ} {now : ℤ} (h : ItemOk d r) :
    ItemOk (d.withoutDepartment id now) r := by
  refine ⟨fun hn => ?_, fun hp hm u hu hid => ?_⟩
  · obtain ⟨hroles, u, hu, hid, hrole⟩ := h.known hn
    refine ⟨hroles, _, Directory.mem_withoutDepartment_of_mem hu, ?_⟩
    split <;> exact ⟨hid, hrole⟩
  · obtain ⟨u', hu', rfl⟩ := Directory.mem_withoutDepartment hu
    have hstaff := h.staff hp hm u' hu' (by rw [← hid]; split <;> rfl)
    split <;> exact hstaff

/-- Running the subscribers for some people leaves right rows right. -/
theorem itemsOk_foldl (ids : List ℕ) : ∀ {items : Table ApprovalItem.id},
    (∀ r ∈ items, ItemOk d r) →
      ∀ r ∈ ids.foldl (fun items userId => onAccessChanged d userId items) items, ItemOk d r := by
  induction ids with
  | nil => exact fun h => h
  | cons id ids ih => exact fun h => ih (itemsOk_onAccessChanged h id)

/-! ## Every run -/

/-- The operations that keep waiting items with somebody who can decide them: a reopen of an item
that does not wait for Managers or is of Staff, and a promotion of somebody whose waiting items one
re-routing takes. -/
def MayStep (s : Office) : OfficeAction → Prop
  | .reopen _ id _ _ _ => ∀ r ∈ s.items, r.id = id → r.approverRole = some .manager →
      ∀ u ∈ s.dir.users, u.id = r.userId → u.role = .user
  | .updateUser _ userId input => input.role = some .manager → WithinBatch s.items userId
  | _ => True

/-- An edit of role and departments keeps the invariant with the subscribers run after it: a new
Manager's waiting items are rerouted. -/
theorem inv_updateUser {me : AuthenticatedUser} {userId : ℕ} {input : PlacementInput}
    {change : Directory.AccessChange} (h : s.Inv)
    (hw : input.role = some .manager → WithinBatch s.items userId)
    (hchange : s.dir.updateUser me userId input = .ok change) : (s.published change).Inv := by
  obtain ⟨target, htarget, org, placement, rfl, hlive, horg, hrole, hnew, hdir, hpub, hpub'⟩ :=
    Directory.updateUser_cases hchange
  unfold published
  rw [hdir]
  refine ⟨h.placed.place htarget horg placement, ?_⟩
  by_cases hpromoted : placement.role = .manager ∧ target.role = .user
  · have hne : placement.role ≠ target.role := by
      rw [hpromoted.1, hpromoted.2]
      decide
    have hasked : input.role = some .manager := by
      cases hi : input.role with
      | none => rw [hi] at hnew; exact absurd hnew hne
      | some role => rw [hi] at hnew; rw [← hpromoted.1, hnew]; rfl
    obtain ⟨u, hu, hurole⟩ := findPerson_place hlive
    rw [hpub hne]
    refine itemsOk_onAccessChanged_of_stage (fun r hr => ⟨known_place (h.items r hr).known, ?_⟩) hu
      (by rw [hurole]; exact placement.role_ok) (hw hasked)
    intro hother
    exact itemOk_place (h.items r hr) (Or.inl (hother.resolve_right id))
  · refine itemsOk_foldl _ fun r hr => itemOk_place (h.items r hr) (Or.inr ?_)
    rcases placement.role_ok with hp | hp
    · exact Or.inl hp
    · exact Or.inr (hrole.resolve_left fun ht => hpromoted ⟨hp, ht⟩)

/-- Every step keeps the items known, and those that wait for Managers are of Staff. -/
theorem inv_step {a : OfficeAction} (h : s.Inv) (hmay : s.MayStep a) : (s.step a).Inv := by
  cases a with
  | create userId item start slaHours =>
    simp only [step]
    split
    · exact h
    · rename_i u hu
      refine ⟨h.placed, fun r hr => ?_⟩
      change r ∈ s.items.create (item.row u start slaHours) (item.row_id u start slaHours) at hr
      rcases Table.mem_create.1 hr with hr | rfl
      · exact h.items r hr
      · exact itemOk_row hu
  | decide me id approve note now monthOpen =>
    refine ⟨h.placed, fun r hr => ?_⟩
    change r ∈ s.writeItem id (s.decideRow me approve note now monthOpen) s.decideRow_id at hr
    rcases mem_writeItem hr with hr | ⟨r₀, hr₀, -, hw⟩
    · exact h.items r hr
    · exact itemOk_decideRow (h.items r₀ hr₀) hw
  | reopen me id start slaHours monthOpen =>
    refine ⟨h.placed, fun r hr => ?_⟩
    change r ∈ s.writeItem id (s.reopenRow me start slaHours monthOpen) s.reopenRow_id at hr
    rcases mem_writeItem hr with hr | ⟨r₀, hr₀, hid, hw⟩
    · exact h.items r hr
    · exact itemOk_reopenRow (h.items r₀ hr₀) (hmay r₀ hr₀ hid) hw
  | finishBreak id overrunSec asks start slaHours monthOpen =>
    refine ⟨h.placed, fun r hr => ?_⟩
    change r ∈ s.writeItem id (s.finishRow overrunSec asks start slaHours monthOpen)
      s.finishRow_id at hr
    rcases mem_writeItem hr with hr | ⟨r₀, hr₀, -, hw⟩
    · exact h.items r hr
    · exact itemOk_finishRow (h.items r₀ hr₀) hw
  | updateUser me userId input =>
    simp only [step]
    split
    · exact h
    · rename_i change hchange
      exact inv_updateUser h hmay hchange
  | removeDepartment me id now =>
    simp only [step]
    split
    · exact h
    · rename_i change hchange
      unfold published
      rw [Directory.removeDepartment_cases hchange]
      exact ⟨h.placed.withoutDepartment id,
        itemsOk_foldl _ fun r hr => itemOk_withoutDepartment (h.items r hr)⟩

/-! ## Who lists a waiting item -/

end Office

namespace Directory

variable {d : Directory} {u b : Account} {a : ApprovalItem} {c : ℕ}

/-- An active account of an organisation. -/
def ActiveIn (b : Account) (c : ℕ) : Prop :=
  b.companyId = some c ∧ b.status = .active ∧ b.deletedAt = none

/-- A caller as they sign in to their own organisation. -/
def signIn (d : Directory) (b : Account) : Option AuthenticatedUser :=
  d.loadById (fun _ => none) b.id .blank

/-- `b` lists the item of `u` as theirs to decide, and may decide it. -/
def ReviewedBy (d : Directory) (a : ApprovalItem) (u b : Account) : Prop :=
  ∃ me, d.signIn b = some me ∧ d.Listed (approverScopeOf me .mine none) a ∧
    BreakApprovalPolicy.canDecide me a.userId (some (d.toPerson u)) = true

/-- What signing in gives somebody of a live organisation: their row, their departments and
their organisation. -/
theorem signIn_of_active (hb : b ∈ d.users) (hactive : ActiveIn b c)
    (hrole : seesEveryOrg b.role = false) (hlive : d.InLiveOrg b c) :
    ∃ me, d.signIn b = some me ∧ me.id = b.id ∧ me.role = b.role ∧
      me.managedDepartmentIds = (if b.role = .manager then d.managedDepartments b.id else []) ∧
      orgOf me = some (.printed c) ∧ allOrgsInView me = false := by
  have hfind : (d.users.find? fun v => v.id = b.id && v.deletedAt.isNone) = some b :=
    Table.find?_eq_some_of_key hb (by simp [hactive.2.2]) fun v hv => by
      simp only [Bool.and_eq_true, decide_eq_true_eq] at hv
      exact hv.1
  have hdel : d.companyDeleted b = false := ((exists_inLiveOrg hb).1 ⟨c, hlive⟩).2
  unfold signIn loadById
  rw [hfind]
  refine ⟨_, rfl, rfl, rfl, rfl, ?_, ?_⟩
  · simp [orgOf, hrole, hdel, hactive.1]
  · simp [allOrgsInView, hrole]

/-- In one's own organisation, a caller may decide what they see there. -/
theorem canDecide_own {me : AuthenticatedUser} (ha : a.userId = u.id)
    (hrole : u.role = .user ∨ u.role = .manager) (horg : orgOf me = some (.printed c))
    (hall : allOrgsInView me = false) (hne : u.id ≠ me.id) (hc : u.companyId = some c)
    (hvis : Visible me u) :
    BreakApprovalPolicy.canDecide me a.userId (some (d.toPerson u)) = true :=
  (canDecide_oneOrg ha hrole hall horg).2 ⟨ha ▸ hne, ⟨hc, rfl⟩, hvis⟩

/-- An item in the Admin's pool is on the list of every active Admin of its organisation. -/
theorem reviewedBy_admin (hu : u ∈ d.users) (ha : a.userId = u.id)
    (hrole : u.role = .user ∨ u.role = .manager) (hlive : d.InLiveOrg u c) (hb : b ∈ d.users)
    (hactive : ActiveIn b c) (hadmin : b.role = .admin) (hpool : (d.ADMIN_POOL a).Holds) :
    d.ReviewedBy a u b := by
  have hnot : seesEveryOrg b.role = false := by rw [hadmin]; rfl
  obtain ⟨me, hme, hid, hmrole, -, horg, hall⟩ :=
    signIn_of_active hb hactive hnot ⟨hactive.1, hlive.2⟩
  have hwhole : seesWholeOrg me = true := by simp [seesWholeOrg, isAdminLike, hmrole, hadmin]
  have hsa : u.role ≠ .superAdmin := by rcases hrole with h | h <;> rw [h] <;> decide
  have hne : u.id ≠ me.id := by
    rw [hid]
    intro heq
    obtain rfl := Table.eq_of_key hu hb heq
    rcases hrole with h | h <;> rw [h] at hadmin <;> cases hadmin
  refine ⟨me, hme, ?_, canDecide_own ha hrole horg hall hne hlive.1 ⟨hsa, Or.inl hwhole⟩⟩
  have hscope : approverScopeOf me .mine none = some (.orgAdminMine (.printed c) me.id) := by
    simp [approverScopeOf, hall, horg, hmrole, hadmin, hwhole]
  rw [hscope]
  refine Truth.holds_and.2 ⟨Truth.holds_and.2 ⟨?_, ?_⟩, hpool⟩
  · exact (subjectWhere_holds hu ha).2 (Truth.holds_eq.2 hlive.1)
  · simpa [ha] using hne

/-- An item of Staff that waits for Managers is on the list of every active Manager of
their department. -/
theorem reviewedBy_manager {de : Department} (hu : u ∈ d.users) (ha : a.userId = u.id)
    (hrole : u.role = .user) (hlive : d.InLiveOrg u c) (hb : b ∈ d.users)
    (hactive : ActiveIn b c) (hmanager : b.role = .manager) (hde : de ∈ d.departments)
    (hdlive : de.deletedAt = none) (hin : u.departmentId = some de.id)
    (hlink : ⟨b.id, de.id⟩ ∈ d.managerDepartments) : d.ReviewedBy a u b := by
  have hnot : seesEveryOrg b.role = false := by rw [hmanager]; rfl
  obtain ⟨me, hme, hid, hmrole, hmanaged, horg, hall⟩ :=
    signIn_of_active hb hactive hnot ⟨hactive.1, hlive.2⟩
  have hmr : me.role = .manager := hmrole.trans hmanager
  have hmem : de.id ∈ managedDeptIds me := by
    rw [managedDeptIds, if_pos hmr, hmanaged, if_pos hmanager]
    refine List.mem_map.2 ⟨⟨b.id, de.id⟩, List.mem_filter.2 ⟨hlink, ?_⟩, rfl⟩
    simp only [Bool.and_eq_true, decide_eq_true_eq, List.any_eq_true, true_and,
      Option.isNone_iff_eq_none]
    exact ⟨de, hde, rfl, hdlive⟩
  have hne : u.id ≠ me.id := by
    rw [hid]
    intro heq
    obtain rfl := Table.eq_of_key hu hb heq
    rw [hrole] at hmanager
    cases hmanager
  have hsa : u.role ≠ .superAdmin := by rw [hrole]; decide
  have hvis : Visible me u := ⟨hsa, Or.inr ⟨hmr, hrole, de.id, hin, hmem⟩⟩
  refine ⟨me, hme, ?_, canDecide_own ha (Or.inl hrole) horg hall hne hlive.1 hvis⟩
  have hscope : approverScopeOf me .mine none =
      some (.depts (.printed c) (managedDeptIds me) me.id) := by
    simp [approverScopeOf, hall, horg, hmr]
  have hsome : (managedDeptIds me).isEmpty = false := by
    cases hl : managedDeptIds me with
    | nil => rw [hl] at hmem; cases hmem
    | cons p ps => rfl
  rw [hscope]
  simp only [Listed, scopeSql, hsome, Bool.false_eq_true, if_false]
  refine Truth.holds_and.2 ⟨(subjectWhere_holds hu ha).2 ?_, by simpa [ha] using hne⟩
  simp only [Truth.holds_and, Truth.holds_eq, Truth.holds_ofBool, decide_eq_true_eq,
    Truth.holds_isIn]
  exact ⟨⟨hlive.1, hrole⟩, de.id, hin, hmem⟩

end Directory

namespace Office

/-- Every waiting item of a person in a live organisation with an active Admin is on the list of an
active account of that organisation that may decide it. -/
def WaitingListed (s : Office) : Prop :=
  ∀ a ∈ s.items, a.status = .pending → ∀ u ∈ s.dir.users, u.id = a.userId →
    ∀ c, s.dir.InLiveOrg u c →
    (∃ admin ∈ s.dir.users, Directory.ActiveIn admin c ∧ admin.role = .admin) →
      ∃ b ∈ s.dir.users, Directory.ActiveIn b c ∧ s.dir.ReviewedBy a u b

/-- The invariant is enough: an item that waits for Managers has an active one, or falls to
the Admin's pool. -/
theorem Inv.waitingListed {s : Office} (h : s.Inv) : s.WaitingListed := by
  rintro a ha hp u hu hid c hlive ⟨admin, hadmin, hactive, harole⟩
  obtain ⟨hroles, v, hv, hvid, hrole⟩ := (h.items a ha).known (by rw [hp]; decide)
  obtain rfl := Table.eq_of_key hv hu (hvid.trans hid.symm)
  by_cases hpool : (s.dir.ADMIN_POOL a).Holds
  · exact ⟨admin, hadmin, hactive,
      Directory.reviewedBy_admin hv hid.symm hrole hlive hadmin hactive harole hpool⟩
  -- not in the pool: it waits for Managers, and its department has one
  simp only [Directory.ADMIN_POOL, Truth.holds_or, Truth.holds_and, Truth.holds_isIn,
    Truth.holds_isNotNull, Truth.holds_eq, Truth.holds_notExists, Truth.holds_ofBool,
    decide_eq_true_eq, not_or, not_and, Directory.hasManager, Truth.holds_exist,
    Truth.holds_isNull] at hpool
  obtain ⟨⟨hnotAdmin, -⟩, hmanagers⟩ := hpool
  have hmanager : a.approverRole = some .manager := by
    refine hroles.resolve_right fun hadm => hnotAdmin ⟨.admin, hadm, by simp⟩
  have hstaff := (h.items a ha).staff hp hmanager v hv hid
  have hexists := hmanagers hmanager
  push Not at hexists
  obtain ⟨su, hsu, hsuid, md, hmd, hdept, ⟨mu, hmu, hmuid, hdel, hactive', hmrole, -⟩,
    de, hde, hdeid, hdlive⟩ := hexists
  obtain rfl := Table.eq_of_key hsu hv (hsuid.trans hid.symm)
  have hmc : mu.companyId = some c := by
    rw [h.placed.manager md hmd mu hmu hmuid de hde hdeid, ← hlive.1]
    exact (h.placed.member su hsu md.departmentId hdept de hde hdeid).symm
  refine ⟨mu, hmu, ⟨hmc, hactive', hdel⟩, Directory.reviewedBy_manager hsu hid.symm hstaff hlive hmu
    ⟨hmc, hactive', hdel⟩ hmrole hde hdlive (by rw [hdept, hdeid]) ?_⟩
  rw [hmuid, hdeid]
  exact hmd

/-- Over every run whose operations all meet `MayStep`, started with no items in a directory whose
departments are inside their organisations, every waiting item is on the list of somebody who can
decide it. -/
theorem waiting_item_is_listed {d : Directory} (hplaced : d.Placed) {as : List OfficeAction}
    {t : Office} (hmay : Runs.Meets (fun s a => some (s.step a)) MayStep ⟨d, .empty⟩ as)
    (hrun : Runs.run (fun s a => some (s.step a)) ⟨d, .empty⟩ as = some t) : t.WaitingListed := by
  refine Inv.waitingListed (Runs.invariant_run Inv ?_ ⟨hplaced, ?_⟩ hmay hrun)
  · rintro s a s' hs hok hstep
    cases hstep
    exact inv_step hs hok
  · intro r hr
    cases hr

end Office

/-! ## A small office -/

/-- An organisation with an Admin, a department with a Manager, and a Staff member in it. -/
def officeOrg : Directory where
  companies := oneCompany
  departments := smallOrg.departments
  users := withTeam (Table.empty.create (fun id => { id, role := .admin, companyId := some 0 })
    fun _ => rfl)
  managerDepartments := [⟨1, 0⟩]
  user_company := by
    intro u hu c hc
    refine ⟨{ id := 0 }, by decide, ?_⟩
    simp only [withTeam, Table.mem_create, Table.not_mem_empty, false_or] at hu
    rcases hu with (rfl | rfl) | rfl <;> cases hc <;> rfl
  user_department := by
    intro u hu p hp
    refine ⟨{ id := 0, companyId := 0 }, by decide, ?_⟩
    simp only [withTeam, Table.mem_create, Table.not_mem_empty, false_or] at hu
    rcases hu with (rfl | rfl) | rfl <;> cases hp <;> rfl
  managed_manager := by decide
  managed_department := smallOrg.managed_department

/-- Everybody of the office is in its departments. -/
theorem officeOrg_placed : officeOrg.Placed := by
  have husers : ∀ u ∈ officeOrg.users.rows, u.companyId = some 0 := by decide
  have hdepartments : ∀ de ∈ officeOrg.departments.rows, de.companyId = 0 := by decide
  constructor
  · intro u hu p _ de hde _
    rw [husers u hu, hdepartments de hde]
  · intro m _ u hu _ de hde _
    rw [husers u hu, hdepartments de hde]

/-- Its Admin, signed in. -/
def officeAdmin : AuthenticatedUser where
  id := 0
  role := .admin
  companyId := some (.printed 0)
  status := .active
  orgId := some (.printed 0)

/-- A break of Staff 2, as it starts. -/
def officeBreak : OfficeAction :=
  .create 2 { type := .brk, date := ⟨0⟩, startedAt := 0, asks := true } 0 24

def approveBreak : OfficeAction := .decide officeAdmin 0 true none 1000 true

def promoteStaff : OfficeAction := .updateUser officeAdmin 2 { role := some .manager }

def reopenBreak : OfficeAction := .reopen officeAdmin 0 2000 24 true

/-- Reopened after its person became a Manager, a break waits for Managers, and no Manager and no
Admin has it on their list. -/
theorem reopened_item_is_not_listed :
    ∃ t, Runs.run (fun s a => some (Office.step s a)) ⟨officeOrg, .empty⟩
        [officeBreak, approveBreak, promoteStaff, reopenBreak] = some t ∧ ¬t.WaitingListed := by
  refine ⟨_, rfl, fun h => ?_⟩
  obtain ⟨b, hb, -, me, hme, hlisted, -⟩ := h
    { id := 0, type := .brk, userId := 2, date := ⟨0⟩, startedAt := 0, status := .pending
      approverRole := some .manager, dueAt := some 86402000 } (by decide +kernel) rfl
    { id := 2, role := .manager, companyId := some 0, departmentId := some 0 }
      (by decide +kernel) rfl
    0 ⟨rfl, { id := 0 }, by decide +kernel, rfl, rfl⟩
    ⟨{ id := 0, role := .admin, companyId := some 0 }, by decide +kernel, ⟨rfl, rfl, rfl⟩, rfl⟩
  revert hlisted
  revert me
  revert b
  decide +kernel

/-- Promoted while it waits, decided and reopened as a Manager's break, the same break stays on the
Admin's list. -/
theorem promoted_item_is_listed :
    ∃ t, Runs.run (fun s a => some (Office.step s a)) ⟨officeOrg, .empty⟩
        [officeBreak, promoteStaff, approveBreak, reopenBreak] = some t ∧ t.WaitingListed := by
  have hmay : Runs.Meets (fun s a => some (Office.step s a)) Office.MayStep ⟨officeOrg, .empty⟩
      [officeBreak, promoteStaff, approveBreak, reopenBreak] := by
    refine .cons trivial rfl (.cons (fun _ => ⟨by decide +kernel, by decide +kernel⟩) rfl
      (.cons trivial rfl (.cons ?_ rfl trivial)))
    intro r hr _ hm
    revert hm
    revert r
    decide +kernel
  exact ⟨_, rfl, Office.waiting_item_is_listed officeOrg_placed hmay rfl⟩

end RxVision
