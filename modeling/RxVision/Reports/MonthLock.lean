import RxVision.Approvals.Items
import RxVision.Lib.Gate

/-!
# What waits in a locked month (`month-lock.ts`, `prisma-report.store.ts`)

An organisation's month is locked for payroll when nothing of the organisation dated in it waits for
a decision. `lockMonth` takes the month's advisory lock exclusively, counts what is PENDING and
writes the lock row; `unlockMonth` takes it too. Every transaction that makes a record PENDING or
decides one reads its person's organisation, takes that organisation's month lock shared and asks
for the lock row (`isMonthLocked`); `assignPerson`, which puts a person into an organisation, does
not. An away stretch is counted under the organisation it was stored with, a break or meeting under
its person's.

`locked_month_waits_for_nothing` is what holds when nobody is put into an organisation whose month
is locked with something of theirs waiting in it, nor between the read of their organisation and the
commit it is for, and the away stretches that wait are stored under the organisation of their
person. Refusals that depend on other tables (an open working day, an open break) end a transaction
as `Gate.Action.rollback` does. `monthOf` is the month of a day key.
-/

namespace RxVision

open Gate

/-- A month key, `YYYY-MM`. -/
structure Month where
  month : ℤ
  deriving DecidableEq, Repr

/-- An organisation's month: the key of `month_locks` and of its advisory lock. -/
structure OrgMonth where
  companyId : ℕ
  month : Month
  deriving DecidableEq, Repr

/-- An approval item with the organisation an away stretch is stored under. -/
structure StoredItem extends ApprovalItem where
  /-- `away_events.company_id`. -/
  companyId : Option ℕ := none
  deriving DecidableEq, Repr

def StoredItem.key (r : StoredItem) : ℕ := r.id

/-- The accounts and the approval items. -/
structure Payroll where
  directory : Directory
  items : Table StoredItem.key

/-! ## People -/

namespace Directory

/-- `companyOfUser`. -/
def companyOfUser (d : Directory) (userId : ℕ) : Option ℕ :=
  (d.users.find? fun u => u.id = userId).bind Account.companyId

/-- The checks of `assignPerson`: a live organisation, a person in none, and one Admin at most. -/
def canAssign (d : Directory) (userId companyId : ℕ) : Bool :=
  (d.companies.rows.any fun c => c.id = companyId ∧ c.deletedAt = none) &&
    match d.users.find? fun u => u.id = userId ∧ u.deletedAt = none with
    | none => false
    | some before =>
      (before.companyId = none ∨ d.companyDeleted before) &&
        !(before.role = .admin && d.users.rows.any fun u =>
          u.companyId = some companyId ∧ u.deletedAt = none ∧ u.role = .admin ∧ u.id ≠ userId)

/-- What `assignPerson` writes. -/
def assignPerson (d : Directory) (userId companyId : ℕ) : Directory :=
  if h : ∃ c ∈ d.companies.rows, c.id = companyId then
    { d with
      users := d.users.updateMany (fun u => u.id = userId)
        (fun u => { u with companyId := some companyId, departmentId := none }) fun _ => rfl
      managerDepartments := d.managerDepartments.filter fun m => m.managerId ≠ userId
      user_company := fun u hu c hc => by
        rcases Table.mem_updateMany.1 hu with ⟨hu, -⟩ | ⟨u', hu', -, rfl⟩
        · exact d.user_company u hu c hc
        · cases hc
          exact h
      user_department := fun u hu p hp => by
        rcases Table.mem_updateMany.1 hu with ⟨hu, -⟩ | ⟨u', hu', -, rfl⟩
        · exact d.user_department u hu p hp
        · cases hp
      managed_manager := fun m hm => by
        obtain ⟨u, hu, hid⟩ := d.managed_manager m (List.mem_filter.1 hm).1
        have hmem : (if u.id = userId then
            { u with companyId := some companyId, departmentId := none } else u) ∈
            d.users.updateMany (fun u => u.id = userId)
              (fun u => { u with companyId := some companyId, departmentId := none })
              fun _ => rfl := by
          simpa using Table.mem_updateMany_of_mem (p := fun u => decide (u.id = userId)) hu
        refine ⟨_, hmem, ?_⟩
        split <;> exact hid
      managed_department := fun m hm => d.managed_department m (List.mem_filter.1 hm).1 }
  else d

end Directory

/-! ## The transactions -/

/-- A transaction on approval items, or one that puts a person into an organisation. -/
inductive PayrollTx
  /-- Stores a new item; `replaces` is an auto-skip that gives way to it. -/
  | create (row : StoredItem) (replaces : Option ℕ)
  | finishBreak (id : ℕ) (overrunSec : ℤ) (ask : Option OverrunAsk) (now slaHours : ℤ)
  /-- The decision of an item, and the reopening of one. -/
  | decide (type : ApprovalType) (id : ℕ) (expected : List AwayStatus) (decision : Decision)
      (now slaHours : ℤ)
  | assignPerson (userId companyId : ℕ)
  deriving DecidableEq

namespace PayrollTx

/-- `startScheduled`. -/
def startScheduled (record : StoredItem) (replaces : Option ℕ) : PayrollTx :=
  .create { record with type := .brk, companyId := none } replaces

/-- `createForSession`. -/
def createForSession (record : StoredItem) : PayrollTx :=
  .create { record with type := .brk, companyId := none } none

/-- `createSkip`. -/
def createSkip (record : StoredItem) : PayrollTx :=
  .create { record with type := .brk, companyId := none } none

/-- One record of `createAutoSkips`; in a locked month it is left out. -/
def createAutoSkip (record : StoredItem) : PayrollTx :=
  .create { record with type := .brk, companyId := none } none

/-- `startLive`. -/
def startLive (record : StoredItem) : PayrollTx :=
  .create { record with type := .meeting, endedAt := none, companyId := none } none

/-- `createPast`. -/
def createPast (record : StoredItem) (endedAt : ℤ) : PayrollTx :=
  .create { record with type := .meeting, endedAt := some endedAt, companyId := none } none

/-- `AwayRepository.create`. -/
def createAway (input : StoredItem) : PayrollTx := .create { input with type := .away } none

end PayrollTx

namespace Payroll

variable (monthOf : DateKey → Month)

/-- The month lock that `isMonthLocked` asks for: of the person's organisation, none without one. -/
def monthKey (c : Payroll) (date : DateKey) (userId : ℕ) : Option OrgMonth :=
  (c.directory.companyOfUser userId).map fun companyId => ⟨companyId, monthOf date⟩

/-- The row a transaction locks. -/
def lockRow (c : Payroll) (type : ApprovalType) (id : ℕ) : Option StoredItem :=
  c.items.find? fun r => r.key = id ∧ r.type = type

/-- The item with the columns a write of its row leaves. -/
def updated (r : StoredItem) (row : Option ApprovalItem) : StoredItem :=
  { r with toApprovalItem := row.getD r.toApprovalItem }

/-- An update keeps the item's key. -/
theorem key_updated {f : ApprovalItem → Option ApprovalItem}
    (hf : ∀ r r', f r = some r' → r'.id = r.id) (r : StoredItem) :
    (updated r (f r.toApprovalItem)).key = r.key := by
  cases h : f r.toApprovalItem with
  | none => rfl
  | some r' => exact hf r.toApprovalItem r' h

/-- Changes the row a transaction locked. -/
def updateRow (c : Payroll) (type : ApprovalType) (id : ℕ) (f : ApprovalItem → Option ApprovalItem)
    (hf : ∀ r r', f r = some r' → r'.id = r.id) : Payroll :=
  { c with
    items := c.items.updateMany (fun r => r.key = id ∧ r.type = type)
      (fun r => updated r (f r.toApprovalItem)) (key_updated hf) }

/-- What a transaction reads: the month lock it has to take, if any. -/
def read (t : PayrollTx) (c : Payroll) : Option (Option OrgMonth) :=
  match t with
  | .create row _ =>
    some (if row.status = .pending then c.monthKey monthOf row.date row.userId else none)
  | .finishBreak id _ ask _ _ => (c.lockRow .brk id).map fun r =>
    if (ask.bind OverrunAsk.routing).isSome ∨ r.status = .pending then
      c.monthKey monthOf r.date r.userId
    else none
  | .decide type id _ _ _ _ => (c.lockRow type id).map fun r => c.monthKey monthOf r.date r.userId
  | .assignPerson userId companyId =>
    if c.directory.canAssign userId companyId then some none else none

/-- What a transaction writes; the month is open. -/
def write (t : PayrollTx) (c : Payroll) : Payroll :=
  match t with
  | .create row replaces =>
    { c with
      items := (c.items.deleteMany fun r => replaces = some r.key).create
        (fun id => { row with id }) fun _ => rfl }
  | .finishBreak id overrunSec ask now slaHours =>
    c.updateRow .brk id (fun r => r.finishBreak overrunSec ask now slaHours true) fun _ _ h =>
      (ApprovalItem.finishBreak_cases h).1.1
  | .decide type id expected decision now slaHours =>
    c.updateRow type id (fun r => r.decide expected decision now slaHours true) fun _ _ h =>
      (ApprovalItem.sameItem_of_decide h).1
  | .assignPerson userId companyId =>
    { c with directory := c.directory.assignPerson userId companyId }

/-- The items `lockMonth` counts: an away stretch by the organisation it is stored under, a break or
meeting by its person's. -/
def counts (c : Payroll) (k : OrgMonth) (r : StoredItem) : Bool :=
  r.status = .pending ∧ monthOf r.date = k.month ∧
    (if r.type = .away then r.companyId else c.directory.companyOfUser r.userId) = some k.companyId

/-- The transactions on the items, and what `lockMonth` asks for. What it reads for the
snapshot is not of the items. -/
def spec : Spec Payroll OrgMonth Unit Unit Unit PayrollTx where
  looks _ _ _ := false
  read t c := (read monthOf t c).map fun k => (t, k)
  write := write
  ready k c := (c.items.rows.filter (c.counts monthOf k)).length = 0
  blank _ _ := ()
  add _ _ _ _ := ()
  kept _ _ := some ()

/-- Something of the organisation waits in the month: a PENDING item dated in it of a person who
belongs to it. -/
def Waits (c : Payroll) (k : OrgMonth) : Prop :=
  ∃ r ∈ c.items, r.status = .pending ∧ monthOf r.date = k.month ∧
    c.directory.companyOfUser r.userId = some k.companyId

/-! ## The condition -/

/-- The person of an item dated `date` still belongs to the organisation whose month the transaction
found open (`k`), or the month is open for the one they belong to now. -/
def Belongs (c : Payroll) (date : DateKey) (userId : ℕ) (k : Option OrgMonth)
    (held : OrgMonth → Prop) :
    Prop :=
  ∀ companyId, c.directory.companyOfUser userId = some companyId →
    k.map OrgMonth.companyId = some companyId ∨ ¬ held ⟨companyId, monthOf date⟩

/-- A transaction that makes an item PENDING or decides one commits for a person who belongs to the
organisation it asked for; `assignPerson` puts nobody into an organisation whose month is locked, or
being locked, with something of theirs waiting in it. -/
def Sound (t : PayrollTx) (k : Option OrgMonth) (c : Payroll) (held : OrgMonth → Prop) : Prop :=
  match t with
  | .create row _ => row.status = .pending → c.Belongs monthOf row.date row.userId k held
  | .finishBreak id _ ask _ _ => (ask.bind OverrunAsk.routing).isSome →
    ∀ r ∈ c.items, r.key = id → c.Belongs monthOf r.date r.userId k held
  | .decide _ id _ _ _ _ => ∀ r ∈ c.items, r.key = id → c.Belongs monthOf r.date r.userId k held
  | .assignPerson userId companyId => ∀ r ∈ c.items, r.userId = userId → r.status = .pending →
    ¬ held ⟨companyId, monthOf r.date⟩

/-- The away stretches of the organisation's people that wait in the month are stored under it. -/
def CountsAway (k : OrgMonth) (c : Payroll) : Prop :=
  ∀ r ∈ c.items, r.type = .away → r.status = .pending → monthOf r.date = k.month →
    c.directory.companyOfUser r.userId = some k.companyId → r.companyId = some k.companyId

/-- The month of the gate a transaction read is its item's. -/
def Fits (t : PayrollTx) (k : Option OrgMonth) (c : Payroll) : Prop :=
  match t with
  | .create row _ => ∀ key, k = some key → key.month = monthOf row.date
  | .finishBreak id _ _ _ _ | .decide _ id _ _ _ _ =>
    id < c.items.next ∧ ∀ r ∈ c.items, r.key = id → ∀ key, k = some key → key.month = monthOf r.date
  | .assignPerson _ _ => True

variable {monthOf} {c : Payroll} {t : PayrollTx} {r : StoredItem}

/-! ## What a transaction leaves of the items -/

/-- A row as `updateRow` leaves it. -/
theorem mem_updateRow {type : ApprovalType} {id : ℕ} {f : ApprovalItem → Option ApprovalItem}
    {hf : ∀ r r', f r = some r' → r'.id = r.id} (h : r ∈ (c.updateRow type id f hf).items) :
    r ∈ c.items ∨ ∃ r₀ ∈ c.items, r₀.key = id ∧ r = updated r₀ (f r₀.toApprovalItem) := by
  change r ∈ c.items.updateMany (fun r => r.key = id ∧ r.type = type)
    (fun r => updated r (f r.toApprovalItem)) (key_updated hf) at h
  rcases Table.mem_updateMany.1 h with ⟨hr, -⟩ | ⟨r₀, hr₀, hsel, rfl⟩
  · exact Or.inl hr
  · exact Or.inr ⟨r₀, hr₀, (of_decide_eq_true hsel).1, rfl⟩

/-- An item after a write was there, is the one that was created, or is one that was
updated: then it kept its person and date, and it waits only when it waited or the
transaction asked for the month. -/
inductive Wrote (c : Payroll) (t : PayrollTx) (r : StoredItem) : Prop
  | same : r ∈ c.items → Wrote c t r
  | created {row : StoredItem} {replaces : Option ℕ} : t = .create row replaces →
      r = { row with id := c.items.next } → Wrote c t r
  | updated {r₀ : StoredItem} : r₀ ∈ c.items → r.key = r₀.key → r.userId = r₀.userId →
      r.date = r₀.date → (r.status = .pending → r₀.status ≠ .pending →
        (∃ overrunSec ask now slaHours, t = .finishBreak r₀.key overrunSec ask now slaHours ∧
          (ask.bind OverrunAsk.routing).isSome) ∨
        ∃ type expected decision now slaHours,
          t = .decide type r₀.key expected decision now slaHours) → Wrote c t r

/-- Every item after a write is one that was there, one changed as the transaction
says, or its new one. -/
theorem wrote (h : r ∈ (write t c).items) : Wrote c t r := by
  cases t with
  | create row replaces =>
    rcases Table.mem_create.1 h with h | rfl
    · exact .same (Table.mem_deleteMany.1 h).1
    · exact .created rfl rfl
  | finishBreak id overrunSec ask now slaHours =>
    rcases mem_updateRow h with h | ⟨r₀, hr₀, rfl, rfl⟩
    · exact .same h
    · cases hf : r₀.toApprovalItem.finishBreak overrunSec ask now slaHours true with
      | none =>
        rw [Payroll.updated, Option.getD_none]
        exact .same hr₀
      | some row =>
        obtain ⟨⟨hid, -, huser, hdate, -⟩, hcase⟩ := ApprovalItem.finishBreak_cases hf
        refine .updated hr₀ hid huser hdate fun hp hnp => Or.inl ⟨_, _, _, _, rfl, ?_⟩
        rcases hcase with ⟨a, x, rfl, hx, -⟩ | ⟨-, hst, -⟩
        · simp [hx]
        · exact absurd (hst.symm.trans hp) hnp
  | decide type id expected decision now slaHours =>
    rcases mem_updateRow h with h | ⟨r₀, hr₀, rfl, rfl⟩
    · exact .same h
    · cases hf : r₀.toApprovalItem.decide expected decision now slaHours true with
      | none =>
        rw [Payroll.updated, Option.getD_none]
        exact .same hr₀
      | some row =>
        obtain ⟨hid, -, huser, hdate, -⟩ := ApprovalItem.sameItem_of_decide hf
        exact .updated hr₀ hid huser hdate fun _ _ => Or.inr ⟨_, _, _, _, _, rfl⟩
  | assignPerson userId companyId => exact .same h

/-- Ids are never used again. -/
theorem next_le_write : c.items.next ≤ (write t c).items.next := by
  cases t with
  | create => exact Nat.le_succ _
  | finishBreak | decide | assignPerson => exact le_rfl

/-- Only `assignPerson` changes who belongs where, and only for its own person. -/
theorem companyOfUser_write {userId companyId : ℕ}
    (h : (write t c).directory.companyOfUser userId = some companyId) :
    c.directory.companyOfUser userId = some companyId ∨ t = .assignPerson userId companyId := by
  cases t with
  | create | finishBreak | decide => exact Or.inl h
  | assignPerson userId' companyId' =>
    change (c.directory.assignPerson userId' companyId').companyOfUser userId = some companyId at h
    unfold Directory.assignPerson at h
    split at h
    · have hfind : ((c.directory.users.updateMany (fun u => u.id = userId')
            (fun u => { u with companyId := some companyId', departmentId := none })
            fun _ => rfl).find? fun u => u.id = userId) =
          (c.directory.users.find? fun u => u.id = userId).map fun u =>
            if u.id = userId' then { u with companyId := some companyId', departmentId := none }
            else u := by
        simpa using Table.find?_updateMany (p := fun u : Account => decide (u.id = userId))
          (u := fun u => decide (u.id = userId'))
          (f := fun u => { u with companyId := some companyId', departmentId := none })
          fun _ => rfl
      rw [Directory.companyOfUser] at h
      obtain ⟨u, hu, hc⟩ := Option.bind_eq_some_iff.1 (hfind ▸ h)
      obtain ⟨u₀, hu₀, rfl⟩ := Option.map_eq_some_iff.1 hu
      have hid : u₀.id = userId := by simpa using Table.find?_spec hu₀
      split at hc
      case isTrue hsel =>
        cases hc
        rw [← hid, hsel]
        exact Or.inr rfl
      case isFalse =>
        refine Or.inl ?_
        rw [Directory.companyOfUser, hu₀]
        exact hc
    · exact Or.inl h

/-! ## A locked month -/

variable {k : Option OrgMonth} {key : OrgMonth} {held : OrgMonth → Prop}

/-- Nothing of the organisation waits in a month that is counted, when the away stretches that wait
are stored under it. -/
theorem not_waits_of_ready (ha : CountsAway monthOf key c)
    (h : (spec monthOf).ready key c = true) : ¬ c.Waits monthOf key := by
  rintro ⟨r, hr, hp, hm, hc⟩
  have hnil : c.items.rows.filter (c.counts monthOf key) = [] :=
    List.length_eq_zero_iff.1 (of_decide_eq_true h)
  refine absurd ?_ (List.filter_eq_nil_iff.1 hnil r hr)
  by_cases haway : r.type = .away
  · simp [counts, hp, hm, haway, ha r hr haway hp hm hc]
  · simp [counts, hp, hm, haway, hc]

/-- The month of the gate that a transaction reads is that of its item's date. -/
theorem fits_of_read (h : read monthOf t c = some k) : Fits monthOf t k c := by
  have hrow : ∀ {type id r}, c.lockRow type id = some r → id < c.items.next ∧
      ∀ r' ∈ c.items, r'.key = id → r' = r := by
    intro type id r hr
    have hid : r.key = id ∧ r.type = type := by simpa using Table.find?_spec hr
    have hmem := Table.mem_of_find? hr
    exact ⟨hid.1 ▸ c.items.fresh r hmem,
      fun r' hr' hid' => Table.eq_of_key hr' hmem (hid'.trans hid.1.symm)⟩
  have hmonth : ∀ {date userId key}, c.monthKey monthOf date userId = some key →
      key.month = monthOf date := by
    intro date userId key hkey
    obtain ⟨companyId, -, rfl⟩ := Option.map_eq_some_iff.1 hkey
    rfl
  cases t with
  | create row replaces =>
    obtain rfl := Option.some.inj h
    intro key hkey
    split at hkey
    · exact hmonth hkey
    · cases hkey
  | finishBreak id overrunSec ask now slaHours =>
    obtain ⟨r, hr, rfl⟩ := Option.map_eq_some_iff.1 h
    obtain ⟨hlt, hone⟩ := hrow hr
    refine ⟨hlt, fun r' hr' hid key hkey => ?_⟩
    rw [hone r' hr' hid]
    split at hkey
    · exact hmonth hkey
    · cases hkey
  | decide type id expected decision now slaHours =>
    obtain ⟨r, hr, rfl⟩ := Option.map_eq_some_iff.1 h
    obtain ⟨hlt, hone⟩ := hrow hr
    refine ⟨hlt, fun r' hr' hid key hkey => ?_⟩
    rw [hone r' hr' hid]
    exact hmonth hkey
  | assignPerson userId companyId => trivial

/-- A transaction takes the month it asked for to be open. -/
theorem fits_of_read_eq {t' : PayrollTx} (h : (spec monthOf).read t c = some (t', k)) :
    Fits monthOf t' k c := by
  obtain ⟨k', hk, heq⟩ := Option.map_eq_some_iff.1 h
  cases heq
  exact fits_of_read hk

/-- Items keep their dates, so the gate that a transaction has read stays that of its item. -/
theorem fits_write {t' : PayrollTx} (h : Fits monthOf t k c) : Fits monthOf t k (write t' c) := by
  have hrow : ∀ id, (id < c.items.next ∧ ∀ r ∈ c.items, r.key = id →
        ∀ key, k = some key → key.month = monthOf r.date) →
      id < (write t' c).items.next ∧ ∀ r ∈ (write t' c).items, r.key = id →
        ∀ key, k = some key → key.month = monthOf r.date := by
    rintro id ⟨hlt, hdate⟩
    refine ⟨hlt.trans_le next_le_write, fun r hr hid key hkey => ?_⟩
    rcases wrote hr with hr | ⟨-, rfl⟩ | ⟨hr₀, hid₀, -, hd, -⟩
    · exact hdate r hr hid key hkey
    · exact absurd hid (Nat.ne_of_gt hlt)
    · rw [hd]
      exact hdate _ hr₀ (hid₀.symm.trans hid) key hkey
  cases t with
  | create row replaces => exact h
  | finishBreak id => exact hrow id h
  | decide type id => exact hrow id h
  | assignPerson => trivial

/-- The month of an item is open for its person when they belong to the organisation whose month was
found open. -/
theorem Belongs.not_held {date : DateKey} {userId : ℕ} (h : c.Belongs monthOf date userId k held)
    (hmonth : ∀ key, k = some key → key.month = monthOf date)
    (hfree : ∀ key, k = some key → ¬ held key)
    (hm : monthOf date = key.month)
    (hc : c.directory.companyOfUser userId = some key.companyId) : ¬ held key := by
  cases key with
  | mk companyId month =>
    subst hm
    rcases h companyId hc with hk | hopen
    · obtain ⟨key, rfl, hid⟩ := Option.map_eq_some_iff.1 hk
      have hkey : key = ⟨companyId, monthOf date⟩ := by
        rw [← hid, ← hmonth key rfl]
      exact hkey ▸ hfree key rfl
    · exact hopen

/-- A commit leaves nothing waiting in a month that is locked or about to be, when its person still
belongs where its gate was found open. -/
theorem not_waits_write (hfit : Fits monthOf t k c) (hok : Sound monthOf t k c held)
    (hfree : ∀ key, k = some key → ¬ held key) (hheld : held key) (hnone : ¬ c.Waits monthOf key) :
    ¬ (write t c).Waits monthOf key := by
  rintro ⟨r, hr, hp, hm, hc⟩
  -- an item that waited before waits for somebody who has just been put into the organisation
  have hold : ∀ r₀ ∈ c.items, r₀.status = .pending → r₀.userId = r.userId → r₀.date = r.date →
      False := by
    intro r₀ hr₀ hp₀ huser hdate
    rw [← hdate] at hm
    rcases companyOfUser_write hc with hc | rfl
    · exact hnone ⟨r₀, hr₀, hp₀, hm, huser ▸ hc⟩
    · exact hok r₀ hr₀ huser hp₀ (hm ▸ hheld)
  rcases wrote hr with hr | ⟨rfl, rfl⟩ | ⟨hr₀, hid, huser, hdate, hasked⟩
  · exact hold r hr hp rfl rfl
  · exact (hok hp).not_held hfit hfree hm hc hheld
  · rename_i r₀
    by_cases hp₀ : r₀.status = .pending
    · exact hold r₀ hr₀ hp₀ huser.symm hdate.symm
    · rw [hdate] at hm
      rw [huser] at hc
      rcases hasked hp hp₀ with ⟨_, _, _, _, rfl, hask⟩ | ⟨_, _, _, _, _, rfl⟩
      · exact (hok hask r₀ hr₀ rfl).not_held (hfit.2 r₀ hr₀ rfl) hfree hm hc hheld
      · exact (hok r₀ hr₀ rfl).not_held (hfit.2 r₀ hr₀ rfl) hfree hm hc hheld

/-- The condition on the steps of a run. -/
def Steady (monthOf : DateKey → Month) :
    State Payroll OrgMonth Unit Unit PayrollTx → Action OrgMonth Unit PayrollTx → Prop :=
  Ok (Sound monthOf) (CountsAway monthOf) fun _ _ _ => True

/-! ## A condition that does not look at the locks -/

/-- A commit happens while the person belongs to the organisation whose month was found open, and
nobody is put into an organisation with something of theirs waiting. -/
def Prompt (t : PayrollTx) (k : Option OrgMonth) (c : Payroll) : Prop :=
  match t with
  | .create row _ => row.status = .pending →
    k.map OrgMonth.companyId = c.directory.companyOfUser row.userId
  | .finishBreak id _ _ _ _ | .decide _ id _ _ _ _ => ∀ r ∈ c.items.rows, r.key = id →
    k.map OrgMonth.companyId = c.directory.companyOfUser r.userId
  | .assignPerson userId _ => ∀ r ∈ c.items.rows, r.userId = userId → r.status ≠ .pending

instance : Decidable (Prompt t k c) := by
  cases t <;> dsimp only [Prompt] <;> infer_instance

/-- Commits are prompt, and the away stretches that wait are stored under their person's
organisation when a month is counted. -/
def PromptStep (s : State Payroll OrgMonth Unit Unit PayrollTx) :
    Action OrgMonth Unit PayrollTx → Prop
  | .commit i =>
    match s.running i with
    | some (.placed t none) => Prompt t none s.store
    | some (.guarded t key) => Prompt t (some key) s.store
    | _ => True
  | .count _ => ∀ r ∈ s.store.items.rows, r.type = .away → r.status = .pending →
    s.store.directory.companyOfUser r.userId = r.companyId
  | _ => True

instance {s : State Payroll OrgMonth Unit Unit PayrollTx} {a : Action OrgMonth Unit PayrollTx} :
    Decidable (PromptStep s a) := by
  cases a <;> dsimp only [PromptStep] <;> first | infer_instance | (split <;> infer_instance)

/-- A prompt write is sound. -/
theorem Prompt.sound (h : Prompt t k c) : Sound monthOf t k c held := by
  have hbelongs : ∀ {date userId}, k.map OrgMonth.companyId = c.directory.companyOfUser userId →
      c.Belongs monthOf date userId k held :=
    fun hk companyId hc => Or.inl (hk.trans hc)
  cases t with
  | create row replaces => exact fun hp => hbelongs (h hp)
  | finishBreak id => exact fun _ r hr hid => hbelongs (h r hr hid)
  | decide type id => exact fun r hr hid => hbelongs (h r hr hid)
  | assignPerson userId companyId => exact fun r hr huser hp => absurd hp (h r hr huser)

/-- Prompt steps meet the condition, whatever is locked: between the read of the gate and the
commit nobody moves. -/
theorem PromptStep.steady {s : State Payroll OrgMonth Unit Unit PayrollTx}
    {a : Action OrgMonth Unit PayrollTx} (h : PromptStep s a) : Steady monthOf s a := by
  cases a with
  | commit i =>
    intro t k hw
    cases hw with
    | free hi =>
      rw [PromptStep, hi] at h
      exact Prompt.sound h
    | guarded hi =>
      rw [PromptStep, hi] at h
      exact Prompt.sound h
  | count i =>
    intro key _ r hr haway hp _ hc
    exact (h r hr haway hp).symm.trans hc
  | keep i p => exact fun _ _ _ => trivial
  | start | read | check | close | reopen | rollback => trivial

/-! ## Two organisations, the first of them deleted -/

/-- The `monthOf` of the runs below. -/
def thirtyDays (date : DateKey) : Month := ⟨date.day / 30⟩

/-- A User of the deleted organisation and one of the live one. -/
def offices : Directory where
  companies := ⟨[{ id := 0, deletedAt := some 1000 }, { id := 1 }], 2, by decide, by decide⟩
  departments := .empty
  users := ⟨[{ id := 0, role := .user, companyId := some 0 },
    { id := 1, role := .user, companyId := some 1 }], 2, by decide, by decide⟩
  managerDepartments := []
  user_company := by decide
  user_department := by decide
  managed_manager := by decide
  managed_department := by decide

/-- A break of the day `day` that waits. -/
def waitingBreak (userId : ℕ) (day : ℤ) : StoredItem where
  id := 0
  type := .brk
  userId := userId
  date := ⟨day⟩
  startedAt := 0
  status := .pending

/-- No items yet. -/
def ofOffices : Payroll := ⟨offices, .empty⟩

/-- The break of the person in the live organisation is decided, then the month is locked. -/
def decidedThenLocked : List (Action OrgMonth Unit PayrollTx) :=
  [.start 0 (.startScheduled (waitingBreak 1 40) none), .read 0, .check 0, .commit 0,
    .start 0 (.decide .brk 0 [.pending] ⟨.approved, some 7, some 9, none⟩ 9 24), .read 0, .check 0,
    .commit 0,
    .close 0 ⟨1, ⟨1⟩⟩, .count 0, .commit 0]

/-- The person of the deleted organisation has a break that waits when the other organisation's
month is locked, and is put into that one afterwards. -/
def assignedAfterLock : List (Action OrgMonth Unit PayrollTx) :=
  [.start 0 (.startScheduled (waitingBreak 0 40) none), .read 0, .check 0, .commit 0,
    .close 0 ⟨1, ⟨1⟩⟩, .count 0, .commit 0,
    .start 0 (.assignPerson 0 1), .read 0, .commit 0]

/-! ## The theorem -/

/-- In every interleaving whose steps meet the condition (`Steady`) nothing waits in a locked
month, and no decision of an item dated in one commits. The rule is that of the gate
(`Gate.Inv.of_run`): whoever makes an item wait or decides one asks for the month of its date, and
finds it open until the commit. -/
theorem locked_month_waits_for_nothing (monthOf : DateKey → Month) (c : Payroll)
    (as : List (Action OrgMonth Unit PayrollTx)) (s : State Payroll OrgMonth Unit Unit PayrollTx)
    (hm : Runs.Meets (step (spec monthOf)) (Steady monthOf) (State.idle c) as)
    (hr : Runs.run (step (spec monthOf)) (State.idle c) as = some s) :
    (∀ key, (s.gates key).isSome → ¬ s.store.Waits monthOf key) ∧
      ∀ i type id expected decision now slaHours k,
        s.Writes i (.decide type id expected decision now slaHours) k →
        Steady monthOf s (.commit i) → ∀ r ∈ s.store.items, r.key = id →
        ∀ companyId, s.store.directory.companyOfUser r.userId = some companyId →
          s.gates ⟨companyId, monthOf r.date⟩ = none := by
  have hwrite : ∀ t k c held, Fits monthOf t k c → Sound monthOf t k c held →
      (∀ key, k = some key → ¬ held key) → ∀ key, held key →
      (Unit → ¬ c.Waits monthOf key → ¬ (write t c).Waits monthOf key) ∧
        (Unit → ¬ c.Waits monthOf key → ¬ (write t c).Waits monthOf key) := by
    intro t k c held hfit hok hfree key hheld
    exact ⟨fun _ => not_waits_write hfit hok hfree hheld,
      fun _ => not_waits_write hfit hok hfree hheld⟩
  have hinv : Inv (fun key _ c => ¬ c.Waits monthOf key) (fun key _ c => ¬ c.Waits monthOf key)
      (Fits monthOf) s :=
    Inv.of_run (fun _ _ => not_waits_of_ready) (fun _ _ _ _ _ h => h) (fun _ _ _ _ h _ => h)
      (fun _ _ _ _ => fits_of_read_eq) (fun _ _ _ _ => fits_write) hwrite (Inv.idle c) hm hr
  refine ⟨fun key hkey => ?_, fun i type id expected decision now slaHours k hw hok r hrow hid
    companyId hc => ?_⟩
  · obtain ⟨g, hg⟩ := Option.isSome_iff_exists.1 hkey
    exact hinv.closed hg
  · obtain ⟨hfit, hfree⟩ := hinv.at_commit hw
    have hopen : ¬ s.Held ⟨companyId, monthOf r.date⟩ :=
      (hok _ _ hw r hrow hid).not_held (hfit.2 r hrow hid) hfree rfl hc
    exact Option.not_isSome_iff_eq_none.1 fun hsome => hopen (Or.inl hsome)

/-- A month that is locked after its last decision has nothing that waits. -/
theorem locked_month_waits_for_nothing_decided :
    ∃ s, Runs.run (step (spec thirtyDays)) (State.idle ofOffices) decidedThenLocked = some s ∧
      (s.gates ⟨1, ⟨1⟩⟩).isSome ∧ ¬ s.store.Waits thirtyDays ⟨1, ⟨1⟩⟩ := by
  have hlocked : (Runs.run (step (spec thirtyDays)) (State.idle ofOffices) decidedThenLocked).any
      (fun s => (s.gates ⟨1, ⟨1⟩⟩).isSome) = true := by decide +kernel
  have hprompt : Runs.Meets (step (spec thirtyDays)) PromptStep (State.idle ofOffices)
      decidedThenLocked := by decide +kernel
  obtain ⟨s, hs, hgate⟩ := (Option.any_eq_true ..).1 hlocked
  exact ⟨s, hs, hgate, (locked_month_waits_for_nothing thirtyDays ofOffices decidedThenLocked s
    (hprompt.mono fun _ _ => PromptStep.steady) hs).1 _ hgate⟩

/-- Something waits in a locked month when a person who has it is put into the
organisation after the lock. -/
theorem something_waits_in_locked_month :
    ¬ ∀ (as : List (Action OrgMonth Unit PayrollTx))
      (s : State Payroll OrgMonth Unit Unit PayrollTx),
      Runs.run (step (spec thirtyDays)) (State.idle ofOffices) as = some s →
      ∀ key, (s.gates key).isSome → ¬ s.store.Waits thirtyDays key := by
  intro hclaim
  have hrun : (Runs.run (step (spec thirtyDays)) (State.idle ofOffices) assignedAfterLock).any
      (fun s => (s.gates ⟨1, ⟨1⟩⟩).isSome ∧ ∃ r ∈ s.store.items.rows, r.status = .pending ∧
        thirtyDays r.date = ⟨1⟩ ∧ s.store.directory.companyOfUser r.userId = some 1) = true := by
    decide +kernel
  obtain ⟨s, hs, hfound⟩ := (Option.any_eq_true ..).1 hrun
  obtain ⟨hgate, hwaits⟩ := of_decide_eq_true hfound
  exact hclaim assignedAfterLock s hs _ hgate hwaits

end Payroll

end RxVision
