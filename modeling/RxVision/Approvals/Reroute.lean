import RxVision.Approvals.Policy

/-!
# Re-routing waiting items (`approval-reroute.subscriber.ts`, `meeting-reroute.subscriber.ts`)

When somebody's role or departments change, what waits for them and their own waiting items are
routed again: breaks and meetings up to `BATCH` rows a list, away stretches all of them. A list is
routed row by row; nothing read on the way changes in between, so the loop is one update of the rows
it lists.
-/

namespace RxVision

/-- Most pending records handled per change. -/
def BATCH : ℕ := 500

/-- `people.findById`: an account that is not deleted. -/
def Directory.findPerson (d : Directory) (id : ℕ) : Option Account :=
  d.users.find? fun u => u.id = id && u.deletedAt.isNone

/-- `route` of somebody's items. -/
def Account.route (u : Account) : AwayStatus × Routing :=
  BreakApprovalPolicy.route u.role u.departmentId

/-- One row of `rerouteAll`: to whoever its person's items wait for now. -/
def rerouted (d : Directory) (r : ApprovalItem) : ApprovalItem :=
  match d.findPerson r.userId with
  | none => r
  | some subject =>
    if subject.route.1 ≠ .pending then r
    else if subject.route.2 = ⟨r.approverRole, r.approverId⟩ then r
    else r.reroute subject.route.2

/-- An item keeps its id. -/
theorem rerouted_id (d : Directory) (r : ApprovalItem) : (rerouted d r).id = r.id := by
  unfold rerouted
  split
  · rfl
  · split
    · rfl
    · split
      · rfl
      · exact (r.sameItem_reroute _).1

/-- `rerouteAll`. -/
def rerouteAll (d : Directory) (rows : List ApprovalItem) (items : Table ApprovalItem.id) :
    Table ApprovalItem.id :=
  items.updateMany (fun r => rows.any fun r' => r'.id = r.id) (rerouted d) (rerouted_id d)

/-- The waiting items of a kind that a list query selects. -/
def waiting (items : Table ApprovalItem.id) (type : ApprovalType) (p : ApprovalItem → Bool) :
    List ApprovalItem :=
  items.rows.filter fun r => r.type = type && r.status = .pending && p r

/-- `ORDER BY date DESC, started_at DESC`. -/
def newerFirst (a b : ApprovalItem) : Bool :=
  b.date.day < a.date.day || (a.date = b.date && b.startedAt ≤ a.startedAt)

/-- `listApprovals` with `take: BATCH`. -/
def listWaitingBreaks (items : Table ApprovalItem.id) (p : ApprovalItem → Bool) :
    List ApprovalItem :=
  ((waiting items .brk p).mergeSort newerFirst).take BATCH

/-- `listPendingForApprover` and `listPendingForUser`; they ask for no order. -/
def listWaitingMeetings (items : Table ApprovalItem.id) (p : ApprovalItem → Bool) :
    List ApprovalItem :=
  (waiting items .meeting p).take BATCH

/-- `canApprove` of the two subscribers. -/
def canApprove (person : Option Account) : Bool :=
  person.any fun p => p.status = .active &&
    (p.role = .manager || p.role = .admin || p.role = .superAdmin)

/-- `ApprovalRerouteSubscriber.handle` of a change of role. -/
def rerouteBreaks (d : Directory) (userId : ℕ) (items : Table ApprovalItem.id) :
    Table ApprovalItem.id :=
  let person := d.findPerson userId
  let items := if canApprove person then items
    else rerouteAll d (listWaitingBreaks items fun r => r.approverId = some userId) items
  if person.isSome then rerouteAll d (listWaitingBreaks items fun r => r.userId = userId) items
  else items

/-- `AwayRepository.reroutePending`. -/
def reroutePendingAway (userId : ℕ) (approverRole : Role) (items : Table ApprovalItem.id) :
    Table ApprovalItem.id :=
  items.updateMany
    (fun r => r.type = .away && r.userId = userId && r.status = .pending &&
      decide (Truth.ne r.approverRole approverRole).Holds)
    (fun r => { r with approverRole := some approverRole }) fun _ => rfl

/-- `MeetingRerouteSubscriber.handle` of a change of role: meetings, and the person's away time. -/
def rerouteMeetings (d : Directory) (userId : ℕ) (items : Table ApprovalItem.id) :
    Table ApprovalItem.id :=
  let person := d.findPerson userId
  let items := if canApprove person then items
    else rerouteAll d (listWaitingMeetings items fun r => r.approverId = some userId) items
  match person with
  | none => items
  | some p =>
    let items := rerouteAll d (listWaitingMeetings items fun r => r.userId = userId) items
    match p.route with
    | (.pending, ⟨some role, _⟩) => reroutePendingAway userId role items
    | _ => items

/-- Both subscribers of `UserAccessChangedEvent`. -/
def onAccessChanged (d : Directory) (userId : ℕ) (items : Table ApprovalItem.id) :
    Table ApprovalItem.id :=
  rerouteMeetings d userId (rerouteBreaks d userId items)

/-! ## Rows that wait for the right people

A row that waits for Managers belongs to Staff: `route` never sends a Manager's item to Managers,
and their own list would not show it. A change of role breaks this for the person's rows until they
are routed again.
-/

/-- An item that needs or needed a decision: of Staff or a Manager, for Managers or the Admin. -/
def Known (d : Directory) (r : ApprovalItem) : Prop :=
  r.status ≠ .notRequired →
    (r.approverRole = some .manager ∨ r.approverRole = some .admin) ∧
      ∃ u ∈ d.users, u.id = r.userId ∧ (u.role = .user ∨ u.role = .manager)

/-- A known item that waits for Managers only if it is of Staff. -/
structure ItemOk (d : Directory) (r : ApprovalItem) : Prop where
  known : Known d r
  staff : r.status = .pending → r.approverRole = some .manager →
    ∀ u ∈ d.users, u.id = r.userId → u.role = .user

variable {d : Directory} {r r' : ApprovalItem} {items : Table ApprovalItem.id}
  {rows : List ApprovalItem} {userId : ℕ} {u : Account} {types : ApprovalType → Prop}

/-- A row that is not waiting is fine as it is. -/
theorem ItemOk.of_not_pending (h : Known d r) (hp : r.status ≠ .pending) : ItemOk d r :=
  ⟨h, fun hpending => absurd hpending hp⟩

/-- A person that is found is an account of the directory. -/
theorem findPerson_mem (h : d.findPerson userId = some u) : u ∈ d.users ∧ u.id = userId := by
  have hsel := Table.find?_spec h
  simp only [Bool.and_eq_true, decide_eq_true_eq] at hsel
  exact ⟨Table.mem_of_find? h, hsel.1⟩

/-- A waiting row that is routed by its person's role now waits for the right people. -/
theorem itemOk_routed {row : ApprovalItem} (hu : d.findPerson row.userId = some u)
    (hroute : u.route.1 = .pending) (hrole : row.approverRole = u.route.2.approverRole) :
    ItemOk d row := by
  obtain ⟨hmem, hid⟩ := findPerson_mem hu
  have hroles := BreakApprovalPolicy.route_approverRole hroute
  refine ⟨fun _ => ⟨by rw [hrole]; exact hroles, u, hmem, hid, ?_⟩, ?_⟩
  · cases hr : u.role with
    | user => exact Or.inl rfl
    | manager => exact Or.inr rfl
    | superAdmin | superManager | admin => rw [Account.route, hr] at hroute; cases hroute
  · intro _ hm v hv hvid
    obtain rfl := Table.eq_of_key hv hmem (hvid.trans hid.symm)
    rw [hrole] at hm
    exact BreakApprovalPolicy.role_of_route_manager hm

/-- An item that is routed again keeps its kind, its person and its status. -/
theorem rerouted_same (d : Directory) (r : ApprovalItem) :
    (rerouted d r).type = r.type ∧ (rerouted d r).userId = r.userId ∧
      (rerouted d r).status = r.status := by
  unfold rerouted
  cases d.findPerson r.userId with
  | none => exact ⟨rfl, rfl, rfl⟩
  | some u =>
    dsimp only
    split
    · exact ⟨rfl, rfl, rfl⟩
    · split
      · exact ⟨rfl, rfl, rfl⟩
      · unfold ApprovalItem.reroute
        split <;> exact ⟨rfl, rfl, rfl⟩

/-- Routing a row again puts it right when its person is found. -/
theorem itemOk_rerouted (h : Known d r) (hu : d.findPerson r.userId = some u) :
    ItemOk d (rerouted d r) := by
  obtain ⟨hmem, hid⟩ := findPerson_mem hu
  unfold rerouted
  rw [hu]
  dsimp only
  by_cases hroute : u.route.1 = .pending
  · rw [if_neg (not_not.2 hroute)]
    split
    · rename_i hsame
      exact itemOk_routed hu hroute (by rw [hsame])
    · unfold ApprovalItem.reroute
      split
      · exact itemOk_routed hu hroute rfl
      · rename_i hp
        exact .of_not_pending h hp
  · rw [if_pos hroute]
    refine ⟨h, fun hp hm v hv hvid => ?_⟩
    obtain ⟨-, w, hw, hwid, hrole⟩ := h (by rw [hp]; decide)
    obtain rfl := Table.eq_of_key hw hmem (hwid.trans hid.symm)
    exact absurd (BreakApprovalPolicy.route_pending hrole).1 hroute

/-- A known item stays known. -/
theorem known_rerouted (h : Known d r) : Known d (rerouted d r) := by
  cases hu : d.findPerson r.userId with
  | none =>
    have hsame : rerouted d r = r := by simp [rerouted, hu]
    rwa [hsame]
  | some u => exact (itemOk_rerouted h hu).known

/-- An item that waited for Managers only if it was of Staff still does. -/
theorem ItemOk.rerouted (h : ItemOk d r) : ItemOk d (rerouted d r) := by
  cases hu : d.findPerson r.userId with
  | none =>
    have hsame : RxVision.rerouted d r = r := by simp [RxVision.rerouted, hu]
    rwa [hsame]
  | some u => exact itemOk_rerouted h.known hu

/-! ## The stages of a re-routing

`Stage d userId types items`: every row is known, and right unless it is one of `userId` of a kind
not yet routed again.
-/

/-- Where a re-routing of `userId`'s items stands: the kinds `types` are done. -/
def Stage (d : Directory) (userId : ℕ) (types : ApprovalType → Prop)
    (items : Table ApprovalItem.id) : Prop :=
  ∀ r ∈ items, Known d r ∧ (r.userId ≠ userId ∨ types r.type → ItemOk d r)

/-- Done for every kind: all rows are right. -/
theorem stage_all : Stage d userId (fun _ => True) items ↔ ∀ r ∈ items, ItemOk d r :=
  ⟨fun h r hr => (h r hr).2 (Or.inr trivial), fun h r hr => ⟨(h r hr).known, fun _ => h r hr⟩⟩

/-- After a pass, an item is as it was and was not among the rows of the pass, or it is rerouted. -/
theorem mem_rerouteAll (h : r' ∈ rerouteAll d rows items) :
    ∃ r ∈ items, (r' = r ∧ r ∉ rows) ∨ r' = rerouted d r := by
  obtain ⟨r, hr, rfl⟩ := Table.exists_of_mem_updateMany h
  refine ⟨r, hr, ?_⟩
  split
  · exact Or.inr rfl
  · rename_i hno
    refine Or.inl ⟨rfl, fun hmem => hno ?_⟩
    rw [List.any_eq_true]
    exact ⟨r, hmem, by simp⟩

/-- Routing some rows again undoes nothing. -/
theorem Stage.rerouteAll (h : Stage d userId types items) :
    Stage d userId types (rerouteAll d rows items) := by
  intro r' hr'
  obtain ⟨r, hr, ⟨rfl, -⟩ | rfl⟩ := mem_rerouteAll hr'
  · exact h _ hr
  · obtain ⟨htype, huser, -⟩ := rerouted_same d r
    rw [htype, huser]
    exact ⟨known_rerouted (h r hr).1, fun hdone => ((h r hr).2 hdone).rerouted⟩

/-- Routing all waiting rows of one kind again finishes that kind, and leaves the
kinds that are done. -/
theorem Stage.rerouteOwn {type : ApprovalType} (h : Stage d userId types items)
    (hu : d.findPerson userId = some u)
    (hall : ∀ r ∈ items, r.type = type → r.status = .pending → r.userId = userId → r ∈ rows) :
    Stage d userId (fun t => types t ∨ t = type) (RxVision.rerouteAll d rows items) := by
  intro r' hr'
  refine ⟨(h.rerouteAll r' hr').1, fun hdone => ?_⟩
  obtain ⟨r, hr, ⟨rfl, hout⟩ | rfl⟩ := mem_rerouteAll hr'
  · by_cases hsel : r'.status = .pending ∧ r'.userId = userId ∧ r'.type = type
    · exact absurd (hall r' hr hsel.2.2 hsel.1 hsel.2.1) hout
    · by_cases hp : r'.status = .pending
      · refine (h r' hr).2 ?_
        rcases hdone with hne | ht | rfl
        · exact Or.inl hne
        · exact Or.inr ht
        · exact Or.inl fun heq => hsel ⟨hp, heq, rfl⟩
      · exact .of_not_pending (h r' hr).1 hp
  · by_cases heq : r.userId = userId
    · exact itemOk_rerouted (h r hr).1 (heq ▸ hu)
    · exact ((h r hr).2 (Or.inl heq)).rerouted

/-- Routing the waiting away stretches of a person again finishes them, in one update. -/
theorem Stage.reroutePendingAway {role : Role} (h : Stage d userId types items)
    (hu : d.findPerson userId = some u) (hroute : u.route.1 = .pending)
    (hrole : u.route.2.approverRole = some role) :
    Stage d userId (fun t => types t ∨ t = .away) (reroutePendingAway userId role items) := by
  intro r' hr'
  obtain ⟨r, hr, rfl⟩ := Table.exists_of_mem_updateMany hr'
  split
  · rename_i hsel
    simp only [Bool.and_eq_true, decide_eq_true_eq] at hsel
    have hok : ItemOk d { r with approverRole := some role } :=
      itemOk_routed (by rw [hsel.1.1.2]; exact hu) hroute hrole.symm
    exact ⟨hok.known, fun _ => hok⟩
  · rename_i hsel
    refine ⟨(h r hr).1, fun hdone => ?_⟩
    by_cases hown : r.userId = userId ∧ r.type = .away ∧ r.status = .pending
    · obtain ⟨heq, ht, hp⟩ := hown
      obtain ⟨hroles, -⟩ := (h r hr).1 (by rw [hp]; decide)
      have hsame : r.approverRole = some role := by
        by_contra hne
        refine hsel ?_
        simp only [Bool.and_eq_true, decide_eq_true_eq, Truth.holds_ne]
        refine ⟨⟨⟨ht, heq⟩, hp⟩, ?_⟩
        rcases hroles with hm | ha
        · exact ⟨.manager, hm, fun h => hne (h ▸ hm)⟩
        · exact ⟨.admin, ha, fun h => hne (h ▸ ha)⟩
      exact itemOk_routed (heq ▸ hu) hroute (hsame.trans hrole.symm)
    · by_cases hp : r.status = .pending
      · refine (h r hr).2 ?_
        rcases hdone with hne | ht | ha
        · exact Or.inl hne
        · exact Or.inr ht
        · exact Or.inl fun heq => hown ⟨heq, ha, hp⟩
      · exact .of_not_pending (h r hr).1 hp

/-- Fewer kinds are to be done. -/
theorem Stage.mono {types' : ApprovalType → Prop} (h : Stage d userId types' items)
    (hsub : ∀ t, types t → types' t) : Stage d userId types items :=
  fun r hr => ⟨(h r hr).1, fun hdone => (h r hr).2 (hdone.imp_right (hsub _))⟩

/-! ## A list within its batch -/

/-- Nobody has more waiting breaks, or waiting meetings, than one change re-routes. -/
def WithinBatch (items : Table ApprovalItem.id) (userId : ℕ) : Prop :=
  (waiting items .brk fun r => r.userId = userId).length ≤ BATCH ∧
    (waiting items .meeting fun r => r.userId = userId).length ≤ BATCH

/-- The waiting items of a kind. -/
theorem mem_waiting {type : ApprovalType} {p : ApprovalItem → Bool} :
    r ∈ waiting items type p ↔ r ∈ items ∧ r.type = type ∧ r.status = .pending ∧ p r = true := by
  simp [waiting, Table.mem_rows, and_assoc]

/-- A pass leaves the number of a person's waiting items, since it changes no status. -/
theorem length_waiting_rerouteAll {type : ApprovalType} :
    (waiting (rerouteAll d rows items) type fun r => r.userId = userId).length =
      (waiting items type fun r => r.userId = userId).length := by
  simp only [waiting, ← List.countP_eq_length_filter]
  change List.countP _ (items.rows.map _) = _
  rw [List.countP_map]
  refine List.countP_congr fun r _ => ?_
  obtain ⟨htype, huser, hstatus⟩ := rerouted_same d r
  dsimp only [Function.comp]
  split <;> simp only [htype, huser, hstatus]

/-- So they are still within one batch. -/
theorem WithinBatch.rerouteAll (h : WithinBatch items userId) :
    WithinBatch (rerouteAll d rows items) userId := by
  unfold WithinBatch
  rw [length_waiting_rerouteAll, length_waiting_rerouteAll]
  exact h

/-- Waiting breaks within one batch are all listed. -/
theorem mem_listWaitingBreaks {p : ApprovalItem → Bool} (h : (waiting items .brk p).length ≤ BATCH)
    (hr : r ∈ waiting items .brk p) : r ∈ listWaitingBreaks items p := by
  unfold listWaitingBreaks
  rw [List.take_of_length_le (by rwa [List.length_mergeSort]), List.mem_mergeSort]
  exact hr

/-- Waiting meetings within one batch are all listed. -/
theorem mem_listWaitingMeetings {p : ApprovalItem → Bool}
    (h : (waiting items .meeting p).length ≤ BATCH) (hr : r ∈ waiting items .meeting p) :
    r ∈ listWaitingMeetings items p := by
  unfold listWaitingMeetings
  rwa [List.take_of_length_le h]

/-! ## What the subscribers do -/

/-- The first half of a subscriber, for what waits for somebody who may approve nothing now. -/
theorem Stage.handOn {p : Prop} [Decidable p] (h : Stage d userId types items) :
    Stage d userId types (if p then items else RxVision.rerouteAll d rows items) := by
  split
  · exact h
  · exact h.rerouteAll

/-- After the pass over the breaks, the breaks are done too. -/
theorem Stage.rerouteBreaks (h : Stage d userId types items) (id : ℕ) :
    Stage d userId types (rerouteBreaks d id items) := by
  unfold RxVision.rerouteBreaks
  dsimp only
  split
  · exact h.handOn.rerouteAll
  · exact h.handOn

/-- After the pass over the meetings, everything that was done stays done. -/
theorem Stage.rerouteMeetings (h : Stage d userId (fun _ => True) items) :
    Stage d userId (fun _ => True) (rerouteMeetings d userId items) := by
  unfold RxVision.rerouteMeetings
  dsimp only
  split
  · exact h.handOn
  · rename_i u hu
    split
    · rename_i role _ hroute
      refine (h.handOn.rerouteAll.reroutePendingAway hu ?_ ?_).mono fun _ _ => Or.inl trivial
      · rw [hroute]
      · rw [hroute]
    · exact h.handOn.rerouteAll

/-- A change of access leaves right rows right. -/
theorem itemsOk_onAccessChanged (h : ∀ r ∈ items, ItemOk d r) (id : ℕ) :
    ∀ r ∈ onAccessChanged d id items, ItemOk d r :=
  stage_all.1 ((stage_all.2 h).rerouteBreaks id).rerouteMeetings

/-- Breaks first: within the batch, all of the person's waiting breaks are routed again. -/
theorem Stage.rerouteOwnBreaks (h : Stage d userId (fun _ => False) items)
    (hu : d.findPerson userId = some u) (hw : WithinBatch items userId) :
    Stage d userId (fun t => t = .brk) (RxVision.rerouteBreaks d userId items) ∧
      WithinBatch (RxVision.rerouteBreaks d userId items) userId := by
  unfold RxVision.rerouteBreaks
  dsimp only
  rw [hu, Option.isSome_some, if_pos rfl]
  have hfirst : WithinBatch (if canApprove (some u) = true then items else RxVision.rerouteAll d
      (listWaitingBreaks items fun r => r.approverId = some userId) items) userId := by
    split
    · exact hw
    · exact hw.rerouteAll
  refine ⟨(h.handOn.rerouteOwn hu fun r hr ht hp heq => ?_).mono fun t ht => Or.inr ht,
    hfirst.rerouteAll⟩
  exact mem_listWaitingBreaks hfirst.1 (mem_waiting.2 ⟨hr, ht, hp, by simp [heq]⟩)

/-- Then meetings and away stretches, of a Staff member or a Manager: everything is done. -/
theorem Stage.rerouteOwnMeetings (h : Stage d userId (fun t => t = .brk) items)
    (hu : d.findPerson userId = some u) (hrole : u.role = .user ∨ u.role = .manager)
    (hw : WithinBatch items userId) :
    Stage d userId (fun _ => True) (RxVision.rerouteMeetings d userId items) := by
  have hroutes : u.route.1 = .pending ∧ u.route.2.approverRole ≠ none :=
    BreakApprovalPolicy.route_pending hrole
  obtain ⟨role, hto⟩ := Option.ne_none_iff_exists'.1 hroutes.2
  have hroute : u.route = (.pending, ⟨some role, u.route.2.approverId⟩) := by
    rw [← hto, ← hroutes.1]
  unfold RxVision.rerouteMeetings
  dsimp only
  rw [hu]
  have hfirst : WithinBatch (if canApprove (some u) = true then items else RxVision.rerouteAll d
      (listWaitingMeetings items fun r => r.approverId = some userId) items) userId := by
    split
    · exact hw
    · exact hw.rerouteAll
  dsimp only
  rw [hroute]
  have hmeetings := h.handOn.rerouteOwn hu fun r hr ht hp heq =>
    mem_listWaitingMeetings hfirst.2 (mem_waiting.2 ⟨hr, ht, hp, by simp [heq]⟩)
  refine (hmeetings.reroutePendingAway hu hroutes.1 hto).mono fun t _ => ?_
  cases t with
  | brk => exact Or.inl (Or.inl rfl)
  | meeting => exact Or.inl (Or.inr rfl)
  | away => exact Or.inr rfl

/-- A change of the role of a Staff member or Manager puts their rows right, within the batch. -/
theorem itemsOk_onAccessChanged_of_stage (h : Stage d userId (fun _ => False) items)
    (hu : d.findPerson userId = some u) (hrole : u.role = .user ∨ u.role = .manager)
    (hw : WithinBatch items userId) : ∀ r ∈ onAccessChanged d userId items, ItemOk d r := by
  obtain ⟨hbreaks, hw'⟩ := h.rerouteOwnBreaks hu hw
  exact stage_all.1 (hbreaks.rerouteOwnMeetings hu hrole hw')

end RxVision
