import RxVision.Chat.Contacts
import RxVision.Lib.Dict
import RxVision.Lib.Runs
import Mathlib.Data.List.Sort
import Mathlib.Data.List.Dedup
import Mathlib.Algebra.Order.Ring.Int

/-!
# Messages between contacts

A message is sent in two steps, the check of the recipient and the row, and opening a conversation
is two statements, the list and the update of what is unread. Between them other requests run and
accounts change. `message_runs` says what holds after any interleaving: each message was allowed
when it was checked, only its recipient's request made it read, and nothing else of it changes.
`badge_adds_up` compares the total of unread messages with the conversations that are listed: what
senders who are no contacts any more wrote stays in the total.
-/

namespace RxVision.Chat

/-! ## The store -/

/-- `ChatMessage`. -/
structure ChatMessage where
  id : ℕ
  fromUserId : ℕ
  toUserId : ℕ
  body : String
  readAt : Option ℤ := none
  createdAt : ℤ
  deriving DecidableEq, Repr

/-- `CreateMessageData`. -/
structure CreateMessageData where
  fromUserId : ℕ
  toUserId : ℕ
  body : String
  deriving DecidableEq, Repr

/-- The row that `create` adds. -/
def CreateMessageData.row (data : CreateMessageData) (now : ℤ) (id : ℕ) : ChatMessage where
  id := id
  fromUserId := data.fromUserId
  toUserId := data.toUserId
  body := data.body
  createdAt := now

/-- A new message has its id. -/
theorem CreateMessageData.row_id (data : CreateMessageData) (now : ℤ) :
    ∀ n, (data.row now n).id = n := fun _ => rfl

/-- A message read at `now`. -/
def ChatMessage.readBy (now : ℤ) (m : ChatMessage) : ChatMessage := { m with readAt := some now }

/-- Reading a message keeps its id. -/
theorem ChatMessage.readBy_id (now : ℤ) :
    ∀ m : ChatMessage, (m.readBy now).id = m.id := fun _ => rfl

/-- `chat_messages`. -/
abbrev Messages := Table ChatMessage.id

variable (messages : Messages)

/-- `create`. -/
def create (data : CreateMessageData) (now : ℤ) : Messages :=
  messages.create (data.row now) (data.row_id now)

/-- A message between two users, either way. -/
def between (userA userB : ℕ) (m : ChatMessage) : Bool :=
  m.fromUserId = userA && m.toUserId = userB || m.fromUserId = userB && m.toUserId = userA

/-- `createdAt desc`. -/
def newerFirst (m m' : ChatMessage) : Prop := m'.createdAt ≤ m.createdAt

instance : DecidableRel newerFirst := fun _ _ => inferInstanceAs (Decidable (_ ≤ _))

/-- `listConversation`: the newest `limit` messages between two users, the oldest of them first. -/
def listConversation (userA userB limit : ℕ) : List ChatMessage :=
  (((messages.rows.filter (between userA userB)).insertionSort newerFirst).take limit).reverse

/-- An unread message from somebody to somebody. -/
def unreadFrom (userId fromUserId : ℕ) (m : ChatMessage) : Bool :=
  m.toUserId = userId && m.fromUserId = fromUserId && m.readAt.isNone

/-- `markRead`. -/
def markRead (userId fromUserId : ℕ) (now : ℤ) : Messages :=
  messages.updateMany (unreadFrom userId fromUserId) (ChatMessage.readBy now)
    (ChatMessage.readBy_id now)

/-- An unread message to somebody. -/
def unreadTo (userId : ℕ) (m : ChatMessage) : Bool := m.toUserId = userId && m.readAt.isNone

/-- `countUnread`. -/
def countUnread (userId : ℕ) : ℕ := messages.rows.countP (unreadTo userId)

/-- `ThreadSummary`. -/
structure ThreadSummary where
  otherId : ℕ
  lastMessage : Option ChatMessage
  unreadCount : ℕ
  deriving DecidableEq, Repr

/-- `unreadByFrom`: the groups of unread messages by sender, with their counts. -/
def unreadByFrom (meId : ℕ) (otherIds : List ℕ) : Dict ℕ ℕ :=
  let unread := messages.rows.filter fun m => unreadTo meId m && otherIds.contains m.fromUserId
  Dict.empty.setAll ((unread.map ChatMessage.fromUserId).dedup.map fun sender =>
    (sender, unread.countP fun m => m.fromUserId = sender))

/-- The summary of the conversation with one of `otherIds`. -/
def summaryOf (meId : ℕ) (otherIds : List ℕ) (otherId : ℕ) : ThreadSummary where
  otherId := otherId
  lastMessage := messages.findLast? (between meId otherId) ChatMessage.createdAt
  unreadCount := ((unreadByFrom messages meId otherIds).get? otherId).getD 0

/-- `threadSummaries`. -/
def threadSummaries (meId : ℕ) (otherIds : List ℕ) : List ThreadSummary :=
  if otherIds.isEmpty then [] else otherIds.map (summaryOf messages meId otherIds)

/-- `ChatThreadView`, with the message as its row. -/
structure ChatThreadView where
  contact : ChatContact
  lastMessage : Option ChatMessage
  unreadCount : ℕ
  deriving DecidableEq, Repr

/-- `toThreadView`. -/
def toThreadView (c : ChatContact) (summary : Option ThreadSummary) : ChatThreadView where
  contact := c
  lastMessage := summary.bind ThreadSummary.lastMessage
  unreadCount := (summary.map ThreadSummary.unreadCount).getD 0

/-- The time a conversation is sorted by; 0 without messages. -/
def ChatThreadView.lastAt (t : ChatThreadView) :
    ℤ := (t.lastMessage.map ChatMessage.createdAt).getD 0

/-- `tb - ta` is not positive. -/
def recentFirst (a b : ChatThreadView) : Prop := b.lastAt ≤ a.lastAt

instance : DecidableRel recentFirst := fun _ _ => inferInstanceAs (Decidable (_ ≤ _))

/-- `ListThreadsUseCase.execute`. -/
def listThreads (d : Directory) (me : AuthenticatedUser) : List ChatThreadView :=
  let contacts := findContacts d me
  let summaries := threadSummaries messages me.id (contacts.map ChatContact.id)
  let byId : Dict ℕ ThreadSummary := Dict.empty.setAll (summaries.map fun s => (s.otherId, s))
  (contacts.map fun c => toThreadView c (byId.get? c.id)).insertionSort recentFirst

variable {messages} {m : ChatMessage}

/-- One more message. -/
theorem mem_create {data : CreateMessageData} {now : ℤ} :
    m ∈ create messages data now ↔ m ∈ messages ∨ m = data.row now messages.next := Table.mem_create

/-- A row after `markRead` is as before, or it was unread and its recipient has now read it. -/
theorem exists_of_mem_markRead {userId fromUserId : ℕ} {now : ℤ}
    (h : m ∈ markRead messages userId fromUserId now) :
    m ∈ messages ∨ ∃ m₀ ∈ messages, m = m₀.readBy now ∧ m₀.toUserId = userId ∧
      m₀.fromUserId = fromUserId := by
  obtain ⟨m₀, hm₀, rfl⟩ := Table.exists_of_mem_updateMany h
  cases hun : unreadFrom userId fromUserId m₀ with
  | false => exact .inl (by simpa using hm₀)
  | true =>
    simp only [unreadFrom, Bool.and_eq_true, decide_eq_true_eq] at hun
    exact .inr ⟨m₀, hm₀, by simp, hun.1.1, hun.1.2⟩

/-- Both sides of a conversation see the same messages of it. -/
theorem listConversation_comm (userA userB limit : ℕ) :
    listConversation messages userA userB limit = listConversation messages userB userA limit := by
  unfold listConversation
  congr 4
  funext m
  exact Bool.or_comm _ _

/-- A conversation shows messages between the two in the order they were created, `limit` at most,
and whatever of the two it leaves out is no newer. -/
theorem listConversation_newest (userA userB limit : ℕ) :
    (listConversation messages userA userB limit).Pairwise
    (fun m m' => m.createdAt ≤ m'.createdAt) ∧
    (listConversation messages userA userB limit).length ≤ limit ∧
    ∀ m ∈ listConversation messages userA userB limit, m ∈ messages ∧ between userA userB m = true ∧
      ∀ m' ∈ messages, between userA userB m' = true →
        m' ∉ listConversation messages userA userB limit →
        m'.createdAt ≤ m.createdAt := by
  have htotal : Std.Total newerFirst := ⟨fun a b => le_total b.createdAt a.createdAt⟩
  have htrans : IsTrans ChatMessage newerFirst := ⟨fun a b c hab hbc => le_trans hbc hab⟩
  have hperm := List.perm_insertionSort newerFirst (messages.rows.filter (between userA userB))
  have hsorted :=
    List.pairwise_insertionSort newerFirst (messages.rows.filter (between userA userB))
  unfold listConversation
  generalize (messages.rows.filter (between userA userB)).insertionSort newerFirst =
    sorted at hperm hsorted
  rw [← List.take_append_drop limit sorted, List.pairwise_append] at hsorted
  refine ⟨List.pairwise_reverse.2 hsorted.1, by simp, fun m hm => ?_⟩
  have hshown := List.mem_reverse.1 hm
  obtain ⟨hmem, hbetween⟩ := List.mem_filter.1 (hperm.mem_iff.1 (List.mem_of_mem_take hshown))
  refine ⟨hmem, hbetween, fun m' hm' hbetween' hleft => ?_⟩
  have hsort : m' ∈ sorted.take limit ++ sorted.drop limit := by
    rw [List.take_append_drop]
    exact hperm.mem_iff.2 (List.mem_filter.2 ⟨hm', hbetween'⟩)
  rcases List.mem_append.1 hsort with htake | hdrop
  · exact absurd (List.mem_reverse.2 htake) hleft
  · exact hsorted.2.2 m hshown m' hdrop

/-! ## The badge and the conversations -/

/-- A count split by the keys of a list, and the rows with other keys. By induction on the keys. -/
theorem countP_by_key {ρ : Type*} (key : ρ → ℕ) (rows : List ρ) : ∀ {ids : List ℕ}, ids.Nodup →
    ∀ p : ρ → Bool, rows.countP p =
      (ids.map fun i => rows.countP fun r => p r && decide (key r = i)).sum +
        rows.countP fun r => p r && !ids.contains (key r)
  | [], _, p => by simp
  | i :: ids, hids, p => by
    obtain ⟨hi, hids⟩ := List.nodup_cons.1 hids
    have hsplit : rows.countP p = (rows.countP fun r => p r && decide (key r = i)) +
        rows.countP fun r => p r && !decide (key r = i) := by
      rw [List.countP_eq_countP_filter_add rows p fun r => decide (key r = i), List.countP_filter,
        List.countP_filter]
    have hrest := countP_by_key key rows hids fun r => p r && !decide (key r = i)
    have hsame : (ids.map fun j => rows.countP fun r =>
        (p r && !decide (key r = i)) && decide (key r = j)) =
        ids.map fun j => rows.countP fun r => p r && decide (key r = j) := by
      refine List.map_congr_left fun j hj => List.countP_congr fun r _ => ?_
      have hne : j ≠ i := fun h => hi (h ▸ hj)
      by_cases hk : key r = j
      · simp [hk, hne]
      · simp [hk]
    have hother : (rows.countP fun r => (p r && !decide (key r = i)) && !ids.contains (key r)) =
        rows.countP fun r => p r && !(i :: ids).contains (key r) := by
      refine List.countP_congr fun r _ => ?_
      by_cases hk : key r = i <;> simp [hk]
    rw [hsplit, hrest, hsame, hother, List.map_cons, List.sum_cons, Nat.add_assoc]

/-- A map made of the keys of a list has what was computed for each of them, and nothing else. -/
theorem get?_setAll_map {ν : Type*} {keys : List ℕ} (hkeys : keys.Nodup) (f : ℕ → ν) (k : ℕ) :
    ((Dict.empty : Dict ℕ ν).setAll (keys.map fun k => (k, f k))).get? k =
      if k ∈ keys then some (f k) else none := by
  have hnodup :
      (((Dict.empty : Dict ℕ ν).entries ++ keys.map fun k => (k, f k)).map Prod.fst).Nodup := by
    simpa [Dict.empty, List.map_map, Function.comp_def] using hkeys
  have hentries := Dict.entries_setAll hnodup
  have hget : ∀ v, ((Dict.empty : Dict ℕ ν).setAll (keys.map fun k => (k, f k))).get? k = some v ↔
      k ∈ keys ∧ f k = v := by
    intro v
    rw [Dict.get?_eq_some_iff, hentries]
    simp only [Dict.empty, List.nil_append, List.mem_map, Prod.mk.injEq]
    constructor
    · rintro ⟨k', hk', rfl, rfl⟩
      exact ⟨hk', rfl⟩
    · rintro ⟨hk, rfl⟩
      exact ⟨k, hk, rfl, rfl⟩
  split
  next hk => exact (hget _).2 ⟨hk, rfl⟩
  next hk => exact Option.eq_none_iff_forall_ne_some.2 fun v hv => hk ((hget v).1 hv).1

/-- The group of a sender has the number of unread messages of that sender. -/
theorem unreadByFrom_get {meId other : ℕ} {otherIds : List ℕ} (hother : other ∈ otherIds) :
    ((unreadByFrom messages meId otherIds).get? other).getD 0 =
      messages.rows.countP (unreadFrom meId other) := by
  rw [unreadByFrom, get?_setAll_map (List.nodup_dedup _)]
  have hgroup :
    ((messages.rows.filter fun m => unreadTo meId m && otherIds.contains m.fromUserId).countP
      fun m => decide (m.fromUserId = other)) = messages.rows.countP (unreadFrom meId other) := by
    rw [List.countP_filter]
    refine List.countP_congr fun m _ => ?_
    simp only [unreadTo, unreadFrom, Bool.and_eq_true, decide_eq_true_eq, List.contains_iff_mem]
    constructor
    · rintro ⟨rfl, ⟨hto, hread⟩, -⟩
      exact ⟨⟨hto, rfl⟩, hread⟩
    · rintro ⟨⟨hto, rfl⟩, hread⟩
      exact ⟨rfl, ⟨hto, hread⟩, hother⟩
  split
  · exact hgroup
  next hnone =>
    rw [← hgroup]
    refine (List.countP_eq_zero.2 fun m hm hfrom => hnone ?_).symm
    rw [List.mem_dedup]
    exact List.mem_map.2 ⟨m, hm, of_decide_eq_true hfrom⟩

variable {d : Directory} {me : AuthenticatedUser}

/-- No account is a contact twice. -/
theorem nodup_contacts (d : Directory) (me : AuthenticatedUser) :
    ((findContacts d me).map ChatContact.id).Nodup := by
  unfold findContacts
  cases contactsWhere me with
  | none => exact List.nodup_nil
  | some scope =>
    rw [List.map_map]
    refine List.Pairwise.map _ (fun a b h => ?_) (d.users.sorted.sublist List.filter_sublist)
    exact Nat.ne_of_lt h

/-- What is listed of one contact: the last message with them and the number of
theirs that are unread. -/
theorem threadOf_contact {c : ChatContact} (hc : c ∈ findContacts d me) :
    (let byId : Dict ℕ ThreadSummary := Dict.empty.setAll
      ((threadSummaries messages me.id ((findContacts d me).map ChatContact.id)).map
        fun s => (s.otherId, s))
    toThreadView c (byId.get? c.id)) = {
      contact := c
      lastMessage := messages.findLast? (between me.id c.id) ChatMessage.createdAt
      unreadCount := messages.rows.countP (unreadFrom me.id c.id) } := by
  have hid : c.id ∈ (findContacts d me).map ChatContact.id := List.mem_map_of_mem hc
  have hnonempty : ((findContacts d me).map ChatContact.id).isEmpty = false := by
    cases hids : (findContacts d me).map ChatContact.id with
    | nil => rw [hids] at hid; cases hid
    | cons => rfl
  have hget := get?_setAll_map (nodup_contacts d me)
    (summaryOf messages me.id ((findContacts d me).map ChatContact.id)) c.id
  rw [if_pos hid] at hget
  simp only [threadSummaries, hnonempty, Bool.false_eq_true, if_false]
  rw [List.map_map]
  refine (congrArg (toThreadView c) hget).trans ?_
  simp only [toThreadView, summaryOf, Option.bind_some, Option.map_some, Option.getD_some,
    unreadByFrom_get hid]

/-- Unread messages of senders who are no contacts. -/
def unreadOfStrangers (messages : Messages) (d : Directory) (me : AuthenticatedUser) : ℕ :=
  messages.rows.countP fun m => unreadTo me.id m &&
    !((findContacts d me).map ChatContact.id).contains m.fromUserId

/-- Reading the conversations with some senders leaves exactly the unread messages of the others. -/
theorem countUnread_markRead {userId : ℕ} (times : ℕ → ℤ) : ∀ (ids : List ℕ) (messages : Messages),
    countUnread (ids.foldl (fun ms i => markRead ms userId i (times i)) messages) userId =
      messages.rows.countP fun m => unreadTo userId m && !ids.contains m.fromUserId
  | [], messages => by simp [countUnread]
  | i :: ids, messages => by
    rw [List.foldl_cons, countUnread_markRead times ids]
    change (messages.rows.map _).countP _ = _
    rw [List.countP_map]
    refine List.countP_congr fun m _ => ?_
    cases hun : unreadFrom userId i m with
    | true =>
      have hfrom : m.fromUserId = i := by
        simp only [unreadFrom, Bool.and_eq_true, decide_eq_true_eq] at hun
        exact hun.1.2
      simp [hun, hfrom, ChatMessage.readBy, unreadTo]
    | false =>
      simp only [Function.comp_apply, hun, Bool.false_eq_true, if_false]
      cases hto : unreadTo userId m with
      | false => simp
      | true =>
        have hne : m.fromUserId ≠ i := by
          rintro rfl
          simp only [unreadTo, Bool.and_eq_true, decide_eq_true_eq] at hto
          simp [unreadFrom, hto.1, hto.2] at hun
        simp [hne]

/-- The conversations are those of the contacts, each once and the most recent first. The total of
unread messages is what they show and what senders who are no contacts wrote, and that is what is
left of it when every conversation was opened. -/
theorem badge_adds_up (messages : Messages) (d : Directory) (me : AuthenticatedUser)
    (times : ℕ → ℤ) :
    ((listThreads messages d me).map ChatThreadView.contact).Perm (findContacts d me) ∧
    (listThreads messages d me).Pairwise recentFirst ∧
    countUnread messages me.id =
      ((listThreads messages d me).map ChatThreadView.unreadCount).sum +
        unreadOfStrangers messages d me ∧
    countUnread (((findContacts d me).map ChatContact.id).foldl
        (fun ms i => markRead ms me.id i (times i)) messages) me.id =
          unreadOfStrangers messages d me := by
  have hthreads : listThreads messages d me = ((findContacts d me).map fun c => {
      contact := c
      lastMessage := messages.findLast? (between me.id c.id) ChatMessage.createdAt
      unreadCount := messages.rows.countP (unreadFrom me.id c.id) }).insertionSort recentFirst := by
    unfold listThreads
    exact congrArg (List.insertionSort recentFirst)
      (List.map_congr_left fun c hc => threadOf_contact hc)
  have htotal : Std.Total recentFirst := ⟨fun a b => le_total b.lastAt a.lastAt⟩
  have htrans : IsTrans ChatThreadView recentFirst := ⟨fun a b c hab hbc => le_trans hbc hab⟩
  refine ⟨?_, ?_, ?_, countUnread_markRead times _ messages⟩
  · rw [hthreads]
    refine ((List.perm_insertionSort recentFirst _).map _).trans ?_
    rw [List.map_map]
    exact List.Perm.of_eq (List.map_id (findContacts d me))
  · rw [hthreads]
    exact List.pairwise_insertionSort recentFirst _
  · have hcount := countP_by_key ChatMessage.fromUserId messages.rows (nodup_contacts d me)
      (unreadTo me.id)
    rw [hthreads, ((List.perm_insertionSort recentFirst _).map ChatThreadView.unreadCount).sum_nat,
      List.map_map, countUnread, hcount, unreadOfStrangers, List.map_map]
    congr 2
    refine List.map_congr_left fun c _ => List.countP_congr fun m _ => ?_
    simp only [unreadTo, unreadFrom, Bool.and_eq_true, decide_eq_true_eq]
    tauto

/-! ## Requests in any order -/

/-- A conversation that was listed and whose messages are still to be marked. -/
structure Opening where
  userId : ℕ
  fromUserId : ℕ
  deriving DecidableEq, Repr

/-- The accounts and messages, and the requests under way: the callers let in, the messages checked
and not yet stored, the conversations listed and not yet marked. -/
structure ChatDesk where
  directory : Directory
  messages : Messages
  callers : List AuthenticatedUser
  sends : List CreateMessageData
  openings : List Opening

/-- A desk without messages and requests. -/
def ChatDesk.empty (d : Directory) : ChatDesk := ⟨d, Table.empty, [], [], []⟩

/-- What happens at a desk; a request names its caller by their place in `callers`. -/
inductive ChatAction
  /-- The accounts, departments or organisations change in any way. -/
  | changeDirectory (d : Directory)
  /-- The guards let an active account in. -/
  | signIn (cache : UuidText → Option Bool) (id : ℕ) (orgHeader : OrgHeader)
  /-- `SendMessageUseCase.execute` up to `canMessage`. -/
  | check (i : ℕ) (toUserId : UuidText) (body : String)
  /-- The rest of it, for the `i`-th checked message. -/
  | store (i : ℕ) (now : ℤ)
  /-- `GetConversationUseCase.execute` up to `listConversation`. -/
  | list (i : ℕ) (withUserId : UuidText)
  /-- The rest of it, for the `i`-th listed conversation. -/
  | mark (i : ℕ) (now : ℤ)

namespace ChatDesk

/-- One statement of a request; none where it is refused or there is no such request. -/
def step (s : ChatDesk) : ChatAction → Option ChatDesk
  | .changeDirectory d => some { s with directory := d }
  | .signIn cache id orgHeader =>
    match s.directory.loadById cache id orgHeader with
    | some me => if me.status = .active then some { s with callers := s.callers ++ [me] } else none
    | none => none
  | .check i toUserId body =>
    match s.callers[i]? with
    | some me =>
      if canMessage s.directory me toUserId then
        some { s with sends := s.sends ++ [⟨me.id, toUserId.uuid, body⟩] }
      else none
    | none => none
  | .store i now =>
    match s.sends[i]? with
    | some data =>
      some { s with messages := create s.messages data now, sends := s.sends.eraseIdx i }
    | none => none
  | .list i withUserId =>
    match s.callers[i]? with
    | some me => some { s with openings := s.openings ++ [⟨me.id, withUserId.uuid⟩] }
    | none => none
  | .mark i now =>
    match s.openings[i]? with
    | some o => some { s with
        messages := markRead s.messages o.userId o.fromUserId now
        openings := s.openings.eraseIdx i }
    | none => none

variable {s s' t : ChatDesk} {a : ChatAction} {past as bs : List ChatAction} {s₀ : ChatDesk}
  {caller : AuthenticatedUser} {data : CreateMessageData} {o : Opening}

/-- What a step does, action by action. -/
inductive Stepped (s : ChatDesk) : ChatAction → ChatDesk → Prop
  | changeDirectory (d : Directory) : Stepped s (.changeDirectory d) { s with directory := d }
  | signIn (cache : UuidText → Option Bool) (id : ℕ) (orgHeader : OrgHeader)
    (me : AuthenticatedUser)
      (hload : s.directory.loadById cache id orgHeader = some me) (hactive : me.status = .active) :
      Stepped s (.signIn cache id orgHeader) { s with callers := s.callers ++ [me] }
  | check (i : ℕ) (toUserId : UuidText) (body : String) (me : AuthenticatedUser)
    (hme : me ∈ s.callers) (hcan : canMessage s.directory me toUserId = true) :
      Stepped s (.check i toUserId body)
        { s with sends := s.sends ++ [⟨me.id, toUserId.uuid, body⟩] }
  | store (i : ℕ) (now : ℤ) (data : CreateMessageData) (hdata : data ∈ s.sends) :
      Stepped s (.store i now)
        { s with messages := create s.messages data now, sends := s.sends.eraseIdx i }
  | list (i : ℕ) (withUserId : UuidText) (me : AuthenticatedUser) (hme : me ∈ s.callers) :
      Stepped s (.list i withUserId) { s with openings := s.openings ++ [⟨me.id, withUserId.uuid⟩] }
  | mark (i : ℕ) (now : ℤ) (o : Opening) (ho : o ∈ s.openings) :
      Stepped s (.mark i now)
        { s with messages := markRead s.messages o.userId o.fromUserId now
                 openings := s.openings.eraseIdx i }

/-- A step is one of those that `Stepped` lists, with its guards. -/
theorem step_cases (hs : s.step a = some s') : Stepped s a s' := by
  cases a with
  | changeDirectory d => cases hs; exact .changeDirectory d
  | signIn cache id orgHeader =>
    simp only [step] at hs
    split at hs
    next me hload =>
      split at hs
      next hactive => cases hs; exact .signIn cache id orgHeader me hload hactive
      next => cases hs
    next => cases hs
  | check i toUserId body =>
    simp only [step] at hs
    split at hs
    next me hme =>
      split at hs
      next hcan => cases hs; exact .check i toUserId body me (List.mem_of_getElem? hme) hcan
      next => cases hs
    next => cases hs
  | store i now =>
    simp only [step] at hs
    split at hs
    next data hdata => cases hs; exact .store i now data (List.mem_of_getElem? hdata)
    next => cases hs
  | list i withUserId =>
    simp only [step] at hs
    split at hs
    next me hme => cases hs; exact .list i withUserId me (List.mem_of_getElem? hme)
    next => cases hs
  | mark i now =>
    simp only [step] at hs
    split at hs
    next o ho => cases hs; exact .mark i now o (List.mem_of_getElem? ho)
    next => cases hs

/-- The caller was let in during these actions. -/
def LetIn (s₀ : ChatDesk) (past : List ChatAction) (caller : AuthenticatedUser) : Prop :=
  ∃ before s cache, before <+: past ∧ Runs.run step s₀ before = some s ∧
    s.directory.SignedIn cache caller

/-- The message was checked during these actions, for a caller who might send it when it was. -/
def Allowed (s₀ : ChatDesk) (past : List ChatAction) (data : CreateMessageData) : Prop :=
  ∃ before i text s me, before ++ [.check i text data.body] <+: past ∧
    Runs.run step s₀ before = some s ∧ LetIn s₀ before me ∧
    canMessage s.directory me text = true ∧ data.fromUserId = me.id ∧ data.toUserId = text.uuid

/-- The conversation was opened during these actions by the one whom it names. -/
def Opened (s₀ : ChatDesk) (past : List ChatAction) (o : Opening) : Prop :=
  ∃ before i text me, before ++ [.list i text] <+: past ∧ LetIn s₀ before me ∧
    o = ⟨me.id, text.uuid⟩

/-- Later actions change nothing about the earlier ones. -/
theorem LetIn.later (h : LetIn s₀ past caller) : LetIn s₀ (past ++ as) caller := by
  obtain ⟨before, s, cache, hbefore, hrun, hin⟩ := h
  exact ⟨before, s, cache, hbefore.trans (List.prefix_append _ _), hrun, hin⟩

/-- What was allowed stays so. -/
theorem Allowed.later (h : Allowed s₀ past data) : Allowed s₀ (past ++ as) data := by
  obtain ⟨before, i, text, s, me, hbefore, hrest⟩ := h
  exact ⟨before, i, text, s, me, hbefore.trans (List.prefix_append _ _), hrest⟩

/-- A conversation that was opened stays so. -/
theorem Opened.later (h : Opened s₀ past o) : Opened s₀ (past ++ as) o := by
  obtain ⟨before, i, text, me, hbefore, hrest⟩ := h
  exact ⟨before, i, text, me, hbefore.trans (List.prefix_append _ _), hrest⟩

/-- What a message shows of the one that was sent. -/
def sent (m : ChatMessage) : CreateMessageData := ⟨m.fromUserId, m.toUserId, m.body⟩

/-- What a message was sent and read by. -/
structure Accounted (s₀ : ChatDesk) (past : List ChatAction) (m : ChatMessage) : Prop where
  allowed : Allowed s₀ past (sent m)
  /-- Only who got a message makes it read, by opening the conversation with who sent it. -/
  opened : m.readAt ≠ none → Opened s₀ past ⟨m.toUserId, m.fromUserId⟩

/-- The requests under way and the messages of a desk come from what happened. -/
structure Traced (s₀ : ChatDesk) (past : List ChatAction) (s : ChatDesk) : Prop where
  run : Runs.run step s₀ past = some s
  callers : ∀ me ∈ s.callers, LetIn s₀ past me
  sends : ∀ data ∈ s.sends, Allowed s₀ past data
  openings : ∀ o ∈ s.openings, Opened s₀ past o
  messages : ∀ m ∈ s.messages, Accounted s₀ past m

/-- A message that is accounted for stays so. -/
theorem Accounted.later {m : ChatMessage} (h : Accounted s₀ past m) : Accounted s₀ (past ++ as) m :=
  ⟨h.allowed.later, fun hread => (h.opened hread).later⟩

/-- Before any step there is nothing to account for. -/
theorem traced_empty (d : Directory) : Traced (empty d) [] (empty d) where
  run := rfl
  callers _ h := (List.not_mem_nil h).elim
  sends _ h := (List.not_mem_nil h).elim
  openings _ h := (List.not_mem_nil h).elim
  messages _ h := absurd h (Table.not_mem_empty _)

/-- Every step keeps the account of what happened: what is stored and shown comes from
actions of the past. -/
theorem Traced.step (h : Traced s₀ past s) (hs : s.step a = some s') :
    Traced s₀ (past ++ [a]) s' := by
  have hrun : Runs.run ChatDesk.step s₀ (past ++ [a]) = some s' :=
    Runs.run_append_eq_some.2 ⟨s, h.run, by simp [hs]⟩
  have hcallers : ∀ me ∈ s.callers, LetIn s₀ (past ++ [a]) me := fun me hme =>
    (h.callers me hme).later
  have hsends : ∀ data ∈ s.sends, Allowed s₀ (past ++ [a]) data := fun data hd =>
    (h.sends data hd).later
  have hopenings : ∀ o ∈ s.openings, Opened s₀ (past ++ [a]) o := fun o ho =>
    (h.openings o ho).later
  have hmessages : ∀ m ∈ s.messages, Accounted s₀ (past ++ [a]) m := fun m hm =>
    (h.messages m hm).later
  cases step_cases hs with
  | changeDirectory d => exact ⟨hrun, hcallers, hsends, hopenings, hmessages⟩
  | signIn cache id orgHeader me hload hactive =>
    refine ⟨hrun, fun me' hme' => ?_, hsends, hopenings, hmessages⟩
    rcases List.mem_append.1 hme' with hme' | hme'
    · exact hcallers me' hme'
    · obtain rfl := List.mem_singleton.1 hme'
      exact ⟨past, s, cache, List.prefix_append _ _, h.run, id, orgHeader, hload, hactive⟩
  | check i toUserId body me hme hcan =>
    refine ⟨hrun, hcallers, fun data hdata => ?_, hopenings, hmessages⟩
    rcases List.mem_append.1 hdata with hdata | hdata
    · exact hsends data hdata
    · obtain rfl := List.mem_singleton.1 hdata
      exact ⟨past, i, toUserId, s, me, List.prefix_rfl, h.run, h.callers me hme, hcan, rfl, rfl⟩
  | store i now data hdata =>
    refine ⟨hrun, hcallers, fun data' hd => hsends data' (List.mem_of_mem_eraseIdx hd), hopenings,
      fun m hm => ?_⟩
    rcases mem_create.1 hm with hm | rfl
    · exact hmessages m hm
    · exact ⟨hsends data hdata, fun hread => absurd rfl hread⟩
  | list i withUserId me hme =>
    refine ⟨hrun, hcallers, hsends, fun o ho => ?_, hmessages⟩
    rcases List.mem_append.1 ho with ho | ho
    · exact hopenings o ho
    · obtain rfl := List.mem_singleton.1 ho
      exact ⟨past, i, withUserId, me, List.prefix_rfl, h.callers me hme, rfl⟩
  | mark i now o ho =>
    refine ⟨hrun, hcallers, hsends, fun o' ho' => hopenings o' (List.mem_of_mem_eraseIdx ho'),
      fun m hm => ?_⟩
    rcases exists_of_mem_markRead hm with hm | ⟨m₀, hm₀, rfl, hto, hfrom⟩
    · exact hmessages m hm
    · refine ⟨(hmessages m₀ hm₀).allowed, fun _ => ?_⟩
      change Opened s₀ _ ⟨m₀.toUserId, m₀.fromUserId⟩
      rw [hto, hfrom]
      exact hopenings o ho

/-- `m'` is the message `m` later on: the same but for being read, and read once at most. -/
structure Kept (m m' : ChatMessage) : Prop where
  id : m'.id = m.id
  sent : sent m' = sent m
  createdAt : m'.createdAt = m.createdAt
  readAt : m.readAt ≠ none → m'.readAt = m.readAt

/-- A message is as it is. -/
theorem Kept.refl (m : ChatMessage) : Kept m m := ⟨rfl, rfl, rfl, fun _ => rfl⟩

/-- Marking a conversation keeps every message, its text and its people. -/
theorem kept_markRead {messages : Messages} {m m₁ : ChatMessage} {userId fromUserId : ℕ} {now : ℤ}
    (hkept : Kept m m₁) (hm : m₁ ∈ messages) : ∃ m' ∈ markRead messages userId fromUserId now,
    Kept m m' := by
  have hmem : (if unreadFrom userId fromUserId m₁ then m₁.readBy now else m₁) ∈
      markRead messages userId fromUserId now := Table.mem_updateMany_of_mem hm
  refine ⟨_, hmem, ?_⟩
  split
  next hun =>
    have hunread : m₁.readAt = none := by
      simp only [unreadFrom, Bool.and_eq_true, Option.isNone_iff_eq_none] at hun
      exact hun.2
    refine ⟨hkept.id, hkept.sent, hkept.createdAt, fun hread => absurd ?_ hread⟩
    rw [← hkept.readAt hread, hunread]
  next => exact hkept

/-- A step keeps every message. -/
theorem kept_step {m m₁ : ChatMessage} (hkept : Kept m m₁) (hm : m₁ ∈ s.messages)
    (hs : s.step a = some s') : ∃ m' ∈ s'.messages, Kept m m' := by
  cases step_cases hs with
  | changeDirectory | signIn | check | list => exact ⟨m₁, hm, hkept⟩
  | store => exact ⟨m₁, mem_create.2 (.inl hm), hkept⟩
  | mark => exact kept_markRead hkept hm

/-- However sends, reads and changes of the accounts mix: each message was allowed to its sender
when it was checked, only its recipient's opening of the conversation made it read, and every
message of an earlier moment is still there, the same but for being read, which it becomes once. -/
theorem message_runs {d : Directory} (hs : Runs.run step (empty d) as = some s)
    (ht : Runs.run step s bs = some t) :
    (∀ m ∈ t.messages, Accounted (empty d) (as ++ bs) m) ∧
    ∀ m ∈ s.messages, ∃ m' ∈ t.messages, Kept m m' := by
  refine ⟨?_, fun m hm => ?_⟩
  · have hrun : Runs.run step (empty d) (as ++ bs) = some t := Runs.run_append_eq_some.2 ⟨s, hs, ht⟩
    exact (Runs.invariant_run_past (Traced (empty d)) (fun _ _ _ _ h hs => h.step hs)
      (traced_empty d)
      hrun).messages
  · have hall : Runs.Meets step (fun _ _ => True) s bs :=
      Runs.Meets.of_forall (fun _ _ => trivial) bs s
    refine Runs.invariant_run (fun t => ∃ m' ∈ t.messages, Kept m m') ?_ ⟨m, hm, .refl m⟩ hall ht
    rintro s₁ a s₂ ⟨m₁, hm₁, hkept⟩ - hstep
    exact kept_step hkept hm₁ hstep

/-- Staff 2 of `smallOrg` writes to the manager of their department. -/
def staffWrites : List ChatAction :=
  [.signIn (fun _ => none) 2 .blank, .check 0 (.printed 1) "Hello", .store 0 10]

/-- The manager opens the conversation. -/
def managerReads : List ChatAction :=
  [.signIn (fun _ => none) 1 .blank, .list 1 (.printed 2), .mark 0 20]

/-- The message is there, read, and accounted for. -/
theorem message_runs_read : ∃ s t, Runs.run step (empty smallOrg) staffWrites = some s ∧
    Runs.run step s managerReads = some t ∧ t.messages.rows = [⟨0, 2, 1, "Hello", some 20, 10⟩] ∧
    ∀ m ∈ t.messages, Accounted (empty smallOrg) (staffWrites ++ managerReads) m := by
  have hrows : (Runs.run step (empty smallOrg) (staffWrites ++ managerReads)).map
      (fun t => t.messages.rows) = some [⟨0, 2, 1, "Hello", some 20, 10⟩] := by decide
  obtain ⟨t, hrun, hrows⟩ := Option.map_eq_some_iff.1 hrows
  obtain ⟨s, hs, ht⟩ := Runs.run_append_eq_some.1 hrun
  exact ⟨s, t, hs, ht, hrows, (message_runs hs ht).1⟩

end ChatDesk

end RxVision.Chat
