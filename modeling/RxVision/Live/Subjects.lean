import RxVision.Lib.Dict
import RxVision.Lib.TimedCache
import RxVision.Live.Eviction

/-!
# Where live updates go (`roomsOfUser` of `socket-access.service.ts`)

A live update asks for the rooms of the person it is about. Where the person belongs is kept for a
minute, also when the read fails and nothing is known; a change of the person's access forgets it,
and a map that has grown too large is emptied. A read that began before a change may be kept after
the change has been published, so what is kept can be old, by a minute at most
(`roomsOfUser_recent`).
-/

namespace RxVision

/-- The person's organisation, department and role, deleted or not. -/
def Directory.roomSubject (d : Directory) (userId : ℕ) : Option RoomSubject :=
  (d.users.find? fun u => u.id = userId).map Account.subject

/-- `subjects`, with `SUBJECT_TTL_MS`. -/
def subjectCache :
    TimedCache Directory (Dict ℕ (Option RoomSubject × ℤ)) ℕ (Option RoomSubject) where
  -- a read that fails answers `null`
  reads d userId s := s = none || s = d.roomSubject userId
  ttl := 60000
  fresh now since := !(now - since > 60000)
  lookup c userId := c.get? userId
  keep c userId e := (if c.entries.length > 5000 then .empty else c).set userId e
  fresh_le := by
    intro now since h
    simpa using h
  ttl_nonneg := by decide
  lookup_keep := by
    intro c key e key' e' h
    rw [Dict.get?_set] at h
    split at h
    · next heq => exact .inl ⟨heq, (Option.some.inj h).symm⟩
    · right
      split at h
      · cases h
      · exact h

/-- The rooms that `roomsOfUser` answers with. -/
def roomsOfHit : Option RoomSubject → List Room
  | some s => roomsOfSubject s
  | none => []

/-- The clock, the directories, the map and the calls. -/
abbrev SubjectReads :=
  TimedCache.World Directory (Dict ℕ (Option RoomSubject × ℤ)) ℕ (Option RoomSubject) Unit

inductive SubjectAction
  | tick (now : ℤ)
  | edit (w : AccessWrite)
  /-- `onAccessChanged`. -/
  | publish (userId : ℕ)
  | roomsOfUser (userId : ℕ)
  /-- The read of call `i` answers. -/
  | read (i : ℕ) (value : Option RoomSubject)
  | keep (i : ℕ)

namespace SubjectReads

/-- Nothing is kept yet. -/
def start (clock : ℤ) (d : Directory) : SubjectReads := ⟨clock, d, [], .empty, []⟩

def step (w : SubjectReads) : SubjectAction → Option SubjectReads
  | .tick now => if w.clock ≤ now then some { w with clock := now } else none
  | .edit write => (write.apply w.db).map fun p => w.change p.1
  | .publish userId => some { w with cache := w.cache.delete userId }
  | .roomsOfUser userId => some (subjectCache.ask w userId ())
  | .read i value => subjectCache.fetch w i value
  | .keep i => subjectCache.finish w i fun _ => true

variable {w w' : SubjectReads} {act : SubjectAction} {acts : List SubjectAction}
  {userId : ℕ} {since : ℤ}
  {value : Option RoomSubject}

/-- A step keeps that what a call answers was true a short time ago. -/
theorem recent_step (h : subjectCache.Recent w) (hs : w.step act = some w') :
    subjectCache.Recent w' := by
  cases act with
  | tick now =>
    simp only [step] at hs
    split at hs
    · next hle =>
      cases hs
      exact h.tick hle
    · cases hs
  | edit write =>
    obtain ⟨p, -, rfl⟩ := Option.map_eq_some_iff.1 hs
    exact h.change p.1
  | publish id =>
    cases hs
    refine h.forget fun key e he => ?_
    have he : (w.cache.delete id).get? key = some e := he
    rw [Dict.get?_delete] at he
    split at he
    · cases he
    · exact he
  | roomsOfUser id =>
    cases hs
    exact h.ask id ()
  | read i value => exact h.fetch hs
  | keep i => exact h.finish hs

/-- A live update about a person goes to rooms that the person belonged to at a moment no more than
a minute before it asked, whatever is edited, published and read meanwhile. -/
theorem roomsOfUser_recent {clock : ℤ} {d : Directory}
    (h : Runs.run SubjectReads.step (start clock d) acts = some w)
    (hc : .answered userId since value ∈ w.calls) : ∀ r ∈ roomsOfHit value, ∃ d' : Directory,
      (d' = w.db ∨ ∃ t, (d', t) ∈ w.past ∧ since - 60000 ≤ t) ∧
        ∃ u ∈ d'.users, u.id = userId ∧ r ∈ roomsOfSubject u.subject := by
  have hstart : subjectCache.Recent (start clock d) :=
    ⟨fun _ _ _ hk => (nomatch (show none = some _ from hk)), fun _ hc => absurd hc List.not_mem_nil⟩
  have hrecent :=
    Runs.invariant_run subjectCache.Recent (fun _ _ _ hi _ hs => recent_step hi hs) hstart
    (Runs.Meets.of_forall (fun _ _ => trivial) acts _) h
  have hfound : ∀ d' : Directory, subjectCache.reads d' userId value = true →
    ∀ r ∈ roomsOfHit value, ∃ u ∈ d'.users, u.id = userId ∧ r ∈ roomsOfSubject u.subject := by
    intro d' hreads r hr
    cases value with
    | none => cases hr
    | some s =>
      simp only [subjectCache, reduceCtorEq, decide_false, Bool.false_or,
        decide_eq_true_eq] at hreads
      obtain ⟨u, hu, rfl⟩ := Option.map_eq_some_iff.1 hreads.symm
      have hid := Table.find?_spec hu
      exact ⟨u, Table.mem_of_find? hu, of_decide_eq_true hid, hr⟩
  intro r hr
  rcases hrecent.answered hc with hreads | ⟨⟨d', t⟩, hp, hreads, hle⟩
  · exact ⟨w.db, .inl rfl, hfound w.db hreads r hr⟩
  · exact ⟨d', .inr ⟨t, hp, hle⟩, hfound d' hreads r hr⟩

/-- The rooms of Staff 2 of `smallOrg` are read, and asked for again half a minute later, when the
person has been deleted. -/
def staffMoves : List SubjectAction :=
  [.roomsOfUser 2, .read 0 (some smallStaff.subject), .keep 0, .edit (.deleteUser 2 0), .tick 30000,
    .roomsOfUser 2]

/-- A deletion while the person is read leaves the department's room for as long as the
cache keeps the person. -/
theorem roomsOfUser_afterDelete :
    ∃ w, Runs.run SubjectReads.step (start 0 smallOrg) staffMoves = some w ∧
    .answered 2 30000 (some smallStaff.subject) ∈ w.calls ∧ ∃ d' : Directory,
      (d' = w.db ∨ ∃ t, (d', t) ∈ w.past ∧ 30000 - 60000 ≤ t) ∧
        ∃ u ∈ d'.users, u.id = 2 ∧ Room.dept 0 ∈ roomsOfSubject u.subject := by
  have hrun : Runs.run SubjectReads.step (start 0 smallOrg) staffMoves =
      some ⟨30000, smallOrg.withoutPerson 2 0, [(smallOrg, 0)], _,
        [.answered 2 0 (some smallStaff.subject),
          .answered 2 30000 (some smallStaff.subject)]⟩ := rfl
  have hc : TimedCache.Call.answered 2 30000 (some smallStaff.subject) ∈
      ([.answered 2 0 (some smallStaff.subject), .answered 2 30000 (some smallStaff.subject)] :
        List (TimedCache.Call ℕ (Option RoomSubject) Unit)) := by decide
  exact ⟨_, hrun, hc, roomsOfUser_recent hrun hc (.dept 0) (by decide)⟩

end SubjectReads

end RxVision
