import RxVision.Records.BreakTransactions

/-!
# Breaks as they are read

What each write of the break transactions makes of a break as it is read (`BreakView`), and
which presence sessions belong to which break: the rows of the breaks point at sessions that
exist and belong to one break (`Db.Linked`). A write keeps the pointers (`Db.Frame`) or points
one break at a new session (`Db.Opens`); in both cases the breaks stay linked, and the other
breaks are read as before.
-/

namespace RxVision

/-! ## A break as it is read, under each write -/

namespace BreakView

/-- The presence sessions of the break, each changed by `u`. -/
def withSessions (u : PresenceSession → PresenceSession) (v : BreakView) : BreakView :=
  { v with presence := v.presence.map u, segments := v.segments.map fun sg => (sg.1, sg.2.map u) }

/-- The segments of the break, each changed by `u`. -/
def withSegments (u : BreakSegment → BreakSegment) (v : BreakView) : BreakView :=
  { v with segments := v.segments.map fun sg => (u sg.1, sg.2) }

/-- The record of the break, changed by `f`. -/
def withRecord (f : BreakRecord → BreakRecord) (v : BreakView) : BreakView :=
  { v with record := f v.record }

/-- The presence session `p` is one of the break's. -/
def HasSession (v : BreakView) (p : PresenceSession) : Prop :=
  v.presence = some p ∨ ∃ sg ∈ v.segments, sg.2 = some p

/-- A change of sessions that are none of its own leaves a break alone. -/
theorem withSessions_eq_self {u : PresenceSession → PresenceSession} {v : BreakView}
    (h : ∀ p, v.HasSession p → u p = p) : v.withSessions u = v := by
  have hp : v.presence.map u = v.presence := by
    cases hv : v.presence with
    | none => rfl
    | some p => rw [Option.map_some, h p (Or.inl hv)]
  have hs : v.segments.map (fun sg => (sg.1, sg.2.map u)) = v.segments := by
    conv_rhs => rw [← List.map_id v.segments]
    refine List.map_congr_left ?_
    rintro ⟨g, q⟩ hsg
    cases q with
    | none => rfl
    | some p => simp [h p (Or.inr ⟨_, hsg, rfl⟩)]
  rw [withSessions, hp, hs]

end BreakView

/-- A change of other segments leaves a break alone. -/
theorem BreakView.withSegments_eq_self {u : BreakSegment → BreakSegment} {v : BreakView}
    (h : ∀ sg ∈ v.segments, u sg.1 = sg.1) : v.withSegments u = v := by
  have hs : v.segments.map (fun sg => (u sg.1, sg.2)) = v.segments := by
    conv_rhs => rw [← List.map_id v.segments]
    exact List.map_congr_left fun sg hsg => by rw [h sg hsg, id]
  rw [withSegments, hs]

namespace Db

variable {db : Db} {id : ℕ} {v : BreakView}

/-- A break is read with the record of its id. -/
theorem record_of_breakView (h : db.breakView id = some v) :
    v.record ∈ db.breakRecords ∧ v.record.id = id ∧ v = db.viewOf v.record := by
  obtain ⟨r, hr, rfl⟩ := Option.map_eq_some_iff.1 h
  exact ⟨Table.mem_of_find? hr, id_of_find? hr, rfl⟩

/-- Every record is read. -/
theorem breakView_of_mem {r : BreakRecord} (h : r ∈ db.breakRecords) :
    db.breakView r.id = some (db.viewOf r) :=
  breakView_of_find? (@Table.find?_key _ BreakRecord.id _ _ h)

/-- A presence session that is found after an update is the one before, updated when it was to be.
-/
theorem presenceOf_updateMany {u : PresenceSession → Bool} {f : PresenceSession → PresenceSession}
    {hf : ∀ p, (f p).id = p.id} {k : Option ℕ} :
    presenceOf { db with presence := db.presence.updateMany u f hf } k =
      (db.presenceOf k).map fun p => if u p then f p else p := by
  cases k with
  | none => rfl
  | some k =>
    have hkey : ∀ p, decide ((f p).id = k) = decide (p.id = k) := fun p => by rw [hf]
    exact @Table.find?_updateMany _ _ db.presence _ u f hf hkey

/-- An update of presence sessions, as the breaks read it. -/
theorem breakView_sessions {u : PresenceSession → Bool} {f : PresenceSession → PresenceSession}
    {hf : ∀ p, (f p).id = p.id} :
    breakView { db with presence := db.presence.updateMany u f hf } id =
      (db.breakView id).map (BreakView.withSessions fun p => if u p then f p else p) := by
  rw [breakView, breakView, Option.map_map]
  congr 1
  funext r
  simp only [viewOf, Function.comp, BreakView.withSessions, List.map_map, presenceOf_updateMany]
  rfl

/-- An update of segments that keeps their break and their session, as the breaks read it. -/
theorem breakView_segments {u : BreakSegment → Bool} {f : BreakSegment → BreakSegment}
    {hf : ∀ g, (f g).id = g.id} (hrec : ∀ g, (f g).breakRecordId = g.breakRecordId)
    (hses : ∀ g, (f g).presenceSessionId = g.presenceSessionId) :
    breakView { db with breakSegments := db.breakSegments.updateMany u f hf } id =
      (db.breakView id).map (BreakView.withSegments fun g => if u g then f g else g) := by
  have hrec' : ∀ g, (if u g then f g else g).breakRecordId = g.breakRecordId := fun g => by
    split
    · exact hrec g
    · rfl
  have hses' : ∀ g, (if u g then f g else g).presenceSessionId = g.presenceSessionId := fun g => by
    split
    · exact hses g
    · rfl
  rw [breakView, breakView, Option.map_map]
  congr 1
  funext r
  simp only [viewOf, Function.comp, BreakView.withSegments, List.map_map, Table.updateMany,
    List.filter_map]
  congr 1
  simp only [Function.comp_def, hrec']
  refine List.map_congr_left fun g _ => ?_
  rw [hses']
  rfl

/-- An update of a break record, as the breaks read it: only the one that is updated is read
with other columns. -/
theorem breakView_updateBreak {k : ℕ} {f : BreakRecord → BreakRecord} {hf : ∀ r, (f r).id = r.id} :
    (db.updateBreak k f hf).breakView id =
      (db.breakRecords.find? fun r => r.id = id).map fun r =>
        db.viewOf (if r.id = k then f r else r) := by
  have hfind : ((db.updateBreak k f hf).breakRecords.find? fun r => r.id = id) =
      (db.breakRecords.find? fun r => r.id = id).map fun r => if r.id = k then f r else r := by
    rw [updateBreak, Table.find?_updateMany fun r => by rw [hf]]
    simp
  rw [breakView, hfind, Option.map_map]
  rfl

/-- A break after an update is one before it, updated when it was the one. -/
theorem mem_updateBreak {k : ℕ} {f : BreakRecord → BreakRecord} {hf : ∀ r, (f r).id = r.id}
    {r : BreakRecord} (h : r ∈ (db.updateBreak k f hf).breakRecords) :
    ∃ r₀ ∈ db.breakRecords, r = if r₀.id = k then f r₀ else r₀ := by
  change r ∈ db.breakRecords.updateMany _ f hf at h
  obtain ⟨r₀, hr₀, rfl⟩ := Table.exists_of_mem_updateMany h
  exact ⟨r₀, hr₀, by simp⟩

/-- An update of another break record leaves a break alone. -/
theorem breakView_updateBreak_of_ne {k : ℕ} {f : BreakRecord → BreakRecord}
    {hf : ∀ r, (f r).id = r.id} (hne : id ≠ k) :
    (db.updateBreak k f hf).breakView id = db.breakView id := by
  rw [breakView_updateBreak, breakView]
  cases h : db.breakRecords.find? fun r => r.id = id with
  | none => rfl
  | some r =>
    obtain rfl := id_of_find? h
    rw [Option.map_some, Option.map_some, if_neg hne]

/-- An update of a break's record that keeps its session, as the break is read. -/
theorem breakView_updateBreak_self {f : BreakRecord → BreakRecord} {hf : ∀ r, (f r).id = r.id}
    (hses : ∀ r, (f r).presenceSessionId = r.presenceSessionId) (h : db.breakView id = some v) :
    (db.updateBreak id f hf).breakView id = some (v.withRecord f) := by
  obtain ⟨r, hr, rfl⟩ := Option.map_eq_some_iff.1 h
  obtain rfl := id_of_find? hr
  rw [breakView_updateBreak, hr, Option.map_some, if_pos rfl]
  simp only [viewOf, BreakView.withRecord, hf, hses]

/-! ## Which session runs which break -/

/-- The presence session `p` runs the break `id`, or ran a part of it. -/
def RunsFor (db : Db) (p id : ℕ) : Prop :=
  (∃ r ∈ db.breakRecords, r.id = id ∧ r.presenceSessionId = some p) ∨
    ∃ g ∈ db.breakSegments, g.breakRecordId = id ∧ g.presenceSessionId = some p

/-- The rows of the breaks point at presence sessions that exist, are of type `BREAK` or `LUNCH` and
belong to one break. -/
structure Linked (db : Db) : Prop where
  type : ∀ r ∈ db.breakRecords, r.presenceType ≠ .meeting
  made : ∀ {p id}, db.RunsFor p id → ∃ s ∈ db.presence, s.id = p ∧ s.type ≠ .meeting
  apart : ∀ {p id id'}, db.RunsFor p id → db.RunsFor p id' → id = id'
  segments : ∀ g ∈ db.breakSegments, g.breakRecordId < db.breakRecords.next

/-- A presence session of the break, as the break is read, is a row that runs for this break. -/
theorem runsFor_of_hasSession (h : db.breakView id = some v) {p : PresenceSession}
    (hp : v.HasSession p) : db.RunsFor p.id id ∧ p ∈ db.presence := by
  obtain ⟨hmem, hid, hv⟩ := record_of_breakView h
  rcases hp with hp | ⟨sg, hsg, hp⟩
  · rw [hv] at hp
    obtain ⟨hk, hmem'⟩ := presenceOf_eq_some.1 hp
    exact ⟨Or.inl ⟨v.record, hmem, hid, hk⟩, hmem'⟩
  · rw [hv] at hsg
    obtain ⟨g, hg, rfl⟩ := List.mem_map.1 hsg
    obtain ⟨hg, hgid⟩ := List.mem_filter.1 hg
    obtain ⟨hk, hmem'⟩ := presenceOf_eq_some.1 hp
    exact ⟨Or.inr ⟨g, hg, (of_decide_eq_true hgid).trans hid, hk⟩, hmem'⟩

/-- The pointers of the rows stay: every row is one of before with the pointers it had, no presence
session goes or changes its type. -/
structure Frame (db db' : Db) : Prop where
  records : ∀ r ∈ db'.breakRecords, ∃ r₀ ∈ db.breakRecords,
    r₀.id = r.id ∧ r₀.presenceSessionId = r.presenceSessionId ∧ r₀.presenceType = r.presenceType
  segments : ∀ g ∈ db'.breakSegments, ∃ g₀ ∈ db.breakSegments,
    g₀.breakRecordId = g.breakRecordId ∧ g₀.presenceSessionId = g.presenceSessionId
  presence : ∀ p ∈ db.presence, ∃ p' ∈ db'.presence, p'.id = p.id ∧ p'.type = p.type
  next : db.breakRecords.next ≤ db'.breakRecords.next

/-- Nothing changes. -/
theorem Frame.refl (db : Db) : Frame db db where
  records := fun r hr => ⟨r, hr, rfl, rfl, rfl⟩
  segments := fun g hg => ⟨g, hg, rfl, rfl⟩
  presence := fun p hp => ⟨p, hp, rfl, rfl⟩
  next := le_rfl

/-- What two changes keep of ids, breaks and types, one after the other keeps. -/
theorem Frame.trans {db₁ db₂ db₃ : Db} (h₁ : Frame db₁ db₂) (h₂ : Frame db₂ db₃) :
    Frame db₁ db₃ where
  records := fun r hr => by
    obtain ⟨r₂, hr₂, hid₂, hp₂, ht₂⟩ := h₂.records r hr
    obtain ⟨r₁, hr₁, hid₁, hp₁, ht₁⟩ := h₁.records r₂ hr₂
    exact ⟨r₁, hr₁, hid₁.trans hid₂, hp₁.trans hp₂, ht₁.trans ht₂⟩
  segments := fun g hg => by
    obtain ⟨g₂, hg₂, hid₂, hp₂⟩ := h₂.segments g hg
    obtain ⟨g₁, hg₁, hid₁, hp₁⟩ := h₁.segments g₂ hg₂
    exact ⟨g₁, hg₁, hid₁.trans hid₂, hp₁.trans hp₂⟩
  presence := fun p hp => by
    obtain ⟨p₂, hp₂, hid₂, ht₂⟩ := h₁.presence p hp
    obtain ⟨p₃, hp₃, hid₃, ht₃⟩ := h₂.presence p₂ hp₂
    exact ⟨p₃, hp₃, hid₃.trans hid₂, ht₃.trans ht₂⟩
  next := h₁.next.trans h₂.next

/-- A presence session that runs for a break did so before. -/
theorem RunsFor.of_frame {db' : Db} (hf : Frame db db') {p : ℕ} (h : db'.RunsFor p id) :
    db.RunsFor p id := by
  rcases h with ⟨r, hr, hid, hp⟩ | ⟨g, hg, hid, hp⟩
  · obtain ⟨r₀, hr₀, hid₀, hp₀, -⟩ := hf.records r hr
    exact Or.inl ⟨r₀, hr₀, hid₀.trans hid, hp₀.trans hp⟩
  · obtain ⟨g₀, hg₀, hid₀, hp₀⟩ := hf.segments g hg
    exact Or.inr ⟨g₀, hg₀, hid₀.trans hid, hp₀.trans hp⟩

/-- Presence sessions and breaks stay linked when ids and links stay: no session runs
for two breaks. -/
theorem Linked.of_frame {db' : Db} (h : Linked db) (hf : Frame db db') : Linked db' where
  type := fun r hr => by
    obtain ⟨r₀, hr₀, -, -, ht⟩ := hf.records r hr
    exact ht ▸ h.type r₀ hr₀
  made := fun hr => by
    obtain ⟨s, hs, hid, ht⟩ := h.made (hr.of_frame hf)
    obtain ⟨s', hs', hid', ht'⟩ := hf.presence s hs
    exact ⟨s', hs', hid'.trans hid, ht' ▸ ht⟩
  apart := fun hr hr' => h.apart (hr.of_frame hf) (hr'.of_frame hf)
  segments := fun g hg => by
    obtain ⟨g₀, hg₀, hid, -⟩ := hf.segments g hg
    exact hid ▸ Nat.lt_of_lt_of_le (h.segments g₀ hg₀) hf.next

/-! ### The writes that keep the pointers -/

/-- Presence sessions that are updated keep their id and type, so every link stays. -/
theorem Frame.sessions {u : PresenceSession → Bool} {f : PresenceSession → PresenceSession}
    {hf : ∀ p, (f p).id = p.id} (ht : ∀ p, (f p).type = p.type) :
    Frame db { db with presence := db.presence.updateMany u f hf } where
  records := (Frame.refl db).records
  segments := (Frame.refl db).segments
  presence := fun p hp => by
    have hmem : (if u p then f p else p) ∈ db.presence.updateMany u f hf :=
      Table.mem_updateMany_of_mem hp
    refine ⟨_, hmem, ?_, ?_⟩ <;> split
    exacts [hf p, rfl, ht p, rfl]
  next := le_rfl

/-- Closing a presence session that was read opens nothing. -/
theorem Frame.closeRead {p : Option PresenceSession} {t : ℤ} : Frame db (db.closeRead p t) := by
  unfold Db.closeRead
  split
  · split
    · exact Frame.sessions fun _ => rfl
    · exact Frame.refl db
  · exact Frame.refl db

/-- Segments that are updated keep their break and their session, so every link stays. -/
theorem Frame.segmentRows {u : BreakSegment → Bool} {f : BreakSegment → BreakSegment}
    {hf : ∀ g, (f g).id = g.id} (hrec : ∀ g, (f g).breakRecordId = g.breakRecordId)
    (hses : ∀ g, (f g).presenceSessionId = g.presenceSessionId) :
    Frame db { db with breakSegments := db.breakSegments.updateMany u f hf } where
  records := (Frame.refl db).records
  segments := fun g hg => by
    change g ∈ db.breakSegments.updateMany u f hf at hg
    obtain ⟨g₀, hg₀, rfl⟩ := Table.exists_of_mem_updateMany hg
    refine ⟨g₀, hg₀, ?_, ?_⟩ <;> split
    exacts [(hrec g₀).symm, rfl, (hses g₀).symm, rfl]
  presence := (Frame.refl db).presence
  next := le_rfl

/-- Closing the segments that were read opens nothing. -/
theorem Frame.closeSegmentsRead {read : Db} {t : ℤ} : Frame db (db.closeSegmentsRead read id t) :=
  Frame.segmentRows (fun _ => rfl) fun _ => rfl

/-- An update of a break that keeps its presence session and its type opens nothing. -/
theorem Frame.updateBreak {f : BreakRecord → BreakRecord} {hf : ∀ r, (f r).id = r.id}
    (hp : ∀ r, (f r).presenceSessionId = r.presenceSessionId)
    (ht : ∀ r, (f r).presenceType = r.presenceType) : Frame db (db.updateBreak id f hf) where
  records := fun r hr => by
    obtain ⟨r₀, hr₀, rfl⟩ := mem_updateBreak hr
    refine ⟨r₀, hr₀, ?_, ?_, ?_⟩ <;> split
    exacts [(hf r₀).symm, rfl, (hp r₀).symm, rfl, (ht r₀).symm, rfl]
  segments := (Frame.refl db).segments
  presence := (Frame.refl db).presence
  next := le_rfl

/-- Deleting a break opens nothing. -/
theorem Frame.deleteBreak : Frame db (db.deleteBreak id) where
  records := fun r hr => ⟨r, (Table.mem_deleteMany.1 hr).1, rfl, rfl, rfl⟩
  segments := fun g hg => ⟨g, (Table.mem_deleteMany.1 hg).1, rfl, rfl⟩
  presence := (Frame.refl db).presence
  next := le_rfl

/-! ### The writes that open a session -/

variable {type : PresenceType} {day : DateKey} {t : ℤ}

/-- The presence session that `openSegment` creates. -/
def openedSession (db : Db) (type : PresenceType) (day : DateKey) (t : ℤ) : PresenceSession :=
  { id := db.presence.next, type, date := day, startedAt := t }

/-- The segment that `openSegment` creates. -/
def openedSegment (db : Db) (id : ℕ) (t : ℤ) : BreakSegment :=
  { id := db.breakSegments.next, breakRecordId := id, presenceSessionId := some db.presence.next
    startedAt := t }

/-- The segments of the break `id` with their sessions. -/
def segmentsWith (db : Db) (id : ℕ) : List (BreakSegment × Option PresenceSession) :=
  (db.breakSegments.rows.filter fun g => g.breakRecordId = id).map fun g =>
    (g, db.presenceOf g.presenceSessionId)

/-- A new segment comes with a new presence session. -/
theorem mem_openSegment_presence {s : PresenceSession} :
    s ∈ (db.openSegment id type day t).presence ↔
      s ∈ db.presence ∨ s = db.openedSession type day t :=
  Table.mem_create

/-- A new segment is one more segment. -/
theorem mem_openSegment_breakSegments {g : BreakSegment} :
    g ∈ (db.openSegment id type day t).breakSegments ↔
      g ∈ db.breakSegments ∨ g = db.openedSegment id t :=
  Table.mem_create

/-- A row that points at a session keeps it when another session is opened. -/
theorem presenceOf_openSegment {k : Option ℕ} (hk : ∀ p, k = some p → ∃ s ∈ db.presence, s.id = p) :
    (db.openSegment id type day t).presenceOf k = db.presenceOf k := by
  cases k with
  | none => rfl
  | some p =>
    obtain ⟨s, hs, rfl⟩ := hk p rfl
    rw [presenceOf_eq_some.2 ⟨rfl, hs⟩,
      presenceOf_eq_some.2 ⟨rfl, mem_openSegment_presence.2 (Or.inl hs)⟩]

/-- The session that was opened is found by its id. -/
theorem presenceOf_openedSession :
    (db.openSegment id type day t).presenceOf (some db.presence.next) =
      some (db.openedSession type day t) :=
  presenceOf_eq_some.2 ⟨rfl, mem_openSegment_presence.2 (Or.inr rfl)⟩

/-- The break gets the new segment with the new session, and the others keep theirs. -/
theorem segmentsWith_openSegment (h : Linked db) {k : ℕ} :
    (db.openSegment k type day t).segmentsWith id =
      db.segmentsWith id ++
        if id = k then [(db.openedSegment k t, some (db.openedSession type day t))] else [] := by
  have hold : ∀ g ∈ db.breakSegments.rows.filter fun g => g.breakRecordId = id,
      (g, (db.openSegment k type day t).presenceOf g.presenceSessionId) =
        (g, db.presenceOf g.presenceSessionId) := fun g hg => by
    rw [presenceOf_openSegment fun p hp => ?_]
    obtain ⟨s, hs, hid, -⟩ := h.made (Or.inr ⟨g, (List.mem_filter.1 hg).1, rfl, hp⟩)
    exact ⟨s, hs, hid⟩
  have hrows : (db.openSegment k type day t).breakSegments.rows =
      db.breakSegments.rows ++ [db.openedSegment k t] := rfl
  rw [segmentsWith, hrows, List.filter_append, List.map_append, List.map_congr_left hold,
    ← segmentsWith]
  congr 1
  rcases eq_or_ne id k with rfl | hne
  · rw [if_pos rfl, List.filter_cons_of_pos (by simp [openedSegment]), List.filter_nil]
    exact congrArg (fun p => [(db.openedSegment id t, p)]) presenceOf_openedSession
  · rw [if_neg hne, List.filter_cons_of_neg (by simp [openedSegment, hne.symm])]
    rfl

/-- A break that gets no segment is read as before, since the new session is nobody else's. -/
theorem breakView_openSegment_of_ne (h : Linked db) {k : ℕ} (hne : id ≠ k) :
    (db.openSegment k type day t).breakView id = db.breakView id := by
  have hfind : ((db.openSegment k type day t).breakRecords.find? fun r => r.id = id) =
      db.breakRecords.find? fun r => r.id = id := rfl
  rw [breakView, breakView, hfind]
  cases hr : db.breakRecords.find? fun r => r.id = id with
  | none => rfl
  | some r =>
    obtain rfl := id_of_find? hr
    have hp : (db.openSegment k type day t).presenceOf r.presenceSessionId =
        db.presenceOf r.presenceSessionId := presenceOf_openSegment fun p hp => by
      obtain ⟨s, hs, hid, -⟩ := h.made (Or.inl ⟨r, Table.mem_of_find? hr, rfl, hp⟩)
      exact ⟨s, hs, hid⟩
    have hs : (db.openSegment k type day t).segmentsWith r.id = db.segmentsWith r.id := by
      rw [segmentsWith_openSegment h, if_neg hne, List.append_nil]
    rw [Option.map_some, Option.map_some, viewOf, hp, ← segmentsWith, hs]
    rfl

/-- The break `k` gets the new presence session, in its record and in a segment. -/
structure Opens (db db' : Db) (k : ℕ) : Prop where
  records : ∀ r ∈ db'.breakRecords, r.presenceType ≠ .meeting ∧
    (r ∈ db.breakRecords ∨ r.id = k ∧ r.presenceSessionId = some db.presence.next)
  segments : ∀ g ∈ db'.breakSegments, g ∈ db.breakSegments ∨
    g.breakRecordId = k ∧ g.presenceSessionId = some db.presence.next
  presence : ∀ s ∈ db.presence, s ∈ db'.presence
  opened : ∃ s ∈ db'.presence, s.id = db.presence.next ∧ s.type ≠ .meeting
  next : k < db'.breakRecords.next ∧ db.breakRecords.next ≤ db'.breakRecords.next

/-- Tables with the segment and the session of `openSegment` have one new session, of the break
it was opened for. -/
theorem Opens.of_openSegment {db' : Db} {k : ℕ}
    (hsegments : db'.breakSegments = (db.openSegment k type day t).breakSegments)
    (hpresence : db'.presence = (db.openSegment k type day t).presence) (htype : type ≠ .meeting)
    (hrecords : ∀ r ∈ db'.breakRecords, r.presenceType ≠ .meeting ∧
      (r ∈ db.breakRecords ∨ r.id = k ∧ r.presenceSessionId = some db.presence.next))
    (hnext : k < db'.breakRecords.next ∧ db.breakRecords.next ≤ db'.breakRecords.next) :
    Opens db db' k where
  records := hrecords
  segments := fun g hg => by
    rw [hsegments] at hg
    rcases mem_openSegment_breakSegments.1 hg with hg | rfl
    · exact Or.inl hg
    · exact Or.inr ⟨rfl, rfl⟩
  presence := fun s hs => hpresence ▸ mem_openSegment_presence.2 (Or.inl hs)
  opened := ⟨db.openedSession type day t, hpresence ▸ mem_openSegment_presence.2 (Or.inr rfl), rfl,
    htype⟩
  next := hnext

/-- What runs for a break did so before, or is the new presence session of its break. -/
theorem RunsFor.of_opens {db' : Db} {k p : ℕ} (ho : Opens db db' k) (h : db'.RunsFor p id) :
    db.RunsFor p id ∨ p = db.presence.next ∧ id = k := by
  rcases h with ⟨r, hr, hid, hp⟩ | ⟨g, hg, hid, hp⟩
  · rcases (ho.records r hr).2 with hr | ⟨hk, hn⟩
    · exact Or.inl (Or.inl ⟨r, hr, hid, hp⟩)
    · exact Or.inr ⟨Option.some.inj (hp.symm.trans hn), hid.symm.trans hk⟩
  · rcases ho.segments g hg with hg | ⟨hk, hn⟩
    · exact Or.inl (Or.inr ⟨g, hg, hid, hp⟩)
    · exact Or.inr ⟨Option.some.inj (hp.symm.trans hn), hid.symm.trans hk⟩

/-- The new session runs no break yet. -/
theorem Linked.not_runsFor_next (h : Linked db) : ¬ db.RunsFor db.presence.next id := fun hr => by
  obtain ⟨s, hs, hid, -⟩ := h.made hr
  exact Table.key_ne_next hs hid

/-- A break that opens a presence session stays linked to it, and so do the others to theirs. -/
theorem Linked.of_opens {db' : Db} {k : ℕ} (h : Linked db) (ho : Opens db db' k) : Linked db' where
  type := fun r hr => (ho.records r hr).1
  made := fun hr => by
    rcases hr.of_opens ho with hr | ⟨rfl, -⟩
    · obtain ⟨s, hs, hid, ht⟩ := h.made hr
      exact ⟨s, ho.presence s hs, hid, ht⟩
    · exact ho.opened
  apart := fun hr hr' => by
    rcases hr.of_opens ho with hr | ⟨rfl, rfl⟩ <;> rcases hr'.of_opens ho with hr' | ⟨hp, rfl⟩
    · exact h.apart hr hr'
    · exact (h.not_runsFor_next (hp ▸ hr)).elim
    · exact (h.not_runsFor_next hr').elim
    · rfl
  segments := fun g hg => by
    rcases ho.segments g hg with hg | ⟨hk, -⟩
    · exact Nat.lt_of_lt_of_le (h.segments g hg) ho.next.2
    · exact hk ▸ ho.next.1

end Db

end RxVision
