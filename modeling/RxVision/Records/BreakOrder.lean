import RxVision.Records.BreakViews

/-!
# Breaks in order

What holds of a break in each of its states (`BreakView.InOrder`), and that the break transactions
keep it. A transaction without the lock ends one break and changes nothing else (`EndsBreak`), when
it read that break as it is. A transaction under the lock keeps every break in order from reads that
may be older than its commit: what it has read of a break still holds, or the break was ended in
between (`Db.Since`).
-/

namespace RxVision

/-! ## Breaks in order -/

namespace BreakView

/-- A segment with its session is closed, as stored and as read, and ended at `e`. -/
def SegmentEnds (sg : BreakSegment × Option PresenceSession) (e : ℤ) : Prop :=
  sg.1.endedAt.isSome ∧ ∃ p, sg.2 = some p ∧ p.endedAt = some e

/-- Nothing of the break is open. -/
structure Over (v : BreakView) : Prop where
  presence : ∀ p, v.presence = some p → p.endedAt.isSome
  segments : ∀ sg ∈ v.segments, ∃ e, SegmentEnds sg e

/-- What holds of a break in each of its states: a running one has at most its own session open, a
paused one is over, and so is an ended one, whose end is not before the end of a segment. -/
def InOrder (v : BreakView) : Prop :=
  match v.record.state with
  | .active => ∃ p, v.presence = some p ∧
      ∀ sg ∈ v.segments, ∃ q, sg.2 = some q ∧ (q = p ∨ q.endedAt.isSome)
  | .paused => v.Over
  | .ended => v.Over ∧
      ∀ sg ∈ v.segments, ∀ e, SegmentEnds sg e → ∃ E, v.record.endedAt = some E ∧ e ≤ E

variable {v : BreakView}

/-- An active break is in order when its presence session is there and every other segment has
ended. -/
theorem inOrder_active (hs : v.record.state = .active) :
    v.InOrder ↔ ∃ p, v.presence = some p ∧
      ∀ sg ∈ v.segments, ∃ q, sg.2 = some q ∧ (q = p ∨ q.endedAt.isSome) := by
  rw [InOrder, hs]

/-- A paused break is in order when everything of it is over. -/
theorem inOrder_paused (hs : v.record.state = .paused) : v.InOrder ↔ v.Over := by
  rw [InOrder, hs]

/-- An ended break is in order when everything of it is over by its end. -/
theorem inOrder_ended (hs : v.record.state = .ended) :
    v.InOrder ↔ v.Over ∧
      ∀ sg ∈ v.segments, ∀ e, SegmentEnds sg e → ∃ E, v.record.endedAt = some E ∧ e ≤ E := by
  rw [InOrder, hs]

/-- A break that is not running is over. -/
theorem InOrder.over (h : v.InOrder) (hs : v.record.state ≠ .active) : v.Over := by
  cases hst : v.record.state with
  | active => exact absurd hst hs
  | paused => exact (inOrder_paused hst).1 h
  | ended => exact ((inOrder_ended hst).1 h).1

/-- Every session of a break that is over has ended. -/
theorem Over.hasSession (h : v.Over) {p : PresenceSession} (hp : v.HasSession p) :
    p.endedAt.isSome := by
  rcases hp with hp | ⟨sg, hsg, hp⟩
  · exact h.presence p hp
  · obtain ⟨e, -, q, hq, he⟩ := h.segments sg hsg
    obtain rfl := Option.some.inj (hq.symm.trans hp)
    simp [he]

/-- Closing sessions that are open keeps a break in order: those that have ended stay as they are,
and none is opened again. -/
theorem InOrder.withSessions {u : PresenceSession → PresenceSession} (h : v.InOrder)
    (hopen : ∀ p, v.HasSession p → p.endedAt.isSome → u p = p)
    (hclose : ∀ p, p.endedAt.isSome → (u p).endedAt.isSome) : (v.withSessions u).InOrder := by
  cases hs : v.record.state with
  | active =>
    obtain ⟨p, hp, hseg⟩ := (inOrder_active hs).1 h
    have hs' : (v.withSessions u).record.state = .active := hs
    refine (inOrder_active hs').2 ⟨u p, congrArg (Option.map u) hp, fun sg hsg => ?_⟩
    obtain ⟨sg', hsg', rfl⟩ := List.mem_map.1 hsg
    obtain ⟨q, hq, hq'⟩ := hseg sg' hsg'
    exact ⟨u q, congrArg (Option.map u) hq, hq'.imp (congrArg u) (hclose q)⟩
  | paused | ended =>
    have hover := h.over (by rw [hs]; simp)
    rwa [withSessions_eq_self fun p hp => hopen p hp (hover.hasSession hp)]

end BreakView

/-- The rows of the breaks are linked, and every break is in order. -/
structure Db.BreaksOk (db : Db) : Prop where
  linked : db.Linked
  view : ∀ {id v}, db.breakView id = some v → v.InOrder

/-- `w` is the break `v` ended: with the session it had and, when it was not
running, its segments. -/
structure BreakView.EndedAs (v w : BreakView) : Prop where
  state : w.record.state = .ended
  session : w.record.presenceSessionId = v.record.presenceSessionId
  type : w.record.presenceType = v.record.presenceType
  segments : v.record.state ≠ .active → w.segments = v.segments

/-- What a transaction under the lock may rely on: since it read `s`, no presence session went or
changed its type, and a break is as it was or was ended. -/
structure Db.Since (s c : Db) : Prop where
  type : ∀ p ∈ s.presence, ∃ q ∈ c.presence, q.id = p.id ∧ q.type = p.type
  view : ∀ id, s.breakView id = c.breakView id ∨
    ∃ v w, s.breakView id = some v ∧ c.breakView id = some w ∧ v.EndedAs w

/-- Nothing happened since. -/
theorem Db.Since.refl (c : Db) : c.Since c where
  type := fun p hp => ⟨p, hp, rfl, rfl⟩
  view := fun _ => Or.inl rfl

/-- The break `id` is ended, and nothing else happens to the breaks. -/
structure EndsBreak (c c' : Db) (id : ℕ) : Prop where
  frame : c.Frame c'
  other : ∀ {k}, k ≠ id → c'.breakView k = c.breakView k
  self : ∃ v w, c.breakView id = some v ∧ c'.breakView id = some w ∧ w.InOrder ∧ v.EndedAs w

namespace EndsBreak

variable {s c c' : Db} {id : ℕ}

/-- Ending one break keeps all breaks in order. -/
theorem breaksOk (he : EndsBreak c c' id) (h : c.BreaksOk) : c'.BreaksOk where
  linked := h.linked.of_frame he.frame
  view := fun {k v} hv => by
    rcases eq_or_ne k id with rfl | hne
    · obtain ⟨-, w, -, hw, hin, -⟩ := he.self
      rwa [← Option.some.inj (hw.symm.trans hv)]
    · exact h.view ((he.other hne).symm.trans hv)

/-- What was read before one break ended is still so afterwards, as far as the other breaks and the
sessions' types go. -/
theorem since (he : EndsBreak c c' id) (hs : s.Since c) : s.Since c' where
  type := fun p hp => by
    obtain ⟨q, hq, hid, ht⟩ := hs.type p hp
    obtain ⟨q', hq', hid', ht'⟩ := he.frame.presence q hq
    exact ⟨q', hq', hid'.trans hid, ht'.trans ht⟩
  view := fun k => by
    rcases eq_or_ne k id with rfl | hne
    · obtain ⟨v, w, hv, hw, -, hend⟩ := he.self
      rcases hs.view k with heq | ⟨v₀, v', hv₀, hv', hend'⟩
      · exact Or.inr ⟨v, w, heq.trans hv, hw, hend⟩
      · -- ended before: it stays ended, with the segments it had
        obtain rfl := Option.some.inj (hv'.symm.trans hv)
        have hseg := hend.segments (by rw [hend'.state]; simp)
        exact Or.inr ⟨v₀, w, hv₀, hw, hend.state, hend.session.trans hend'.session,
          hend.type.trans hend'.type, fun h₀ => hseg.trans (hend'.segments h₀)⟩
    · rw [he.other hne]
      exact hs.view k

end EndsBreak

/-! ## What `pause` and `markEnded` close -/

/-- The presence session `s` is closed by `closeRead`: it was read as `p`, open. -/
def closes (p : Option PresenceSession) (s : PresenceSession) : Bool :=
  p.any fun p => p.endedAt.isNone ∧ s.id = p.id

/-- What `closeRead` makes of a presence session. -/
def closing (p : Option PresenceSession) (t : ℤ) (s : PresenceSession) : PresenceSession :=
  if closes p s then
    { s with endedAt := some t, durationSec := some (elapsedSec s.startedAt t) }
  else s

/-- The segment `g` is closed by `closeSegmentsRead`. -/
def closesSegment (read : Db) (id : ℕ) (g : BreakSegment) : Bool :=
  g.breakRecordId = id ∧ g.endedAt.isNone ∧
    read.breakSegments.rows.any fun h => h.id = g.id ∧ h.endedAt.isNone

/-- What `closeSegmentsRead` makes of a segment. -/
def closingSegment (read : Db) (id : ℕ) (t : ℤ) (g : BreakSegment) : BreakSegment :=
  if closesSegment read id g then { g with endedAt := some t } else g

/-- A break once `pause` or `markEnded` has closed its session, read as `p`, and its segments. -/
def BreakView.closed (v : BreakView) (p : Option PresenceSession) (read : Db) (id : ℕ) (t : ℤ) :
    BreakView :=
  (v.withSessions (closing p t)).withSegments (closingSegment read id t)

section

variable {c read : Db} {id k : ℕ} {p : Option PresenceSession} {t : ℤ} {v : BreakView}

/-- Closing a presence session that was read changes its own row only, by the columns
of the update. -/
theorem closeRead_eq : c.closeRead p t =
    { c with
      presence := c.presence.updateMany (closes p)
        (fun s => { s with endedAt := some t, durationSec := some (elapsedSec s.startedAt t) })
        fun _ => rfl } := by
  unfold Db.closeRead
  cases p with
  | none =>
    rw [Table.updateMany_eq_self fun s _ hs => by simp [closes] at hs]
  | some p =>
    cases hopen : p.endedAt with
    | none =>
      have hcloses : closes (some p) = fun s => decide (s.id = p.id) := by
        funext s
        simp [closes, hopen]
      simp only [hopen, hcloses]
      rfl
    | some e =>
      rw [Table.updateMany_eq_self fun s _ hs => by simp [closes, hopen] at hs]
      simp [hopen]

/-- What `pause` and `markEnded` close, as the breaks read it: the session of the break and the
sessions of its segments. -/
theorem breakView_closes : ((c.closeRead p t).closeSegmentsRead read k t).breakView id =
    (c.breakView id).map fun v => v.closed p read k t := by
  have hsegments : ((c.closeRead p t).closeSegmentsRead read k t).breakView id =
      ((c.closeRead p t).breakView id).map (BreakView.withSegments (closingSegment read k t)) :=
    Db.breakView_segments (fun _ => rfl) fun _ => rfl
  have hsessions : (c.closeRead p t).breakView id =
      (c.breakView id).map (BreakView.withSessions (closing p t)) := by
    rw [closeRead_eq]
    exact Db.breakView_sessions
  rw [hsegments, hsessions, Option.map_map]
  rfl

/-- A segment of a break, as it is read, is a row of the break together with the session that
the row points at. -/
theorem segment_of_breakView (h : c.breakView id = some v)
    {sg : BreakSegment × Option PresenceSession}
    (hsg : sg ∈ v.segments) : sg.1 ∈ c.breakSegments ∧ sg.1.breakRecordId = id ∧
      sg.2 = c.presenceOf sg.1.presenceSessionId := by
  obtain ⟨-, hid, hv⟩ := Db.record_of_breakView h
  rw [hv] at hsg
  obtain ⟨g, hg, rfl⟩ := List.mem_map.1 hsg
  obtain ⟨hg, hgid⟩ := List.mem_filter.1 hg
  exact ⟨hg, (of_decide_eq_true hgid).trans hid, rfl⟩

/-- The closes of one break leave the others alone, since a presence session runs for
one break only. -/
theorem closed_of_ne (h : c.Linked) (hv : c.breakView id = some v) (hne : id ≠ k)
    (hp : ∀ s, p = some s → c.RunsFor s.id k) : v.closed p read k t = v := by
  have hsessions : v.withSessions (closing p t) = v :=
    BreakView.withSessions_eq_self fun q hq => by
      rw [closing, if_neg]
      intro hcloses
      obtain ⟨s, hs, hcond⟩ := (Option.any_eq_true _ _).1 hcloses
      have hid : q.id = s.id := (of_decide_eq_true hcond).2
      exact hne (h.apart (hid ▸ (Db.runsFor_of_hasSession hv hq).1) (hp s hs))
  rw [BreakView.closed, hsessions]
  refine BreakView.withSegments_eq_self fun sg hsg => ?_
  rw [closingSegment, if_neg]
  intro hcloses
  have hk : sg.1.breakRecordId = k := (of_decide_eq_true hcloses).1
  exact hne ((segment_of_breakView hv hsg).2.1.symm.trans hk)

/-- What closes a break and updates its record leaves the other breaks as they are read. -/
theorem breakView_closes_updateBreak_of_ne {f : BreakRecord → BreakRecord}
    {hf : ∀ r, (f r).id = r.id}
    (h : c.Linked) (hp : ∀ s, p = some s → c.RunsFor s.id k) (hne : id ≠ k) :
    (((c.closeRead p t).closeSegmentsRead read k t).updateBreak k f hf).breakView id =
      c.breakView id := by
  rw [Db.breakView_updateBreak_of_ne hne, breakView_closes]
  cases hv : c.breakView id with
  | none => rfl
  | some v => rw [Option.map_some, closed_of_ne h hv hne hp]

/-- A session that has ended, or was read as it is and so is closed, has an end afterwards. -/
theorem closing_isSome {s : PresenceSession} (h : s.endedAt.isSome ∨ p = some s) :
    (closing p t s).endedAt.isSome := by
  rw [closing]
  split
  · rfl
  · rename_i hnot
    rcases h with h | rfl
    · exact h
    · cases hs : s.endedAt with
      | none => simp [closes, hs] at hnot
      | some e => rfl

/-- A break is over once what was open of it, its own session and those of its
segments, has been closed. -/
theorem over_closed (hp : ∀ s, v.presence = some s → s.endedAt.isSome ∨ p = some s)
    (hseg : ∀ sg ∈ v.segments, (sg.1.endedAt.isSome ∨ closesSegment read id sg.1) ∧
      ∃ q, sg.2 = some q ∧ (q.endedAt.isSome ∨ p = some q)) : (v.closed p read id t).Over where
  presence := fun s hs => by
    obtain ⟨s', hs', rfl⟩ := Option.map_eq_some_iff.1 hs
    exact closing_isSome (hp s' hs')
  segments := fun sg hsg => by
    obtain ⟨sg₁, hsg₁, rfl⟩ := List.mem_map.1 hsg
    obtain ⟨sg₀, hsg₀, rfl⟩ := List.mem_map.1 hsg₁
    obtain ⟨hg, q, hq, hend⟩ := hseg sg₀ hsg₀
    obtain ⟨e, he⟩ := Option.isSome_iff_exists.1 (closing_isSome (t := t) hend)
    refine ⟨e, ?_, closing p t q, congrArg (Option.map _) hq, he⟩
    change (closingSegment read id t sg₀.1).endedAt.isSome
    rw [closingSegment]
    split
    · rfl
    · exact hg.resolve_right ‹_›

/-- A break that is over stays over. -/
theorem over_closed_of_over (h : v.Over) : (v.closed p read id t).Over :=
  over_closed (fun s hs => Or.inl (h.presence s hs)) fun sg hsg => by
    obtain ⟨e, hg, q, hq, he⟩ := h.segments sg hsg
    exact ⟨Or.inl hg, q, hq, Or.inl (by simp [he])⟩

/-- A running break that was read as it is is over once it has been closed: nothing of it
was opened since. -/
theorem over_closed_of_read (hr : read.breakView id = some v) (h : v.InOrder)
    (hs : v.record.state = .active) : (v.closed v.presence read id t).Over := by
  obtain ⟨p, hp, hseg⟩ := (BreakView.inOrder_active hs).1 h
  refine over_closed (fun s hs => Or.inr hs) fun sg hsg => ⟨?_, ?_⟩
  · obtain ⟨hg, hgid, -⟩ := segment_of_breakView hr hsg
    cases he : sg.1.endedAt with
    | some e => exact Or.inl rfl
    | none =>
      refine Or.inr (decide_eq_true ⟨hgid, by rw [he]; rfl, ?_⟩)
      exact List.any_eq_true.2 ⟨sg.1, hg, by simp [he]⟩
  · obtain ⟨q, hq, hq'⟩ := hseg sg hsg
    exact ⟨q, hq, hq'.symm.imp_right fun hq' => by rw [hp, hq']⟩

/-- Nothing of a break that is over is closed by what was read closed, so the writes
leave it alone. -/
theorem closed_eq_self (h : v.Over) (hp : ∀ s, p = some s → s.endedAt.isSome) :
    v.closed p read id t = v := by
  have hsessions : v.withSessions (closing p t) = v :=
    BreakView.withSessions_eq_self fun q _ => by
      rw [closing, if_neg]
      intro hcloses
      obtain ⟨s, hs, hcond⟩ := (Option.any_eq_true _ _).1 hcloses
      obtain ⟨e, he⟩ := Option.isSome_iff_exists.1 (hp s hs)
      simp [he] at hcond
  rw [BreakView.closed, hsessions]
  refine BreakView.withSegments_eq_self fun sg hsg => ?_
  rw [closingSegment, if_neg]
  intro hcloses
  obtain ⟨-, hg, -⟩ := h.segments sg hsg
  have hopen := (of_decide_eq_true hcloses).2.1
  obtain ⟨e', he'⟩ := Option.isSome_iff_exists.1 hg
  simp [he'] at hopen

/-! ## Ending a break -/

/-- The end of a segment is at most the last one, which `endPausedTx` writes as the
end of the break. -/
theorem le_lastEnd {sg : BreakSegment × Option PresenceSession} {e : ℤ} (hsg : sg ∈ v.segments)
    (he : BreakView.SegmentEnds sg e) : e ≤ v.lastEnd := by
  obtain ⟨-, p, hp, hend⟩ := he
  have hmem : e ∈ (v.segments.map BreakView.rowOf).filterMap BreakSegmentRow.endedAt := by
    refine List.mem_filterMap.2 ⟨BreakView.rowOf sg, List.mem_map_of_mem hsg, ?_⟩
    obtain ⟨g, q⟩ := sg
    cases hp
    exact hend
  exact Spans.le_lastOr hmem

/-- `endPausedTx` ends a break that is over, when it has read the segments as they are. -/
theorem endsBreak_endPausedRead {v₀ : BreakView} (hv : c.breakView id = some v) (hover : v.Over)
    (hpaused : v₀.record.state = .paused) (hseg : v.segments = v₀.segments) :
    EndsBreak c (c.endPausedRead (some v₀) id t) id := by
  have heq : c.endPausedRead (some v₀) id t =
      c.updateBreak id (Db.endsAt v₀.lastEnd (v₀.takenSecOf t)) fun _ => rfl :=
    if_neg (not_not.2 hpaused)
  rw [heq]
  refine ⟨Db.Frame.updateBreak (fun _ => rfl) fun _ => rfl,
    fun hne => Db.breakView_updateBreak_of_ne hne, v, _, hv,
    Db.breakView_updateBreak_self (fun _ => rfl) hv, ?_, ⟨rfl, rfl, rfl, fun _ => rfl⟩⟩
  rw [BreakView.inOrder_ended rfl]
  refine ⟨⟨hover.presence, hover.segments⟩, fun sg hsg e he => ?_⟩
  have hsg₀ : sg ∈ v₀.segments := hseg ▸ hsg
  exact ⟨_, rfl, le_lastEnd hsg₀ he⟩

/-- `markEnded` does not end the break before an earlier segment of it: every segment that has ended
did so by the end of the break's own session, which is `t` when that one is still open. -/
def BreakView.EndsBy (v : BreakView) (t : ℤ) : Prop :=
  ∀ sg ∈ v.segments, ∀ q e, sg.2 = some q → q.endedAt = some e →
    e ≤ (v.presence.bind PresenceSession.endedAt).getD t

/-- The end that `markEnded` writes for a running break: its session's, `t` when it was open. -/
theorem breakEnd_closed {s : PresenceSession} (hp : v.presence = some s) :
    (v.closed v.presence read id t).breakEnd = some (s.endedAt.getD t) := by
  have hpres : (v.closed v.presence read id t).presence = some (closing v.presence t s) :=
    congrArg (Option.map _) hp
  rw [BreakView.breakEnd, hpres, hp]
  cases hs : s.endedAt with
  | none => simp [closing, closes, hs]
  | some e => simp [closing, closes, hs]

/-- The segments of a running break that `markEnded` closes end by the end it writes, when they end
by the time it was called with. -/
theorem le_of_segmentEnds_closed {s : PresenceSession} (hp : v.presence = some s)
    (hends : v.EndsBy t)
    {sg : BreakSegment × Option PresenceSession}
      (hsg : sg ∈ (v.closed v.presence read id t).segments)
    {e : ℤ} (he : BreakView.SegmentEnds sg e) : e ≤ s.endedAt.getD t := by
  obtain ⟨sg₁, hsg₁, rfl⟩ := List.mem_map.1 hsg
  obtain ⟨sg₀, hsg₀, rfl⟩ := List.mem_map.1 hsg₁
  obtain ⟨-, q', hq', hend⟩ := he
  obtain ⟨q, hq, rfl⟩ := Option.map_eq_some_iff.1 hq'
  have hby := hends sg₀ hsg₀ q e hq
  rw [closing] at hend
  rw [hp] at hend hby
  split at hend
  · -- the break's own session, which was open
    rename_i hcloses
    have hnone : s.endedAt = none := by
      have := (of_decide_eq_true hcloses).1
      simpa using this
    rw [hnone, Option.getD_none]
    exact le_of_eq (Option.some.inj hend).symm
  · exact hby hend

/-- `markEnded` ends a break that it read as it is, paused or running, and writes an end that none
of its segments passes. -/
theorem endsBreak_markEnded (h : c.BreaksOk) (hv : c.breakView id = some v)
    (hr : read.breakView id = some v) (hstate : v.record.state ≠ .paused)
    (hnot : v.record.state ≠ .ended ∨ v.record.endedAt = none)
    (hends : v.record.state = .active → v.EndsBy t) {taken : ℤ} :
    EndsBreak c (((c.closeRead v.presence t).closeSegmentsRead read id t).updateBreak id
      (Db.endsAt ((v.closed v.presence read id t).breakEnd.getD t) taken) fun _ => rfl) id := by
  have hin := h.view hv
  have hown : ∀ s, v.presence = some s → c.RunsFor s.id id := fun s hs =>
    (Db.runsFor_of_hasSession hv (Or.inl hs)).1
  have hclosed : ((c.closeRead v.presence t).closeSegmentsRead read id t).breakView id =
      some (v.closed v.presence read id t) := by
    rw [breakView_closes, hv]
    rfl
  refine ⟨(Db.Frame.closeRead.trans Db.Frame.closeSegmentsRead).trans
      (Db.Frame.updateBreak (fun _ => rfl) fun _ => rfl),
    fun hne => breakView_closes_updateBreak_of_ne h.linked hown hne, v, _, hv,
    Db.breakView_updateBreak_self (fun _ => rfl) hclosed, ?_, ⟨rfl, rfl, rfl, fun hs => ?_⟩⟩
  · cases hst : v.record.state with
    | paused => exact absurd hst hstate
    | active =>
      have hover : (v.closed v.presence read id t).Over := over_closed_of_read hr hin hst
      obtain ⟨s, hs, -⟩ := (BreakView.inOrder_active hst).1 hin
      rw [BreakView.inOrder_ended rfl]
      refine ⟨⟨hover.presence, hover.segments⟩, fun sg hsg e he => ⟨_, rfl, ?_⟩⟩
      rw [breakEnd_closed hs, Option.getD_some]
      exact le_of_segmentEnds_closed hs (hends hst) hsg he
    | ended =>
      have hover := hin.over (by rw [hst]; simp)
      have hself : v.closed v.presence read id t = v := closed_eq_self hover hover.presence
      refine (BreakView.inOrder_ended rfl).2 ⟨?_, fun sg hsg e he => ?_⟩
      · rw [hself]
        exact ⟨hover.presence, hover.segments⟩
      · -- a break that ended with a segment has its end
        rw [hself] at hsg
        obtain ⟨E, hE, -⟩ := ((BreakView.inOrder_ended hst).1 hin).2 sg hsg e he
        have hnone := hnot.resolve_left (not_not.2 hst)
        rw [hnone] at hE
        cases hE
  · have hover := hin.over hs
    have hself : v.closed v.presence read id t = v := closed_eq_self hover hover.presence
    change (v.closed v.presence read id t).segments = v.segments
    rw [hself]

/-! ## Under the lock -/

/-- The presence session of a break that is read again as it was. -/
theorem presenceOf_read (h : read.breakView id = some v) :
    read.presenceOf v.record.presenceSessionId = v.presence := by
  obtain ⟨-, -, hv⟩ := Db.record_of_breakView h
  rw [hv]
  rfl

/-- `pause` leaves the breaks in order when it closes all that is open of the break and touches no
session of another one. -/
theorem breaksOk_pauses (h : c.BreaksOk) (hv : c.breakView id = some v)
    (hp : ∀ s, p = some s → c.RunsFor s.id id) (hover : (v.closed p read id t).Over) :
    (((c.closeRead p t).closeSegmentsRead read id t).updateBreak id
      (fun b => { b with state := .paused }) fun _ => rfl).BreaksOk where
  linked := h.linked.of_frame ((Db.Frame.closeRead.trans Db.Frame.closeSegmentsRead).trans
    (Db.Frame.updateBreak (fun _ => rfl) fun _ => rfl))
  view := fun {k w} hw => by
    rcases eq_or_ne k id with rfl | hne
    · have hclosed : ((c.closeRead p t).closeSegmentsRead read k t).breakView k =
          some (v.closed p read k t) := by
        rw [breakView_closes, hv]
        rfl
      obtain rfl := Option.some.inj
        (hw.symm.trans (Db.breakView_updateBreak_self (fun _ => rfl) hclosed))
      exact (BreakView.inOrder_paused rfl).2 ⟨hover.presence, hover.segments⟩
    · rw [breakView_closes_updateBreak_of_ne h.linked hp hne] at hw
      exact h.view hw

variable {r : ℕ → Db} {now : ℤ}

/-- A transaction under the lock commits to the break it read, or to that break ended. -/
theorem view_of_since (hs : ∀ n, (r n).Since c) {n : ℕ} {v₀ : BreakView}
    (h₀ : (r n).breakView id = some v₀) : ∃ v, c.breakView id = some v ∧
    (v₀ = v ∨ v₀.EndedAs v) := by
  rcases (hs n).view id with heq | ⟨v', v, hv', hv, hend⟩
  · exact ⟨v₀, heq.symm.trans h₀, Or.inl rfl⟩
  · obtain rfl := Option.some.inj (hv'.symm.trans h₀)
    exact ⟨v, hv, Or.inr hend⟩

/-- A break that is running at the commit of a transaction under the lock was read as it is. -/
theorem read_of_since (hs : ∀ n, (r n).Since c) (hv : c.breakView id = some v)
    (hactive : v.record.state = .active) (n : ℕ) : (r n).breakView id = some v := by
  rcases (hs n).view id with heq | ⟨v₀, w, -, hw, hend⟩
  · exact heq.trans hv
  · obtain rfl := Option.some.inj (hw.symm.trans hv)
    rw [hend.state] at hactive
    cases hactive

/-- A pause keeps the breaks in order, whatever it read under the lock: the row of the break is as
it was read, or it stops. -/
theorem breaksOk_pause (h : c.BreaksOk) (hs : ∀ n, (r n).Since c) :
    ((Tx.pause id now).effect r c).BreaksOk := by
  dsimp only [Tx.pause]
  split
  case h_1 => exact h
  case h_2 v₀ h₀ =>
    split
    · exact h
    · split
      · exact h
      · obtain ⟨v, hv, hv₀⟩ := view_of_since hs h₀
        have hsession : v.record.presenceSessionId = v₀.record.presenceSessionId := by
          rcases hv₀ with rfl | hend
          · rfl
          · exact hend.session
        rw [← hsession]
        obtain ⟨hmem, hid, -⟩ := Db.record_of_breakView hv
        refine breaksOk_pauses h hv (fun s hs' => ?_) ?_
        · exact Or.inl ⟨v.record, hmem, hid, (Db.presenceOf_eq_some.1 hs').1⟩
        · rcases eq_or_ne v.record.state .active with hst | hst
          · have hread := read_of_since hs hv hst
            obtain ⟨-, -, hv₁⟩ := Db.record_of_breakView (hread 1)
            have hpres : (r 1).presenceOf v.record.presenceSessionId = v.presence := by
              rw [hv₁]
              rfl
            rw [hpres]
            exact over_closed_of_read (hread 2) (h.view hv) hst
          · exact over_closed_of_over ((h.view hv).over hst)

/-- `resume` runs a break that is over in a new session, of a break's type and with a
new segment. -/
theorem breaksOk_resumes {type : PresenceType} {day : DateKey} (h : c.BreaksOk)
    (hv : c.breakView id = some v) (hover : v.Over) (htype : type ≠ .meeting) :
    ((c.openSegment id type day t).updateBreak id
      (fun b => { b with state := .active, presenceSessionId := some c.presence.next })
      fun _ => rfl).BreaksOk where
  linked := by
    refine h.linked.of_opens (Db.Opens.of_openSegment rfl rfl htype (fun b hb => ?_) ?_)
    · obtain ⟨b₀, hb₀, rfl⟩ := Db.mem_updateBreak hb
      refine ⟨?_, ?_⟩ <;> split
      · exact h.linked.type b₀ hb₀
      · exact h.linked.type b₀ hb₀
      · exact Or.inr ⟨‹_›, rfl⟩
      · exact Or.inl hb₀
    · obtain ⟨hmem, hid, -⟩ := Db.record_of_breakView hv
      exact ⟨hid ▸ c.breakRecords.fresh _ hmem, le_rfl⟩
  view := fun {k w} hw => by
    rcases eq_or_ne k id with rfl | hne
    · obtain ⟨b, hb, rfl⟩ := Option.map_eq_some_iff.1 hv
      obtain rfl := Db.id_of_find? hb
      have hw' := hw.symm.trans Db.breakView_updateBreak
      have hfind :
        ((c.openSegment b.id type day t).breakRecords.find? fun r => r.id = b.id) = some b :=
        hb
      rw [hfind, Option.map_some, if_pos rfl] at hw'
      obtain rfl := Option.some.inj hw'
      rw [BreakView.inOrder_active rfl]
      refine ⟨c.openedSession type day t, ?_, fun sg hsg => ?_⟩
      · exact Db.presenceOf_openedSession
      · change sg ∈ (c.openSegment b.id type day t).segmentsWith b.id at hsg
        rw [Db.segmentsWith_openSegment h.linked, if_pos rfl] at hsg
        rcases List.mem_append.1 hsg with hsg | hsg
        · obtain ⟨e, -, q, hq, he⟩ := hover.segments sg hsg
          exact ⟨q, hq, Or.inr (by simp [he])⟩
        · rw [List.mem_singleton.1 hsg]
          exact ⟨_, rfl, Or.inl rfl⟩
    · rw [Db.breakView_updateBreak_of_ne hne, Db.breakView_openSegment_of_ne h.linked hne] at hw
      exact h.view hw

/-- `resume` keeps the breaks in order, whether it runs the break again or ends it because its
minutes are used up. -/
theorem breaksOk_resume {day : DateKey} (h : c.BreaksOk) (hs : ∀ n, (r n).Since c) :
    ((Tx.resume id now day).effect r c).BreaksOk := by
  dsimp only [Tx.resume]
  split
  case h_1 => exact h
  case h_2 v₀ h₀ =>
    split
    · exact h
    · rename_i hpaused
      have hpaused := not_not.1 hpaused
      split
      · -- the window is over: it ends the break instead
        cases h₁ : (r 1).breakView id with
        | none => exact h
        | some v₁ =>
          by_cases hst : v₁.record.state = .paused
          · obtain ⟨v, hv, hv₁⟩ := view_of_since hs h₁
            have hne : v₁.record.state ≠ .active := by rw [hst]; simp
            rcases hv₁ with rfl | hend
            · exact (endsBreak_endPausedRead hv ((h.view hv).over hne) hst rfl).breaksOk h
            · have hover := (h.view hv).over (by rw [hend.state]; simp)
              exact (endsBreak_endPausedRead hv hover hst (hend.segments hne)).breaksOk h
          · have heq : c.endPausedRead (some v₁) id now = c := if_pos hst
            rw [heq]
            exact h
      · split
        · exact h
        · split
          · exact h
          · split
            · exact h
            · obtain ⟨v, hv, hv₀⟩ := view_of_since hs h₀
              have hmem := (Db.record_of_breakView hv).1
              rcases hv₀ with rfl | hend
              · refine breaksOk_resumes h hv ((h.view hv).over ?_) (h.linked.type _ hmem)
                rw [hpaused]
                simp
              · refine breaksOk_resumes h hv ((h.view hv).over ?_)
                  (hend.type ▸ h.linked.type _ hmem)
                rw [hend.state]
                simp

/-- A new running break has one session and one segment, both open, and no other
break points at them. -/
theorem breaksOk_createBreak {b : BreakRecord} {day : DateKey} (h : c.BreaksOk)
    (htype : b.presenceType ≠ .meeting) : (c.createBreak b day t).2.BreaksOk where
  linked := by
    refine h.linked.of_opens (Db.Opens.of_openSegment rfl rfl htype (fun b' hb' => ?_) ?_)
    · rcases Table.mem_create.1 hb' with hb' | rfl
      · exact ⟨h.linked.type b' hb', Or.inl hb'⟩
      · exact ⟨htype, Or.inr ⟨rfl, rfl⟩⟩
    · exact ⟨Nat.lt_succ_self _, Nat.le_succ _⟩
  view := fun {k w} hw => by
    obtain ⟨hmem, hid, hw'⟩ := Db.record_of_breakView hw
    rcases Table.mem_create.1 hmem with hmem | hnew
    · have hne : k ≠ c.breakRecords.next := hid ▸ Table.key_ne_next hmem
      have hold :
        (c.openSegment c.breakRecords.next b.presenceType day t).breakView k = some w := by
        rw [hw', ← hid]
        exact Db.breakView_of_mem hmem
      rw [Db.breakView_openSegment_of_ne h.linked hne] at hold
      exact h.view hold
    · have hnone : c.segmentsWith c.breakRecords.next = [] := by
        rw [Db.segmentsWith, List.map_eq_nil_iff, List.filter_eq_nil_iff]
        intro g hg hnext
        exact Nat.ne_of_lt (h.linked.segments g hg) (of_decide_eq_true hnext)
      rw [hw', hnew]
      rw [BreakView.inOrder_active rfl]
      refine ⟨c.openedSession b.presenceType day t, ?_, fun sg hsg => ?_⟩
      · exact @Db.presenceOf_openedSession c c.breakRecords.next b.presenceType day t
      · change sg ∈ (c.openSegment c.breakRecords.next b.presenceType day t).segmentsWith
          c.breakRecords.next at hsg
        rw [Db.segmentsWith_openSegment h.linked, hnone, if_pos rfl, List.nil_append] at hsg
        rw [List.mem_singleton.1 hsg]
        exact ⟨_, rfl, Or.inl rfl⟩

/-- A break that is deleted with its segments leaves the others as they were; its session stays,
and runs no break. -/
theorem breaksOk_deleteBreak (h : c.BreaksOk) : (c.deleteBreak k).BreaksOk where
  linked := h.linked.of_frame Db.Frame.deleteBreak
  view := fun {j w} hw => by
    obtain ⟨hmem, hid, hw'⟩ := Db.record_of_breakView hw
    obtain ⟨hmem, hk⟩ := Table.mem_deleteMany.1 hmem
    have hsegments : (c.deleteBreak k).segmentsWith w.record.id = c.segmentsWith w.record.id := by
      have hrows : (c.deleteBreak k).breakSegments.rows =
          c.breakSegments.rows.filter fun g => !decide (g.breakRecordId = k) := rfl
      rw [Db.segmentsWith, Db.segmentsWith, hrows, List.filter_filter]
      refine congrArg (List.map _) (List.filter_congr fun g _ => ?_)
      have hne : w.record.id ≠ k := of_decide_eq_false hk
      rw [Bool.eq_iff_iff, Bool.and_eq_true]
      refine and_iff_left_of_imp fun hg => ?_
      rw [of_decide_eq_true hg, decide_eq_false hne]
      rfl
    have hview : (c.deleteBreak k).viewOf w.record = c.viewOf w.record := by
      rw [Db.viewOf, Db.viewOf, ← Db.segmentsWith, ← Db.segmentsWith, hsegments]
      rfl
    have hold := Db.breakView_of_mem hmem
    rw [hid, ← hview, ← hw'] at hold
    exact h.view hold

/-- A meeting's session that is closed runs no break, so every break is read as it was. -/
theorem breaksOk_closePresence (h : c.BreaksOk) {q : PresenceSession} (hq : q ∈ c.presence)
    (ht : q.type = .meeting) : (c.closePresence q.id t).BreaksOk where
  linked := h.linked.of_frame (Db.Frame.sessions fun _ => rfl)
  view := fun {j w} hw => by
    rw [Db.closePresence, Db.breakView_sessions] at hw
    obtain ⟨v, hv, rfl⟩ := Option.map_eq_some_iff.1 hw
    rw [BreakView.withSessions_eq_self fun p hp => ?_]
    · exact h.view hv
    · rw [if_neg]
      intro hid
      obtain ⟨s, hs, hid', ht'⟩ := h.linked.made (Db.runsFor_of_hasSession hv hp).1
      obtain rfl := Table.eq_of_key hs hq (hid'.trans (of_decide_eq_true hid))
      exact ht' ht

/-- Starting a scheduled break keeps the breaks in order, with the meeting it may end and the quick
break it may replace. -/
theorem breaksOk_startScheduled {monthOpen : DateKey → Bool} {record : NewBreakRecord}
    {day : DateKey}
    (hbreak : record.presenceType ≠ .meeting) (h : c.BreaksOk) (hs : ∀ n, (r n).Since c) :
    ((Tx.startScheduled monthOpen record day now).effect r c).BreaksOk := by
  -- a meeting of the person is ended first
  have hcloses : ∀ db : Db, db.BreaksOk → db.presence = c.presence → ∀ p,
    (r 2).openPresence = some p → p.type = .meeting →
        ((db.closePresence p.id now).createBreak (Db.scheduledRow record) day now).2.BreaksOk := by
    intro db hdb hpres p hp ht
    obtain ⟨q, hq, hid, htype⟩ := (hs 2).type p (Table.mem_of_findLast? hp).1
    rw [← hid]
    exact breaksOk_createBreak (breaksOk_closePresence hdb (hpres ▸ hq) (htype.trans ht)) hbreak
  have hdelete : ∀ id, (c.deleteBreak id).BreaksOk := fun id => breaksOk_deleteBreak h
  dsimp only [Tx.startScheduled]
  split
  · exact h
  · split
    · split
      · exact h
      · split
        · exact h
        · split
          · rename_i p hp
            split
            · exact hdelete _
            · exact hcloses _ (hdelete _) rfl p hp (not_not.1 ‹_›)
          · exact breaksOk_createBreak (hdelete _) hbreak
    · split
      · exact h
      · split
        · rename_i p hp
          split
          · exact h
          · exact hcloses _ h rfl p hp (not_not.1 ‹_›)
        · exact breaksOk_createBreak h hbreak

/-- A quick break keeps the breaks in order: it is refused while another one is active,
or created running. -/
theorem breaksOk_startQuick {input : NewQuickBreak} (h : c.BreaksOk) :
    ((Tx.startQuick input).effect r c).BreaksOk := by
  dsimp only [Tx.startQuick]
  split
  · exact h
  · split
    · exact h
    · split
      · exact h
      · exact breaksOk_createBreak h (by simp)

/-- Tables with the same break records, segments and presence sessions have the same breaks. -/
theorem breaksOk_congr {c' : Db} (h : c.BreaksOk) (hrecords : c'.breakRecords = c.breakRecords)
    (hsegments : c'.breakSegments = c.breakSegments) (hpresence : c'.presence = c.presence) :
    c'.BreaksOk := by
  obtain ⟨ws, ends, pres, recs, segs, meets, away⟩ := c
  obtain ⟨ws', ends', pres', recs', segs', meets', away'⟩ := c'
  cases hrecords
  cases hsegments
  cases hpresence
  exact ⟨⟨h.linked.type, h.linked.made, h.linked.apart, h.linked.segments⟩, h.view⟩

/-- `endDay` closes sessions as it read them, and keeps the breaks in order when those that it read
open are as they were. -/
theorem breaksOk_closePresenceRead (h : c.BreaksOk)
    (hread : ∀ p ∈ read.presence, p.endedAt = none → p ∈ c.presence) :
    (c.closePresenceRead read t).BreaksOk where
  linked := h.linked.of_frame (Db.Frame.sessions fun _ => rfl)
  view := fun {k w} hw => by
    rw [Db.closePresenceRead, Db.breakView_sessions] at hw
    obtain ⟨v, hv, rfl⟩ := Option.map_eq_some_iff.1 hw
    refine (h.view hv).withSessions (fun p hp hend => ?_) fun p hend => ?_
    · rw [if_neg]
      intro hcloses
      obtain ⟨q, hq, hcond⟩ := List.any_eq_true.1 hcloses
      have hid : q.id = p.id := (of_decide_eq_true hcond).1
      have hopen : q.endedAt = none := Option.isNone_iff_eq_none.1 (of_decide_eq_true hcond).2
      obtain rfl := Table.eq_of_key (hread q hq hopen) (Db.runsFor_of_hasSession hv hp).2 hid
      simp [hopen] at hend
    · split
      · rfl
      · exact hend

end

end RxVision
