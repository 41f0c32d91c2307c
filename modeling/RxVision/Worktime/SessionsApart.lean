import RxVision.Worktime.SessionSteps

/-!
# Sessions that are apart

Two sessions are apart when one ended by the time the other started (`SessionsApart`), and then no
instant is inside both. For each kind of `SessionStep` one lemma says when the step keeps the
sessions apart: a session that opens needs every end behind it, an automatic close that moves needs
nothing in its way (`FreeUntil`), and ending a session needs nothing.
-/

namespace RxVision

namespace WorkSession

/-- `s` ended by the time `t` started. -/
def EndsBy (s t : WorkSession) : Prop := ∃ e, s.endedAt = some e ∧ e ≤ t.startedAt

/-- The instant `x` is inside the session. -/
def Covers (s : WorkSession) (x : ℤ) : Prop :=
  s.startedAt ≤ x ∧ ∀ e, s.endedAt = some e → x < e

/-- A session that ended by the start of another covers no instant of it. -/
theorem EndsBy.not_covers {s t : WorkSession} {x : ℤ} (h : s.EndsBy t) (hs : s.Covers x) :
    ¬ t.Covers x := by
  obtain ⟨e, he, hle⟩ := h
  have hx := hs.2 e he
  exact fun ht => absurd ht.1 (by omega)

end WorkSession

/-- Of two sessions one ended by the time the other started. -/
def SessionsApart (ws : Table WorkSession.id) : Prop :=
  ∀ s ∈ ws, ∀ t ∈ ws, s ≠ t → s.EndsBy t ∨ t.EndsBy s

/-- All starts and ends lie at or before `clock`. -/
def SessionsBy (ws : Table WorkSession.id) (clock : ℤ) : Prop :=
  ∀ s ∈ ws, s.startedAt ≤ clock ∧ ∀ e, s.endedAt = some e → e ≤ clock

/-- The clock may move on. -/
theorem SessionsBy.of_le {ws : Table WorkSession.id} {clock clock' : ℤ} (h : SessionsBy ws clock)
    (hle : clock ≤ clock') : SessionsBy ws clock' :=
  fun s hs => ⟨(h s hs).1.trans hle, fun e he => ((h s hs).2 e he).trans hle⟩

/-- Every session of the table but `s` started before it, ended by its start, or starts no earlier
than `target`: nothing is in the way of `s` running on to `target`. -/
def FreeUntil (ws : Table WorkSession.id) (s : WorkSession) (target : ℤ) : Prop :=
  ∀ t ∈ ws, t ≠ s → t.startedAt < s.startedAt ∨ target ≤ t.startedAt ∨ t.EndsBy s

namespace SessionsApart

variable {ws ws' : Table WorkSession.id} {s s' : WorkSession}

/-- No instant is inside two sessions. -/
theorem eq_of_covers (h : SessionsApart ws) {t : WorkSession} {x : ℤ} (hs : s ∈ ws) (ht : t ∈ ws)
    (hsx : s.Covers x) (htx : t.Covers x) : s = t := by
  by_contra hne
  rcases h s hs t ht hne with h | h
  · exact h.not_covers hsx htx
  · exact h.not_covers htx hsx

/-- Replacing a session by one that is apart from all the others keeps the sessions apart. -/
theorem replace (h : SessionsApart ws)
    (hmem : ∀ r, r ∈ ws' ↔ (r ∈ ws ∧ r ≠ s) ∨ r = s')
    (hs' : ∀ t ∈ ws, t ≠ s → s'.EndsBy t ∨ t.EndsBy s') : SessionsApart ws' := by
  intro a ha b hb hne
  rcases (hmem a).1 ha with ⟨ha, hane⟩ | rfl
  · rcases (hmem b).1 hb with ⟨hb, -⟩ | rfl
    · exact h a ha b hb hne
    · exact (hs' a ha hane).symm
  · rcases (hmem b).1 hb with ⟨hb, hbne⟩ | rfl
    · exact hs' b hb hbne
    · exact absurd rfl hne

/-- The sessions around an open one ended by its start. -/
theorem endsBy_of_open (h : SessionsApart ws) {t : WorkSession} (hs : s ∈ ws)
    (hopen : s.endedAt = none) (ht : t ∈ ws) (hne : t ≠ s) : t.EndsBy s := by
  rcases h t ht s hs hne with h | ⟨e, he, -⟩
  · exact h
  · rw [hopen] at he
    cases he

/-- With nothing in the way until `target`, the sessions around an ended one either ended by its
start or start no earlier than `target`. -/
theorem around (h : SessionsApart ws) {t : WorkSession} {stop target : ℤ} (hs : s ∈ ws)
    (hstop : s.endedAt = some stop) (hle : s.startedAt ≤ stop) (hfree : FreeUntil ws s target)
    (ht : t ∈ ws) (hne : t ≠ s) : t.EndsBy s ∨ target ≤ t.startedAt := by
  rcases h t ht s hs hne with h | ⟨e, he, hle'⟩
  · exact Or.inl h
  · obtain rfl := Option.some.inj (hstop.symm.trans he)
    rcases hfree t ht hne with hlt | hlt | hends
    · omega
    · exact Or.inr hlt
    · exact Or.inl hends

end SessionsApart

namespace SessionStep

variable {now clock : ℤ} {db db' : Db} {kind : StepKind}

/-- A step at or before the clock keeps all times of the sessions at or before it. -/
theorem sessionsBy (h : SessionStep now db db' kind) (hnow : now ≤ clock)
    (hby : SessionsBy db.workSessions clock) : SessionsBy db'.workSessions clock := by
  cases h with
  | same h => rwa [h]
  | opened row startedAt _ hopen _ hstart hmem =>
    intro s hs
    rcases (hmem s).1 hs with hs | rfl
    · exact hby s hs
    · refine ⟨?_, fun e he => by rw [hopen] at he; cases he⟩
      rw [hstart]
      exact (Db.sessionStart_le startedAt now).trans hnow
  | ended s₀ _ hs₀ _ hmem =>
    intro s hs
    rcases (hmem s).1 hs with ⟨hs, -⟩ | rfl
    · exact hby s hs
    · refine ⟨(hby s₀ hs₀).1, fun e he => ?_⟩
      obtain rfl := Option.some.inj he
      exact max_le hnow (hby s₀ hs₀).1
  | moved s₀ _ hs₀ _ _ _ hmem =>
    intro s hs
    rcases (hmem s).1 hs with ⟨hs, -⟩ | rfl
    · exact hby s hs
    · refine ⟨(hby s₀ hs₀).1, fun e he => ?_⟩
      obtain rfl := Option.some.inj he
      exact hnow

/-- A session that opens at or after every end starts after every session there was. -/
theorem endsBy_opened {t : ℤ} (h : SessionStep now db db' (.opens t))
    (hends : db.findOpen = none → ∀ s ∈ db.workSessions, ∀ e, s.endedAt = some e → e ≤ now)
    {row : WorkSession} (hrow : row ∈ db'.workSessions) (hnew : row ∉ db.workSessions)
    {s : WorkSession} (hs : s ∈ db.workSessions) : s.EndsBy row := by
  cases h with
  | same h => exact absurd (h ▸ hrow) hnew
  | opened row' startedAt hclosed _ _ hstart hmem =>
    obtain rfl := ((hmem row).1 hrow).resolve_left hnew
    obtain ⟨e, he⟩ := Db.findOpen_eq_none.1 hclosed s hs
    exact ⟨e, he, hstart ▸ Db.le_sessionStart (hends hclosed) hs he⟩

/-- A step that opens a session at or after every end keeps the sessions apart. -/
theorem apart_opens {t : ℤ} (h : SessionStep now db db' (.opens t))
    (ha : SessionsApart db.workSessions)
    (hends : db.findOpen = none → ∀ s ∈ db.workSessions, ∀ e, s.endedAt = some e → e ≤ now) :
    SessionsApart db'.workSessions := by
  have hnew : ∀ {row}, row ∈ db'.workSessions → row ∉ db.workSessions →
      ∀ {s}, s ∈ db.workSessions → s.EndsBy row := h.endsBy_opened hends
  cases h with
  | same h => rwa [h]
  | opened row startedAt hclosed _ _ _ hmem =>
    intro s hs t ht hne
    by_cases hs' : s ∈ db.workSessions
    · by_cases ht' : t ∈ db.workSessions
      · exact ha s hs' t ht' hne
      · exact Or.inl (hnew ht ht' hs')
    · by_cases ht' : t ∈ db.workSessions
      · exact Or.inr (hnew hs hs' ht')
      · rw [((hmem s).1 hs).resolve_left hs', ((hmem t).1 ht).resolve_left ht'] at hne
        exact absurd rfl hne

/-- Ending the open session keeps the sessions apart, whenever it ends: no other one
started after it. -/
theorem apart_ends {reason : WorkSessionEndReason} (h : SessionStep now db db' (.ends reason))
    (ha : SessionsApart db.workSessions) :
    SessionsApart db'.workSessions := by
  cases h with
  | same h => rwa [h]
  | ended s _ hs hopen hmem =>
    refine ha.replace hmem fun t ht hne => Or.inr ?_
    have hends := ha.endsBy_of_open hs hopen ht hne
    exact hends

/-- Moving an automatic close keeps the sessions apart when nothing is in its way up
to the new end. -/
theorem apart_moves {id : ℕ} (h : SessionStep now db db' (.moves id)) (hi : SessionInv db)
    (ha : SessionsApart db.workSessions)
    (hfree : ∀ s ∈ db.workSessions, s.id = id → s.endReason = some .autoClosed →
      FreeUntil db.workSessions s now) :
    SessionsApart db'.workSessions := by
  cases h with
  | same h => rwa [h]
  | moved s stop hs hstop hreason hlt hmem =>
    refine ha.replace hmem fun t ht hne => ?_
    rcases ha.around hs hstop (hi.ordered s hs stop hstop)
        (hfree s hs rfl hreason) ht hne with h | h
    · exact Or.inr h
    · exact Or.inl ⟨now, rfl, h⟩

end SessionStep

/-- An automatic close ends no later than the clock. -/
theorem autoCloseAt_le {startedAt latestEnd judgedAt clock : ℤ} {lastInput : Option ℤ}
    (hstale : isStale latestEnd judgedAt = true) (hclock : judgedAt ≤ clock)
    (hstart : startedAt ≤ clock) : autoCloseAt startedAt latestEnd lastInput ≤ clock := by
  simp only [isStale, decide_eq_true_eq] at hstale
  cases lastInput with
  | none => exact hstart
  | some t => exact (min_le_right _ _).trans (by omega)

end RxVision
