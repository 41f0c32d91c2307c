import RxVision.Auth.RefreshTokens

/-!
# One refresh, one session

Several calls rotate the same live token at once. One of them claims it; the others are losers,
and get the winner's token as long as each of them reads the row after the winner has linked the
successor, and asks the cache while it holds it (`LosersComeLate`). The winner passes through
the stages `WinnerStage`, and `Race` says what the tables hold and where the losers may stand at
each of them.
-/

namespace RxVision

/-- How far the call that claimed the token has come. -/
inductive WinnerStage
  | read | create | link | publish | done
  deriving DecidableEq, Repr

namespace WinnerStage

/-- The successor's row exists. -/
def created : WinnerStage → Bool
  | .read | .create => false
  | .link | .publish | .done => true

/-- The rotated token points at its successor. -/
def linked : WinnerStage → Bool
  | .publish | .done => true
  | .read | .create | .link => false

/-- The successor is in the cache. -/
def published : WinnerStage → Bool
  | .done => true
  | _ => false

end WinnerStage

/-- A token that no call has rotated. -/
structure FreshToken (s₀ : TokenStore) (t : RefreshToken) : Prop where
  mem : t ∈ s₀.tokens
  notRevoked : t.revokedAt = none
  notReplaced : t.replacedById = none
  notCached : s₀.replay t.id = none
  idle : s₀.calls = []

/-- The calls of the race: they rotate `t` while it is live, all within the grace
period, and nothing fails. -/
def Races (t : RefreshToken) (s : TokenStore) : TokenAction → Prop
  | .rotate token _ => token = t.id ∧ s.clock < t.expiresAt ∧
      ∀ c ∈ s.calls, s.clock - c.now ≤ REFRESH_REUSE_GRACE_MS
  | .tick _ | .proceed _ => True
  | _ => False

instance (t : RefreshToken) (s : TokenStore) : ∀ a, Decidable (Races t s a)
  | .rotate token _ => inferInstanceAs (Decidable (token = t.id ∧ s.clock < t.expiresAt ∧
      ∀ c ∈ s.calls, s.clock - c.now ≤ REFRESH_REUSE_GRACE_MS))
  | .tick _ | .proceed _ => isTrue trivial
  | .signIn _ _ | .fails _ | .revokeAllForUser _ | .revokeAgentSessions _ | .revoke _ => isFalse id

/-- The call is about to ask the cache. -/
def RotatePhase.asksCache : RotatePhase → Bool
  | .lookup _ => true
  | _ => false

/-- The call has returned. -/
def RotatePhase.hasReturned : RotatePhase → Bool
  | .returned _ => true
  | _ => false

/-- A loser reads the row once the token points at its successor, and asks the cache while
it holds the successor. -/
def LosersComeLate (s : TokenStore) : TokenAction → Prop
  | .proceed i => ∀ c ∈ s.calls[i]?,
    (c.phase = .read false → ∃ r ∈ s.tokens, r.id = c.token ∧ r.replacedById ≠ none) ∧
      (c.phase.asksCache → s.replayed c.token ≠ none)
  | _ => True

instance (s : TokenStore) : ∀ a, Decidable (LosersComeLate s a)
  | .proceed i => inferInstanceAs (Decidable (∀ c ∈ s.calls[i]?,
      (c.phase = .read false → ∃ r ∈ s.tokens.rows, r.id = c.token ∧ r.replacedById ≠ none) ∧
        (c.phase.asksCache → s.replayed c.token ≠ none)))
  | .tick _ | .rotate _ _ | .signIn _ _ | .fails _ | .revokeAllForUser _ | .revokeAgentSessions _
  | .revoke _ => isTrue trivial

/-- Every call has returned. -/
def AllReturned (s : TokenStore) : Prop := ∀ c ∈ s.calls, c.phase.hasReturned

instance (s : TokenStore) : Decidable (AllReturned s) :=
  inferInstanceAs (Decidable (∀ c ∈ s.calls, c.phase.hasReturned))

/-- Every call returned the same token, and its row is the only new one, and not revoked. -/
def OneSession (s₀ s : TokenStore) : Prop :=
  ∃ next : RotatedRefreshToken, (∀ c ∈ s.calls, c.phase = .returned (some next)) ∧
    ∃ n ∈ s.tokens, n.id = next.token ∧ n.revokedAt = none ∧ n.expiresAt = next.expiresAt ∧
      ∀ r ∈ s.tokens, (∀ r₀ ∈ s₀.tokens, r₀.id ≠ r.id) ↔ r = n

namespace OneRefresh

/-- The successor that the winner mints. -/
def nextOf (ttlMs : ℤ) (s₀ : TokenStore) (t : RefreshToken) (w : RotateCall) :
    RotatedRefreshToken :=
  ⟨t.userId, s₀.tokens.next, w.now + ttlMs⟩

/-- The row of the successor. -/
def newRow (ttlMs : ℤ) (s₀ : TokenStore) (t : RefreshToken) (w : RotateCall) : RefreshToken where
  id := s₀.tokens.next
  userId := t.userId
  expiresAt := w.now + ttlMs
  agent := w.agent

/-- The row of the rotated token. -/
def rotatedRow (s₀ : TokenStore) (t : RefreshToken) (w : RotateCall) (g : WinnerStage) :
    RefreshToken :=
  { t with
    revokedAt := some w.now
    replacedById := if g.linked then some s₀.tokens.next else t.replacedById }

/-- Where the winner stands. -/
def phaseOf (ttlMs : ℤ) (s₀ : TokenStore) (t : RefreshToken) (w : RotateCall) :
    WinnerStage → RotatePhase
  | .read => .read true
  | .create => .create (rotatedRow s₀ t w .read)
  | .link => .link (rotatedRow s₀ t w .read) (nextOf ttlMs s₀ t w)
  | .publish => .publish (rotatedRow s₀ t w .read) (nextOf ttlMs s₀ t w)
  | .done => .returned (some (nextOf ttlMs s₀ t w))

/-- Where a loser may stand. -/
def MayLose (ttlMs : ℤ) (s₀ : TokenStore) (t : RefreshToken) (w : RotateCall) (g : WinnerStage)
    (phase : RotatePhase) : Prop :=
  phase = .claim ∨ phase = .read false ∨
    (g.linked = true ∧ phase = .lookup (rotatedRow s₀ t w .publish)) ∨
      (g.published = true ∧ phase = .returned (some (nextOf ttlMs s₀ t w)))

/-- The call `i`, which is `w`, has claimed the token and come to the stage `g`. -/
structure Race (ttlMs : ℤ) (s₀ : TokenStore) (t : RefreshToken) (s : TokenStore) (i : ℕ)
    (w : RotateCall) (g : WinnerStage) : Prop where
  winner : s.calls[i]? = some { w with phase := phaseOf ttlMs s₀ t w g }
  losers : ∀ j c, j ≠ i → s.calls[j]? = some c → MayLose ttlMs s₀ t w g c.phase
  rows : ∀ r, r ∈ s.tokens ↔ (r ∈ s₀.tokens ∧ r ≠ t) ∨ r = rotatedRow s₀ t w g ∨
    (g.created = true ∧ r = newRow ttlMs s₀ t w)
  next : s.tokens.next = s₀.tokens.next + if g.created then 1 else 0
  replay : if g.published then ∃ d, s.replay t.id = some ⟨s₀.tokens.next, w.now + ttlMs, d⟩
    else s.replay t.id = none

/-- What a step of the race keeps. -/
structure RaceInv (ttlMs : ℤ) (s₀ : TokenStore) (t : RefreshToken) (s : TokenStore) : Prop where
  same : ∀ c ∈ s.calls, c.token = t.id ∧ c.now < t.expiresAt ∧ c.now ≤ s.clock
  close : ∀ c ∈ s.calls, ∀ c' ∈ s.calls, c.now - c'.now ≤ REFRESH_REUSE_GRACE_MS
  stage : (s.tokens = s₀.tokens ∧ s.replay t.id = none ∧ ∀ c ∈ s.calls, c.phase = .claim) ∨
    ∃ i w g, Race ttlMs s₀ t s i w g

variable {ttlMs : ℤ} {s₀ s s' : TokenStore} {t r : RefreshToken} {i j : ℕ} {w c : RotateCall}
  {g : WinnerStage}

/-- Before the race the token is fresh and no call is under way. -/
theorem RaceInv.start (h : FreshToken s₀ t) : RaceInv ttlMs s₀ t s₀ where
  same := by
    rw [h.idle]
    exact fun _ hc => absurd hc List.not_mem_nil
  close := by
    rw [h.idle]
    exact fun _ hc => absurd hc List.not_mem_nil
  stage := Or.inl ⟨rfl, h.notCached, by
    rw [h.idle]
    exact fun _ hc => absurd hc List.not_mem_nil⟩

/-- Who may lose may lose at every later stage. -/
theorem MayLose.mono {g' : WinnerStage} {phase : RotatePhase} (h : MayLose ttlMs s₀ t w g phase)
    (hlinked : g.linked = true → g'.linked = true)
    (hpublished : g.published = true → g'.published = true) : MayLose ttlMs s₀ t w g' phase :=
  h.imp_right (Or.imp_right (Or.imp (And.imp_left hlinked) (And.imp_left hpublished)))

/-! ## The tables of a race -/

namespace Race

/-- The token's row is found. -/
theorem find (h : Race ttlMs s₀ t s i w g) : s.find t.id = some (rotatedRow s₀ t w g) := by
  have hmem : rotatedRow s₀ t w g ∈ s.tokens := (h.rows _).2 (Or.inr (Or.inl rfl))
  exact Table.find?_key hmem

/-- The token's row is the rotated one. -/
theorem eq_rotated (h : Race ttlMs s₀ t s i w g) (hr : r ∈ s.tokens) (hid : r.id = t.id) :
    r = rotatedRow s₀ t w g :=
  Table.eq_of_key hr ((h.rows _).2 (Or.inr (Or.inl rfl))) hid

/-- Nobody claims the token again. -/
theorem claims (h : Race ttlMs s₀ t s i w g) (now : ℤ) : s.claims t.id now = false := by
  rw [TokenStore.claims, List.any_eq_false]
  intro r hr hrow
  simp only [Bool.and_eq_true, decide_eq_true_eq, Option.isNone_iff_eq_none] at hrow
  obtain ⟨⟨hid, -⟩, hopen⟩ := hrow
  rw [h.eq_rotated hr hid] at hopen
  cases hopen

/-- A claim of a token that was rotated changes nothing. -/
theorem claim (h : Race ttlMs s₀ t s i w g) (now : ℤ) : s.claim t.id now = s := by
  refine TokenStore.revokeWhere_eq_self fun r hr hrow => ?_
  simp only [Bool.and_eq_true, decide_eq_true_eq] at hrow
  rw [h.eq_rotated hr hrow.1]
  exact Option.some_ne_none _

/-! ## A loser's statement -/

/-- Once it is linked the rotated row stays as it is. -/
theorem rotatedRow_eq (hlinked : g.linked = true) :
    rotatedRow s₀ t w g = rotatedRow s₀ t w .publish := by
  unfold rotatedRow
  rw [hlinked]
  rfl

/-- Where a call that has lost goes on: it reads, asks the cache or fails, and leaves
the tables alone. -/
theorem loser_proceed (h : Race ttlMs s₀ t s i w g) (ht : t.replacedById = none)
    (htoken : c.token = t.id) (hclose : c.now - w.now ≤ REFRESH_REUSE_GRACE_MS)
    (hlose : MayLose ttlMs s₀ t w g c.phase)
    (hread : c.phase = .read false → ∃ r ∈ s.tokens, r.id = c.token ∧ r.replacedById ≠ none)
    (hlookup : c.phase.asksCache → s.replayed c.token ≠ none) :
    (s.proceed ttlMs c).1 = s ∧ MayLose ttlMs s₀ t w g (s.proceed ttlMs c).2 := by
  rcases hlose with hphase | hphase | ⟨hlinked, hphase⟩ | ⟨hpublished, hphase⟩
  · have hp : s.proceed ttlMs c = (s, .read false) := by
      simp only [TokenStore.proceed, hphase, htoken, h.claim, h.claims]
    rw [hp]
    exact ⟨rfl, Or.inr (Or.inl rfl)⟩
  · obtain ⟨r, hr, hid, hreplaced⟩ := hread hphase
    rw [h.eq_rotated hr (hid.trans htoken)] at hreplaced
    have hlinked : g.linked = true := by
      cases hg : g.linked with
      | true => rfl
      | false =>
        refine absurd ?_ hreplaced
        simp [rotatedRow, hg, ht]
    have hfind : s.find c.token = some (rotatedRow s₀ t w .publish) := by
      rw [htoken, h.find, rotatedRow_eq hlinked]
    have hjust : (rotatedRow s₀ t w .publish).rotatedJustNow c.now = true := by
      simp [RefreshToken.rotatedJustNow, rotatedRow, WinnerStage.linked, hclose]
    have hp : s.proceed ttlMs c = (s, .lookup (rotatedRow s₀ t w .publish)) := by
      simp [TokenStore.proceed, hphase, hfind, hjust]
    rw [hp]
    exact ⟨rfl, Or.inr (Or.inr (Or.inl ⟨hlinked, rfl⟩))⟩
  · have hheld := hlookup (by rw [hphase]; rfl)
    have hreplay := h.replay
    cases hg : g.published with
    | false =>
      rw [hg, if_neg Bool.false_ne_true] at hreplay
      refine absurd ?_ hheld
      rw [TokenStore.replayed, htoken, hreplay]
      rfl
    | true =>
      rw [hg, if_pos rfl] at hreplay
      obtain ⟨d, hd⟩ := hreplay
      obtain ⟨e, he⟩ := Option.ne_none_iff_exists'.1 hheld
      have hentry := (Option.filter_eq_some_iff.1 he).1
      rw [htoken, hd] at hentry
      obtain rfl := Option.some.inj hentry
      have hp : s.proceed ttlMs c = (s, .returned (some (nextOf ttlMs s₀ t w))) := by
        simp only [TokenStore.proceed, hphase, he]
        rfl
      rw [hp]
      exact ⟨rfl, Or.inr (Or.inr (Or.inr ⟨hg, rfl⟩))⟩
  · have hp : s.proceed ttlMs c = (s, c.phase) := by
      simp only [TokenStore.proceed, hphase]
    rw [hp]
    exact ⟨rfl, Or.inr (Or.inr (Or.inr ⟨hpublished, hphase⟩))⟩

/-- A call that has lost takes a step, and the winner and the tables are as they were. -/
theorem of_loser (h : Race ttlMs s₀ t s i w g) (hj : j ≠ i) {phase : RotatePhase}
    (hlose : MayLose ttlMs s₀ t w g phase) :
    Race ttlMs s₀ t { s with calls := s.calls.set j { c with phase } } i w g where
  winner := by
    change (s.calls.set j _)[i]? = _
    rw [List.getElem?_set_ne hj]
    exact h.winner
  losers k c' hk hc' := by
    change (s.calls.set j _)[k]? = _ at hc'
    rw [List.getElem?_set] at hc'
    split at hc'
    · split at hc'
      · obtain rfl := Option.some.inj hc'
        exact hlose
      · cases hc'
    · exact h.losers k c' hk hc'
  rows := h.rows
  next := h.next
  replay := h.replay

/-- A call begins, and what was known of the others stays. -/
theorem of_rotate (h : Race ttlMs s₀ t s i w g) (token : ℕ) (agent : Bool) (now : ℤ) :
    Race ttlMs s₀ t { s with calls := s.calls ++ [⟨token, agent, now, .claim⟩] } i w g where
  winner := by
    change (s.calls ++ _)[i]? = _
    rw [List.getElem?_append_left (List.getElem?_eq_some_iff.1 h.winner).1]
    exact h.winner
  losers k c' hk hc' := by
    change (s.calls ++ [_])[k]? = _ at hc'
    rw [List.getElem?_append] at hc'
    split at hc'
    · exact h.losers k c' hk hc'
    · obtain rfl := List.mem_singleton.1 (List.mem_of_getElem? hc')
      exact Or.inl rfl
  rows := h.rows
  next := h.next
  replay := h.replay

/-! ## The winner's statement -/

/-- The winner goes on to its next stage, and the tables hold what that stage has written. -/
theorem of_winner (h : Race ttlMs s₀ t s i w g) (g' : WinnerStage) {store : TokenStore}
    (hcalls : store.calls = s.calls)
    (hlinked : g.linked = true → g'.linked = true)
    (hpublished : g.published = true → g'.published = true)
    (hrows : ∀ r, r ∈ store.tokens ↔ (r ∈ s₀.tokens ∧ r ≠ t) ∨ r = rotatedRow s₀ t w g' ∨
      (g'.created = true ∧ r = newRow ttlMs s₀ t w))
    (hnext : store.tokens.next = s₀.tokens.next + if g'.created then 1 else 0)
    (hreplay : if g'.published then
        ∃ d, store.replay t.id = some ⟨s₀.tokens.next, w.now + ttlMs, d⟩
      else store.replay t.id = none) :
    Race ttlMs s₀ t { store with
      calls := store.calls.set i { w with phase := phaseOf ttlMs s₀ t w g' } } i w g' where
  winner := by
    change (store.calls.set i _)[i]? = _
    rw [hcalls, List.getElem?_set_self (List.getElem?_eq_some_iff.1 h.winner).1]
  losers k c' hk hc' := by
    change (store.calls.set i _)[k]? = _ at hc'
    rw [hcalls, List.getElem?_set_ne hk.symm] at hc'
    exact MayLose.mono (h.losers k c' hk hc') hlinked hpublished
  rows := hrows
  next := hnext
  replay := hreplay

/-- The winner's next statement: claiming, creating, linking and publishing, in this order. -/
theorem winner_proceed (h : Race ttlMs s₀ t s i w g) (hmem : t ∈ s₀.tokens)
    (htoken : w.token = t.id) {c : RotateCall}
    (hc : c = { w with phase := phaseOf ttlMs s₀ t w g }) :
    ∃ g', Race ttlMs s₀ t { (s.proceed ttlMs c).1 with
      calls := (s.proceed ttlMs c).1.calls.set i { c with phase := (s.proceed ttlMs c).2 } } i w
          g' := by
  subst hc
  have hlt : t.id < s₀.tokens.next := s₀.tokens.fresh t hmem
  cases g with
  | read =>
    have hp : s.proceed ttlMs { w with phase := phaseOf ttlMs s₀ t w .read } =
        (s, phaseOf ttlMs s₀ t w .create) := by
      simp only [TokenStore.proceed, phaseOf, htoken, h.find]
      rfl
    rw [hp]
    exact ⟨.create, h.of_winner .create rfl nofun nofun h.rows h.next h.replay⟩
  | create =>
    have hnext : s.tokens.next = s₀.tokens.next := h.next
    have hp : s.proceed ttlMs { w with phase := phaseOf ttlMs s₀ t w .create } =
        ((s.create t.userId w.agent (w.now + ttlMs)).2, phaseOf ttlMs s₀ t w .link) := by
      simp only [TokenStore.proceed, phaseOf, TokenStore.create, hnext]
      rfl
    rw [hp]
    refine ⟨.link, h.of_winner .link rfl nofun nofun (fun r => ?_) ?_ h.replay⟩
    · change r ∈ s.tokens.create _ _ ↔ _
      rw [Table.mem_create, hnext, h.rows]
      simp only [WinnerStage.created, Bool.false_eq_true, false_and, or_false, true_and]
      rw [or_assoc]
      rfl
    · change s.tokens.next + 1 = _
      rw [hnext]
      rfl
  | link =>
    have hp : s.proceed ttlMs { w with phase := phaseOf ttlMs s₀ t w .link } =
        (s.update t.id (fun r => { r with replacedById := some s₀.tokens.next }) fun _ => rfl,
          phaseOf ttlMs s₀ t w .publish) := rfl
    rw [hp]
    refine ⟨.publish, h.of_winner .publish rfl nofun nofun (fun r => ?_) h.next h.replay⟩
    rw [TokenStore.mem_update]
    constructor
    · rintro (⟨hr, hid⟩ | ⟨r', hr', hid, rfl⟩)
      · rcases (h.rows r).1 hr with hold | rfl | hnew
        · exact Or.inl hold
        · exact absurd rfl hid
        · exact Or.inr (Or.inr hnew)
      · rw [h.eq_rotated hr' hid]
        exact Or.inr (Or.inl rfl)
    · rintro (⟨hr, hne⟩ | rfl | ⟨hcreated, rfl⟩)
      · refine Or.inl ⟨(h.rows r).2 (Or.inl ⟨hr, hne⟩), fun hid => hne ?_⟩
        exact Table.eq_of_key hr hmem hid
      · exact Or.inr ⟨rotatedRow s₀ t w .link, (h.rows _).2 (Or.inr (Or.inl rfl)), rfl, rfl⟩
      · exact Or.inl ⟨(h.rows _).2 (Or.inr (Or.inr ⟨rfl, rfl⟩)), hlt.ne'⟩
  | publish =>
    have hp : s.proceed ttlMs { w with phase := phaseOf ttlMs s₀ t w .publish } =
        (s.publish w.token (nextOf ttlMs s₀ t w), phaseOf ttlMs s₀ t w .done) := rfl
    rw [hp]
    refine ⟨.done, h.of_winner .done rfl (fun hl => hl) nofun h.rows h.next
      ⟨s.clock + REFRESH_REUSE_GRACE_MS, ?_⟩⟩
    change Function.update s.replay w.token _ t.id = _
    rw [htoken, Function.update_self]
    rfl
  | done =>
    have hp : s.proceed ttlMs { w with phase := phaseOf ttlMs s₀ t w .done } =
        (s, phaseOf ttlMs s₀ t w .done) := rfl
    rw [hp]
    exact ⟨.done, h.of_winner .done rfl (fun hl => hl) (fun hl => hl) h.rows h.next h.replay⟩

end Race

/-! ## Steps and runs -/

/-- The first call to claim the token gets it, and the race begins with it as the winner. -/
theorem first_claim (h : FreshToken s₀ t) (hrows : s.tokens = s₀.tokens)
    (hreplay : s.replay t.id = none) (hwaiting : ∀ c ∈ s.calls, c.phase = .claim)
    (hc : s.calls[i]? = some c) (htoken : c.token = t.id) (hlive : c.now < t.expiresAt) :
    Race ttlMs s₀ t { (s.proceed ttlMs c).1 with
      calls := (s.proceed ttlMs c).1.calls.set i { c with phase := (s.proceed ttlMs c).2 } } i c
        .read := by
  have hmem : t ∈ s.tokens := hrows ▸ h.mem
  have hclaims : s.claims t.id c.now = true :=
    List.any_eq_true.2 ⟨t, hmem, by simp [hlive, h.notRevoked]⟩
  have hp : s.proceed ttlMs c = (s.claim t.id c.now, .read true) := by
    simp only [TokenStore.proceed, hwaiting c (List.mem_of_getElem? hc), htoken, hclaims]
  rw [hp]
  refine ⟨?_, fun j c' hj hc' => ?_, fun r => ?_, ?_, hreplay⟩
  · change (s.calls.set i _)[i]? = _
    rw [List.getElem?_set_self (List.getElem?_eq_some_iff.1 hc).1]
    rfl
  · change (s.calls.set i _)[j]? = _ at hc'
    rw [List.getElem?_set_ne hj.symm] at hc'
    exact Or.inl (hwaiting c' (List.mem_of_getElem? hc'))
  · have hselected : ∀ r ∈ s.tokens,
        (decide (r.id = t.id) && decide (c.now < r.expiresAt) && r.revokedAt.isNone) =
          true ↔ r = t := by
      intro r hr
      simp only [Bool.and_eq_true, decide_eq_true_eq, Option.isNone_iff_eq_none]
      refine ⟨fun hrow => Table.eq_of_key hr hmem hrow.1.1, ?_⟩
      rintro rfl
      exact ⟨⟨rfl, hlive⟩, h.notRevoked⟩
    change r ∈ (s.revokeWhere _ _).tokens ↔ _
    rw [TokenStore.mem_revokeWhere]
    constructor
    · rintro (⟨hr, hrow⟩ | ⟨r', hr', hrow, rfl⟩)
      · refine Or.inl ⟨hrows ▸ hr, fun hrt => ?_⟩
        rw [(hselected r hr).2 hrt] at hrow
        cases hrow
      · rw [(hselected r' hr').1 hrow]
        exact Or.inr (Or.inl rfl)
    · rintro (⟨hr, hne⟩ | rfl | ⟨hcreated, -⟩)
      · refine Or.inl ⟨hrows ▸ hr, Bool.eq_false_iff.2 fun hrow => hne ?_⟩
        exact (hselected r (hrows ▸ hr)).1 hrow
      · exact Or.inr ⟨t, hmem, (hselected t hmem).2 rfl, rfl⟩
      · cases hcreated
  · change s.tokens.next = _
    rw [hrows]
    rfl

/-- A statement of a call keeps the race, when a loser asks for the token's successor only once
it is in the cache. -/
theorem RaceInv.proceed (h : RaceInv ttlMs s₀ t s) (h₀ : FreshToken s₀ t)
    (hok : LosersComeLate s (.proceed i)) (hc : s.calls[i]? = some c) :
    RaceInv ttlMs s₀ t { (s.proceed ttlMs c).1 with
      calls := (s.proceed ttlMs c).1.calls.set i { c with phase := (s.proceed ttlMs c).2 } } := by
  have hmem : c ∈ s.calls := List.mem_of_getElem? hc
  obtain ⟨htoken, hlive, hnow⟩ := h.same c hmem
  have hcalls : (s.proceed ttlMs c).1.calls = s.calls := TokenStore.proceed_calls
  have hclock : (s.proceed ttlMs c).1.clock = s.clock := TokenStore.proceed_clock
  have hset : ∀ c' ∈ (s.proceed ttlMs c).1.calls.set i { c with phase := (s.proceed ttlMs c).2 },
      ∃ c₀ ∈ s.calls, c'.token = c₀.token ∧ c'.now = c₀.now := by
    intro c' hc'
    rw [hcalls] at hc'
    obtain hc' | rfl := List.mem_or_eq_of_mem_set hc'
    · exact ⟨c', hc', rfl, rfl⟩
    · exact ⟨c, hmem, rfl, rfl⟩
  refine ⟨fun c' hc' => ?_, fun c' hc' d hd => ?_, Or.inr ?_⟩
  · obtain ⟨c₀, hc₀, ht, hn⟩ := hset c' hc'
    change _ ∧ _ ∧ c'.now ≤ (s.proceed ttlMs c).1.clock
    rw [ht, hn, hclock]
    exact h.same c₀ hc₀
  · obtain ⟨c₀, hc₀, -, hn⟩ := hset c' hc'
    obtain ⟨d₀, hd₀, -, hn'⟩ := hset d hd
    rw [hn, hn']
    exact h.close c₀ hc₀ d₀ hd₀
  · rcases h.stage with ⟨hrows, hreplay, hwaiting⟩ | ⟨k, w, g, hrace⟩
    · exact ⟨i, c, .read, first_claim h₀ hrows hreplay hwaiting hc htoken hlive⟩
    · rcases eq_or_ne i k with rfl | hne
      · obtain rfl := Option.some.inj (hc.symm.trans hrace.winner)
        obtain ⟨g', hg'⟩ := hrace.winner_proceed h₀.mem htoken rfl
        exact ⟨i, w, g', hg'⟩
      · have hw := h.close c hmem _ (List.mem_of_getElem? hrace.winner)
        obtain ⟨hread, hlookup⟩ := hok c hc
        obtain ⟨hstore, hlose⟩ := hrace.loser_proceed h₀.notReplaced htoken hw
          (hrace.losers i c hne hc) hread hlookup
        rw [hstore]
        exact ⟨k, w, g, hrace.of_loser hne hlose⟩

/-- Every step of the race whose losers come late keeps the invariant: time passes, a call begins,
or a call goes on. -/
theorem RaceInv.step (h : RaceInv ttlMs s₀ t s) (h₀ : FreshToken s₀ t) {a : TokenAction}
    (hok : Races t s a ∧ LosersComeLate s a) (hs : s.step ttlMs a = some s') :
    RaceInv ttlMs s₀ t s' := by
  obtain ⟨hraces, hlate⟩ := hok
  cases a with
  | tick now =>
    simp only [TokenStore.step] at hs
    split at hs
    · next hnow =>
      obtain rfl := Option.some.inj hs
      refine ⟨fun c hc => ?_, h.close, ?_⟩
      · obtain ⟨htoken, hlive, hc⟩ := h.same c hc
        exact ⟨htoken, hlive, hc.trans hnow⟩
      · refine h.stage.imp_right ?_
        rintro ⟨i, w, g, hrace⟩
        exact ⟨i, w, g, hrace.winner, hrace.losers, hrace.rows, hrace.next, hrace.replay⟩
    · cases hs
  | rotate token agent =>
    obtain rfl := Option.some.inj hs
    obtain ⟨rfl, hlive, hclose⟩ := hraces
    refine ⟨fun c hc => ?_, fun c hc d hd => ?_, ?_⟩
    · obtain hc | hc := List.mem_append.1 hc
      · exact h.same c hc
      · obtain rfl := List.mem_singleton.1 hc
        exact ⟨rfl, hlive, le_rfl⟩
    · have hgrace : (0 : ℤ) ≤ REFRESH_REUSE_GRACE_MS := by decide
      obtain hc | hc := List.mem_append.1 hc <;> obtain hd | hd := List.mem_append.1 hd
      · exact h.close c hc d hd
      · obtain rfl := List.mem_singleton.1 hd
        have hnow := (h.same c hc).2.2
        show c.now - s.clock ≤ _
        omega
      · obtain rfl := List.mem_singleton.1 hc
        exact hclose d hd
      · obtain rfl := List.mem_singleton.1 hc
        obtain rfl := List.mem_singleton.1 hd
        show s.clock - s.clock ≤ _
        omega
    · rcases h.stage with ⟨hrows, hreplay, hwaiting⟩ | ⟨i, w, g, hrace⟩
      · refine Or.inl ⟨hrows, hreplay, fun c hc => ?_⟩
        obtain hc | hc := List.mem_append.1 hc
        · exact hwaiting c hc
        · obtain rfl := List.mem_singleton.1 hc
          rfl
      · exact Or.inr ⟨i, w, g, hrace.of_rotate _ agent s.clock⟩
  | proceed i =>
    simp only [TokenStore.step] at hs
    cases hc : s.calls[i]? with
    | none => simp [hc] at hs
    | some c =>
      simp only [hc, Option.some.injEq] at hs
      subst hs
      exact h.proceed h₀ hlate hc
  | signIn | fails | revokeAllForUser | revokeAgentSessions | revoke => exact hraces.elim

/-- Once every call has returned the race is over, and all calls were given the same successor. -/
theorem RaceInv.oneSession (h : RaceInv ttlMs s₀ t s) (h₀ : FreshToken s₀ t) (hany : s.calls ≠ [])
    (hall : AllReturned s) : OneSession s₀ s := by
  rcases h.stage with ⟨-, -, hwaiting⟩ | ⟨i, w, g, hrace⟩
  · obtain ⟨c, hc⟩ := List.exists_mem_of_ne_nil _ hany
    have hresult := hall c hc
    rw [hwaiting c hc] at hresult
    cases hresult
  · have hdone : g = .done := by
      have hresult := hall _ (List.mem_of_getElem? hrace.winner)
      cases g <;> first | rfl | cases hresult
    subst hdone
    refine ⟨nextOf ttlMs s₀ t w, fun c hc => ?_, newRow ttlMs s₀ t w,
      (hrace.rows _).2 (Or.inr (Or.inr ⟨rfl, rfl⟩)), rfl, rfl, rfl, fun r hr => ?_⟩
    · obtain ⟨j, hj⟩ := List.mem_iff_getElem?.1 hc
      rcases eq_or_ne j i with rfl | hne
      · obtain rfl := Option.some.inj (hj.symm.trans hrace.winner)
        rfl
      · have hresult := hall c hc
        rcases hrace.losers j c hne hj with hphase | hphase | ⟨-, hphase⟩ | ⟨-, hphase⟩
        · rw [hphase] at hresult
          cases hresult
        · rw [hphase] at hresult
          cases hresult
        · rw [hphase] at hresult
          cases hresult
        · exact hphase
    · constructor
      · intro hnew
        rcases (hrace.rows r).1 hr with ⟨hold, -⟩ | rfl | ⟨-, rfl⟩
        · exact absurd rfl (hnew r hold)
        · exact absurd rfl (hnew t h₀.mem)
        · rfl
      · rintro rfl r₀ hr₀
        exact (s₀.tokens.fresh r₀ hr₀).ne

/-- In every run in which the calls race for the token and the losers come late, one session comes
of them: all calls are answered with the one successor that the winner has made. A loser that asks
before the winner has published it gets nothing. -/
theorem one_refresh_one_session {acts : List TokenAction} (h₀ : FreshToken s₀ t)
    (h : Runs.run (TokenStore.step ttlMs) s₀ acts = some s)
    (hraces : Runs.Meets (TokenStore.step ttlMs) (Races t) s₀ acts)
    (hlate : Runs.Meets (TokenStore.step ttlMs) LosersComeLate s₀ acts) (hany : s.calls ≠ [])
    (hall : AllReturned s) : OneSession s₀ s :=
  (Runs.invariant_run (RaceInv ttlMs s₀ t) (fun _ _ _ hi ho hs => hi.step h₀ ho hs) (.start h₀)
    (hraces.and hlate) h).oneSession h₀ hany hall

/-- User 0 is signed in with the token 0. -/
def signedIn : TokenStore := (TokenStore.empty.create 0 false 604800000).2

/-- The token of a new sign-in is fresh. -/
theorem signedIn_fresh : FreshToken signedIn ⟨0, 0, 604800000, none, none, false⟩ :=
  ⟨by decide, rfl, rfl, rfl, rfl⟩

/-- The second call reads the row between the claim and the link of the first. -/
def readsTooEarly : List TokenAction :=
  [.rotate 0 false, .rotate 0 false, .proceed 0, .proceed 1, .proceed 1, .proceed 0, .proceed 0,
    .proceed 0, .proceed 0]

/-- A loser that asks before the winner has published its token gets nothing, so its
agent is signed out. -/
theorem early_loser_gets_nothing :
    ¬ ∀ (ttlMs : ℤ) (s₀ s : TokenStore) (t : RefreshToken) (acts : List TokenAction),
      FreshToken s₀ t → Runs.run (TokenStore.step ttlMs) s₀ acts = some s →
        Runs.Meets (TokenStore.step ttlMs) (Races t) s₀ acts → s.calls ≠ [] → AllReturned s →
          OneSession s₀ s := by
  intro h
  have hrun : Runs.run (TokenStore.step 604800000) signedIn readsTooEarly = some _ := rfl
  obtain ⟨next, hnext, -⟩ := h 604800000 _ _ _ _ signedIn_fresh hrun (by decide +kernel) nofun
    (by decide +kernel)
  have hnone := hnext ⟨0, false, 0, .returned none⟩ (by decide)
  cases hnone

/-- Both calls get the token 1 when the second one asks once it is in the cache:
there is one session. -/
theorem lateLoser_oneSession :
    ∃ s, Runs.run (TokenStore.step 604800000) signedIn
      [.rotate 0 false, .rotate 0 false, .proceed 0,
      .proceed 1, .proceed 0, .proceed 0, .proceed 0, .proceed 1, .proceed 0, .proceed 1] = some s ∧
        OneSession signedIn s := by
  have hrun : Runs.run (TokenStore.step 604800000) signedIn [.rotate 0 false, .rotate 0 false,
    .proceed 0, .proceed 1, .proceed 0, .proceed 0, .proceed 0, .proceed 1, .proceed 0,
    .proceed 1] = some _ := rfl
  exact ⟨_, hrun, one_refresh_one_session signedIn_fresh hrun (by decide +kernel)
    (by decide +kernel) nofun (by decide +kernel)⟩

end OneRefresh

end RxVision
