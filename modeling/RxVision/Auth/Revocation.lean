import RxVision.Auth.RefreshTokens

/-!
# Revocation

A revocation is meant for the tokens its statement selects, and for what `rotate` mints from them.
Four things get around it: a rotation that has claimed its token and not yet created the successor,
a successor that the statement does not select, the error path that hands a token back, and a token
that `tolerateRace` issues. In every run where none of them happens to a token that a revocation was
meant for, nothing minted from such a token is live (`revocation_is_final`).
-/

namespace RxVision

/-- The tokens a revocation is meant for; no other action is one. -/
def TokenAction.isMeantFor : TokenAction → RefreshToken → Bool
  | .revokeAllForUser userId, r => r.userId = userId
  | .revokeAgentSessions userId, r => r.userId = userId && r.agent
  | .revoke token, r => r.id = token
  | _, _ => false

/-- The token whose successor the next statement of a call mints. -/
def RotatePhase.mints : RotatePhase → Option RefreshToken
  | .create current | .issue current => some current
  | _ => none

/-- The store, the tokens that revocations were meant for, and of each token the ones that it was
minted from, directly or over several rotations. -/
structure RevocationTrace where
  store : TokenStore
  meant : List ℕ
  mintedFrom : ℕ → List ℕ

/-- The call has claimed its token and not yet created the successor. -/
def RotateCall.minting (c : RotateCall) : Bool :=
  match c.phase with
  | .read true | .create _ => true
  | _ => false

/-- The next statement of the call hands its token back, or issues one of its own. -/
def RotateCall.goesBack (c : RotateCall) : Bool :=
  match c.phase with
  | .handBack _ | .issue _ => true
  | _ => false

/-- The call whose next statement succeeds. -/
def TokenAction.callOf (a : TokenAction) (calls : List RotateCall) : Option RotateCall :=
  match a with
  | .proceed i => calls[i]?
  | _ => none

/-- What a call has read of its token, when it goes on with it. -/
def RotatePhase.current : RotatePhase → Option RefreshToken
  | .create current | .link current _ | .publish current _ | .handBack current | .lookup current
  | .issue current => some current
  | .claim | .read _ | .returned _ | .threw => none

namespace RevocationTrace

/-- Nobody has signed in yet. -/
def empty : RevocationTrace := ⟨.empty, [], fun _ => []⟩

/-- One step, with what it revokes and mints. -/
def step (ttlMs : ℤ) (w : RevocationTrace) (a : TokenAction) : Option RevocationTrace :=
  (w.store.step ttlMs a).map fun store =>
    { store
      meant := (w.store.tokens.rows.filter a.isMeantFor).map RefreshToken.id ++ w.meant
      mintedFrom :=
        match (a.callOf w.store.calls).bind fun c => c.phase.mints with
        | some parent =>
          Function.update w.mintedFrom w.store.tokens.next (parent.id :: w.mintedFrom parent.id)
        | none => w.mintedFrom }

/-- No call of `rotate` is under way. -/
def Quiet (w : RevocationTrace) : Prop :=
  ∀ c ∈ w.store.calls, (∃ result, c.phase = .returned result) ∨ c.phase = .threw

/-- Nothing minted from a token that a revocation was meant for is live. -/
def RevocationsFinal (w : RevocationTrace) : Prop :=
  ∀ r ∈ w.store.tokens, r.Live w.store.clock → ∀ m ∈ w.meant, m ∉ w.mintedFrom r.id

/-- A revocation was meant for the token, or for one that it was minted from. -/
def Tainted (w : RevocationTrace) (id : ℕ) : Prop := ∃ m ∈ w.meant, m = id ∨ m ∈ w.mintedFrom id

/-- The action is meant for the token, or for one that it was minted from. -/
def MeantBy (w : RevocationTrace) (a : TokenAction) (id : ℕ) : Prop :=
  ∃ m ∈ w.store.tokens, a.isMeantFor m = true ∧ (m.id = id ∨ m.id ∈ w.mintedFrom id)

/-- The token can be claimed: it is live, or was when a rotation of it that is under way began. -/
def Usable (s : TokenStore) (r : RefreshToken) : Prop :=
  r.revokedAt = none ∧ (s.clock < r.expiresAt ∨
    ∃ c ∈ s.calls, c.phase = .claim ∧ c.token = r.id ∧ c.now < r.expiresAt)

/-- A revocation finds no rotation between its claim and its successor, and selects what can still
be claimed of the tokens minted from the ones it is meant for; a call neither hands back nor issues
from a token that a revocation was meant for. -/
def RevokesAll (w : RevocationTrace) (a : TokenAction) : Prop :=
  (∀ c ∈ w.store.calls, c.minting → ¬ w.MeantBy a c.token) ∧
    (∀ r ∈ w.store.tokens, Usable w.store r → w.MeantBy a r.id → a.isMeantFor r = true) ∧
    ∀ c ∈ a.callOf w.store.calls, c.goesBack → ¬ w.Tainted c.token

instance (w : RevocationTrace) (id : ℕ) : Decidable (w.Tainted id) :=
  inferInstanceAs (Decidable (∃ m ∈ w.meant, m = id ∨ m ∈ w.mintedFrom id))

instance (w : RevocationTrace) (a : TokenAction) (id : ℕ) : Decidable (w.MeantBy a id) :=
  inferInstanceAs (Decidable (∃ m ∈ w.store.tokens.rows,
    a.isMeantFor m = true ∧ (m.id = id ∨ m.id ∈ w.mintedFrom id)))

instance (s : TokenStore) (r : RefreshToken) : Decidable (Usable s r) :=
  inferInstanceAs (Decidable (_ ∧ (_ ∨ _)))

instance (w : RevocationTrace) (a : TokenAction) : Decidable (w.RevokesAll a) :=
  inferInstanceAs (Decidable ((∀ c ∈ w.store.calls, c.minting → ¬ w.MeantBy a c.token) ∧
    (∀ r ∈ w.store.tokens.rows, Usable w.store r → w.MeantBy a r.id → a.isMeantFor r = true) ∧
    ∀ c ∈ a.callOf w.store.calls, c.goesBack → ¬ w.Tainted c.token))

/-- What a step keeps: nothing that can be claimed, and nothing that a call is about to
mint from, is tainted. -/
structure RevocationInv (w : RevocationTrace) : Prop where
  usable : ∀ r ∈ w.store.tokens, Usable w.store r → ¬ w.Tainted r.id
  minting : ∀ c ∈ w.store.calls, c.minting → ¬ w.Tainted c.token ∧ c.token < w.store.tokens.next
  current : ∀ c ∈ w.store.calls, ∀ r, c.phase.current = some r →
    r.id = c.token ∧ c.token < w.store.tokens.next
  fresh : ∀ id, w.store.tokens.next ≤ id → w.mintedFrom id = []
  old : ∀ m ∈ w.meant, m < w.store.tokens.next

variable {w w' : RevocationTrace} {ttlMs : ℤ}

namespace RevocationInv

/-- A store without tokens. -/
theorem empty : RevocationInv RevocationTrace.empty where
  usable := fun r hr => absurd hr (Table.not_mem_empty r)
  minting := fun _ hc => absurd hc List.not_mem_nil
  current := fun _ hc => absurd hc List.not_mem_nil
  fresh := fun _ _ => rfl
  old := fun _ hm => absurd hm List.not_mem_nil

/-- What the invariant says of the tokens is that revocations are final. -/
theorem revocationsFinal (h : RevocationInv w) : w.RevocationsFinal := by
  intro r hr hlive m hm hfrom
  exact h.usable r hr ⟨hlive.1, Or.inl hlive.2⟩ ⟨m, hm, Or.inr hfrom⟩

/-! ## Tokens and calls -/

/-- Tokens change their columns: what can be claimed afterwards could be before, or is
not tainted. -/
theorem of_tokens (h : RevocationInv w) {tokens : Table RefreshToken.id}
    (hnext : tokens.next = w.store.tokens.next)
    (hrows : ∀ r' ∈ tokens, r'.revokedAt = none → ¬ w.Tainted r'.id ∨
      ∃ r ∈ w.store.tokens, r.revokedAt = none ∧ r.id = r'.id ∧ r.expiresAt = r'.expiresAt) :
    RevocationInv { w with store := { w.store with tokens } } where
  usable := by
    rintro r' hr' ⟨hrevoked, huse⟩
    rcases hrows r' hr' hrevoked with hnot | ⟨r, hr, hopen, hid, hexp⟩
    · exact hnot
    · rw [← hid]
      rw [← hid, ← hexp] at huse
      exact h.usable r hr ⟨hopen, huse⟩
  minting := by
    intro c hc hm
    obtain ⟨hnot, hlt⟩ := h.minting c hc hm
    exact ⟨hnot, hnext ▸ hlt⟩
  current := by
    intro c hc r hr
    obtain ⟨hid, hlt⟩ := h.current c hc r hr
    exact ⟨hid, hnext ▸ hlt⟩
  fresh := fun id hid => h.fresh id (hnext ▸ hid)
  old := fun m hm => hnext ▸ h.old m hm

/-- A call goes on and is not about to claim: it mints from a token that is not
tainted, or reads. -/
theorem of_phase (h : RevocationInv w) {i : ℕ} {c : RotateCall} {phase : RotatePhase}
    (hclaim : phase ≠ .claim)
    (hmints : ({ c with phase } : RotateCall).minting →
      ¬ w.Tainted c.token ∧ c.token < w.store.tokens.next)
    (hcurrent : ∀ r, phase.current = some r → r.id = c.token ∧ c.token < w.store.tokens.next) :
    RevocationInv { w with
      store := { w.store with calls := w.store.calls.set i { c with phase } } } where
  usable := by
    rintro r hr ⟨hopen, huse⟩
    refine h.usable r hr ⟨hopen, huse.imp_right ?_⟩
    rintro ⟨c', hc', hphase, htoken, hnow⟩
    rcases List.mem_or_eq_of_mem_set hc' with hc' | rfl
    · exact ⟨c', hc', hphase, htoken, hnow⟩
    · exact absurd hphase hclaim
  minting := by
    intro c' hc' hm
    rcases List.mem_or_eq_of_mem_set hc' with hc' | rfl
    · exact h.minting c' hc' hm
    · exact hmints hm
  current := by
    intro c' hc' r hr
    rcases List.mem_or_eq_of_mem_set hc' with hc' | rfl
    · exact h.current c' hc' r hr
    · exact hcurrent r hr
  fresh := h.fresh
  old := h.old

/-- A token is created, at a sign-in or from a token that is not tainted, so it is
not tainted either. -/
theorem create (h : RevocationInv w) {row : ℕ → RefreshToken} {hrow : ∀ n, (row n).id = n}
    {origin : List ℕ} (horigin : ∀ m ∈ w.meant, m ∉ origin) :
    RevocationInv { w with
      store := { w.store with tokens := w.store.tokens.create row hrow }
      mintedFrom := Function.update w.mintedFrom w.store.tokens.next origin } := by
  have hnext : (w.store.tokens.create row hrow).next = w.store.tokens.next + 1 := rfl
  have hsame : ∀ id, id < w.store.tokens.next →
      Function.update w.mintedFrom w.store.tokens.next origin id = w.mintedFrom id :=
    fun id hid => Function.update_of_ne (by omega) _ _
  constructor
  case usable =>
    rintro r hr huse ⟨m, hm, hfrom⟩
    change r ∈ w.store.tokens.create row hrow at hr
    rcases Table.mem_create.1 hr with hr | rfl
    · have hlt := w.store.tokens.fresh r hr
      change m = r.id ∨ m ∈ Function.update w.mintedFrom w.store.tokens.next origin r.id at hfrom
      rw [hsame r.id hlt] at hfrom
      exact h.usable r hr huse ⟨m, hm, hfrom⟩
    · rw [hrow] at hfrom
      change m = _ ∨ m ∈ Function.update w.mintedFrom w.store.tokens.next origin _ at hfrom
      rw [Function.update_self] at hfrom
      rcases hfrom with heq | hfrom
      · exact absurd (h.old m hm) (by omega)
      · exact horigin m hm hfrom
  case minting =>
    intro c hc hmint
    obtain ⟨hnot, hlt⟩ := h.minting c hc hmint
    refine ⟨?_, by rw [hnext]; omega⟩
    rintro ⟨m, hm, hfrom⟩
    change m = c.token ∨ m ∈ Function.update w.mintedFrom w.store.tokens.next origin
      c.token at hfrom
    rw [hsame c.token hlt] at hfrom
    exact hnot ⟨m, hm, hfrom⟩
  case current =>
    intro c hc r hr
    obtain ⟨hid, hlt⟩ := h.current c hc r hr
    exact ⟨hid, by rw [hnext]; omega⟩
  case fresh =>
    intro id hid
    rw [hnext] at hid
    have hold := h.fresh id (by omega)
    have hne : id ≠ w.store.tokens.next := by omega
    change Function.update w.mintedFrom w.store.tokens.next origin id = []
    rw [Function.update_of_ne hne]
    exact hold
  case old =>
    intro m hm
    have hlt := h.old m hm
    rw [hnext]
    omega

/-- Time passes: fewer tokens are usable, and none becomes so. -/
theorem tick (h : RevocationInv w) {now : ℤ} (hnow : w.store.clock ≤ now) :
    RevocationInv { w with store := { w.store with clock := now } } where
  usable := by
    rintro r hr ⟨hopen, huse⟩
    refine h.usable r hr ⟨hopen, huse.imp_left fun hlive => ?_⟩
    exact hnow.trans_lt hlive
  minting := h.minting
  current := h.current
  fresh := h.fresh
  old := h.old

/-- A call begins; its token is asked about only when it claims. -/
theorem rotate (h : RevocationInv w) (token : ℕ) (agent : Bool) :
    RevocationInv { w with
      store := { w.store with
        calls := w.store.calls ++ [⟨token, agent, w.store.clock, .claim⟩] } } where
  usable := by
    rintro r hr ⟨hopen, huse⟩
    refine h.usable r hr ⟨hopen, ?_⟩
    rcases huse with hlive | ⟨c, hc, hphase, htoken, hnow⟩
    · exact Or.inl hlive
    · rcases List.mem_append.1 hc with hc | hc
      · exact Or.inr ⟨c, hc, hphase, htoken, hnow⟩
      · obtain rfl := List.mem_singleton.1 hc
        exact Or.inl hnow
  minting := by
    intro c hc hm
    rcases List.mem_append.1 hc with hc | hc
    · exact h.minting c hc hm
    · obtain rfl := List.mem_singleton.1 hc
      cases hm
  current := by
    intro c hc r hr
    rcases List.mem_append.1 hc with hc | hc
    · exact h.current c hc r hr
    · obtain rfl := List.mem_singleton.1 hc
      cases hr
  fresh := h.fresh
  old := h.old

/-- A revocation that finds nothing in its way takes every token it means and every one that
was made from them. -/
theorem revoke (h : RevocationInv w) {a : TokenAction} (hok : RevokesAll w a) (now : ℤ) :
    RevocationInv { w with
      store := w.store.revokeWhere a.isMeantFor now
      meant := (w.store.tokens.rows.filter a.isMeantFor).map RefreshToken.id ++ w.meant } where
  usable := by
    rintro r' hr' ⟨hopen, huse⟩ ⟨m, hm, hfrom⟩
    rcases TokenStore.mem_revokeWhere.1 hr' with ⟨hr₀, hnot⟩ | ⟨r, -, -, rfl⟩
    · have hkept : a.isMeantFor r' = false := by
        simpa [hopen] using hnot
      have huse' : Usable w.store r' := ⟨hopen, huse⟩
      rcases List.mem_append.1 hm with hm | hm
      · obtain ⟨r, hr, rfl⟩ := List.mem_map.1 hm
        obtain ⟨hr, hmeant⟩ := List.mem_filter.1 hr
        have := hok.2.1 r' hr₀ huse' ⟨r, hr, hmeant, hfrom⟩
        rw [hkept] at this
        cases this
      · exact h.usable r' hr₀ huse' ⟨m, hm, hfrom⟩
    · cases hopen
  minting := by
    intro c hc hmint
    obtain ⟨hnot, hlt⟩ := h.minting c hc hmint
    refine ⟨?_, hlt⟩
    rintro ⟨m, hm, hfrom⟩
    rcases List.mem_append.1 hm with hm | hm
    · obtain ⟨r, hr, rfl⟩ := List.mem_map.1 hm
      obtain ⟨hr, hmeant⟩ := List.mem_filter.1 hr
      exact hok.1 c hc hmint ⟨r, hr, hmeant, hfrom⟩
    · exact hnot ⟨m, hm, hfrom⟩
  current := h.current
  fresh := h.fresh
  old := by
    intro m hm
    rcases List.mem_append.1 hm with hm | hm
    · obtain ⟨r, hr, rfl⟩ := List.mem_map.1 hm
      exact w.store.tokens.fresh r (List.mem_filter.1 hr).1
    · exact h.old m hm

/-! ## The statements of a call -/

/-- What a call changes of a token that it does not hand back. -/
theorem of_update (h : RevocationInv w) (id : ℕ) {f : RefreshToken → RefreshToken}
    {hf : ∀ r, (f r).id = r.id} (hrevoked : ∀ r, (f r).revokedAt = r.revokedAt)
    (hexp : ∀ r, (f r).expiresAt = r.expiresAt) :
    RevocationInv { w with store := w.store.update id f hf } := by
  refine h.of_tokens rfl fun r' hr' hopen => Or.inr ?_
  change r' ∈ (w.store.update id f hf).tokens at hr'
  rcases TokenStore.mem_update.1 hr' with ⟨hr, -⟩ | ⟨r, hr, -, rfl⟩
  · exact ⟨r', hr, hopen, rfl, rfl⟩
  · exact ⟨r, hr, (hrevoked r).symm.trans hopen, (hf r).symm, (hexp r).symm⟩

/-- A token is handed back that no revocation was meant for. -/
theorem handBack (h : RevocationInv w) {id : ℕ} (hnot : ¬ w.Tainted id) :
    RevocationInv { w with
      store := w.store.update id (fun r => { r with revokedAt := none }) fun _ => rfl } := by
  refine h.of_tokens rfl fun r' hr' hopen => ?_
  change r' ∈ (w.store.update id (fun r => { r with revokedAt := none }) fun _ => rfl).tokens at hr'
  rcases TokenStore.mem_update.1 hr' with ⟨hr, -⟩ | ⟨r, hr, hid, rfl⟩
  · exact Or.inr ⟨r', hr, hopen, rfl, rfl⟩
  · refine Or.inl ?_
    rwa [show ({ r with revokedAt := none } : RefreshToken).id = id from hid]

/-- The claim of a call. -/
theorem claim (h : RevocationInv w) {token : ℕ} {now : ℤ} :
    RevocationInv { w with store := w.store.claim token now } := by
  refine h.of_tokens rfl fun r' hr' hopen => Or.inr ?_
  change r' ∈ (w.store.claim token now).tokens at hr'
  rcases TokenStore.mem_revokeWhere.1 hr' with ⟨hr, -⟩ | ⟨r, -, -, rfl⟩
  · exact ⟨r', hr, hopen, rfl, rfl⟩
  · cases hopen

/-- A call that finds its token claims one that no revocation was meant for. -/
theorem not_tainted_of_claims (h : RevocationInv w) {c : RotateCall} (hc : c ∈ w.store.calls)
    (hphase : c.phase = .claim) (hclaims : w.store.claims c.token c.now = true) :
    ¬ w.Tainted c.token ∧ c.token < w.store.tokens.next := by
  obtain ⟨r, hr, hrow⟩ := List.any_eq_true.1 hclaims
  simp only [Bool.and_eq_true, decide_eq_true_eq, Option.isNone_iff_eq_none] at hrow
  obtain ⟨⟨hid, hnow⟩, hopen⟩ := hrow
  rw [← hid]
  exact ⟨h.usable r hr ⟨hopen, Or.inr ⟨c, hc, hphase, hid.symm, hnow⟩⟩,
    w.store.tokens.fresh r hr⟩

/-- What a call finds is the row of its token. -/
theorem find_spec {c : RotateCall} {r : RefreshToken} (hr : w.store.find c.token = some r) :
    r.id = c.token ∧ c.token < w.store.tokens.next := by
  have hid : r.id = c.token := by
    have hspec := Table.find?_spec hr
    rwa [decide_eq_true_eq] at hspec
  have hfresh := w.store.tokens.fresh r (Table.mem_of_find? hr)
  rw [hid] at hfresh
  exact ⟨hid, hfresh⟩

/-- The next statement of a call succeeds and keeps the invariant, unless it mints from a token that
was revoked meanwhile. -/
theorem proceed (h : RevocationInv w) {i : ℕ} (hok : RevokesAll w (.proceed i))
    (hs : w.step ttlMs (.proceed i) = some w') : RevocationInv w' := by
  simp only [step, TokenStore.step] at hs
  cases hc : w.store.calls[i]? with
  | none => simp [hc] at hs
  | some c =>
    have hmem : c ∈ w.store.calls := List.mem_of_getElem? hc
    have hguard := hok.2.2 c hc
    simp only [TokenAction.callOf, hc, Option.map_some, Option.some.injEq, Option.bind_some] at hs
    have hmeant : (w.store.tokens.rows.filter (TokenAction.proceed i).isMeantFor).map
        RefreshToken.id ++ w.meant = w.meant := by simp [TokenAction.isMeantFor]
    rw [hmeant] at hs
    subst hs
    cases hphase : c.phase with
    | claim =>
      have hp : w.store.proceed ttlMs c =
          (w.store.claim c.token c.now, .read (w.store.claims c.token c.now)) := by
        simp only [TokenStore.proceed, hphase]
      rw [hp]
      refine h.claim.of_phase nofun (fun hm => ?_) nofun
      have hclaims : w.store.claims c.token c.now = true := by
        cases hclaims : w.store.claims c.token c.now with
        | true => rfl
        | false => simp [RotateCall.minting, hclaims] at hm
      exact h.not_tainted_of_claims hmem hphase hclaims
    | read claimed =>
      cases hfind : w.store.find c.token with
      | none =>
        have hp : w.store.proceed ttlMs c = (w.store, .returned none) := by
          simp only [TokenStore.proceed, hphase, hfind]
        rw [hp]
        exact h.of_phase nofun nofun nofun
      | some r =>
        have hr := find_spec hfind
        cases claimed with
        | true =>
          have hp : w.store.proceed ttlMs c = (w.store, .create r) := by
            simp only [TokenStore.proceed, hphase, hfind, if_true]
          rw [hp]
          refine h.of_phase nofun (fun _ => h.minting c hmem (by simp [RotateCall.minting, hphase]))
            fun r' hr' => ?_
          obtain rfl := Option.some.inj hr'
          exact hr
        | false =>
          cases hjust : r.rotatedJustNow c.now with
          | true =>
            have hp : w.store.proceed ttlMs c = (w.store, .lookup r) := by
              simp [TokenStore.proceed, hphase, hfind, hjust]
            rw [hp]
            refine h.of_phase nofun nofun fun r' hr' => ?_
            obtain rfl := Option.some.inj hr'
            exact hr
          | false =>
            have hp : w.store.proceed ttlMs c = (w.store, .returned none) := by
              simp [TokenStore.proceed, hphase, hfind, hjust]
            rw [hp]
            exact h.of_phase nofun nofun nofun
    | create r =>
      -- the token was claimed, and no revocation has come since
      obtain ⟨hid, hlt⟩ := h.current c hmem r (by rw [hphase]; rfl)
      have hnot := (h.minting c hmem (by simp [RotateCall.minting, hphase])).1
      have hp : w.store.proceed ttlMs c =
          ((w.store.create r.userId c.agent (c.now + ttlMs)).2,
            .link r (w.store.create r.userId c.agent (c.now + ttlMs)).1) := by
        simp only [TokenStore.proceed, hphase]
      rw [hp]
      refine (h.create fun m hm hfrom => ?_).of_phase nofun
        nofun fun r' hr' => ?_
      · rw [hid] at hfrom
        exact hnot ⟨m, hm, (List.mem_cons.1 hfrom)⟩
      · obtain rfl := Option.some.inj hr'
        exact ⟨hid, Nat.lt_succ_of_lt hlt⟩
    | link r next =>
      have hr := h.current c hmem r (by rw [hphase]; rfl)
      have hp : w.store.proceed ttlMs c =
          (w.store.update r.id (fun r => { r with replacedById := some next.token }) fun _ => rfl,
            .publish r next) := by
        simp only [TokenStore.proceed, hphase]
      rw [hp]
      have hrow : RevocationInv { w with
          store := w.store.update r.id (fun r => { r with replacedById := some next.token })
            fun _ => rfl } :=
        h.of_update r.id (fun _ => rfl) fun _ => rfl
      refine hrow.of_phase nofun nofun fun r' hr' => ?_
      obtain rfl := Option.some.inj hr'
      exact hr
    | publish r next =>
      have hp : w.store.proceed ttlMs c =
          (w.store.publish c.token next, .returned (some next)) := by
        simp only [TokenStore.proceed, hphase]
      rw [hp]
      have hput : RevocationInv { w with store := w.store.publish c.token next } :=
        ⟨h.usable, h.minting, h.current, h.fresh, h.old⟩
      exact hput.of_phase nofun nofun nofun
    | handBack r =>
      obtain ⟨hid, -⟩ := h.current c hmem r (by rw [hphase]; rfl)
      have hnot : ¬ w.Tainted r.id := hid ▸ hguard (by simp [RotateCall.goesBack, hphase])
      have hp : w.store.proceed ttlMs c =
          (w.store.update r.id (fun r => { r with revokedAt := none }) fun _ => rfl, .threw) := by
        simp only [TokenStore.proceed, hphase]
      rw [hp]
      exact (h.handBack hnot).of_phase nofun nofun nofun
    | lookup r =>
      cases hcache : w.store.replayed c.token with
      | none =>
        have hp : w.store.proceed ttlMs c = (w.store, .issue r) := by
          simp only [TokenStore.proceed, hphase, hcache]
        rw [hp]
        refine h.of_phase nofun nofun fun r' hr' => ?_
        exact h.current c hmem r' (by rw [hphase]; exact hr')
      | some e =>
        have hp : w.store.proceed ttlMs c =
            (w.store, .returned (some ⟨r.userId, e.token, e.expiresAt⟩)) := by
          simp only [TokenStore.proceed, hphase, hcache]
        rw [hp]
        exact h.of_phase nofun nofun nofun
    | issue r =>
      obtain ⟨hid, -⟩ := h.current c hmem r (by rw [hphase]; rfl)
      have hnot := hguard (by simp [RotateCall.goesBack, hphase])
      have hp : w.store.proceed ttlMs c =
          ((w.store.create r.userId c.agent (w.store.clock + ttlMs)).2,
            .returned (some (w.store.create r.userId c.agent (w.store.clock + ttlMs)).1)) := by
        simp only [TokenStore.proceed, hphase]
      rw [hp]
      refine (h.create fun m hm hfrom => ?_).of_phase nofun
        nofun nofun
      rw [hid] at hfrom
      exact hnot ⟨m, hm, List.mem_cons.1 hfrom⟩
    | returned result =>
      have hp : w.store.proceed ttlMs c = (w.store, .returned result) := by
        simp only [TokenStore.proceed, hphase]
      rw [hp]
      exact h.of_phase nofun nofun nofun
    | threw =>
      have hp : w.store.proceed ttlMs c = (w.store, .threw) := by
        simp only [TokenStore.proceed, hphase]
      rw [hp]
      exact h.of_phase nofun nofun nofun

/-- The next statement of a call fails, and the tables are as they were. -/
theorem fails (h : RevocationInv w) {i : ℕ} {c : RotateCall} (hc : w.store.calls[i]? = some c) :
    RevocationInv { w with
      store := { w.store with
        calls := w.store.calls.set i { c with phase := TokenStore.failed c } } } := by
  have hmem : c ∈ w.store.calls := List.mem_of_getElem? hc
  refine h.of_phase ?_ (fun hm => ?_) fun r hr => ?_
  · cases hphase : c.phase <;> simp [TokenStore.failed, hphase]
  · cases hphase : c.phase <;> simp [RotateCall.minting, TokenStore.failed, hphase] at hm
  · refine h.current c hmem r ?_
    cases hphase : c.phase <;> simp [TokenStore.failed, hphase, RotatePhase.current] at hr ⊢ <;>
      exact hr

/-- Nobody is meant by an action that is no revocation. -/
theorem meant_eq {a : TokenAction} (ha : ∀ r, a.isMeantFor r = false) :
    (w.store.tokens.rows.filter a.isMeantFor).map RefreshToken.id ++ w.meant = w.meant := by
  rw [List.filter_eq_nil_iff.2 fun r _ => by rw [ha r]; nofun]
  rfl

/-- Every step that meets the condition keeps that nothing usable comes from a revoked token. -/
theorem step (h : RevocationInv w) {a : TokenAction} (hok : RevokesAll w a)
    (hs : w.step ttlMs a = some w') : RevocationInv w' := by
  cases a with
  | proceed i => exact h.proceed hok hs
  | tick now =>
    have hmeant := meant_eq (w := w) (a := .tick now) fun _ => rfl
    simp only [RevocationTrace.step, TokenStore.step, hmeant, TokenAction.callOf,
      Option.bind_none] at hs
    split at hs
    · next hnow =>
      obtain rfl := Option.some.inj hs
      exact h.tick hnow
    · cases hs
  | signIn userId agent =>
    have hmeant := meant_eq (w := w) (a := .signIn userId agent) fun _ => rfl
    simp only [RevocationTrace.step, TokenStore.step, hmeant, TokenAction.callOf, Option.bind_none,
      Option.map_some, Option.some.injEq] at hs
    subst hs
    have hmint : Function.update w.mintedFrom w.store.tokens.next [] = w.mintedFrom := by
      rw [← h.fresh w.store.tokens.next le_rfl, Function.update_eq_self]
    have hcreate : RevocationInv { w with
        store := (w.store.create userId agent (w.store.clock + ttlMs)).2
        mintedFrom := Function.update w.mintedFrom w.store.tokens.next [] } :=
      h.create fun _ _ => List.not_mem_nil
    rw [hmint] at hcreate
    exact hcreate
  | rotate token agent =>
    have hmeant := meant_eq (w := w) (a := .rotate token agent) fun _ => rfl
    simp only [RevocationTrace.step, TokenStore.step, hmeant, TokenAction.callOf, Option.bind_none,
      Option.map_some, Option.some.injEq] at hs
    subst hs
    exact h.rotate token agent
  | fails i =>
    have hmeant := meant_eq (w := w) (a := .fails i) fun _ => rfl
    simp only [RevocationTrace.step, TokenStore.step, hmeant, TokenAction.callOf,
      Option.bind_none] at hs
    cases hc : w.store.calls[i]? with
    | none => simp [hc] at hs
    | some c =>
      simp only [hc, Option.map_some, Option.some.injEq] at hs
      subst hs
      exact h.fails hc
  | revokeAllForUser userId =>
    obtain rfl := Option.some.inj hs
    exact h.revoke hok w.store.clock
  | revokeAgentSessions userId =>
    obtain rfl := Option.some.inj hs
    exact h.revoke hok w.store.clock
  | revoke token =>
    obtain rfl := Option.some.inj hs
    exact h.revoke hok w.store.clock

end RevocationInv

/-- In every run whose revocations find nothing in their way, nothing that was minted from a token
they were meant for is live, however many rotations follow. -/
theorem revocation_is_final {acts : List TokenAction}
    (h : Runs.run (step ttlMs) empty acts = some w)
    (hok : Runs.Meets (step ttlMs) RevokesAll empty acts) : w.RevocationsFinal :=
  (Runs.invariant_run RevocationInv (fun _ _ _ hi ho hs => hi.step ho hs) .empty hok
    h).revocationsFinal

/-- User 0 signs in, and everything of theirs is revoked while a rotation has claimed the token. -/
def revokedAfterClaim : List TokenAction :=
  [.signIn 0 false, .rotate 0 false, .proceed 0, .proceed 0, .revokeAllForUser 0, .proceed 0,
    .proceed 0, .proceed 0]

/-- The rotation goes on after the revocation, and its successor is live. -/
theorem rotation_outlives_revocation :
    ¬ ∀ (ttlMs : ℤ) (acts : List TokenAction) (w : RevocationTrace),
      Runs.run (step ttlMs) empty acts = some w → w.Quiet → w.RevocationsFinal := by
  intro h
  have hrun : Runs.run (step 604800000) empty revokedAfterClaim = some _ := rfl
  refine h 604800000 _ _ hrun ?_ ⟨1, 0, 604800000, none, none, false⟩ (by decide) ⟨rfl, by decide⟩ 0
    (by decide) (by decide)
  intro c hc
  obtain rfl := List.mem_singleton.1 hc
  exact Or.inl ⟨_, rfl⟩

/-- Once the successor is linked, the revocation reaches it too, and it rotates no more. -/
theorem revokedAfterLink_final :
    ∃ w, Runs.run (step 604800000) empty [.signIn 0 false, .rotate 0 false, .proceed 0, .proceed 0,
      .proceed 0, .proceed 0, .revokeAllForUser 0, .proceed 0, .rotate 1 false, .proceed 1,
      .proceed 1] = some w ∧ w.RevocationsFinal := by
  have hrun : Runs.run (step 604800000) empty [.signIn 0 false, .rotate 0 false, .proceed 0,
    .proceed 0, .proceed 0, .proceed 0, .revokeAllForUser 0, .proceed 0,
      .rotate 1 false, .proceed 1,
    .proceed 1] = some _ := rfl
  exact ⟨_, hrun, revocation_is_final hrun (by decide +kernel)⟩

end RevocationTrace

end RxVision
