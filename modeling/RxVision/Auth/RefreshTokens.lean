import Mathlib.Algebra.Order.Group.Int
import Mathlib.Logic.Function.Basic
import RxVision.Lib.Runs
import RxVision.Lib.Table

/-!
# Refresh tokens (`auth/infrastructure/prisma-refresh-token.repository.ts`)

`rotate` claims a token, reads its row, creates the successor, links it and puts it into the cache
for the callers that lose the race; a loser (`tolerateRace`) takes the cached successor, or is
issued a token of its own. Each of these is a step of its own, and any number of calls and
revocations interleave.

A token, its hash and its row go by one number. The random tokens never repeat, and
neither do the ids.
-/

namespace RxVision

/-- `REFRESH_REUSE_GRACE_MS`: how long after a rotation the old token still buys a replacement. -/
def REFRESH_REUSE_GRACE_MS : ℤ := 30000

/-- `refresh_tokens`; `agent` says that the user agent starts with `RXVisionAgent/`. -/
structure RefreshToken where
  id : ℕ
  userId : ℕ
  expiresAt : ℤ
  revokedAt : Option ℤ := none
  replacedById : Option ℕ := none
  agent : Bool
  deriving DecidableEq, Repr

/-- `RotatedRefreshToken`. -/
structure RotatedRefreshToken where
  userId : ℕ
  token : ℕ
  expiresAt : ℤ
  deriving DecidableEq, Repr

/-- What the cache holds for the losers of a race, until it expires. -/
structure ReplayEntry where
  token : ℕ
  expiresAt : ℤ
  dropsAt : ℤ
  deriving DecidableEq, Repr

/-- The next statement of a `rotate`, with what it has read. -/
inductive RotatePhase
  | claim
  | read (claimed : Bool)
  | create (current : RefreshToken)
  | link (current : RefreshToken) (next : RotatedRefreshToken)
  | publish (current : RefreshToken) (next : RotatedRefreshToken)
  /-- The error path: the token is handed back. -/
  | handBack (current : RefreshToken)
  /-- `tolerateRace` asks the cache. -/
  | lookup (current : RefreshToken)
  /-- `tolerateRace` issues a token of its own. -/
  | issue (current : RefreshToken)
  | returned (result : Option RotatedRefreshToken)
  | threw
  deriving DecidableEq, Repr

/-- A call of `rotate`; `now` is when it began. -/
structure RotateCall where
  token : ℕ
  agent : Bool
  now : ℤ
  phase : RotatePhase
  deriving DecidableEq, Repr

/-- The tables, the cache and the calls of `rotate`, in the order they began. -/
structure TokenStore where
  clock : ℤ
  tokens : Table RefreshToken.id
  replay : ℕ → Option ReplayEntry
  calls : List RotateCall

/-- What happens around the tokens. -/
inductive TokenAction
  | tick (now : ℤ)
  /-- `issue` at a sign-in. -/
  | signIn (userId : ℕ) (agent : Bool)
  | rotate (token : ℕ) (agent : Bool)
  /-- The next statement of the call `i` succeeds, or fails. -/
  | proceed (i : ℕ)
  | fails (i : ℕ)
  | revokeAllForUser (userId : ℕ)
  | revokeAgentSessions (userId : ℕ)
  | revoke (token : ℕ)
  deriving DecidableEq, Repr

/-- A token that buys a session. -/
def RefreshToken.Live (r : RefreshToken) (now : ℤ) : Prop := r.revokedAt = none ∧ now < r.expiresAt

instance (r : RefreshToken) (now : ℤ) : Decidable (r.Live now) :=
  inferInstanceAs (Decidable (_ ∧ _))

/-- `rotatedJustNow`: the row was rotated at most the grace period before `now`. -/
def RefreshToken.rotatedJustNow (r : RefreshToken) (now : ℤ) : Bool :=
  match r.revokedAt with
  | none => false
  | some t => r.replacedById.isSome && now - t ≤ REFRESH_REUSE_GRACE_MS

namespace TokenStore

/-- Nobody has signed in yet. -/
def empty : TokenStore := ⟨0, .empty, fun _ => none, []⟩

/-! ## The statements -/

/-- Revokes the tokens that meet `p` and are not revoked. -/
def revokeWhere (s : TokenStore) (p : RefreshToken → Bool) (now : ℤ) : TokenStore :=
  { s with
    tokens := s.tokens.updateMany (fun r => p r && r.revokedAt.isNone)
      (fun r => { r with revokedAt := some now }) fun _ => rfl }

/-- After a revocation a token is one that was there and is not of those revoked, or one of those
with the time of the revocation. -/
theorem mem_revokeWhere {s : TokenStore} {p : RefreshToken → Bool} {now : ℤ} {r : RefreshToken} :
    r ∈ (s.revokeWhere p now).tokens ↔
      (r ∈ s.tokens ∧ (p r && r.revokedAt.isNone) = false) ∨
        ∃ r' ∈ s.tokens, (p r' && r'.revokedAt.isNone) = true ∧
          r = { r' with revokedAt := some now } := by
  rw [revokeWhere, Table.mem_updateMany]

/-- A revocation that selects nothing changes nothing. -/
theorem revokeWhere_eq_self {s : TokenStore} {p : RefreshToken → Bool} {now : ℤ}
    (h : ∀ r ∈ s.tokens, p r = true → r.revokedAt ≠ none) : s.revokeWhere p now = s := by
  unfold revokeWhere
  rw [Table.updateMany_eq_self]
  intro r hr hrow
  simp only [Bool.and_eq_true, Option.isNone_iff_eq_none] at hrow
  exact absurd hrow.2 (h r hr hrow.1)

/-- The claim: `updateMany` of the token when it is live. -/
def claim (s : TokenStore) (token : ℕ) (now : ℤ) : TokenStore :=
  s.revokeWhere (fun r => r.id = token && now < r.expiresAt) now

/-- Whether the claim finds a row. -/
def claims (s : TokenStore) (token : ℕ) (now : ℤ) : Bool :=
  s.tokens.rows.any fun r => r.id = token && now < r.expiresAt && r.revokedAt.isNone

/-- `findUnique`. -/
def find (s : TokenStore) (token : ℕ) : Option RefreshToken := s.tokens.find? fun r => r.id = token

/-- Creates a token that expires at `expiresAt`. -/
def create (s : TokenStore) (userId : ℕ) (agent : Bool) (expiresAt : ℤ) :
    RotatedRefreshToken × TokenStore :=
  (⟨userId, s.tokens.next, expiresAt⟩,
    { s with
      tokens := s.tokens.create (fun id => { id, userId, expiresAt, agent }) fun _ => rfl })

/-- Changes the row `id`. -/
def update (s : TokenStore) (id : ℕ) (f : RefreshToken → RefreshToken)
    (hf : ∀ r, (f r).id = r.id) : TokenStore :=
  { s with tokens := s.tokens.updateMany (fun r => r.id = id) f hf }

/-- After an update a token is another one of the store or the updated one. -/
theorem mem_update {s : TokenStore} {id : ℕ} {f : RefreshToken → RefreshToken}
    {hf : ∀ r, (f r).id = r.id} {r : RefreshToken} :
    r ∈ (s.update id f hf).tokens ↔
      (r ∈ s.tokens ∧ r.id ≠ id) ∨ ∃ r' ∈ s.tokens, r'.id = id ∧ r = f r' := by
  rw [update, Table.mem_updateMany]
  simp only [decide_eq_false_iff_not, decide_eq_true_eq]

/-- `cache.set`. -/
def publish (s : TokenStore) (token : ℕ) (next : RotatedRefreshToken) : TokenStore :=
  { s with
    replay := Function.update s.replay token
      (some ⟨next.token, next.expiresAt, s.clock + REFRESH_REUSE_GRACE_MS⟩) }

/-- `cache.get`. -/
def replayed (s : TokenStore) (token : ℕ) : Option ReplayEntry :=
  (s.replay token).filter fun e => s.clock < e.dropsAt

/-! ## The calls -/

/-- The next statement of a call succeeds: the tables after it, and where the call goes on. -/
def proceed (ttlMs : ℤ) (s : TokenStore) (c : RotateCall) : TokenStore × RotatePhase :=
  match c.phase with
  | .claim => (s.claim c.token c.now, .read (s.claims c.token c.now))
  | .read claimed =>
    match s.find c.token with
    | none => (s, .returned none)
    | some current =>
      if claimed then (s, .create current)
      else if current.rotatedJustNow c.now then (s, .lookup current)
      else (s, .returned none)
  | .create current =>
    let (next, s') := s.create current.userId c.agent (c.now + ttlMs)
    (s', .link current next)
  | .link current next =>
    (s.update current.id (fun r => { r with replacedById := some next.token }) fun _ => rfl,
      .publish current next)
  | .publish _ next => (s.publish c.token next, .returned (some next))
  | .handBack current =>
    (s.update current.id (fun r => { r with revokedAt := none }) fun _ => rfl, .threw)
  | .lookup current =>
    match s.replayed c.token with
    | some e => (s, .returned (some ⟨current.userId, e.token, e.expiresAt⟩))
    | none => (s, .issue current)
  | .issue current =>
    let (next, s') := s.create current.userId c.agent (s.clock + ttlMs)
    (s', .returned (some next))
  | .returned result => (s, .returned result)
  | .threw => (s, .threw)

/-- A step of a rotation leaves the list of calls to the caller. -/
@[simp] theorem proceed_calls {ttlMs : ℤ} {s : TokenStore} {c : RotateCall} :
    (s.proceed ttlMs c).1.calls = s.calls := by
  unfold proceed
  split <;> try rfl
  all_goals split <;> try rfl
  all_goals split <;> try rfl
  all_goals split <;> rfl

/-- It takes no time. -/
@[simp] theorem proceed_clock {ttlMs : ℤ} {s : TokenStore} {c : RotateCall} :
    (s.proceed ttlMs c).1.clock = s.clock := by
  unfold proceed
  split <;> try rfl
  all_goals split <;> try rfl
  all_goals split <;> try rfl
  all_goals split <;> rfl

/-- The next statement of a call fails. -/
def failed (c : RotateCall) : RotatePhase :=
  match c.phase with
  | .create current | .link current _ => .handBack current
  -- the cache is best-effort
  | .publish _ next => .returned (some next)
  | .returned result => .returned result
  | _ => .threw

/-- One step; `none` when it cannot happen. -/
def step (ttlMs : ℤ) (s : TokenStore) : TokenAction → Option TokenStore
  | .tick now => if s.clock ≤ now then some { s with clock := now } else none
  | .signIn userId agent => some (s.create userId agent (s.clock + ttlMs)).2
  | .rotate token agent =>
    some { s with calls := s.calls ++ [⟨token, agent, s.clock, .claim⟩] }
  | .proceed i =>
    match s.calls[i]? with
    | some c =>
      let (s', phase) := s.proceed ttlMs c
      some { s' with calls := s'.calls.set i { c with phase } }
    | none => none
  | .fails i =>
    match s.calls[i]? with
    | some c => some { s with calls := s.calls.set i { c with phase := failed c } }
    | none => none
  | .revokeAllForUser userId => some (s.revokeWhere (fun r => r.userId = userId) s.clock)
  | .revokeAgentSessions userId =>
    some (s.revokeWhere (fun r => r.userId = userId && r.agent) s.clock)
  | .revoke token => some (s.revokeWhere (fun r => r.id = token) s.clock)

end TokenStore

end RxVision
