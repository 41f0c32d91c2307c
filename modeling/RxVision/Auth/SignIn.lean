import RxVision.Lib.Runs
import RxVision.Auth.LoginLimits

/-!
# Signing in (`use-cases/login-user.use-case.ts`)

A sign-in asks whether the account is locked, looks the account up, asks whether the client address
has failed too often, compares the password, and counts it when it is wrong. Sign-ins overlap: those
that were let through before the account was locked are still compared. What an account keeps of its
failures is one number, the time of the first of them and the end of the lock (`Lockout`); it bounds
how many passwords of an account are compared in any 15 minutes by the sign-ins that are under way
at once (`guesses_bounded`).
-/

namespace RxVision

/-- What the sign-in reads of an account. -/
structure LoginUser where
  id : ℕ
  isActive : Bool
  deriving DecidableEq, Repr

/-- How far a sign-in that was let through has come. -/
inductive SignInPhase
  | begun
  /-- The address has failed too often; whether the account signed in from it before is read. -/
  | asking (user : LoginUser) (blockedMin : ℤ)
  /-- The password is compared, with a fixed hash when there is no account. -/
  | comparing (user : Option LoginUser) (blockedMin : ℤ)
  deriving DecidableEq, Repr

structure SignIn where
  address : Units
  ip : Option Units
  now : ℤ
  phase : SignInPhase
  deriving DecidableEq, Repr

inductive SignInAnswer
  | paused (message : Units)
  | tooManyFromAddress (message : Units)
  | invalidCredentials
  | accountDisabled
  | signedIn (userId : ℕ)
  deriving DecidableEq, Repr

/-- A wrong password that was compared. -/
structure WrongPassword where
  address : Units
  comparedAt : ℤ
  deriving DecidableEq, Repr

/-- The clock, both counters, the sign-ins under way, the wrong passwords so far and the answers. -/
structure SignInDesk where
  clock : ℤ
  attempts : LoginAttempts.Entries
  byAddress : FailedLoginsByAddress.Failures
  signIns : List SignIn
  wrong : List WrongPassword
  answers : List (Units × SignInAnswer)

inductive SignInAction
  | tick (now : ℤ)
  | execute (email : Units) (ip : Option Units)
  /-- `findByEmail` answers. -/
  | found (a : SignIn) (user : Option LoginUser)
  /-- `signedInFrom` answers. -/
  | signedInFrom (a : SignIn) (known : Bool)
  | compared (a : SignIn) (passwordOk : Bool)
  /-- A read, or the comparison with the hash of an account, throws. -/
  | throws (a : SignIn)

/-- The message of `tooManyFromAddress`. -/
def tooManyFromAddress (minutes : ℤ) : SignInAnswer :=
  .tooManyFromAddress (text "Too many failed sign-ins from your network. Try again in " ++
    decimal minutes.toNat ++ text " minute" ++ (if minutes = 1 then [] else text "s") ++ text ".")

namespace SignInDesk

/-- A process that has just started. -/
def start (clock : ℤ) : SignInDesk := ⟨clock, .empty, .empty, [], [], []⟩

/-- The sign-in comes further. -/
def goOn (s : SignInDesk) (a : SignIn) (phase : SignInPhase) : SignInDesk :=
  { s with signIns := { a with phase } :: s.signIns.erase a }

/-- The sign-in is answered. -/
def ends (s : SignInDesk) (a : SignIn) (answer : SignInAnswer) : SignInDesk :=
  { s with signIns := s.signIns.erase a, answers := (a.address, answer) :: s.answers }

variable (toLowerCase : Units → Units) (cfg : FailedLoginsByAddress)

/-- `failed`. -/
def failed (s : SignInDesk) (a : SignIn) : SignInDesk :=
  { s with
    attempts := LoginAttempts.recordFailure toLowerCase s.attempts a.address s.clock
    byAddress := cfg.recordFailure s.byAddress a.ip a.now
    wrong := ⟨a.address, s.clock⟩ :: s.wrong }

/-- The part of `execute` after the comparison. -/
def answered (s : SignInDesk) (a : SignIn) (user : Option LoginUser) (blockedMin : ℤ)
    (passwordOk : Bool) :
    SignInDesk :=
  match user with
  | none => (s.failed toLowerCase cfg a).ends a .invalidCredentials
  | some user =>
    if passwordOk then
      { s with attempts := LoginAttempts.recordSuccess toLowerCase s.attempts a.address }.ends a
        (if user.isActive then .signedIn user.id else .accountDisabled)
    else
      let s := s.failed toLowerCase cfg a
      let minutes := cfg.blockedForMin s.byAddress a.ip a.now
      s.ends a
        (if blockedMin > 0 ∧ minutes > 0 then tooManyFromAddress minutes else .invalidCredentials)

/-- The step of `execute` that an action names; `none` when it cannot happen. -/
def step (s : SignInDesk) : SignInAction → Option SignInDesk
  | .tick now => if s.clock ≤ now then some { s with clock := now } else none
  | .execute email ip =>
    let address := LoginAttempts.key toLowerCase email
    match LoginAttempts.assertAllowed toLowerCase s.attempts address s.clock with
    | .error message => some { s with answers := (address, .paused message) :: s.answers }
    | .ok () => some { s with signIns := ⟨address, ip, s.clock, .begun⟩ :: s.signIns }
  | .found a user =>
    if a ∈ s.signIns ∧ a.phase = .begun then
      let blockedMin := cfg.blockedForMin s.byAddress a.ip a.now
      if blockedMin > 0 then
        match user, a.ip.filter (· ≠ []) with
        | some user, some _ => some (s.goOn a (.asking user blockedMin))
        | _, _ => some (s.ends a (tooManyFromAddress blockedMin))
      else some (s.goOn a (.comparing user blockedMin))
    else none
  | .signedInFrom a known =>
    match a.phase with
    | .asking user blockedMin =>
      if a ∈ s.signIns then
        if known then some (s.goOn a (.comparing (some user) blockedMin))
        else some (s.ends a (tooManyFromAddress blockedMin))
      else none
    | _ => none
  | .compared a passwordOk =>
    match a.phase with
    | .comparing user blockedMin =>
      if a ∈ s.signIns then some (s.answered toLowerCase cfg a user blockedMin passwordOk) else none
    | _ => none
  | .throws a =>
    match a.phase with
    -- an error of the comparison with the fixed hash is caught, and the sign-in fails as it would
    -- have
    | .comparing none _ => none
    | _ => if a ∈ s.signIns then some { s with signIns := s.signIns.erase a } else none

/-! ## What a step does -/

variable {toLowerCase cfg} {s s' : SignInDesk} {act : SignInAction} {a : SignIn} {k : Units}

/-- A sign-in comes further, or ends, and none is new. -/
theorem countP_goOn (h : a ∈ s.signIns) (phase : SignInPhase) (pred : Units → Bool) :
    (s.goOn a phase).signIns.countP (fun b => pred b.address) = s.signIns.countP fun b =>
    pred b.address := by
  rw [(List.perm_cons_erase h).countP_eq, goOn, List.countP_cons, List.countP_cons]

/-- Time passes, sign-ins go on or end without a comparison, one is let through, or a password is
compared: a wrong one is counted, a right one forgets the failures of the account. -/
theorem step_cases (h : s.step toLowerCase cfg act = some s') :
    (∃ now, s.clock ≤ now ∧ s' = { s with clock := now }) ∨
    (∃ signIns answers,
      (∀ pred : Units → Bool,
        signIns.countP (fun b => pred b.address) ≤ s.signIns.countP fun b => pred b.address) ∧
      s' = { s with signIns, answers }) ∨
    (∃ a : SignIn,
      LoginAttempts.assertAllowed toLowerCase s.attempts a.address s.clock = .ok () ∧
      s' = { s with signIns := a :: s.signIns }) ∨
    (∃ a ∈ s.signIns, ∃ answers,
      s' = { s.failed toLowerCase cfg a with signIns := s.signIns.erase a, answers }) ∨
    (∃ a ∈ s.signIns, act = .compared a true ∧ ∃ answers,
      s' = { s with
        attempts := LoginAttempts.recordSuccess toLowerCase s.attempts a.address
        signIns := s.signIns.erase a
        answers }) := by
  have hends : ∀ a : SignIn, ∀ pred : Units → Bool,
      (s.signIns.erase a).countP (fun b => pred b.address) ≤ s.signIns.countP fun b =>
        pred b.address :=
    fun a pred => List.erase_sublist.countP_le
  cases act with
  | tick now =>
    simp only [step] at h
    split at h
    · next hle => exact .inl ⟨now, hle, (Option.some.inj h).symm⟩
    · cases h
  | execute email ip =>
    simp only [step] at h
    split at h
    · exact .inr (.inl ⟨_, _, fun _ => le_rfl, (Option.some.inj h).symm⟩)
    · next hok => exact .inr (.inr (.inl ⟨_, hok, (Option.some.inj h).symm⟩))
  | found a user =>
    simp only [step] at h
    split at h
    · next ha =>
      have hgo : ∀ phase, s.goOn a phase = s' → ∃ signIns answers,
          (∀ pred : Units → Bool,
            signIns.countP (fun b => pred b.address) ≤ s.signIns.countP fun b => pred b.address) ∧
          s' = { s with signIns, answers } :=
        fun phase heq => ⟨_, _, fun pred => (countP_goOn ha.1 phase pred).le, heq.symm⟩
      split at h
      · split at h
        · exact .inr (.inl (hgo _ (Option.some.inj h)))
        · exact .inr (.inl ⟨_, _, hends a, (Option.some.inj h).symm⟩)
      · exact .inr (.inl (hgo _ (Option.some.inj h)))
    · cases h
  | signedInFrom a known =>
    simp only [step] at h
    split at h
    · split at h
      · next ha =>
        split at h
        · exact .inr (.inl ⟨_, _, fun pred => (countP_goOn ha _ pred).le, (Option.some.inj h).symm⟩)
        · exact .inr (.inl ⟨_, _, hends a, (Option.some.inj h).symm⟩)
      · cases h
    · cases h
  | compared a passwordOk =>
    simp only [step] at h
    split at h
    · next user blockedMin _ =>
      split at h
      · next ha =>
        obtain rfl := Option.some.inj h
        cases user with
        | none => exact .inr (.inr (.inr (.inl ⟨a, ha, _, rfl⟩)))
        | some user =>
          cases passwordOk with
          | true => exact .inr (.inr (.inr (.inr ⟨a, ha, rfl, _, rfl⟩)))
          | false => exact .inr (.inr (.inr (.inl ⟨a, ha, _, rfl⟩)))
      · cases h
    · cases h
  | throws a =>
    simp only [step] at h
    split at h
    · cases h
    · split at h
      · exact .inr (.inl ⟨_, _, hends a, (Option.some.inj h).symm⟩)
      · cases h

/-! ## How many passwords of an account are compared -/

variable {most : ℕ}

/-- The sign-ins of an account that are under way. -/
def underWay (toLowerCase : Units → Units) (k : Units) (s : SignInDesk) : ℕ :=
  s.signIns.countP fun a => LoginAttempts.key toLowerCase a.address = k

/-- When wrong passwords of an account were compared. -/
def wrongAt (toLowerCase : Units → Units) (k : Units) (s : SignInDesk) : List ℤ :=
  (s.wrong.filter fun g => LoginAttempts.key toLowerCase g.address = k).map WrongPassword.comparedAt

/-- No password that is compared is the one of the account. -/
def NoneRight (toLowerCase : Units → Units) (k : Units) (_ : SignInDesk) : SignInAction → Prop
  | .compared a passwordOk => LoginAttempts.key toLowerCase a.address = k → passwordOk = false
  | _ => True

/-- At most `most` sign-ins of the account are under way at once. -/
def FewAtOnce (toLowerCase : Units → Units) (cfg : FailedLoginsByAddress) (k : Units) (most : ℕ)
    (s : SignInDesk) (act : SignInAction) : Prop :=
  ∀ s' ∈ s.step toLowerCase cfg act, s'.underWay toLowerCase k ≤ most

/-- What a step keeps. -/
structure GuessesBounded (toLowerCase : Units → Units) (k : Units) (most : ℕ)
    (s : SignInDesk) : Prop where
  few : s.underWay toLowerCase k ≤ most
  by_clock : ∀ t ∈ s.wrongAt toLowerCase k, t ≤ s.clock
  lockout : LoginAttempts.Lockout s.clock (s.underWay toLowerCase k) most (s.wrongAt toLowerCase k)
    (s.attempts.get? k)
  bound : ∀ x, ((s.wrongAt toLowerCase k).countP fun t => x ≤ t ∧ t < x + LoginAttempts.WINDOW_MS) ≤
    18 + most

/-- A wrong password is noted for the sign-in's own address and no other. -/
theorem wrongAt_failed (toLowerCase : Units → Units) (cfg : FailedLoginsByAddress) (s : SignInDesk)
    (a : SignIn) (k : Units) : (s.failed toLowerCase cfg a).wrongAt toLowerCase k =
    if LoginAttempts.key toLowerCase a.address = k then s.clock :: s.wrongAt toLowerCase k
      else s.wrongAt toLowerCase k := by
  simp only [wrongAt, failed, List.filter_cons, decide_eq_true_eq]
  split <;> rfl

namespace GuessesBounded

/-- A wrong password is compared: the sign-in is under way no longer, and its failure counts. -/
theorem failed (h : GuessesBounded toLowerCase k most s) (hk : k ≠ []) (ha : a ∈ s.signIns)
    (answers : List (Units × SignInAnswer)) : GuessesBounded toLowerCase k most
      { s.failed toLowerCase cfg a with signIns := s.signIns.erase a, answers } := by
  have hway : s.underWay toLowerCase k = (s.signIns.erase a).countP
      (fun b => LoginAttempts.key toLowerCase b.address = k) +
        if LoginAttempts.key toLowerCase a.address = k then 1 else 0 := by
    rw [underWay, (List.perm_cons_erase ha).countP_eq, List.countP_cons]
    simp only [decide_eq_true_eq]
  have hfew := h.few
  have hleft :
      (s.signIns.erase a).countP (fun b => LoginAttempts.key toLowerCase b.address = k) ≤ most := by
    omega
  have hwrong := wrongAt_failed toLowerCase cfg s a k
  have hentry := LoginAttempts.get?_recordFailure toLowerCase s.attempts a.address s.clock hk
  -- an entry that is pruned says no more than the one that is there
  have hlock : ∀ {e : Option LoginAttempts.Entry} {u : ℕ} {times : List ℤ},
      LoginAttempts.Lockout s.clock u most times e → ∀ e',
        e' = e ∨ (∃ e₀ ∈ e, s.clock - e₀.firstAt > LoginAttempts.WINDOW_MS) ∧ e' = none →
        LoginAttempts.Lockout s.clock u most times e' := by
    rintro e u times he e' (rfl | ⟨⟨e₀, he₀, hold⟩, rfl⟩)
    · exact he
    · obtain rfl := he₀
      exact he.forget hold
  by_cases hkey : LoginAttempts.key toLowerCase a.address = k
  · simp only [hkey, if_true] at hwrong hentry hway
    have hcurrent := h.lockout.current h.by_clock
    have hin := LoginAttempts.current_recent (s.attempts.get? k) s.clock
    have hall := hcurrent.few hin hfew
    have hcount := hcurrent.count hin h.by_clock (by omega) hfew
    rw [hway, Nat.add_sub_cancel] at hcount
    constructor
    case few => exact hleft
    case by_clock =>
      intro t ht
      have ht : t ∈ s.clock :: s.wrongAt toLowerCase k := hwrong ▸ ht
      rcases List.mem_cons.1 ht with rfl | ht
      · exact le_refl s.clock
      · exact h.by_clock t ht
    case lockout =>
      have hgoal := hlock hcount _ hentry
      rw [← hwrong] at hgoal
      exact hgoal
    case bound =>
      intro x
      have hx := h.bound x
      show List.countP _ ((s.failed toLowerCase cfg a).wrongAt toLowerCase k) ≤ _
      rw [hwrong, List.countP_cons]
      split
      · next hnow =>
        rw [decide_eq_true_eq] at hnow
        have hle : (s.wrongAt toLowerCase k).countP
            (fun t => x ≤ t ∧ t < x + LoginAttempts.WINDOW_MS) ≤
              LoginAttempts.since (s.wrongAt toLowerCase k)
                (s.clock - LoginAttempts.WINDOW_MS) := by
          refine List.countP_mono_left fun t _ ht => ?_
          simp only [decide_eq_true_eq] at ht ⊢
          omega
        omega
      · exact hx
  · simp only [hkey, if_false] at hwrong hway
    simp only [if_neg (Ne.symm hkey)] at hentry
    have hfewer :
      (s.signIns.erase a).countP (fun b => LoginAttempts.key toLowerCase b.address = k) ≤
        s.underWay toLowerCase k := by omega
    have hlockout := hlock (h.lockout.fewer hfewer) _ hentry
    constructor
    case few => exact hleft
    case by_clock => exact fun t ht => h.by_clock t (hwrong ▸ ht)
    case lockout =>
      rw [← hwrong] at hlockout
      exact hlockout
    case bound =>
      intro x
      have hx := h.bound x
      rw [← hwrong] at hx
      exact hx

/-- One step of the desk keeps the bound on the guesses. -/
theorem step (h : GuessesBounded toLowerCase k most s) (hk : k ≠ [])
    (hnone : NoneRight toLowerCase k s act) (hfew : FewAtOnce toLowerCase cfg k most s act)
    (hs : s.step toLowerCase cfg act = some s') : GuessesBounded toLowerCase k most s' := by
  have hfew' := hfew s' hs
  obtain ⟨now, hle, rfl⟩ | ⟨signIns, answers, hcount, rfl⟩ | ⟨a, hok, rfl⟩ | ⟨a, ha, answers, rfl⟩ |
    ⟨a, ha, rfl, answers, rfl⟩ := step_cases hs
  · exact ⟨h.few, fun t ht => (h.by_clock t ht).trans hle, h.lockout.tick hle, h.bound⟩
  · have hway := hcount fun b => LoginAttempts.key toLowerCase b = k
    exact ⟨hfew', h.by_clock, h.lockout.fewer hway, h.bound⟩
  · refine ⟨hfew', h.by_clock, ?_, h.bound⟩
    by_cases hkey : LoginAttempts.key toLowerCase a.address = k
    · refine h.lockout.letsThrough fun e he => ?_
      rw [LoginAttempts.assertAllowed, hkey, Option.mem_def.1 he] at hok
      dsimp only at hok
      split at hok
      · cases hok
      · next hopen => exact not_lt.1 hopen
    · refine h.lockout.fewer ?_
      rw [underWay, List.countP_cons, if_neg (by simpa using hkey)]
      exact le_refl _
  · exact h.failed hk ha answers
  · have hkey : LoginAttempts.key toLowerCase a.address ≠ k := fun hkey => nomatch hnone hkey
    refine ⟨hfew', h.by_clock, ?_, h.bound⟩
    show LoginAttempts.Lockout _ _ _ _ ((s.attempts.delete _).get? k)
    rw [Dict.get?_delete, if_neg hkey.symm]
    exact h.lockout.fewer (List.erase_sublist.countP_le)

end GuessesBounded

/-- As long as no password of an account is right and at most `most` of its sign-ins are under way
at once, no 15 minutes hold more than `18 + most` comparisons of its passwords, from however many
addresses they come and whatever else is signed in or pruned. -/
theorem guesses_bounded {clock : ℤ} {acts : List SignInAction} (hk : k ≠ [])
    (h : Runs.run (SignInDesk.step toLowerCase cfg) (start clock) acts = some s)
    (hnone : Runs.Meets (SignInDesk.step toLowerCase cfg) (NoneRight toLowerCase k)
      (start clock) acts)
    (hfew : Runs.Meets (SignInDesk.step toLowerCase cfg) (FewAtOnce toLowerCase cfg k most)
      (start clock) acts) (x : ℤ) :
    (s.wrong.countP fun g => LoginAttempts.key toLowerCase g.address = k ∧ x ≤ g.comparedAt ∧
      g.comparedAt < x + LoginAttempts.WINDOW_MS) ≤ 18 + most := by
  have hstart : GuessesBounded toLowerCase k most (start clock) :=
    ⟨Nat.zero_le _, fun _ ht => absurd ht List.not_mem_nil, Nat.zero_le 9, fun _ => Nat.zero_le _⟩
  have hbound := (Runs.invariant_run (GuessesBounded toLowerCase k most)
    (fun _ _ _ hi ho hs => hi.step hk ho.1 ho.2 hs) hstart (hnone.and hfew) h).bound x
  rw [wrongAt, List.countP_map, List.countP_filter] at hbound
  refine le_trans (List.countP_mono_left fun g _ hg => ?_) hbound
  simp only [decide_eq_true_eq, Function.comp_apply, Bool.and_eq_true] at hg ⊢
  exact ⟨hg.2, hg.1⟩

instance (s : SignInDesk) (act : SignInAction) : Decidable (NoneRight toLowerCase k s act) :=
  match act with
  | .compared a _ =>
    inferInstanceAs (Decidable (LoginAttempts.key toLowerCase a.address = k → _ = false))
  | .tick _ | .execute _ _ | .found _ _ | .signedInFrom _ _ | .throws _ => .isTrue trivial

instance (s : SignInDesk) (act : SignInAction) :
    Decidable (FewAtOnce toLowerCase cfg k most s act) :=
  inferInstanceAs (Decidable (∀ s' ∈ s.step toLowerCase cfg act, _))

/-- Three wrong passwords of one account: two sign-ins at once, from two networks, the second of
which is compared first, and one a minute later. -/
def threeWrong : List SignInAction :=
  let user : LoginUser := ⟨1, true⟩
  [.execute [97] none, .execute [97] (some [49]), .found ⟨[97], none, 0, .begun⟩ (some user),
    .found ⟨[97], some [49], 0, .begun⟩ (some user),
    .compared ⟨[97], some [49], 0, .comparing (some user) 0⟩ false, .tick 60000,
    .compared ⟨[97], none, 0, .comparing (some user) 0⟩ false, .execute [97] none,
    .found ⟨[97], none, 60000, .begun⟩ (some user),
    .compared ⟨[97], none, 60000, .comparing (some user) 0⟩ false]

/-- All three are compared, and no 15 minutes hold more than 20 while two at a time are
under way. -/
theorem guesses_bounded_overlapping :
    ∃ s, Runs.run (SignInDesk.step id ⟨30, 600000⟩) (start 0) threeWrong = some s ∧
      s.wrong = [⟨[97], 60000⟩, ⟨[97], 60000⟩, ⟨[97], 0⟩] ∧
      (s.wrong.countP fun g => LoginAttempts.key id g.address = [97] ∧ 0 ≤ g.comparedAt ∧
        g.comparedAt < 0 + LoginAttempts.WINDOW_MS) ≤ 18 + 2 := by
  have hwrong : (Runs.run (SignInDesk.step id ⟨30, 600000⟩) (start 0) threeWrong).map
      SignInDesk.wrong = some [⟨[97], 60000⟩, ⟨[97], 60000⟩, ⟨[97], 0⟩] := by decide +kernel
  obtain ⟨s, hrun, hwrong⟩ := Option.map_eq_some_iff.1 hwrong
  exact ⟨s, hrun, hwrong,
    guesses_bounded (by decide) hrun (by decide +kernel) (by decide +kernel) 0⟩

end SignInDesk

end RxVision
