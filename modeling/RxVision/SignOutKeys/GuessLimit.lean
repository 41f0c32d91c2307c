import Mathlib.Data.List.Perm.Basic
import Mathlib.Algebra.Order.Group.Int
import RxVision.Lib.Runs
import RxVision.SignOutKeys.AttemptLimiter

/-!
# The guess limit (`useKey` of `signout-keys.service.ts`)

A key attempt asks the limiter, reads the keys it may match, and only then compares the phrase and
records the failure, dated by when the attempt began. Attempts overlap, so the limiter lets through
as many as come before the first of them has failed (`parallel_guesses_pass`). Where an attempt is
only let through while those under way and those on record are fewer than the limit, and the limiter
forgets nothing that was compared less than a window ago, no window holds more comparisons than the
limit (`guess_limit_holds`).
-/

namespace RxVision

/-- How far an attempt that was let through has come. -/
inductive AttemptPhase
  | allowed | read
  /-- A key matches, and its use is claimed. -/
  | matched
  deriving DecidableEq, Repr

/-- An attempt that was let through: `now` is when it began. -/
structure KeyAttempt where
  person : ℕ
  now : ℤ
  phase : AttemptPhase
  deriving DecidableEq, Repr

/-- A phrase that was compared. -/
structure Guess where
  person : ℕ
  now : ℤ
  comparedAt : ℤ
  deriving DecidableEq, Repr

/-- The clock, the limiter's map, the attempts under way and the phrases that were compared. -/
structure KeyDesk where
  clock : ℤ
  failures : Failures
  attempts : List KeyAttempt
  compared : List Guess

/-- What happens around the keys. -/
inductive KeyAction
  | tick (now : ℤ)
  /-- `useKey` asks the limiter. -/
  | ask (person : ℕ)
  /-- The keys are read, or the database fails. -/
  | read (a : KeyAttempt)
  | readFails (a : KeyAttempt)
  /-- The phrase is compared with the keys that were read; one matches, or the failure
  is recorded. -/
  | compare (a : KeyAttempt) (found : Bool)
  /-- The use of the matching key is counted, or the key was revoked meanwhile. -/
  | claim (a : KeyAttempt) (claimed : Bool)

namespace KeyDesk

/-- Nobody has tried a key yet. -/
def empty : KeyDesk := ⟨0, ∅, [], []⟩

/-- The step of `useKey` that an action names; `none` when it cannot happen. -/
def step (cfg : AttemptLimiter) (s : KeyDesk) : KeyAction → Option KeyDesk
  | .tick now => if s.clock ≤ now then some { s with clock := now } else none
  | .ask person =>
    let (wait, failures) := cfg.retryAfterSec s.failures person s.clock
    if wait > 0 then some { s with failures }
    else some { s with failures, attempts := ⟨person, s.clock, .allowed⟩ :: s.attempts }
  | .read a =>
    if a ∈ s.attempts ∧ a.phase = .allowed then
      some { s with attempts := { a with phase := .read } :: s.attempts.erase a }
    else none
  | .readFails a =>
    if a ∈ s.attempts ∧ a.phase = .allowed then some { s with attempts := s.attempts.erase a }
    else none
  | .compare a found =>
    if a ∈ s.attempts ∧ a.phase = .read then
      let compared := ⟨a.person, a.now, s.clock⟩ :: s.compared
      if found then
        some { s with compared, attempts := { a with phase := .matched } :: s.attempts.erase a }
      else
        some { s with
          compared
          attempts := s.attempts.erase a
          failures := cfg.recordFailure s.failures a.person a.now }
    else none
  | .claim a claimed =>
    if a ∈ s.attempts ∧ a.phase = .matched then
      some { s with
        attempts := s.attempts.erase a
        failures :=
          if claimed then AttemptLimiter.reset s.failures a.person
          else cfg.recordFailure s.failures a.person a.now }
    else none

/-- What the limit is promised for: everyone who tries is among `people`, and no phrase of `person`
matches a key. -/
def NoneMatches (people : List ℕ) (person : ℕ) (_ : KeyDesk) : KeyAction → Prop
  | .ask q => q ∈ people
  | .compare a found => a.person = person → found = false
  | _ => True

/-- In every window the person compared at most `maxFailures` phrases, whether a phrase counts when
it is compared or when its attempt began. -/
def GuessLimit (cfg : AttemptLimiter) (person : ℕ) (s : KeyDesk) : Prop :=
  ∀ x : ℤ,
    (s.compared.countP fun g =>
      g.person = person ∧ x ≤ g.comparedAt ∧ g.comparedAt < x + cfg.windowMs) ≤ cfg.maxFailures ∧
    (s.compared.countP fun g =>
      g.person = person ∧ x ≤ g.now ∧ g.now < x + cfg.windowMs) ≤ cfg.maxFailures

/-- An attempt of the person is let through only while those under way and those on record are fewer
than the limit, and the failures that are forgotten were compared a window ago. -/
def LetsFewThrough (cfg : AttemptLimiter) (person : ℕ) (s : KeyDesk) : KeyAction → Prop
  | .ask q => q = person → (cfg.retryAfterSec s.failures person s.clock).1 ≤ 0 →
    (cfg.recent s.failures person s.clock).1.length +
        (s.attempts.countP fun a => a.person = person) < cfg.maxFailures ∧
      ∀ g ∈ s.compared, g.person = person → g.now + cfg.windowMs ≤ s.clock →
        g.comparedAt + cfg.windowMs ≤ s.clock
  | _ => True

/-! ## Counting -/

variable {cfg : AttemptLimiter} {s s' : KeyDesk} {p : ℕ} {people : List ℕ}

/-- Taking one away. -/
theorem countP_erase {α : Type} [DecidableEq α] (pred : α → Bool) {l : List α} {a : α} (h : a ∈ l) :
    l.countP pred = (l.erase a).countP pred + if pred a then 1 else 0 := by
  rw [(List.perm_cons_erase h).countP_eq, List.countP_cons]

/-- The attempts of the person that began in a window. -/
def underWayIn (cfg : AttemptLimiter) (p : ℕ) (s : KeyDesk) (x : ℤ) : ℕ :=
  s.attempts.countP fun a => a.person = p ∧ x ≤ a.now ∧ a.now < x + cfg.windowMs

/-- The comparisons of the person whose attempt began in a window. -/
def begunIn (cfg : AttemptLimiter) (p : ℕ) (s : KeyDesk) (x : ℤ) : ℕ :=
  s.compared.countP fun g => g.person = p ∧ x ≤ g.now ∧ g.now < x + cfg.windowMs

/-- The comparisons of the person in a window. -/
def comparedIn (cfg : AttemptLimiter) (p : ℕ) (s : KeyDesk) (x : ℤ) : ℕ :=
  s.compared.countP fun g => g.person = p ∧ x ≤ g.comparedAt ∧ g.comparedAt < x + cfg.windowMs

/-- The comparisons of the person since a window before `t`, and the attempts under way. -/
def openSince (cfg : AttemptLimiter) (p : ℕ) (s : KeyDesk) (t : ℤ) : ℕ :=
  (s.compared.countP fun g => g.person = p ∧ t - cfg.windowMs < g.comparedAt) +
    s.attempts.countP fun a => a.person = p

/-- What a step keeps: the limiter holds the failures of the person that are not a window old, and
counts every comparison since the last attempt began. -/
structure GuessInv (cfg : AttemptLimiter) (people : List ℕ) (p : ℕ) (s : KeyDesk) : Prop where
  tracked : ∀ q ∈ s.failures, q ∈ people
  callers : ∀ a ∈ s.attempts, a.person ∈ people
  noneMatched : ∀ a ∈ s.attempts, a.person = p → a.phase ≠ .matched
  attemptsBy : ∀ a ∈ s.attempts, a.now ≤ s.clock
  comparedBy : ∀ g ∈ s.compared, g.comparedAt ≤ s.clock
  held : ∀ now, s.clock ≤ now →
    ((AttemptLimiter.held s.failures p).countP fun t => now - t < cfg.windowMs) =
      s.compared.countP fun g => g.person = p ∧ now - g.now < cfg.windowMs
  begun : ∀ x, begunIn cfg p s x + underWayIn cfg p s x ≤ cfg.maxFailures
  last : ∃ t, t ≤ s.clock ∧ openSince cfg p s t ≤ cfg.maxFailures
  compared : ∀ x, comparedIn cfg p s x ≤ cfg.maxFailures

namespace GuessInv

/-- Nothing was tried yet, so nothing is counted. -/
theorem empty : GuessInv cfg people p KeyDesk.empty where
  tracked := fun q hq => absurd hq (AList.notMem_empty q)
  callers := fun _ ha => absurd ha List.not_mem_nil
  noneMatched := fun _ ha => absurd ha List.not_mem_nil
  attemptsBy := fun _ ha => absurd ha List.not_mem_nil
  comparedBy := fun _ hg => absurd hg List.not_mem_nil
  held := fun _ _ => rfl
  begun := fun _ => Nat.zero_le _
  last := ⟨0, le_refl (0 : ℤ), Nat.zero_le _⟩
  compared := fun _ => Nat.zero_le _

/-- The invariant bounds the guesses. -/
theorem guessLimit (h : GuessInv cfg people p s) : GuessLimit cfg p s := by
  intro x
  exact ⟨h.compared x, le_trans (Nat.le_add_right _ _) (h.begun x)⟩

/-! ## What the steps change -/

/-- The limiter's map may change as long as it holds the person's failures that still count. -/
theorem of_failures (h : GuessInv cfg people p s) {f : Failures} (hf : ∀ q ∈ f, q ∈ people)
    (hheld : ∀ now, s.clock ≤ now →
      ((AttemptLimiter.held f p).countP fun t => now - t < cfg.windowMs) =
        (AttemptLimiter.held s.failures p).countP fun t => now - t < cfg.windowMs) :
    GuessInv cfg people p { s with failures := f } where
  tracked := hf
  callers := h.callers
  noneMatched := h.noneMatched
  attemptsBy := h.attemptsBy
  comparedBy := h.comparedBy
  held now hnow := (hheld now hnow).trans (h.held now hnow)
  begun := h.begun
  last := h.last
  compared := h.compared

/-- Reading a person's failures forgets none that counts. -/
theorem of_recent (h : GuessInv cfg people p s) (q : ℕ) :
    GuessInv cfg people p { s with failures := (cfg.recent s.failures q s.clock).2 } := by
  refine h.of_failures (fun r hr => h.tracked r (AttemptLimiter.mem_of_mem_recent hr)) ?_
  intro now hnow
  rw [AttemptLimiter.held_recent]
  split
  · next hp => rw [AttemptLimiter.countP_recent hnow, hp]
  · rfl

/-- Attempts end, or come further, and no phrase of the person is matched by it. -/
theorem of_attempts (h : GuessInv cfg people p s) {l : List KeyAttempt}
    (hmem : ∀ b ∈ l, ∃ a ∈ s.attempts, b.person = a.person ∧ b.now = a.now ∧
      (b.person = p → b.phase ≠ .matched))
    (hle : ∀ pred : ℕ → ℤ → Bool, (l.countP fun a => pred a.person a.now) ≤
      s.attempts.countP fun a => pred a.person a.now) :
    GuessInv cfg people p { s with attempts := l } where
  tracked := h.tracked
  callers := by
    intro b hb
    obtain ⟨a, ha, hp, -⟩ := hmem b hb
    exact hp ▸ h.callers a ha
  noneMatched := by
    intro b hb
    obtain ⟨a, ha, -, -, hphase⟩ := hmem b hb
    exact hphase
  attemptsBy := by
    intro b hb
    obtain ⟨a, ha, -, hnow, -⟩ := hmem b hb
    exact hnow ▸ h.attemptsBy a ha
  comparedBy := h.comparedBy
  held := h.held
  begun x := by
    have hx := hle fun q now => q = p ∧ x ≤ now ∧ now < x + cfg.windowMs
    exact le_trans (Nat.add_le_add_left hx _) (h.begun x)
  last := by
    obtain ⟨t, ht, hopen⟩ := h.last
    have hp := hle fun q _ => q = p
    exact ⟨t, ht, le_trans (Nat.add_le_add_left hp _) hopen⟩
  compared := h.compared

/-- An attempt of the list ends. -/
theorem of_erase (h : GuessInv cfg people p s) (a : KeyAttempt) :
    GuessInv cfg people p { s with attempts := s.attempts.erase a } := by
  refine h.of_attempts (fun b hb => ?_) fun pred => List.erase_sublist.countP_le
  have hb := List.mem_of_mem_erase hb
  exact ⟨b, hb, rfl, rfl, h.noneMatched b hb⟩

/-- An attempt of the list comes further. -/
theorem of_phase (h : GuessInv cfg people p s) {a : KeyAttempt} (ha : a ∈ s.attempts)
    {phase : AttemptPhase} (hphase : a.person = p → phase ≠ .matched) :
    GuessInv cfg people p { s with attempts := { a with phase } :: s.attempts.erase a } := by
  refine h.of_attempts (fun b hb => ?_) fun pred => ?_
  · rcases List.mem_cons.1 hb with rfl | hb
    · exact ⟨a, ha, rfl, rfl, hphase⟩
    · have hb := List.mem_of_mem_erase hb
      exact ⟨b, hb, rfl, rfl, h.noneMatched b hb⟩
  · rw [countP_erase _ ha, List.countP_cons]

/-- An attempt is let through: the person has fewer failures than the limit, those
under way included. -/
theorem ask (h : GuessInv cfg people p s) {q : ℕ} (hq : q ∈ people)
    (hok : q = p → (cfg.recent s.failures p s.clock).1.length +
        (s.attempts.countP fun a => a.person = p) < cfg.maxFailures ∧
      ∀ g ∈ s.compared, g.person = p → g.now + cfg.windowMs ≤ s.clock →
        g.comparedAt + cfg.windowMs ≤ s.clock) :
    GuessInv cfg people p { s with attempts := ⟨q, s.clock, .allowed⟩ :: s.attempts } where
  tracked := h.tracked
  callers := by
    intro a ha
    rcases List.mem_cons.1 ha with rfl | ha
    · exact hq
    · exact h.callers a ha
  noneMatched := by
    intro a ha
    rcases List.mem_cons.1 ha with rfl | ha
    · exact fun _ => nofun
    · exact h.noneMatched a ha
  attemptsBy := by
    intro a ha
    rcases List.mem_cons.1 ha with rfl | ha
    · exact le_refl s.clock
    · exact h.attemptsBy a ha
  comparedBy := h.comparedBy
  held := h.held
  begun x := by
    have hx := h.begun x
    simp only [begunIn, underWayIn, List.countP_cons, decide_eq_true_eq] at hx ⊢
    split
    · next hin =>
      -- what began in the window is on record or under way
      obtain ⟨hfew, -⟩ := hok hin.1
      have hrecord : (s.compared.countP fun g =>
          decide (g.person = p ∧ x ≤ g.now ∧ g.now < x + cfg.windowMs)) ≤
          s.compared.countP fun g => decide (g.person = p ∧ s.clock - g.now < cfg.windowMs) := by
        refine List.countP_mono_left fun g _ hg => ?_
        simp only [decide_eq_true_eq] at hg ⊢
        exact ⟨hg.1, by omega⟩
      have hway : (s.attempts.countP fun a =>
          decide (a.person = p ∧ x ≤ a.now ∧ a.now < x + cfg.windowMs)) ≤
          s.attempts.countP fun a => decide (a.person = p) := by
        refine List.countP_mono_left fun a _ ha => ?_
        simp only [decide_eq_true_eq] at ha ⊢
        exact ha.1
      rw [AttemptLimiter.length_recent, h.held s.clock (le_refl _)] at hfew
      omega
    · exact hx
  last := by
    by_cases hp : q = p
    · obtain ⟨hfew, hforgotten⟩ := hok hp
      refine ⟨s.clock, le_refl _, ?_⟩
      have hrecord : (s.compared.countP fun g =>
          decide (g.person = p ∧ s.clock - cfg.windowMs < g.comparedAt)) ≤
          s.compared.countP fun g => decide (g.person = p ∧ s.clock - g.now < cfg.windowMs) := by
        refine List.countP_mono_left fun g hg hin => ?_
        simp only [decide_eq_true_eq] at hin ⊢
        refine ⟨hin.1, ?_⟩
        have := hforgotten g hg hin.1
        omega
      rw [AttemptLimiter.length_recent, h.held s.clock (le_refl _)] at hfew
      simp only [openSince, List.countP_cons, hp, decide_true, if_true]
      omega
    · obtain ⟨t, ht, hopen⟩ := h.last
      refine ⟨t, ht, ?_⟩
      simpa only [openSince, List.countP_cons, hp, decide_false, Bool.false_eq_true, if_false,
        Nat.add_zero] using hopen
  compared := h.compared

/-- A phrase of somebody else is compared, which changes nothing for the person. -/
theorem compareOther (h : GuessInv cfg people p s) {g : Guess} (hg : g.person ≠ p)
    (hby : g.comparedAt ≤ s.clock) :
    GuessInv cfg people p { s with compared := g :: s.compared } := by
  have hcount : ∀ pred : Guess → Bool, (∀ g : Guess, g.person ≠ p → pred g = false) →
      (g :: s.compared).countP pred = s.compared.countP pred := by
    intro pred hpred
    rw [List.countP_cons, hpred g hg]
    rfl
  have hno : ∀ (g : Guess) (r : Prop) [Decidable r], g.person ≠ p →
      decide (g.person = p ∧ r) = false := by
    intro g r _ hg
    simp [hg]
  constructor
  case tracked => exact h.tracked
  case callers => exact h.callers
  case noneMatched => exact h.noneMatched
  case attemptsBy => exact h.attemptsBy
  case comparedBy =>
    intro g' hg'
    rcases List.mem_cons.1 hg' with rfl | hg'
    · exact hby
    · exact h.comparedBy g' hg'
  case held =>
    intro now hnow
    rw [h.held now hnow, hcount _ fun g hg => hno g _ hg]
  case begun =>
    intro x
    have hx := h.begun x
    simp only [begunIn, underWayIn] at hx ⊢
    rwa [hcount _ fun g hg => hno g _ hg]
  case last =>
    obtain ⟨t, ht, hopen⟩ := h.last
    refine ⟨t, ht, ?_⟩
    simp only [openSince] at hopen ⊢
    rwa [hcount _ fun g hg => hno g _ hg]
  case compared =>
    intro x
    have hx := h.compared x
    simp only [comparedIn] at hx ⊢
    rwa [hcount _ fun g hg => hno g _ hg]

/-- A phrase of the person is compared and its failure is recorded, so it moves from those under way
to those that count. -/
theorem compareOwn (h : GuessInv cfg people p s) (hpeople : people.length ≤ cfg.maxPeople)
    {a : KeyAttempt} (ha : a ∈ s.attempts) (hp : a.person = p) :
    GuessInv cfg people p { s with
      compared := ⟨a.person, a.now, s.clock⟩ :: s.compared
      attempts := s.attempts.erase a
      failures := cfg.recordFailure s.failures a.person a.now } := by
  have hnow := h.attemptsBy a ha
  have hcaller := h.callers a ha
  have herase := h.of_erase a
  constructor
  case tracked => exact AttemptLimiter.mem_recordFailure hpeople h.tracked hcaller
  case callers => exact herase.callers
  case noneMatched => exact herase.noneMatched
  case attemptsBy => exact herase.attemptsBy
  case comparedBy =>
    intro g hg
    rcases List.mem_cons.1 hg with rfl | hg
    · exact le_refl s.clock
    · exact h.comparedBy g hg
  case held =>
    intro now hle
    have hclock : a.now ≤ now := hnow.trans hle
    rw [AttemptLimiter.held_recordFailure hpeople h.tracked hcaller, if_pos hp.symm,
      List.countP_append, AttemptLimiter.countP_recent hclock, hp, h.held now hle]
    simp only [List.countP_cons, List.countP_nil, Nat.zero_add, true_and]
  case begun =>
    -- the attempt is no longer under way, and was compared
    intro x
    have hx := h.begun x
    simp only [begunIn, underWayIn, List.countP_cons] at hx ⊢
    rw [countP_erase
      (fun a => decide (a.person = p ∧ x ≤ a.now ∧ a.now < x + cfg.windowMs)) ha] at hx
    omega
  case last =>
    obtain ⟨t, ht, hopen⟩ := h.last
    refine ⟨t, ht, ?_⟩
    simp only [openSince, List.countP_cons] at hopen ⊢
    rw [countP_erase (fun a => decide (a.person = p)) ha, if_pos (decide_eq_true hp)] at hopen
    split <;> omega
  case compared =>
    intro x
    obtain ⟨t, ht, hopen⟩ := h.last
    have hx := h.compared x
    simp only [openSince, comparedIn, List.countP_cons, decide_eq_true_eq] at hopen hx ⊢
    rw [countP_erase (fun a => decide (a.person = p)) ha, if_pos (decide_eq_true hp)] at hopen
    split
    · next hin =>
      -- what was compared in the window was compared since a window before the last attempt began
      have hsince : (s.compared.countP fun g =>
          decide (g.person = p ∧ x ≤ g.comparedAt ∧ g.comparedAt < x + cfg.windowMs)) ≤
          s.compared.countP fun g => decide (g.person = p ∧ t - cfg.windowMs < g.comparedAt) := by
        refine List.countP_mono_left fun g _ hg => ?_
        simp only [decide_eq_true_eq] at hg ⊢
        exact ⟨hg.1, by omega⟩
      omega
    · exact hx

/-- A failure of somebody else is recorded. -/
theorem recordOther (h : GuessInv cfg people p s) (hpeople : people.length ≤ cfg.maxPeople) {q : ℕ}
    (hq : q ∈ people) (hne : q ≠ p) (t : ℤ) :
    GuessInv cfg people p { s with failures := cfg.recordFailure s.failures q t } := by
  refine h.of_failures (AttemptLimiter.mem_recordFailure hpeople h.tracked hq) fun now _ => ?_
  rw [AttemptLimiter.held_recordFailure hpeople h.tracked hq, if_neg hne.symm]

/-- Somebody else's failures are forgotten. -/
theorem resetOther (h : GuessInv cfg people p s) {q : ℕ} (hne : q ≠ p) :
    GuessInv cfg people p { s with failures := AttemptLimiter.reset s.failures q } := by
  refine h.of_failures (fun r hr => h.tracked r (AList.mem_erase.1 hr).2) fun now _ => ?_
  rw [AttemptLimiter.reset, AttemptLimiter.held_erase, if_neg hne.symm]

/-- Time passes, and fewer failures count. -/
theorem tick (h : GuessInv cfg people p s) {now : ℤ} (hnow : s.clock ≤ now) :
    GuessInv cfg people p { s with clock := now } where
  tracked := h.tracked
  callers := h.callers
  noneMatched := h.noneMatched
  attemptsBy a ha := (h.attemptsBy a ha).trans hnow
  comparedBy g hg := (h.comparedBy g hg).trans hnow
  held later hlater := h.held later (hnow.trans hlater)
  begun := h.begun
  last := by
    obtain ⟨t, ht, hopen⟩ := h.last
    exact ⟨t, ht.trans hnow, hopen⟩
  compared := h.compared

/-! ## Every step -/

/-- Every step keeps the invariant, as long as no key matches and few attempts are
let through at once. -/
theorem step (h : GuessInv cfg people p s) (hpeople : people.length ≤ cfg.maxPeople) {a : KeyAction}
    (hnone : NoneMatches people p s a) (hok : LetsFewThrough cfg p s a)
    (hs : KeyDesk.step cfg s a = some s') : GuessInv cfg people p s' := by
  cases a with
  | tick now =>
    simp only [KeyDesk.step] at hs
    split at hs
    · next hle =>
      obtain rfl := Option.some.inj hs
      exact h.tick hle
    · cases hs
  | ask q =>
    have hrecent := h.of_recent q
    rw [← AttemptLimiter.retryAfterSec_snd] at hrecent
    simp only [KeyDesk.step] at hs
    split at hs
    · obtain rfl := Option.some.inj hs
      exact hrecent
    · next hwait =>
      obtain rfl := Option.some.inj hs
      refine hrecent.ask hnone fun hqp => ?_
      obtain ⟨hfew, hforgotten⟩ := hok hqp (by rw [← hqp]; omega)
      refine ⟨?_, hforgotten⟩
      rw [AttemptLimiter.length_recent] at hfew ⊢
      have hheld : AttemptLimiter.held (cfg.recent s.failures q s.clock).2 p =
          if p = q then (cfg.recent s.failures q s.clock).1
          else AttemptLimiter.held s.failures p := AttemptLimiter.held_recent
      rw [← AttemptLimiter.retryAfterSec_snd] at hheld
      rwa [hheld, if_pos hqp.symm, AttemptLimiter.countP_recent (le_refl s.clock), hqp]
  | read a =>
    simp only [KeyDesk.step] at hs
    split at hs
    · next ha =>
      obtain rfl := Option.some.inj hs
      exact h.of_phase ha.1 fun _ => nofun
    · cases hs
  | readFails a =>
    simp only [KeyDesk.step] at hs
    split at hs
    · obtain rfl := Option.some.inj hs
      exact h.of_erase a
    · cases hs
  | compare a found =>
    simp only [KeyDesk.step] at hs
    split at hs
    · next ha =>
      by_cases hp : a.person = p
      · rw [hnone hp] at hs
        obtain rfl := Option.some.inj hs
        exact h.compareOwn hpeople ha.1 hp
      · have hcompared := h.compareOther (g := ⟨a.person, a.now, s.clock⟩) hp (le_refl s.clock)
        split at hs
        · obtain rfl := Option.some.inj hs
          exact hcompared.of_phase ha.1 fun hp' => absurd hp' hp
        · obtain rfl := Option.some.inj hs
          exact (hcompared.of_erase a).recordOther hpeople (h.callers a ha.1) hp a.now
    · cases hs
  | claim a claimed =>
    simp only [KeyDesk.step] at hs
    split at hs
    · next ha =>
      have hp : a.person ≠ p := fun hp => h.noneMatched a ha.1 hp ha.2
      obtain rfl := Option.some.inj hs
      cases claimed with
      | true => exact (h.of_erase a).resetOther hp
      | false => exact (h.of_erase a).recordOther hpeople (h.callers a ha.1) hp a.now
    · cases hs

end GuessInv

/-- In every run that lets few enough attempts of a person through at once, no window holds
more of their comparisons than the limit, as long as everyone who tries can be tracked and no
phrase of theirs matches. -/
theorem guess_limit_holds {acts : List KeyAction} (hpeople : people.length ≤ cfg.maxPeople)
    (h : Runs.run (step cfg) empty acts = some s)
    (hnone : Runs.Meets (step cfg) (NoneMatches people p) empty acts)
    (hok : Runs.Meets (step cfg) (LetsFewThrough cfg p) empty acts) : GuessLimit cfg p s := by
  have hboth : Runs.Meets (step cfg)
      (fun s a => NoneMatches people p s a ∧ LetsFewThrough cfg p s a) empty acts :=
    hnone.and hok
  exact (Runs.invariant_run (GuessInv cfg people p)
    (fun _ _ _ hi ho hs => hi.step hpeople ho.1 ho.2 hs) .empty hboth h).guessLimit

instance (s : KeyDesk) (a : KeyAction) : Decidable (NoneMatches people p s a) :=
  match a with
  | .ask q => inferInstanceAs (Decidable (q ∈ people))
  | .compare a found => inferInstanceAs (Decidable (a.person = p → found = false))
  | .tick _ | .read _ | .readFails _ | .claim _ _ => .isTrue trivial

instance (s : KeyDesk) (a : KeyAction) : Decidable (LetsFewThrough cfg p s a) :=
  match a with
  | .ask q => inferInstanceAs (Decidable (q = p → _ → _ ∧ _))
  | .tick _ | .read _ | .readFails _ | .compare _ _ | .claim _ _ => .isTrue trivial

/-- Person 0 sends `n` phrases at once, and each is compared once all of them were let through. -/
def guessesAtOnce (n : ℕ) : List KeyAction :=
  List.replicate n (.ask 0) ++ List.replicate n (.read ⟨0, 0, .allowed⟩) ++
    List.replicate n (.compare ⟨0, 0, .read⟩ false)

/-- Six phrases sent at once are all compared, at a limit of five. -/
theorem parallel_guesses_pass :
    ¬ ∀ (cfg : AttemptLimiter) (people : List ℕ) (p : ℕ) (acts : List KeyAction) (s : KeyDesk),
      people.length ≤ cfg.maxPeople → Runs.run (step cfg) empty acts = some s →
        Runs.Meets (step cfg) (NoneMatches people p) empty acts → GuessLimit cfg p s := by
  intro h
  have hrun : Runs.run (step {}) empty (guessesAtOnce 6) =
      some ⟨0, _, [], List.replicate 6 ⟨0, 0, 0⟩⟩ := rfl
  have hlimit := h {} [0] 0 _ _ (by decide) hrun (by decide +kernel) 0
  exact absurd hlimit.1 (by decide)

/-- Five phrases sent at once are within it. -/
theorem fiveGuesses_within : ∃ s, Runs.run (step {}) empty (guessesAtOnce 5) = some s ∧
    GuessLimit {} 0 s := by
  have hrun : Runs.run (step {}) empty (guessesAtOnce 5) =
      some ⟨0, _, [], List.replicate 5 ⟨0, 0, 0⟩⟩ := rfl
  have hpeople : ([0] : List ℕ).length ≤ ({} : AttemptLimiter).maxPeople := by decide
  exact ⟨_, hrun, guess_limit_holds hpeople hrun (by decide +kernel) (by decide +kernel)⟩

end KeyDesk

end RxVision
