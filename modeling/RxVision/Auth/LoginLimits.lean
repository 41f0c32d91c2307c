import Mathlib.Tactic.Ring
import RxVision.Lib.Dict
import RxVision.Lib.Text
import RxVision.Lib.Window

/-!
# Failed sign-ins (`login-attempts.service.ts`, `failed-logins-by-address.service.ts`)

Wrong passwords count against the account (`LoginAttempts`) and against the client address
(`FailedLoginsByAddress`). Both counters are maps in memory that forget: an address keeps
its last failures only, and a map that grows past `MAX_TRACKED` is pruned. What an address
is told is what the whole log of its failures says, as long as they are recorded in order
(`blockedForMin_recordAll`). An account keeps one number, so what it bounds is the subject
of `Lockout`.

`toLowerCase` stands for the Unicode tables; nothing here depends on what they say.
-/

namespace RxVision

/-- Whole minutes, rounded up; at least one. -/
def minutesUntil (ms : ℤ) : ℤ := max 1 ((ms + 59999) / 60000)

/-- The most entries that either map holds before it is pruned. -/
def MAX_TRACKED : ℕ := 50000

/-! ## Per account -/

namespace LoginAttempts

def MAX_FAILURES : ℕ := 10

def WINDOW_MS : ℤ := 15 * 60000

def LOCK_MS : ℤ := 15 * 60000

structure Entry where
  failures : ℕ
  firstAt : ℤ
  lockedUntil : ℤ
  deriving DecidableEq, Repr

abbrev Entries := Dict Units Entry

section

variable (toLowerCase : Units → Units)

/-- `key`. -/
def key (email : Units) : Units := trimBy isSpaceUnit (toLowerCase email)

/-- The message of `assertAllowed`. -/
def pausedFor (minutes : ℤ) : Units :=
  text "Too many wrong passwords. Sign-in is paused for " ++ decimal minutes.toNat ++
    text " minute" ++ (if minutes = 1 then [] else text "s") ++ text "."

/-- `assertAllowed`: the refusal while the account is locked. -/
def assertAllowed (entries : Entries) (email : Units) (now : ℤ) : Except Units Unit :=
  match entries.get? (key toLowerCase email) with
  | none => .ok ()
  | some e =>
    if e.lockedUntil > now then .error (pausedFor (minutesUntil (e.lockedUntil - now))) else .ok ()

/-- `prune`. -/
def prune (entries : Entries) (now : ℤ) : Entries :=
  entries.filterMap fun e => if e.lockedUntil ≤ now ∧
    now - e.firstAt > WINDOW_MS then none else some e

/-- The entry that a failure is counted in. -/
def current (e : Option Entry) (now : ℤ) : Entry :=
  match e with
  | none => ⟨0, now, 0⟩
  | some e => if now - e.firstAt > WINDOW_MS then ⟨0, now, 0⟩ else e

/-- One more failure. -/
def Entry.count (e : Entry) (now : ℤ) : Entry :=
  if e.failures + 1 ≥ MAX_FAILURES then ⟨0, now, now + LOCK_MS⟩ else
    { e with failures := e.failures + 1 }

/-- `recordFailure`. -/
def recordFailure (entries : Entries) (email : Units) (now : ℤ) : Entries :=
  let k := key toLowerCase email
  if k = [] then entries
  else
    let entries := entries.set k ((current (entries.get? k) now).count now)
    if entries.entries.length > MAX_TRACKED then prune entries now else entries

/-- `recordSuccess`. -/
def recordSuccess (entries : Entries) (email : Units) :
    Entries := entries.delete (key toLowerCase email)

end

/-! ## What an entry says of the failures of an account -/

section

variable {clock later : ℤ} {underWay underWay' most : ℕ} {times : List ℤ}
  {e e' : Option Entry} {t : ℤ}

/-- How many failures came after `t`. -/
def since (times : List ℤ) (t : ℤ) : ℕ := times.countP fun u => t < u

/-- What the entry of an account says of its failures: it counts the ones after `firstAt`. While
nothing is locked at most 9 more came in the window before it, and while sign-in is locked those
under way are all that can still come. -/
def Lockout (clock : ℤ) (underWay most : ℕ) (times : List ℤ) : Option Entry → Prop
  | none => since times (clock - WINDOW_MS) ≤ 9
  | some e => e.firstAt ≤ clock ∧ e.failures ≤ 9 ∧ since times e.firstAt ≤ e.failures ∧
      (since times (e.firstAt - WINDOW_MS) ≤ e.failures + 9 ∨
        e.lockedUntil = e.firstAt + LOCK_MS ∧
          (clock < e.lockedUntil → since times (clock - WINDOW_MS) + underWay ≤ 18 + most))

/-- The later the moment, the fewer since then. -/
theorem since_anti {t' : ℤ} (h : t ≤ t') : since times t' ≤ since times t := by
  refine List.countP_mono_left fun u _ hu => ?_
  simp only [decide_eq_true_eq] at hu ⊢
  omega

/-- One more, if it is since then. -/
theorem since_cons : since (clock :: times) t = since times t + if t < clock then 1 else 0 := by
  simp only [since, List.countP_cons, decide_eq_true_eq]

/-- Time passes: fewer failures are in the window, and a lock that has run out allows no
more than before. -/
theorem Lockout.tick (h : Lockout clock underWay most times e) (hle : clock ≤ later) :
    Lockout later underWay most times e := by
  have hsince : since times (later - WINDOW_MS) ≤ since times (clock - WINDOW_MS) :=
    since_anti (by omega)
  match e, h with
  | none, h => exact hsince.trans h
  | some e, ⟨hfirst, hfew, hcount, hlock⟩ =>
    refine ⟨hfirst.trans hle, hfew, hcount, hlock.imp_right fun ⟨hl, hlock⟩ => ⟨hl, fun hlt => ?_⟩⟩
    have := hlock (hle.trans_lt hlt)
    omega

/-- Sign-ins end without a failure. -/
theorem Lockout.fewer (h : Lockout clock underWay most times e) {underWay' : ℕ}
    (hle : underWay' ≤ underWay) : Lockout clock underWay' most times e := by
  match e, h with
  | none, h => exact h
  | some e, ⟨hfirst, hfew, hcount, hlock⟩ =>
    refine ⟨hfirst, hfew, hcount, hlock.imp_right fun ⟨hl, hlock⟩ => ⟨hl, fun hlt => ?_⟩⟩
    have := hlock hlt
    omega

/-- While nothing is locked any number of sign-ins may be under way. -/
theorem Lockout.letsThrough (h : Lockout clock underWay most times e)
    (hopen : ∀ e' ∈ e, e'.lockedUntil ≤ clock) : Lockout clock underWay' most times e := by
  match e, h with
  | none, h => exact h
  | some e, ⟨hfirst, hfew, hcount, hlock⟩ =>
    refine ⟨hfirst, hfew, hcount, hlock.imp_right fun ⟨hl, _⟩ => ⟨hl, fun hlt => ?_⟩⟩
    exact absurd hlt (not_lt.2 (hopen e rfl))

/-- An entry that is pruned says no more than none does. -/
theorem Lockout.forget {e : Entry} (h : Lockout clock underWay most times (some e))
    (hold : clock - e.firstAt > WINDOW_MS) : Lockout clock underWay most times none := by
  obtain ⟨-, hfew, hcount, -⟩ := h
  exact (since_anti (by omega)).trans (hcount.trans hfew)

/-- The entry that a failure is counted in speaks for the failures so far; one whose window is
over starts anew. -/
theorem Lockout.current (h : Lockout clock underWay most times e) (hby : ∀ u ∈ times, u ≤ clock) :
    Lockout clock underWay most times (some (current e clock)) := by
  have hnew : since times (clock - WINDOW_MS) ≤ 9 →
      Lockout clock underWay most times (some ⟨0, clock, 0⟩) := by
    intro hfew
    refine ⟨le_refl clock, Nat.zero_le 9, ?_, .inl (by simpa using hfew)⟩
    refine (List.countP_eq_zero.2 fun u hu => ?_).le
    simpa using hby u hu
  match e, h with
  | none, h => exact hnew h
  | some e, h =>
    unfold LoginAttempts.current
    dsimp only
    split
    · next hold => exact hnew (h.forget hold)
    · exact h

/-- The failures in the window before a failure that is not the first of its entry, with
those still under way. -/
theorem Lockout.few {e : Entry} (h : Lockout clock underWay most times (some e))
    (hin : clock - e.firstAt ≤ WINDOW_MS) (hmost : underWay ≤ most) :
    since times (clock - WINDOW_MS) + underWay ≤ 18 + most := by
  obtain ⟨hfirst, hfew, hcount, hlock⟩ := h
  rcases hlock with hlock | ⟨hl, hlock⟩
  · have hle : since times (clock - WINDOW_MS) ≤ since times (e.firstAt - WINDOW_MS) :=
      since_anti (by omega)
    omega
  · by_cases hlt : clock < e.lockedUntil
    · exact hlock hlt
    · -- the lock ends in this moment, and only what the entry counts came after it began
      have hle : since times (clock - WINDOW_MS) ≤ since times e.firstAt :=
        since_anti (by simp only [WINDOW_MS, LOCK_MS] at *; omega)
      omega

/-- A failure is counted: up to the tenth it adds one to its entry, and the tenth starts a
lock and a new entry. -/
theorem Lockout.count {e : Entry} (h : Lockout clock underWay most times (some e))
    (hin : clock - e.firstAt ≤ WINDOW_MS) (hby : ∀ u ∈ times, u ≤ clock) (hway : 1 ≤ underWay)
    (hmost : underWay ≤ most) :
    Lockout clock (underWay - 1) most (clock :: times) (some (e.count clock)) := by
  have hall := h.few hin hmost
  obtain ⟨hfirst, hfew, hcount, hlock⟩ := h
  have hle : ∀ t, since (clock :: times) t ≤ since times t + 1 := fun t => by
    rw [since_cons]
    split <;> omega
  have hwindow := hle (clock - WINDOW_MS)
  unfold Entry.count
  split
  · refine ⟨le_refl clock, Nat.zero_le 9, ?_, .inr ⟨rfl, fun _ => by omega⟩⟩
    refine (List.countP_eq_zero.2 fun u hu => ?_).le
    rcases List.mem_cons.1 hu with rfl | hu
    · simp
    · simpa using hby u hu
  · next hten =>
    have hsince := hle e.firstAt
    have hbefore := hle (e.firstAt - WINDOW_MS)
    simp only [MAX_FAILURES] at hten
    refine ⟨hfirst, by dsimp only; omega, by dsimp only; omega, ?_⟩
    refine hlock.imp (fun h => ?_) fun ⟨hl, _⟩ => ⟨hl, fun _ => ?_⟩
    · dsimp only
      omega
    · omega

/-- The entry that a failure is counted in began within the window. -/
theorem current_recent (e : Option Entry) (clock : ℤ) :
    clock - (LoginAttempts.current e clock).firstAt ≤ WINDOW_MS := by
  unfold LoginAttempts.current
  split
  · simp [WINDOW_MS]
  · split
    · simp [WINDOW_MS]
    · omega

end

section

variable {toLowerCase : Units → Units} {entries : Entries} {email k : Units} {now : ℤ}

/-- The entry under a key after pruning is the one that was there, unless its window and
its lock are over. -/
theorem get?_prune : (prune entries now).get? k =
    (entries.get? k).filter fun e => ¬(e.lockedUntil ≤ now ∧ now - e.firstAt > WINDOW_MS) := by
  rw [prune, Dict.get?_filterMap]
  cases entries.get? k with
  | none => rfl
  | some e =>
    rw [Option.bind_some, Option.filter_some]
    split
    · next h => rw [decide_eq_false (not_not.2 h), if_neg Bool.false_ne_true]
    · next h => rw [decide_eq_true h, if_pos rfl]

/-- A failure is counted in the entry of its account, and the others are as they were, or pruned. -/
theorem get?_recordFailure (toLowerCase : Units → Units) (entries : Entries)
    (email : Units) (now : ℤ) (hk : k ≠ []) :
    let e := if k = key toLowerCase email then some ((current (entries.get? k) now).count now)
      else entries.get? k
    (recordFailure toLowerCase entries email now).get? k = e ∨
      (∃ e' ∈ e, now - e'.firstAt > WINDOW_MS) ∧
        (recordFailure toLowerCase entries email now).get? k = none := by
  unfold recordFailure
  dsimp only
  split
  · next hnil =>
    rw [if_neg fun h => hk (h.trans hnil)]
    exact .inl rfl
  · have hset : (entries.set (key toLowerCase email)
        ((current (entries.get? (key toLowerCase email)) now).count now)).get? k =
        if k = key toLowerCase email then some ((current (entries.get? k) now).count now)
          else entries.get? k := by
      rw [Dict.get?_set]
      split
      · next h => rw [h]
      · rfl
    split
    · rw [get?_prune, hset]
      generalize (if k = key toLowerCase email then _ else entries.get? k) = e
      cases e with
      | none => exact .inl rfl
      | some e =>
        rw [Option.filter_some]
        split
        · exact .inl rfl
        · next h =>
          rw [decide_eq_true_eq, not_not] at h
          exact .inr ⟨⟨e, rfl, h.2⟩, rfl⟩
    · exact .inl hset

end

end LoginAttempts

/-! ## Per client address -/

/-- `FailedLoginsByAddress`: its limits. -/
structure FailedLoginsByAddress where
  maxFailures : ℕ
  windowMs : ℤ
  deriving DecidableEq, Repr

/-- `Number.parseInt(text, 10)`; `none` is `NaN`. -/
def parseInt (t : Units) : Option ℤ :=
  let digits (t : Units) : Option ℤ :=
    match t.takeWhile isDigit with
    | [] => none
    | ds => some (ds.foldl (fun n u => 10 * n + (u.toNat - 48)) 0 : ℕ)
  match trimBy isSpaceUnit t with
  | 43 :: t => digits t
  | 45 :: t => (digits t).map fun n => -n
  | t => digits t

/-- `int` of `failedLoginLimits`. -/
def intWithin (raw : Option Units) (least most fallback : ℕ) : ℕ :=
  match parseInt (raw.getD []) with
  | some n => if least ≤ n ∧ n ≤ most then n.toNat else fallback
  | none => fallback

/-- `failedLoginLimits`, by the two variables of the environment it reads. -/
def failedLoginLimits (perIpMax perIpWindowMin : Option Units) : FailedLoginsByAddress where
  maxFailures := intWithin perIpMax 5 10000 30
  windowMs := intWithin perIpWindowMin 1 1440 10 * 60000

namespace FailedLoginsByAddress

/-- The most recent failures per address, oldest first. -/
abbrev Failures := Dict Units (List ℤ)

section

variable (cfg : FailedLoginsByAddress)

/-- `blockedForMin`. -/
def blockedForMin (failures : Failures) (ip : Option Units) (now : ℤ) : ℤ :=
  match ip with
  | none => 0
  | some ip =>
    if ip = [] then 0
    else
      match failures.get? ip with
      | none => 0
      | some list =>
        if list.length < cfg.maxFailures then 0
        else
          match list.head? with
          -- `NaN` is not greater than `now`
          | none => 0
          | some first =>
            if first + cfg.windowMs > now then minutesUntil (first + cfg.windowMs - now) else 0

/-- `prune`. -/
def prune (failures : Failures) (now : ℤ) : Failures :=
  failures.filterMap fun list =>
    match list.getLast? with
    | none => none
    | some last => if now - last ≥ cfg.windowMs then none else some list

/-- The failures that are held of an address. -/
def held (failures : Failures) (ip : Units) : List ℤ := (failures.get? ip).getD []

/-- `recordFailure`. -/
def recordFailure (failures : Failures) (ip : Option Units) (now : ℤ) : Failures :=
  match ip with
  | none => failures
  | some ip =>
    if ip = [] then failures
    else
      let failures :=
        failures.set ip (Window.record cfg.windowMs cfg.maxFailures (held failures ip) now)
      if failures.entries.length > MAX_TRACKED then cfg.prune failures now else failures

/-- The failures that a process has recorded. -/
def recordAll (log : List (Option Units × ℤ)) : Failures :=
  log.foldl (fun failures p => cfg.recordFailure failures p.1 p.2) Dict.empty

end

/-- When sign-ins from the address failed. -/
def failuresFrom (ip : Units) (log : List (Option Units × ℤ)) : List ℤ :=
  log.filterMap fun p => if p.1 = some ip then some p.2 else none

/-! ## What is held -/

variable {cfg : FailedLoginsByAddress} {failures : Failures} {log : List (Option Units × ℤ)}
  {ip : Units} {from? : Option Units} {now later : ℤ}

/-- Every address holds the end of its own log. -/
def Tracks (cfg : FailedLoginsByAddress) (now : ℤ) (log : List (Option Units × ℤ))
    (failures : Failures) :
    Prop :=
  ∀ ip ≠ [], Window.Keeps cfg.windowMs cfg.maxFailures now (failuresFrom ip log) (held failures ip)

/-- One more failure of a network, if it is from there. -/
theorem failuresFrom_append : failuresFrom ip (log ++ [(from?, now)]) =
    failuresFrom ip log ++ if from? = some ip then [now] else [] := by
  unfold failuresFrom
  rw [List.filterMap_append]
  split
  · next h => simp [h]
  · next h => simp [h]

/-- What is held of a network after its list is written. -/
theorem held_set {list : List ℤ} {ip' : Units} :
    held (failures.set ip list) ip' = if ip' = ip then list else held failures ip' := by
  unfold held
  rw [Dict.get?_set]
  split <;> rfl

/-- Pruning forgets only failures that are older than the window. -/
theorem Tracks.prune (h : Tracks cfg now log failures) :
    Tracks cfg now log (cfg.prune failures now) := by
  intro ip hip
  have hkeeps := h ip hip
  unfold held at hkeeps ⊢
  rw [FailedLoginsByAddress.prune, Dict.get?_filterMap]
  cases hlist : failures.get? ip with
  | none => rwa [hlist] at hkeeps
  | some list =>
    rw [hlist, Option.getD_some] at hkeeps
    rw [Option.bind_some]
    split
    · next hnone =>
      rw [List.getLast?_eq_none_iff.1 hnone] at hkeeps
      exact hkeeps
    · next last hlast =>
      split
      · next hold =>
        refine hkeeps.forget fun last' hlast' => ?_
        rw [Option.mem_def, hlast, Option.some_inj] at hlast'
        exact hlast' ▸ hold
      · exact hkeeps

/-- A failure that is recorded joins the log of its address, and the oldest one beyond the
limit is dropped. -/
theorem Tracks.recordFailure (h : Tracks cfg now log failures) (hle : now ≤ later) :
    Tracks cfg later (log ++ [(from?, later)]) (cfg.recordFailure failures from? later) := by
  have hlater : ∀ ip' ≠ [], from? ≠ some ip' → Window.Keeps cfg.windowMs cfg.maxFailures later
      (failuresFrom ip' (log ++ [(from?, later)])) (held failures ip') := by
    intro ip' hip' hne
    rw [failuresFrom_append, if_neg hne, List.append_nil]
    exact (h ip' hip').mono hle
  unfold FailedLoginsByAddress.recordFailure
  cases from? with
  | none => exact fun ip' hip' => hlater ip' hip' nofun
  | some ip =>
    dsimp only
    split
    · next hnil =>
        exact fun ip' hip' => hlater ip' hip' fun heq => hip' (Option.some.inj heq ▸ hnil)
    · next hip =>
      have hset : Tracks cfg later (log ++ [(some ip, later)])
          (failures.set ip
            (Window.record cfg.windowMs cfg.maxFailures (held failures ip) later)) := by
        intro ip' hip'
        rw [held_set]
        split
        · next heq =>
          rw [failuresFrom_append, if_pos (by rw [heq]), heq]
          exact (h ip hip).record hle
        · next hne => exact hlater ip' hip' fun heq => hne (Option.some.inj heq).symm
      split
      · exact hset.prune
      · exact hset

/-- Failures that are recorded in order are tracked. By induction on the log, the last
failure set apart. -/
theorem tracks_recordAll (cfg : FailedLoginsByAddress)
    (hsorted : (log.map Prod.snd).Pairwise (· ≤ ·))
    (hnow : ∀ p ∈ log, p.2 ≤ now) :
    Tracks cfg now log (cfg.recordAll log) := by
  induction log using List.reverseRecOn generalizing now with
  | nil => exact fun _ _ => Window.keeps_nil
  | append_singleton log p ih =>
    rw [List.map_append, List.pairwise_append] at hsorted
    have hlog : Tracks cfg p.2 log (cfg.recordAll log) := by
      refine ih hsorted.1 fun q hq => hsorted.2.2 q.2 (List.mem_map_of_mem hq) p.2 ?_
      exact List.mem_singleton.2 rfl
    rw [recordAll, List.foldl_append]
    have hle : p.2 ≤ now := hnow p (by simp)
    exact fun ip hip => (hlog.recordFailure (le_refl p.2) ip hip).mono hle

/-! ## What an address is told -/

/-- A setting is within its bounds, whatever is given. -/
theorem intWithin_bounds (raw : Option Units) {least most fallback : ℕ} (hleast : least ≤ fallback)
    (hmost : fallback ≤ most) :
    least ≤ intWithin raw least most fallback ∧ intWithin raw least most fallback ≤ most := by
  unfold intWithin
  split
  · split
    · omega
    · exact ⟨hleast, hmost⟩
  · exact ⟨hleast, hmost⟩

/-- The minutes that an address is told to wait, by the failures it holds: until the oldest of a
full list leaves the window. -/
theorem blockedForMin_eq (hip : ip ≠ []) (hmax : 0 < cfg.maxFailures)
    (hlen : (held failures ip).length ≤ cfg.maxFailures) :
    cfg.blockedForMin failures (some ip) now =
      if (held failures ip).length = cfg.maxFailures ∧
        ∀ first ∈ (held failures ip).head?, now - first < cfg.windowMs then
        minutesUntil (((held failures ip).head?.getD 0) + cfg.windowMs - now)
      else 0 := by
  simp only [blockedForMin, if_neg hip, held] at hlen ⊢
  rcases Option.eq_none_or_eq_some (failures.get? ip) with hlist | ⟨list, hlist⟩
  · simp [hlist, hmax.ne]
  · simp only [hlist, Option.getD_some] at hlen ⊢
    split
    · next hlt => rw [if_neg fun h => hlt.ne h.1]
    · next hge =>
      cases list with
      | nil => exact absurd (show (0 : ℕ) < cfg.maxFailures from hmax) hge
      | cons first rest =>
        simp only [List.head?_cons, Option.mem_def, Option.some_inj, forall_eq', Option.getD_some]
        have heq : (first :: rest).length = cfg.maxFailures := le_antisymm hlen (not_lt.1 hge)
        by_cases hin : now - first < cfg.windowMs
        · rw [if_pos (by omega), if_pos ⟨heq, hin⟩]
        · rw [if_neg (by omega), if_neg fun h => hin h.2]

/-- The minutes left are rounded up. -/
theorem minutesUntil_spec {ms : ℤ} (h : 0 < ms) :
    0 < minutesUntil ms ∧ ms ≤ minutesUntil ms * 60000 ∧ (minutesUntil ms - 1) * 60000 < ms := by
  unfold minutesUntil
  omega

/-- An address is refused exactly while it has failed too often within the window, and for as many
whole minutes as that takes to pass, although only its last failures are kept and pruned. -/
theorem blockedForMin_recordAll {perIpMax perIpWindowMin : Option Units}
    (hcfg : cfg = failedLoginLimits perIpMax perIpWindowMin) (hip : ip ≠ [])
    (hsorted : (log.map Prod.snd).Pairwise (· ≤ ·)) (hnow : ∀ p ∈ log, p.2 ≤ now) :
    let minutes := cfg.blockedForMin (cfg.recordAll log) (some ip) now
    let failed (t : ℤ) := Window.countIn cfg.windowMs (failuresFrom ip log) t
    (minutes = 0 ↔ failed now < cfg.maxFailures) ∧ 0 ≤ minutes ∧
      (0 < minutes → failed (now + minutes * 60000) < cfg.maxFailures ∧
        cfg.maxFailures ≤ failed (now + (minutes - 1) * 60000)) := by
  have hmax : 0 < cfg.maxFailures := by
    have := (intWithin_bounds perIpMax (by decide : 5 ≤ 30) (by decide : 30 ≤ 10000)).1
    subst hcfg
    exact lt_of_lt_of_le (by decide) this
  have hkeeps := tracks_recordAll cfg hsorted hnow ip hip
  have hfull : ∀ t, now ≤ t →
    (cfg.maxFailures ≤ Window.countIn cfg.windowMs (failuresFrom ip log) t ↔ _) :=
    fun t ht => hkeeps.full_iff ht
  dsimp only
  rw [blockedForMin_eq hip hmax hkeeps.length_le]
  split
  · next hblocked =>
    have hnowfull := (hfull now (le_refl _)).2 hblocked
    obtain ⟨hlen, hfirst⟩ := hblocked
    generalize held (cfg.recordAll log) ip = list at hfull hlen hfirst
    match list, hlen with
    | [], hlen => exact absurd hlen hmax.ne
    | first :: rest, hlen =>
      have hin : now - first < cfg.windowMs := hfirst first rfl
      simp only [List.head?_cons, Option.mem_def, Option.some_inj, forall_eq',
        Option.getD_some] at hfull ⊢
      obtain ⟨hpos, hlong, hshort⟩ := minutesUntil_spec (show 0 < first + cfg.windowMs - now by
        omega)
      generalize minutesUntil (first + cfg.windowMs - now) = minutes at hpos hlong hshort ⊢
      refine ⟨⟨fun h => absurd h hpos.ne', fun h => absurd hnowfull (not_le.2 h)⟩, hpos.le,
        fun _ => ⟨?_, ?_⟩⟩
      · rw [← not_le, hfull _ (by omega)]
        rintro ⟨-, hlt⟩
        omega
      · exact (hfull _ (by omega)).2 ⟨hlen, by omega⟩
  · next hopen =>
    rw [← hfull now (le_refl _), not_le] at hopen
    exact ⟨⟨fun _ => hopen, fun _ => rfl⟩, le_refl 0, fun h => absurd h (lt_irrefl 0)⟩

/-- Five failures at midnight from an address that may fail five times: a minute later it is told to
wait the nine minutes that are left. -/
theorem blockedForMin_afterFive :
    let cfg := failedLoginLimits (some (text "5")) none
    let log := List.replicate 5 (some [49], 0)
    cfg.blockedForMin (cfg.recordAll log) (some [49]) 60000 = 9 ∧
      Window.countIn cfg.windowMs (failuresFrom [49] log) (60000 + 9 * 60000) <
        cfg.maxFailures := by
  have hminutes : (failedLoginLimits (some (text "5")) none).blockedForMin
      ((failedLoginLimits (some (text "5")) none).recordAll (List.replicate 5 (some [49], 0)))
      (some [49]) 60000 = 9 := by decide +kernel
  have hall := @blockedForMin_recordAll (failedLoginLimits (some (text "5")) none)
    (List.replicate 5 (some [49], 0)) [49] 60000 (some (text "5")) none rfl (by decide)
      (by decide) (by decide)
  rw [hminutes] at hall
  exact ⟨hminutes, (hall.2.2 (by decide)).1⟩

end FailedLoginsByAddress

end RxVision
