import Mathlib.Data.List.AList

/-!
# Failed key attempts per person (`signout-keys/domain/attempt-limiter.ts`)

The limiter keeps the times of each person's failures in memory. Reading them forgets the ones that
are `windowMs` old, and a map that grows past `maxPeople` is swept, and cleared when that does not
help. A person nobody else crowds out is never forgotten otherwise (`held_recordFailure`).
-/

namespace RxVision

/-- `AttemptLimiter`: its limits. -/
structure AttemptLimiter where
  maxFailures : ℕ := 5
  windowMs : ℤ := 10 * 60 * 1000
  maxPeople : ℕ := 10000

/-- The map `failures`: the times of each person's failures, the oldest first. -/
abbrev Failures := AList fun _ : ℕ => List ℤ

namespace AttemptLimiter

variable (cfg : AttemptLimiter)

/-- The failures that are held of a person. -/
def held (f : Failures) (personId : ℕ) : List ℤ := (f.lookup personId).getD []

/-- `recent`: the failures that are not `windowMs` old, and the map without the others. -/
def recent (f : Failures) (personId : ℕ) (now : ℤ) : List ℤ × Failures :=
  let list := (held f personId).filter fun t => now - t < cfg.windowMs
  (list, if list = [] then f.erase personId else f.insert personId list)

/-- `retryAfterSec`: seconds until another attempt is allowed (0: now). -/
def retryAfterSec (f : Failures) (personId : ℕ) (now : ℤ) : ℤ × Failures :=
  let (list, f') := cfg.recent f personId now
  if list.length < cfg.maxFailures then (0, f')
  else
    match list[list.length - cfg.maxFailures]? with
    | some oldest => (max 1 ((oldest + cfg.windowMs - now + 999) / 1000), f')
    -- `NaN` is not greater than 0
    | none => (0, f')

/-- `sweep`. -/
def sweep (f : Failures) (now : ℤ) : Failures :=
  let f' := f.keys.foldl (fun f id => (cfg.recent f id now).2) f
  if f'.keys.length ≥ cfg.maxPeople then ∅ else f'

/-- `recordFailure`. -/
def recordFailure (f : Failures) (personId : ℕ) (now : ℤ) : Failures :=
  let (list, f') := cfg.recent f personId now
  let f'' := if personId ∉ f' ∧ f'.keys.length ≥ cfg.maxPeople then cfg.sweep f' now else f'
  f''.insert personId (list ++ [now])

/-- `reset`. -/
def reset (f : Failures) (personId : ℕ) : Failures := f.erase personId

variable {cfg} {f : Failures} {p q : ℕ} {now : ℤ} {people : List ℕ}

/-! ## What is held -/

/-- What is held of a person after their list is written. -/
theorem held_insert {list : List ℤ} :
    held (f.insert p list) q = if q = p then list else held f q := by
  unfold held
  split
  · next h => rw [h, AList.lookup_insert, Option.getD_some]
  · next h => rw [AList.lookup_insert_ne h]

/-- What is held of a person after their list is dropped. -/
theorem held_erase : held (f.erase p) q = if q = p then [] else held f q := by
  unfold held
  split
  · next h => rw [h, AList.lookup_erase, Option.getD_none]
  · next h => rw [AList.lookup_erase_ne h]

/-- Looking at the recent attempts drops the old ones. -/
theorem held_recent : held (cfg.recent f p now).2 q =
    if q = p then (cfg.recent f p now).1 else held f q := by
  unfold recent
  dsimp only
  split
  · next hnil => rw [held_erase, hnil]
  · rw [held_insert]

/-- Somebody with failures is in the map. -/
theorem mem_of_held (h : held f p ≠ []) : p ∈ f := by
  unfold held at h
  cases hl : f.lookup p with
  | none => simp [hl] at h
  | some list => exact AList.lookup_isSome.1 (by rw [hl]; rfl)

/-- Nobody enters the map when failures are forgotten. -/
theorem mem_of_mem_recent (h : q ∈ (cfg.recent f p now).2) : q ∈ f := by
  unfold recent at h
  dsimp only at h
  split at h
  · exact (AList.mem_erase.1 h).2
  · next hne =>
    rcases (AList.mem_insert f).1 h with rfl | h
    · exact mem_of_held fun hnil => hne (by rw [hnil, List.filter_nil])
    · exact h

/-- With everyone in the map among `people`, nobody is crowded out. -/
theorem length_lt_maxPeople (hpeople : people.length ≤ cfg.maxPeople) (hf : ∀ q ∈ f, q ∈ people)
    (hp : p ∈ people) (hnot : p ∉ f) : f.keys.length < cfg.maxPeople := by
  have hnodup : (p :: f.keys).Nodup := List.nodup_cons.2 ⟨hnot, f.keys_nodup⟩
  have hsub : p :: f.keys ⊆ people := by
    intro q hq
    rcases List.mem_cons.1 hq with rfl | hq
    · exact hp
    · exact hf q hq
  have hle := (List.subperm_of_subset hnodup hsub).length_le
  rw [List.length_cons] at hle
  omega

/-- A failure is added to the ones that are not forgotten, and nothing happens to the others. -/
theorem recordFailure_eq (hpeople : people.length ≤ cfg.maxPeople) (hf : ∀ q ∈ f, q ∈ people)
    (hp : p ∈ people) : cfg.recordFailure f p now =
      (cfg.recent f p now).2.insert p ((cfg.recent f p now).1 ++ [now]) := by
  unfold recordFailure
  dsimp only
  rw [if_neg]
  rintro ⟨hnot, hle⟩
  have hlt := length_lt_maxPeople hpeople (fun q hq => hf q (mem_of_mem_recent hq)) hp hnot
  omega

/-- A failure is held from then on. -/
theorem held_recordFailure (hpeople : people.length ≤ cfg.maxPeople) (hf : ∀ q ∈ f, q ∈ people)
    (hp : p ∈ people) : held (cfg.recordFailure f p now) q =
      if q = p then (cfg.recent f p now).1 ++ [now] else held f q := by
  rw [recordFailure_eq hpeople hf hp, held_insert]
  split
  · rfl
  · next hne => rw [held_recent, if_neg hne]

/-- Only people are remembered. -/
theorem mem_recordFailure (hpeople : people.length ≤ cfg.maxPeople) (hf : ∀ q ∈ f, q ∈ people)
    (hp : p ∈ people) : ∀ q ∈ cfg.recordFailure f p now, q ∈ people := by
  intro q hq
  rw [recordFailure_eq hpeople hf hp] at hq
  rcases (AList.mem_insert _).1 hq with rfl | hq
  · exact hp
  · exact hf q (mem_of_mem_recent hq)

/-- What is not forgotten later is not forgotten now. -/
theorem countP_recent {later : ℤ} (h : now ≤ later) :
    ((cfg.recent f p now).1.countP fun t => later - t < cfg.windowMs) =
      (held f p).countP fun t => later - t < cfg.windowMs := by
  unfold recent
  rw [List.countP_filter]
  refine List.countP_congr fun t _ => ?_
  simp only [Bool.and_eq_true, decide_eq_true_eq]
  constructor
  · exact fun ht => ht.1
  · intro ht
    exact ⟨ht, by omega⟩

/-- The recent attempts are those of the window. -/
theorem length_recent : (cfg.recent f p now).1.length =
    (held f p).countP fun t => now - t < cfg.windowMs := by
  unfold recent
  rw [List.countP_eq_length_filter]

/-! ## Who is let through -/

/-- Asking for the wait drops the old attempts only. -/
theorem retryAfterSec_snd : (cfg.retryAfterSec f p now).2 = (cfg.recent f p now).2 := by
  unfold retryAfterSec
  dsimp only
  split
  · rfl
  · split <;> rfl

end AttemptLimiter

end RxVision
