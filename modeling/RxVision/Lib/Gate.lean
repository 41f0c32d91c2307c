import RxVision.Lib.Runs
import Mathlib.Data.List.Basic
import Mathlib.Logic.Function.Basic

/-!
# Gates over a store

A store with gates that can be closed, one for each key. Closing a gate takes its lock exclusively,
asks whether the store is ready for it, reads what it keeps of the store part by part and commits;
opening takes the lock exclusively too. A write transaction reads what it writes and which gate it
has to find open, if any; it then takes that gate's lock shared, looks at the gate, and commits. All
locks are held to the end of the transaction. Between what it read and its commit other transactions
commit. A transaction may also look at gates as it reads, without any lock.

`Inv.of_run` says when a condition on the store holds of every closed gate in every interleaving: it
holds of what closing a gate has read so far and of what it keeps in the end, and a commit keeps it
for the gates that are closed or about to be, of which the gate it found open is none.
-/

namespace Gate

/-- Shared and exclusive locks by key; a lock that is held exclusively is not shared. -/
structure Locks (κ : Type*) where
  shared : κ → List ℕ
  exclusive : κ → Option ℕ
  apart : ∀ k, (exclusive k).isSome → shared k = []

namespace Locks

variable {κ : Type*}

/-- No lock is held. -/
def free : Locks κ := ⟨fun _ => [], fun _ => none, fun _ _ => rfl⟩

/-- The transaction `i` gives back its locks. -/
def release (l : Locks κ) (i : ℕ) : Locks κ where
  shared k := (l.shared k).filter (· ≠ i)
  exclusive k := (l.exclusive k).filter (· ≠ i)
  apart k h := by
    obtain ⟨j, hj⟩ := Option.isSome_iff_exists.1 h
    rw [l.apart k (by rw [(Option.filter_eq_some_iff.1 hj).1]; rfl), List.filter_nil]

/-- The transaction `i` takes the lock of `k` with others. -/
def share [DecidableEq κ] (l : Locks κ) (i : ℕ) (k : κ) (h : l.exclusive k = none) : Locks κ where
  shared := Function.update l.shared k (i :: l.shared k)
  exclusive := l.exclusive
  apart k' h' := by
    rcases eq_or_ne k' k with rfl | hne
    · simp [h] at h'
    · rw [Function.update_of_ne hne]
      exact l.apart k' h'

/-- The transaction `i` takes the lock of `k` alone. -/
def exclude [DecidableEq κ] (l : Locks κ) (i : ℕ) (k : κ) (h : l.shared k = []) : Locks κ where
  shared := l.shared
  exclusive := Function.update l.exclusive k (some i)
  apart k' h' := by
    rcases eq_or_ne k' k with rfl | hne
    · exact h
    · rw [Function.update_of_ne hne] at h'
      exact l.apart k' h'

end Locks

/-- What the write transactions `τ` do to a store `σ` with gates `κ`, what closing a gate asks of
the store, what it has read of its parts `π` so far (`γ`), and what it keeps in the end (`δ`). -/
structure Spec (σ κ γ δ π τ : Type*) where
  /-- The gates that refuse a transaction when it finds them closed as it reads. -/
  looks : τ → σ → κ → Bool
  /-- The reads of a transaction: it is refused, or knows what it writes and has to find
  a gate open, or none. -/
  read : τ → σ → Option (τ × Option κ)
  /-- What it leaves of the store it commits to. -/
  write : τ → σ → σ
  ready : κ → σ → Bool
  /-- What closing a gate has as it finds the store ready. -/
  blank : κ → σ → γ
  /-- What it has with the part it reads next. -/
  add : π → κ → σ → γ → γ
  /-- What the gate keeps; none while parts are missing. -/
  kept : κ → γ → Option δ

/-- Where a transaction stands. -/
inductive Phase (κ γ τ : Type*)
  | begun (t : τ)
  /-- It has read the gate it has to find open. -/
  | placed (t : τ) (k : Option κ)
  /-- It holds the lock of a gate that it found open. -/
  | guarded (t : τ) (k : κ)
  | closing (k : κ)
  /-- The store is ready for the gate to close; `g` is read of it so far. -/
  | counted (k : κ) (g : γ)
  | opening (k : κ)

/-- The gate a transaction holds the lock of alone. -/
def Phase.alone {κ γ τ : Type*} : Phase κ γ τ → Option κ
  | .closing k | .counted k _ | .opening k => some k
  | _ => none

/-- The store, the closed gates with what they keep, and the transactions under way. -/
structure State (σ κ γ δ τ : Type*) where
  store : σ
  closed : List (κ × δ)
  locks : Locks κ
  running : ℕ → Option (Phase κ γ τ)

/-- What a transaction does next. -/
inductive Action (κ π τ : Type*)
  | start (i : ℕ) (t : τ)
  | read (i : ℕ)
  /-- Takes the lock of its gate and looks at it. -/
  | check (i : ℕ)
  | close (i : ℕ) (k : κ)
  /-- Asks whether the store is ready, under the lock. -/
  | count (i : ℕ)
  /-- Reads a part of what the gate will keep. -/
  | keep (i : ℕ) (p : π)
  | reopen (i : ℕ) (k : κ)
  | commit (i : ℕ)
  | rollback (i : ℕ)

variable {σ κ γ δ π τ : Type*}

/-- A store with every gate open and no transaction under way. -/
def State.idle (c : σ) : State σ κ γ δ τ := ⟨c, [], .free, fun _ => none⟩

/-- What the gate `k` keeps; none when it is open. -/
def State.gates [DecidableEq κ] (s : State σ κ γ δ τ) (k : κ) : Option δ :=
  (s.closed.find? fun e => e.1 = k).map Prod.snd

/-- The transaction `i` is over. -/
def State.over (s : State σ κ γ δ τ) (i : ℕ) : State σ κ γ δ τ :=
  { s with locks := s.locks.release i, running := Function.update s.running i none }

/-- The transaction `i` is in the phase `p` now. -/
def State.goes (s : State σ κ γ δ τ) (i : ℕ) (p : Phase κ γ τ) : State σ κ γ δ τ :=
  { s with running := Function.update s.running i (some p) }

/-- One step. -/
def step [DecidableEq κ] (spec : Spec σ κ γ δ π τ) (s : State σ κ γ δ τ) :
    Action κ π τ → Option (State σ κ γ δ τ)
  | .start i t => if (s.running i).isNone then some (s.goes i (.begun t)) else none
  | .read i =>
    match s.running i with
    | some (.begun t) =>
      if s.closed.any fun e => spec.looks t s.store e.1 then some (s.over i)
      else
        match spec.read t s.store with
        | some (t', k) => some (s.goes i (.placed t' k))
        | none => some (s.over i)
    | _ => none
  | .check i =>
    match s.running i with
    | some (.placed t (some k)) =>
      if h : s.locks.exclusive k = none then
        if (s.gates k).isSome then some (s.over i)
        else some { s.goes i (.guarded t k) with locks := s.locks.share i k h }
      else none
    | _ => none
  | .close i k =>
    if h : s.locks.shared k = [] ∧ s.locks.exclusive k = none ∧ (s.running i).isNone then
      some { s.goes i (.closing k) with locks := s.locks.exclude i k h.1 }
    else none
  | .count i =>
    match s.running i with
    | some (.closing k) =>
      if (s.gates k).isSome then some (s.over i)
      else if spec.ready k s.store then some (s.goes i (.counted k (spec.blank k s.store)))
      else some (s.over i)
    | _ => none
  | .keep i p =>
    match s.running i with
    | some (.counted k g) => some (s.goes i (.counted k (spec.add p k s.store g)))
    | _ => none
  | .reopen i k =>
    if h : s.locks.shared k = [] ∧ s.locks.exclusive k = none ∧ (s.running i).isNone then
      some { s.goes i (.opening k) with locks := s.locks.exclude i k h.1 }
    else none
  | .commit i =>
    match s.running i with
    | some (.placed t none) | some (.guarded t _) =>
      some { s.over i with store := spec.write t s.store }
    | some (.counted k g) =>
      (spec.kept k g).map fun d => { s.over i with closed := (k, d) :: s.closed }
    | some (.opening k) => some { s.over i with closed := s.closed.filter fun e => e.1 ≠ k }
    | _ => none
  | .rollback i => if (s.running i).isSome then some (s.over i) else none

/-- The gate `k` is closed, or a transaction is about to close it. -/
def State.Held [DecidableEq κ] (s : State σ κ γ δ τ) (k : κ) : Prop :=
  (s.gates k).isSome ∨ ∃ i g, s.running i = some (.counted k g)

/-- The write transaction `i` is at its commit; `k` is the gate it found open. -/
inductive State.Writes (s : State σ κ γ δ τ) (i : ℕ) (t : τ) : Option κ → Prop
  | free : s.running i = some (.placed t none) → s.Writes i t none
  | guarded {k : κ} : s.running i = some (.guarded t k) → s.Writes i t (some k)

/-- A condition on commits, given the gate the transaction found open, the store and the gates held,
one on what closing a gate finds, and one on each part it reads. -/
def Ok [DecidableEq κ] (okWrite : τ → Option κ → σ → (κ → Prop) → Prop) (okCount : κ → σ → Prop)
    (okKeep : π → κ → σ → Prop) (s : State σ κ γ δ τ) : Action κ π τ → Prop
  | .commit i => ∀ t k, s.Writes i t k → okWrite t k s.store s.Held
  | .count i => ∀ k, s.running i = some (.closing k) → okCount k s.store
  | .keep i p => ∀ k g, s.running i = some (.counted k g) → okKeep p k s.store
  | _ => True

section

variable {s : State σ κ γ δ τ} {i j : ℕ} {p q : Phase κ γ τ}

/-- What is under way after `i` has moved on is `i` or was under way before. -/
theorem running_goes (h : (s.goes i p).running j = some q) :
    (j = i ∧ p = q) ∨ (j ≠ i ∧ s.running j = some q) := by
  rcases eq_or_ne j i with rfl | hne
  · exact Or.inl ⟨rfl, by simpa [State.goes] using h⟩
  · exact Or.inr ⟨hne, by simpa [State.goes, Function.update_of_ne hne] using h⟩

/-- What is under way after `i` is over was under way before. -/
theorem running_over (h : (s.over i).running j = some q) : j ≠ i ∧ s.running j = some q := by
  rcases eq_or_ne j i with rfl | hne
  · simp [State.over] at h
  · exact ⟨hne, by simpa [State.over, Function.update_of_ne hne] using h⟩

/-- A lock that is taken alone was free, so the other holders stay. -/
theorem Locks.exclude_holders [DecidableEq κ] {l : Locks κ} {k : κ} (hs : l.shared k = [])
    (he : l.exclusive k = none) {k' : κ} (hj : l.exclusive k' = some j) :
    (l.exclude i k hs).exclusive k' = some j := by
  rcases eq_or_ne k' k with rfl | hne
  · rw [he] at hj
    cases hj
  · exact (Function.update_of_ne hne ..).trans hj

end

/-- Only the commit of a write transaction changes the store. -/
theorem store_step [DecidableEq κ] {spec : Spec σ κ γ δ π τ} {s' : State σ κ γ δ τ}
    {a : Action κ π τ} (h : step spec s a = some s') : s'.store = s.store ∨
      ∃ i t k, a = .commit i ∧ s.Writes i t k ∧ s'.store = spec.write t s.store := by
  cases a with
  | start | rollback =>
    obtain ⟨-, rfl⟩ := Option.ite_none_right_eq_some.1 h |>.imp_right Option.some.inj
    exact Or.inl rfl
  | read | check | close | count | keep | reopen =>
    simp only [step] at h
    split at h <;> (try split at h) <;> (try split at h) <;> cases h <;> exact Or.inl rfl
  | commit i =>
    simp only [step] at h
    split at h
    case h_1 t hi =>
      cases h
      exact Or.inr ⟨i, t, none, rfl, .free hi, rfl⟩
    case h_2 t k hi =>
      cases h
      exact Or.inr ⟨i, t, some k, rfl, .guarded hi, rfl⟩
    case h_3 k g hi =>
      obtain ⟨d, -, rfl⟩ := Option.map_eq_some_iff.1 h
      exact Or.inl rfl
    case h_4 k hi =>
      cases h
      exact Or.inl rfl
    case h_5 => cases h

/-! ## What holds of every closed gate -/

/-- The closed gates meet `Q` and those about to close `P`, a transaction that found a gate
open still has it open, and a lock has the holders that the phases say. `Fits` relates a
transaction to the gate it read. -/
structure Inv [DecidableEq κ] (Q : κ → δ → σ → Prop) (P : κ → γ → σ → Prop)
    (Fits : τ → Option κ → σ → Prop) (s : State σ κ γ δ τ) : Prop where
  closed : ∀ {k d}, s.gates k = some d → Q k d s.store
  counted : ∀ {i k g}, s.running i = some (.counted k g) → P k g s.store
  guarded : ∀ {i t k}, s.running i = some (.guarded t k) → s.gates k = none ∧ i ∈ s.locks.shared k
  alone : ∀ {i p k}, s.running i = some p → p.alone = some k → s.locks.exclusive k = some i
  placed : ∀ {i t k}, s.running i = some (.placed t k) → Fits t k s.store
  fits : ∀ {i t k}, s.running i = some (.guarded t k) → Fits t (some k) s.store

section

variable [DecidableEq κ] {spec : Spec σ κ γ δ π τ} {Q : κ → δ → σ → Prop} {P : κ → γ → σ → Prop}
  {Fits : τ → Option κ → σ → Prop} {okWrite : τ → Option κ → σ → (κ → Prop) → Prop}
  {okCount : κ → σ → Prop} {okKeep : π → κ → σ → Prop} {s s' : State σ κ γ δ τ} {i j : ℕ}
  {p q : Phase κ γ τ}

/-- With every gate open and nothing under way there is nothing to hold. -/
theorem Inv.idle (c : σ) : Inv Q P Fits (State.idle c : State σ κ γ δ τ) where
  closed h := by cases h
  counted h := by cases h
  guarded h := by cases h
  alone h := by cases h
  placed h := by cases h
  fits h := by cases h

/-- The gate a transaction found open is not held. -/
theorem Inv.not_held (h : Inv Q P Fits s) {t : τ} {k : κ} (hi : s.running i = some (.guarded t k)) :
    ¬ s.Held k := by
  obtain ⟨hopen, hshared⟩ := h.guarded hi
  rintro (hclosed | ⟨j, g, hj⟩)
  · simp [hopen] at hclosed
  · have hexcl := h.alone hj rfl
    rw [s.locks.apart k (by rw [hexcl]; rfl)] at hshared
    cases hshared

/-- A transaction at its commit fits the gate it found open, and that gate is not held. -/
theorem Inv.at_commit (h : Inv Q P Fits s) {t : τ} {k : Option κ} (hw : s.Writes i t k) :
    Fits t k s.store ∧ ∀ k', k = some k' → ¬ s.Held k' := by
  cases hw with
  | free hi => exact ⟨h.placed hi, by simp⟩
  | guarded hi =>
    refine ⟨h.fits hi, fun k' hk' => ?_⟩
    cases hk'
    exact h.not_held hi

/-- The end of a transaction that leaves the store and the gates alone keeps the invariant. -/
theorem Inv.over (h : Inv Q P Fits s) : Inv Q P Fits (s.over i) where
  closed := h.closed
  counted hj := h.counted (running_over hj).2
  guarded hj := by
    obtain ⟨hne, hj⟩ := running_over hj
    obtain ⟨hopen, hshared⟩ := h.guarded hj
    exact ⟨hopen, List.mem_filter.2 ⟨hshared, by simpa using hne⟩⟩
  alone hj ha := by
    obtain ⟨hne, hj⟩ := running_over hj
    change (s.locks.exclusive _).filter (· ≠ i) = _
    rw [h.alone hj ha]
    simp [Option.filter, hne]
  placed hj := h.placed (running_over hj).2
  fits hj := h.fits (running_over hj).2

/-- A step of `i` to the phase `p`, which may take locks, keeps the invariant when `p` has what the
invariant asks of it. -/
theorem Inv.goes {l : Locks κ} (h : Inv Q P Fits s)
    (hshared : ∀ {j k}, j ∈ s.locks.shared k → j ∈ l.shared k)
    (hexcl : ∀ {j k}, s.locks.exclusive k = some j → l.exclusive k = some j)
    (hcounted : ∀ k g, p = .counted k g → P k g s.store)
    (hguarded : ∀ t k, p = .guarded t k →
      (s.gates k = none ∧ i ∈ l.shared k) ∧ Fits t (some k) s.store)
    (halone : ∀ k, p.alone = some k → l.exclusive k = some i)
    (hplaced : ∀ t k, p = .placed t k → Fits t k s.store) :
    Inv Q P Fits { s.goes i p with locks := l } where
  closed := h.closed
  counted hj := by
    rcases running_goes hj with ⟨-, hp⟩ | ⟨-, hj⟩
    · exact hcounted _ _ hp
    · exact h.counted hj
  guarded hj := by
    rcases running_goes hj with ⟨rfl, hp⟩ | ⟨-, hj⟩
    · exact (hguarded _ _ hp).1
    · exact (h.guarded hj).imp_right hshared
  alone hj ha := by
    rcases running_goes hj with ⟨rfl, rfl⟩ | ⟨-, hj⟩
    · exact halone _ ha
    · exact hexcl (h.alone hj ha)
  placed hj := by
    rcases running_goes hj with ⟨-, hp⟩ | ⟨-, hj⟩
    · exact hplaced _ _ hp
    · exact h.placed hj
  fits hj := by
    rcases running_goes hj with ⟨-, hp⟩ | ⟨-, hj⟩
    · exact (hguarded _ _ hp).2
    · exact h.fits hj

/-- A commit of a write transaction. -/
theorem Inv.write (h : Inv Q P Fits s) {c : σ}
    (hheld : ∀ k, s.Held k → (∀ d, Q k d s.store → Q k d c) ∧ ∀ g, P k g s.store → P k g c)
    (hfits : ∀ t k, Fits t k s.store → Fits t k c) : Inv Q P Fits { s with store := c } where
  closed {k d} hk := by
    refine (hheld k (Or.inl ?_)).1 d (h.closed hk)
    exact Option.isSome_iff_exists.2 ⟨d, hk⟩
  counted hj := (hheld _ (Or.inr ⟨_, _, hj⟩)).2 _ (h.counted hj)
  guarded := h.guarded
  alone := h.alone
  placed hj := hfits _ _ (h.placed hj)
  fits hj := hfits _ _ (h.fits hj)

/-- A gate held after a transaction is over was held before. -/
theorem held_over {k : κ} (h : (s.over i).Held k) : s.Held k :=
  h.imp_right fun ⟨j, g, hj⟩ => ⟨j, g, (running_over hj).2⟩

/-- The gates once one more is closed. -/
theorem gates_closed {k k' : κ} {d : δ} :
    ({ s with closed := (k, d) :: s.closed } : State σ κ γ δ τ).gates k' =
      if k = k' then some d else s.gates k' := by
  simp only [State.gates, List.find?_cons]
  split <;> simp_all

/-- The gates once one of them is opened. -/
theorem gates_opened {k k' : κ} :
    ({ s with closed := s.closed.filter fun e => e.1 ≠ k } : State σ κ γ δ τ).gates k' =
      if k = k' then none else s.gates k' := by
  simp only [State.gates, List.find?_filter]
  split
  · next h => simp [h]
  · next h =>
    refine congrArg (Option.map Prod.snd) (congrArg (List.find? · s.closed) (funext fun e => ?_))
    grind

/-- The commit that closes a gate. -/
theorem Inv.shut (h : Inv Q P Fits s) {k : κ} {g : γ} {d : δ}
    (hi : s.running i = some (.counted k g)) (hd : P k g s.store → Q k d s.store) :
    Inv Q P Fits { s.over i with closed := (k, d) :: s.closed } where
  closed {k' d'} hk := by
    replace hk := (gates_closed (s := s)).symm.trans hk
    split at hk
    · next heq =>
      cases heq
      cases hk
      exact hd (h.counted hi)
    · exact h.closed hk
  counted := h.over.counted
  guarded {j t k'} hj := by
    refine ⟨?_, (h.over.guarded hj).2⟩
    refine (gates_closed (s := s)).trans ?_
    split
    · next heq =>
      cases heq
      exact absurd (Or.inr ⟨i, g, hi⟩) (h.not_held (running_over hj).2)
    · exact (h.over.guarded hj).1
  alone := h.over.alone
  placed := h.over.placed
  fits := h.over.fits

/-- The commit that opens a gate. -/
theorem Inv.unlock (h : Inv Q P Fits s) {k : κ} :
    Inv Q P Fits { s.over i with closed := s.closed.filter fun e => e.1 ≠ k } where
  closed {k' d'} hk := by
    replace hk := (gates_opened (s := s)).symm.trans hk
    split at hk
    · cases hk
    · exact h.closed hk
  counted := h.over.counted
  guarded {j t k'} hj := by
    refine ⟨?_, (h.over.guarded hj).2⟩
    refine (gates_opened (s := s)).trans ?_
    split
    · rfl
    · exact (h.over.guarded hj).1
  alone := h.over.alone
  placed := h.over.placed
  fits := h.over.fits

/-- One step keeps the invariant. -/
theorem Inv.of_step (hcount : ∀ k c, okCount k c → spec.ready k c = true → P k (spec.blank k c) c)
    (hkeep : ∀ p k c g, okKeep p k c → P k g c → P k (spec.add p k c g) c)
    (hkept : ∀ k c g d, P k g c → spec.kept k g = some d → Q k d c)
    (hread : ∀ t t' k c, spec.read t c = some (t', k) → Fits t' k c)
    (hfits : ∀ t t' k c, Fits t k c → Fits t k (spec.write t' c))
    (hwrite : ∀ t k c held, Fits t k c → okWrite t k c held → (∀ k', k = some k' → ¬ held k') →
      ∀ k', held k' → (∀ d, Q k' d c → Q k' d (spec.write t c)) ∧
        ∀ g, P k' g c → P k' g (spec.write t c))
    (h : Inv Q P Fits s) {a : Action κ π τ} (ha : Ok okWrite okCount okKeep s a)
    (hs : step spec s a = some s') : Inv Q P Fits s' := by
  cases a with
  | start i t =>
    obtain ⟨-, rfl⟩ := Option.ite_none_right_eq_some.1 hs |>.imp_right Option.some.inj
    exact h.goes id id (by simp) (by simp) (by simp [Phase.alone]) (by simp)
  | read i =>
    simp only [step] at hs
    split at hs
    case h_2 => cases hs
    case h_1 t hi =>
      split at hs
      · cases hs
        exact h.over
      · split at hs
        case h_1 t' k hk =>
          cases hs
          refine h.goes id id (by simp) (by simp) (by simp [Phase.alone]) fun _ _ hp => ?_
          cases hp
          exact hread t t' k s.store hk
        case h_2 =>
          cases hs
          exact h.over
  | check i =>
    simp only [step] at hs
    split at hs
    case h_2 => cases hs
    case h_1 t k hi =>
      split at hs
      case isFalse => cases hs
      case isTrue hfree =>
        split at hs
        · cases hs
          exact h.over
        · rename_i hopen
          cases hs
          refine h.goes (fun {j k'} hj => ?_) id (by simp) (fun t' k' hp => ?_)
            (by simp [Phase.alone]) (by simp)
          · rcases eq_or_ne k' k with rfl | hne
            · change j ∈ Function.update s.locks.shared k' _ k'
              rw [Function.update_self]
              exact List.mem_cons_of_mem _ hj
            · change j ∈ Function.update s.locks.shared k _ k'
              rwa [Function.update_of_ne hne]
          · cases hp
            refine ⟨⟨by simpa using hopen, ?_⟩, h.placed hi⟩
            change i ∈ Function.update s.locks.shared k _ k
            rw [Function.update_self]
            exact List.mem_cons_self
  | close i k | reopen i k =>
    simp only [step] at hs
    split at hs
    case isFalse => cases hs
    case isTrue hfree =>
      cases hs
      refine h.goes id (Locks.exclude_holders hfree.1 hfree.2.1) (by simp) (by simp)
        (fun k' hp => ?_) (by simp)
      cases hp
      exact Function.update_self ..
  | count i =>
    simp only [step] at hs
    split at hs
    case h_2 => cases hs
    case h_1 k hi =>
      split at hs
      · cases hs
        exact h.over
      · split at hs
        · rename_i hready
          cases hs
          refine h.goes id id (fun k' g hp => ?_) (by simp) (fun k' hp => ?_) (by simp)
          · cases hp
            exact hcount k s.store (ha k hi) hready
          · cases hp
            exact h.alone hi rfl
        · cases hs
          exact h.over
  | keep i p =>
    simp only [step] at hs
    split at hs
    case h_2 => cases hs
    case h_1 k g hi =>
      cases hs
      refine h.goes id id (fun k' g' hp => ?_) (by simp) (fun k' hp => ?_) (by simp)
      · cases hp
        exact hkeep p k s.store g (ha k g hi) (h.counted hi)
      · cases hp
        exact h.alone hi rfl
  | commit i =>
    have hcommit : ∀ t k, s.Writes i t k →
        Inv Q P Fits { s.over i with store := spec.write t s.store } := by
      intro t k hw
      obtain ⟨hfit, hfree⟩ := h.at_commit hw
      exact (h.over (i := i)).write
        (fun k' hk' => hwrite t k s.store s.Held hfit (ha t k hw) hfree k' (held_over hk'))
        fun t' k' => hfits t' t k' s.store
    simp only [step] at hs
    split at hs
    case h_1 t hi =>
      cases hs
      exact hcommit t none (.free hi)
    case h_2 t k hi =>
      cases hs
      exact hcommit t (some k) (.guarded hi)
    case h_3 k g hi =>
      obtain ⟨d, hd, rfl⟩ := Option.map_eq_some_iff.1 hs
      exact h.shut hi fun hP => hkept k s.store g d hP hd
    case h_4 k hi =>
      cases hs
      exact h.unlock
    case h_5 => cases hs
  | rollback i =>
    obtain ⟨-, rfl⟩ := Option.ite_none_right_eq_some.1 hs |>.imp_right Option.some.inj
    exact h.over

/-- Every interleaving keeps the invariant, as long as its commits meet the condition. -/
theorem Inv.of_run (hcount : ∀ k c, okCount k c → spec.ready k c = true → P k (spec.blank k c) c)
    (hkeep : ∀ p k c g, okKeep p k c → P k g c → P k (spec.add p k c g) c)
    (hkept : ∀ k c g d, P k g c → spec.kept k g = some d → Q k d c)
    (hread : ∀ t t' k c, spec.read t c = some (t', k) → Fits t' k c)
    (hfits : ∀ t t' k c, Fits t k c → Fits t k (spec.write t' c))
    (hwrite : ∀ t k c held, Fits t k c → okWrite t k c held → (∀ k', k = some k' → ¬ held k') →
      ∀ k', held k' → (∀ d, Q k' d c → Q k' d (spec.write t c)) ∧
        ∀ g, P k' g c → P k' g (spec.write t c))
    {as : List (Action κ π τ)} (h : Inv Q P Fits s)
    (hm : Runs.Meets (step spec) (Ok okWrite okCount okKeep) s as)
      (hr : Runs.run (step spec) s as = some s') :
    Inv Q P Fits s' :=
  Runs.invariant_run (Inv Q P Fits)
    (fun _ _ _ hi ha hs => Inv.of_step hcount hkeep hkept hread hfits hwrite hi ha hs) h hm hr

end

end Gate
