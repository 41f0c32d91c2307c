import RxVision.Lib.Runs
import Mathlib.Data.List.GetD
import Mathlib.Logic.Function.Basic

/-!
# Transactions at READ COMMITTED, with one lock

A store that several transactions use at once. Every statement of a transaction reads the store as
it is committed at that moment, and what the transaction writes shows when it commits, applied to
what is committed then (`Transaction.effect`). Nothing else orders two transactions: a read may be
stale by the time of the commit. A transaction may take the lock as its first statement and then
holds it to its end; the others do not wait for it.

While a transaction holds the lock, only transactions without it commit. So an invariant carries
over to every interleaving (`Inv.of_run`) once a commit without the lock keeps it and moves the
store along a relation `Since`, and a commit under the lock keeps it from reads that are
`Since`-related to the store it writes.
-/

namespace ReadCommitted

/-- A transaction on a store `σ`. -/
structure Transaction (σ : Type*) where
  /-- The transaction takes the lock as its first statement. -/
  locks : Bool
  /-- The number of its statements that read. -/
  reads : ℕ
  /-- What it leaves of the store at its commit, from what each of its statements read. -/
  effect : (ℕ → σ) → σ → σ

/-- The transaction with nothing else going on: every statement reads the store it commits to. -/
def Transaction.alone {σ : Type*} (tx : Transaction σ) (c : σ) : σ := tx.effect (fun _ => c) c

/-- The store and the transactions under way, each with what it has read, the oldest read first. -/
structure State (σ τ : Type*) where
  committed : σ
  running : ℕ → Option (τ × List σ)
  /-- The transaction that holds the lock. -/
  lock : Option ℕ

/-- What a transaction can do next. -/
inductive Action (τ : Type*)
  | start (i : ℕ) (t : τ)
  | read (i : ℕ)
  | commit (i : ℕ)
  | rollback (i : ℕ)

variable {σ τ : Type*}

/-- A store with no transaction under way. -/
def State.idle (c : σ) : State σ τ := ⟨c, fun _ => none, none⟩

/-- What the statements of a transaction read; the ones to come would read what is committed. -/
def seen (rs : List σ) (c : σ) (n : ℕ) : σ := rs.getD n c

/-- The transaction `i` is over: it leaves the list, and the lock when it holds it. -/
def State.over (s : State σ τ) (i : ℕ) : State σ τ :=
  { s with
    running := Function.update s.running i none
    lock := if s.lock = some i then none else s.lock }

/-- One step; `tx` says what the transactions do. -/
def step (tx : τ → Transaction σ) (s : State σ τ) : Action τ → Option (State σ τ)
  | .start i t =>
    if s.running i = none ∧ ((tx t).locks → s.lock = none) then
      some { s with
        running := Function.update s.running i (some (t, []))
        lock := if (tx t).locks then some i else s.lock }
    else none
  | .read i =>
    match s.running i with
    | some (t, rs) =>
      if rs.length < (tx t).reads then
        some { s with running := Function.update s.running i (some (t, rs ++ [s.committed])) }
      else none
    | none => none
  | .commit i =>
    match s.running i with
    | some (t, rs) =>
      if rs.length = (tx t).reads then
        some { s.over i with committed := (tx t).effect (seen rs s.committed) s.committed }
      else none
    | none => none
  | .rollback i =>
    match s.running i with
    | some _ => some (s.over i)
    | none => none

/-- A commit meets `ok`, given what the transaction read and the store it commits to. -/
def CommitMeets (ok : τ → (ℕ → σ) → σ → Prop) (s : State σ τ) : Action τ → Prop
  | .commit i => ∀ t rs, s.running i = some (t, rs) → ok t (seen rs s.committed) s.committed
  | _ => True

/-! ## Invariants over every interleaving -/

/-- The store meets `P`, at most one transaction that takes the lock is under way and holds it, and
what that one has read is `Since`-related to the store. -/
structure Inv (tx : τ → Transaction σ) (P : σ → Prop) (Since : σ → σ → Prop) (s : State σ τ) :
    Prop where
  store : P s.committed
  holder : ∀ {i t rs}, s.running i = some (t, rs) → (tx t).locks = true → s.lock = some i
  since : ∀ {i t rs}, s.running i = some (t, rs) → (tx t).locks = true →
    ∀ r ∈ rs, Since r s.committed

section

variable {tx : τ → Transaction σ} {P : σ → Prop} {Since : σ → σ → Prop}
  {ok : τ → (ℕ → σ) → σ → Prop} {s s' : State σ τ} {i j : ℕ} {t : τ} {rs : List σ}

/-- No transaction is under way in an idle store. -/
theorem Inv.idle {c : σ} (h : P c) : Inv tx P Since (State.idle c) where
  store := h
  holder := fun h => by cases h
  since := fun h => by cases h

/-- What is under way after one is over was under way before. -/
theorem running_over (h : (s.over i).running j = some (t, rs)) :
    j ≠ i ∧ s.running j = some (t, rs) := by
  rcases eq_or_ne j i with rfl | hne
  · simp [State.over] at h
  · exact ⟨hne, by simpa [State.over, Function.update_of_ne hne] using h⟩

/-- What is under way after `i` has moved on is `i` or was under way before. -/
theorem running_update {x y : τ × List σ}
    (h : Function.update s.running i (some x) j = some y) :
    (j = i ∧ x = y) ∨ s.running j = some y := by
  rcases eq_or_ne j i with rfl | hne
  · exact Or.inl ⟨rfl, by simpa using h⟩
  · exact Or.inr (by simpa [Function.update_of_ne hne] using h)

/-- The end of a transaction that leaves the store alone keeps the invariant. -/
theorem Inv.over (h : Inv tx P Since s) : Inv tx P Since (s.over i) where
  store := h.store
  holder := fun {j t rs} hj hl => by
    obtain ⟨hne, hj⟩ := running_over hj
    have hlock := h.holder hj hl
    change (if s.lock = some i then none else s.lock) = some j
    rw [hlock, if_neg fun he => hne (Option.some.inj he)]
  since := fun {j t rs} hj hl => h.since (running_over hj).2 hl

/-- What a transaction that holds the lock has read is `Since`-related to the store,
read by read. -/
theorem Inv.since_seen (h : Inv tx P Since s) (hrefl : ∀ c, P c → Since c c)
    (hi : s.running i = some (t, rs)) (hl : (tx t).locks = true) (n : ℕ) :
    Since (seen rs s.committed n) s.committed := by
  rw [seen]
  rcases Nat.lt_or_ge n rs.length with hn | hn
  · rw [List.getD_eq_getElem _ _ hn]
    exact h.since hi hl _ (List.getElem_mem hn)
  · rw [List.getD_eq_default _ _ hn]
    exact hrefl _ h.store

/-- One step keeps the invariant: reads keep it as what they see is what was committed, and a commit
under the lock reads nothing stale. -/
theorem Inv.of_step (hrefl : ∀ c, P c → Since c c)
    (hlocked : ∀ t r c, (tx t).locks = true → P c → (∀ n, Since (r n) c) → ok t r c →
      P ((tx t).effect r c))
    (hfree : ∀ t r c, (tx t).locks = false → P c → ok t r c →
      P ((tx t).effect r c) ∧ ∀ r', Since r' c → Since r' ((tx t).effect r c))
    (h : Inv tx P Since s) {a : Action τ} (ha : CommitMeets ok s a) (hs : step tx s a = some s') :
    Inv tx P Since s' := by
  cases a with
  | start i t =>
    obtain ⟨⟨-, hlock⟩, rfl⟩ := Option.ite_none_right_eq_some.1 hs |>.imp_right Option.some.inj
    refine ⟨h.store, fun {j t' rs} hj hl => ?_, fun {j t' rs} hj hl r hr => ?_⟩
    · rcases running_update hj with ⟨rfl, heq⟩ | hj
      · cases heq
        exact if_pos hl
      · -- a holder is under way, so the one that starts takes no lock
        have hold := h.holder hj hl
        have hnot : ¬ (tx t).locks = true := fun ht => by simp [hlock ht] at hold
        exact (if_neg hnot).trans hold
    · rcases running_update hj with ⟨rfl, heq⟩ | hj
      · cases heq
        cases hr
      · exact h.since hj hl r hr
  | read i =>
    simp only [step] at hs
    split at hs
    case h_2 => cases hs
    case h_1 t rs hi =>
      obtain ⟨-, rfl⟩ := Option.ite_none_right_eq_some.1 hs |>.imp_right Option.some.inj
      refine ⟨h.store, fun {j t' rs'} hj hl => ?_, fun {j t' rs'} hj hl r hr => ?_⟩
      · rcases running_update hj with ⟨rfl, heq⟩ | hj
        · cases heq
          exact h.holder hi hl
        · exact h.holder hj hl
      · rcases running_update hj with ⟨rfl, heq⟩ | hj
        · cases heq
          rcases List.mem_append.1 hr with hr | hr
          · exact h.since hi hl r hr
          · rw [List.mem_singleton.1 hr]
            exact hrefl _ h.store
        · exact h.since hj hl r hr
  | commit i =>
    simp only [step] at hs
    split at hs
    case h_2 => cases hs
    case h_1 t rs hi =>
      obtain ⟨-, rfl⟩ := Option.ite_none_right_eq_some.1 hs |>.imp_right Option.some.inj
      have hok := ha t rs hi
      cases hl : (tx t).locks with
      | true =>
        -- it held the lock, so no other transaction with the lock is under way
        have hnone : ∀ {j t' rs'}, (s.over i).running j = some (t', rs') → (tx t').locks = true →
            False := fun hj hl' => by
          obtain ⟨hne, hj⟩ := running_over hj
          have := (h.holder hi hl).symm.trans (h.holder hj hl')
          exact hne (Option.some.inj this).symm
        exact ⟨hlocked t _ _ hl h.store (h.since_seen hrefl hi hl) hok,
          fun hj hl' => (hnone hj hl').elim, fun hj hl' => (hnone hj hl').elim⟩
      | false =>
        obtain ⟨hP, hsince⟩ := hfree t _ _ hl h.store hok
        exact ⟨hP, fun hj hl' => (h.over (i := i)).holder hj hl',
          fun hj hl' r hr => hsince r (h.since (running_over hj).2 hl' r hr)⟩
  | rollback i =>
    simp only [step] at hs
    split at hs
    case h_2 => cases hs
    case h_1 =>
      cases hs
      exact h.over

/-- Every interleaving keeps the invariant, as long as its commits meet the condition. -/
theorem Inv.of_run (hrefl : ∀ c, P c → Since c c)
    (hlocked : ∀ t r c, (tx t).locks = true → P c → (∀ n, Since (r n) c) → ok t r c →
      P ((tx t).effect r c))
    (hfree : ∀ t r c, (tx t).locks = false → P c → ok t r c →
      P ((tx t).effect r c) ∧ ∀ r', Since r' c → Since r' ((tx t).effect r c))
    {as : List (Action τ)} (h : Inv tx P Since s)
    (hm : Runs.Meets (step tx) (CommitMeets ok) s as) (hr : Runs.run (step tx) s as = some s') :
    Inv tx P Since s' :=
  Runs.invariant_run (Inv tx P Since)
    (fun _ _ _ hi ha hs => Inv.of_step hrefl hlocked hfree hi ha hs) h hm hr

/-! ## One transaction after the other -/

/-- The steps of a transaction with nothing in between. -/
def steps (tx : τ → Transaction σ) (i : ℕ) (t : τ) : List (Action τ) :=
  .start i t :: (List.replicate (tx t).reads (.read i) ++ [.commit i])

/-- The steps of transactions that run one after the other. -/
def serial (tx : τ → Transaction σ) (ts : List τ) : List (Action τ) := ts.flatMap (steps tx 0)

/-- A transaction reads on, the same tables each time, and nothing else changes. -/
theorem run_reads {n : ℕ} (hi : s.running i = some (t, rs)) (hn : rs.length + n = (tx t).reads) :
    Runs.run (step tx) s (List.replicate n (.read i)) =
      some { s with
        running :=
            Function.update s.running i (some (t, rs ++ List.replicate n s.committed)) } := by
  induction n generalizing s rs with
  | zero => simp [← hi]
  | succ n ih =>
    have hstep : step tx s (.read i) =
        some { s with running := Function.update s.running i (some (t, rs ++ [s.committed])) } := by
      simp only [step, hi]
      exact if_pos (by omega)
    rw [List.replicate_succ, Runs.run_cons, hstep, Option.bind_some,
      ih (Function.update_self ..) (by simp; omega)]
    simp [List.replicate_succ]

/-- The state once a transaction has read everything, with nothing else under way. -/
theorem run_start_reads (c : σ) (i : ℕ) (t : τ) :
    Runs.run (step tx) (.idle c) (.start i t :: List.replicate (tx t).reads (.read i)) =
      some ⟨c, Function.update (fun _ => none) i (some (t, List.replicate (tx t).reads c)),
        if (tx t).locks then some i else none⟩ := by
  have hstart : step tx (.idle c) (.start i t) =
      some ⟨c, Function.update (fun _ => none) i (some (t, [])),
        if (tx t).locks then some i else none⟩ := if_pos ⟨rfl, fun _ => rfl⟩
  have hread := @run_reads σ τ tx ⟨c, Function.update (fun _ => none) i (some (t, [])),
    if (tx t).locks then some i else none⟩ i t [] (tx t).reads (by simp) (by simp)
  rw [Runs.run_cons, hstart, Option.bind_some, hread]
  simp

/-- What a transaction has read when nothing else is under way is the store. -/
theorem seen_replicate (c : σ) (n : ℕ) : seen (List.replicate n c) c = fun _ => c := by
  funext k
  rcases Nat.lt_or_ge k n with hk | hk
  · rw [seen, List.getD_eq_getElem _ _ (by simpa using hk), List.getElem_replicate]
  · rw [seen, List.getD_eq_default _ _ (by simpa using hk)]

/-- A transaction that runs by itself commits what it does alone. -/
theorem run_steps (c : σ) (i : ℕ) (t : τ) :
    Runs.run (step tx) (.idle c) (steps tx i t) = some (.idle ((tx t).alone c)) := by
  rw [steps, ← List.cons_append, Runs.run_append_eq_some]
  refine ⟨_, run_start_reads c i t, ?_⟩
  simp [step, State.over, State.idle, seen_replicate, Transaction.alone]

/-- The commit of a transaction that runs alone meets a condition that it meets on
what it has read. -/
theorem meets_steps {c : σ} {t : τ} (i : ℕ) (h : ok t (fun _ => c) c) :
    Runs.Meets (step tx) (CommitMeets ok) (.idle c) (steps tx i t) := by
  rw [steps, ← List.cons_append]
  refine Runs.Meets.append (Runs.Meets.of_mem fun a ha s => ?_) fun s' hs =>
    ⟨?_, fun _ _ => trivial⟩
  · rcases List.mem_cons.1 ha with rfl | ha
    · trivial
    · rw [List.eq_of_mem_replicate ha]
      trivial
  · rw [run_start_reads] at hs
    cases hs
    intro t' rs hrs
    obtain ⟨-, heq⟩ | hnone := running_update (s := .idle c) hrs
    · cases heq
      exact (seen_replicate c (tx t).reads).symm ▸ h
    · cases hnone

/-- The store after transactions that run one after the other. -/
theorem run_serial (ts : List τ) (c : σ) :
    Runs.run (step tx) (.idle c) (serial tx ts) =
      some (.idle (ts.foldl (fun c t => (tx t).alone c) c)) := by
  induction ts generalizing c with
  | nil => rfl
  | cons t ts ih =>
    rw [serial, List.flatMap_cons, Runs.run_append_eq_some]
    exact ⟨_, run_steps c 0 t, ih _⟩

/-- Transactions that run one after the other meet a condition that each of them meets alone. -/
theorem meets_serial {ts : List τ} {c : σ} (h : ∀ t ∈ ts, ∀ c, ok t (fun _ => c) c) :
    Runs.Meets (step tx) (CommitMeets ok) (.idle c) (serial tx ts) := by
  induction ts generalizing c with
  | nil => trivial
  | cons t ts ih =>
    rw [serial, List.flatMap_cons]
    refine Runs.Meets.append (meets_steps 0 (h t (by simp) c)) fun s' hs => ?_
    rw [run_steps] at hs
    cases hs
    exact ih fun t' ht' => h t' (by simp [ht'])

end

end ReadCommitted
