import Mathlib.Logic.Basic
import Mathlib.Data.List.Basic
import Mathlib.Data.Option.Basic

/-!
# Runs of a partial step function

A transition system given by a partial step function `step : σ → α → Option σ`: an action is
enabled in a state when its step is defined. `Runs.run` takes a list of actions, `Runs.Meets` says
that every action of a run meets a condition on the state it is taken in. The rules below turn a
statement about one step into one about whole runs: an invariant (`Runs.invariant_run`) and a
simulation between a run and the run with some of its actions left out (`Runs.run_filter`).
-/

namespace Runs

variable {σ α : Type*} {step : σ → α → Option σ} {ok : σ → α → Prop} {s s' t : σ}

/-- The state after a list of actions; `none` as soon as one of them is not enabled. -/
def run (step : σ → α → Option σ) : σ → List α → Option σ
  | s, [] => some s
  | s, a :: as => (step s a).bind fun s' => run step s' as

/-- Every action of the run meets `ok` in the state it is taken in. -/
def Meets (step : σ → α → Option σ) (ok : σ → α → Prop) : σ → List α → Prop
  | _, [] => True
  | s, a :: as => ok s a ∧ ∀ s', step s a = some s' → Meets step ok s' as

/-- No action. -/
@[simp] theorem run_nil : run step s [] = some s := rfl

/-- One action and then the others. -/
@[simp] theorem run_cons {a : α} {as : List α} :
    run step s (a :: as) = (step s a).bind fun s' => run step s' as := rfl

/-- A run of at least one action takes its first step. -/
theorem run_cons_eq_some {a : α} {as : List α} :
    run step s (a :: as) = some t ↔ ∃ s', step s a = some s' ∧ run step s' as = some t := by
  simp [Option.bind_eq_some_iff]

/-- A run meets a condition when its first step does and the rest of it does. -/
theorem Meets.cons {a : α} {as : List α} (ha : ok s a) (hs : step s a = some s')
    (h : Meets step ok s' as) : Meets step ok s (a :: as) := by
  refine ⟨ha, fun t ht => ?_⟩
  obtain rfl := Option.some.inj (hs.symm.trans ht)
  exact h

/-- A run of a concatenation is a run of the first part and then of the second. -/
theorem run_append_eq_some {as bs : List α} :
    run step s (as ++ bs) = some t ↔ ∃ s', run step s as = some s' ∧ run step s' bs = some t := by
  induction as generalizing s with
  | nil => simp
  | cons a as ih => simp only [List.cons_append, run_cons_eq_some, ih]; grind

/-- A run in two parts meets a condition when both parts do. -/
theorem Meets.append {as bs : List α} (ha : Meets step ok s as)
    (hb : ∀ s', run step s as = some s' → Meets step ok s' bs) : Meets step ok s (as ++ bs) := by
  induction as generalizing s with
  | nil => exact hb s rfl
  | cons a as ih =>
    refine ⟨ha.1, fun s' hs => ih (ha.2 s' hs) fun t ht => hb t ?_⟩
    exact run_cons_eq_some.2 ⟨s', hs, ht⟩

/-- Actions that meet a condition in every state meet it in every run of them. -/
theorem Meets.of_mem {as : List α} (h : ∀ a ∈ as, ∀ s, ok s a) : Meets step ok s as := by
  induction as generalizing s with
  | nil => trivial
  | cons a as ih => exact ⟨h a (by simp) s, fun s' _ => ih fun b hb => h b (by simp [hb])⟩

/-- A run that meets two conditions meets both at once. -/
theorem Meets.and {ok' : σ → α → Prop} {as : List α} (h : Meets step ok s as)
    (h' : Meets step ok' s as) : Meets step (fun s a => ok s a ∧ ok' s a) s as := by
  induction as generalizing s with
  | nil => trivial
  | cons a as ih => exact ⟨⟨h.1, h'.1⟩, fun t ht => ih (h.2 t ht) (h'.2 t ht)⟩

/-- A run that meets a condition meets what follows from it. -/
theorem Meets.mono {ok' : σ → α → Prop} (hok : ∀ s a, ok' s a → ok s a) {as : List α}
    (h : Meets step ok' s as) : Meets step ok s as := by
  induction as generalizing s with
  | nil => trivial
  | cons a as ih => exact ⟨hok s a h.1, fun s' hs => ih (h.2 s' hs)⟩

/-- Whether a run meets a condition can be decided when the condition can. -/
instance decidableMeets [∀ s a, Decidable (ok s a)] : ∀ s as, Decidable (Meets step ok s as)
  | _, [] => inferInstanceAs (Decidable True)
  | s, a :: as =>
    have : Decidable (∀ s', step s a = some s' → Meets step ok s' as) :=
      match h : step s a with
      | none => isTrue fun _ hs => by cases hs
      | some t =>
        have := decidableMeets t as
        decidable_of_iff (Meets step ok t as)
          ⟨fun hm s' hs => by cases hs; exact hm, fun hm => hm t rfl⟩
    inferInstanceAs (Decidable (ok s a ∧ ∀ s', step s a = some s' → Meets step ok s' as))

/-- A condition that every enabled step meets is met by every run. -/
theorem Meets.of_forall (h : ∀ s a, ok s a) (as : List α) (s : σ) : Meets step ok s as :=
  Meets.of_mem fun a _ s => h s a

/-- What one step preserves, a run preserves, as long as its steps meet the condition. -/
theorem invariant_run (Inv : σ → Prop)
    (hstep : ∀ s a s', Inv s → ok s a → step s a = some s' → Inv s') :
    ∀ {as : List α} {s t : σ}, Inv s → Meets step ok s as → run step s as = some t → Inv t
  | [], _, _, hi, _, ht => by cases ht; exact hi
  | a :: as, s, t, hi, hm, ht => by
    obtain ⟨s', hs, ht⟩ := run_cons_eq_some.1 ht
    exact invariant_run Inv hstep (hstep s a s' hi hm.1 hs) (hm.2 s' hs) ht

/-- An invariant of the state and of the actions that led to it. -/
theorem invariant_run_past (Inv : List α → σ → Prop)
    (hstep : ∀ past s a s', Inv past s → step s a = some s' → Inv (past ++ [a]) s') :
    ∀ {as past : List α} {s t : σ}, Inv past s → run step s as = some t → Inv (past ++ as) t
  | [], past, _, _, hi, ht => by cases ht; rwa [List.append_nil]
  | a :: as, past, s, t, hi, ht => by
    obtain ⟨s', hs, ht⟩ := run_cons_eq_some.1 ht
    rw [← List.singleton_append, ← List.append_assoc]
    exact invariant_run_past Inv hstep (hstep past s a s' hi hs) ht

/-- A run that meets a condition meets what follows from it in the states an invariant holds of. -/
theorem Meets.mono_of_inv {ok' : σ → α → Prop} (Inv : σ → Prop)
    (hstep : ∀ s a s', Inv s → ok' s a → step s a = some s' → Inv s')
    (hok : ∀ s a, Inv s → ok' s a → ok s a) {as : List α} (hi : Inv s) (h : Meets step ok' s as) :
    Meets step ok s as := by
  induction as generalizing s with
  | nil => trivial
  | cons a as ih => exact ⟨hok s a hi h.1, fun s' hs => ih (hstep s a s' hi h.1 hs) (h.2 s' hs)⟩

/-- A run and the same run without the actions that `keep` rejects stay related, when a kept
action is matched by itself and a rejected one by staying. -/
theorem run_filter (R : σ → σ → Prop) (keep : α → Bool)
    (hkeep : ∀ s s' a t, R s s' → ok s a → keep a = true → step s a = some t →
      ∃ t', step s' a = some t' ∧ R t t')
    (hdrop : ∀ s s' a t, R s s' → ok s a → keep a = false → step s a = some t → R t s') :
    ∀ {as : List α} {s s' t : σ}, R s s' → Meets step ok s as → run step s as = some t →
      ∃ t', run step s' (as.filter keep) = some t' ∧ R t t'
  | [], _, s', _, hr, _, ht => by cases ht; exact ⟨s', rfl, hr⟩
  | a :: as, s, s', t, hr, hm, ht => by
    obtain ⟨u, hu, ht⟩ := run_cons_eq_some.1 ht
    cases hk : keep a with
    | true =>
      obtain ⟨u', hu', hr'⟩ := hkeep s s' a u hr hm.1 hk hu
      obtain ⟨t', ht', hr''⟩ := run_filter R keep hkeep hdrop hr' (hm.2 u hu) ht
      exact ⟨t', by simp [hk, hu', ht'], hr''⟩
    | false =>
      obtain ⟨t', ht', hr'⟩ :=
        run_filter R keep hkeep hdrop (hdrop s s' a u hr hm.1 hk hu) (hm.2 u hu) ht
      exact ⟨t', by simp [hk, ht'], hr'⟩

end Runs
