import Mathlib.Data.List.Basic
import Mathlib.Algebra.Order.Ring.Int

/-!
# Caches with a time to live

A call looks its key up. What was kept while it is fresh is the answer; otherwise the store is read,
and the answer may be kept with the time at which the call began. The store changes between any two
steps of a call, and what is kept may be forgotten at any time.

Whatever is answered was so at a moment no more than the time to live before the call began
(`Recent.answered`): what is kept was read after the time it is kept with.
-/

/-- What is read, how long it is fresh, and the map it is kept in. -/
structure TimedCache (δ γ κ α : Type*) where
  /-- A read of the key may give the value. -/
  reads : δ → κ → α → Bool
  ttl : ℤ
  fresh : ℤ → ℤ → Bool
  lookup : γ → κ → Option (α × ℤ)
  keep : γ → κ → α × ℤ → γ
  fresh_le : ∀ now since, fresh now since = true → now - since ≤ ttl
  ttl_nonneg : 0 ≤ ttl
  lookup_keep : ∀ c key e key' e', lookup (keep c key e) key' = some e' →
    key' = key ∧ e' = e ∨ lookup c key' = some e'

namespace TimedCache

/-- A call, with the time it began and what else it noted then. -/
inductive Call (κ α τ : Type*)
  | asked (key : κ) (since : ℤ) (tag : τ)
  | fetched (key : κ) (since : ℤ) (tag : τ) (value : α)
  | answered (key : κ) (since : ℤ) (value : α)
  deriving DecidableEq, Repr

/-- The clock, the store and what it was before, each with the time it was replaced,
the cache and the calls. -/
structure World (δ γ κ α τ : Type*) where
  clock : ℤ
  db : δ
  past : List (δ × ℤ)
  cache : γ
  calls : List (Call κ α τ)

variable {δ γ κ α τ : Type*} (k : TimedCache δ γ κ α)

/-- A call begins. -/
def ask (w : World δ γ κ α τ) (key : κ) (tag : τ) : World δ γ κ α τ :=
  match k.lookup w.cache key with
  | some (value, since) =>
    if k.fresh w.clock since then { w with calls := w.calls ++ [.answered key w.clock value] }
    else { w with calls := w.calls ++ [.asked key w.clock tag] }
  | none => { w with calls := w.calls ++ [.asked key w.clock tag] }

/-- Call `i` reads the store. -/
def fetch (w : World δ γ κ α τ) (i : ℕ) (value : α) : Option (World δ γ κ α τ) :=
  match w.calls[i]? with
  | some (.asked key since tag) =>
    if k.reads w.db key value then some
      { w with calls := w.calls.set i (.fetched key since tag value) }
    else none
  | _ => none

/-- Call `i` keeps what it has read when `kept` says so, and answers it. -/
def finish (w : World δ γ κ α τ) (i : ℕ) (kept : τ → Bool) : Option (World δ γ κ α τ) :=
  match w.calls[i]? with
  | some (.fetched key since tag value) => some { w with
      cache := if kept tag then k.keep w.cache key (value, since) else w.cache
      calls := w.calls.set i (.answered key since value) }
  | _ => none

/-- The store changes. -/
def World.change (w : World δ γ κ α τ) (db : δ) : World δ γ κ α τ :=
  { w with db, past := (w.db, w.clock) :: w.past }

/-- The key was read as `value`, or could have been, at a moment not before `since`. -/
def Was (w : World δ γ κ α τ) (key : κ) (value : α) (since : ℤ) : Prop :=
  k.reads w.db key value = true ∨ ∃ p ∈ w.past, k.reads p.1 key value = true ∧ since ≤ p.2

/-- What a call knows was so: since it began, or since the time to live before. -/
def Holds (w : World δ γ κ α τ) : Call κ α τ → Prop
  | .asked _ since _ => since ≤ w.clock
  | .fetched key since _ value => since ≤ w.clock ∧ k.Was w key value since
  | .answered key since value => since ≤ w.clock ∧ k.Was w key value (since - k.ttl)

/-- What is kept, and what the calls know, was so. -/
structure Recent (w : World δ γ κ α τ) : Prop where
  kept : ∀ key value since, k.lookup w.cache key = some (value, since) →
    since ≤ w.clock ∧ k.Was w key value since
  calls : ∀ c ∈ w.calls, k.Holds w c

variable {k} {w w' : World δ γ κ α τ} {key : κ} {value : α} {since since' : ℤ}
  {c : Call κ α τ} {i : ℕ}

/-- What was so since a moment was so since an earlier one. -/
theorem Was.mono (h : k.Was w key value since) (hle : since' ≤ since) : k.Was w key value since' :=
  h.imp_right fun ⟨p, hp, hreads, hsince⟩ => ⟨p, hp, hreads, hle.trans hsince⟩

namespace Recent

/-- The source changes: what was so stays so in the past, and what is kept was so a
short time ago. -/
theorem change (h : k.Recent w) (db : δ) : k.Recent (w.change db) := by
  have hwas : ∀ {key value since}, since ≤ w.clock → k.Was w key value since →
      k.Was (w.change db) key value since := by
    rintro key value since hle (hnow | ⟨p, hp, hreads, hsince⟩)
    · exact .inr ⟨(w.db, w.clock), List.mem_cons_self, hnow, hle⟩
    · exact .inr ⟨p, List.mem_cons_of_mem _ hp, hreads, hsince⟩
  refine ⟨fun key value since hk => ?_, fun c hc => ?_⟩
  · obtain ⟨hle, hw⟩ := h.kept key value since hk
    exact ⟨hle, hwas hle hw⟩
  · have hc := h.calls c hc
    cases c with
    | asked key since tag => exact hc
    | fetched key since tag value => exact ⟨hc.1, hwas hc.1 hc.2⟩
    | answered key since value =>
      exact ⟨hc.1, hwas (by have := k.ttl_nonneg; have := hc.1; omega) hc.2⟩

/-- Time passes, and what is kept grows older until it is not used any more. -/
theorem tick (h : k.Recent w) {now : ℤ} (hle : w.clock ≤ now) :
    k.Recent { w with clock := now } := by
  refine ⟨fun key value since hk => ?_, fun c hc => ?_⟩
  · obtain ⟨hsince, hw⟩ := h.kept key value since hk
    exact ⟨hsince.trans hle, hw⟩
  · have hc := h.calls c hc
    cases c with
    | asked key since tag => exact le_trans hc hle
    | fetched key since tag value => exact ⟨hc.1.trans hle, hc.2⟩
    | answered key since value => exact ⟨hc.1.trans hle, hc.2⟩

/-- Anything may be forgotten. -/
theorem forget (h : k.Recent w) {cache : γ}
    (hless : ∀ key e, k.lookup cache key = some e → k.lookup w.cache key = some e) :
    k.Recent { w with cache } :=
  ⟨fun key value since hk => h.kept key value since (hless key _ hk), h.calls⟩

/-- One more call that holds. -/
theorem append (h : k.Recent w) (hc : k.Holds w c) :
    k.Recent { w with calls := w.calls ++ [c] } := by
  refine ⟨h.kept, fun c' hc' => ?_⟩
  rcases List.mem_append.1 hc' with hc' | hc'
  · exact h.calls c' hc'
  · obtain rfl := List.mem_singleton.1 hc'
    exact hc

/-- A call goes on and holds. -/
theorem set (h : k.Recent w) (hc : k.Holds w c) : k.Recent { w with calls := w.calls.set i c } := by
  refine ⟨h.kept, fun c' hc' => ?_⟩
  rcases List.mem_or_eq_of_mem_set hc' with hc' | rfl
  · exact h.calls c' hc'
  · exact hc

/-- A call asks, and is answered by what is kept and young enough, or goes on to read. -/
theorem ask (h : k.Recent w) (key : κ) (tag : τ) : k.Recent (k.ask w key tag) := by
  unfold TimedCache.ask
  split
  · next value since hk =>
    split
    · next hfresh =>
      obtain ⟨-, hw⟩ := h.kept key value since hk
      have := k.fresh_le _ _ hfresh
      exact h.append ⟨le_refl w.clock, hw.mono (by omega)⟩
    · exact h.append (le_refl w.clock)
  · exact h.append (le_refl w.clock)

/-- A call reads what is so now. -/
theorem fetch (h : k.Recent w) (hs : k.fetch w i value = some w') : k.Recent w' := by
  unfold TimedCache.fetch at hs
  split at hs
  · next key since tag hi =>
    split at hs
    · next hreads =>
      cases hs
      exact h.set ⟨h.calls _ (List.mem_of_getElem? hi), .inl hreads⟩
    · cases hs
  · cases hs

/-- A call keeps what it read and answers with it; it was so when the call read it. -/
theorem finish (h : k.Recent w) {kept : τ → Bool} (hs : k.finish w i kept = some w') :
    k.Recent w' := by
  unfold TimedCache.finish at hs
  split at hs
  · next key since tag value hi =>
    cases hs
    obtain ⟨hle, hw⟩ := h.calls _ (List.mem_of_getElem? hi)
    have hanswered : k.Holds w (.answered key since value) :=
      ⟨hle, hw.mono (by have := k.ttl_nonneg; omega)⟩
    have hset := h.set (i := i) hanswered
    refine ⟨fun key' value' since' hk => ?_, hset.calls⟩
    dsimp only at hk
    split at hk
    · rcases k.lookup_keep _ _ _ _ _ hk with ⟨rfl, heq⟩ | hk
      · cases heq
        exact ⟨hle, hw⟩
      · exact h.kept key' value' since' hk
    · exact h.kept key' value' since' hk
  · cases hs

/-- Whatever is answered was so at a moment no more than the time to live before the call began. -/
theorem answered (h : k.Recent w) (hc : .answered key since value ∈ w.calls) :
    k.Was w key value (since - k.ttl) := (h.calls _ hc).2

end Recent

end TimedCache
