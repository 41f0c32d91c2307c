import Mathlib.Order.Lattice
import Mathlib.Data.List.Basic

/-!
# Values in force from a key on

Entries, each with a key and the value that applies from it until the key of the next entry. A
change from `k` on drops the entries at or after `k` and adds its own, so it decides every key from
`k` on and no earlier one (`inForce_before`, `inForce_concat`); after a run of changes a key has the
value of the last change at or before it (`foldl_changes`).
-/

namespace RxVision.Effective

variable {ε α β : Type*} [LinearOrder α] {key : ε → α} {val : ε → β} {init : β} {l : List ε} {e : ε}
  {a k : α}

/-- The entries are in order of their keys, with no key twice. -/
def Ascending (key : ε → α) (l : List ε) : Prop := l.Pairwise fun e e' => key e < key e'

/-- The value in force at `a`: the last one up to it, by a scan that stops at the first
later entry. -/
def inForce (key : ε → α) (val : ε → β) (init : β) : List ε → α → β
  | [], _ => init
  | e :: l, a => if key e ≤ a then inForce key val (val e) l a else init

/-- The entries before `k`. -/
def before (key : ε → α) (l : List ε) (k : α) : List ε := l.filter fun e => key e < k

/-- The entries before a key are in order. -/
theorem Ascending.before (h : Ascending key l) : Ascending key (before key l k) := h.filter _

/-- And they are before it. -/
theorem lt_of_mem_before (h : e ∈ before key l k) :
    key e < k := of_decide_eq_true (List.mem_filter.1 h).2

/-- A later entry goes to the end. -/
theorem Ascending.concat (h : Ascending key l) (he : ∀ e' ∈ l, key e' < key e) :
    Ascending key (l ++ [e]) := by
  refine List.pairwise_append.2 ⟨h, List.pairwise_singleton _ _, fun e' he' b hb => ?_⟩
  rw [List.mem_singleton.1 hb]
  exact he e' he'

/-- Later entries decide nothing. -/
theorem inForce_of_lt (h : ∀ e ∈ l, a < key e) : inForce key val init l a = init := by
  cases l with
  | nil => rfl
  | cons e l => exact if_neg (not_le.2 (h e List.mem_cons_self))

/-- Of entries up to `a` the last one decides, and the initial value where there is none. -/
theorem inForce_of_le (h : ∀ e ∈ l, key e ≤ a) :
    inForce key val init l a = (l.getLast?.map val).getD init := by
  induction l generalizing init with
  | nil => rfl
  | cons e l ih =>
    obtain ⟨he, hl⟩ := List.forall_mem_cons.1 h
    rw [inForce, if_pos he, ih hl, List.getLast?_cons]
    cases l.getLast? <;> rfl

/-- A last entry decides from its key on, and the entries before it decide below. -/
theorem inForce_concat (h : ∀ e' ∈ l, key e' < key e) :
    inForce key val init (l ++ [e]) a = if key e ≤ a then val e else inForce key val init l a := by
  induction l generalizing init with
  | nil => rfl
  | cons e' l ih =>
    obtain ⟨he', hl⟩ := List.forall_mem_cons.1 h
    rw [List.cons_append, inForce, inForce, ih hl]
    split
    · rfl
    · next hlt => rw [if_neg fun hle => hlt (he'.le.trans hle)]

/-- What is in force before `k` does not depend on the entries from `k` on. -/
theorem inForce_before (h : Ascending key l) (ha : a < k) :
    inForce key val init (before key l k) a = inForce key val init l a := by
  induction l generalizing init with
  | nil => rfl
  | cons e l ih =>
    obtain ⟨hlater, hl⟩ := List.pairwise_cons.1 h
    rcases lt_or_ge (key e) k with he | he
    · rw [before, List.filter_cons_of_pos (by simpa using he), inForce, inForce]
      split
      · exact ih hl
      · rfl
    · have hall : ∀ e' ∈ e :: l, a < key e' :=
        List.forall_mem_cons.2
          ⟨ha.trans_le he, fun e' he' => (ha.trans_le he).trans (hlater e' he')⟩
      rw [inForce_of_lt hall]
      exact inForce_of_lt fun e' he' => hall e' (List.mem_of_mem_filter he')

/-- From `k` on the entries before it leave the value of the last of them. -/
theorem inForce_before_of_le (ha : k ≤ a) :
    inForce key val init (before key l k) a = ((before key l k).getLast?.map val).getD init :=
  inForce_of_le fun _ he => (lt_of_mem_before he).le.trans ha

/-- The scan asks the keys only whether they are up to `a`, so entries may be renamed
when this stays. -/
theorem inForce_map {ε' α' : Type*} [LinearOrder α'] {key' : ε' → α'} {val' : ε' → β}
    {f : ε → ε'} {a' : α'}
    (hkey : ∀ e ∈ l, key e ≤ a ↔ key' (f e) ≤ a') (hval : ∀ e, val' (f e) = val e) :
    inForce key' val' init (l.map f) a' = inForce key val init l a := by
  induction l generalizing init with
  | nil => rfl
  | cons e l ih =>
    obtain ⟨he, hl⟩ := List.forall_mem_cons.1 hkey
    rw [List.map_cons, inForce, inForce, hval, ih hl]
    by_cases hle : key e ≤ a
    · rw [if_pos hle, if_pos (he.1 hle)]
    · rw [if_neg hle, if_neg fun hle' => hle (he.2 hle')]

/-- The scan is the last entry of those up to `a`, which come first in the list. -/
theorem inForce_eq_takeWhile :
    inForce key val init l a = ((l.takeWhile fun e => key e ≤ a).getLast?.map val).getD init := by
  induction l generalizing init with
  | nil => rfl
  | cons e l ih =>
    rw [inForce, List.takeWhile_cons]
    by_cases he : key e ≤ a
    · rw [if_pos he, if_pos (decide_eq_true he), ih, List.getLast?_cons]
      cases (l.takeWhile fun e => key e ≤ a).getLast? <;> rfl
    · rw [if_neg he, if_neg (by simpa using he)]
      rfl

/-- After a run of changes a key has the value of the last change at or before it. By
induction on the changes. -/
theorem foldl_changes (cs : List (α × β)) (f : α → β) :
    cs.foldl (fun f c a => if c.1 ≤ a then c.2 else f a) f a =
      ((cs.reverse.find? fun c => c.1 ≤ a).map Prod.snd).getD (f a) := by
  induction cs generalizing f with
  | nil => rfl
  | cons c cs ih =>
    rw [List.foldl_cons, ih, List.reverse_cons, List.find?_append]
    cases cs.reverse.find? fun c => c.1 ≤ a with
    | some c' => rfl
    | none =>
      rw [Option.none_or, List.find?_singleton]
      by_cases hc : c.1 ≤ a <;> simp [hc]

end RxVision.Effective
