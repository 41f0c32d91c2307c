import Mathlib.Data.List.Basic
import Mathlib.Data.Int.Notation

/-!
# Reads through a versioned cache

A call that answers a query from a store `δ` and a cache `κ` in separate steps: it notes the store's
version, lists the items of the query, looks each one up in the cache, reads the ones it did not
find, and keeps what it read. Other steps may run between any two of these.

While the store stays as it is, a call answers each item of its query as a plain read does, provided
that every lookup at the store's version does (`Fresh.step`). What makes lookups do so is an
invariant of the cache and of the calls under way, which a call's step keeps when reading makes an
answer good and keeping a good answer keeps the cache good (`Holds.step`).
-/

/-- What a kind of call lists, finds, reads and keeps. -/
structure CachedRead (δ κ Q ι α : Type*) where
  version : δ → ℕ
  /-- The time noted with what is kept. -/
  clock : δ → ℤ
  list : δ → Q → List ι
  lookup : δ → κ → ℕ → ι → Option α
  read : δ → ι → α
  keep : Q → ℕ → ℤ → κ → ι × α → κ

namespace CachedRead

/-- A call, after each of its steps. -/
inductive Call (Q ι α : Type*)
  | begun (q : Q) (version : ℕ)
  | listed (q : Q) (version : ℕ) (items : List ι)
  | looked (q : Q) (version : ℕ) (storedAt : ℤ) (out : List (ι × α)) (missing : List ι)
  | sampled (q : Q) (version : ℕ) (storedAt : ℤ) (out : List (ι × α)) (fresh : List (ι × α))
  | done (out : List (ι × α))
  deriving DecidableEq

/-- The steps of a call after its first. -/
inductive Step
  | list | lookup | read | write
  deriving DecidableEq

variable {δ κ Q ι α : Type*}

variable (k : CachedRead δ κ Q ι α)

/-- A call's next step: the cache afterwards and the call. -/
def step (d : δ) (c : κ) : Step → Call Q ι α → Option (κ × Call Q ι α)
  | .list, .begun q v => some (c, .listed q v (k.list d q))
  | .lookup, .listed q v items =>
    some (c, .looked q v (k.clock d)
      (items.filterMap fun x => (k.lookup d c v x).map fun a => (x, a))
      (items.filter fun x => (k.lookup d c v x).isNone))
  | .read, .looked q v t out missing =>
    some (c, .sampled q v t out (missing.map fun x => (x, k.read d x)))
  | .write, .sampled q v t out fresh => some (fresh.foldl (k.keep q v t) c, .done (out ++ fresh))
  | _, _ => none

/-- The steps of a call, by cases. -/
inductive Next (d : δ) (c : κ) : Step → Call Q ι α → κ → Call Q ι α → Prop
  | list (q : Q) (v : ℕ) : Next d c .list (.begun q v) c (.listed q v (k.list d q))
  | lookup (q : Q) (v : ℕ) (items : List ι) : Next d c .lookup (.listed q v items) c
      (.looked q v (k.clock d) (items.filterMap fun x => (k.lookup d c v x).map fun a => (x, a))
        (items.filter fun x => (k.lookup d c v x).isNone))
  | read (q : Q) (v : ℕ) (t : ℤ) (out : List (ι × α)) (missing : List ι) :
      Next d c .read (.looked q v t out missing) c
        (.sampled q v t out (missing.map fun x => (x, k.read d x)))
  | write (q : Q) (v : ℕ) (t : ℤ) (out fresh : List (ι × α)) :
      Next d c .write (.sampled q v t out fresh) (fresh.foldl (k.keep q v t) c)
        (.done (out ++ fresh))

/-- The call has what a plain read of its query answers, as far as it got. -/
inductive Fresh (d : δ) (q : Q) : Call Q ι α → Prop
  | begun : Fresh d q (.begun q (k.version d))
  | listed : Fresh d q (.listed q (k.version d) (k.list d q))
  | looked {t : ℤ} {out : List (ι × α)} {missing : List ι} (hout : ∀ x ∈ out, x.2 = k.read d x.1)
      (hall : ∀ x, x ∈ k.list d q ↔ x ∈ out.map Prod.fst ∨ x ∈ missing) :
      Fresh d q (.looked q (k.version d) t out missing)
  | sampled {t : ℤ} {out fresh : List (ι × α)} (hout : ∀ x ∈ out ++ fresh, x.2 = k.read d x.1)
      (hall : ∀ x, x ∈ k.list d q ↔ x ∈ (out ++ fresh).map Prod.fst) :
      Fresh d q (.sampled q (k.version d) t out fresh)
  | done {out : List (ι × α)} (hout : ∀ x ∈ out, x.2 = k.read d x.1)
      (hall : ∀ x, x ∈ k.list d q ↔ x ∈ out.map Prod.fst) : Fresh d q (.done out)

variable {k} {d d' : δ} {c c' : κ} {q : Q} {call call' : Call Q ι α} {s : Step}

/-- A fresh call stays fresh while the items, the answers and the version of the store stay. -/
theorem Fresh.congr (hversion : k.version d = k.version d') (hlist : k.list d q = k.list d' q)
    (hread : ∀ x ∈ k.list d q, k.read d x = k.read d' x) (h : k.Fresh d q call) :
    k.Fresh d' q call := by
  cases h with
  | begun => exact hversion ▸ .begun
  | listed => exact hversion ▸ hlist ▸ .listed
  | looked hout hall =>
    rw [hversion]
    refine .looked (fun x hx => ?_) fun x => hlist ▸ hall x
    rw [hout x hx, hread x.1 ((hall x.1).2 (.inl (List.mem_map_of_mem hx)))]
  | sampled hout hall =>
    rw [hversion]
    refine .sampled (fun x hx => ?_) fun x => hlist ▸ hall x
    rw [hout x hx, hread x.1 ((hall x.1).2 (List.mem_map_of_mem hx))]
  | done hout hall =>
    refine .done (fun x hx => ?_) fun x => hlist ▸ hall x
    rw [hout x hx, hread x.1 ((hall x.1).2 (List.mem_map_of_mem hx))]

/-- What a step of a call can be. -/
theorem Next.of_step (hs : k.step d c s call = some (c', call')) : k.Next d c s call c' call' := by
  unfold step at hs
  split at hs
  · obtain ⟨rfl, rfl⟩ := Prod.mk.inj (Option.some.inj hs)
    exact .list _ _
  · obtain ⟨rfl, rfl⟩ := Prod.mk.inj (Option.some.inj hs)
    exact .lookup _ _ _
  · obtain ⟨rfl, rfl⟩ := Prod.mk.inj (Option.some.inj hs)
    exact .read _ _ _ _ _
  · obtain ⟨rfl, rfl⟩ := Prod.mk.inj (Option.some.inj hs)
    exact .write _ _ _ _ _
  · cases hs

/-- A call's own step keeps it fresh when every lookup at the store's version
answers as a read does. -/
theorem Fresh.step (hlookup : ∀ x ∈ k.list d q, ∀ a, k.lookup d c (k.version d) x = some a →
    a = k.read d x) (hs : k.step d c s call = some (c', call')) (h : k.Fresh d q call) :
    k.Fresh d q call' := by
  cases Next.of_step hs with
  | list q' v =>
    cases h
    exact .listed
  | lookup q' v items =>
    cases h
    refine .looked (fun x hx => ?_) fun x => ?_
    · obtain ⟨y, hy, heq⟩ := List.mem_filterMap.1 hx
      obtain ⟨a, ha, rfl⟩ := Option.map_eq_some_iff.1 heq
      exact hlookup y hy a ha
    · cases hx : k.lookup d c (k.version d) x with
      | none => simp [hx]
      | some a => simp [hx]
  | read q' v t out missing =>
    cases h with
    | looked hout hall =>
      refine .sampled (fun x hx => ?_) fun x => ?_
      · rcases List.mem_append.1 hx with hx | hx
        · exact hout x hx
        · obtain ⟨y, -, rfl⟩ := List.mem_map.1 hx
          rfl
      · rw [hall x]
        simp
  | write q' v t out fresh =>
    cases h with
    | sampled hout hall => exact .done hout hall

/-! ## An invariant of the calls under way -/

/-- A call noted a version up to `V`; the items it has listed and not read meet `U`, and what it has
read and not kept meets `P`. -/
def Call.Holds (P : Q → ℕ → ι × α → Prop) (U : ι → Prop) (V : ℕ) : Call Q ι α → Prop
  | .begun _ v => v ≤ V
  | .listed _ v items => v ≤ V ∧ ∀ x ∈ items, U x
  | .looked _ v _ _ missing => v ≤ V ∧ ∀ x ∈ missing, U x
  | .sampled q v _ _ fresh => v ≤ V ∧ ∀ x ∈ fresh, P q v x
  | .done _ => True

section Holds

variable {P P' : Q → ℕ → ι × α → Prop} {U U' : ι → Prop} {V V' : ℕ} {I : κ → Prop}

/-- The items a call has listed and not read yet. -/
def Call.unread : Call Q ι α → List ι
  | .listed _ _ items => items
  | .looked _ _ _ _ missing => missing
  | _ => []

/-- What holds of a call holds with weaker facts about what it has not read and about what it read
fresh. -/
theorem Call.Holds.mono (hV : V ≤ V') (hU : ∀ x ∈ call.unread, U x → U' x)
    (hP : ∀ q v t out fresh, call = .sampled q v t out fresh → ∀ x ∈ fresh, P q v x → P' q v x)
    (h : call.Holds P U V) : call.Holds P' U' V' := by
  cases call with
  | begun q v => exact Nat.le_trans h hV
  | listed q v items => exact ⟨Nat.le_trans h.1 hV, fun x hx => hU x hx (h.2 x hx)⟩
  | looked q v t out missing => exact ⟨Nat.le_trans h.1 hV, fun x hx => hU x hx (h.2 x hx)⟩
  | sampled q v t out fresh =>
    exact ⟨Nat.le_trans h.1 hV, fun x hx => hP q v t out fresh rfl x hx (h.2 x hx)⟩
  | done out => trivial

/-- Keeping good answers keeps the cache good. -/
theorem foldl_keep {v : ℕ} {t : ℤ} {fresh : List (ι × α)}
    (hkeep : ∀ c, ∀ x ∈ fresh, I c → I (k.keep q v t c x)) (hc : I c) :
    I (fresh.foldl (k.keep q v t) c) := by
  induction fresh generalizing c with
  | nil => exact hc
  | cons x fresh ih =>
    obtain ⟨hx, hfresh⟩ := List.forall_mem_cons.1 fun x hx c => hkeep c x hx
    exact ih (fun c x hx => hfresh x hx c) (hx c hc)

/-- A call's step keeps the calls and the cache good: what is listed meets `U`, the answer read for
such an item meets `P`, and keeping such an answer keeps the invariant of the cache. -/
theorem Call.Holds.step (hlist : ∀ q, ∀ x ∈ k.list d q, U x)
    (hread : ∀ q v x, v ≤ V → U x → P q v (x, k.read d x))
    (hkeep : ∀ q v t c x, v ≤ V → P q v x → I c → I (k.keep q v t c x))
    (hs : k.step d c s call = some (c', call')) (h : call.Holds P U V) (hc : I c) :
    call'.Holds P U V ∧ I c' := by
  cases Next.of_step hs with
  | list q v => exact ⟨⟨h, hlist q⟩, hc⟩
  | lookup q v items => exact ⟨⟨h.1, fun x hx => h.2 x (List.mem_filter.1 hx).1⟩, hc⟩
  | read q v t out missing =>
    refine ⟨⟨h.1, fun x hx => ?_⟩, hc⟩
    obtain ⟨y, hy, rfl⟩ := List.mem_map.1 hx
    exact hread q v y h.1 (h.2 y hy)
  | write q v t out fresh =>
    exact ⟨trivial, foldl_keep (fun c x hx => hkeep q v t c x h.1 (h.2 x hx)) hc⟩

end Holds

end CachedRead
