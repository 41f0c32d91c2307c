import Mathlib.Data.List.Nodup

/-!
# Maps that keep the order of insertion

A `Map`, or an object with its own keys: entries in the order in which their keys came, one
for each key.
-/

namespace RxVision

/-- A new value keeps the values of a list distinct. -/
theorem nodup_map_concat {α β : Type*} {f : α → β} {l : List α} {a : α} (h : (l.map f).Nodup)
    (ha : f a ∉ l.map f) : ((l ++ [a]).map f).Nodup := by
  rw [List.map_append, List.map_singleton, ← List.concat_eq_append]
  exact h.concat ha

structure Dict (κ ν : Type*) where
  entries : List (κ × ν)
  nodup : (entries.map Prod.fst).Nodup

namespace Dict

variable {κ ν ν' : Type*}

/-- The entries that `f` leaves a value. -/
def filterMap (m : Dict κ ν) (f : ν → Option ν') : Dict κ ν' where
  entries := m.entries.filterMap fun p => (f p.2).map fun v => (p.1, v)
  nodup := by
    refine m.nodup.sublist ?_
    rw [List.map_filterMap]
    induction m.entries with
    | nil => exact List.Sublist.slnil
    | cons p l ih =>
      cases hf : f p.2 with
      | none => simpa [List.filterMap_cons, hf] using ih.cons p.1
      | some v => simpa [List.filterMap_cons, hf] using ih

variable [DecidableEq κ]

def empty : Dict κ ν := ⟨[], List.nodup_nil⟩

/-- `map.get(k)`. -/
def get? (m : Dict κ ν) (k : κ) : Option ν := (m.entries.find? fun p => p.1 = k).map Prod.snd

/-- `map.set(k, v)`: a key that is there keeps its place. -/
def set (m : Dict κ ν) (k : κ) (v : ν) : Dict κ ν where
  entries := if k ∈ m.entries.map Prod.fst then m.entries.map fun p => if p.1 = k then (k, v) else p
    else m.entries ++ [(k, v)]
  nodup := by
    split
    · refine Eq.subst ?_ m.nodup
      rw [List.map_map]
      refine List.map_congr_left fun p _ => ?_
      show p.1 = Prod.fst (if p.1 = k then (k, v) else p)
      split
      · assumption
      · rfl
    · next hk => exact nodup_map_concat m.nodup hk

/-- `map.delete(k)`. -/
def delete (m : Dict κ ν) (k : κ) : Dict κ ν where
  entries := m.entries.filter fun p => p.1 ≠ k
  nodup := m.nodup.sublist (List.filter_sublist.map Prod.fst)

/-- The entries of `l` set one after another. -/
def setAll (m : Dict κ ν) (l : List (κ × ν)) : Dict κ ν := l.foldl (fun m p => m.set p.1 p.2) m

section

variable {m : Dict κ ν} {k k' : κ} {v v' : ν} {l : List (κ × ν)} {p : κ × ν}

/-- What a map holds under a key is one of its entries. -/
theorem mem_of_get? (h : m.get? k = some v) : (k, v) ∈ m.entries := by
  obtain ⟨p, hp, rfl⟩ := Option.map_eq_some_iff.1 h
  have hk : p.1 = k := by simpa using List.find?_some hp
  rw [← hk]
  exact List.mem_of_find?_eq_some hp

/-- An entry is found by its key, since a map has each key once. -/
theorem find?_of_mem (hl : (l.map Prod.fst).Nodup) (h : (k, v) ∈ l) :
    (l.find? fun p => p.1 = k) = some (k, v) := by
  induction l with
  | nil => cases h
  | cons q l ih =>
    obtain ⟨hq, hl⟩ := List.nodup_cons.1 hl
    rcases List.mem_cons.1 h with rfl | h
    · rw [List.find?_cons_of_pos (by simp)]
    · have hne : q.1 ≠ k := by
        rintro rfl
        exact hq (List.mem_map.2 ⟨_, h, rfl⟩)
      rw [List.find?_cons_of_neg (by simpa using hne), ih hl h]

/-- What a map holds under a key. -/
theorem get?_eq_some_iff : m.get? k = some v ↔ (k, v) ∈ m.entries := by
  refine ⟨mem_of_get?, fun h => ?_⟩
  rw [get?, find?_of_mem m.nodup h, Option.map_some]

/-- After a write an entry is the one written, or one that there was. -/
theorem mem_set (h : p ∈ (m.set k v).entries) : p = (k, v) ∨ p ∈ m.entries := by
  unfold set at h
  dsimp only at h
  split at h
  · obtain ⟨q, hq, rfl⟩ := List.mem_map.1 h
    split
    · exact .inl rfl
    · exact .inr hq
  · exact (List.mem_append.1 h).symm.imp_left List.mem_singleton.1

/-- A new key comes last. -/
theorem entries_set_of_not_mem (h : k ∉ m.entries.map Prod.fst) :
    (m.set k v).entries = m.entries ++ [(k, v)] := if_neg h

/-- After some writes an entry is one of them, or one that there was. -/
theorem mem_setAll (h : p ∈ (m.setAll l).entries) : p ∈ m.entries ∨ p ∈ l := by
  induction l generalizing m with
  | nil => exact .inl h
  | cons q l ih =>
    rcases ih h with h | h
    · rcases mem_set h with rfl | h
      · exact .inr List.mem_cons_self
      · exact .inl h
    · exact .inr (List.mem_cons_of_mem _ h)

/-- The entry of the written key is the one written, and those of other keys are as they were. -/
theorem mem_set_iff : (k', v) ∈ (m.set k v').entries ↔
    if k' = k then v = v' else (k', v) ∈ m.entries := by
  unfold set
  dsimp only
  split
  · next hk =>
    rw [List.mem_map]
    split
    · next heq =>
      subst heq
      constructor
      · rintro ⟨p, -, hp⟩
        split at hp
        · exact (Prod.mk.inj hp).2.symm
        · next hne => exact absurd (congrArg Prod.fst hp) hne
      · rintro rfl
        obtain ⟨p, hp, hpk⟩ := List.mem_map.1 hk
        exact ⟨p, hp, if_pos hpk⟩
    · next hne =>
      constructor
      · rintro ⟨p, hp, heq⟩
        split at heq
        · exact absurd (congrArg Prod.fst heq).symm hne
        · exact heq ▸ hp
      · exact fun h => ⟨_, h, if_neg hne⟩
  · next hk =>
    rw [List.mem_append, List.mem_singleton]
    split
    · next heq =>
      subst heq
      constructor
      · rintro (h | h)
        · exact absurd (List.mem_map_of_mem h) hk
        · exact (Prod.mk.inj h).2
      · exact fun h => .inr (h ▸ rfl)
    · next hne =>
      constructor
      · rintro (h | h)
        · exact h
        · exact absurd (Prod.mk.inj h).1 hne
      · exact .inl

/-- What is under a key once one is set. -/
theorem get?_set : (m.set k v).get? k' = if k' = k then some v else m.get? k' := by
  ext x
  rw [get?_eq_some_iff, mem_set_iff]
  split
  · rw [Option.some_inj, eq_comm]
  · rw [get?_eq_some_iff]

/-- What is under a key once it is taken out. -/
theorem get?_delete : (m.delete k).get? k' = if k' = k then none else m.get? k' := by
  ext x
  rw [get?_eq_some_iff, delete, List.mem_filter]
  split
  · next h => simp [h]
  · next h => simp [h, get?_eq_some_iff]

/-- What is under a key of the values that are left is what the filter makes of its value. -/
theorem get?_filterMap {f : ν → Option ν'} : (m.filterMap f).get? k = (m.get? k).bind f := by
  ext x
  rw [get?_eq_some_iff, Option.bind_eq_some_iff, filterMap, List.mem_filterMap]
  constructor
  · rintro ⟨p, hp, h⟩
    obtain ⟨y, hy, heq⟩ := Option.map_eq_some_iff.1 h
    obtain ⟨rfl, rfl⟩ := Prod.mk.inj heq
    exact ⟨p.2, get?_eq_some_iff.2 hp, hy⟩
  · rintro ⟨v, hv, h⟩
    exact ⟨(k, v), get?_eq_some_iff.1 hv, by rw [h]; rfl⟩

/-- New keys are added at the end, in the order in which they are written. -/
theorem entries_setAll (h : ((m.entries ++ l).map Prod.fst).Nodup) :
    (m.setAll l).entries = m.entries ++ l := by
  induction l generalizing m with
  | nil => simp [setAll]
  | cons q l ih =>
    have hq : (m.set q.1 q.2).entries = m.entries ++ [q] := by
      refine entries_set_of_not_mem fun hmem => ?_
      rw [List.map_append, List.nodup_append] at h
      exact h.2.2 q.1 hmem q.1 (by simp) rfl
    show ((m.set q.1 q.2).setAll l).entries = _
    rw [ih (by rw [hq]; simpa using h), hq, List.append_assoc, List.singleton_append]

end

end Dict

end RxVision
