import Mathlib.Algebra.Order.Ring.Int
import Mathlib.Data.List.Sort

/-!
# Counting in a sliding window with bounded memory

Times come in order. A counter keeps the last `most` of them and forgets the ones that are `window`
old when it takes the next (`record`). It knows as much as the whole log does: the times it has
dropped are `window` old, unless it keeps `most` later ones (`Keeps`), so at least `most` times of
the log lie in the window exactly when it holds `most` and the oldest of them does
(`Keeps.full_iff`).
-/

namespace Window

variable (window : ℤ) (most : ℕ)

/-- The times kept once `now` is recorded: those that are not `window` old, the last
`most` at most. -/
def record (kept : List ℤ) (now : ℤ) : List ℤ :=
  let list := (kept.filter fun t => now - t < window) ++ [now]
  list.drop (list.length - most)

/-- The times of a log within a window before `now`. -/
def countIn (log : List ℤ) (now : ℤ) : ℕ := log.countP fun t => now - t < window

/-- `kept` is the end of a log in order, whose times before it are old or make room for
later ones. -/
structure Keeps (now : ℤ) (log kept : List ℤ) : Prop where
  sorted : log.Pairwise (· ≤ ·)
  le_now : ∀ t ∈ log, t ≤ now
  suffix : ∃ dropped, log = dropped ++ kept ∧ (kept.length = most ∨ ∀ t ∈ dropped, window ≤ now - t)
  length_le : kept.length ≤ most

variable {window most} {log kept dropped : List ℤ} {now later : ℤ}

/-- A window of no events keeps all of them. -/
theorem keeps_nil : Keeps window most now [] [] :=
  ⟨List.Pairwise.nil, by simp, ⟨[], rfl, .inr (by simp)⟩, Nat.zero_le _⟩

/-- Time passes. -/
theorem Keeps.mono (h : Keeps window most now log kept) (hle : now ≤ later) :
    Keeps window most later log kept := by
  obtain ⟨dropped, heq, hdropped⟩ := h.suffix
  refine ⟨h.sorted, fun t ht => (h.le_now t ht).trans hle, ⟨dropped, heq, ?_⟩, h.length_le⟩
  refine hdropped.imp_right fun hold t ht => ?_
  have := hold t ht
  omega

/-- What is kept may be forgotten once its last time is old, since then nothing of it counts. -/
theorem Keeps.forget (h : Keeps window most now log kept)
    (hold : ∀ last ∈ kept.getLast?, window ≤ now - last) : Keeps window most now log [] := by
  rcases List.eq_nil_or_concat kept with rfl | ⟨front, last, rfl⟩
  · exact h
  obtain ⟨dropped, heq, -⟩ := h.suffix
  rw [List.concat_eq_append, ← List.append_assoc] at heq
  have hlast := hold last (by simp)
  have hle : ∀ t ∈ log, t ≤ last := by
    intro t ht
    rcases List.mem_append.1 (heq ▸ ht) with ht | ht
    · exact (List.pairwise_append.1 (heq ▸ h.sorted)).2.2 t ht last (List.mem_singleton.2 rfl)
    · exact (List.mem_singleton.1 ht).le
  refine ⟨h.sorted, h.le_now, ⟨log, (List.append_nil log).symm, .inr fun t ht => ?_⟩, Nat.zero_le _⟩
  have := hle t ht
  omega

/-- Of times in order the old ones come first, so the ones that count are an end of the list. -/
theorem exists_old (window now : ℤ) (h : kept.Pairwise (· ≤ ·)) :
    ∃ old, kept = old ++ (kept.filter fun t => now - t < window) ∧ ∀ t ∈ old, window ≤ now - t := by
  induction kept with
  | nil => exact ⟨[], rfl, by simp⟩
  | cons t kept ih =>
    obtain ⟨hle, hkept⟩ := List.pairwise_cons.1 h
    by_cases ht : now - t < window
    · refine ⟨[], ?_, by simp⟩
      rw [List.nil_append, List.filter_eq_self.2]
      intro u hu
      rcases List.mem_cons.1 hu with rfl | hu
      · simpa using ht
      · have := hle u hu
        simp only [decide_eq_true_eq]
        omega
    · obtain ⟨old, heq, hold⟩ := ih hkept
      refine ⟨t :: old, ?_, ?_⟩
      · rw [List.filter_cons_of_neg (by simpa using ht), List.cons_append, ← heq]
      · intro u hu
        rcases List.mem_cons.1 hu with rfl | hu
        · omega
        · exact hold u hu

/-- Recording a time keeps the end of the longer log, at most `most` of it. -/
theorem Keeps.record (h : Keeps window most now log kept) (hle : now ≤ later) :
    Keeps window most later (log ++ [later]) (Window.record window most kept later) := by
  obtain ⟨dropped, heq, hdropped⟩ := (h.mono hle).suffix
  have hsorted := heq ▸ h.sorted
  obtain ⟨old, hkept, hold⟩ :=
    exists_old window later (List.pairwise_append.1 hsorted).2.1
  have hlen := h.length_le
  unfold Window.record
  generalize hlist : (kept.filter fun t => decide (later - t < window)) = recent at hkept
  have hlength : kept.length = old.length + recent.length := by rw [hkept, List.length_append]
  have hby : ∀ t ∈ log, t ≤ later := fun t ht => (h.le_now t ht).trans hle
  refine ⟨?_, ?_,
    ⟨dropped ++ old ++ (recent ++ [later]).take ((recent ++ [later]).length - most), ?_, ?_⟩, ?_⟩
  · exact List.pairwise_append.2 ⟨h.sorted, List.pairwise_singleton _ _, by simpa using hby⟩
  · simpa [or_imp, forall_and] using hby
  · rw [List.append_assoc _ (List.take _ _), List.take_append_drop, heq, hkept]
    simp
  · rw [List.length_drop, List.length_append, List.length_singleton]
    by_cases hfull : most ≤ recent.length + 1
    · exact .inl (by omega)
    · refine .inr fun t ht => ?_
      rw [show recent.length + 1 - most = 0 by omega, List.take_zero, List.append_nil] at ht
      rcases List.mem_append.1 ht with ht | ht
      · rcases hdropped with hmany | hdropped
        · -- what was dropped for `most` later times is no younger than the first of them
          obtain ⟨u, hu⟩ := List.exists_mem_of_length_pos (show 0 < old.length by omega)
          have hle : t ≤ u :=
            (List.pairwise_append.1 hsorted).2.2 t ht u (hkept ▸ List.mem_append_left _ hu)
          have := hold u hu
          omega
        · exact hdropped t ht
      · exact hold t ht
  · rw [List.length_drop, List.length_append, List.length_singleton]
    omega

/-- The log has `most` times in the window exactly when `most` are kept and the oldest
of them is in it. -/
theorem Keeps.full_iff (h : Keeps window most now log kept) (hle : now ≤ later) :
    most ≤ countIn window log later ↔
      kept.length = most ∧ ∀ first ∈ kept.head?, later - first < window := by
  obtain ⟨dropped, heq, hdropped⟩ := (h.mono hle).suffix
  have hsorted := heq ▸ h.sorted
  rw [countIn, heq, List.countP_append]
  constructor
  · intro hcount
    have hzero : kept.length ≠ most ∨ (∃ first ∈ kept.head?, window ≤ later - first) →
        dropped.countP (fun t => later - t < window) = 0 := by
      intro hsome
      refine List.countP_eq_zero.2 fun t ht => ?_
      simp only [decide_eq_true_eq, not_lt]
      rcases hsome with hlen | ⟨first, hfirst, hold⟩
      · exact hdropped.resolve_left hlen t ht
      · have := (List.pairwise_append.1 hsorted).2.2 t ht first (List.mem_of_mem_head? hfirst)
        omega
    have hle : kept.countP (fun t => later - t < window) ≤ kept.length := List.countP_le_length
    have hlen := h.length_le
    have hfull : kept.length = most := by
      by_contra hne
      have := hzero (.inl hne)
      omega
    refine ⟨hfull, fun first hfirst => ?_⟩
    by_contra hold
    have hdrop := hzero (.inr ⟨first, hfirst, not_lt.1 hold⟩)
    -- the oldest that is kept is out of the window, so fewer than `most` are in it
    have hlt : kept.countP (fun t => later - t < window) < kept.length := by
      refine lt_of_le_of_ne hle fun hall => hold ?_
      simpa using List.countP_eq_length.1 hall first (List.mem_of_mem_head? hfirst)
    omega
  · rintro ⟨hlen, hfirst⟩
    have hall : kept.countP (fun t => later - t < window) = kept.length := by
      refine List.countP_eq_length.2 fun t ht => ?_
      match kept, hlen with
      | first :: rest, _ =>
        have hf := hfirst first rfl
        have hle : first ≤ t := by
          rcases List.mem_cons.1 ht with rfl | ht
          · exact le_refl _
          · exact (List.pairwise_cons.1 (List.pairwise_append.1 hsorted).2.1).1 t ht
        simp only [decide_eq_true_eq]
        omega
    omega

end Window
