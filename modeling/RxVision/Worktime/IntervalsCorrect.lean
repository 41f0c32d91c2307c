import RxVision.Lib.Cover
import RxVision.Worktime.Intervals

/-!
# The interval operations are set operations

`points l` is the set of instants of a list of intervals. `normalize` keeps it and leaves disjoint
intervals (`points_normalize`, `normalize_apart`), so `lengthMs` is its size (`lengthMs_eq_card`);
`intersect` and `subtract` are intersection and difference (`points_intersect`, `points_subtract`).
`joinGaps` adds the gaps of at most `gap` (`mem_points_joinGaps`) and more intervals only make its
pieces longer (`exists_joinGaps_grown`). The loops read the intervals in order, so every loop has
its own statement about lists that are apart, and the wrappers take it at normalized lists.
-/

namespace RxVision

open RxVision.Interval

/-- The instants of a list of intervals. -/
def points (l : List Interval) : Finset ℤ := Cover.cover start stop l

/-- An instant is a point of a list of intervals when one of them holds it. -/
@[simp] theorem mem_points {l : List Interval} {t : ℤ} :
    t ∈ points l ↔ ∃ i ∈ l, i.start ≤ t ∧ t < i.stop := Cover.mem_cover

/-- No interval, no point. -/
@[simp] theorem points_nil : points [] = ∅ := rfl

/-- The instants of a list with one interval more. -/
theorem mem_points_cons {i : Interval} {l : List Interval} {t : ℤ} :
    t ∈ points (i :: l) ↔ i.start ≤ t ∧ t < i.stop ∨ t ∈ points l := by
  simp

/-- The points of two lists are those of either. -/
theorem points_append (l m : List Interval) : points (l ++ m) = points l ∪ points m := by
  ext t
  simp only [mem_points, List.mem_append, Finset.mem_union, or_and_right, exists_or]

/-- The intervals are non-empty and separated, in order: the form `normalize` produces. -/
structure Separated (l : List Interval) : Prop where
  apart : Cover.Apart start stop l
  proper : ∀ i ∈ l, i.Proper

namespace Separated

variable {i : Interval} {l : List Interval} {t : ℤ}

/-- The list without its first interval. -/
theorem tail (h : Separated (i :: l)) : Separated l :=
  ⟨h.apart.of_cons, fun j hj => h.proper j (.tail _ hj)⟩

/-- An instant of the rest comes after the end of the first interval. -/
theorem head_lt (h : Separated (i :: l)) (ht : t ∈ points l) : i.stop < t := by
  obtain ⟨j, hj, h1, -⟩ := mem_points.1 ht
  exact (List.rel_of_pairwise_cons h.apart hj).trans_le h1

end Separated

/-! ## `normalize` and `joinGaps` -/

/-- `mergeLoop` starts nothing before `last`, when the rest starts no earlier. By
induction on the rest. -/
theorem mergeLoop_lower {gap m : ℤ} {last : Interval} {rest : List Interval}
    (hl : m ≤ last.start) (hr : ∀ i ∈ rest, m ≤ i.start) :
    ∀ j ∈ mergeLoop gap last rest, m ≤ j.start := by
  induction rest generalizing last with
  | nil => simpa [mergeLoop] using hl
  | cons i rest ih =>
    have hrest : ∀ k ∈ rest, m ≤ k.start := fun k hk => hr k (.tail _ hk)
    rw [mergeLoop]
    split
    · exact ih hl hrest
    · intro j hj
      rcases List.mem_cons.1 hj with rfl | hj
      · exact hl
      · exact ih (hr i (.head _)) hrest j hj

/-- Any two intervals of the merged list are more than the gap apart, in the order of the list. -/
theorem mergeLoop_apart {gap : ℤ} {last : Interval} {rest : List Interval}
    (hs : rest.Pairwise startLe) :
    (mergeLoop gap last rest).Pairwise fun a b => a.stop + gap < b.start := by
  induction rest generalizing last with
  | nil => simp [mergeLoop]
  | cons i rest ih =>
    rw [mergeLoop]
    split
    · exact ih hs.of_cons
    · next hgap =>
      refine List.pairwise_cons.2 ⟨fun j hj => ?_, ih hs.of_cons⟩
      have := mergeLoop_lower le_rfl (fun k hk => List.rel_of_pairwise_cons hs hk) j hj
      omega

/-- Merging intervals of some length leaves none that is shorter: a piece only grows. -/
theorem mergeLoop_length {gap c : ℤ} {last : Interval} {rest : List Interval}
    (hl : c ≤ last.stop - last.start) (hr : ∀ i ∈ rest, c ≤ i.stop - i.start) :
    ∀ j ∈ mergeLoop gap last rest, c ≤ j.stop - j.start := by
  induction rest generalizing last with
  | nil => simpa [mergeLoop] using hl
  | cons i rest ih =>
    have hrest : ∀ k ∈ rest, c ≤ k.stop - k.start := fun k hk => hr k (.tail _ hk)
    rw [mergeLoop]
    split
    · exact ih (hl.trans (sub_le_sub_right (le_max_left _ _) _)) hrest
    · intro j hj
      rcases List.mem_cons.1 hj with rfl | hj
      · exact hl
      · exact ih (hr i (.head _)) hrest j hj

/-- Merging non-empty intervals leaves non-empty ones. -/
theorem mergeLoop_proper {gap : ℤ} {last : Interval} {rest : List Interval} (hl : last.Proper)
    (hr : ∀ i ∈ rest, i.Proper) : ∀ j ∈ mergeLoop gap last rest, j.Proper := by
  intro j hj
  unfold Proper at *
  have := mergeLoop_length (by omega) (fun i hi => by have := hr i hi; omega) j hj (c := 1)
  omega

/-- With no gap bridged, merging sorted intervals keeps their instants: a merged piece has no
instant between its two parts. -/
theorem points_mergeLoop {last : Interval} {rest : List Interval}
    (hs : (last :: rest).Pairwise startLe) :
    points (mergeLoop 0 last rest) = points (last :: rest) := by
  induction rest generalizing last with
  | nil => rfl
  | cons i rest ih =>
    obtain ⟨hlast, hrest⟩ := List.pairwise_cons.1 hs
    rw [mergeLoop]
    split
    · next hgap =>
      have hgrown : List.Pairwise startLe (⟨last.start, max last.stop i.stop⟩ :: rest) :=
        List.pairwise_cons.2 ⟨fun k hk => hlast k (.tail _ hk), hrest.of_cons⟩
      rw [ih hgrown]
      have hli : last.start ≤ i.start := hlast i (.head _)
      ext t
      simp only [mem_points_cons]
      grind
    · ext t
      simp only [mem_points_cons, ih hrest]

instance : Std.Total startLe := ⟨fun a b => le_total a.start b.start⟩

instance : IsTrans Interval startLe := ⟨fun _ _ _ => le_trans⟩

/-- What `normalize` sorts, before it merges. -/
theorem normalize_sorted (l : List Interval) :
    ((l.filter fun i => i.stop > i.start).insertionSort startLe).Pairwise startLe :=
  List.pairwise_insertionSort startLe _

/-- A normalized list is made of non-empty intervals, in order and with a hole
between neighbours. -/
theorem normalize_separated (l : List Interval) : Separated (normalize l) := by
  have hs := normalize_sorted l
  have hp : ∀ i ∈ (l.filter fun i => i.stop > i.start).insertionSort startLe, i.Proper := by
    intro i hi
    simpa [Proper] using (List.mem_filter.1 ((List.mem_insertionSort startLe).1 hi)).2
  unfold normalize
  cases he : (l.filter fun i => i.stop > i.start).insertionSort startLe with
  | nil => exact ⟨List.Pairwise.nil, by simp [merge]⟩
  | cons i rest =>
    rw [he] at hs hp
    refine ⟨(mergeLoop_apart hs.of_cons).imp fun h => by simpa using h, ?_⟩
    exact mergeLoop_proper (hp i (.head _)) fun k hk => hp k (.tail _ hk)

/-- Normalizing keeps the instants: it drops empty intervals, sorts and merges. -/
@[simp] theorem points_normalize (l : List Interval) : points (normalize l) = points l := by
  have hs := normalize_sorted l
  have hmem : points ((l.filter fun i => i.stop > i.start).insertionSort startLe) = points l := by
    ext t
    simp only [mem_points, List.mem_insertionSort, List.mem_filter, decide_eq_true_eq]
    exact ⟨fun ⟨i, hi, ht⟩ => ⟨i, hi.1, ht⟩, fun ⟨i, hi, ht⟩ => ⟨i, ⟨hi, by omega⟩, ht⟩⟩
  rw [← hmem, normalize]
  cases he : (l.filter fun i => i.stop > i.start).insertionSort startLe with
  | nil => rfl
  | cons i rest => exact points_mergeLoop (he ▸ hs)

/-- The length of a list of intervals is the number of its instants. -/
theorem lengthMs_eq_card (l : List Interval) : lengthMs l = (points l).card := by
  have h := normalize_separated l
  rw [← points_normalize l, lengthMs, points,
    Cover.card_cover_of_apart h.apart fun i hi => (h.proper i hi).le]

/-- A length is never negative. -/
theorem lengthMs_nonneg (l : List Interval) : 0 ≤ lengthMs l := by
  rw [lengthMs_eq_card]
  exact Int.natCast_nonneg _

/-- A part is not longer than the whole. -/
theorem lengthMs_mono {l m : List Interval} (h : points l ⊆ points m) :
    lengthMs l ≤ lengthMs m := by
  rw [lengthMs_eq_card, lengthMs_eq_card]
  exact_mod_cast Finset.card_le_card h

/-! ## `joinGaps` -/

section JoinGaps

variable {gap : ℤ}

/-- Merging keeps every interval inside one piece, so none is cut. -/
theorem exists_mergeLoop_covers {last : Interval} {rest : List Interval}
    (hs : (last :: rest).Pairwise startLe) :
    ∀ i ∈ last :: rest, ∃ j ∈ mergeLoop gap last rest, j.start ≤ i.start ∧ i.stop ≤ j.stop := by
  induction rest generalizing last with
  | nil =>
    intro i hi
    exact ⟨last, .head _, by simp_all⟩
  | cons k rest ih =>
    obtain ⟨hlast, hrest⟩ := List.pairwise_cons.1 hs
    intro i hi
    rw [mergeLoop]
    split
    · have hgrown : List.Pairwise startLe (⟨last.start, max last.stop k.stop⟩ :: rest) :=
        List.pairwise_cons.2 ⟨fun j hj => hlast j (.tail _ hj), hrest.of_cons⟩
      have hk : last.start ≤ k.start := hlast k (.head _)
      obtain ⟨j, hj, h1, h2⟩ := ih hgrown _ (.head _)
      simp only [max_le_iff] at h1 h2
      rcases List.mem_cons.1 hi with rfl | hi
      · exact ⟨j, hj, h1, h2.1⟩
      · rcases List.mem_cons.1 hi with rfl | hi
        · exact ⟨j, hj, h1.trans hk, h2.2⟩
        · exact ih hgrown i (.tail _ hi)
    · rcases List.mem_cons.1 hi with rfl | hi
      · exact ⟨i, .head _, le_rfl, le_rfl⟩
      · obtain ⟨j, hj, h⟩ := ih hrest i hi
        exact ⟨j, .tail _ hj, h⟩

/-- A piece starts where some interval starts and ends where some interval ends. -/
theorem mergeLoop_ends {last : Interval} {rest : List Interval} :
    ∀ j ∈ mergeLoop gap last rest,
      (∃ i ∈ last :: rest, i.start = j.start) ∧ ∃ i ∈ last :: rest, i.stop = j.stop := by
  induction rest generalizing last with
  | nil =>
    intro j hj
    obtain rfl := List.mem_singleton.1 hj
    exact ⟨⟨j, .head _, rfl⟩, j, .head _, rfl⟩
  | cons k rest ih =>
    intro j hj
    rw [mergeLoop] at hj
    split at hj
    · obtain ⟨⟨a, ha, ha'⟩, b, hb, hb'⟩ := ih j hj
      constructor
      · rcases List.mem_cons.1 ha with rfl | ha
        · exact ⟨last, .head _, ha'⟩
        · exact ⟨a, .tail _ (.tail _ ha), ha'⟩
      · rcases List.mem_cons.1 hb with rfl | hb
        · rcases max_choice last.stop k.stop with hmax | hmax
          · exact ⟨last, .head _, hmax.symm.trans hb'⟩
          · exact ⟨k, .tail _ (.head _), hmax.symm.trans hb'⟩
        · exact ⟨b, .tail _ (.tail _ hb), hb'⟩
    · rcases List.mem_cons.1 hj with rfl | hj
      · exact ⟨⟨j, .head _, rfl⟩, j, .head _, rfl⟩
      · obtain ⟨⟨a, ha, ha'⟩, b, hb, hb'⟩ := ih j hj
        exact ⟨⟨a, .tail _ ha, ha'⟩, b, .tail _ hb, hb'⟩

/-- An instant of a piece is an instant of the list, or lies in a gap of at most `gap`
that was bridged. -/
theorem mergeLoop_bridged {last : Interval} {rest : List Interval} {t : ℤ} :
    t ∈ points (mergeLoop gap last rest) → t ∈ points (last :: rest) ∨
      ∃ i ∈ last :: rest, ∃ k ∈ last :: rest,
        i.stop ≤ t ∧ t < k.start ∧ k.start - i.stop ≤ gap := by
  induction rest generalizing last with
  | nil => exact fun ht => .inl ht
  | cons k rest ih =>
    intro ht
    rw [mergeLoop] at ht
    split at ht
    · next hgap =>
      -- the grown interval is `last`, the gap after it, and `k`
      rcases ih ht with ht | ⟨a, ha, b, hb, h1, h2, h3⟩
      · rw [mem_points_cons] at ht
        rcases ht with ⟨h1, h2⟩ | ht
        · rcases lt_or_ge t last.stop with hlast | hlast
          · exact .inl (mem_points_cons.2 (.inl ⟨h1, hlast⟩))
          rcases lt_or_ge t k.start with hk | hk
          · exact .inr ⟨last, .head _, k, .tail _ (.head _), hlast, hk, hgap⟩
          · refine .inl (mem_points_cons.2 (.inr (mem_points_cons.2 (.inl ⟨hk, ?_⟩))))
            exact (lt_max_iff.1 h2).resolve_left (not_lt.2 hlast)
        · exact .inl (mem_points_cons.2 (.inr (mem_points_cons.2 (.inr ht))))
      · have hb' : ∃ b' ∈ last :: k :: rest, b'.start = b.start := by
          rcases List.mem_cons.1 hb with rfl | hb
          · exact ⟨last, .head _, rfl⟩
          · exact ⟨b, .tail _ (.tail _ hb), rfl⟩
        have ha' : ∃ a' ∈ last :: k :: rest, a'.stop = a.stop := by
          rcases List.mem_cons.1 ha with rfl | ha
          · rcases max_choice last.stop k.stop with hmax | hmax
            · exact ⟨last, .head _, hmax.symm⟩
            · exact ⟨k, .tail _ (.head _), hmax.symm⟩
          · exact ⟨a, .tail _ (.tail _ ha), rfl⟩
        obtain ⟨b', hb', hstart⟩ := hb'
        obtain ⟨a', ha', hstop⟩ := ha'
        exact .inr ⟨a', ha', b', hb', hstop ▸ h1, hstart ▸ h2, by omega⟩
    · rcases mem_points_cons.1 ht with ht | ht
      · exact .inl (mem_points_cons.2 (.inl ht))
      · rcases ih ht with ht | ⟨a, ha, b, hb, h⟩
        · exact .inl (mem_points_cons.2 (.inr ht))
        · exact .inr ⟨a, .tail _ ha, b, .tail _ hb, h⟩

instance : Std.Total startStopLe := ⟨fun a b => by unfold startStopLe; omega⟩

instance : IsTrans Interval startStopLe := ⟨fun a b c => by unfold startStopLe; omega⟩

variable {l m : List Interval} {t : ℤ}

/-- `joinGaps` merges the intervals of the list in order of their start, unless there is none. -/
theorem joinGaps_eq_mergeLoop (gap : ℤ) (hp : ∀ i ∈ l, i.start ≤ i.stop) (hl : l ≠ []) :
    ∃ last rest, joinGaps l gap = mergeLoop gap last rest ∧ (last :: rest).Pairwise startLe ∧
      ∀ i, i ∈ last :: rest ↔ i ∈ l := by
  have hfilter : (l.filter fun i => i.stop ≥ i.start) = l :=
    List.filter_eq_self.2 fun i hi => decide_eq_true (hp i hi)
  have hsorted := List.pairwise_insertionSort startStopLe l
  have hmem : ∀ i, i ∈ l.insertionSort startStopLe ↔ i ∈ l := fun i =>
    List.mem_insertionSort startStopLe
  unfold joinGaps
  rw [hfilter]
  cases he : l.insertionSort startStopLe with
  | nil => exact absurd (List.eq_nil_of_length_eq_zero (by
      rw [← List.length_insertionSort startStopLe, he]; rfl)) hl
  | cons last rest =>
    rw [he] at hsorted hmem
    refine ⟨last, rest, rfl, hsorted.imp fun h => ?_, hmem⟩
    unfold startStopLe at h
    unfold startLe
    omega

/-- The pieces are more than the gap apart. -/
theorem joinGaps_apart (hp : ∀ i ∈ l, i.start ≤ i.stop) :
    (joinGaps l gap).Pairwise fun a b => a.stop + gap < b.start := by
  rcases eq_or_ne l [] with rfl | hl
  · exact .nil
  obtain ⟨last, rest, heq, hs, -⟩ := joinGaps_eq_mergeLoop gap hp hl
  rw [heq]
  exact mergeLoop_apart hs.of_cons

/-- Two pieces are one, or more than the gap apart. -/
theorem joinGaps_eq_or_apart (hp : ∀ i ∈ l, i.start ≤ i.stop) {p q : Interval}
    (hpm : p ∈ joinGaps l gap) (hqm : q ∈ joinGaps l gap) :
    p = q ∨ p.stop + gap < q.start ∨ q.stop + gap < p.start := by
  have hpair : (joinGaps l gap).Pairwise fun p q =>
      p = q ∨ p.stop + gap < q.start ∨ q.stop + gap < p.start :=
    (joinGaps_apart hp).imp fun h => .inr (.inl h)
  refine hpair.forall_of_forall_of_flip (fun _ _ => .inl rfl) (hpair.imp ?_) hpm hqm
  exact fun h => h.imp Eq.symm Or.symm

/-- Every interval lies inside one piece. -/
theorem exists_joinGaps_covers (gap : ℤ) (hp : ∀ i ∈ l, i.start ≤ i.stop) {i : Interval}
    (hi : i ∈ l) :
    ∃ j ∈ joinGaps l gap, j.start ≤ i.start ∧ i.stop ≤ j.stop := by
  obtain ⟨last, rest, heq, hs, hmem⟩ := joinGaps_eq_mergeLoop gap hp (List.ne_nil_of_mem hi)
  rw [heq]
  exact exists_mergeLoop_covers hs i ((hmem i).2 hi)

/-- A piece starts and ends where intervals of the list do. -/
theorem joinGaps_ends (hp : ∀ i ∈ l, i.start ≤ i.stop) {j : Interval} (hj : j ∈ joinGaps l gap) :
    (∃ i ∈ l, i.start = j.start) ∧ ∃ i ∈ l, i.stop = j.stop := by
  rcases eq_or_ne l [] with rfl | hl
  · exact absurd hj List.not_mem_nil
  obtain ⟨last, rest, heq, -, hmem⟩ := joinGaps_eq_mergeLoop gap hp hl
  rw [heq] at hj
  simpa only [hmem] using mergeLoop_ends j hj

/-- The instants of the pieces are exactly those of the list and of its gaps of at most `gap`. -/
theorem mem_points_joinGaps (hp : ∀ i ∈ l, i.start ≤ i.stop) :
    t ∈ points (joinGaps l gap) ↔ t ∈ points l ∨
      ∃ i ∈ l, ∃ k ∈ l, i.stop ≤ t ∧ t < k.start ∧ k.start - i.stop ≤ gap := by
  constructor
  · intro ht
    rcases eq_or_ne l [] with rfl | hl
    · exact .inl ht
    obtain ⟨last, rest, heq, -, hmem⟩ := joinGaps_eq_mergeLoop gap hp hl
    rw [heq] at ht
    simpa only [mem_points, hmem] using mergeLoop_bridged ht
  · rintro (ht | ⟨i, hi, k, hk, h1, h2, h3⟩)
    · obtain ⟨i, hi, h1, h2⟩ := mem_points.1 ht
      obtain ⟨j, hj, h3, h4⟩ := exists_joinGaps_covers gap hp hi
      exact mem_points.2 ⟨j, hj, by omega, by omega⟩
    · obtain ⟨p, hp', h4, h5⟩ := exists_joinGaps_covers gap hp hi
      obtain ⟨q, hq, h6, h7⟩ := exists_joinGaps_covers gap hp hk
      have hik := hp i hi
      have hkk := hp k hk
      -- pieces that far apart would not be two
      rcases joinGaps_eq_or_apart hp hp' hq with rfl | hpq | hqp
      · exact mem_points.2 ⟨p, hp', by omega, by omega⟩
      · omega
      · omega

/-- A piece does not end before it starts. -/
theorem joinGaps_le (hp : ∀ i ∈ l, i.start ≤ i.stop) {j : Interval} (hj : j ∈ joinGaps l gap) :
    j.start ≤ j.stop := by
  rcases eq_or_ne l [] with rfl | hl
  · exact absurd hj List.not_mem_nil
  obtain ⟨last, rest, heq, -, hmem⟩ := joinGaps_eq_mergeLoop gap hp hl
  rw [heq] at hj
  have h := mergeLoop_length (c := 0) (sub_nonneg.2 (hp last ((hmem last).1 (.head _))))
    (fun i hi => sub_nonneg.2 (hp i ((hmem i).1 (.tail _ hi)))) j hj
  omega

/-- More intervals make a piece longer: it lies inside one of the new pieces. -/
theorem exists_joinGaps_grown (hg : 0 ≤ gap) (hm : ∀ i ∈ m, i.start ≤ i.stop) (hlm : l ⊆ m)
    {c : Interval} (hc : c ∈ joinGaps l gap) :
    ∃ c' ∈ joinGaps m gap, c'.start ≤ c.start ∧ c.stop ≤ c'.stop := by
  have hl : ∀ i ∈ l, i.start ≤ i.stop := fun i hi => hm i (hlm hi)
  obtain ⟨⟨i, hi, hstart⟩, k, hk, hstop⟩ := joinGaps_ends hl hc
  obtain ⟨p, hp, h1, h2⟩ := exists_joinGaps_covers gap hm (hlm hi)
  obtain ⟨q, hq, h3, h4⟩ := exists_joinGaps_covers gap hm (hlm hk)
  have hik := hl i hi
  have hkk := hl k hk
  rcases joinGaps_eq_or_apart hm hp hq with rfl | hpq | hqp
  · exact ⟨p, hp, by omega, by omega⟩
  · -- the instant where `p` ends lies inside `c`, so some piece of `m` holds it
    have ht : p.stop ∈ points (joinGaps l gap) := mem_points.2 ⟨c, hc, by omega, by omega⟩
    have hmt : p.stop ∈ points (joinGaps m gap) := by
      rw [mem_points_joinGaps hl] at ht
      rw [mem_points_joinGaps hm]
      rcases ht with ht | ⟨a, ha, b, hb, h⟩
      · obtain ⟨a, ha, h⟩ := mem_points.1 ht
        exact .inl (mem_points.2 ⟨a, hlm ha, h⟩)
      · exact .inr ⟨a, hlm ha, b, hlm hb, h⟩
    obtain ⟨r, hr, h5, h6⟩ := mem_points.1 hmt
    rcases joinGaps_eq_or_apart hm hp hr with rfl | hpr | hrp <;> omega
  · have hc' : c.start ≤ c.stop := joinGaps_le hl hc
    omega

end JoinGaps

/-! ## `intersect` -/

/-- One row of the loop of `intersect` gives the common instants of its interval, when `next` is
right about the remaining ones. -/
theorem points_intersectRow {x : Interval} {xs ys : List Interval}
    {next : List Interval → List Interval} (hx : Separated (x :: xs)) (hy : Separated ys)
    (hnext : ∀ zs, Separated zs → points (next zs) = points xs ∩ points zs) :
    points (intersectRow x next ys) = points (x :: xs) ∩ points ys := by
  induction ys with
  | nil => simp [intersectRow]
  | cons y ys ih =>
    have hcons : ∀ t, t ∈ points (intersectRow x next (y :: ys)) ↔
        (x.start ≤ t ∧ t < x.stop ∧ y.start ≤ t ∧ t < y.stop) ∨
          t ∈ points (if x.stop < y.stop then next (y :: ys) else intersectRow x next ys) := by
      intro t
      rw [intersectRow]
      by_cases hpush : min x.stop y.stop > max x.start y.start
      · rw [if_pos hpush, mem_points_cons]
        grind
      · rw [if_neg hpush]
        grind
    ext t
    rw [hcons, Finset.mem_inter, mem_points_cons, mem_points_cons]
    -- the interval that ends first meets nothing further on in the other list
    split
    · next hlt =>
      rw [hnext _ hy, Finset.mem_inter, mem_points_cons]
      have := fun h : t ∈ points ys => hy.head_lt h
      grind
    · next hge =>
      rw [ih hy.tail, Finset.mem_inter, mem_points_cons]
      have := fun h : t ∈ points xs => hx.head_lt h
      grind

/-- The loop intersects two separated lists. -/
theorem points_intersectLoop {xs ys : List Interval} (hx : Separated xs) (hy : Separated ys) :
    points (intersectLoop xs ys) = points xs ∩ points ys := by
  induction xs generalizing ys with
  | nil => simp [intersectLoop]
  | cons x xs ih => exact points_intersectRow hx hy fun zs hz => ih hx.tail hz

/-- `intersect` is intersection. -/
@[simp] theorem points_intersect (a b : List Interval) :
    points (intersect a b) = points a ∩ points b := by
  rw [intersect, points_intersectLoop (normalize_separated a) (normalize_separated b)]
  simp

/-- An intersection is not longer than its first list. -/
theorem lengthMs_intersect_le (a b : List Interval) : lengthMs (intersect a b) ≤ lengthMs a :=
  lengthMs_mono (by simp only [points_intersect]; exact Finset.inter_subset_left)

/-! ## `subtract` -/

/-- What is left of one piece from the cursor on: its instants that lie in none of
the cut intervals. -/
theorem mem_points_cutPiece {stop cursor : ℤ} {cut : List Interval} (hc : Separated cut)
    {t : ℤ} :
    t ∈ points (cutPiece stop cursor cut) ↔ (cursor ≤ t ∧ t < stop) ∧ t ∉ points cut := by
  induction cut generalizing cursor with
  | nil =>
    rw [cutPiece]
    split
    · simp
    · simp; omega
  | cons c cut ih =>
    have hproper := hc.proper c (.head _)
    have hlater := fun h : t ∈ points cut => hc.head_lt h
    unfold Proper at hproper
    rw [cutPiece, mem_points_cons]
    split
    · rw [ih hc.tail]
      grind
    · have hrest : t ∈ points (if max cursor c.stop ≥ stop then []
          else cutPiece stop (max cursor c.stop) cut) ↔
          (max cursor c.stop ≤ t ∧ t < stop) ∧ t ∉ points cut := by
        split
        · simp; omega
        · exact ih hc.tail
      simp only
      split
      · rw [mem_points_cons, hrest]
        grind
      · rw [hrest]
        grind

/-- `subtract` is set difference: the instants of `a` that are none of `b`. -/
@[simp] theorem points_subtract (a b : List Interval) :
    points (subtract a b) = points a \ points b := by
  have hcut := normalize_separated b
  ext t
  rw [Finset.mem_sdiff, ← points_normalize a, ← points_normalize b]
  have hpieces : t ∈ points (subtract a b) ↔
      ∃ p ∈ normalize a, t ∈ points (cutPiece p.stop p.start (normalize b)) := by
    simp only [subtract, mem_points, List.mem_flatMap]
    exact ⟨fun ⟨i, ⟨p, hp, hi⟩, ht⟩ => ⟨p, hp, i, hi, ht⟩,
      fun ⟨p, hp, i, hi, ht⟩ => ⟨i, ⟨p, hp, hi⟩, ht⟩⟩
  rw [hpieces, mem_points (l := normalize a)]
  simp only [mem_points_cutPiece hcut]
  exact ⟨fun ⟨p, hp, ht, hn⟩ => ⟨⟨p, hp, ht⟩, hn⟩, fun ⟨⟨p, hp, ht⟩, hn⟩ => ⟨p, hp, ht, hn⟩⟩

end RxVision
