import RxVision.Worktime.IntervalsCorrect

/-!
# The algebra of intervals (`worktime/domain/intervals.ts`)

`normalize`, `intersect` and `subtract` return separated intervals (`Separated`), and a separated
list is the only one with its instants (`Separated.eq_of_points_eq`). So each operation returns
*the* separated list of a union, an intersection or a difference (`interval_algebra`), whatever the
order of the lists it was given, and the lengths add up as the sizes of sets do.
-/

namespace RxVision

open RxVision.Interval

namespace Separated

variable {i : Interval} {l m : List Interval}

/-- The instants determine a separated list. -/
theorem eq_of_points_eq (hl : Separated l) (hm : Separated m)
    (h : points l = points m) : l = m := by
  have hends := Cover.ends_eq_of_cover_eq hl.apart hm.apart hl.proper hm.proper h
  have hinj : Function.Injective fun i : Interval => (i.start, i.stop) := by
    intro i j hij
    obtain ⟨hstart, hstop⟩ := Prod.mk.inj hij
    cases i
    cases j
    simp only at hstart hstop
    rw [hstart, hstop]
  exact hinj.list_map hends

/-- No intervals lie apart. -/
theorem nil : Separated [] := ⟨List.Pairwise.nil, by simp⟩

/-- An interval that ends before every instant of a separated list may stand in front of it. -/
theorem cons (hi : i.Proper) (hl : Separated l) (h : ∀ t ∈ points l, i.stop < t) :
    Separated (i :: l) := by
  refine ⟨List.pairwise_cons.2 ⟨fun j hj => ?_, hl.apart⟩, List.forall_mem_cons.2 ⟨hi, hl.proper⟩⟩
  exact h j.start (mem_points.2 ⟨j, hj, le_rfl, hl.proper j hj⟩)

/-- Two separated lists may be put together when the second has no instant up to the ends of the
first. -/
theorem append (hl : Separated l) (hm : Separated m) (h : ∀ i ∈ l, ∀ t ∈ points m, i.stop < t) :
    Separated (l ++ m) := by
  refine ⟨List.pairwise_append.2 ⟨hl.apart, hm.apart, fun i hi j hj => ?_⟩, ?_⟩
  · exact h i hi j.start (mem_points.2 ⟨j, hj, le_rfl, hm.proper j hj⟩)
  · exact fun i hi => (List.mem_append.1 hi).elim (hl.proper i) (hm.proper i)

end Separated

/-! ## The loops keep their pieces apart -/

/-- One row of the loop of `intersect`. -/
theorem intersectRow_separated {x : Interval} {xs ys : List Interval}
    {next : List Interval → List Interval} (hx : Separated (x :: xs)) (hy : Separated ys)
    (hpoints : ∀ zs, Separated zs → points (next zs) = points xs ∩ points zs)
    (hnext : ∀ zs, Separated zs → Separated (next zs)) : Separated (intersectRow x next ys) := by
  induction ys with
  | nil => exact .nil
  | cons y ys ih =>
    have hrest :
        Separated (if x.stop < y.stop then next (y :: ys) else intersectRow x next ys) := by
      split
      · exact hnext _ hy
      · exact ih hy.tail
    -- the interval that ends first is done: what follows lies behind its end
    have hlater : ∀ t ∈ points (if x.stop < y.stop then next (y :: ys) else intersectRow x next ys),
        min x.stop y.stop < t := by
      intro t ht
      split at ht
      · rw [hpoints _ hy, Finset.mem_inter] at ht
        exact (min_le_left _ _).trans_lt (hx.head_lt ht.1)
      · rw [points_intersectRow hx hy.tail hpoints, Finset.mem_inter] at ht
        exact (min_le_right _ _).trans_lt (hy.head_lt ht.2)
    rw [intersectRow]
    split
    · next hpush => exact .cons hpush hrest hlater
    · exact hrest

/-- The common parts of two lists that lie apart lie apart. -/
theorem intersectLoop_separated {xs ys : List Interval} (hx : Separated xs) (hy : Separated ys) :
    Separated (intersectLoop xs ys) := by
  induction xs generalizing ys with
  | nil => exact .nil
  | cons x xs ih =>
    exact intersectRow_separated hx hy (fun zs hz => points_intersectLoop hx.tail hz)
      fun zs hz => ih hx.tail hz

/-- So do those of any two lists. -/
theorem intersect_separated (a b : List Interval) : Separated (intersect a b) :=
  intersectLoop_separated (normalize_separated a) (normalize_separated b)

/-- What is cut out of one piece. -/
theorem cutPiece_separated {stop cursor : ℤ} {cut : List Interval} (hc : Separated cut) :
    Separated (cutPiece stop cursor cut) := by
  induction cut generalizing cursor with
  | nil =>
    rw [cutPiece]
    split
    · next hlt => exact .cons hlt .nil (by simp)
    · exact .nil
  | cons c cut ih =>
    have hproper : c.start < c.stop := hc.proper c (.head _)
    have hrest : Separated (if max cursor c.stop ≥ stop then []
        else cutPiece stop (max cursor c.stop) cut) := by
      split
      · exact .nil
      · exact ih hc.tail
    have hlater : ∀ t ∈ points (if max cursor c.stop ≥ stop then []
        else cutPiece stop (max cursor c.stop) cut), c.start < t := by
      intro t ht
      split at ht
      · simp at ht
      · have hcursor := ((mem_points_cutPiece hc.tail).1 ht).1.1
        exact hproper.trans_le ((le_max_right _ _).trans hcursor)
    rw [cutPiece]
    split
    · exact ih hc.tail
    · dsimp only
      split
      · next hpush => exact .cons hpush hrest hlater
      · exact hrest

/-- Cutting the pieces of a separated list one after another. -/
theorem cutPieces_separated {pieces cut : List Interval} (hp : Separated pieces)
    (hc : Separated cut) :
    Separated (pieces.flatMap fun piece => cutPiece piece.stop piece.start cut) := by
  induction pieces with
  | nil => exact .nil
  | cons p pieces ih =>
    rw [List.flatMap_cons]
    refine .append (cutPiece_separated hc) (ih hp.tail) fun i hi t ht => ?_
    have hproper : i.start < i.stop := (cutPiece_separated hc).proper i hi
    have hlast : i.stop - 1 ∈ points (cutPiece p.stop p.start cut) :=
      mem_points.2 ⟨i, hi, by omega, by omega⟩
    have hstop := ((mem_points_cutPiece hc).1 hlast).1.2
    obtain ⟨j, hj, h1, h2⟩ := mem_points.1 ht
    obtain ⟨q, hq, hjq⟩ := List.mem_flatMap.1 hj
    have hcut : t ∈ points (cutPiece q.stop q.start cut) := mem_points.2 ⟨j, hjq, h1, h2⟩
    have hrange := ((mem_points_cutPiece hc).1 hcut).1
    have htail : t ∈ points pieces := mem_points.2 ⟨q, hq, hrange⟩
    have := hp.head_lt htail
    omega

/-- So does what is left of a list. -/
theorem subtract_separated (a b : List Interval) : Separated (subtract a b) :=
  cutPieces_separated (normalize_separated a) (normalize_separated b)

/-! ## The operations as functions of the instants -/

/-- The order of a list does not change its instants. -/
theorem points_perm {a a' : List Interval} (h : a'.Perm a) : points a' = points a := by
  ext t
  simp only [mem_points, h.mem_iff]

/-- A separated list is what an operation returns exactly when it has the same instants. -/
theorem Separated.eq_iff {l m : List Interval} (hm : Separated m) :
    Separated l ∧ points l = points m ↔ l = m :=
  ⟨fun h => h.1.eq_of_points_eq hm h.2, fun h => by rw [h]; exact ⟨hm, rfl⟩⟩

/-- A normalized list is its own normal form. -/
theorem normalize_normalize (l : List Interval) : normalize (normalize l) = normalize l :=
  (normalize_separated _).eq_of_points_eq (normalize_separated l) (points_normalize _)

/-- The part of a list in another and the part outside make up the list. -/
theorem lengthMs_inter_add_sdiff (a b : List Interval) :
    lengthMs a = lengthMs (intersect a b) + lengthMs (subtract a b) := by
  simp only [lengthMs_eq_card, points_intersect, points_subtract, ← Nat.cast_add,
    Finset.card_inter_add_card_sdiff]

/-- Inclusion and exclusion. -/
theorem lengthMs_append (a b : List Interval) :
    lengthMs (a ++ b) + lengthMs (intersect a b) = lengthMs a + lengthMs b := by
  simp only [lengthMs_eq_card, points_intersect, points_append, ← Nat.cast_add,
    Finset.card_union_add_card_inter]

/-- `normalize`, `intersect` and `subtract` return the one separated list whose instants
are the union, the intersection and the difference; so lengths add up, and the order of
the lists plays no role. -/
theorem interval_algebra (a b : List Interval) :
    (∀ l, Separated l ∧ (points l : Set ℤ) = {t | ∃ i ∈ a, i.start ≤ t ∧ t < i.stop} ↔
      l = normalize a) ∧
    (∀ l, Separated l ∧ points l = points a ∩ points b ↔ l = intersect a b) ∧
    (∀ l, Separated l ∧ points l = points a \ points b ↔ l = subtract a b) ∧
    lengthMs a = lengthMs (intersect a b) + lengthMs (subtract a b) ∧
    lengthMs (a ++ b) + lengthMs (intersect a b) = lengthMs a + lengthMs b ∧
    ∀ a' b', a'.Perm a → b'.Perm b →
      normalize a' = normalize a ∧ intersect a' b' = intersect a b ∧ subtract a' b' =
        subtract a b := by
  refine ⟨fun l => ?_, fun l => ?_, fun l => ?_, lengthMs_inter_add_sdiff a b, lengthMs_append a b,
    fun a' b' ha hb => ⟨?_, ?_, ?_⟩⟩
  · have hset : {t | ∃ i ∈ a, i.start ≤ t ∧ t < i.stop} = (points (normalize a) : Set ℤ) := by
      ext t
      simp
    rw [hset, Finset.coe_inj]
    exact (normalize_separated a).eq_iff
  · rw [← points_intersect]
    exact (intersect_separated a b).eq_iff
  · rw [← points_subtract]
    exact (subtract_separated a b).eq_iff
  · refine (normalize_separated a').eq_of_points_eq (normalize_separated a) ?_
    rw [points_normalize, points_normalize, points_perm ha]
  · refine (intersect_separated a' b').eq_of_points_eq (intersect_separated a b) ?_
    rw [points_intersect, points_intersect, points_perm ha, points_perm hb]
  · refine (subtract_separated a' b').eq_of_points_eq (subtract_separated a b) ?_
    rw [points_subtract, points_subtract, points_perm ha, points_perm hb]

example : subtract [⟨5, 9⟩, ⟨0, 6⟩] [⟨2, 3⟩, ⟨8, 8⟩] = [⟨0, 2⟩, ⟨3, 9⟩] := by decide

end RxVision
