import Mathlib.Order.Interval.Finset.Basic
import Mathlib.Data.Int.Interval
import Mathlib.Algebra.BigOperators.Group.List.Basic
import Mathlib.Data.Finset.Card
import Mathlib.Algebra.BigOperators.Ring.Finset
import Mathlib.Algebra.Order.Ring.Int
import Mathlib.Tactic.Ring

/-!
# Covers: finite unions of half-open intervals

A list of objects with a lower and an upper end, read as the finite union of the half-open
intervals `[lo i, hi i)`. `Cover.cover` is that union as a `Finset`, so that union, intersection,
difference and size are the ones of `Finset`. A list is *apart* (`Cover.Apart`) when every
interval ends before the next one starts; the size of such a cover is the sum of the lengths
(`Cover.card_cover_of_apart`), and its points determine it (`Cover.ends_eq_of_cover_eq`). A set of
integers is *whole* (`Cover.Whole`) when it is made of whole units of a given length; its size is
then a multiple of that length (`Cover.Whole.dvd_card`).

Nothing here depends on what the objects are: the ends are parameters.
-/

namespace Cover

variable {ι α : Type*} [LinearOrder α] [LocallyFiniteOrder α] {lo hi : ι → α}

/-- The union of the half-open intervals `[lo i, hi i)` of a list. -/
def cover (lo hi : ι → α) : List ι → Finset α
  | [] => ∅
  | i :: l => Finset.Ico (lo i) (hi i) ∪ cover lo hi l

/-- A point of a cover is a point of one of its intervals. -/
@[simp] theorem mem_cover {l : List ι} {t : α} :
    t ∈ cover lo hi l ↔ ∃ i ∈ l, lo i ≤ t ∧ t < hi i := by
  induction l with
  | nil => simp [cover]
  | cons i l ih => simp [cover, ih]

/-- Every interval of the list ends before each later one starts. -/
def Apart (lo hi : ι → α) (l : List ι) : Prop := l.Pairwise fun i j => hi i < lo j

/-- The first interval of an apart list shares no point with the rest. -/
theorem disjoint_head {i : ι} {l : List ι} (h : Apart lo hi (i :: l)) :
    Disjoint (Finset.Ico (lo i) (hi i)) (cover lo hi l) := by
  rw [Finset.disjoint_left]
  intro t ht hl
  obtain ⟨j, hj, h1, -⟩ := mem_cover.1 hl
  have hij := List.rel_of_pairwise_cons h hj
  exact absurd ((Finset.mem_Ico.1 ht).2.trans hij) (not_lt.2 h1)

/-- The size of an apart cover of integers is the sum of the lengths. -/
theorem card_cover_of_apart {lo hi : ι → ℤ} {l : List ι} (ha : Apart lo hi l)
    (hp : ∀ i ∈ l, lo i ≤ hi i) :
    ((cover lo hi l).card : ℤ) = (l.map fun i => hi i - lo i).sum := by
  induction l with
  | nil => rfl
  | cons i l ih =>
    have hi0 := hp i (.head _)
    have hl := ih (List.Pairwise.of_cons ha) fun j hj => hp j (.tail _ hj)
    rw [cover, Finset.card_union_of_disjoint (disjoint_head ha), List.map_cons, List.sum_cons,
      Nat.cast_add, hl, Int.card_Ico, Int.toNat_of_nonneg (by omega)]

/-- An apart list has no point where its first interval ends. -/
theorem hi_notMem_cover {i : ι} {l : List ι} (h : Apart lo hi (i :: l)) :
    hi i ∉ cover lo hi (i :: l) := by
  intro ht
  obtain ⟨j, hj, h1, h2⟩ := mem_cover.1 ht
  rcases List.mem_cons.1 hj with rfl | hj
  · exact lt_irrefl _ h2
  · exact absurd h1 (not_le.2 (List.rel_of_pairwise_cons h hj))

/-- The points of an apart list do not come before its first interval. -/
theorem lo_le_of_mem_cover {i : ι} {l : List ι} {t : α} (h : Apart lo hi (i :: l))
    (hi0 : lo i ≤ hi i) (ht : t ∈ cover lo hi (i :: l)) : lo i ≤ t := by
  obtain ⟨j, hj, h1, -⟩ := mem_cover.1 ht
  rcases List.mem_cons.1 hj with rfl | hj
  · exact h1
  · exact (hi0.trans (List.rel_of_pairwise_cons h hj).le).trans h1

/-- Of two apart lists with the same points, the first interval of one ends no later
than that of the other. -/
theorem hi_le_of_cover_eq {i j : ι} {l m : List ι} (hm : Apart lo hi (j :: m))
    (hij : lo i ≤ lo j) (hj : lo j < hi j)
    (h : cover lo hi (i :: l) = cover lo hi (j :: m)) : hi i ≤ hi j := by
  by_contra hlt
  refine hi_notMem_cover hm ?_
  rw [← h, mem_cover]
  exact ⟨i, .head _, hij.trans hj.le, not_le.1 hlt⟩

/-- The points of an apart list after its first interval. -/
theorem mem_cover_tail {i : ι} {l : List ι} {t : α} (h : Apart lo hi (i :: l)) :
    t ∈ cover lo hi l ↔ t ∈ cover lo hi (i :: l) ∧ hi i ≤ t := by
  constructor
  · intro ht
    obtain ⟨j, hj, h1, h2⟩ := mem_cover.1 ht
    exact ⟨mem_cover.2 ⟨j, .tail _ hj, h1, h2⟩,
      (List.rel_of_pairwise_cons h hj).le.trans h1⟩
  · rintro ⟨ht, hle⟩
    obtain ⟨j, hj, h1, h2⟩ := mem_cover.1 ht
    rcases List.mem_cons.1 hj with rfl | hj
    · exact absurd h2 (not_lt.2 hle)
    · exact mem_cover.2 ⟨j, hj, h1, h2⟩

/-- An apart list of non-empty intervals is determined by its points. -/
theorem ends_eq_of_cover_eq {l m : List ι} (hl : Apart lo hi l) (hm : Apart lo hi m)
    (hlp : ∀ i ∈ l, lo i < hi i) (hmp : ∀ i ∈ m, lo i < hi i)
    (h : cover lo hi l = cover lo hi m) :
    (l.map fun i => (lo i, hi i)) = m.map fun i => (lo i, hi i) := by
  induction l generalizing m with
  | nil =>
    cases m with
    | nil => rfl
    | cons j m =>
      have hj : lo j ∈ cover lo hi [] := h ▸ mem_cover.2 ⟨j, .head _, le_rfl, hmp j (.head _)⟩
      simp at hj
  | cons i l ih =>
    have hi0 := hlp i (.head _)
    cases m with
    | nil =>
      have hi' : lo i ∈ cover lo hi [] := h ▸ mem_cover.2 ⟨i, .head _, le_rfl, hi0⟩
      simp at hi'
    | cons j m =>
      have hj0 := hmp j (.head _)
      have hlo : lo i = lo j := by
        refine le_antisymm ?_ ?_
        · exact lo_le_of_mem_cover hl hi0.le (h ▸ mem_cover.2 ⟨j, .head _, le_rfl, hj0⟩)
        · exact lo_le_of_mem_cover hm hj0.le (h ▸ mem_cover.2 ⟨i, .head _, le_rfl, hi0⟩)
      have hhi : hi i = hi j :=
        le_antisymm (hi_le_of_cover_eq hm hlo.le hj0 h) (hi_le_of_cover_eq hl hlo.ge hi0 h.symm)
      have htail : cover lo hi l = cover lo hi m := by
        ext t
        rw [mem_cover_tail hl, mem_cover_tail hm, h, hhi]
      rw [List.map_cons, List.map_cons, hlo, hhi,
        ih hl.of_cons hm.of_cons (fun k hk => hlp k (.tail _ hk))
          (fun k hk => hmp k (.tail _ hk)) htail]

/-- The sizes of pairwise disjoint parts of a set add up to at most the size of the set. -/
theorem sum_card_le {β γ : Type*} [DecidableEq γ] {parts : β → Finset γ} {l : List β}
    {s : Finset γ}
    (hd : l.Pairwise fun a b => Disjoint (parts a) (parts b)) (hs : ∀ a ∈ l, parts a ⊆ s) :
    (l.map fun a => (parts a).card).sum ≤ s.card := by
  induction l generalizing s with
  | nil => simp
  | cons a l ih =>
    have hrest : ∀ b ∈ l, parts b ⊆ s \ parts a := fun b hb =>
      Finset.subset_sdiff.2 ⟨hs b (.tail _ hb), (List.rel_of_pairwise_cons hd hb).symm⟩
    have h1 := ih hd.of_cons hrest
    have h2 := Finset.card_sdiff_add_card_eq_card (hs a (.head _))
    simp only [List.map_cons, List.sum_cons]
    omega

/-- The parts of a set in intervals that share no point add up to its part in their union. -/
theorem sum_card_inter (s : Finset α) {l : List ι}
    (hd : l.Pairwise fun i j => Disjoint (cover lo hi [i]) (cover lo hi [j])) :
    (l.map fun i => ((s ∩ cover lo hi [i]).card : ℤ)).sum = (s ∩ cover lo hi l).card := by
  induction l with
  | nil => simp [cover]
  | cons i l ih =>
    obtain ⟨hhead, htail⟩ := List.pairwise_cons.1 hd
    have hsplit : cover lo hi (i :: l) = cover lo hi [i] ∪ cover lo hi l := by
      ext t
      simp
    have hdisj : Disjoint (s ∩ cover lo hi [i]) (s ∩ cover lo hi l) := by
      rw [Finset.disjoint_left]
      intro t ht htl
      obtain ⟨j, hj, hjt⟩ := mem_cover.1 (Finset.mem_inter.1 htl).2
      exact Finset.disjoint_left.1 (hhead j hj) (Finset.mem_inter.1 ht).2
        (mem_cover.2 ⟨j, .head _, hjt⟩)
    rw [List.map_cons, List.sum_cons, ih htail, hsplit, Finset.inter_union_distrib_left,
      Finset.card_union_of_disjoint hdisj, Nat.cast_add]

/-! ## Lists without gaps -/

/-- The points in between two points of the list are points of the list. -/
def Convex (lo hi : ι → α) (l : List ι) : Prop :=
  ∀ x ∈ cover lo hi l, ∀ z ∈ cover lo hi l, ∀ y, x ≤ y → y ≤ z → y ∈ cover lo hi l

/-- Non-empty intervals that share no point and leave no gap end, in order, where the next one
starts. -/
theorem Convex.isChain {l : List ι} (hc : Convex lo hi l)
    (hs : l.Pairwise fun i j => lo i ≤ lo j) (hp : ∀ i ∈ l, lo i < hi i)
    (hd : l.Pairwise fun i j => Disjoint (cover lo hi [i]) (cover lo hi [j])) :
    l.IsChain fun i j => hi i = lo j := by
  induction l with
  | nil => exact .nil
  | cons i l ih =>
    cases l with
    | nil => exact .singleton i
    | cons j l =>
      obtain ⟨hsi, hsl⟩ := List.pairwise_cons.1 hs
      obtain ⟨hdi, hdl⟩ := List.pairwise_cons.1 hd
      have hi0 := hp i (.head _)
      have hj0 := hp j (.tail _ (.head _))
      have hij := hsi j (.head _)
      have hle : hi i ≤ lo j := by
        by_contra hlt
        exact Finset.disjoint_left.1 (hdi j (.head _))
          (mem_cover.2 ⟨i, .head _, hij, not_le.1 hlt⟩) (mem_cover.2 ⟨j, .head _, le_rfl, hj0⟩)
      have hstarts : ∀ k ∈ j :: l, lo j ≤ lo k := by
        intro k hk
        rcases List.mem_cons.1 hk with rfl | hk
        · exact le_rfl
        · exact List.rel_of_pairwise_cons hsl hk
      refine List.isChain_cons_cons.2 ⟨le_antisymm hle ?_, ih (fun x hx z hz y hxy hyz => ?_) hsl
        (fun k hk => hp k (.tail _ hk)) hdl⟩
      · -- a gap after the first interval would hold its end
        have hend := hc (lo i) (mem_cover.2 ⟨i, .head _, le_rfl, hi0⟩) (lo j)
          (mem_cover.2 ⟨j, .tail _ (.head _), le_rfl, hj0⟩) (hi i) hi0.le hle
        obtain ⟨k, hk, h1, h2⟩ := mem_cover.1 hend
        rcases List.mem_cons.1 hk with rfl | hk
        · exact absurd h2 (lt_irrefl _)
        · exact (hstarts k hk).trans h1
      · have hsub : ∀ t ∈ cover lo hi (j :: l), t ∈ cover lo hi (i :: j :: l) := fun t ht =>
          Finset.mem_union_right _ ht
        obtain ⟨k, hk, h1, -⟩ := mem_cover.1 hx
        have hy := hc x (hsub x hx) z (hsub z hz) y hxy hyz
        obtain ⟨m, hm, h3, h4⟩ := mem_cover.1 hy
        rcases List.mem_cons.1 hm with rfl | hm
        · exact absurd h4 (not_lt.2 ((hle.trans (hstarts k hk)).trans (h1.trans hxy)))
        · exact mem_cover.2 ⟨m, hm, h3, h4⟩

/-! ## Whole units -/

/-- A set of integers that holds a unit `[k * n, (k + 1) * n)` as soon as it holds one point of
it. -/
def Whole (n : ℤ) (s : Finset ℤ) : Prop := ∀ t, t ∈ s ↔ t / n * n ∈ s

namespace Whole

variable {n : ℤ} {s t : Finset ℤ}

/-- Two points of one unit are both in a whole set or both outside. -/
theorem mem_iff (h : Whole n s) {a b : ℤ} (hab : a / n = b / n) : a ∈ s ↔ b ∈ s := by
  rw [h a, h b, hab]

/-- The intersection of two unions of whole cells. -/
theorem inter (hs : Whole n s) (ht : Whole n t) : Whole n (s ∩ t) := by
  intro a
  rw [Finset.mem_inter, Finset.mem_inter, hs a, ht a]

/-- Their union. -/
theorem union (hs : Whole n s) (ht : Whole n t) : Whole n (s ∪ t) := by
  intro a
  rw [Finset.mem_union, Finset.mem_union, hs a, ht a]

/-- Their difference. -/
theorem sdiff (hs : Whole n s) (ht : Whole n t) : Whole n (s \ t) := by
  intro a
  rw [Finset.mem_sdiff, Finset.mem_sdiff, hs a, ht a]

/-- A cover whose intervals begin and end on multiples of the unit is whole. -/
theorem cover {lo hi : ι → ℤ} {l : List ι} (hn : 0 < n) (hlo : ∀ i ∈ l, n ∣ lo i)
    (hhi : ∀ i ∈ l, n ∣ hi i) : Whole n (cover lo hi l) := by
  intro t
  rw [mem_cover, mem_cover]
  refine exists_congr fun i => and_congr_right fun hi' => ?_
  obtain ⟨a, ha⟩ := hlo i hi'
  obtain ⟨b, hb⟩ := hhi i hi'
  have hlower : n * a ≤ t ↔ n * a ≤ t / n * n := by
    rw [mul_comm n a, ← Int.le_ediv_iff_mul_le hn, mul_le_mul_iff_of_pos_right hn]
  have hupper : t < n * b ↔ t / n * n < n * b := by
    rw [mul_comm n b, ← Int.ediv_lt_iff_lt_mul hn, mul_lt_mul_iff_of_pos_right hn]
  rw [ha, hb, hlower, hupper]

/-- The size of a whole set is a multiple of the unit. -/
theorem dvd_card (hn : 0 < n) (h : Whole n s) : n ∣ (s.card : ℤ) := by
  have hfiber : ∀ k ∈ s.image (· / n), ((s.filter fun a => a / n = k).card : ℤ) = n := by
    intro k hk
    obtain ⟨a, ha, rfl⟩ := Finset.mem_image.1 hk
    have hunit : (s.filter fun b => b / n = a / n) = Finset.Ico (a / n * n) (a / n * n + n) := by
      ext b
      rw [Finset.mem_filter, Finset.mem_Ico, Int.ediv_eq_iff_of_pos hn]
      have hb := fun hab : b / n = a / n => (h.mem_iff hab).2 ha
      rw [Int.ediv_eq_iff_of_pos hn] at hb
      exact ⟨fun h' => h'.2, fun h' => ⟨hb h', h'⟩⟩
    rw [hunit, Int.card_Ico, Int.toNat_of_nonneg (by omega)]
    ring
  rw [Finset.card_eq_sum_card_image (· / n) s, Nat.cast_sum]
  exact Finset.dvd_sum fun k hk => (hfiber k hk).symm ▸ dvd_rfl

end Whole

end Cover
