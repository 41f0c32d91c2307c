import Mathlib.Algebra.Order.BigOperators.Group.List
import Mathlib.Algebra.Order.Group.Int
import RxVision.Activity.Daily

/-!
# The daily rollup neither invents nor loses time (`ActivityMapper.computeDaily`)

Three parts. `backfillIdleGrace` goes through the idle stretches of a day one by one: what a stretch
moves comes from the active run before it alone (`backfillIdleGrace_stretch`), at most one threshold
of it (`LeadIn`). The totals, the hourly buckets and the usage lists are kept in balance by every
sample and every filled hole (`DayTotals.Balanced`). The loop of `byHour` ends, since the wall clock
shows a later time every round (`byHour_ends`). `computeDaily_conserves` puts them together.
-/

namespace RxVision

/-! ## The idle stretches -/

/-- The slice with `m` seconds moved from the active to the idle column. -/
def DaySlice.move (s : DaySlice) (m : ℤ) : DaySlice :=
  { s with activeSec := s.activeSec - m, idleSec := s.idleSec + m }

/-- What an idle stretch that starts with `s` may move out of the active run before it. -/
structure LeadIn (s : DaySlice) (run : List DaySlice) (moved : List ℤ) : Prop where
  length : moved.length = run.length
  nonneg : ∀ m ∈ moved, 0 ≤ m
  sum_le : moved.sum ≤ IDLE_THRESHOLD_SEC
  locked : s.locked = true → ∀ m ∈ moved, m = 0
  meeting : ∀ p ∈ run.zip moved, p.1.inMeeting = true → p.2 = 0

/-- The slices of a day around one idle stretch: what lies before its active run ends with an idle
slice, and what follows the stretch begins with an active one. -/
structure IdleStretch (slices pre run stretch post : List DaySlice) : Prop where
  split : slices = pre ++ (run ++ (stretch ++ post))
  active : ∀ s ∈ run, s.flaggedIdle = false
  idle : ∀ s ∈ stretch, s.flaggedIdle = true
  fresh : pre = [] ∨ (∀ s ∈ pre.getLast?, s.flaggedIdle = true) ∧ run ≠ []
  ends : ∀ s ∈ post.head?, s.flaggedIdle = false

section Stretches

variable {e run mid l : List DaySlice} {s b : DaySlice} {n : ℤ}

/-- Moving nothing changes nothing. -/
@[simp] theorem DaySlice.move_zero (s : DaySlice) : s.move 0 = s := by
  simp [move]

/-- Nor does moving nothing in any of the slices. -/
theorem zipWith_move_zero (l : List DaySlice) :
    l.zipWith DaySlice.move (List.replicate l.length 0) = l := by
  induction l with
  | nil => rfl
  | cons s l ih =>
    rw [List.length_cons, List.replicate_succ, List.zipWith_cons_cons, ih, s.move_zero]

/-- One step of the walk back, as a move. -/
theorem reclassify_cons : reclassify n (s :: e) =
    if n ≤ 0 || s.flaggedIdle || s.inMeeting || s.activeSec ≤ 0 then s :: e
    else s.move (min s.activeSec n) :: reclassify (n - min s.activeSec n) e := rfl

/-- The walk back stops at an earlier idle stretch. -/
theorem reclassify_of_stop (h : b.flaggedIdle = true) : reclassify n (b :: e) = b :: e := by
  rw [reclassify_cons, if_pos]
  simp [h]

/-- The walk back does not pass an idle slice: what lies before it is as it was. -/
theorem reclassify_append (h : b.flaggedIdle = true) :
    reclassify n (mid ++ b :: e) = reclassify n mid ++ b :: e := by
  induction mid generalizing n with
  | nil => exact reclassify_of_stop h
  | cons prev mid ih =>
    rw [List.cons_append, reclassify_cons, reclassify_cons]
    split
    · rfl
    · rw [ih, List.cons_append]

/-- Active slices are passed over unchanged. -/
theorem backfillIdleGrace_run (h : ∀ s ∈ run, s.flaggedIdle = false) :
    backfillIdleGrace e (run ++ l) = backfillIdleGrace (run.reverse ++ e) l := by
  induction run generalizing e with
  | nil => rfl
  | cons s run ih =>
    obtain ⟨hs, hrun⟩ := List.forall_mem_cons.1 h
    rw [List.cons_append, backfillIdleGrace, if_neg (by simp [hs]), ih hrun]
    simp

/-- The later slices of an idle stretch move nothing, since the slice before them is idle. -/
theorem backfillIdleGrace_idle (hb : b.flaggedIdle = true) (h : ∀ s ∈ run, s.flaggedIdle = true) :
    backfillIdleGrace (b :: e) (run ++ l) =
      backfillIdleGrace (run.reverse ++ b :: e) l := by
  induction run generalizing b e with
  | nil => rfl
  | cons s run ih =>
    obtain ⟨hs, hrun⟩ := List.forall_mem_cons.1 h
    rw [List.cons_append, backfillIdleGrace, if_neg (by simp [hb]), ih hs hrun]
    simp

/-- What lies up to an idle slice is settled once an active one has followed. By induction on the
slices still to come. -/
theorem backfillIdleGrace_barrier (hb : b.flaggedIdle = true)
    (h : mid ≠ [] ∨ ∀ s ∈ l.head?, s.flaggedIdle = false) :
    backfillIdleGrace (mid ++ b :: e) l = (b :: e).reverse ++ backfillIdleGrace mid l := by
  induction l generalizing mid with
  | nil => simp [backfillIdleGrace]
  | cons s l ih =>
    have hgo : (s.flaggedIdle && !((mid ++ b :: e).head?.any DaySlice.flaggedIdle) && !s.locked) =
        (s.flaggedIdle && !(mid.head?.any DaySlice.flaggedIdle) && !s.locked) := by
      cases mid with
      | nil =>
        have hs : s.flaggedIdle = false := h.resolve_left (not_not.2 rfl) s rfl
        simp [hs]
      | cons a mid => rfl
    rw [backfillIdleGrace, backfillIdleGrace, hgo, reclassify_append hb]
    split
    · exact ih (.inl (List.cons_ne_nil _ _))
    · exact ih (.inl (List.cons_ne_nil _ _))

/-- What ends with an idle slice is done with once an active one follows. -/
theorem backfillIdleGrace_settled (hb : b.flaggedIdle = true)
    (h : ∀ s ∈ l.head?, s.flaggedIdle = false) :
    backfillIdleGrace (b :: e) l = (b :: e).reverse ++ backfillIdleGrace [] l := by
  rw [← backfillIdleGrace_barrier hb (.inr h), List.nil_append]

/-- The slices are gone through one after another, so a list can be cut anywhere. -/
theorem backfillIdleGrace_append :
    backfillIdleGrace e (run ++ l) =
      backfillIdleGrace (backfillIdleGrace e run).reverse l := by
  induction run generalizing e with
  | nil => simp [backfillIdleGrace]
  | cons s run ih =>
    rw [List.cons_append, backfillIdleGrace, backfillIdleGrace]
    split
    · exact ih
    · exact ih

/-- The walk back moves seconds and changes no flag, nor anything else that moving leaves alone. -/
theorem reclassify_flags {β : Type*} {f : DaySlice → β} (hf : ∀ s m, f (DaySlice.move s m) = f s) :
    (reclassify n run).map f = run.map f := by
  induction run generalizing n with
  | nil => rfl
  | cons prev run ih =>
    rw [reclassify_cons]
    split
    · rfl
    · rw [List.map_cons, List.map_cons, ih, hf]

/-- A flag that moving seconds leaves alone is as it was, in every slice of the day. -/
theorem backfillIdleGrace_flags {β : Type*} {f : DaySlice → β}
    (hf : ∀ s m, f (DaySlice.move s m) = f s) :
    (backfillIdleGrace e l).map f = e.reverse.map f ++ l.map f := by
  induction l generalizing e with
  | nil => simp [backfillIdleGrace]
  | cons s l ih =>
    rw [backfillIdleGrace]
    split
    · rw [ih]
      simp [reclassify_flags hf]
    · rw [ih]
      simp

/-- The seconds that a walk back moves, slice by slice: none is negative, together they are at most
the grace, and a meeting's slice keeps its own. -/
theorem exists_moved (run : List DaySlice) (hb : 0 ≤ n) :
    ∃ moved : List ℤ, moved.length = run.length ∧
      reclassify n run = run.zipWith DaySlice.move moved ∧
      (∀ m ∈ moved, 0 ≤ m) ∧ moved.sum ≤ n ∧
      ∀ p ∈ run.zip moved, p.1.inMeeting = true → p.2 = 0 := by
  induction run generalizing n with
  | nil => exact ⟨[], rfl, rfl, by simp, hb, by simp⟩
  | cons s run ih =>
    rw [reclassify_cons]
    split
    · -- where the walk stops, nothing more is moved
      refine ⟨List.replicate (run.length + 1) 0, by simp, ?_, by simp, by simpa using hb, ?_⟩
      · exact (zipWith_move_zero (s :: run)).symm
      · intro p hp _
        exact List.eq_of_mem_replicate (List.of_mem_zip hp).2
    · next hgo =>
      simp only [Bool.or_eq_true, decide_eq_true_eq, not_or, not_le, Bool.not_eq_true] at hgo
      obtain ⟨⟨⟨hbudget, -⟩, hmeeting⟩, hactive⟩ := hgo
      obtain ⟨moved, hlength, heq, hnonneg, hsum, hmeet⟩ :=
        ih (n := n - min s.activeSec n) (by omega)
      refine ⟨min s.activeSec n :: moved, by simp [hlength], by rw [heq]; rfl, ?_, ?_, ?_⟩
      · exact List.forall_mem_cons.2 ⟨by omega, hnonneg⟩
      · rw [List.sum_cons]
        omega
      · intro p hp hin
        rcases List.mem_cons.1 hp with rfl | hp
        · exact absurd hin (by simp [hmeeting])
        · exact hmeet p hp hin

/-- The last slice keeps its flag, so what follows it is cut off there as before. -/
theorem getLast?_backfillIdleGrace {pre : List DaySlice}
    (h : ∀ s ∈ pre.getLast?, s.flaggedIdle = true) :
    ∀ s ∈ (backfillIdleGrace [] pre).getLast?, s.flaggedIdle = true := by
  intro b hb
  have hflags := backfillIdleGrace_flags (f := DaySlice.flaggedIdle) (e := [])
    (l := pre) fun _ _ => rfl
  have hlast := congrArg List.getLast? hflags
  simp only [List.reverse_nil, List.map_nil, List.nil_append, List.getLast?_map] at hlast
  rw [Option.mem_def.1 hb, Option.map_some] at hlast
  obtain ⟨s, hs, hsb⟩ := Option.map_eq_some_iff.1 hlast.symm
  rw [← hsb]
  exact h s hs

/-- What lies before the active run of an idle stretch is settled on its own, and the rest too. -/
theorem backfillIdleGrace_pre {pre rest : List DaySlice}
    (h : pre = [] ∨ (∀ s ∈ pre.getLast?, s.flaggedIdle = true) ∧ ∀ s ∈ rest.head?,
      s.flaggedIdle = false) :
    backfillIdleGrace [] (pre ++ rest) = backfillIdleGrace [] pre ++ backfillIdleGrace [] rest := by
  rcases h with rfl | ⟨hlast, hrest⟩
  · rfl
  rw [backfillIdleGrace_append]
  cases hrev : (backfillIdleGrace [] pre).reverse with
  | nil => rw [List.reverse_eq_nil_iff.1 hrev, List.nil_append]
  | cons b e =>
    have hpre : backfillIdleGrace [] pre = (b :: e).reverse := by rw [← hrev, List.reverse_reverse]
    have hb : b.flaggedIdle = true := by
      refine getLast?_backfillIdleGrace hlast b ?_
      rw [hpre]
      simp
    rw [hpre]
    exact backfillIdleGrace_settled hb hrest

/-- The first slice of an idle stretch moves its lead-in out of the active run before it, and
out of nothing else. -/
theorem exists_leadIn (hrun : ∀ s ∈ run, s.flaggedIdle = false) (hs : s.flaggedIdle = true) :
    ∃ moved, LeadIn s run moved ∧ backfillIdleGrace run.reverse (s :: l) =
      backfillIdleGrace (s :: (run.zipWith DaySlice.move moved).reverse) l := by
  have hhead : run.reverse.head?.any DaySlice.flaggedIdle = false := by
    rw [List.head?_reverse]
    cases hlast : run.getLast? with
    | none => rfl
    | some b => exact hrun b (List.mem_of_getLast? hlast)
  rw [backfillIdleGrace, hs, hhead]
  by_cases hlocked : s.locked = true
  · refine ⟨List.replicate run.length 0,
      ⟨by simp, by simp, by simp [IDLE_THRESHOLD_SEC], ?_, ?_⟩, ?_⟩
    · exact fun _ m hm => List.eq_of_mem_replicate hm
    · exact fun p hp _ => List.eq_of_mem_replicate (List.of_mem_zip hp).2
    · rw [if_neg (by simp [hlocked]), zipWith_move_zero]
  · obtain ⟨moved, hlength, heq, hnonneg, hsum, hmeet⟩ :=
      exists_moved run.reverse (n := IDLE_THRESHOLD_SEC) (by decide)
    rw [List.length_reverse] at hlength
    have hzip : run.reverse.zip moved = (run.zip moved.reverse).reverse := by
      rw [List.zip_eq_zipWith, List.zip_eq_zipWith, List.reverse_zipWith (by simp [hlength]),
        List.reverse_reverse]
    refine ⟨moved.reverse, ⟨by simp [hlength], by simpa using hnonneg, by
      simpa using hsum, ?_, ?_⟩, ?_⟩
    · exact fun h => absurd h hlocked
    · intro p hp
      exact hmeet p (by simpa [hzip] using hp)
    · rw [if_pos (by simp [hlocked]), heq, List.reverse_zipWith (by simp [hlength]),
        List.reverse_reverse]

/-- An idle stretch moves seconds out of the active run before it, within its lead-in, and
changes nothing else. -/
theorem backfillIdleGrace_stretch {slices pre run stretch post : List DaySlice} {s : DaySlice}
    (h : IdleStretch slices pre run (s :: stretch) post) :
    ∃ moved, LeadIn s run moved ∧
      backfillIdleGrace [] slices = backfillIdleGrace [] pre ++
        (run.zipWith DaySlice.move moved ++ (s :: stretch ++ backfillIdleGrace [] post)) := by
  obtain ⟨hs, hstretch⟩ := List.forall_mem_cons.1 h.idle
  obtain ⟨moved, hlead, hgo⟩ := exists_leadIn (l := stretch ++ post) h.active hs
  refine ⟨moved, hlead, ?_⟩
  have hpre : pre = [] ∨ (∀ s ∈ pre.getLast?, s.flaggedIdle = true) ∧
      ∀ a ∈ (run ++ (s :: stretch ++ post)).head?, a.flaggedIdle = false := by
    refine h.fresh.imp_right fun hfresh => ⟨hfresh.1, fun a ha => h.active a ?_⟩
    rw [List.head?_append_of_ne_nil _ hfresh.2] at ha
    exact List.mem_of_head? ha
  rw [h.split, backfillIdleGrace_pre hpre, backfillIdleGrace_run h.active, List.append_nil,
    List.cons_append, hgo, backfillIdleGrace_idle hs hstretch]
  -- the last slice of the stretch settles it
  congr 1
  cases hrev : stretch.reverse with
  | nil =>
    rw [List.nil_append, backfillIdleGrace_settled hs h.ends]
    simp [List.reverse_eq_nil_iff.1 hrev]
  | cons b e =>
    have hb : b.flaggedIdle = true := by
      refine hstretch b (List.mem_reverse.1 ?_)
      rw [hrev]
      exact List.mem_cons_self
    rw [List.cons_append, backfillIdleGrace_settled hb h.ends, ← List.cons_append, ← hrev]
    simp

/-- A day without an idle slice stays as it is. -/
theorem backfillIdleGrace_active (h : ∀ s ∈ run, s.flaggedIdle = false) :
    backfillIdleGrace [] run = run := by
  have hrun := backfillIdleGrace_run (e := []) (l := []) h
  rw [List.append_nil, List.append_nil] at hrun
  rw [hrun, backfillIdleGrace, List.reverse_reverse]

end Stretches

/-! ## The totals in balance -/

/-- Times under distinct names that together make up no more than `n` seconds. -/
structure UsageWithin (m : List UsageEntry) (n : ℤ) : Prop where
  nodup : (m.map UsageEntry.name).Nodup
  nonneg : ∀ e ∈ m, 0 ≤ e.seconds
  sum_le : (m.map UsageEntry.seconds).sum ≤ n

/-- The 24 buckets hold the totals, and the usage lists no more than the active seconds. -/
structure DayTotals.Balanced (t : DayTotals) : Prop where
  hours : t.hourly.map HourBucket.hour = List.range 24
  nonneg : ∀ b ∈ t.hourly, 0 ≤ b.activeSec ∧ 0 ≤ b.idleSec
  active : (t.hourly.map HourBucket.activeSec).sum = t.activeSec
  idle : (t.hourly.map HourBucket.idleSec).sum = t.idleSec
  apps : UsageWithin t.apps t.activeSec
  sites : UsageWithin t.sites t.activeSec

section Usage

variable {m : List UsageEntry} {name : String} {n sec : ℤ}

/-- Adding to an app that is not in the list changes nothing. -/
theorem map_usage_of_not_mem (h : name ∉ m.map UsageEntry.name) :
    (m.map fun e => if e.name = name then { e with seconds := e.seconds + sec } else e) = m := by
  induction m with
  | nil => rfl
  | cons e m ih =>
    obtain ⟨he, hm⟩ := not_or.1 (mt List.mem_cons.2 h)
    rw [List.map_cons, ih hm, if_neg (Ne.symm he)]

/-- Adding to an app of the list adds to the sum once, when no app is listed twice. -/
theorem sum_map_usage (h : name ∈ m.map UsageEntry.name) (hm : (m.map UsageEntry.name).Nodup) :
    ((m.map fun e => if e.name = name then { e with seconds := e.seconds + sec } else e).map
      UsageEntry.seconds).sum = (m.map UsageEntry.seconds).sum + sec := by
  induction m with
  | nil => cases h
  | cons e m ih =>
    obtain ⟨hnew, hrest⟩ := List.nodup_cons.1 hm
    rw [List.map_cons, List.map_cons, List.sum_cons, List.map_cons, List.sum_cons]
    by_cases he : e.name = name
    · rw [if_pos he, map_usage_of_not_mem (he ▸ hnew)]
      show e.seconds + sec + _ = _
      omega
    · rw [if_neg he, ih ((List.mem_cons.1 h).resolve_left (Ne.symm he)) hrest]
      omega

/-- A usage list within some seconds is within more of them. -/
theorem UsageWithin.mono (h : UsageWithin m n) (hs : 0 ≤ sec) : UsageWithin m (n + sec) :=
  ⟨h.nodup, h.nonneg, by have := h.sum_le; omega⟩

/-- Seconds that are listed and counted keep the list within the count, for an app of the list
and for a new one. -/
theorem UsageWithin.addUsage (h : UsageWithin m n) (hs : 0 ≤ sec) :
    UsageWithin (addUsage m name sec) (n + sec) := by
  have hsum := h.sum_le
  unfold RxVision.addUsage
  split
  · next hany =>
    have hname : name ∈ m.map UsageEntry.name := by simpa using hany
    refine ⟨?_, ?_, ?_⟩
    · rw [List.map_map]
      refine (List.map_congr_left fun e _ => ?_) ▸ h.nodup
      show e.name = UsageEntry.name (if _ then _ else _)
      split <;> rfl
    · intro e he
      obtain ⟨e', he', rfl⟩ := List.mem_map.1 he
      have := h.nonneg e' he'
      split
      · show 0 ≤ e'.seconds + sec
        omega
      · exact this
    · rw [sum_map_usage hname h.nodup]
      omega
  · next hany =>
    have hname : name ∉ m.map UsageEntry.name := by simpa using hany
    refine ⟨?_, ?_, ?_⟩
    · rw [List.map_append, List.nodup_append]
      exact ⟨h.nodup, List.nodup_singleton _, fun a ha b hb => by
        rintro rfl
        obtain rfl : a = name := List.mem_singleton.1 hb
        exact hname ha⟩
    · intro e he
      rcases List.mem_append.1 he with he | he
      · exact h.nonneg e he
      · rw [List.mem_singleton.1 he]
        exact hs
    · simp only [List.map_append, List.map_cons, List.map_nil, List.sum_append, List.sum_singleton]
      omega

/-- The listed entries are some of all, so their seconds are within the count. -/
theorem UsageWithin.sum_top_le (h : UsageWithin m n) :
    ((top m).map UsageEntry.seconds).sum ≤ n := by
  have hperm := List.perm_insertionSort (fun a b : UsageEntry => b.seconds ≤ a.seconds) m
  have hsub := (List.take_sublist TOP_N
    (m.insertionSort fun a b => b.seconds ≤ a.seconds)).map UsageEntry.seconds
  refine (hsub.sum_le_sum fun x hx => ?_).trans ?_
  · obtain ⟨e, he, rfl⟩ := List.mem_map.1 hx
    exact h.nonneg e (hperm.mem_iff.1 he)
  · rw [(hperm.map UsageEntry.seconds).sum_eq]
    exact h.sum_le

end Usage

section Buckets

variable {l : List HourBucket} {i : ℕ} {f : HourBucket → HourBucket}

/-- Adding to one bucket adds to the sum of the buckets. -/
theorem sum_map_modify {g : HourBucket → ℤ} {k : ℤ} (hi : i < l.length)
    (hf : ∀ b, g (f b) = g b + k) : ((l.modify i f).map g).sum = (l.map g).sum + k := by
  obtain ⟨l₁, a, l₂, rfl, -, hmod⟩ := List.exists_of_modify f hi
  rw [hmod]
  simp only [List.map_append, List.map_cons, List.sum_append, List.sum_cons, hf]
  omega

/-- A change that a field does not see leaves the field of every bucket. -/
theorem map_modify_of_eq {β : Type*} {g : HourBucket → β} (hf : ∀ b, g (f b) = g b) :
    (l.modify i f).map g = l.map g := by
  by_cases hi : i < l.length
  · obtain ⟨l₁, a, l₂, rfl, -, hmod⟩ := List.exists_of_modify f hi
    rw [hmod]
    simp only [List.map_append, List.map_cons, hf]
  · rw [List.modify_eq_self (not_lt.1 hi)]

/-- What the change keeps holds of every bucket after it. -/
theorem forall_mem_modify {P : HourBucket → Prop} (h : ∀ b ∈ l, P b) (hf : ∀ b, P b → P (f b)) :
    ∀ b ∈ l.modify i f, P b := by
  by_cases hi : i < l.length
  · obtain ⟨l₁, a, l₂, rfl, -, hmod⟩ := List.exists_of_modify f hi
    rw [hmod]
    simp only [List.forall_mem_append, List.forall_mem_cons] at h ⊢
    exact ⟨h.1, hf a h.2.1, h.2.2⟩
  · rwa [List.modify_eq_self (not_lt.1 hi)]

end Buckets

namespace DayTotals.Balanced

variable {t : DayTotals} {slices : List DaySlice} {filled : List FilledIdle}

/-- There is a bucket for each hour. -/
theorem lt_length (ht : t.Balanced) {i : ℕ} (hi : i < 24) : i < t.hourly.length := by
  rw [← List.length_map HourBucket.hour, ht.hours, List.length_range]
  exact hi

/-- A day without samples is in balance. -/
theorem init : DayTotals.Balanced {} where
  hours := by decide
  nonneg := by decide
  active := by decide
  idle := by decide
  apps := ⟨List.nodup_nil, by simp, le_rfl⟩
  sites := ⟨List.nodup_nil, by simp, le_rfl⟩

/-- Idle seconds go to the total and to one bucket, so the totals stay those of the buckets. -/
theorem addIdleSec (ht : t.Balanced) {hour : ℕ} {sec : ℤ} (hhour : hour < 24) (hsec : 0 ≤ sec) :
    DayTotals.Balanced { t with
      idleSec := t.idleSec + sec
      hourly := t.hourly.modify hour fun b => { b with idleSec := b.idleSec + sec } } where
  hours := by
    rw [← ht.hours]
    exact map_modify_of_eq fun _ => rfl
  nonneg := forall_mem_modify ht.nonneg fun b hb => ⟨hb.1, by
    show 0 ≤ b.idleSec + sec
    omega⟩
  active := by
    rw [← ht.active]
    exact congrArg List.sum (map_modify_of_eq fun _ => rfl)
  idle := by
    rw [sum_map_modify (ht.lt_length hhour) fun _ => rfl, ht.idle]
  apps := ht.apps
  sites := ht.sites

/-- Filling a hole keeps the balance. -/
theorem addFilled (ht : t.Balanced) {f : FilledIdle} (hhour : f.hour < 24) (hsec : 0 ≤ f.idleSec) :
    (t.addFilled f).Balanced :=
  ht.addIdleSec hhour hsec

/-- Counting a slice's idle seconds keeps the balance. -/
theorem addIdle (ht : t.Balanced) {s : DaySlice} (hhour : s.hour < 24) :
    (t.addIdle s).Balanced := by
  unfold DayTotals.addIdle
  split
  · next hsec => exact ht.addIdleSec hhour hsec.le
  · exact ht

/-- Counting a slice's active seconds keeps the balance of the totals, the buckets
and the usage lists. -/
theorem addActive (ht : t.Balanced) {s : DaySlice} (hhour : s.hour < 24) :
    (t.addActive s).Balanced := by
  unfold DayTotals.addActive
  split
  · next hsec =>
    refine ⟨?_, ?_, ?_, ?_, ?_, ?_⟩
    · rw [← ht.hours]
      exact map_modify_of_eq fun _ => rfl
    · exact forall_mem_modify ht.nonneg fun b hb => ⟨by
        show 0 ≤ b.activeSec + s.activeSec
        omega, hb.2⟩
    · rw [sum_map_modify (ht.lt_length hhour) fun _ => rfl, ht.active]
    · rw [← ht.idle]
      exact congrArg List.sum (map_modify_of_eq fun _ => rfl)
    · dsimp only
      split
      · exact ht.apps.addUsage hsec.le
      · exact ht.apps.mono hsec.le
    · dsimp only
      split
      · exact ht.sites.addUsage hsec.le
      · exact ht.sites.mono hsec.le
  · exact ht

/-- Filling all holes keeps the balance. -/
theorem foldl_addFilled (ht : t.Balanced) (h : ∀ f ∈ filled, f.hour < 24 ∧ 0 ≤ f.idleSec) :
    (filled.foldl DayTotals.addFilled t).Balanced := by
  induction filled generalizing t with
  | nil => exact ht
  | cons f filled ih =>
    obtain ⟨hf, hfilled⟩ := List.forall_mem_cons.1 h
    exact ih (ht.addFilled hf.1 hf.2) hfilled

/-- Counting all slices keeps the balance. -/
theorem foldl_addSlice (ht : t.Balanced) (h : ∀ s ∈ slices, s.hour < 24) :
    (slices.foldl (fun t s => (t.addIdle s).addActive s) t).Balanced := by
  induction slices generalizing t with
  | nil => exact ht
  | cons s slices ih =>
    obtain ⟨hs, hslices⟩ := List.forall_mem_cons.1 h
    exact ih ((ht.addIdle hs).addActive hs) hslices

end DayTotals.Balanced

/-! ## The hours -/

section Hours

variable {clock : HostClock} {cursor stop now : ℤ} {samples : List Sample}
  {meetings : List MeetingWindow}
  {dayIsToday : Bool}

/-- The loop of `byHour` reaches the end of the hole. -/
theorem byHour_ends : ∃ n : ℕ, stop ≤ (fun cursor => hourEnd clock cursor stop)^[n] cursor := by
  induction cursor using byHour.induct clock stop with
  | case1 cursor _ ih =>
    obtain ⟨n, hn⟩ := ih
    exact ⟨n + 1, hn⟩
  | case2 cursor hge => exact ⟨0, not_lt.1 hge⟩

/-- The parts of a hole by hours are in an hour of the day and not negative. By induction on the
cursor of the loop. -/
theorem byHour_sound : ∀ f ∈ byHour clock cursor stop, f.hour < 24 ∧ 0 ≤ f.idleSec := by
  induction cursor using byHour.induct clock stop with
  | case1 cursor hlt ih =>
    rw [byHour, if_pos hlt]
    intro f hf
    rcases List.mem_append.1 hf with hf | hf
    · split at hf
      · next hpos =>
        obtain rfl := List.mem_singleton.1 hf
        exact ⟨clock.getHours_lt cursor, hpos.le⟩
      · cases hf
    · exact ih f hf
  | case2 cursor hge =>
    rw [byHour, if_neg hge]
    simp

/-- The holes of a day, by hours, are in hours of the day and not negative. -/
theorem fillLockedGaps_sound : ∀ f ∈ fillLockedGaps clock samples, f.hour < 24 ∧ 0 ≤ f.idleSec := by
  induction samples using fillLockedGaps.induct with
  | case1 => simp [fillLockedGaps]
  | case2 => simp [fillLockedGaps]
  | case3 prev next rest ih =>
    intro f hf
    rcases List.mem_append.1 hf with hf | hf
    · unfold fillGap at hf
      dsimp only at hf
      split at hf
      · cases hf
      · exact byHour_sound f hf
    · exact ih f hf

/-- The hour of a slice is one of the clock's, before and after the lead-ins were moved. -/
theorem slicesOf_hour : ∀ s ∈ backfillIdleGrace [] (slicesOf clock meetings dayIsToday now samples),
    s.hour < 24 := by
  have hslices : ∀ s ∈ slicesOf clock meetings dayIsToday now samples, s.hour < 24 := by
    refine forall_mem_slicesOf fun s _ isLatest slice hs => ?_
    unfold sliceOf at hs
    dsimp only at hs
    split at hs
    · cases hs
    · rw [← Option.some.inj hs]
      exact clock.getHours_lt s.takenAt
  intro s hs
  have hhour := List.mem_map_of_mem (f := DaySlice.hour) hs
  rw [backfillIdleGrace_flags fun _ _ => rfl] at hhour
  obtain ⟨s', hs', heq⟩ := List.mem_map.1 (by simpa using hhour : s.hour ∈ List.map DaySlice.hour _)
  rw [← heq]
  exact hslices s' hs'

/-- The slices hold the seconds of the samples; only the last sample may still be running. -/
theorem sum_sec_slicesOf :
    ((slicesOf clock meetings dayIsToday now samples).map DaySlice.sec).sum =
      (samples.mapIdx fun i s => durationOf s (decide (i + 1 = samples.length))
        dayIsToday now).sum := by
  induction samples with
  | nil => rfl
  | cons s rest ih =>
    have hlatest : decide (0 + 1 = (s :: rest).length) = rest.isEmpty := by
      cases rest <;> simp
    rw [slicesOf, List.map_append, List.sum_append, sum_sec_sliceOf, ih, List.mapIdx_cons,
      List.sum_cons, hlatest]
    simp

end Hours

/-! ## The day -/

/-- The totals that `computeDaily` answers with. -/
def dayTotals (clock : HostClock) (samples : List Sample) (dayIsToday : Bool) (now : ℤ)
    (meetings : List MeetingWindow) : DayTotals :=
  (backfillIdleGrace [] (slicesOf clock meetings dayIsToday now samples)).foldl
    (fun t s => (t.addIdle s).addActive s)
      ((fillLockedGaps clock samples).foldl DayTotals.addFilled {})

/-- The totals of a day are in balance, whatever its samples. -/
theorem dayTotals_balanced (clock : HostClock) (samples : List Sample) (dayIsToday : Bool) (now : ℤ)
    (meetings : List MeetingWindow) : (dayTotals clock samples dayIsToday now meetings).Balanced :=
  (DayTotals.Balanced.init.foldl_addFilled fillLockedGaps_sound).foldl_addSlice slicesOf_hour

/-- The daily rollup neither invents nor loses time. Active and idle seconds are those of the
samples and of the holes that were filled, and the hour buckets add up to them; each idle
stretch moves only its lead-in; the usage lists stay within the active time; and the loop
over a hole ends. -/
theorem computeDaily_conserves (clock : HostClock) (samples : List Sample) (date : DateKey)
    (basis now : ℤ) (endedAt : Option ℤ) (meetings : List MeetingWindow) (loginAt : Option ℤ) :
    let dayIsToday := decide (date = clock.localDateString now)
    let slices := slicesOf clock meetings dayIsToday (asOf now endedAt) samples
    let t := dayTotals clock samples dayIsToday (asOf now endedAt) meetings
    let d := computeDaily clock samples date basis now endedAt meetings loginAt
    -- the seconds are those of the samples and of the filled holes
    d.activeSec + d.idleSec =
      (samples.mapIdx fun i s =>
        durationOf s (decide (i + 1 = samples.length)) dayIsToday (asOf now endedAt)).sum +
      ((fillLockedGaps clock samples).map FilledIdle.idleSec).sum ∧
    -- the buckets
    d.hourly.map HourBucket.hour = List.range 24 ∧
    (∀ b ∈ d.hourly, 0 ≤ b.activeSec ∧ 0 ≤ b.idleSec) ∧
    (d.hourly.map HourBucket.activeSec).sum = d.activeSec ∧
    (d.hourly.map HourBucket.idleSec).sum = d.idleSec ∧
    -- what each idle stretch moves, and that nothing else is moved
    (∀ pre run s stretch post, IdleStretch slices pre run (s :: stretch) post →
      ∃ moved, LeadIn s run moved ∧
        backfillIdleGrace [] slices = backfillIdleGrace [] pre ++
          (run.zipWith DaySlice.move moved ++ (s :: stretch ++ backfillIdleGrace [] post))) ∧
    (∀ run : List DaySlice, (∀ s ∈ run, s.flaggedIdle = false) → backfillIdleGrace [] run = run) ∧
    -- the usage times
    UsageWithin t.apps d.activeSec ∧ UsageWithin t.sites d.activeSec ∧
    d.topApps = top t.apps ∧ d.topWebsites = top t.sites ∧
    (d.topApps.map UsageEntry.seconds).sum ≤ d.activeSec ∧
    (d.topWebsites.map UsageEntry.seconds).sum ≤ d.activeSec ∧
    -- the loop over a hole
    ∀ cursor stop : ℤ, ∃ n : ℕ, stop ≤ (fun c => hourEnd clock c stop)^[n] cursor := by
  intro dayIsToday slices t d
  have ht : t.Balanced := dayTotals_balanced clock samples dayIsToday (asOf now endedAt) meetings
  refine ⟨?_, ht.hours, ht.nonneg, ht.active, ht.idle, ?_, ?_, ht.apps,
    ht.sites, rfl, rfl, ?_, ?_, ?_⟩
  · rw [computeDaily_total, sum_sec_slicesOf, add_comm]
  · exact fun pre run s stretch post h => backfillIdleGrace_stretch h
  · exact fun run h => backfillIdleGrace_active h
  · exact ht.apps.sum_top_le
  · exact ht.sites.sum_top_le
  · exact fun cursor stop => byHour_ends

end RxVision
