import Mathlib.Algebra.BigOperators.Group.List.Lemmas
import Mathlib.Algebra.BigOperators.Group.List.Basic
import Mathlib.Data.Finset.Max
import RxVision.Activity.Daily

/-!
# The order in which samples arrive

A sample gets its duration by being the person's latest one when the next arrives (`StampedBy`), in
time order by the sample next after it (`NextAfter`). So the order of arrival changes what is stored
of a sample that arrives after a later one, and of one whose next sample arrives so. Where no sample
of a day and none that closes one of them arrives so (`ArriveInTime`), the day is the one of arrival
in time order; in any other order some samples make it another day (`sample_order_free_iff`).
-/

namespace RxVision

/-! ## Instants in the order of their arrival -/

section Instants

variable {ats ats' : List ℤ} {a b c d d' : ℤ}

/-- The sample at `b` arrives before the one at `a`. -/
def Before (ats : List ℤ) (b a : ℤ) : Prop := b ∈ ats ∧ a ∈ ats ∧ ats.idxOf b < ats.idxOf a

/-- No later sample arrives before the one at `a`. -/
def InOrder (ats : List ℤ) (a : ℤ) : Prop := ∀ b, Before ats b a → b ≤ a

/-- `b` is the instant next after `a`. -/
def IsNext (ats : List ℤ) (a b : ℤ) : Prop := b ∈ ats ∧ a < b ∧ ∀ c ∈ ats, a < c → b ≤ c

/-- The duration stored of the sample at `a`: nothing while it is the latest or when a later one was
there before it, else the time to the first later one to arrive. -/
inductive StampedBy (ats : List ℤ) (a : ℤ) : ℤ → Prop
  | latest : (∀ b ∈ ats, b ≤ a) → StampedBy ats a 0
  | late (b : ℤ) : Before ats b a → a < b → StampedBy ats a 0
  | next (b : ℤ) : Before ats a b → a < b → (∀ c, Before ats c b → c ≤ a) →
      StampedBy ats a (foregroundSec a b)

/-- The duration of the sample at `a` up to the sample next after it. -/
inductive NextAfter (ats : List ℤ) (a : ℤ) : ℤ → Prop
  | last : (∀ b ∈ ats, b ≤ a) → NextAfter ats a 0
  | next (b : ℤ) : IsNext ats a b → NextAfter ats a (foregroundSec a b)

/-- The samples of `day`, and those next after them where near enough to matter, arrive before every
later one. -/
def ArriveInTime (clock : LocalTime) (day : DateKey) (ats : List ℤ) : Prop :=
  ∀ a ∈ ats, clock.localDateString a = day →
    InOrder ats a ∧ ∀ b, IsNext ats a b → b < a + MAX_GAP_SEC * 1000 → InOrder ats b

/-- When one more sample arrives, it comes after all that were there, and nothing else changes
about who came first. -/
theorem before_concat (hc : c ∉ ats) : Before (ats ++ [c]) b a ↔ Before ats b a ∨
    (b ∈ ats ∧ a = c) := by
  have hlen : (ats ++ [c]).idxOf c = ats.length := by simp [List.idxOf_append_of_notMem hc]
  have hlt : ∀ x ∈ ats, (ats ++ [c]).idxOf x = ats.idxOf x ∧ ats.idxOf x < ats.length := fun x hx =>
    ⟨List.idxOf_append_of_mem hx, List.idxOf_lt_length_iff.2 hx⟩
  constructor
  · rintro ⟨hb, ha, h⟩
    rcases List.mem_append.1 hb with hb | hb
    · rcases List.mem_append.1 ha with ha | ha
      · rw [(hlt b hb).1, (hlt a ha).1] at h
        exact .inl ⟨hb, ha, h⟩
      · exact .inr ⟨hb, List.mem_singleton.1 ha⟩
    · rw [List.mem_singleton.1 hb, hlen] at h
      have hle := List.idxOf_lt_length_iff.2 ha
      rw [List.length_append, List.length_singleton] at hle
      omega
  · rintro (⟨hb, ha, h⟩ | ⟨hb, rfl⟩)
    · refine ⟨List.mem_append_left _ hb, List.mem_append_left _ ha, ?_⟩
      rwa [(hlt b hb).1, (hlt a ha).1]
    · refine ⟨List.mem_append_left _ hb, List.mem_append_right _ (List.mem_singleton_self _), ?_⟩
      rw [(hlt b hb).1, hlen]
      exact (hlt b hb).2

/-- Of two samples one arrives before the other. -/
theorem before_or_before (ha : a ∈ ats) (hb : b ∈ ats) (hne : a ≠ b) :
    Before ats a b ∨ Before ats b a := by
  rcases Nat.lt_trichotomy (ats.idxOf a) (ats.idxOf b) with h | h | h
  · exact .inl ⟨ha, hb, h⟩
  · exact absurd ((List.idxOf_inj ha).1 h) hne
  · exact .inr ⟨hb, ha, h⟩

/-- A sample with a later one has a next one in time. -/
theorem exists_isNext (hb : b ∈ ats) (hlt : a < b) : ∃ c, IsNext ats a c := by
  obtain ⟨c, hc, hmin⟩ := Finset.exists_min_image (ats.toFinset.filter (a < ·)) id ⟨b, by
    simp [hb, hlt]⟩
  simp only [Finset.mem_filter, List.mem_toFinset] at hc hmin
  exact ⟨c, hc.1, hc.2, fun x hx hax => hmin x ⟨hx, hax⟩⟩

/-- There is only one next sample in time. -/
theorem IsNext.unique (h : IsNext ats a b) (h' : IsNext ats a c) : b = c :=
  le_antisymm (h.2.2 c h'.1 h'.2.1) (h'.2.2 b h.1 h.2.1)

/-- Which sample is next does not depend on the order of arrival. -/
theorem IsNext.congr (hmem : ∀ x, x ∈ ats ↔ x ∈ ats') (h : IsNext ats a b) : IsNext ats' a b :=
  ⟨(hmem b).1 h.1, h.2.1, fun c hc => h.2.2 c ((hmem c).2 hc)⟩

/-- The duration up to the next sample depends on which samples there are, not on the
order they arrived in. -/
theorem NextAfter.unique (hmem : ∀ x, x ∈ ats ↔ x ∈ ats') (h : NextAfter ats a d)
    (h' : NextAfter ats' a d') : d = d' := by
  cases h with
  | last hlast =>
    cases h' with
    | last _ => rfl
    | next c hc => exact absurd (hlast c ((hmem c).2 hc.1)) (not_le.2 hc.2.1)
  | next b hb =>
    cases h' with
    | last hlast => exact absurd (hlast b ((hmem b).1 hb.1)) (not_le.2 hb.2.1)
    | next c hc => rw [(hb.congr hmem).unique hc]

/-- Nor does the duration that the next sample gives. -/
theorem NextAfter.congr (hmem : ∀ x, x ∈ ats ↔ x ∈ ats') (h : NextAfter ats a d) :
    NextAfter ats' a d := by
  cases h with
  | last hlast => exact .last fun b hb => hlast b ((hmem b).2 hb)
  | next b hb => exact .next b (hb.congr hmem)

/-- A sample that is not the latest keeps its duration when another one arrives: only the
latest row is closed. -/
theorem StampedBy.concat (hc : c ∉ ats) (hnot : ∃ b ∈ ats, a < b) (h : StampedBy ats a d) :
    StampedBy (ats ++ [c]) a d := by
  cases h with
  | latest hle =>
    obtain ⟨b, hb, hlt⟩ := hnot
    exact absurd (hle b hb) (not_le.2 hlt)
  | late b hb hlt => exact .late b ((before_concat hc).2 (.inl hb)) hlt
  | next b hb hlt hfirst =>
    refine .next b ((before_concat hc).2 (.inl hb)) hlt fun x hx => ?_
    rcases (before_concat hc).1 hx with hx | ⟨-, rfl⟩
    · exact hfirst x hx
    · exact absurd hb.2.1 hc

/-- A sample that arrived in order, as did the one next after it, holds the
duration up to that one. -/
theorem StampedBy.nextAfter (h : StampedBy ats a d) (ha : InOrder ats a)
    (hnext : ∀ b, IsNext ats a b → b < a + MAX_GAP_SEC * 1000 → InOrder ats b) :
    NextAfter ats a d := by
  cases h with
  | latest hle => exact .last hle
  | late b hb hlt => exact absurd (ha b hb) (not_le.2 hlt)
  | next b hb hlt hfirst =>
    obtain ⟨u, hu⟩ := exists_isNext hb.2.1 hlt
    rcases (hu.2.2 b hb.2.1 hlt).eq_or_lt with rfl | hub
    · exact .next u hu
    · rcases before_or_before hu.1 hb.2.1 hub.ne with hbefore | hbefore
      · exact absurd (hfirst u hbefore) (not_le.2 hu.2.1)
      · -- the next sample arrived late, so it is a longest span away, and so is `b`
        have hfar : a + MAX_GAP_SEC * 1000 ≤ u := by
          by_contra hnear
          exact absurd (hnext u hu (not_le.1 hnear) b hbefore) (not_le.2 hub)
        rw [foregroundSec_of_far (hfar.trans hub.le), ← foregroundSec_of_far hfar]
        exact .next u hu

/-- A sample that holds the duration up to the next one arrived in order, and so did the next
one when it is near. -/
theorem StampedBy.inOrder (hwhole : ∀ x ∈ ats, 1000 ∣ x) (ha : a ∈ ats) (h : StampedBy ats a d)
    (hn : NextAfter ats a d) :
    InOrder ats a ∧ ∀ b, IsNext ats a b → b < a + MAX_GAP_SEC * 1000 → InOrder ats b := by
  have hdvd : ∀ x ∈ ats, 1000 ∣ x - a := fun x hx => Int.dvd_sub (hwhole x hx) (hwhole a ha)
  cases h with
  | latest hle =>
    exact ⟨fun b hb => hle b hb.1, fun b hb => absurd (hle b hb.1) (not_le.2 hb.2.1)⟩
  | late b hb hlt =>
    exfalso
    generalize h0 : (0 : ℤ) = d at hn
    cases hn with
    | last hle => exact absurd (hle b hb.1) (not_le.2 hlt)
    | next u hu => exact absurd h0 (foregroundSec_pos (hdvd u hu.1) hu.2.1).ne
  | next b hb hlt hfirst =>
    refine ⟨fun x hx => hfirst x ⟨hx.1, hb.2.1, hx.2.2.trans hb.2.2⟩, fun u hu hnear => ?_⟩
    rcases (hu.2.2 b hb.2.1 hlt).eq_or_lt with rfl | hub
    · exact fun x hx => (hfirst x hx).trans hlt.le
    · have hne := foregroundSec_lt (hdvd u hu.1) (hdvd b hb.2.1) hu.2.1.le hub hnear
      generalize hd : foregroundSec a b = d at hn hne
      cases hn with
      | last hle => exact absurd (hle b hb.2.1) (not_le.2 hlt)
      | next v hv =>
        rw [hv.unique hu] at hne
        exact absurd hne (lt_irrefl _)

/-- The foreground seconds of whole seconds fit between the two instants. -/
theorem foregroundSec_mul_le (h : 1000 ∣ b - a) (hle : a ≤ b) :
    foregroundSec a b * 1000 ≤ b - a := by
  have := elapsedSeconds_of_dvd h hle
  unfold foregroundSec clamp
  omega

end Instants

/-! ## What is stored -/

/-- The sample of a row as it was created. -/
def Sample.asCreated (s : Sample) : Sample := { s with durationSec := 0 }

/-- The rows of reports that arrived in this order: one for each, with the
duration the order gives. -/
structure Stored (clock : LocalTime) (reports : List ActivityReport) (t : Samples) : Prop where
  rows : t.rows.map (fun s => s.toSample.asCreated) = reports.map (newSample clock)
  stamped : ∀ s ∈ t, StampedBy (reports.map ActivityReport.takenAt) s.takenAt s.durationSec

section Stored

variable {clock : LocalTime} {reports : List ActivityReport} {t : Samples} {r : ActivityReport}
  {s s' : ActivitySampleRecord}

/-- The rows are those of the reports, in the order of arrival. -/
theorem Stored.takenAt (h : Stored clock reports t) :
    t.rows.map (fun s => s.takenAt) = reports.map ActivityReport.takenAt := by
  have hmap := congrArg (List.map Sample.takenAt) h.rows
  simpa [List.map_map, Function.comp_def, Sample.asCreated, newSample] using hmap

/-- Every row is one of a report. -/
theorem Stored.mem_takenAt (h : Stored clock reports t) (hs : s ∈ t) :
    s.takenAt ∈ reports.map ActivityReport.takenAt := by
  rw [← h.takenAt]
  exact List.mem_map_of_mem hs

/-- Reports of different instants have different rows. -/
theorem Stored.eq_of_takenAt (hnodup : (reports.map ActivityReport.takenAt).Nodup)
    (h : Stored clock reports t) (hs : s ∈ t) (hs' : s' ∈ t) (heq : s.takenAt = s'.takenAt) :
    s = s' := by
  rw [← h.takenAt] at hnodup
  exact List.inj_on_of_nodup_map hnodup hs hs' heq

/-- Before any report there are no rows. -/
theorem Stored.empty : Stored clock [] .empty where
  rows := rfl
  stamped := fun s hs => absurd hs (Table.not_mem_empty s)

/-- The latest sample is a row, and none was taken later. -/
theorem findLatestForUser_spec (h : t.findLatestForUser = some s) :
    s ∈ t ∧ ∀ s' ∈ t, s'.takenAt ≤ s.takenAt :=
  ⟨(Table.mem_of_findLast? h).1, fun _ hs' => Table.le_of_findLast? h hs' rfl⟩

/-- A row after the previous sample was closed: the latest one with the time until now, or another
one unchanged. -/
theorem mem_closePrevious {at' now : ℤ} (h : s ∈ (t.closePrevious at' now).1) :
    (∃ prev ∈ t, t.findLatestForUser = some prev ∧ prev.durationSec = 0 ∧ prev.takenAt ≤ at' ∧
        s = { prev with durationSec := foregroundSec prev.takenAt at' }) ∨
      (s ∈ t ∧ ∀ prev, t.findLatestForUser = some prev → prev.durationSec = 0 → prev.takenAt ≤ at' →
        0 < foregroundSec prev.takenAt at' → s.id ≠ prev.id) := by
  unfold Samples.closePrevious at h
  cases hprev : t.findLatestForUser with
  | none =>
    rw [hprev] at h
    exact .inr ⟨h, fun _ h => nomatch h⟩
  | some prev =>
    rw [hprev] at h
    dsimp only at h
    split at h
    · rename_i hgo
      rw [Samples.stampDuration, Table.mem_updateMany] at h
      rcases h with ⟨hs, hid⟩ | ⟨s₀, hs₀, hid, rfl⟩
      · refine .inr ⟨hs, fun p hp _ _ _ => ?_⟩
        obtain rfl := Option.some.inj hp
        simpa using hid
      · obtain rfl : s₀ = prev :=
          Table.eq_of_key hs₀ (findLatestForUser_spec hprev).1 (by simpa using hid)
        exact .inl ⟨s₀, hs₀, rfl, hgo.1, hgo.2.1, rfl⟩
    · rename_i hstop
      refine .inr ⟨h, fun p hp h0 hle hpos => ?_⟩
      obtain rfl := Option.some.inj hp
      exact absurd ⟨h0, hle, hpos⟩ hstop

/-- Giving the latest sample its duration changes no other column of any row. -/
theorem closePrevious_rows {at' now : ℤ} :
    (t.closePrevious at' now).1.rows.map (fun s => s.toSample.asCreated) =
      t.rows.map fun s => s.toSample.asCreated := by
  unfold Samples.closePrevious
  split
  · rfl
  · dsimp only
    split
    · show (List.map _ (List.map _ t.rows)) = _
      rw [List.map_map]
      refine List.map_congr_left fun s _ => ?_
      simp only [Function.comp_def]
      split <;> rfl
    · rfl

/-- No stored row is later than the person's latest one. -/
theorem Stored.le_latest (h : Stored clock reports t) (hlast : t.findLatestForUser = some s) :
    ∀ x ∈ reports.map ActivityReport.takenAt, x ≤ s.takenAt := by
  intro x hx
  rw [← h.takenAt] at hx
  obtain ⟨s', hs', rfl⟩ := List.mem_map.1 hx
  exact (findLatestForUser_spec hlast).2 s' hs'

/-- The latest row has no duration yet. -/
theorem Stored.latest_open (h : Stored clock reports t) (hlast : t.findLatestForUser = some s) :
    s.durationSec = 0 := by
  have hst := h.stamped s (findLatestForUser_spec hlast).1
  generalize hd : s.durationSec = d at hst
  cases hst with
  | latest _ => rfl
  | late _ _ _ => rfl
  | next b hb hlt _ => exact absurd (h.le_latest hlast b hb.2.1) (not_le.2 hlt)

/-- The latest row that a report closes gets the time until the report, as the relation of durations
and arrivals says. -/
theorem Stored.closed (h : Stored clock reports t) (hlast : t.findLatestForUser = some s)
    (hc : c ∉ reports.map ActivityReport.takenAt) (hle : s.takenAt ≤ c) :
    StampedBy (reports.map ActivityReport.takenAt ++ [c]) s.takenAt
      (foregroundSec s.takenAt c) := by
  have hmem := h.mem_takenAt (findLatestForUser_spec hlast).1
  have hne : s.takenAt ≠ c := fun heq => hc (heq ▸ hmem)
  refine .next c ((before_concat hc).2 (.inr ⟨hmem, rfl⟩)) (lt_of_le_of_ne hle hne) ?_
  intro x hx
  rcases (before_concat hc).1 hx with hx | ⟨hx, -⟩
  · exact absurd hx.2.1 hc
  · exact h.le_latest hlast x hx

/-- The latest row that a report leaves open: the report is older. -/
theorem Stored.left_open (h : Stored clock reports t) (hlast : t.findLatestForUser = some s)
    (hlt : c < s.takenAt) :
    StampedBy (reports.map ActivityReport.takenAt ++ [c]) s.takenAt s.durationSec := by
  rw [h.latest_open hlast]
  refine .latest fun b hb => ?_
  rcases List.mem_append.1 hb with hb | hb
  · exact h.le_latest hlast b hb
  · exact (List.mem_singleton.1 hb).trans_le hlt.le

/-- The row that a report creates has no duration yet, and is the latest or came late. -/
theorem StampedBy.created {times : List ℤ} (hc : c ∉ times) : StampedBy (times ++ [c]) c 0 := by
  by_cases hmax : ∀ b ∈ times, b ≤ c
  · refine .latest fun b hb => ?_
    rcases List.mem_append.1 hb with hb | hb
    · exact hmax b hb
    · exact (List.mem_singleton.1 hb).le
  · obtain ⟨b, hb⟩ := not_forall.1 hmax
    obtain ⟨hmem, hlt⟩ := Classical.not_imp.1 hb
    exact .late b ((before_concat hc).2 (.inr ⟨hmem, rfl⟩)) (not_le.1 hlt)

/-- Storing one more report keeps the account of which row has which duration. -/
theorem Stored.store (hnodup : ((reports ++ [r]).map ActivityReport.takenAt).Nodup)
    (hwhole : ∀ r' ∈ reports ++ [r], 1000 ∣ r'.takenAt) (h : Stored clock reports t) :
    Stored clock (reports ++ [r]) (t.store clock r).1 := by
  rw [List.map_append, List.map_singleton] at hnodup
  obtain ⟨hnodup, -, hdisj⟩ := List.nodup_append.1 hnodup
  have hc : r.takenAt ∉ reports.map ActivityReport.takenAt := fun hmem =>
    hdisj _ hmem _ (List.mem_singleton_self _) rfl
  constructor
  · show List.map _ ((t.closePrevious r.takenAt r.now).1.rows ++ _) = _
    rw [List.map_append, closePrevious_rows, h.rows, List.map_append]
    rfl
  · intro s hs
    rw [List.map_append, List.map_singleton]
    rw [Samples.store, Samples.createSample, Table.mem_create] at hs
    rcases hs with hs | rfl
    · -- a row that was there
      rcases mem_closePrevious hs with ⟨prev, -, hlast, -, hle, rfl⟩ | ⟨hs, hkept⟩
      · exact h.closed (s := prev) hlast hc hle
      · obtain ⟨prev, hlast⟩ : ∃ prev, t.findLatestForUser = some prev :=
          Option.ne_none_iff_exists'.1 fun hnone =>
            absurd (Table.findLast?_eq_none.1 hnone s hs) (by simp)
        obtain ⟨hprev, hmax⟩ := findLatestForUser_spec hlast
        rcases (hmax s hs).lt_or_eq with hlt | heq
        · exact (h.stamped s hs).concat hc ⟨prev.takenAt, h.mem_takenAt hprev, hlt⟩
        · obtain rfl := h.eq_of_takenAt hnodup hs hprev heq
          refine h.left_open hlast (not_le.1 fun hge => ?_)
          -- a later report would have closed it: whole seconds, so at least one second lies between
          have hne : s.takenAt ≠ r.takenAt := fun heq => hc (heq ▸ h.mem_takenAt hs)
          have hwholes : 1000 ∣ s.takenAt := by
            obtain ⟨r', hr', heq'⟩ := List.mem_map.1 (h.mem_takenAt hs)
            exact heq' ▸ hwhole r' (List.mem_append_left _ hr')
          refine hkept s hlast (h.latest_open hlast) hge (foregroundSec_pos ?_ ?_) rfl
          · exact Int.dvd_sub (hwhole r (by simp)) hwholes
          · exact lt_of_le_of_ne hge hne
    · exact .created hc

/-- What the store leaves of reports that arrive one after another. By induction on the reports, the
last one set apart. -/
theorem stored_storeAll (hnodup : (reports.map ActivityReport.takenAt).Nodup)
    (hwhole : ∀ r ∈ reports, 1000 ∣ r.takenAt) :
    Stored clock reports (.storeAll clock reports) := by
  induction reports using List.reverseRecOn with
  | nil => exact .empty
  | append_singleton reports r ih =>
    have hprefix : (reports.map ActivityReport.takenAt).Nodup := by
      rw [List.map_append] at hnodup
      exact (List.nodup_append.1 hnodup).1
    rw [Samples.storeAll, List.foldl_append]
    exact (ih hprefix fun r' hr' => hwhole r' (List.mem_append_left _ hr')).store hnodup hwhole

end Stored

/-! ## The day of an arrival order -/

/-- The reports in time order. -/
def inTimeOrder (reports : List ActivityReport) : List ActivityReport :=
  reports.insertionSort fun r r' => r.takenAt ≤ r'.takenAt

/-- The stored samples of a day. -/
def storedDay (clock : LocalTime) (day : DateKey) (reports : List ActivityReport) : List Sample :=
  (Samples.storeAll clock reports).listForUserByDate day

/-- A day's totals do not depend on the order in which its samples arrived: they are those of
arrival in time order, and no more than the time from its first sample to its last and that
sample's own duration. -/
structure OrderFree (clock : LocalTime) (now : ℤ) (day : DateKey)
    (reports : List ActivityReport) : Prop where
  same : ∀ basis endedAt meetings loginAt,
    let d := computeDaily clock (storedDay clock day reports) day basis now endedAt meetings loginAt
    let d' := computeDaily clock (storedDay clock day (inTimeOrder reports)) day basis now endedAt
      meetings loginAt
    d.activeSec = d'.activeSec ∧ d.idleSec = d'.idleSec ∧ d.hourly = d'.hourly
  within : ∀ basis endedAt meetings loginAt,
    let d := computeDaily clock (storedDay clock day reports) day basis now endedAt meetings loginAt
    ∀ first ∈ (storedDay clock day reports).head?, ∀ last ∈ (storedDay clock day reports).getLast?,
      d.activeSec + d.idleSec ≤
        elapsedSeconds first.takenAt last.takenAt + durationOf last true false (asOf now endedAt)

section Day

variable {clock : LocalTime} {now : ℤ} {day : DateKey} {reports reports' : List ActivityReport}
  {x : Sample} {ats : List ℤ}

/-- The samples of a day are the stored rows with its date. -/
theorem mem_storedDay :
    x ∈ storedDay clock day reports ↔
      ∃ s ∈ Samples.storeAll clock reports, s.toSample = x ∧ x.date = day := by
  rw [storedDay, Samples.listForUserByDate, (List.perm_insertionSort _ _).mem_iff, List.mem_filter,
    List.mem_map]
  constructor
  · rintro ⟨⟨s, hs, rfl⟩, hd⟩
    exact ⟨s, hs, rfl, by simpa using hd⟩
  · rintro ⟨s, hs, rfl, hd⟩
    exact ⟨⟨s, hs, rfl⟩, by simpa using hd⟩

/-- Reports taken on distinct whole seconds. -/
structure Distinct (reports : List ActivityReport) : Prop where
  nodup : (reports.map ActivityReport.takenAt).Nodup
  whole : ∀ r ∈ reports, 1000 ∣ r.takenAt

/-- Reports that differ in their instants do so in any order. -/
theorem Distinct.perm (h : Distinct reports) (hp : reports'.Perm reports) : Distinct reports' :=
  ⟨(hp.map _).nodup_iff.2 h.nodup, fun r hr => h.whole r (hp.mem_iff.1 hr)⟩

/-- Such reports are stored as `Stored` says. -/
theorem Distinct.stored (clock : LocalTime) (h : Distinct reports) :
    Stored clock reports (.storeAll clock reports) :=
  stored_storeAll h.nodup h.whole

/-- No two samples of a day are of the same instant, when no two reports are. -/
theorem storedDay_nodup (clock : LocalTime) (day : DateKey) (h : Distinct reports) :
    ((storedDay clock day reports).map Sample.takenAt).Nodup := by
  rw [storedDay, Samples.listForUserByDate,
    ((List.perm_insertionSort _ _).map Sample.takenAt).nodup_iff]
  refine List.Nodup.sublist (List.filter_sublist.map _) ?_
  have htaken := (h.stored clock).takenAt
  rw [List.map_map, show (Sample.takenAt ∘ ActivitySampleRecord.toSample) =
    fun s => s.takenAt from rfl, htaken]
  exact h.nodup

/-- The day's samples are in time order. -/
theorem storedDay_sorted (clock : LocalTime) (day : DateKey) (h : Distinct reports) :
    (storedDay clock day reports).Pairwise fun s s' => s.takenAt < s'.takenAt := by
  have hsorted : (storedDay clock day reports).Pairwise fun s s' => s.takenAt ≤ s'.takenAt :=
    List.pairwise_insertionSort _ _
  have hne := List.pairwise_map.1 (storedDay_nodup clock day h)
  exact (hsorted.and hne).imp fun h => lt_of_le_of_ne h.1 h.2

/-- A stored sample was created for a report, and has the duration that its order of
arrival gives it. -/
theorem mem_storedDay_spec (h : Distinct reports) (hx : x ∈ storedDay clock day reports) :
    (∃ r ∈ reports, newSample clock r = x.asCreated) ∧
      StampedBy (reports.map ActivityReport.takenAt) x.takenAt x.durationSec := by
  obtain ⟨s, hs, rfl, -⟩ := mem_storedDay.1 hx
  refine ⟨?_, (h.stored clock).stamped s hs⟩
  have hmem : s.toSample.asCreated ∈ reports.map (newSample clock) := by
    rw [← (h.stored clock).rows]
    exact List.mem_map_of_mem hs
  exact List.mem_map.1 hmem

/-- A sample of a day is one of a report of that day. -/
theorem mem_takenAt_of_storedDay (h : Distinct reports) (hx : x ∈ storedDay clock day reports) :
    x.takenAt ∈ reports.map ActivityReport.takenAt ∧ clock.localDateString x.takenAt = day := by
  obtain ⟨⟨r, hr, heq⟩, -⟩ := mem_storedDay_spec h hx
  have hat : r.takenAt = x.takenAt := congrArg Sample.takenAt heq
  have hdate : clock.localDateString r.takenAt = x.date := congrArg Sample.date heq
  obtain ⟨-, -, -, hday⟩ := mem_storedDay.1 hx
  exact ⟨hat ▸ List.mem_map_of_mem hr, hat ▸ hdate.trans hday⟩

/-- Every report of the day has its sample, as it was created for it. -/
theorem exists_mem_storedDay (h : Distinct reports) {r : ActivityReport} (hr : r ∈ reports)
    (hday : clock.localDateString r.takenAt = day) :
    ∃ x ∈ storedDay clock day reports, x.asCreated = newSample clock r := by
  have hmem : newSample clock r ∈ (Samples.storeAll clock reports).rows.map
      (fun s => s.toSample.asCreated) := by
    rw [(h.stored clock).rows]
    exact List.mem_map_of_mem hr
  obtain ⟨s, hs, heq⟩ := List.mem_map.1 hmem
  refine ⟨s.toSample, mem_storedDay.2 ⟨s, hs, rfl, ?_⟩, heq⟩
  exact (congrArg Sample.date heq).trans hday

/-- When the reports arrive in time, a sample of the day has the duration that the
next one in time gives. -/
theorem nextAfter_of_mem_storedDay (h : Distinct reports)
    (ht : ArriveInTime clock day (reports.map ActivityReport.takenAt))
    (hx : x ∈ storedDay clock day reports) :
    NextAfter (reports.map ActivityReport.takenAt) x.takenAt x.durationSec := by
  obtain ⟨hmem, hday⟩ := mem_takenAt_of_storedDay h hx
  exact (mem_storedDay_spec h hx).2.nextAfter (ht _ hmem hday).1 (ht _ hmem hday).2

/-- Of two arrivals in time of the same samples, the one stores what the other does,
durations included. -/
theorem storedDay_subset (h : Distinct reports) (hp : reports.Perm reports')
    (ht : ArriveInTime clock day (reports.map ActivityReport.takenAt))
    (ht' : ArriveInTime clock day (reports'.map ActivityReport.takenAt))
    (hx : x ∈ storedDay clock day reports) : x ∈ storedDay clock day reports' := by
  have h' := h.perm hp.symm
  obtain ⟨⟨r, hr, heq⟩, -⟩ := mem_storedDay_spec h hx
  have hdate := (mem_takenAt_of_storedDay h hx).2
  have hat : r.takenAt = x.takenAt := congrArg Sample.takenAt heq
  obtain ⟨x', hx', heq'⟩ := exists_mem_storedDay h' (hp.mem_iff.1 hr) (hat ▸ hdate)
  have hcreated : x.asCreated = x'.asCreated := heq.symm.trans heq'.symm
  have hat' : x.asCreated.takenAt = x'.asCreated.takenAt := congrArg Sample.takenAt hcreated
  have hdur : x.durationSec = x'.durationSec := by
    have hn' := nextAfter_of_mem_storedDay h' ht' hx'
    rw [show x'.takenAt = x.takenAt from hat'.symm] at hn'
    exact (nextAfter_of_mem_storedDay h ht hx).unique (fun t => (hp.map _).mem_iff) hn'
  have hxx : x = x' := by
    have hx0 : x = { x.asCreated with durationSec := x.durationSec } := rfl
    rw [hx0, hcreated, hdur]
    rfl
  exact hxx ▸ hx'

/-- Two arrivals in time of the same samples store the same day, row by row. -/
theorem storedDay_eq (h : Distinct reports) (hp : reports.Perm reports')
    (ht : ArriveInTime clock day (reports.map ActivityReport.takenAt))
    (ht' : ArriveInTime clock day (reports'.map ActivityReport.takenAt)) :
    storedDay clock day reports = storedDay clock day reports' := by
  have hsorted := storedDay_sorted clock day h
  have hsorted' := storedDay_sorted clock day (h.perm hp.symm)
  have hnodup : ∀ {l : List Sample}, (l.Pairwise fun s s' => s.takenAt < s'.takenAt) → l.Nodup :=
    fun hl => hl.imp fun hlt => ne_of_apply_ne Sample.takenAt hlt.ne
  have hperm := (List.perm_ext_iff_of_nodup (hnodup hsorted) (hnodup hsorted')).2 fun x =>
    ⟨storedDay_subset h hp ht ht', storedDay_subset (h.perm hp.symm) hp.symm ht' ht⟩
  exact hperm.eq_of_pairwise (fun a b _ _ hab hba => absurd hab (lt_asymm hba)) hsorted hsorted'

/-- Arrival in time order is in time, so it is the order that every other one is compared with. -/
theorem arriveInTime_inTimeOrder :
    ArriveInTime clock day ((inTimeOrder reports).map ActivityReport.takenAt) := by
  have hsorted : ((inTimeOrder reports).map ActivityReport.takenAt).Pairwise (· ≤ ·) :=
    List.pairwise_map.2 (List.pairwise_insertionSort _ _)
  have hall : ∀ a, InOrder ((inTimeOrder reports).map ActivityReport.takenAt) a := by
    intro a b ⟨hb, ha, hlt⟩
    have hle := List.pairwise_iff_getElem.1 hsorted _ _ (List.idxOf_lt_length_iff.2 hb)
      (List.idxOf_lt_length_iff.2 ha) hlt
    rwa [List.getElem_idxOf, List.getElem_idxOf] at hle
  exact fun a _ _ => ⟨hall a, fun b _ _ => hall b⟩

/-- A stored sample lies on a whole second and lasts no longer than the longest span. -/
theorem whole_of_storedDay (h : Distinct reports)
    (hx : x ∈ storedDay clock day reports) : x.Whole := by
  obtain ⟨⟨r, hr, heq⟩, hst⟩ := mem_storedDay_spec h hx
  have hat : r.takenAt = x.takenAt := congrArg Sample.takenAt heq
  refine ⟨hat ▸ h.whole r hr, ?_⟩
  generalize x.durationSec = d at hst
  cases hst with
  | latest _ => exact ⟨le_rfl, by decide⟩
  | late _ _ _ => exact ⟨le_rfl, by decide⟩
  | next b _ _ _ => exact ⟨foregroundSec_nonneg _ _, foregroundSec_le _ _⟩

end Day

/-! ## The theorem -/

section OrderFree

variable {clock : LocalTime} {now : ℤ} {day : DateKey} {reports : List ActivityReport}
  {ats : List ℤ}
  {a : ℤ}

/-- Where the samples arrive in time, no duration reaches past the day's next sample. -/
theorem endsBefore_of_storedDay (h : Distinct reports)
    (ht : ArriveInTime clock day (reports.map ActivityReport.takenAt)) :
    (storedDay clock day reports).IsChain Sample.EndsBefore := by
  have hends : ∀ {s s'}, s ∈ storedDay clock day reports → s' ∈ storedDay clock day reports →
      s.takenAt < s'.takenAt → s.EndsBefore s' := by
    intro s s' hs hs' hlt
    have hmem := (mem_takenAt_of_storedDay h hs').1
    have hs0 := (whole_of_storedDay h hs).1
    have hn := nextAfter_of_mem_storedDay h ht hs
    rw [Sample.EndsBefore]
    generalize s.durationSec = d at hn
    cases hn with
    | last hle => exact absurd (hle _ hmem) (not_le.2 hlt)
    | next b hb =>
      obtain ⟨r, hr, rfl⟩ := List.mem_map.1 hb.1
      have hdvd := Int.dvd_sub (h.whole r hr) hs0
      have hle := hb.2.2 _ hmem hlt
      have := foregroundSec_mul_le hdvd hb.2.1.le
      omega
  exact ((storedDay_sorted clock day h).imp_of_mem fun hs hs' hlt => hends hs hs' hlt).isChain

/-- Samples that arrive in time make the day, and so the totals, of their arrival in time order. -/
theorem orderFree_of_arriveInTime (h : Distinct reports) (hpast : day ≠ clock.localDateString now)
    (ht : ArriveInTime clock day (reports.map ActivityReport.takenAt)) :
    OrderFree clock now day reports where
  same basis endedAt meetings loginAt := by
    have hsame : storedDay clock day reports = storedDay clock day (inTimeOrder reports) :=
      storedDay_eq h (List.perm_insertionSort _ _).symm ht arriveInTime_inTimeOrder
    rw [hsame]
    exact ⟨rfl, rfl, rfl⟩
  within basis endedAt meetings loginAt := by
    intro d first hfirst last hlast
    have hwhole : ∀ s ∈ storedDay clock day reports, s.Whole := fun s hs => whole_of_storedDay h hs
    have hmem : last ∈ storedDay clock day reports := List.mem_of_getLast? hlast
    have hle : first.takenAt ≤ last.takenAt := by
      have hsorted := storedDay_sorted clock day h
      obtain ⟨rest, hcons⟩ := List.head?_eq_some_iff.1 hfirst
      rw [hcons] at hsorted hmem
      rcases List.mem_cons.1 hmem with rfl | hin
      · exact le_rfl
      · exact ((List.pairwise_cons.1 hsorted).1 last hin).le
    obtain ⟨hat, h0, h150⟩ := hwhole last hmem
    have htotal : (d.activeSec + d.idleSec) * 1000 ≤
        last.takenAt - first.takenAt + last.durationSec * 1000 :=
      computeDaily_total_le hpast hwhole (endsBefore_of_storedDay h ht) hfirst hlast
    have hspan := elapsedSeconds_of_dvd
      (Int.dvd_sub hat (hwhole first (List.mem_of_head? hfirst)).1) hle
    rw [durationOf_past h0 h150]
    omega

/-- The report at `x` of a day on which the person was at the keyboard at `a` only. -/
def onlyActiveAt (a x : ℤ) : ActivityReport :=
  { takenAt := x, body := { locked := some (decide (x ≠ a)) }, now := x }

/-- Where the person was active at one sample only, the active seconds are that
sample's duration. -/
theorem activeSec_onlyActiveAt (h : Distinct reports) (hpast : day ≠ clock.localDateString now)
    (honly : ∀ r ∈ reports, r = onlyActiveAt a r.takenAt) {x : Sample}
    (hx : x ∈ storedDay clock day reports) (hxa : x.takenAt = a) :
    (computeDaily clock (storedDay clock day reports) day 0 now none [] none).activeSec =
      x.durationSec := by
  have hcreated : ∀ s ∈ storedDay clock day reports,
      s.idle = s.locked ∧ s.app = none ∧ s.locked = decide (s.takenAt ≠ a) := by
    intro s hs
    obtain ⟨⟨r, hr, heq⟩, -⟩ := mem_storedDay_spec h hs
    rw [honly r hr] at heq
    have hidle : s.asCreated.idle = s.asCreated.locked := by rw [← heq]; rfl
    have happ : s.asCreated.app = none := by rw [← heq]; rfl
    have hlocked : s.asCreated.locked = decide (s.asCreated.takenAt ≠ a) := by
      rw [← heq]
      simp [newSample, onlyActiveAt, trimTo]
    exact ⟨hidle, happ, hlocked⟩
  rw [computeDaily_activeSec hpast (fun s hs => whole_of_storedDay h hs) fun s hs =>
    ⟨(hcreated s hs).1, (hcreated s hs).2.1⟩]
  have hnodup := storedDay_nodup clock day h
  have hother : ∀ s, s ≠ x → s ∈ storedDay clock day reports →
      (if s.locked then 0 else s.durationSec) = 0 := by
    intro s hne hs
    have hat : s.takenAt ≠ a := fun heq =>
      hne (List.inj_on_of_nodup_map hnodup hs hx (heq.trans hxa.symm))
    rw [(hcreated s hs).2.2, if_pos (decide_eq_true hat)]
  rw [List.sum_map_eq_nsmul_single x _ hother, List.count_eq_one_of_mem hnodup.of_map hx, one_nsmul,
    (hcreated x hx).2.2, hxa]
  simp

/-- Reports of different whole seconds that are active at one instant only are distinct, and
of those instants. -/
theorem distinct_map_onlyActiveAt (hnodup : ats.Nodup) (hwhole : ∀ x ∈ ats, 1000 ∣ x) :
    Distinct (ats.map (onlyActiveAt a)) ∧
      (ats.map (onlyActiveAt a)).map ActivityReport.takenAt = ats := by
  have hat : (ats.map (onlyActiveAt a)).map ActivityReport.takenAt = ats := by
    rw [List.map_map]
    exact List.map_id _
  refine ⟨⟨?_, fun r hr => ?_⟩, hat⟩
  · rw [hat]
    exact hnodup
  · obtain ⟨x, hx, rfl⟩ := List.mem_map.1 hr
    exact hwhole x hx

/-- Samples that arrive at the instants `ats`, in this order, make the day of arrival in time order,
whatever they say, exactly when they arrive in time. -/
theorem sample_order_free_iff (clock : LocalTime) {now : ℤ} {day : DateKey} {ats : List ℤ}
    (hnodup : ats.Nodup) (hwhole : ∀ a ∈ ats, 1000 ∣ a) (hpast : day ≠ clock.localDateString now) :
    (∀ reports : List ActivityReport, reports.map ActivityReport.takenAt = ats →
      OrderFree clock now day reports) ↔ ArriveInTime clock day ats := by
  constructor
  · intro hfree a ha hday
    obtain ⟨hdistinct, hat⟩ := distinct_map_onlyActiveAt (a := a) hnodup hwhole
    obtain ⟨hsame, -, -⟩ := (hfree _ hat).same 0 none [] none
    have hperm : (inTimeOrder (ats.map (onlyActiveAt a))).Perm (ats.map (onlyActiveAt a)) :=
      List.perm_insertionSort _ _
    have honly : ∀ r ∈ ats.map (onlyActiveAt a), r = onlyActiveAt a r.takenAt := by
      intro r hr
      obtain ⟨x, -, rfl⟩ := List.mem_map.1 hr
      rfl
    have hr : onlyActiveAt a a ∈ ats.map (onlyActiveAt a) := List.mem_map_of_mem ha
    -- the sample at `a` as it is stored in each of the two orders
    obtain ⟨x, hx, hxc⟩ : ∃ x ∈ storedDay clock day _, _ := exists_mem_storedDay hdistinct hr hday
    obtain ⟨y, hy, hyc⟩ : ∃ y ∈ storedDay clock day _, _ :=
      exists_mem_storedDay (hdistinct.perm hperm) (hperm.mem_iff.2 hr) hday
    have hxa : x.asCreated.takenAt = a := congrArg Sample.takenAt hxc
    have hya : y.asCreated.takenAt = a := congrArg Sample.takenAt hyc
    rw [activeSec_onlyActiveAt hdistinct hpast honly hx hxa,
      activeSec_onlyActiveAt (hdistinct.perm hperm) hpast
        (fun r hr => honly r (hperm.mem_iff.1 hr)) hy
        hya] at hsame
    have hst := (mem_storedDay_spec hdistinct hx).2
    have hn := nextAfter_of_mem_storedDay (hdistinct.perm hperm) arriveInTime_inTimeOrder hy
    rw [← hsame, show y.takenAt = a from hya] at hn
    rw [show x.takenAt = a from hxa, hat] at hst
    refine hst.inOrder hwhole ha (hn.congr fun t => ?_)
    rw [(hperm.map ActivityReport.takenAt).mem_iff, hat]
  · rintro ht reports rfl
    have hdistinct : Distinct reports :=
      ⟨hnodup, fun r hr => hwhole _ (List.mem_map_of_mem hr)⟩
    exact orderFree_of_arriveInTime hdistinct hpast ht

/-- The theorem for three samples a minute apart, the last two of which arrive the wrong
way round. -/
theorem sample_order_free_iff_minutes :
    (∀ reports : List ActivityReport, reports.map ActivityReport.takenAt = [0, 120000, 60000] →
      OrderFree .utc 172800000 ⟨0⟩ reports) ↔ ArriveInTime .utc ⟨0⟩ [0, 120000, 60000] :=
  sample_order_free_iff .utc (by decide) (by decide) (by decide)

/-- A live sample that arrives before the sample of a minute earlier leaves that one without a
duration: the minute counts in neither column. -/
theorem late_sample_counts_nothing :
    ¬ ∀ (clock : LocalTime) (now : ℤ) (day : DateKey) (reports : List ActivityReport),
      Distinct reports → day ≠ clock.localDateString now → OrderFree clock now day reports := by
  intro h
  have hsame := (h .utc 172800000 ⟨0⟩ [⟨60000, {}, 60000, false⟩, ⟨0, {}, 61000, true⟩]
    ⟨by decide, by decide⟩ (by decide)).same 0 none [] none
  revert hsame
  decide

end OrderFree

end RxVision
