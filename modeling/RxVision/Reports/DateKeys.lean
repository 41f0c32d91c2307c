import RxVision.Lib.Civil
import RxVision.Reports.StoredPattern
import RxVision.Shifts.Clock

/-!
# Date keys (`timezone.ts`, `calendar.rules.ts`, `report-builder.ts`)

Days are named by texts like 2026-10-20 all through the program: they are compared as texts, moved
with `addDaysToKey` and listed month by month. The functions here are the source's, on the texts,
with `Date.UTC` as ECMAScript states it. A valid key names one day (`dayOfKey`), keys stand in the
order of their days (`key_lt_iff`), and `addDaysToKey` leads to the key of the day meant exactly
when that day's year has four digits (`isValidDateKey_addDaysToKey`). So the day numbers the other
modules compute with are these texts.
-/

namespace RxVision.Calendar

/-! ## The functions -/

/-- `dateKey.split('-').map(Number)`; a text of another form gives no numbers. -/
def keyNumbers (key : Units) : Option (ℕ × ℕ × ℕ) :=
  if isDateText key then
    some (number (key.take 4), number ((key.drop 5).take 2), number (key.drop 8))
  else none

/-- `Date.UTC(y, m - 1, d)` in days: the years 0 to 99 are 1900 to 1999, and months and days run on
past the end of the year and of the month. -/
def utcDay (y m d : ℤ) : ℤ :=
  let year := (if 0 ≤ y ∧ y ≤ 99 then 1900 + y else y) + (m - 1) / 12
  Civil.dayFromYear year + Civil.daysBefore year ((m - 1) % 12).toNat + d - 1

/-- `new Date` of a day: a time value reaches a hundred million days to each side of 1970. -/
def timeClip (day : ℤ) : Option Civil :=
  if day.natAbs ≤ 100000000 then some (Civil.ofDay day) else none

/-- `isValidDateKey` as it is written: `Date.UTC` gives the parts back. -/
def givesBack (key : Units) : Bool :=
  match keyNumbers key with
  | none => false
  | some (y, m, d) =>
    (timeClip (utcDay y m d)).any fun dt => dt.year = (y : ℤ) && dt.month = m && dt.day = d

/-- `String(n)`. -/
def numberText (n : ℕ) : Units := if n = 0 then text "0" else decimal n

/-- `pad2`. -/
def pad2 (n : ℕ) : Units := if (numberText n).length < 2 then 48 :: numberText n else numberText n

/-- A year as a template prints it, without leading zeros. -/
def yearText (year : ℤ) : Units :=
  if year < 0 then 45 :: numberText year.natAbs else numberText year.toNat

/-- A date as the helpers print it. -/
def dateText (c : Civil) : Units := yearText c.year ++ 45 :: (pad2 c.month ++ 45 :: pad2 c.day)

/-- `addDaysToKey`. -/
def addDaysToKey (key : Units) (days : ℤ) : Units :=
  ((keyNumbers key).bind fun (y, m, d) => timeClip (utcDay y m (d + days))).elim
    (text "NaN-NaN-NaN") dateText

/-- `isoWeekdayOfKey`; `getUTCDay` is 0 on Sundays, and day 0 was a Thursday. -/
def isoWeekdayOfKey (key : Units) : Option ℤ :=
  (keyNumbers key).map fun (y, m, d) =>
    let day := (utcDay y m d + 4) % 7
    if day = 0 then 7 else day

/-- `isValidMonth`. -/
def isValidMonth : Units → Bool
  | [y₁, y₂, y₃, y₄, s, m₁, m₂] =>
    [y₁, y₂, y₃, y₄].all isDigit && s == 45 &&
      (m₁ == 48 && 49 ≤ m₂ && m₂ ≤ 57 || m₁ == 49 && 48 ≤ m₂ && m₂ ≤ 50)
  | _ => false

/-- The loop of `datesOfMonth`, for at most so many rounds. -/
def datesFrom (month : Units) : ℕ → Units → Option (List Units)
  | 0, _ => none
  | rounds + 1, d =>
    if month.isPrefixOf d then (datesFrom month rounds (addDaysToKey d 1)).map (d :: ·) else some []

/-- `datesOfMonth`. -/
def datesOfMonth (rounds : ℕ) (month : Units) : Option (List Units) :=
  datesFrom month rounds (month ++ text "-01")

/-- `monthDates`: the day before the first of the next month is the last. -/
def monthDates (month : Units) : List Units :=
  let days := (Civil.ofDay (utcDay (number (month.take 4)) (number (month.drop 5) + 1) 0)).day
  (List.range days).map fun i => month ++ 45 :: pad2 (i + 1)

/-! ## Digits -/

section Digits

variable {a b s t : Units} {u : UInt16} {n : ℕ}

/-- The number of a text, by two parts of it: the first counts as many tens as the
second has units. -/
theorem number_append (a b : Units) : number (a ++ b) = number a * 10 ^ b.length + number b := by
  have hfold : ∀ (b : Units) (n : ℕ), b.foldl (fun n u => 10 * n + (u.toNat - 48)) n =
      n * 10 ^ b.length + number b := by
    intro b
    induction b with
    | nil => simp [number]
    | cons u b ih =>
      intro n
      rw [number, List.foldl_cons, List.foldl_cons, ih, ih, List.length_cons, Nat.pow_succ]
      ring
  rw [number, List.foldl_append, hfold]
  rfl

/-- The number of one digit. -/
theorem number_singleton : number [u] = u.toNat - 48 := by simp [number]

/-- A digit is one of the units 48 to 57. -/
theorem toNat_of_isDigit (h : isDigit u = true) : 48 ≤ u.toNat ∧ u.toNat ≤ 57 := by
  simpa [isDigit, UInt16.le_iff_toNat_le] using h

/-- A text of digits has a number below the power of ten of its length. By induction on the text. -/
theorem number_lt (h : ∀ u ∈ t, isDigit u = true) : number t < 10 ^ t.length := by
  induction t with
  | nil => simp [number]
  | cons u t ih =>
    obtain ⟨hu, ht⟩ := List.forall_mem_cons.1 h
    have := toNat_of_isDigit hu
    have hlt := ih ht
    rw [show u :: t = [u] ++ t from rfl, number_append, number_singleton, List.length_append,
      List.length_singleton, Nat.pow_add, Nat.pow_one]
    calc (u.toNat - 48) * 10 ^ t.length + number t
        < (u.toNat - 48) * 10 ^ t.length + 10 ^ t.length := Nat.add_lt_add_left hlt _
      _ = (u.toNat - 48 + 1) * 10 ^ t.length := by ring
      _ ≤ 10 * 10 ^ t.length := Nat.mul_le_mul_right _ (by omega)

/-- Digits of one length stand in the order of their numbers, and are equal when these are. By
induction on both texts. -/
theorem digits_order (hlen : a.length = b.length) (ha : ∀ u ∈ a, isDigit u = true)
    (hb : ∀ u ∈ b, isDigit u = true) : (a < b ↔ number a < number b) ∧
    (a = b ↔ number a = number b) := by
  induction a generalizing b with
  | nil =>
    obtain rfl := List.eq_nil_of_length_eq_zero hlen.symm
    simp
  | cons u a ih =>
    obtain ⟨v, b, rfl⟩ := List.exists_cons_of_length_eq_add_one hlen.symm
    obtain ⟨hu, ha⟩ := List.forall_mem_cons.1 ha
    obtain ⟨hv, hb⟩ := List.forall_mem_cons.1 hb
    obtain ⟨hlt, heq⟩ := ih (by simpa using hlen) ha hb
    have hu := toNat_of_isDigit hu
    have hv := toNat_of_isDigit hv
    have hna := number_lt ha
    have hnb := number_lt hb
    have hl : a.length = b.length := by simpa using hlen
    rw [List.cons_lt_cons_iff, List.cons.injEq, hlt, heq, UInt16.lt_iff_toNat_lt,
      ← UInt16.toNat_inj,
      show u :: a = [u] ++ a from rfl, show v :: b = [v] ++ b from rfl,
        number_append, number_append,
      number_singleton, number_singleton, hl]
    rw [hl] at hna
    -- a greater first digit outweighs whatever follows
    rcases lt_trichotomy u.toNat v.toNat with h | h | h
    · have hmul : (u.toNat - 48 + 1) * 10 ^ b.length ≤ (v.toNat - 48) * 10 ^ b.length :=
        Nat.mul_le_mul_right _ (by omega)
      rw [Nat.add_mul, Nat.one_mul] at hmul
      constructor <;> constructor <;> intro <;> omega
    · rw [h]
      constructor <;> constructor <;> intro <;> omega
    · have hmul : (v.toNat - 48 + 1) * 10 ^ b.length ≤ (u.toNat - 48) * 10 ^ b.length :=
        Nat.mul_le_mul_right _ (by omega)
      rw [Nat.add_mul, Nat.one_mul] at hmul
      constructor <;> constructor <;> intro <;> omega

/-- Texts whose first parts are as long are compared by these, and where they are
equal by the rest. -/
theorem append_lt_append_iff (hlen : a.length = b.length) :
    a ++ s < b ++ t ↔ a < b ∨ a = b ∧ s < t := by
  induction a generalizing b with
  | nil =>
    obtain rfl := List.eq_nil_of_length_eq_zero hlen.symm
    simp
  | cons u a ih =>
    obtain ⟨v, b, rfl⟩ := List.exists_cons_of_length_eq_add_one hlen.symm
    rw [List.cons_append, List.cons_append, List.cons_lt_cons_iff, List.cons_lt_cons_iff,
      ih (by simpa using hlen), List.cons.injEq]
    tauto

/-- The last digit of a number, after those of the others. -/
theorem decimal_of_pos (hn : 0 < n) :
    decimal n = decimal (n / 10) ++ [UInt16.ofNat (48 + n % 10)] := by
  rw [decimal, Nat.digits_def' (by omega) hn, List.map_cons, List.reverse_cons]
  rfl

/-- A number is read back from its digits. By strong induction, since each digit leaves a tenth. -/
theorem number_decimal (n : ℕ) : number (decimal n) = n := by
  induction n using Nat.strongRecOn with
  | _ n ih =>
    rcases Nat.eq_zero_or_pos n with rfl | hn
    · rfl
    · rw [decimal_of_pos hn, number_append, ih _ (Nat.div_lt_self hn (by omega)), number_singleton,
        List.length_singleton, Nat.pow_one, UInt16.toNat_ofNat']
      omega

/-- A number is read back from its text. -/
theorem number_numberText (n : ℕ) : number (numberText n) = n := by
  unfold numberText
  split
  · next h => exact h ▸ rfl
  · exact number_decimal n

/-- The text of a number is made of digits. -/
theorem isDigit_numberText (h : u ∈ numberText n) : isDigit u = true := by
  unfold numberText at h
  split at h
  · rw [List.mem_singleton.1 (show u ∈ [48] from h)]
    rfl
  · exact isDigit_of_mem_decimal h

/-- A number has at most `k` digits when it is below the `k`-th power of ten. -/
theorem length_numberText {k : ℕ} (hk : 0 < k) :
    ((numberText n).length ≤ k ↔ n < 10 ^ k) := by
  unfold numberText
  split
  · next h =>
    subst h
    exact iff_of_true hk (Nat.pow_pos (by omega))
  · rw [decimal, List.length_reverse, List.length_map, Nat.digits_length_le_iff (by omega)]

/-- Every number has a digit, zero too. -/
theorem numberText_ne_nil : numberText n ≠ [] := by
  intro h
  unfold numberText at h
  split at h
  · cases h
  · next hn =>
    rw [decimal, List.reverse_eq_nil_iff, List.map_eq_nil_iff, Nat.digits_eq_nil_iff_eq_zero] at h
    exact hn h

/-- A padded number below a hundred has two units, whether or not a zero was put before it. -/
theorem length_pad2 (h : n < 100) : (pad2 n).length = 2 := by
  have hle := (length_numberText (n := n) (k := 2) (by omega)).2 (by omega)
  have hpos := List.length_pos_iff.2 (@numberText_ne_nil n)
  unfold pad2
  split
  · rw [List.length_cons]
    omega
  · omega

/-- A padded number is read back. -/
theorem number_pad2 (n : ℕ) : number (pad2 n) = n := by
  unfold pad2
  split
  · rw [show 48 :: numberText n = [48] ++ numberText n from rfl, number_append, number_numberText,
      number_singleton]
    simp
  · exact number_numberText n

/-- A padded number is made of digits. -/
theorem isDigit_pad2 (h : u ∈ pad2 n) : isDigit u = true := by
  unfold pad2 at h
  split at h
  · rcases List.mem_cons.1 h with rfl | h
    · rfl
    · exact isDigit_numberText h
  · exact isDigit_numberText h

end Digits

/-! ## Keys and dates -/

section Keys

variable {y m d key : Units} {c : Civil}

/-- A text of four, two and two digits has the form of a date, and its numbers are
those of the parts. -/
theorem keyNumbers_append (hy : y.length = 4) (hm : m.length = 2) (hd : d.length = 2)
    (hdigits : ∀ u ∈ y ++ (m ++ d), isDigit u = true) :
    isDateText (y ++ 45 :: (m ++ 45 :: d)) = true ∧
      keyNumbers (y ++ 45 :: (m ++ 45 :: d)) = some (number y, number m, number d) := by
  match y, hy, m, hm, d, hd with
  | [y₁, y₂, y₃, y₄], _, [m₁, m₂], _, [d₁, d₂], _ =>
    have htext : isDateText ([y₁, y₂, y₃, y₄] ++ 45 :: ([m₁, m₂] ++ 45 :: [d₁, d₂])) = true :=
      isDateText_iff.2 ⟨y₁, y₂, y₃, y₄, m₁, m₂, d₁, d₂, rfl, hdigits⟩
    exact ⟨htext, by rw [keyNumbers, if_pos htext]; rfl⟩

/-- The parts of a text of the form of a date. -/
theorem exists_parts (h : isDateText key = true) : ∃ y m d : Units, y.length = 4 ∧ m.length = 2 ∧
    d.length = 2 ∧ (∀ u ∈ y ++ (m ++ d), isDigit u = true) ∧ key = y ++ 45 :: (m ++ 45 :: d) := by
  obtain ⟨y₁, y₂, y₃, y₄, m₁, m₂, d₁, d₂, rfl, hdigits⟩ := isDateText_iff.1 h
  exact ⟨[y₁, y₂, y₃, y₄], [m₁, m₂], [d₁, d₂], rfl, rfl, rfl, hdigits, rfl⟩

/-- The lengths of the months are those of the civil calendar. -/
theorem daysIn_eq (year month : ℕ) : Civil.daysIn year month = daysIn year month := by
  unfold Civil.daysIn daysIn Civil.IsLeap
  norm_cast

/-- `Date.UTC` of a month of the year, from the year 100 on. -/
theorem utcDay_eq {y d : ℤ} {m : ℕ} (hy : 100 ≤ y ∨ y < 0) (hm : 1 ≤ m) (hm' : m ≤ 12) :
    utcDay y m d = Civil.dayFromYear y + Civil.daysBefore y (m - 1) + d - 1 := by
  unfold utcDay
  rw [if_neg (by omega), show ((m : ℤ) - 1) / 12 = 0 by omega, Int.add_zero,
    show (((m : ℤ) - 1) % 12).toNat = m - 1 by omega]

/-- The date of a valid key. -/
structure Names (key : Units) (c : Civil) : Prop where
  numbers : keyNumbers key = some (c.year.toNat, c.month, c.day)
  year_ge : 100 ≤ c.year
  year_le : c.year ≤ 9999

/-- A valid key names a date of the calendar, with the numbers of its parts. -/
theorem exists_names (h : isValidDateKey key = true) : ∃ c, Names key c := by
  simp only [isValidDateKey, Bool.and_eq_true, decide_eq_true_eq] at h
  obtain ⟨⟨⟨⟨⟨htext, hyear⟩, hmonth⟩, hmonth'⟩, hday⟩, hday'⟩ := h
  obtain ⟨y, m, d, hy, hm, hd, hdigits, rfl⟩ := exists_parts htext
  obtain ⟨-, hnumbers⟩ := keyNumbers_append hy hm hd hdigits
  have hparts := hnumbers
  rw [keyNumbers, if_pos htext, Option.some.injEq, Prod.mk.injEq, Prod.mk.injEq] at hparts
  rw [hparts.1] at hyear hday'
  rw [hparts.2.1] at hmonth hmonth' hday'
  rw [hparts.2.2] at hday hday'
  have hlt := number_lt fun u hu => hdigits u (List.mem_append_left _ hu)
  rw [hy] at hlt
  exact ⟨⟨number y, number m, number d, hmonth, hmonth', hday, by rwa [daysIn_eq]⟩,
    hnumbers, Int.ofNat_le.2 hyear, Int.ofNat_le.2 (Nat.le_of_lt_succ hlt)⟩

/-- The text of a date is a valid key when its year has three digits or more and four at most:
`Date.UTC` reads smaller years as those of the 20th century. -/
theorem isValidDateKey_of_names (h : Names key c) : isValidDateKey key = true := by
  have hnumbers := h.numbers
  unfold keyNumbers at hnumbers
  split at hnumbers
  · next htext =>
    have hge := h.year_ge
    simp only [Option.some.injEq, Prod.mk.injEq] at hnumbers
    obtain ⟨hyear, hmonth, hday⟩ := hnumbers
    have hle := c.day_le
    rw [show c.year = (c.year.toNat : ℤ) by omega, daysIn_eq] at hle
    simp only [isValidDateKey, htext, hyear, hmonth, hday, Bool.true_and, Bool.and_eq_true,
      decide_eq_true_eq]
    exact ⟨⟨⟨⟨by omega, c.one_le_month⟩, c.month_le⟩, c.one_le_day⟩, hle⟩
  · cases hnumbers

/-- The day a key names. -/
def dayOfKey (key : Units) : ℤ := (keyNumbers key).elim 0 fun (y, m, d) => utcDay y m d

/-- `Date.UTC` of a key's parts, moved by days, is the day that many later. -/
theorem Names.utcDay (h : Names key c) (n : ℤ) :
    utcDay c.year.toNat c.month (c.day + n) = c.toDay + n := by
  have hge := h.year_ge
  rw [show (c.year.toNat : ℤ) = c.year by omega, utcDay_eq (.inl hge) c.one_le_month c.month_le,
    Civil.toDay]
  omega

/-- The day of a key is the one it names. -/
theorem Names.dayOfKey (h : Names key c) : dayOfKey key = c.toDay := by
  have hday := h.utcDay 0
  rw [Int.add_zero, Int.add_zero] at hday
  rw [Calendar.dayOfKey, h.numbers]
  exact hday

/-- A date of the years with at most four digits is within reach of `Date`. -/
theorem natAbs_toDay_le (h : 0 ≤ c.year) (h' : c.year ≤ 9999) : c.toDay.natAbs ≤ 100000000 := by
  obtain ⟨hlow, hhigh⟩ := c.toDay_bounds
  have hfirst := Civil.dayFromYear_le_iff.2 h
  have hlast := Civil.dayFromYear_le_iff.2 (show c.year + 1 ≤ 10000 by omega)
  rw [show Civil.dayFromYear 0 = -719528 from rfl] at hfirst
  rw [show Civil.dayFromYear 10000 = 2932897 from rfl] at hlast
  omega

/-- The year of a key has at most four digits, since its text has four units for it. -/
theorem year_lt {y m d : ℕ} (h : keyNumbers key = some (y, m, d)) : y < 10000 := by
  unfold keyNumbers at h
  split at h
  · next htext =>
    obtain ⟨y', m', d', hy, hm, hd, hdigits, rfl⟩ := exists_parts htext
    obtain ⟨-, hnumbers⟩ := keyNumbers_append hy hm hd hdigits
    rw [keyNumbers, if_pos htext, h] at hnumbers
    have hlt := number_lt fun u hu => hdigits u (List.mem_append_left _ hu)
    rw [hy] at hlt
    simp only [Option.some.injEq, Prod.mk.injEq] at hnumbers
    omega
  · cases h

/-- `Date.UTC` never gives a year before 100 back: it adds 1900 to a year up to 99. -/
theorem year_of_early {y m d : ℕ} {dt : Civil} (hy : y ≤ 99)
    (h : timeClip (utcDay y m d) = some dt) : 100 ≤ dt.year := by
  unfold timeClip at h
  split at h
  · obtain rfl := Option.some.inj h
    have hle : Civil.dayFromYear 1899 ≤ Civil.dayFromYear (1900 + y + ((m : ℤ) - 1) / 12) :=
      Civil.dayFromYear_le_iff.2 (by omega)
    have hday : Civil.dayFromYear 1899 - 1 ≤ utcDay y m d := by
      rw [utcDay, if_pos (by omega)]
      omega
    have hbound := (Civil.ofDay (utcDay y m d)).toDay_bounds.2
    rw [Civil.toDay_ofDay] at hbound
    by_contra hlt
    have hsmall := Civil.dayFromYear_le_iff.2
      (show (Civil.ofDay (utcDay y m d)).year + 1 ≤ 1898 by omega)
    rw [show Civil.dayFromYear 1898 = -26297 from rfl] at hsmall
    rw [show Civil.dayFromYear 1899 = -25932 from rfl] at hday
    omega
  · cases h

/-- `isValidDateKey` accepts exactly the texts whose date `Date.UTC` gives back, which is how the
source checks them. -/
theorem givesBack_eq (key : Units) : givesBack key = isValidDateKey key := by
  rw [Bool.eq_iff_iff]
  constructor
  · intro h
    unfold givesBack at h
    split at h
    · cases h
    · next y m d hnumbers =>
      obtain ⟨dt, hdt, hparts⟩ := (Option.any_eq_true _ _).1 h
      simp only [Bool.and_eq_true, decide_eq_true_eq] at hparts
      obtain ⟨⟨hy, hm⟩, hd⟩ := hparts
      have hyear := year_lt hnumbers
      have hge : 100 ≤ dt.year := by
        rw [hy]
        by_contra hlt
        -- a year before 100 is taken for one after 1900
        have := hy ▸ year_of_early (by omega) (Option.mem_def.1 hdt)
        omega
      exact isValidDateKey_of_names ⟨by rw [hnumbers]; simp [hy, hm, hd], hge, by omega⟩
  · intro h
    obtain ⟨c, hc⟩ := exists_names h
    have hday := hc.utcDay 0
    have hge := hc.year_ge
    rw [Int.add_zero, Int.add_zero] at hday
    rw [givesBack, hc.numbers]
    dsimp only
    rw [hday, timeClip, if_pos (natAbs_toDay_le (by omega) hc.year_le)]
    simp only [Option.any_some, Civil.ofDay_toDay, decide_true, Bool.and_true, decide_eq_true_eq]
    omega

/-! ## The order of keys -/

/-- Valid keys stand in the order of their days, and no two of them name one day. -/
theorem key_lt_iff {key' : Units} (h : isValidDateKey key = true)
    (h' : isValidDateKey key' = true) :
    (key < key' ↔ dayOfKey key < dayOfKey key') ∧ (key = key' ↔ dayOfKey key = dayOfKey key') := by
  obtain ⟨c, hc⟩ := exists_names h
  obtain ⟨c', hc'⟩ := exists_names h'
  obtain ⟨y, m, d, hy, hm, hd, hdigits, rfl⟩ := exists_parts (isDateText_of_valid h)
  obtain ⟨y', m', d', hy', hm', hd', hdigits', rfl⟩ := exists_parts (isDateText_of_valid h')
  have hnumbers := hc.numbers
  have hnumbers' := hc'.numbers
  rw [(keyNumbers_append hy hm hd hdigits).2, Option.some.injEq, Prod.mk.injEq,
    Prod.mk.injEq] at hnumbers
  rw [(keyNumbers_append hy' hm' hd' hdigits').2, Option.some.injEq, Prod.mk.injEq, Prod.mk.injEq]
    at hnumbers'
  simp only [List.forall_mem_append] at hdigits hdigits'
  obtain ⟨hylt, hyeq⟩ := digits_order (hy.trans hy'.symm) hdigits.1 hdigits'.1
  obtain ⟨hmlt, hmeq⟩ := digits_order (hm.trans hm'.symm) hdigits.2.1 hdigits'.2.1
  obtain ⟨hdlt, hdeq⟩ := digits_order (hd.trans hd'.symm) hdigits.2.2 hdigits'.2.2
  have hge := hc.year_ge
  have hge' := hc'.year_ge
  have hday : dayOfKey (y ++ 45 :: (m ++ 45 :: d)) < dayOfKey (y' ++ 45 :: (m' ++ 45 :: d')) ↔
      y ++ 45 :: (m ++ 45 :: d) < y' ++ 45 :: (m' ++ 45 :: d') := by
    rw [hc.dayOfKey, hc'.dayOfKey, Civil.toDay_lt_iff, Civil.Before,
      append_lt_append_iff (hy.trans hy'.symm),
      List.cons_lt_cons_iff, append_lt_append_iff (hm.trans hm'.symm),
        List.cons_lt_cons_iff, hylt, hyeq,
      hmlt, hmeq, hdlt]
    simp only [UInt16.lt_irrefl, false_or, true_and]
    omega
  refine ⟨hday.symm, fun heq => congrArg dayOfKey heq, fun heq => ?_⟩
  have hcivil : c = c' := Civil.toDay_injective (by rw [← hc.dayOfKey, heq, hc'.dayOfKey])
  subst hcivil
  rw [hyeq.2 (hnumbers.1.trans hnumbers'.1.symm), hmeq.2 (hnumbers.2.1.trans hnumbers'.2.1.symm),
    hdeq.2 (hnumbers.2.2.trans hnumbers'.2.2.symm)]

/-- The day numbers that the history of the week pattern is read with. -/
theorem dayOrder_dayOfKey : DayOrder dayOfKey := fun _ _ h h' => (key_lt_iff h h').1

/-- The two layers of the week pattern agree. The stored history is one with the days that its keys
name; a date has the weekdays of its day; and what `setWeekPattern` accepts changes that history
from the day of its date on, with the weekdays that date by date are those of the row it leaves. -/
theorem setWeekPattern_shows (raw : StoredCalendar) :
    ∃ h, Shows dayOfKey raw.history h ∧
      (∀ weekPattern date, isValidDateKey date = true →
        patternOn weekPattern raw.history date = h.patternOn ⟨dayOfKey date⟩) ∧
      ∀ lockedMonths today days from' raw' entry, isValidDateKey today = true →
        setWeekPattern raw lockedMonths today days from' = .ok (raw', entry) →
        Shows dayOfKey raw'.history (h.withPatternFrom ⟨dayOfKey entry.since⟩ entry.days) ∧
          ∀ weekPattern date, isValidDateKey date = true →
            patternOn weekPattern raw'.history date =
              (h.withPatternFrom ⟨dayOfKey entry.since⟩ entry.days).patternOn ⟨dayOfKey date⟩ := by
  have hs : Sound raw.history := sound_patternHistoryFromStored _ _
  obtain ⟨h, hshows⟩ := hs.exists_shows dayOrder_dayOfKey
  refine ⟨h, hshows, fun weekPattern date hd => hshows.patternOn dayOrder_dayOfKey hs hd
    weekPattern, fun lockedMonths today days from' raw' entry htoday hset => ?_⟩
  obtain ⟨hdays, hsince, rfl⟩ := setWeekPattern_eq_ok htoday hset
  have hchanged : Shows dayOfKey (raw.change entry.since entry.days).history
      (h.withPatternFrom ⟨dayOfKey entry.since⟩ entry.days) := by
    rw [history_change hsince (isWeek_of_check hdays)]
    exact hshows.withPatternFrom dayOrder_dayOfKey hs hsince
  exact ⟨hchanged, fun weekPattern date hd =>
    hchanged.patternOn dayOrder_dayOfKey (sound_patternHistoryFromStored _ _) hd weekPattern⟩

/-! ## Printing a date -/

/-- A printed date is a key that names it, when its year has four digits. -/
theorem names_dateText (hy : 1000 ≤ c.year) (hy' : c.year ≤ 9999) : Names (dateText c) c := by
  have hyear : yearText c.year = numberText c.year.toNat := if_neg (by omega)
  have hlen : (numberText c.year.toNat).length = 4 := by
    have hle := (length_numberText (n := c.year.toNat) (k := 4) (by omega)).2 (by omega)
    have hlt := mt (length_numberText (n := c.year.toNat) (k := 3) (by omega)).1 (by omega)
    omega
  have hmonth := c.month_le
  have hday := c.day_le.trans Civil.daysIn_le
  refine ⟨?_, by omega, hy'⟩
  rw [dateText, hyear,
    (keyNumbers_append hlen (length_pad2 (by omega)) (length_pad2 (by omega)) ?_).2,
    number_numberText, number_pad2, number_pad2]
  intro u hu
  rcases List.mem_append.1 hu with hu | hu
  · exact isDigit_numberText hu
  · exact (List.mem_append.1 hu).elim isDigit_pad2 isDigit_pad2

/-- A printed date whose year does not have four digits is no date key: its text is
longer, or has a sign. -/
theorem isDateText_dateText (h : isDateText (dateText c) = true) :
    1000 ≤ c.year ∧ c.year ≤ 9999 := by
  have hlen : (dateText c).length = 10 := by
    obtain ⟨y, m, d, hy, hm, hd, -, heq⟩ := exists_parts h
    rw [heq]
    simp [hy, hm, hd]
  have hmonth := c.month_le
  have hday := c.day_le.trans Civil.daysIn_le
  rw [dateText, List.length_append, List.length_cons, List.length_append, List.length_cons,
    length_pad2 (by omega), length_pad2 (by omega)] at hlen
  have hfour : (yearText c.year).length = 4 := by omega
  have hsign : ¬ c.year < 0 := by
    intro hneg
    obtain ⟨y₁, y₂, y₃, y₄, m₁, m₂, d₁, d₂, heq, hdigits⟩ := isDateText_iff.1 h
    rw [dateText, yearText, if_pos hneg, List.cons_append] at heq
    have hdash := hdigits y₁ List.mem_cons_self
    rw [← (List.cons.inj heq).1] at hdash
    exact absurd hdash (by decide)
  rw [yearText, if_neg hsign] at hfour
  have hle := (length_numberText (n := c.year.toNat) (k := 4) (by omega)).1 (by omega)
  have hlt := mt (length_numberText (n := c.year.toNat) (k := 3) (by omega)).2 (by omega)
  omega

/-! ## Moving a key -/

/-- The days of the years with four digits. -/
def FourDigits (i : ℤ) : Prop := Civil.dayFromYear 1000 ≤ i ∧ i < Civil.dayFromYear 10000

/-- A day has four digits for its year from 1000 to 9999. -/
theorem fourDigits_iff {i : ℤ} :
    FourDigits i ↔ 1000 ≤ (Civil.ofDay i).year ∧ (Civil.ofDay i).year ≤ 9999 := by
  rw [FourDigits, Civil.le_year_ofDay, ← Int.lt_add_one_iff (b := 9999), ← not_le, ← not_le,
    show (9999 : ℤ) + 1 = 10000 from rfl, Civil.le_year_ofDay]

/-- `addDaysToKey` prints the day that many later, or no date at all. -/
theorem Names.addDaysToKey (h : Names key c) (n : ℤ) :
    addDaysToKey key n = (timeClip (c.toDay + n)).elim (text "NaN-NaN-NaN") dateText := by
  rw [Calendar.addDaysToKey, h.numbers, Option.bind_some]
  dsimp only
  rw [h.utcDay]

/-- The key of a day with a year of four digits. -/
theorem names_ofDay {i : ℤ} (h : FourDigits i) : Names (dateText (Civil.ofDay i)) (Civil.ofDay i) :=
  names_dateText (fourDigits_iff.1 h).1 (fourDigits_iff.1 h).2

/-- Moving a valid key gives the key of the day meant when that has a year of four digits. -/
theorem Names.addDaysToKey_eq (h : Names key c) {n : ℤ} (hn : FourDigits (c.toDay + n)) :
    Calendar.addDaysToKey key n = dateText (Civil.ofDay (c.toDay + n)) := by
  have hyear := fourDigits_iff.1 hn
  have hreach := natAbs_toDay_le (c := Civil.ofDay (c.toDay + n)) (by omega) hyear.2
  rw [Civil.toDay_ofDay] at hreach
  rw [h.addDaysToKey, timeClip, if_pos hreach]
  rfl

/-- Moving a valid key by some days gives a valid key exactly when the day meant has a
year of four digits. -/
theorem isValidDateKey_addDaysToKey (h : isValidDateKey key = true) (n : ℤ) :
    isValidDateKey (addDaysToKey key n) = true ↔ FourDigits (dayOfKey key + n) := by
  obtain ⟨c, hc⟩ := exists_names h
  rw [hc.dayOfKey]
  constructor
  · intro hvalid
    rw [hc.addDaysToKey, timeClip] at hvalid
    split at hvalid
    · exact fourDigits_iff.2 (isDateText_dateText (isDateText_of_valid hvalid))
    · exact absurd hvalid (by decide)
  · intro hn
    rw [hc.addDaysToKey_eq hn]
    exact isValidDateKey_of_names (names_ofDay hn)

/-- Moving a key moves its day, as long as the year has four digits. -/
theorem dayOfKey_addDaysToKey (h : isValidDateKey key = true) {n : ℤ}
    (hn : FourDigits (dayOfKey key + n)) : dayOfKey (addDaysToKey key n) = dayOfKey key + n := by
  obtain ⟨c, hc⟩ := exists_names h
  rw [hc.dayOfKey] at hn ⊢
  rw [hc.addDaysToKey_eq hn, (names_ofDay hn).dayOfKey, Civil.toDay_ofDay]

/-- The weekday that the text of a key is given is the weekday of its day number. -/
theorem isoWeekdayOfKey_eq (h : isValidDateKey key = true) :
    isoWeekdayOfKey key = some (RxVision.isoWeekdayOfKey ⟨dayOfKey key⟩) := by
  obtain ⟨c, hc⟩ := exists_names h
  have hday := hc.utcDay 0
  rw [Int.add_zero, Int.add_zero] at hday
  rw [isoWeekdayOfKey, hc.numbers, hc.dayOfKey, RxVision.isoWeekdayOfKey, Option.map_some]
  dsimp only
  rw [hday, Option.some_inj]
  split <;> omega

/-- Date keys are days. A valid key stands before another exactly when its day does, and is that key
exactly when its day is; each day of a year with four digits has a key; moving a key leads to the
key of the day meant exactly when that is such a day; and the weekday is that of the day. -/
theorem dateKeys_are_days :
    (∀ key key', isValidDateKey key = true → isValidDateKey key' = true →
      (key < key' ↔ dayOfKey key < dayOfKey key') ∧ (key = key' ↔ dayOfKey key = dayOfKey key')) ∧
    (∀ i, FourDigits i → ∃! key, isValidDateKey key = true ∧ dayOfKey key = i) ∧
    (∀ key, isValidDateKey key = true → ∀ n,
      (isValidDateKey (addDaysToKey key n) = true ↔ FourDigits (dayOfKey key + n)) ∧
      (FourDigits (dayOfKey key + n) →
        dayOfKey (addDaysToKey key n) = (RxVision.addDaysToKey ⟨dayOfKey key⟩ n).day)) ∧
    ∀ key, isValidDateKey key = true →
      isoWeekdayOfKey key = some (RxVision.isoWeekdayOfKey ⟨dayOfKey key⟩) := by
  refine ⟨fun key key' h h' => key_lt_iff h h', fun i hi => ?_, fun key h n => ?_,
    fun key h => isoWeekdayOfKey_eq h⟩
  · have hnames := names_ofDay hi
    have hday : dayOfKey (dateText (Civil.ofDay i)) = i := by
      rw [hnames.dayOfKey, Civil.toDay_ofDay]
    refine ⟨_, ⟨isValidDateKey_of_names hnames, hday⟩, fun key h => ?_⟩
    exact (key_lt_iff h.1 (isValidDateKey_of_names hnames)).2.2 (h.2.trans hday.symm)
  · exact ⟨isValidDateKey_addDaysToKey h n, dayOfKey_addDaysToKey h⟩

end Keys

/-! ## The dates of a month -/

section Months

variable {month key : Units} {rounds : ℕ}

/-- A month like 2026-10: the first and the last of its dates. -/
structure MonthOf (month : Units) (first last : Civil) : Prop where
  year_eq : first.year = last.year
  month_eq : first.month = last.month
  first_day : first.day = 1
  last_day : last.day = Civil.daysIn last.year last.month
  parts : ∃ y m, y.length = 4 ∧ m.length = 2 ∧ (∀ u ∈ y ++ m, isDigit u = true) ∧
    month = y ++ 45 :: m ∧ (number y : ℤ) = last.year ∧ number m = last.month

/-- A valid month from the year 1000 on has its first and its last date, both with
years of four digits. -/
theorem exists_monthOf (h : isValidMonth month = true) (hy : 1000 ≤ number (month.take 4)) :
    ∃ first last, MonthOf month first last ∧ FourDigits first.toDay ∧ FourDigits last.toDay := by
  unfold isValidMonth at h
  split at h
  · next y₁ y₂ y₃ y₄ s m₁ m₂ =>
    simp only [Bool.and_eq_true, Bool.or_eq_true, beq_iff_eq, decide_eq_true_eq, List.all_eq_true,
      UInt16.le_iff_toNat_le, UInt16.reduceToNat] at h
    obtain ⟨⟨hdigits, rfl⟩, hm⟩ := h
    have hnumber : number [m₁, m₂] = 10 * (m₁.toNat - 48) + (m₂.toNat - 48) := by simp [number]
    have hmonth : 1 ≤ number [m₁, m₂] ∧ number [m₁, m₂] ≤ 12 ∧ 48 ≤ m₁.toNat ∧ m₁.toNat ≤ 57 ∧
        48 ≤ m₂.toNat ∧ m₂.toNat ≤ 57 := by
      rcases hm with ⟨⟨rfl, hm⟩, hm'⟩ | ⟨⟨rfl, hm⟩, hm'⟩ <;>
        rw [hnumber] <;> simp only [UInt16.reduceToNat] <;> omega
    have hlt := number_lt hdigits
    rw [show ([y₁, y₂, y₃, y₄, 45, m₁, m₂] : Units).take 4 = [y₁, y₂, y₃, y₄] from rfl] at hy
    rw [show ([y₁, y₂, y₃, y₄] : Units).length = 4 from rfl] at hlt
    refine ⟨⟨number [y₁, y₂, y₃, y₄], number [m₁, m₂], 1, hmonth.1, hmonth.2.1, Nat.le_refl 1,
        (by decide : 1 ≤ 28).trans Civil.daysIn_pos⟩,
      ⟨number [y₁, y₂, y₃, y₄], number [m₁, m₂], _, hmonth.1, hmonth.2.1,
        (by decide : 1 ≤ 28).trans Civil.daysIn_pos, Nat.le_refl _⟩,
      ⟨rfl, rfl, rfl, rfl, [y₁, y₂, y₃, y₄], [m₁, m₂], rfl, rfl, ?_, rfl, rfl, rfl⟩,
      fourDigits_iff.2 ?_, fourDigits_iff.2 ?_⟩
    · intro u hu
      rcases List.mem_append.1 hu with hu | hu
      · exact hdigits u hu
      · simp only [List.mem_cons, List.not_mem_nil, or_false] at hu
        simp only [isDigit, Bool.and_eq_true, decide_eq_true_eq, UInt16.le_iff_toNat_le,
          UInt16.reduceToNat]
        rcases hu with rfl | rfl <;> omega
    · rw [Civil.ofDay_toDay]
      exact ⟨Int.ofNat_le.2 hy, by show (number _ : ℤ) ≤ 9999; omega⟩
    · rw [Civil.ofDay_toDay]
      exact ⟨Int.ofNat_le.2 hy, by show (number _ : ℤ) ≤ 9999; omega⟩
  · cases h

variable {first last : Civil}

/-- A date of a month, as `monthDates` and `datesOfMonth` print it, is a valid key of the
day it should be. -/
theorem MonthOf.names (h : MonthOf month first last) (hf : FourDigits first.toDay) {d : ℕ}
    (hd : 1 ≤ d) (hle : d ≤ last.day) :
    isValidDateKey (month ++ 45 :: pad2 d) = true ∧
      dayOfKey (month ++ 45 :: pad2 d) = first.toDay + (d - 1) := by
  obtain ⟨y, m, hy, hm, hdigits, rfl, hyear, hmonth⟩ := h.parts
  have hlt := last.day_le.trans Civil.daysIn_le
  have hbounds := fourDigits_iff.1 hf
  rw [Civil.ofDay_toDay] at hbounds
  let c : Civil :=
    ⟨last.year, last.month, d, last.one_le_month, last.month_le, hd, hle.trans last.day_le⟩
  have hnames : Names (y ++ 45 :: m ++ 45 :: pad2 d) c := by
    refine ⟨?_, by rw [← h.year_eq] at *; omega, by rw [← h.year_eq] at *; omega⟩
    rw [List.append_assoc, List.cons_append,
      (keyNumbers_append hy hm (length_pad2 (by omega)) ?_).2,
      number_pad2]
    · rw [hmonth, ← hyear, Int.toNat_natCast]
    · intro u hu
      rw [← List.append_assoc] at hu
      exact (List.mem_append.1 hu).elim (hdigits u) isDigit_pad2
  refine ⟨isValidDateKey_of_names hnames, ?_⟩
  have hadd := Civil.toDay_add_day c first h.year_eq.symm h.month_eq.symm
  rw [h.first_day] at hadd
  rw [hnames.dayOfKey]
  show c.toDay = _
  simp only [c] at hadd ⊢
  omega

/-- A valid key that begins with the month is one of its dates. -/
theorem MonthOf.of_prefix (h : MonthOf month first last) (hk : isValidDateKey key = true)
    (hp : month <+: key) :
    ∃ d, 1 ≤ d ∧ d ≤ last.day ∧ dayOfKey key = first.toDay + ((d : ℕ) - 1) := by
  obtain ⟨y, m, hy, hm, hdigits, rfl, hyear, hmonth⟩ := h.parts
  obtain ⟨c, hc⟩ := exists_names hk
  obtain ⟨y', m', d, hy', hm', hd, hdigits', rfl⟩ := exists_parts (isDateText_of_valid hk)
  have hnumbers := hc.numbers
  rw [(keyNumbers_append hy' hm' hd hdigits').2, Option.some.injEq, Prod.mk.injEq,
    Prod.mk.injEq] at hnumbers
  rw [show y' ++ 45 :: (m' ++ 45 :: d) = (y' ++ 45 :: m') ++ 45 :: d by simp] at hp
  have heq : y ++ 45 :: m = y' ++ 45 :: m' :=
    List.prefix_of_prefix_length_le hp (List.prefix_append _ _) (by simp [hy, hy', hm, hm'])
      |>.eq_of_length (by simp [hy, hy', hm, hm'])
  obtain ⟨rfl, hcons⟩ := List.append_inj heq (hy.trans hy'.symm)
  obtain rfl := (List.cons.inj hcons).2
  have hge := hc.year_ge
  have hcyear : c.year = last.year := by omega
  have hcmonth : c.month = last.month := by omega
  have hadd := Civil.toDay_add_day c first (hcyear.trans h.year_eq.symm)
    (hcmonth.trans h.month_eq.symm)
  rw [h.first_day] at hadd
  have hle := c.day_le
  rw [hcyear, hcmonth, ← h.last_day] at hle
  exact ⟨c.day, c.one_le_day, hle, by rw [hc.dayOfKey]; omega⟩

/-- The last of a month is the day before the first of the next, which is how `monthDates`
finds its length. -/
theorem MonthOf.utcDay (h : MonthOf month first last) (hy : 1000 ≤ last.year) :
    Calendar.utcDay last.year (last.month + 1) 0 = last.toDay := by
  have hbefore : last.toDay = Civil.dayFromYear last.year + Civil.daysBefore last.year
      last.month - 1 := by
    obtain ⟨k, hk⟩ := Nat.exists_eq_add_of_le' last.one_le_month
    have hlast := h.last_day
    rw [hk] at hlast
    rw [Civil.toDay, hk, hlast, Nat.add_sub_cancel, Civil.daysBefore]
    push_cast
    ring
  rw [hbefore]
  rcases Nat.lt_or_eq_of_le last.month_le with hlt | heq
  · rw [show ((last.month : ℤ) + 1) = ((last.month + 1 : ℕ) : ℤ) by push_cast; rfl,
      utcDay_eq (.inl (by omega)) (by omega) hlt, Nat.succ_sub_one, Int.add_zero]
  · -- after December comes January of the next year
    rw [heq, Calendar.utcDay, if_neg (by omega), Civil.daysBefore_twelve]
    show Civil.dayFromYear (last.year + 1) + 0 + 0 - 1 = _
    rw [Civil.dayFromYear_succ]
    omega

/-- `monthDates` lists the days of the month one by one, from the first to the last. -/
theorem MonthOf.monthDates_eq (h : MonthOf month first last) (hy : 1000 ≤ last.year) :
    monthDates month = (List.range last.day).map fun i => month ++ 45 :: pad2 (i + 1) := by
  obtain ⟨y, m, hlen, hm, hdigits, rfl, hyear, hmonth⟩ := h.parts
  have hday := h.utcDay hy
  rw [monthDates, show (y ++ 45 :: m).take 4 = y by rw [← hlen]; exact List.take_left,
    show (y ++ 45 :: m).drop 5 = m by
      rw [show y ++ 45 :: m = (y ++ [45]) ++ m by simp]
      exact List.drop_left' (by simp [hlen]),
    hyear, hmonth, hday, Civil.ofDay_toDay]

/-- The dates of a month follow one another from its first day, as day numbers. -/
theorem MonthOf.days (h : MonthOf month first last) (hf : FourDigits first.toDay)
    (hy : 1000 ≤ last.year) :
    (monthDates month).map dayOfKey = (List.range last.day).map fun i : ℕ => first.toDay + i := by
  rw [h.monthDates_eq hy, List.map_map]
  refine List.map_congr_left fun i hi => ?_
  show dayOfKey (month ++ 45 :: pad2 (i + 1)) = _
  rw [(h.names hf (by omega) (List.mem_range.1 hi)).2]
  push_cast
  ring

/-- The dates of a month are exactly the valid keys that start with it. -/
theorem MonthOf.mem_monthDates (h : MonthOf month first last) (hf : FourDigits first.toDay)
    (hy : 1000 ≤ last.year) :
    key ∈ monthDates month ↔ isValidDateKey key = true ∧ month <+: key := by
  rw [h.monthDates_eq hy]
  constructor
  · intro hkey
    obtain ⟨i, hi, rfl⟩ := List.mem_map.1 hkey
    exact ⟨(h.names hf (by omega) (List.mem_range.1 hi)).1, List.prefix_append _ _⟩
  · rintro ⟨hvalid, hp⟩
    obtain ⟨d, hd, hle, hday⟩ := h.of_prefix hvalid hp
    obtain ⟨hvalid', hday'⟩ := h.names hf hd hle
    refine List.mem_map.2 ⟨d - 1, List.mem_range.2 (by omega), ?_⟩
    rw [Nat.sub_add_cancel hd]
    exact ((key_lt_iff hvalid hvalid').2.2 (hday.trans hday'.symm)).symm

/-- The day after a date of the month is its next date, or after the last one no date
of the month. -/
theorem MonthOf.next (h : MonthOf month first last) (hf : FourDigits first.toDay)
    (hl : FourDigits last.toDay) {d : ℕ} (hd : 1 ≤ d) (hle : d ≤ last.day) :
    if d < last.day then addDaysToKey (month ++ 45 :: pad2 d) 1 = month ++ 45 :: pad2 (d + 1)
    else month.isPrefixOf (addDaysToKey (month ++ 45 :: pad2 d) 1) = false := by
  obtain ⟨hvalid, hday⟩ := h.names hf hd hle
  have hlast := Civil.toDay_add_day _ _ h.year_eq h.month_eq
  rw [h.first_day] at hlast
  split
  · next hlt =>
    obtain ⟨hvalid', hday'⟩ := h.names hf (d := d + 1) (by omega) hlt
    have hin : FourDigits (dayOfKey (month ++ 45 :: pad2 d) + 1) := by
      unfold FourDigits at *
      rw [hday]
      omega
    refine (key_lt_iff ((isValidDateKey_addDaysToKey hvalid 1).2 hin) hvalid').2.2 ?_
    rw [dayOfKey_addDaysToKey hvalid hin, hday, hday']
    push_cast
    ring
  · next hlt =>
    obtain rfl : d = last.day := by omega
    rw [← Bool.not_eq_true, List.isPrefixOf_iff_prefix]
    intro hp
    by_cases hin : FourDigits (dayOfKey (month ++ 45 :: pad2 last.day) + 1)
    · obtain ⟨d, hd', hle', heq⟩ := h.of_prefix ((isValidDateKey_addDaysToKey hvalid 1).2 hin) hp
      rw [dayOfKey_addDaysToKey hvalid hin, hday] at heq
      omega
    · -- the day after the year 9999 is printed with five digits
      obtain ⟨c, hc⟩ := exists_names hvalid
      have hend : c.toDay + 1 = 2932897 := by
        rw [← hc.dayOfKey]
        unfold FourDigits at hin hf hl
        rw [show Civil.dayFromYear 10000 = 2932897 from rfl] at *
        omega
      rw [hc.addDaysToKey, hend] at hp
      obtain ⟨y, m, hlen, -, -, rfl, -⟩ := h.parts
      match y, hlen with
      | [y₁, y₂, y₃, y₄], _ =>
        obtain ⟨rest, hrest⟩ := hp
        have hfive : ([y₁, y₂, y₃, y₄] ++ 45 :: m ++ rest).take 5 = [y₁, y₂, y₃, y₄, 45] := rfl
        rw [hrest] at hfive
        have hdash : List.drop 4 (List.take 5
            ((timeClip 2932897).elim (text "NaN-NaN-NaN") dateText)) = [45] := congrArg
              (List.drop 4) hfive
        exact absurd hdash (by decide)

/-- The loop of `datesOfMonth` lists the dates from one of the month on, and stops after the last.
By induction on how many are left. -/
theorem MonthOf.datesFrom_eq {rounds : ℕ} (h : MonthOf month first last)
    (hf : FourDigits first.toDay)
    (hl : FourDigits last.toDay) : ∀ {n d : ℕ}, 1 ≤ d → d + n = last.day → n + 2 ≤ rounds →
      datesFrom month rounds (month ++ 45 :: pad2 d) =
        some ((List.range' d (n + 1)).map fun d => month ++ 45 :: pad2 d) := by
  intro n
  induction n generalizing rounds with
  | zero =>
    intro d hd hn hr
    obtain ⟨rounds, rfl⟩ := Nat.exists_eq_add_of_le' hr
    have hnext := h.next hf hl hd (by omega)
    rw [if_neg (by omega)] at hnext
    have hpre : month.isPrefixOf (month ++ 45 :: pad2 d) = true :=
      List.isPrefixOf_iff_prefix.2 (List.prefix_append _ _)
    simp [datesFrom, hpre, hnext]
  | succ n ih =>
    intro d hd hn hr
    obtain ⟨rounds, rfl⟩ := Nat.exists_eq_add_of_le' (show 1 ≤ rounds by omega)
    have hnext := h.next hf hl hd (by omega)
    rw [if_pos (by omega)] at hnext
    have hpre : month.isPrefixOf (month ++ 45 :: pad2 d) = true :=
      List.isPrefixOf_iff_prefix.2 (List.prefix_append _ _)
    rw [datesFrom, if_pos hpre, hnext, ih (by omega) (by omega) (by omega)]
    simp [List.range'_succ]

/-- The dates of a month. For every month from the year 1000 on, the loop of `datesOfMonth` ends
within 32 rounds with the list `monthDates` computes from the length of the month: the valid keys
that start with the month, each once, day after day. -/
theorem datesOfMonth_eq_monthDates (h : isValidMonth month = true)
    (hy : 1000 ≤ number (month.take 4)) (hr : 32 ≤ rounds) :
    datesOfMonth rounds month = some (monthDates month) ∧
      (∀ key, key ∈ monthDates month ↔ isValidDateKey key = true ∧ month <+: key) ∧
      ∃ first : ℤ, (monthDates month).map dayOfKey =
        (List.range (monthDates month).length).map fun i : ℕ => first + i := by
  obtain ⟨first, last, hmonth, hf, hl⟩ := exists_monthOf h hy
  have hyear : 1000 ≤ last.year := by
    have hbounds := fourDigits_iff.1 hl
    rw [Civil.ofDay_toDay] at hbounds
    exact hbounds.1
  have hpos := last.one_le_day
  have hle := last.day_le.trans Civil.daysIn_le
  refine ⟨?_, fun key => hmonth.mem_monthDates hf hyear, first.toDay, ?_⟩
  · have hloop := @MonthOf.datesFrom_eq _ _ _ rounds hmonth hf hl (last.day - 1) 1 (Nat.le_refl 1)
      (by omega) (by omega)
    rw [datesOfMonth, show text "-01" = 45 :: pad2 1 from rfl, hloop, hmonth.monthDates_eq hyear,
      Nat.sub_add_cancel hpos, List.range'_eq_map_range, List.map_map]
    simp only [Function.comp_def, Nat.add_comm 1]
  · rw [hmonth.days hf hyear, hmonth.monthDates_eq hyear, List.length_map, List.length_range]

/-- February 2028 has 29 days, and the loop lists them. -/
theorem datesOfMonth_february :
    datesOfMonth 32 (text "2028-02") = some (monthDates (text "2028-02")) ∧
      (monthDates (text "2028-02")).length = 29 :=
  ⟨(datesOfMonth_eq_monthDates (by decide) (by decide) (Nat.le_refl 32)).1, by decide⟩

end Months

end RxVision.Calendar
