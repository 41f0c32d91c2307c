import Mathlib.Data.List.DropRight
import Mathlib.Data.Nat.Digits.Lemmas

/-!
# Texts

A text is a `String` where nothing depends on its length, else its UTF-16 code units. What
JavaScript's `trim` takes off is more than the ASCII blanks; the same blanks are `\s`.
-/

namespace RxVision

/-- A string, as its UTF-16 code units. -/
abbrev Units : Type := List UInt16

instance : LawfulBEq Units := inferInstance

/-- The units of an ASCII text. -/
def text (s : String) : Units := s.toList.map fun c => UInt16.ofNat c.toNat

/-- `\d`. -/
def isDigit (u : UInt16) : Bool := 48 ≤ u && u ≤ 57

/-- What JavaScript's `trim` takes off. -/
def isSpace (c : Char) : Bool :=
  [9, 10, 11, 12, 13, 32, 160, 0x1680, 0x2028, 0x2029, 0x202F, 0x205F, 0x3000,
    0xFEFF].contains c.toNat
    || (0x2000 ≤ c.toNat && c.toNat ≤ 0x200A)

/-- `trim`. -/
def trim (s : String) : String :=
  String.ofList ((s.toList.dropWhile isSpace).reverse.dropWhile isSpace).reverse

/-! ## Code units -/

/-- `\s`, and what `trim` takes off. -/
def isSpaceUnit (u : UInt16) : Bool :=
  [9, 10, 11, 12, 13, 32, 160, 0x1680, 0x2028, 0x2029, 0x202F, 0x205F, 0x3000, 0xFEFF].contains u
    || (0x2000 ≤ u && u ≤ 0x200A)

/-- `toUpperCase` of one ASCII unit. -/
def upper (u : UInt16) : UInt16 := if 97 ≤ u && u ≤ 122 then u - 32 else u

/-- A letter or digit of ASCII. -/
def isAlnum (u : UInt16) : Bool := isDigit u || (65 ≤ u && u ≤ 90) || (97 ≤ u && u ≤ 122)

/-- A number in decimal. -/
def decimal (n : ℕ) : Units := ((Nat.digits 10 n).map fun d => UInt16.ofNat (48 + d)).reverse

/-- The text without the units of `p` at its ends. -/
def trimBy (p : UInt16 → Bool) (t : Units) : Units := (t.dropWhile p).rdropWhile p

/-- `replace(/p+/g, c)`: one `c` for every run of units of `p`. The flag says
that a run is going on. -/
def replaceRuns (p : UInt16 → Bool) (c : UInt16) : Bool → Units → Units
  | _, [] => []
  | inRun, u :: t =>
    if p u then if inRun then replaceRuns p c true t else c :: replaceRuns p c true t
    else u :: replaceRuns p c false t

section

variable {p : UInt16 → Bool} {c u : UInt16} {b : Bool} {t : Units}

/-- What is left of a trimmed text is of the text. -/
theorem mem_of_mem_trimBy (h : u ∈ trimBy p t) : u ∈ t :=
  (List.dropWhile_sublist p).subset ((List.rdropWhile_prefix p _).subset h)

/-- A trimmed text does not start with what is trimmed. -/
theorem trimBy_head? (h : u ∈ (trimBy p t).head?) : p u = false := by
  obtain ⟨rest, hrest⟩ := List.head?_eq_some_iff.1 h
  obtain ⟨after, hafter⟩ := List.rdropWhile_prefix p (t.dropWhile p)
  have hhead := List.head?_dropWhile_not p t
  rw [← hafter, show (t.dropWhile p).rdropWhile p = u :: rest from hrest] at hhead
  exact hhead

/-- It does not end with it. -/
theorem trimBy_getLast? (h : u ∈ (trimBy p t).getLast?) : p u = false := by
  obtain ⟨rest, hrest⟩ := List.getLast?_eq_some_iff.1 h
  have hne : (t.dropWhile p).rdropWhile p ≠ [] := by
    rw [show (t.dropWhile p).rdropWhile p = rest ++ [u] from hrest]
    simp
  have hlast := List.rdropWhile_last_not p _ hne
  rw [(List.getLast_eq_iff_getLast?_eq_some hne).2 h] at hlast
  exact Bool.eq_false_iff.2 hlast

/-- A text without such units at its ends stays as it is when it is trimmed. -/
theorem trimBy_of_ends (hhead : ∀ u ∈ t.head?, p u = false)
    (hlast : ∀ u ∈ t.getLast?, p u = false) : trimBy p t = t := by
  have hdrop : t.dropWhile p = t := by
    cases t with
    | nil => rfl
    | cons u t => rw [List.dropWhile_cons_of_neg (by simp [hhead u rfl])]
  rw [trimBy, hdrop, List.rdropWhile_eq_self_iff]
  intro hne
  rw [hlast _ (List.getLast?_eq_some_getLast hne)]
  exact Bool.false_ne_true

/-- Replacing the runs once more changes nothing: each run is one replacement already. -/
theorem replaceRuns_idem (hc : p c = true) :
    replaceRuns p c b (replaceRuns p c b t) = replaceRuns p c b t := by
  induction t generalizing b with
  | nil => rfl
  | cons u t ih =>
    rw [replaceRuns]
    split
    · split
      · next hrun =>
        subst hrun
        exact ih
      · next hrun =>
        rw [Bool.not_eq_true] at hrun
        subst hrun
        rw [replaceRuns, if_pos hc, if_neg Bool.false_ne_true, ih]
    · next hu => rw [replaceRuns, if_neg hu, ih]

/-- A unit of the result is the replacement, or was outside the runs. -/
theorem mem_replaceRuns (h : u ∈ replaceRuns p c b t) : u = c ∨ u ∈ t ∧ p u = false := by
  induction t generalizing b with
  | nil => cases h
  | cons u' t ih =>
    rw [replaceRuns] at h
    split at h
    · split at h
      · exact (ih h).imp_right fun h => ⟨List.mem_cons_of_mem _ h.1, h.2⟩
      · rcases List.mem_cons.1 h with h | h
        · exact .inl h
        · exact (ih h).imp_right fun h => ⟨List.mem_cons_of_mem _ h.1, h.2⟩
    · next hu =>
      rcases List.mem_cons.1 h with rfl | h
      · exact .inr ⟨List.mem_cons_self, Bool.eq_false_iff.2 hu⟩
      · exact (ih h).imp_right fun h => ⟨List.mem_cons_of_mem _ h.1, h.2⟩

/-- A first unit outside the runs stays the first. -/
theorem head?_replaceRuns (h : t.head? = some u) (hu : p u = false) :
    (replaceRuns p c b t).head? = some u := by
  obtain ⟨rest, rfl⟩ := List.head?_eq_some_iff.1 h
  rw [replaceRuns, if_neg (Bool.eq_false_iff.1 hu), List.head?_cons]

/-- A last unit that is outside the runs stays the last one. -/
theorem getLast?_replaceRuns (h : t.getLast? = some u) (hu : p u = false) :
    (replaceRuns p c b t).getLast? = some u := by
  induction t generalizing b with
  | nil => cases h
  | cons u' t ih =>
    rw [replaceRuns]
    cases t with
    | nil =>
      obtain rfl : u' = u := by simpa using h
      simp [hu, replaceRuns]
    | cons u'' t =>
      rw [List.getLast?_cons_cons] at h
      split
      · split
        · exact ih h
        · rw [List.getLast?_cons, ih h, Option.getD_some]
      · rw [List.getLast?_cons, ih h, Option.getD_some]

/-- The upper case of a letter or digit is a letter or digit. -/
theorem isAlnum_upper (h : isAlnum u = true) : isAlnum (upper u) = true := by
  unfold upper
  split
  · next hlower =>
    simp only [Bool.and_eq_true, decide_eq_true_eq, UInt16.le_iff_toNat_le,
      UInt16.reduceToNat] at hlower
    have hsub : (u - 32).toNat = u.toNat - 32 :=
      UInt16.toNat_sub_of_le _ _ (UInt16.le_iff_toNat_le.2 (by simpa using by omega))
    simp only [isAlnum, isDigit, Bool.or_eq_true, Bool.and_eq_true, decide_eq_true_eq,
      UInt16.le_iff_toNat_le, UInt16.reduceToNat, hsub]
    omega
  · exact h

end

/-! ## Decimals -/

/-- A decimal is made of digits. -/
theorem isDigit_of_mem_decimal {n : ℕ} {u : UInt16} (h : u ∈ decimal n) : isDigit u = true := by
  obtain ⟨d, hd, rfl⟩ := List.mem_map.1 (List.mem_reverse.1 h)
  have hlt := Nat.digits_lt_base (by omega) hd
  simp only [isDigit, Bool.and_eq_true, decide_eq_true_eq, UInt16.le_iff_toNat_le,
    UInt16.reduceToNat, UInt16.toNat_ofNat']
  omega

/-- Different numbers have different decimals, since each is read back from its digits. -/
theorem decimal_injective : Function.Injective decimal := by
  intro n m h
  have hread : ∀ n, (decimal n).reverse.map (fun u => u.toNat - 48) = Nat.digits 10 n := by
    intro n
    rw [decimal, List.reverse_reverse, List.map_map]
    refine (List.map_congr_left fun d hd => ?_).trans (List.map_id _)
    have hlt := Nat.digits_lt_base (by omega) hd
    show (UInt16.ofNat (48 + d)).toNat - 48 = d
    rw [UInt16.toNat_ofNat']
    omega
  have hdigits := hread n
  rw [h, hread m] at hdigits
  exact (Nat.digits_inj_iff.1 hdigits).symm

/-- A number below a power of ten has no more digits than its exponent. -/
theorem length_decimal_le {n k : ℕ} (h : n < 10 ^ k) : (decimal n).length ≤ k := by
  rw [decimal, List.length_reverse, List.length_map]
  exact (Nat.digits_length_le_iff (by omega) n).2 h

end RxVision
