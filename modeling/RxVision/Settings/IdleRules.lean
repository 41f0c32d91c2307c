import Mathlib.Data.List.Perm.Subperm
import Mathlib.Data.Nat.Find
import RxVision.Lib.Dict
import RxVision.Lib.JsonTree

/-!
# Away reasons and department choices (`idle.rules.ts`)

What is offered to a person who has been away: the organisation's list of reasons (the built-in ones
and its own) and what a department chose of it. `applyReasonsUpdate` and `validateDepartmentIdle`
check what is written, `reasonsFromStored` and `idleFromStored` repair what is read.

`toLowerCase` and `nfkd` stand for the Unicode tables; nothing here depends on what they say.
-/

namespace RxVision.Idle

/-! ## The data -/

inductive AwayReasonKind
  | BREAK | THINKING | MEETING | HARDWARE | OTHER | CUSTOM
  deriving DecidableEq, Repr

structure AwayReason where
  key : Units
  label : Units
  kind : AwayReasonKind
  builtIn : Bool
  deriving DecidableEq

/-- What a department sets of its own; `none` follows the organisation. -/
structure DepartmentIdle where
  enabled : Option Bool
  minutes : Option ℤ
  reasonKeys : Option (List Units)
  deriving DecidableEq

structure OrgIdleSettings where
  defaultEnabled : Bool
  defaultMinutes : ℤ
  reasons : List AwayReason
  departments : Dict Units DepartmentIdle

def AwayReasonKind.units : AwayReasonKind → Units
  | BREAK => text "BREAK"
  | THINKING => text "THINKING"
  | MEETING => text "MEETING"
  | HARDWARE => text "HARDWARE"
  | OTHER => text "OTHER"
  | CUSTOM => text "CUSTOM"

/-- The fields the agent asks for. -/
def REASON_FIELDS : AwayReasonKind → List String
  | .BREAK => []
  | .THINKING => ["comment"]
  | .MEETING => ["participants", "comment", "momSender"]
  | .HARDWARE => ["comment"]
  | .OTHER => ["comment"]
  | .CUSTOM => ["comment"]

def BUILT_IN_REASONS : List AwayReason := [
  ⟨text "BREAK", text "Took a break", .BREAK, true⟩,
  ⟨text "THINKING", text "Thinking", .THINKING, true⟩,
  ⟨text "MEETING", text "Short meeting", .MEETING, true⟩,
  ⟨text "HARDWARE", text "Working on hardware", .HARDWARE, true⟩,
  ⟨text "OTHER", text "Other work", .OTHER, true⟩]

def DEFAULT_REASON_KEYS :
    List Units := [text "BREAK", text "THINKING", text "MEETING", text "OTHER"]

def IDLE_DEFAULT_MINUTES : ℤ := 5
def MAX_CUSTOM_REASONS : ℕ := 20
def MAX_DEPARTMENT_REASON_KEYS : ℕ := 25

def isBuiltInKey (key : Units) : Bool := BUILT_IN_REASONS.any fun b => b.key = key

/-- `[A-Za-z0-9_-]{1,40}` to the end. -/
def isKeyTail (t : Units) : Bool :=
  1 ≤ t.length && t.length ≤ 40 && t.all fun u => isAlnum u || u == 95 || u == 45

/-- `CUSTOM_KEY`. -/
def isCustomKey (key : Units) : Bool :=
  (text "C_").isPrefixOf key && isKeyTail (key.drop 2) ||
    (text "CUSTOM_").isPrefixOf key && isKeyTail (key.drop 7)

/-! ## Labels and minutes -/

/-- `normaliseReasonLabel`: trimmed, inner blanks collapsed. -/
def normaliseReasonLabel (v : Units) :
    Units := replaceRuns isSpaceUnit 32 false (trimBy isSpaceUnit v)

/-- A length inside `REASON_LABEL`. -/
def LabelLength (label : Units) : Prop := 2 ≤ label.length ∧ label.length ≤ 40

instance : DecidablePred LabelLength := fun _ => instDecidableAnd

/-- `cleanLabel`. -/
def cleanLabel : JsonTree → Option Units
  | .str v => if LabelLength (normaliseReasonLabel v) then some (normaliseReasonLabel v) else none
  | _ => none

/-- `validMinutes`: whole minutes inside `IDLE_MINUTES`. -/
def validMinutes (v : JsonTree) : Option ℤ := v.asInteger.filter fun n => 2 ≤ n ∧ n ≤ 60

/-! ## Reading back -/

/-- A stored reason and its key. -/
def keyed (r : JsonTree) : Option (Units × JsonTree) :=
  match r, r.get (text "key") with
  | .obj _, .str key => some (key, r)
  | _, _ => none

/-- The loop of `reasonsFromStored` over the stored reasons, which adds to the reasons `out`. -/
def readCustoms : List AwayReason → List (Units × JsonTree) → List AwayReason
  | out, [] => out
  | out, (key, r) :: rest =>
    if isBuiltInKey key || !isCustomKey key then readCustoms out rest
    else
      match cleanLabel (r.get (text "label")) with
      | none => readCustoms out rest
      | some label =>
        if out.any fun o => o.key = key then readCustoms out rest
        else
          let out := out ++ [⟨key, label, .CUSTOM, false⟩]
          if BUILT_IN_REASONS.length + MAX_CUSTOM_REASONS ≤
            out.length then out else readCustoms out rest

/-- The stored reasons, with their keys. -/
def storedList : JsonTree → List (Units × JsonTree)
  | .arr elems => elems.filterMap keyed
  | _ => []

/-- `reasonsFromStored`: every built-in reason, possibly renamed, then the valid others. -/
def reasonsFromStored (stored : JsonTree) : List AwayReason :=
  let byKey := Dict.empty.setAll (storedList stored)
  readCustoms
    (BUILT_IN_REASONS.map fun b =>
      { b with
        label :=
          ((byKey.get? b.key).bind fun r => cleanLabel (r.get (text "label"))).getD b.label })
    (storedList stored)

/-- The keys of the organisation's row that hold its input-tracking settings. -/
structure StoredIdle where
  idleDefaultEnabled : JsonTree
  idleDefaultMinutes : JsonTree
  idleReasons : JsonTree
  departmentIdle : JsonTree

/-- `typeof v === 'boolean' ? v : null`. -/
def asBoolean : JsonTree → Option Bool
  | .bool b => some b
  | _ => none

/-- A text of a stored list. -/
def asText : JsonTree → Option Units
  | .str s => some s
  | _ => none

/-- A stored department, with the reasons it chose that are known. -/
def readDepartment (known : List Units) (v : JsonTree) : DepartmentIdle where
  enabled := asBoolean (v.get (text "enabled"))
  minutes := validMinutes (v.get (text "minutes"))
  reasonKeys :=
    match v.get (text "reasonKeys") with
    | .arr keys => some ((keys.filterMap asText).filter fun k => k ∈ known)
    | _ => none

/-- An entry of `departmentIdle`. A `__proto__` sets no key of the record. -/
def readDepartmentEntry (known : List Units) (p : Units × JsonTree) :
    Option (Units × DepartmentIdle) :=
  match p.2 with
  | .obj _ => if p.1 = text "__proto__" then none else some (p.1, readDepartment known p.2)
  | _ => none

def departmentsFromStored (known : List Units) : JsonTree → Dict Units DepartmentIdle
  | .obj fields => Dict.empty.setAll (fields.filterMap (readDepartmentEntry known))
  | _ => Dict.empty

/-- `idleFromStored`. -/
def idleFromStored (raw : StoredIdle) : OrgIdleSettings :=
  let reasons := reasonsFromStored raw.idleReasons
  { defaultEnabled := (asBoolean raw.idleDefaultEnabled).getD false
    defaultMinutes := (validMinutes raw.idleDefaultMinutes).getD IDLE_DEFAULT_MINUTES
    reasons
    departments := departmentsFromStored (reasons.map AwayReason.key) raw.departmentIdle }

/-! ## What a person is offered -/

structure OfferedReason where
  key : Units
  label : Units
  kind : AwayReasonKind
  fields : List String

structure EffectiveIdle where
  enabled : Bool
  minutes : ℤ
  reasons : List OfferedReason

/-- A person's own setting. -/
structure PersonIdle where
  idleEnabled : Option Bool
  idleMinutes : Option ℤ

/-- `effectiveIdle`. -/
def effectiveIdle (org : OrgIdleSettings) (departmentId : Option Units) (person : PersonIdle) :
    EffectiveIdle :=
  let dept := departmentId.bind fun id => if id = [] then none else org.departments.get? id
  let keys := text "BREAK" :: (dept.bind DepartmentIdle.reasonKeys).getD DEFAULT_REASON_KEYS
  { enabled := (person.idleEnabled.or (dept.bind DepartmentIdle.enabled)).getD org.defaultEnabled
    minutes := (person.idleMinutes.or (dept.bind DepartmentIdle.minutes)).getD org.defaultMinutes
    reasons := (org.reasons.filter fun r => r.key ∈ keys).map fun r =>
      ⟨r.key, r.label, r.kind, REASON_FIELDS r.kind⟩ }

/-! ## Checking an edit of the list -/

structure IdleRuleProblem where
  code : String
  message : Units
  field : String
  deriving DecidableEq

abbrev IdleRuleResult := Except IdleRuleProblem

/-- A unit that `/[^A-Za-z0-9\s_-]/g` keeps. -/
def isSlugUnit (u : UInt16) : Bool := isAlnum u || isSpaceUnit u || u == 95 || u == 45

/-- `[\s_-]`. -/
def isSlugBreak (u : UInt16) : Bool := isSpaceUnit u || u == 95 || u == 45

/-- The slug of `customReasonKey`. -/
def slug (nfkd : Units → Units) (label : Units) : Units :=
  let kept := (nfkd (normaliseReasonLabel label)).filter isSlugUnit
  let joined := replaceRuns isSlugBreak 95 false (trimBy isSpaceUnit kept)
  ((trimBy (· == 95) joined).map upper).take 32

/-- `C_` and the slug. -/
def keyBase (nfkd : Units → Units) (label : Units) : Units :=
  text "C_" ++ (if slug nfkd label = [] then text "REASON" else slug nfkd label)

/-- The candidates of `customReasonKey` in their order: the base, then with _2, _3 and so on. -/
def candidate (base : Units) : ℕ → Units
  | 0 => base
  | n + 1 => base ++ 95 :: decimal (n + 2)

/-- Every try for a key gives another one, so a free one is found. -/
theorem candidate_injective (base : Units) : Function.Injective (candidate base) := by
  intro n m h
  cases n with
  | zero =>
    cases m with
    | zero => rfl
    | succ m => simp [candidate] at h
  | succ n =>
    cases m with
    | zero => simp [candidate] at h
    | succ m =>
      have hsuffix := (List.cons.inj (List.append_cancel_left h)).2
      have := decimal_injective hsuffix
      omega

/-- The search of `customReasonKey` ends: of one candidate more than there are
keys taken, one is free. -/
theorem exists_free (base : Units) (taken : List Units) :
    ∃ n, n ≤ taken.length ∧ candidate base n ∉ taken := by
  by_contra hnone
  have hall : ∀ n, n ≤ taken.length → candidate base n ∈ taken := by
    intro n hn
    by_contra hfree
    exact hnone ⟨n, hn, hfree⟩
  have hnodup : ((List.range (taken.length + 1)).map (candidate base)).Nodup :=
    List.nodup_range.map (candidate_injective base)
  have hsub : (List.range (taken.length + 1)).map (candidate base) ⊆ taken := by
    intro k hk
    obtain ⟨n, hn, rfl⟩ := List.mem_map.1 hk
    exact hall n (Nat.lt_succ_iff.1 (List.mem_range.1 hn))
  have hlength := (hnodup.subperm hsub).length_le
  rw [List.length_map, List.length_range] at hlength
  omega

/-- `customReasonKey`: the first candidate that is not taken. -/
def customReasonKey (nfkd : Units → Units) (label : Units) (taken : List Units) : Units :=
  candidate (keyBase nfkd label) (Nat.find (exists_free (keyBase nfkd label) taken))

/-- `ReasonInput`: a reason of the edit, with its key when it has one, and its
label when that is a text. -/
structure ReasonInput where
  key : Option Units
  label : Option Units

/-- What `applyReasonsUpdate` has read so far. -/
structure Reading where
  seenKeys : List Units := []
  seenLabels : List Units := []
  builtIns : Dict Units AwayReason := .empty
  customs : List AwayReason := []
  pendingNew : List Units := []

section

variable (toLowerCase nfkd : Units → Units) (current : List AwayReason)

/-- The reasons of the list by their keys. -/
def known : Dict Units AwayReason := Dict.empty.setAll (current.map fun r => (r.key, r))

/-- One round of the loop of `applyReasonsUpdate`. -/
def readItem (i : ℕ) (st : Reading) (item : ReasonInput) : IdleRuleResult Reading :=
  let field := s!"reasons[{i}]"
  let label := normaliseReasonLabel (item.label.getD [])
  if ¬ LabelLength label then
    .error ⟨"REASON_LABEL", text "Each reason needs a label of 2 to 40 characters.",
      field ++ ".label"⟩
  else if toLowerCase label ∈ st.seenLabels then
    .error ⟨"REASON_DUPLICATE",
      text "Two reasons are called \"" ++ label ++ text "\". Give each its own name.",
        field ++ ".label"⟩
  else
    let st := { st with seenLabels := toLowerCase label :: st.seenLabels }
    match (item.key.map (trimBy isSpaceUnit)).filter (· ≠ []) with
    | none => .ok { st with pendingNew := st.pendingNew ++ [label] }
    | some key =>
      if key ∈ st.seenKeys then
        .error ⟨"REASON_DUPLICATE", text "The reason " ++ key ++ text " appears twice.",
          field ++ ".key"⟩
      else
        let st := { st with seenKeys := key :: st.seenKeys }
        match BUILT_IN_REASONS.find? fun b => b.key = key with
        | some builtIn => .ok { st with builtIns := st.builtIns.set key { builtIn with label } }
        | none =>
          -- a key that is not known yet is taken in the custom shape only
          let existing := (known current).get? key
          if (existing.isNone && !isCustomKey key) || existing.any AwayReason.builtIn then
            .error ⟨"REASON_UNKNOWN",
              text "That reason does not exist any more. Reload the page and try again.",
                field ++ ".key"⟩
          else .ok { st with customs := st.customs ++ [⟨key, label, .CUSTOM, false⟩] }

/-- The loop of `applyReasonsUpdate`. -/
def readItems : ℕ → Reading → List ReasonInput → IdleRuleResult Reading
  | _, st, [] => .ok st
  | i, st, item :: rest =>
    match readItem toLowerCase current i st item with
    | .error p => .error p
    | .ok st => readItems (i + 1) st rest

/-- The new reasons, each under a key that is not taken yet. -/
def addNew : List Units → List AwayReason → List Units → List AwayReason
  | _, customs, [] => customs
  | taken, customs, label :: rest =>
    let key := customReasonKey nfkd label taken
    addNew (key :: taken) (customs ++ [⟨key, label, .CUSTOM, false⟩]) rest

/-- `applyReasonsUpdate`. -/
def applyReasonsUpdate (incoming : List ReasonInput) : IdleRuleResult (List AwayReason) :=
  match readItems toLowerCase current 0 {} incoming with
  | .error p => .error p
  | .ok st =>
    let missing := BUILT_IN_REASONS.filter fun b => (st.builtIns.get? b.key).isNone
    if !missing.isEmpty then
      let names := missing.map fun m =>
        ((current.find? fun c => c.key = m.key).map AwayReason.label).getD m.label
      .error ⟨"REASON_BUILT_IN", text "Built-in reasons cannot be removed (" ++
        (text ", ").intercalate names ++ text "). You can rename them.", "reasons"⟩
    else if MAX_CUSTOM_REASONS < st.customs.length + st.pendingNew.length then
      .error ⟨"TOO_MANY_REASONS", text "You can have up to 20 custom reasons.", "reasons"⟩
    else
      .ok (BUILT_IN_REASONS.filterMap (fun b => st.builtIns.get? b.key) ++
        addNew nfkd (current.map AwayReason.key ++ st.seenKeys) st.customs st.pendingNew)

end

/-! ## Checking a department's choice -/

/-- `DepartmentIdleInput`. -/
structure DepartmentIdleInput where
  enabled : JsonTree
  minutes : JsonTree
  reasonKeys : JsonTree

/-- A value that may be left out. -/
def optional {α : Type} (read : JsonTree → Option α) (problem : IdleRuleProblem) :
    JsonTree → IdleRuleResult (Option α)
  | .null => .ok none
  | v =>
    match read v with
    | none => .error problem
    | some a => .ok (some a)

/-- The chosen keys, in the organisation's order. -/
def chosenKeys (reasons : List AwayReason) : JsonTree → IdleRuleResult (Option (List Units))
  | .null => .ok none
  | .arr keys =>
    if keys.any fun k => (asText k).isNone then
      .error
        ⟨"VALIDATION_ERROR", text "reasonKeys must be a list of reason keys or null.", "reasonKeys"⟩
    else if MAX_DEPARTMENT_REASON_KEYS < keys.length then
      .error ⟨"VALIDATION_ERROR", text "Too many reasons chosen.", "reasonKeys"⟩
    else
      let raw := keys.filterMap asText
      match raw.find? fun k => k ∉ reasons.map AwayReason.key with
      | some unknown =>
        .error ⟨"REASON_UNKNOWN",
          text "Unknown reason " ++ unknown ++
            text ". Reload the page and try again.", "reasonKeys"⟩
      | none => .ok (some ((reasons.map AwayReason.key).filter fun k => k ∈ raw))
  | _ =>
    .error ⟨"VALIDATION_ERROR", text "reasonKeys must be a list of reason keys or null.",
    "reasonKeys"⟩

/-- `validateDepartmentIdle`. -/
def validateDepartmentIdle (input : DepartmentIdleInput) (reasons : List AwayReason) :
    IdleRuleResult DepartmentIdle := do
  let enabled ← optional asBoolean
    ⟨"VALIDATION_ERROR", text "enabled must be true, false or null.", "enabled"⟩ input.enabled
  let minutes ← optional validMinutes
    ⟨"VALIDATION_ERROR", text "Minutes must be a whole number from 2 to 60.",
      "minutes"⟩ input.minutes
  let reasonKeys ← chosenKeys reasons input.reasonKeys
  return { enabled, minutes, reasonKeys }

/-- `isDefaultDepartmentIdle`: the department follows the organisation in every respect. -/
def isDefaultDepartmentIdle (d : DepartmentIdle) : Bool :=
  d.enabled.isNone && d.minutes.isNone && d.reasonKeys.isNone

/-- `storedReasons`. -/
def storedReasons (reasons : List AwayReason) : JsonTree :=
  .arr (reasons.map fun r => .obj [(text "key", .str r.key), (text "label", .str r.label),
    (text "kind", .str r.kind.units)])

/-! ## Labels -/

/-- A label as it is stored. -/
structure Clean (label : Units) : Prop where
  normalised : normaliseReasonLabel label = label
  length : LabelLength label

section Labels

variable {v label : Units}

/-- A label in its normal form stays as it is when it is normalised again. -/
theorem normaliseReasonLabel_idem :
    normaliseReasonLabel (normaliseReasonLabel v) = normaliseReasonLabel v := by
  have hends : trimBy isSpaceUnit (normaliseReasonLabel v) = normaliseReasonLabel v := by
    refine trimBy_of_ends (fun u hu => ?_) fun u hu => ?_
    · cases hhead : (trimBy isSpaceUnit v).head? with
      | none =>
        rw [normaliseReasonLabel, List.head?_eq_none_iff.1 hhead] at hu
        cases hu
      | some u' =>
        have hu' := trimBy_head? (p := isSpaceUnit) hhead
        rw [normaliseReasonLabel, head?_replaceRuns hhead hu'] at hu
        exact Option.some.inj hu ▸ hu'
    · cases hlast : (trimBy isSpaceUnit v).getLast? with
      | none =>
        rw [normaliseReasonLabel, List.getLast?_eq_none_iff.1 hlast] at hu
        cases hu
      | some u' =>
        have hu' := trimBy_getLast? (p := isSpaceUnit) hlast
        rw [normaliseReasonLabel, getLast?_replaceRuns hlast hu'] at hu
        exact Option.some.inj hu ▸ hu'
  rw [normaliseReasonLabel, hends]
  exact replaceRuns_idem (by decide)

/-- A normal form of the right length is clean. -/
theorem clean_normalise (h : LabelLength (normaliseReasonLabel v)) :
    Clean (normaliseReasonLabel v) :=
  ⟨normaliseReasonLabel_idem, h⟩

/-- What `cleanLabel` accepts is clean: normalised, not empty and short enough. -/
theorem clean_of_cleanLabel {j : JsonTree} (h : cleanLabel j = some label) : Clean label := by
  cases j with
  | str v =>
    unfold cleanLabel at h
    dsimp only at h
    split at h
    · next hlength =>
      rw [← Option.some.inj h]
      exact clean_normalise hlength
    · cases h
  | null | bool | num | arr | obj => cases h

/-- A clean label is read back as it was stored. -/
theorem cleanLabel_str (h : Clean label) : cleanLabel (.str label) = some label := by
  unfold cleanLabel
  dsimp only
  rw [h.normalised, if_pos h.length]

end Labels

/-! ## Keys -/

section Keys

variable {key label : Units} {taken : List Units} {nfkd : Units → Units}

/-- The built-in keys are those of the built-in reasons. -/
theorem isBuiltInKey_iff : isBuiltInKey key = true ↔ ∃ b ∈ BUILT_IN_REASONS, b.key = key := by
  simp [isBuiltInKey]

/-- The key of a custom reason is none of a built-in one. -/
theorem not_isBuiltInKey (h : isCustomKey key = true) : isBuiltInKey key = false := by
  have hbuiltIn : ∀ b ∈ BUILT_IN_REASONS, isCustomKey b.key = false := by decide
  rw [Bool.eq_false_iff]
  intro hkey
  obtain ⟨b, hb, rfl⟩ := isBuiltInKey_iff.1 hkey
  rw [hbuiltIn b hb] at h
  cases h

/-- A new key is not taken. -/
theorem customReasonKey_not_mem : customReasonKey nfkd label taken ∉ taken :=
  (Nat.find_spec (exists_free (keyBase nfkd label) taken)).2

/-- A slug is made of letters, digits, dashes and underscores. -/
theorem mem_slug {u : UInt16} (h : u ∈ slug nfkd label) :
    (isAlnum u || u == 95 || u == 45) = true := by
  obtain ⟨u', hu', rfl⟩ := List.mem_map.1 (List.mem_of_mem_take h)
  rcases mem_replaceRuns (mem_of_mem_trimBy hu') with rfl | ⟨hmem, hbreak⟩
  · decide
  · have hkept := (List.mem_filter.1 (mem_of_mem_trimBy hmem)).2
    have halnum : isAlnum u' = true := by
      simp only [isSlugUnit, isSlugBreak, Bool.or_eq_true, Bool.or_eq_false_iff] at hkept hbreak
      simpa [hbreak] using hkept
    simp [isAlnum_upper halnum]

/-- A key of the right form is one of an organisation's own reasons. -/
theorem isCustomKey_of_tail {t : Units} (h : isKeyTail t = true) :
    isCustomKey (text "C_" ++ t) = true := by
  have hprefix : (text "C_").isPrefixOf (text "C_" ++ t) = true :=
    List.isPrefixOf_iff_prefix.2 ⟨t, rfl⟩
  have hdrop : (text "C_" ++ t).drop 2 = t := rfl
  rw [isCustomKey, hprefix, hdrop, h]
  rfl

/-- What follows `C_` in the base of a key. -/
theorem keyBase_eq (nfkd : Units → Units) (label : Units) :
    ∃ t, keyBase nfkd label = text "C_" ++ t ∧
    1 ≤ t.length ∧ t.length ≤ 32 ∧ ∀ u ∈ t, (isAlnum u || u == 95 || u == 45) = true := by
  unfold keyBase
  split
  · exact ⟨text "REASON", rfl, by decide, by decide, List.all_eq_true.1 rfl⟩
  · next hslug =>
    refine ⟨slug nfkd label, rfl, List.length_pos_iff.2 hslug, ?_, fun u hu => mem_slug hu⟩
    exact List.length_take_le _ _

/-- A generated key has the shape that the reader accepts, so it survives being stored. -/
theorem isCustomKey_customReasonKey (h : taken.length < 1000) :
    isCustomKey (customReasonKey nfkd label taken) = true := by
  obtain ⟨t, hbase, hpos, hlength, hunits⟩ := keyBase_eq nfkd label
  have hn : Nat.find (exists_free (keyBase nfkd label) taken) ≤ taken.length :=
    (Nat.find_spec (exists_free (keyBase nfkd label) taken)).1
  unfold customReasonKey
  cases hfind : Nat.find (exists_free (keyBase nfkd label) taken) with
  | zero =>
    rw [candidate, hbase]
    refine isCustomKey_of_tail ?_
    simp only [isKeyTail, Bool.and_eq_true, decide_eq_true_eq, List.all_eq_true]
    exact ⟨⟨hpos, by omega⟩, hunits⟩
  | succ n =>
    have hdigits : (decimal (n + 2)).length ≤ 4 := length_decimal_le (by omega)
    rw [candidate, hbase, List.append_assoc]
    refine isCustomKey_of_tail ?_
    simp only [isKeyTail, Bool.and_eq_true, decide_eq_true_eq, List.all_eq_true, List.length_append,
      List.length_cons]
    refine ⟨⟨by omega, by omega⟩,
      List.forall_mem_append.2 ⟨hunits, List.forall_mem_cons.2 ⟨by decide, ?_⟩⟩⟩
    intro u hu
    simp [isAlnum, isDigit_of_mem_decimal hu]

end Keys

/-! ## The list -/

/-- A built-in reason, possibly renamed. -/
structure Renamed (b r : AwayReason) : Prop where
  eq : r = { b with label := r.label }
  label : Clean r.label

/-- A reason of the organisation's own. -/
structure IsCustom (r : AwayReason) : Prop where
  kind : r.kind = .CUSTOM
  builtIn : r.builtIn = false
  key : isCustomKey r.key = true
  label : Clean r.label

/-- A list of reasons: the built-in ones in their order, then at most 20 others
under keys of their own. -/
structure SoundReasons (builtIns customs : List AwayReason) : Prop where
  renamed : List.Forall₂ Renamed BUILT_IN_REASONS builtIns
  custom : ∀ r ∈ customs, IsCustom r
  nodup : (customs.map AwayReason.key).Nodup
  length_le : customs.length ≤ MAX_CUSTOM_REASONS

section Lists

variable {builtIns customs : List AwayReason} {r : AwayReason} {l : List (Units × JsonTree)}

/-- Renaming the built-in reasons keeps their keys. -/
theorem keys_of_renamed (h : List.Forall₂ Renamed BUILT_IN_REASONS builtIns) :
    builtIns.map AwayReason.key = BUILT_IN_REASONS.map AwayReason.key := by
  generalize BUILT_IN_REASONS = bs at h
  induction h with
  | nil => rfl
  | cons hb _ ih => rw [List.map_cons, List.map_cons, ih, hb.eq]

/-- The built-in reasons of a sound list have built-in keys. -/
theorem SoundReasons.builtIn (h : SoundReasons builtIns customs) (hr : r ∈ builtIns) :
    isBuiltInKey r.key = true := by
  have hmem := List.mem_map_of_mem (f := AwayReason.key) hr
  rw [keys_of_renamed h.renamed] at hmem
  exact isBuiltInKey_iff.2 (List.mem_map.1 hmem)

/-- The keys of a list are distinct. -/
theorem SoundReasons.nodup_keys (h : SoundReasons builtIns customs) :
    ((builtIns ++ customs).map AwayReason.key).Nodup := by
  rw [List.map_append, keys_of_renamed h.renamed, List.nodup_append]
  refine ⟨by decide, h.nodup, fun key hkey key' hkey' heq => ?_⟩
  obtain ⟨r, hr, rfl⟩ := List.mem_map.1 hkey'
  have hbuiltIn := isBuiltInKey_iff.2 (List.mem_map.1 hkey)
  rw [heq, not_isBuiltInKey (h.custom r hr).key] at hbuiltIn
  cases hbuiltIn

/-- One more own reason keeps the list sound, with a new key and below the limit. -/
theorem SoundReasons.concat (h : SoundReasons builtIns customs) (hr : IsCustom r)
    (hkey : r.key ∉ customs.map AwayReason.key) (hlt : customs.length < MAX_CUSTOM_REASONS) :
    SoundReasons builtIns (customs ++ [r]) where
  renamed := h.renamed
  custom := List.forall_mem_append.2 ⟨h.custom, by simpa using hr⟩
  nodup := nodup_map_concat h.nodup hkey
  length_le := by
    rw [List.length_append, List.length_singleton]
    exact hlt

/-- The loop over the stored reasons adds valid ones only, until there are 20. -/
theorem readCustoms_sound (h : SoundReasons builtIns customs)
    (hlt : customs.length < MAX_CUSTOM_REASONS) :
    ∃ customs', readCustoms (builtIns ++ customs) l = builtIns ++ customs' ∧
        SoundReasons builtIns customs' := by
  induction l generalizing customs with
  | nil => exact ⟨customs, rfl, h⟩
  | cons p l ih =>
    rw [readCustoms]
    split
    · exact ih h hlt
    · next hkey =>
      simp only [Bool.or_eq_true, Bool.not_eq_true', not_or, Bool.not_eq_false] at hkey
      cases hlabel : cleanLabel (p.2.get (text "label")) with
      | none => exact ih h hlt
      | some label =>
        dsimp only
        split
        · exact ih h hlt
        · next hnew =>
          have hsound : SoundReasons builtIns (customs ++ [⟨p.1, label, .CUSTOM, false⟩]) := by
            refine h.concat ⟨rfl, rfl, hkey.2, clean_of_cleanLabel hlabel⟩ (fun hmem => hnew ?_) hlt
            obtain ⟨r, hr, heq⟩ := List.mem_map.1 hmem
            rw [List.any_eq_true]
            exact ⟨r, List.mem_append_right _ hr, decide_eq_true heq⟩
          rw [List.append_assoc]
          split
          · exact ⟨_, rfl, hsound⟩
          · next hmore =>
            refine ih hsound ?_
            rw [List.length_append, ← h.renamed.length_eq] at hmore
            omega

/-- What is read is a sound list, whatever is stored. -/
theorem reasonsFromStored_sound (stored : JsonTree) : ∃ builtIns customs,
    reasonsFromStored stored = builtIns ++ customs ∧ SoundReasons builtIns customs := by
  have hclean : ∀ b ∈ BUILT_IN_REASONS, Clean b.label := by
    have hnormal : ∀ b ∈ BUILT_IN_REASONS, normaliseReasonLabel b.label = b.label ∧
        LabelLength b.label := by
      decide
    exact fun b hb => ⟨(hnormal b hb).1, (hnormal b hb).2⟩
  rw [reasonsFromStored, ← List.append_nil (List.map _ _)]
  refine ⟨_, readCustoms_sound ⟨?_, by simp, List.nodup_nil, Nat.zero_le _⟩ (by decide)⟩
  refine List.forall₂_map_right_iff.2 (List.forall₂_same.2 fun b hb => ⟨rfl, ?_⟩)
  cases hlabel : ((Dict.empty.setAll (storedList stored)).get? b.key).bind fun r =>
      cleanLabel (r.get (text "label")) with
  | none => exact hclean b hb
  | some label =>
    obtain ⟨r, -, hr⟩ := Option.bind_eq_some_iff.1 hlabel
    exact clean_of_cleanLabel hr

/-! ## Written and read back -/

/-- A reason as it is stored. -/
def storedReason (r : AwayReason) : JsonTree :=
  .obj [(text "key", .str r.key), (text "label", .str r.label), (text "kind", .str r.kind.units)]

/-- What is read of stored reasons is what was stored. -/
theorem storedList_storedReasons (reasons : List AwayReason) :
    storedList (storedReasons reasons) = reasons.map fun r => (r.key, storedReason r) := by
  show (reasons.map storedReason).filterMap keyed = _
  rw [List.filterMap_map]
  exact (List.filterMap_congr fun r _ => rfl).trans (congrFun List.filterMap_eq_map _)

/-- The built-in reasons are passed over. -/
theorem readCustoms_builtIns (h : ∀ r ∈ builtIns, isBuiltInKey r.key = true)
    {out : List AwayReason} :
    readCustoms out ((builtIns.map fun r => (r.key, storedReason r)) ++ l) = readCustoms out l := by
  induction builtIns with
  | nil => rfl
  | cons r rest ih =>
    obtain ⟨hr, hrest⟩ := List.forall_mem_cons.1 h
    rw [List.map_cons, List.cons_append, readCustoms, if_pos (by simp [hr]), ih hrest]

/-- The custom reasons of a sound list are taken one after another, and none is left out. -/
theorem readCustoms_customs {seen : List AwayReason} (h : SoundReasons builtIns (seen ++ customs)) :
    readCustoms (builtIns ++ seen) (customs.map fun r => (r.key, storedReason r)) =
      builtIns ++ (seen ++ customs) := by
  induction customs generalizing seen with
  | nil => simp [readCustoms]
  | cons r rest ih =>
    have hr : IsCustom r := h.custom r (by simp)
    have hnodup := h.nodup_keys
    have hlength := h.length_le
    have hnew : ((builtIns ++ seen).any fun o => o.key = r.key) = false := by
      rw [List.any_eq_false]
      intro o ho heq
      rw [← List.append_assoc, List.map_append, List.map_cons, List.nodup_append] at hnodup
      exact hnodup.2.2 o.key (List.mem_map_of_mem ho) r.key (by simp) (of_decide_eq_true heq)
    have hlabel : cleanLabel ((storedReason r).get (text "label")) = some r.label :=
      cleanLabel_str hr.label
    have hsame : AwayReason.mk r.key r.label .CUSTOM false = r := by
      rw [← hr.kind, ← hr.builtIn]
    rw [List.map_cons, readCustoms, if_neg (by simp [not_isBuiltInKey hr.key, hr.key]), hlabel]
    dsimp only
    rw [if_neg (by simp [hnew]), hsame, List.append_assoc]
    rw [List.append_cons] at h
    split
    · next hfull =>
      -- with 20 reasons taken none is left
      rw [List.length_append, ← h.renamed.length_eq, List.length_append] at hfull
      rw [List.length_append, List.length_cons] at hlength
      have hrest : rest.length = 0 := by
        rw [List.length_singleton] at hfull
        omega
      rw [List.length_eq_zero_iff.1 hrest]
    · rw [ih h, List.append_assoc, List.singleton_append]

/-- A function that gives each built-in reason its renamed one gives the whole list. -/
theorem map_of_forall₂ {bs rs : List AwayReason} {f : AwayReason → AwayReason}
    (h : List.Forall₂ Renamed bs rs) (hf : ∀ b, ∀ r ∈ rs, Renamed b r → f b = r) :
    bs.map f = rs := by
  induction h with
  | nil => rfl
  | cons hb _ ih =>
    obtain ⟨hr, hrest⟩ := List.forall_mem_cons.1 fun r hr b => hf b r hr
    rw [List.map_cons, hr _ hb, ih fun b r hmem => hrest r hmem b]

/-- A sound list is read back as it was written. -/
theorem reasonsFromStored_storedReasons (h : SoundReasons builtIns customs) :
    reasonsFromStored (storedReasons (builtIns ++ customs)) = builtIns ++ customs := by
  have hkeys :
      (((builtIns ++ customs).map fun r => (r.key, storedReason r)).map Prod.fst).Nodup := by
    rw [List.map_map]
    exact h.nodup_keys
  have hentries := Dict.entries_setAll (m := Dict.empty) hkeys
  rw [reasonsFromStored, storedList_storedReasons, map_of_forall₂ h.renamed]
  · rw [List.map_append, readCustoms_builtIns fun r hr => h.builtIn hr]
    have hread := readCustoms_customs (show SoundReasons builtIns ([] ++ customs) from h)
    rw [List.append_nil, List.nil_append] at hread
    exact hread
  · intro b r hr hb
    have hfound :
      (Dict.empty.setAll ((builtIns ++ customs).map fun r => (r.key, storedReason r))).get? b.key =
        some (storedReason r) := by
      rw [Dict.get?_eq_some_iff, hentries]
      refine List.mem_map.2 ⟨r, List.mem_append_left _ hr, ?_⟩
      rw [hb.eq]
    rw [hfound, Option.bind_some, show cleanLabel ((storedReason r).get (text "label")) = some
      r.label from cleanLabel_str hb.label, Option.getD_some]
    exact hb.eq.symm

end Lists

end RxVision.Idle
