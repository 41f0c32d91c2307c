import RxVision.Settings.IdleUpdate

/-!
# The input-tracking settings of an organisation (`IdleSettingsService`)

Every write of an organisation runs after the one before it. A run keeps, beside what is stored, the
list the last accepted edit returned and, for every department, the keys that came into the list
since its choice was last saved: none of those is among the keys it reads (`IdleRun.Kept`), as each
write stores only keys that were known before it.
-/

namespace RxVision.Idle

/-! ## The service -/

/-- A department as it is stored. -/
def storedDepartment (d : DepartmentIdle) : JsonTree :=
  .obj [(text "enabled", d.enabled.elim .null .bool),
    (text "minutes", d.minutes.elim .null fun n : ℤ => .num n),
    (text "reasonKeys", d.reasonKeys.elim .null fun keys => .arr (keys.map .str))]

/-- `storedDepartments`: each department as `map` leaves it, unless it follows
the organisation then. -/
def storedDepartments (departments : Dict Units DepartmentIdle)
    (map : DepartmentIdle → DepartmentIdle) :
    JsonTree :=
  let kept := departments.filterMap fun d =>
    if isDefaultDepartmentIdle (map d) then none else some (map d)
  .obj (kept.entries.map fun p => (p.1, storedDepartment p.2))

/-- `IdleSettingsUpdate`. -/
structure IdleSettingsUpdate where
  defaultEnabled : JsonTree
  defaultMinutes : JsonTree
  reasons : Option (List ReasonInput)

inductive Refusal
  | validation (problem : IdleRuleProblem)
  | notFound (message code : String)
  deriving DecidableEq

/-- A digit of `ID_PATTERN`, in either case. -/
def isHex (u : UInt16) : Bool := isDigit u || (65 ≤ u && u ≤ 70) || (97 ≤ u && u ≤ 102)

/-- `isId`. -/
def isId (value : Units) : Bool :=
  value.length = 36 && value.zipIdx.all fun p => if p.2 ∈ [8, 13, 18, 23] then p.1 ==
    45 else isHex p.1

section

variable (toLowerCase nfkd : Units → Units)

/-- `update`: what it leaves stored. -/
def update (raw : StoredIdle) (input : IdleSettingsUpdate) : Except Refusal StoredIdle :=
  match asBoolean input.defaultEnabled, validMinutes input.defaultMinutes with
  | none, _ => .error (.validation
      ⟨"VALIDATION_ERROR", text "Choose whether input tracking is on by default.",
        "defaultEnabled"⟩)
  | some _, none => .error (.validation
      ⟨"VALIDATION_ERROR", text "Minutes must be a whole number from 2 to 60.", "defaultMinutes"⟩)
  | some enabled, some minutes =>
    let current := idleFromStored raw
    let patched :=
      { raw with idleDefaultEnabled := .bool enabled, idleDefaultMinutes := .num minutes }
    match input.reasons with
    | none => .ok patched
    | some incoming =>
      match applyReasonsUpdate toLowerCase nfkd current.reasons incoming with
      | .error p => .error (.validation p)
      | .ok next => .ok { patched with
          idleReasons := storedReasons next
          -- a department that chose a reason now gone stops offering it
          departmentIdle := storedDepartments current.departments fun d =>
            { d with reasonKeys := d.reasonKeys.map fun keys =>
                keys.filter fun k => k ∈ next.map AwayReason.key } }

/-- `updateDepartment`, where the organisation has the departments `ids`. -/
def updateDepartment (raw : StoredIdle) (ids : List Units) (departmentId : Units)
    (input : DepartmentIdleInput) : Except Refusal StoredIdle :=
  if !(isId departmentId && departmentId ∈ ids) then
    .error (.notFound "That department does not exist." "DEPARTMENT_NOT_FOUND")
  else
    let current := idleFromStored raw
    match validateDepartmentIdle input current.reasons with
    | .error p => .error (.validation p)
    | .ok value =>
      let departments := if isDefaultDepartmentIdle value then current.departments.delete
        departmentId else current.departments.set departmentId value
      .ok { raw with departmentIdle := storedDepartments departments id }

/-- `removeDepartment`. -/
def removeDepartment (raw : StoredIdle) (departmentId : Units) : StoredIdle :=
  let current := idleFromStored raw
  if (current.departments.get? departmentId).isNone then raw
  else { raw with departmentIdle := storedDepartments (current.departments.delete departmentId) id }

/-! ## Runs -/

inductive IdleStep
  | update (input : IdleSettingsUpdate)
  | updateDepartment (ids : List Units) (departmentId : Units) (input : DepartmentIdleInput)
  | removeDepartment (departmentId : Units)

/-- A run: what is stored, the list that the last accepted edit of the reasons returned, and for
every department the keys that came into the list after its choice was last saved. -/
structure IdleRun where
  raw : StoredIdle
  written : Option (List AwayReason) := none
  fresh : Units → List Units := fun _ => []

/-- The keys of the list. -/
def keysOf (raw : StoredIdle) : List Units := (idleFromStored raw).reasons.map AwayReason.key

/-- The keys that are in the list of `raw'` and not in the one of `raw`. -/
def addedKeys (raw raw' : StoredIdle) : List Units := (keysOf raw').filter fun k => k ∉ keysOf raw

/-- A write that is refused leaves everything as it is. -/
def IdleRun.step (run : IdleRun) : IdleStep → IdleRun
  | .update input =>
    match Idle.update toLowerCase nfkd run.raw input with
    | .error _ => run
    | .ok raw =>
      { raw
        written := input.reasons.elim run.written fun incoming =>
          (applyReasonsUpdate toLowerCase nfkd (idleFromStored run.raw).reasons incoming).toOption
        fresh := fun id => addedKeys run.raw raw ++ run.fresh id }
  | .updateDepartment ids departmentId input =>
    match Idle.updateDepartment run.raw ids departmentId input with
    | .error _ => run
    | .ok raw =>
      { run with
        raw
        fresh := fun id => if id = departmentId then [] else addedKeys run.raw raw ++ run.fresh id }
  | .removeDepartment departmentId =>
    let raw := Idle.removeDepartment run.raw departmentId
    { run with raw, fresh := fun id => addedKeys run.raw raw ++ run.fresh id }

end

/-! ## What departments read -/

section Departments

variable {raw raw' : StoredIdle} {known : List Units} {departments : Dict Units DepartmentIdle}
  {map : DepartmentIdle → DepartmentIdle} {id : Units} {d : DepartmentIdle} {keys : List Units}

/-- The department `id` reads the keys `keys`. -/
def Reads (raw : StoredIdle) (id : Units) (keys : List Units) : Prop :=
  ∃ d, (id, d) ∈ (idleFromStored raw).departments.entries ∧ d.reasonKeys = some keys

/-- A department's settings that are read are stored under its id, and are what
`readDepartment` makes of them. -/
theorem mem_departmentsFromStored {j : JsonTree}
    (h : (id, d) ∈ (departmentsFromStored known j).entries) :
    ∃ fields v, j = .obj fields ∧ (id, v) ∈ fields ∧ d = readDepartment known v := by
  cases j with
  | obj fields =>
    rcases Dict.mem_setAll h with h | h
    · cases h
    · obtain ⟨p, hp, hread⟩ := List.mem_filterMap.1 h
      unfold readDepartmentEntry at hread
      split at hread
      · split at hread
        · cases hread
        · obtain ⟨rfl, rfl⟩ := Prod.mk.inj (Option.some.inj hread)
          exact ⟨fields, p.2, rfl, hp, rfl⟩
      · cases hread
  | null | bool | num | str | arr => cases h

/-- A department reads known keys only, whatever is stored for it. -/
theorem Reads.subset (h : Reads raw id keys) : keys ⊆ keysOf raw := by
  obtain ⟨d, hd, hkeys⟩ := h
  obtain ⟨fields, v, -, -, rfl⟩ := mem_departmentsFromStored hd
  intro k hk
  unfold readDepartment at hkeys
  dsimp only at hkeys
  split at hkeys
  · rw [← Option.some.inj hkeys] at hk
    exact of_decide_eq_true (List.mem_filter.1 hk).2
  · cases hkeys

/-- What is read of a department is what was stored of it, less the keys that are not
known any more. -/
theorem readDepartment_storedDepartment : (readDepartment known (storedDepartment d)).reasonKeys =
    d.reasonKeys.map fun keys => keys.filter fun k => k ∈ known := by
  have hget : (storedDepartment d).get (text "reasonKeys") =
      d.reasonKeys.elim .null fun keys => .arr (keys.map .str) := rfl
  unfold readDepartment
  dsimp only
  rw [hget]
  cases d.reasonKeys with
  | none => rfl
  | some keys =>
    have htexts : (keys.map JsonTree.str).filterMap asText = keys := by
      rw [List.filterMap_map]
      exact (List.filterMap_congr fun k _ => rfl).trans List.filterMap_some
    simp only [Option.elim_some, Option.map_some, htexts]

/-- After a write a department reads only keys that it was stored with. -/
theorem Reads.of_stored (hstored : raw'.departmentIdle = storedDepartments departments map)
    (h : Reads raw' id keys) : ∃ d keys', (id, d) ∈ departments.entries ∧ (map d).reasonKeys =
    some keys' ∧
      keys ⊆ keys' := by
  obtain ⟨d', hd', hkeys⟩ := h
  obtain ⟨fields, v, hobj, hv, rfl⟩ := mem_departmentsFromStored hd'
  obtain rfl : _ = fields := JsonTree.obj.inj (hstored.symm.trans hobj)
  obtain ⟨p, hp, heq⟩ := List.mem_map.1 hv
  obtain ⟨rfl, rfl⟩ := Prod.mk.inj heq
  obtain ⟨q, hq, hkept⟩ := List.mem_filterMap.1 hp
  obtain ⟨d, hd, rfl⟩ := Option.map_eq_some_iff.1 hkept
  dsimp only at hd hkeys
  split at hd
  · cases hd
  · obtain rfl := Option.some.inj hd
    rw [readDepartment_storedDepartment] at hkeys
    obtain ⟨keys', hkeys', rfl⟩ := Option.map_eq_some_iff.1 hkeys
    exact ⟨q.2, keys', hq, hkeys', List.filter_subset_self _⟩

end Departments

/-! ## What a write leaves -/

section Writes

variable {toLowerCase nfkd : Units → Units} {raw raw' : StoredIdle} {input : IdleSettingsUpdate}
  {incoming : List ReasonInput} {list : List AwayReason} {ids keys : List Units}
    {id departmentId : Units}

/-- The list as it is read is sound, whatever is stored. -/
theorem reasons_sound (raw : StoredIdle) : ∃ builtIns customs,
    (idleFromStored raw).reasons = builtIns ++ customs ∧ SoundReasons builtIns customs :=
  reasonsFromStored_sound raw.idleReasons

/-- An accepted update either leaves the reasons or stores a new list, and prunes the
departments' choices to it. -/
theorem update_cases (h : update toLowerCase nfkd raw input = .ok raw') :
    (input.reasons = none ∧ raw'.idleReasons = raw.idleReasons ∧
      raw'.departmentIdle = raw.departmentIdle) ∨
    ∃ incoming next map, input.reasons = some incoming ∧
      applyReasonsUpdate toLowerCase nfkd (idleFromStored raw).reasons incoming = .ok next ∧
      raw'.idleReasons = storedReasons next ∧
      raw'.departmentIdle = storedDepartments (idleFromStored raw).departments map ∧
      ∀ d keys, (map d).reasonKeys = some keys → ∃ keys', d.reasonKeys = some keys' ∧
          keys ⊆ keys' := by
  unfold update at h
  split at h
  · cases h
  · cases h
  · dsimp only at h
    split at h
    · next hreasons =>
      rw [← Except.ok.inj h]
      exact .inl ⟨hreasons, rfl, rfl⟩
    · next incoming hreasons =>
      split at h
      · cases h
      · next next hnext =>
        refine .inr ⟨incoming, next, fun d =>
          { d with reasonKeys := d.reasonKeys.map fun keys =>
              keys.filter fun k => k ∈ next.map AwayReason.key }, hreasons, hnext, ?_, ?_, ?_⟩
        · rw [← Except.ok.inj h]
        · rw [← Except.ok.inj h]
        · intro d keys hkeys
          obtain ⟨keys', hkeys', rfl⟩ := Option.map_eq_some_iff.1 hkeys
          exact ⟨keys', hkeys', List.filter_subset_self _⟩

/-- After an accepted edit the list is read back as it was returned, with labels that
differ ignoring case. -/
theorem reasons_update (hreasons : input.reasons = some incoming)
    (hnext : applyReasonsUpdate toLowerCase nfkd (idleFromStored raw).reasons incoming = .ok list)
    (h : update toLowerCase nfkd raw input = .ok raw') :
    (idleFromStored raw').reasons = list ∧ (list.map fun r => toLowerCase r.label).Nodup := by
  obtain ⟨builtIns, customs, hlist, hsound⟩ := reasons_sound raw
  obtain ⟨builtIns', customs', hlist', hsound', hlabels⟩ :=
    applyReasonsUpdate_sound hsound (hlist ▸ hnext)
  refine ⟨?_, hlabels⟩
  rcases update_cases h with ⟨hnone, -⟩ | ⟨incoming', next, -, hsome, hnext', hstored, -⟩
  · rw [hreasons] at hnone
    cases hnone
  · obtain rfl : incoming = incoming' := Option.some.inj (hreasons.symm.trans hsome)
    obtain rfl : list = next := Except.ok.inj (hnext.symm.trans hnext')
    show reasonsFromStored raw'.idleReasons = list
    rw [hstored, hlist', reasonsFromStored_storedReasons hsound']

/-- An edit of the organisation's settings lets a department read no key that it did
not read before. -/
theorem reads_update (h : update toLowerCase nfkd raw input = .ok raw')
    (hreads : Reads raw' id keys) : ∃ keys', Reads raw id keys' ∧ keys ⊆ keys' := by
  rcases update_cases h with ⟨-, hlist, hdepartments⟩ | ⟨incoming, next, map,
    -, -, -, hstored, hmap⟩
  · refine ⟨keys, ?_, List.Subset.refl _⟩
    unfold Reads idleFromStored at hreads ⊢
    rw [← hlist, ← hdepartments]
    exact hreads
  · obtain ⟨d, keys', hd, hkeys', hsub⟩ := hreads.of_stored hstored
    obtain ⟨keys'', hkeys'', hsub'⟩ := hmap d keys' hkeys'
    exact ⟨keys'', ⟨d, hd, hkeys''⟩, List.Subset.trans hsub hsub'⟩

/-- Saving a department's choice lets no other department read a new key. -/
theorem reads_updateDepartment {change : DepartmentIdleInput}
    (h : updateDepartment raw ids departmentId change = .ok raw') (hreads : Reads raw' id keys)
    (hne : id ≠ departmentId) : ∃ keys', Reads raw id keys' ∧ keys ⊆ keys' := by
  unfold updateDepartment at h
  split at h
  · cases h
  · dsimp only at h
    split at h
    · cases h
    · next value hvalue =>
      rw [← Except.ok.inj h] at hreads
      obtain ⟨d, keys', hd, hkeys', hsub⟩ := hreads.of_stored rfl
      refine ⟨keys', ⟨d, ?_, hkeys'⟩, hsub⟩
      split at hd
      · exact (List.mem_filter.1 hd).1
      · refine (Dict.mem_set hd).resolve_left fun heq => hne ?_
        exact (Prod.mk.inj heq).1

/-- Removing a department's own settings takes no reason away from another department. -/
theorem reads_removeDepartment (hreads : Reads (removeDepartment raw departmentId) id keys) :
    ∃ keys', Reads raw id keys' ∧ keys ⊆ keys' := by
  unfold removeDepartment at hreads
  dsimp only at hreads
  split at hreads
  · exact ⟨keys, hreads, List.Subset.refl _⟩
  · obtain ⟨d, keys', hd, hkeys', hsub⟩ := hreads.of_stored rfl
    exact ⟨keys', ⟨d, (List.mem_filter.1 hd).1, hkeys'⟩, hsub⟩

/-- Changing a department's settings leaves the organisation's list of reasons. -/
theorem idleReasons_updateDepartment {change : DepartmentIdleInput}
    (h : updateDepartment raw ids departmentId change = .ok raw') : raw'.idleReasons =
    raw.idleReasons := by
  unfold updateDepartment at h
  split at h
  · cases h
  · dsimp only at h
    split at h
    · cases h
    · rw [← Except.ok.inj h]

/-- So does removing them. -/
theorem idleReasons_removeDepartment :
    (removeDepartment raw departmentId).idleReasons = raw.idleReasons := by
  unfold removeDepartment
  dsimp only
  split
  · rfl
  · rfl

/-- Every built-in reason is always in the list. -/
theorem builtIn_mem_keysOf {k : Units} (h : isBuiltInKey k = true) : k ∈ keysOf raw := by
  obtain ⟨builtIns, customs, hlist, hsound⟩ := reasons_sound raw
  rw [keysOf, hlist, List.map_append, keys_of_renamed hsound.renamed]
  exact List.mem_append_left _ (List.mem_map.2 (isBuiltInKey_iff.1 h))

end Writes

/-! ## Runs keep the choices -/

/-- What every step keeps: the list is the one last written, and no department reads a key that came
into the list after its choice was saved. -/
structure IdleRun.Kept (toLowerCase : Units → Units) (run : IdleRun) : Prop where
  written : ∀ list, run.written = some list →
    (idleFromStored run.raw).reasons = list ∧ (list.map fun r => toLowerCase r.label).Nodup
  fresh : ∀ id keys, Reads run.raw id keys → ∀ k ∈ run.fresh id, k ∉ keys
  custom : ∀ id, ∀ k ∈ run.fresh id, isBuiltInKey k = false

section Runs

variable {toLowerCase nfkd : Units → Units} {raw raw' : StoredIdle} {run : IdleRun} {id : Units}

/-- Keys that an edit adds are not built-in ones. -/
theorem addedKeys_custom : ∀ k ∈ addedKeys raw raw', isBuiltInKey k = false := by
  intro k hk
  rw [Bool.eq_false_iff]
  exact fun hkey => of_decide_eq_true (List.mem_filter.1 hk).2 (builtIn_mem_keysOf hkey)

/-- A key that comes into the list is among no department's keys. -/
theorem not_mem_of_added {fresh keys : List Units}
    (hfresh : ∀ keys, Reads raw id keys → ∀ k ∈ fresh, k ∉ keys)
    (hreads : ∃ keys', Reads raw id keys' ∧ keys ⊆ keys') :
    ∀ k ∈ addedKeys raw raw' ++ fresh, k ∉ keys := by
  obtain ⟨keys', hkeys', hsub⟩ := hreads
  intro k hk hmem
  rcases List.mem_append.1 hk with hk | hk
  · exact of_decide_eq_true (List.mem_filter.1 hk).2 (hkeys'.subset (hsub hmem))
  · exact hfresh keys' hkeys' k hk (hsub hmem)

/-- Nor are those it makes up. -/
theorem custom_of_added (hrun : run.Kept toLowerCase) :
    ∀ k ∈ addedKeys raw raw' ++ run.fresh id, isBuiltInKey k = false :=
  List.forall_mem_append.2 ⟨addedKeys_custom, hrun.custom id⟩

/-- One step of a run keeps the choices of the departments within what was chosen. -/
theorem IdleRun.Kept.step (hrun : run.Kept toLowerCase) (s : IdleStep) :
    (run.step toLowerCase nfkd s).Kept toLowerCase := by
  cases s with
  | update input =>
    unfold IdleRun.step
    dsimp only
    split
    · exact hrun
    · next raw hraw =>
      refine ⟨fun list hlist => ?_, fun id keys hreads => ?_, fun id => custom_of_added hrun⟩
      · cases hreasons : input.reasons with
        | none =>
          rw [hreasons] at hlist
          obtain ⟨hread, hlabels⟩ := hrun.written list hlist
          rcases update_cases hraw with ⟨-, hidle, -⟩ | ⟨_, _, _, hsome, -⟩
          · refine ⟨?_, hlabels⟩
            rw [← hread]
            exact congrArg reasonsFromStored hidle
          · rw [hreasons] at hsome
            cases hsome
        | some incoming =>
          rw [hreasons] at hlist
          have hnext : applyReasonsUpdate toLowerCase nfkd
            (idleFromStored run.raw).reasons incoming =
              .ok list := by
            cases hresult : applyReasonsUpdate toLowerCase nfkd
              (idleFromStored run.raw).reasons incoming with
            | error p =>
              rw [Option.elim_some, hresult] at hlist
              cases hlist
            | ok next =>
              rw [Option.elim_some, hresult] at hlist
              rw [Option.some.inj hlist]
          exact reasons_update hreasons hnext hraw
      · exact not_mem_of_added (hrun.fresh id) (reads_update hraw hreads)
  | updateDepartment ids departmentId input =>
    unfold IdleRun.step
    dsimp only
    split
    · exact hrun
    · next raw hraw =>
      refine ⟨fun list hlist => ?_, fun id keys hreads => ?_, fun id => ?_⟩
      · rw [← (hrun.written list hlist).1]
        refine ⟨congrArg reasonsFromStored (idleReasons_updateDepartment hraw), ?_⟩
        rw [(hrun.written list hlist).1]
        exact (hrun.written list hlist).2
      · dsimp only
        split
        · simp
        · next hne =>
            exact not_mem_of_added (hrun.fresh id) (reads_updateDepartment hraw hreads hne)
      · dsimp only
        split
        · simp
        · exact custom_of_added hrun
  | removeDepartment departmentId =>
    unfold IdleRun.step
    refine ⟨fun list hlist => ?_, fun id keys hreads => ?_, fun id => custom_of_added hrun⟩
    · refine ⟨?_, (hrun.written list hlist).2⟩
      rw [← (hrun.written list hlist).1]
      exact congrArg reasonsFromStored idleReasons_removeDepartment
    · exact not_mem_of_added (hrun.fresh id) (reads_removeDepartment hreads)

/-- A run keeps the choices. -/
theorem IdleRun.Kept.foldl (hrun : run.Kept toLowerCase) (steps : List IdleStep) :
    (steps.foldl (IdleRun.step toLowerCase nfkd) run).Kept toLowerCase := by
  induction steps generalizing run with
  | nil => exact hrun
  | cons s steps ih => exact ih (hrun.step s)

/-- A department does not offer a key that came into the list after its choice was saved. -/
theorem IdleRun.Kept.not_offered (hrun : run.Kept toLowerCase) (person : PersonIdle) {k : Units}
    (hk : k ∈ run.fresh id) :
    k ∉ (effectiveIdle (idleFromStored run.raw) (some id) person).reasons.map
        OfferedReason.key := by
  have hdefault : ∀ k ∈ text "BREAK" :: DEFAULT_REASON_KEYS, isBuiltInKey k = true := by decide
  have hcustom := hrun.custom id k hk
  intro hoffered
  obtain ⟨o, ho, rfl⟩ := List.mem_map.1 hoffered
  obtain ⟨r, hr, rfl⟩ := List.mem_map.1 ho
  have hkeys := of_decide_eq_true (List.mem_filter.1 hr).2
  dsimp only at hk hcustom hkeys
  cases hchoice : ((some id).bind fun id =>
      if id = [] then none else (idleFromStored run.raw).departments.get? id).bind
        DepartmentIdle.reasonKeys with
  | none =>
    rw [hchoice, Option.getD_none] at hkeys
    rw [hdefault r.key hkeys] at hcustom
    cases hcustom
  | some keys =>
    rw [hchoice, Option.getD_some] at hkeys
    rcases List.mem_cons.1 hkeys with hbreak | hmem
    · rw [hdefault r.key (hbreak ▸ List.mem_cons_self)] at hcustom
      cases hcustom
    · obtain ⟨d, hd, hreads⟩ := Option.bind_eq_some_iff.1 hchoice
      rw [Option.bind_some] at hd
      split at hd
      · cases hd
      · exact hrun.fresh id keys ⟨d, Dict.mem_of_get? hd, hreads⟩ r.key hk hmem

/-- A break is always offered, whatever is stored and whatever a department has chosen. -/
theorem break_offered (raw : StoredIdle) (departmentId : Option Units) (person : PersonIdle) :
    text "BREAK" ∈ (effectiveIdle (idleFromStored raw) departmentId person).reasons.map
    OfferedReason.key := by
  have hmem : text "BREAK" ∈ keysOf raw := builtIn_mem_keysOf (by decide)
  obtain ⟨r, hr, hkey⟩ := List.mem_map.1 hmem
  refine List.mem_map.2 ⟨⟨r.key, r.label, r.kind, REASON_FIELDS r.kind⟩,
    List.mem_map.2 ⟨r, ?_, rfl⟩, hkey⟩
  refine List.mem_filter.2 ⟨hr, decide_eq_true ?_⟩
  rw [hkey]
  exact List.mem_cons_self

/-- Away reasons stay sound over every run of edits, of the organisation and of its departments,
from any stored value, well formed or not. The list that is read is the one last returned; a
department chooses known keys, and offers nothing that came into the list after its choice was
saved; a break is always offered. -/
theorem awayReasons_sound (toLowerCase nfkd : Units → Units) (raw : StoredIdle)
    (steps : List IdleStep) :
    let run := steps.foldl (IdleRun.step toLowerCase nfkd) { raw }
    let org := idleFromStored run.raw
    -- the list that is read is the one last returned, with labels that differ ignoring case
    (∀ list, run.written = some list →
      org.reasons = list ∧ (org.reasons.map fun r => toLowerCase r.label).Nodup) ∧
    -- it starts with the built-in reasons, and the others are at most 20 under keys of their own
    (∃ builtIns customs, org.reasons = builtIns ++ customs ∧ SoundReasons builtIns customs) ∧
    (org.reasons.map AwayReason.key).Nodup ∧
    -- departments choose known keys
    (∀ id d keys, (id, d) ∈ org.departments.entries → d.reasonKeys = some keys →
      ∀ k ∈ keys, k ∈ org.reasons.map AwayReason.key) ∧
    -- what came into the list after a choice was saved is not offered
    (∀ id person, ∀ k ∈ run.fresh id,
      k ∉ (effectiveIdle org (some id) person).reasons.map OfferedReason.key) ∧
    ∀ departmentId person,
      text "BREAK" ∈ (effectiveIdle org departmentId person).reasons.map OfferedReason.key := by
  intro run org
  have hstart : IdleRun.Kept toLowerCase { raw } := ⟨by simp, by simp, by simp⟩
  have hrun : run.Kept toLowerCase := hstart.foldl steps
  obtain ⟨builtIns, customs, hlist, hsound⟩ := reasons_sound run.raw
  refine ⟨fun list hlast => ?_, ⟨builtIns, customs, hlist, hsound⟩, ?_, ?_, ?_, ?_⟩
  · obtain ⟨hread, hlabels⟩ := hrun.written list hlast
    exact ⟨hread, hread ▸ hlabels⟩
  · rw [hlist]
    exact hsound.nodup_keys
  · exact fun id d keys hd hkeys k hk => Reads.subset ⟨d, hd, hkeys⟩ hk
  · exact fun id person k hk => hrun.not_offered person hk
  · exact fun departmentId person => break_offered run.raw departmentId person

end Runs

end RxVision.Idle
