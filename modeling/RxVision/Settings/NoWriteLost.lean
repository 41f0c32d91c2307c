import RxVision.Settings.Service

/-!
# No settings write is lost

A call reads the organisation's object, and writes it back or caches it later; whatever another call
has written in between is undone (`overlapping_write_lost`). When what each call has read is still
stored at the keys it does not change (`ReadIsCurrent`), every key keeps what the last completed
call gave it, and the cache has what is stored (`no_write_lost`).
-/

namespace RxVision

namespace SettingsWorld

/-- What the last completed call that changed the key gave it. -/
def lastGiven (completed : List Raw) (key : RawKey) :
    Option Json := completed.findSome? fun given => given key

/-- Every call has returned. -/
def Quiet (w : SettingsWorld) : Prop :=
  ∀ c ∈ w.calls, c.phase = .done ∨ ∃ problem, c.phase = .refused problem

/-- Every key has what the last completed call that changed it gave it, and the cache has what is
stored. -/
def NoWriteLost (w : SettingsWorld) : Prop :=
  (∀ key value, lastGiven w.completed key = some value → w.stored key = some value) ∧
    ∀ e, w.cache = some e → e.value = w.stored

/-- What the phase goes on with is what is stored, at every key that the call does not change. -/
def PhaseIsCurrent (w : SettingsWorld) (op : SettingsOp) : SettingsPhase → Prop
  | .refill _ value => value = w.stored
  | .keep next => next = w.stored
  | .write read base patch =>
    (∀ key, patch key = none → base key = w.stored key) ∧
      ∀ raw ∈ read, ∀ key, op.given (.setting key) = none →
        (settingsFromStored raw).value key = (settingsFromStored w.stored).value key
  | _ => True

/-- A call writes or caches only what is still stored, and `writeRaw` is not asked to
change the settings table. -/
def ReadIsCurrent (w : SettingsWorld) : SettingsAction → Prop
  | .begins (.writeRaw patch) => ∀ key, patch (.setting key) = none
  | .proceed i => ∀ c ∈ w.calls[i]?, w.PhaseIsCurrent c.op c.phase
  | _ => True

/-- The settings table is stored whole. -/
def Tabled (w : SettingsWorld) : Prop :=
  ∀ key, w.stored (.setting key) = some ((settingsFromStored w.stored).value key)

/-- What `writeRaw` was called with. -/
def Planned (op : SettingsOp) (read : Option Raw) (patch : Raw) : Prop :=
  match op with
  | .readRaw => False
  | .writeRaw given => read = none ∧ patch = given
  | .update given => ∃ raw result changed, read = some raw ∧
      applySettingsPatch (settingsFromStored raw) given = .ok (result, changed) ∧ patch = result.raw

/-- The call has written, and not returned yet. -/
def Written (phase : SettingsPhase) : Prop :=
  match phase with
  | .keep _ => True
  | _ => False

/-- What holds of a call by itself. -/
structure CallInv (c : SettingsCall) : Prop where
  sections : ∀ patch, c.op = .writeRaw patch → ∀ key, patch (.setting key) = none
  phase : match c.phase with
    | .baseOwn read patch | .baseOld read patch | .write read _ patch => Planned c.op read patch
    | .keep next => ∀ key value, c.op.given key = some value → next key = some value
    | .readOwn _ | .readOld _ | .refill _ _ | .done | .refused _ => True

/-- What a step keeps. -/
structure SettingsInv (w : SettingsWorld) : Prop where
  calls : ∀ c ∈ w.calls, CallInv c
  last : ∀ key value, lastGiven w.completed key = some value →
    w.stored key = some value ∨ ∃ c ∈ w.calls, Written c.phase ∧ c.op.given key ≠ none
  tabled : ∀ key, (lastGiven w.completed (.setting key) ≠ none ∨
    ∃ c ∈ w.calls, Written c.phase ∧ c.op.given (.setting key) ≠ none) → w.Tabled
  cached : ∀ e, w.cache = some e → e.value = w.stored ∨ ∃ c ∈ w.calls, Written c.phase

variable {w w' : SettingsWorld} {c c' d : SettingsCall} {i : ℕ} {own old : Option StoredValue}
  {phase : SettingsPhase} {op : SettingsOp}

/-- The other calls stay. -/
theorem mem_set_of_ne (hc : w.calls[i]? = some c) (hc' : c' ∈ w.calls) (hne : c' ≠ c) :
    c' ∈ w.calls.set i d := by
  obtain ⟨j, hj⟩ := List.mem_iff_getElem?.1 hc'
  refine List.mem_iff_getElem?.2 ⟨j, ?_⟩
  rw [List.getElem?_set_ne, hj]
  rintro rfl
  exact hne (Option.some.inj (hj.symm.trans hc))

/-- A call that `readRaw` has answered plans its write over what it was given. -/
theorem CallInv.answered {op : SettingsOp}
    (hsect : ∀ patch, op = .writeRaw patch → ∀ key, patch (.setting key) = none) (value : Raw) :
    CallInv ⟨op, answered op value⟩ ∧ ¬ Written (SettingsWorld.answered op value) := by
  cases op with
  | readRaw => exact ⟨⟨hsect, trivial⟩, id⟩
  | writeRaw patch => exact ⟨⟨hsect, trivial⟩, id⟩
  | update given =>
    cases hok : applySettingsPatch (settingsFromStored value) given with
    | error problem =>
      have hanswered : SettingsWorld.answered (.update given) value = .refused problem := by
        simp only [SettingsWorld.answered, hok]
      rw [hanswered]
      exact ⟨⟨hsect, trivial⟩, id⟩
    | ok result =>
      have hanswered : SettingsWorld.answered (.update given) value =
          .baseOwn (some value) result.1.raw := by
        simp only [SettingsWorld.answered, hok]
      rw [hanswered]
      exact ⟨⟨hsect, value, result.1, result.2, rfl, hok, rfl⟩, id⟩

namespace SettingsInv

/-- Nothing has been written. -/
theorem start : SettingsInv (.start own old) where
  calls := fun _ hc => absurd hc List.not_mem_nil
  last := nofun
  tabled := by
    rintro key (hlast | ⟨c, hc, -⟩)
    · exact absurd rfl hlast
    · exact absurd hc List.not_mem_nil
  cached := nofun

/-- A call begins: it has written nothing, so what is stored is still the result of
those that have. -/
theorem begins (h : SettingsInv w) (hc : CallInv c) (hwritten : ¬ Written c.phase) :
    SettingsInv { w with calls := w.calls ++ [c] } := by
  have hold : ∀ d ∈ w.calls ++ [c], Written d.phase → d ∈ w.calls := by
    intro d hd hw
    obtain hd | hd := List.mem_append.1 hd
    · exact hd
    · obtain rfl := List.mem_singleton.1 hd
      exact absurd hw hwritten
  refine ⟨fun d hd => ?_, fun key value hlast => ?_, fun key hkey => ?_, fun e he => ?_⟩
  · obtain hd | hd := List.mem_append.1 hd
    · exact h.calls d hd
    · obtain rfl := List.mem_singleton.1 hd
      exact hc
  · refine (h.last key value hlast).imp_right ?_
    rintro ⟨d, hd, hpending⟩
    exact ⟨d, List.mem_append_left _ hd, hpending⟩
  · refine h.tabled key (hkey.imp_right ?_)
    rintro ⟨d, hd, hw, hgiven⟩
    exact ⟨d, hold d hd hw, hw, hgiven⟩
  · refine (h.cached e he).imp_right ?_
    rintro ⟨d, hd, hw⟩
    exact ⟨d, List.mem_append_left _ hd, hw⟩

/-- A call that neither has written nor writes goes on, and what is stored stays. -/
theorem of_phase (h : SettingsInv w) (hc : w.calls[i]? = some c) (hbefore : ¬ Written c.phase)
    (hcall : CallInv { c with phase }) (hafter : ¬ Written phase) :
    SettingsInv { w with calls := w.calls.set i { c with phase } } := by
  have hkept : ∀ d ∈ w.calls, Written d.phase → d ∈ w.calls.set i { c with phase } := by
    intro d hd hw
    refine mem_set_of_ne hc hd ?_
    rintro rfl
    exact hbefore hw
  have hold : ∀ d ∈ w.calls.set i { c with phase }, Written d.phase → d ∈ w.calls := by
    intro d hd hw
    obtain hd | rfl := List.mem_or_eq_of_mem_set hd
    · exact hd
    · exact absurd hw hafter
  refine ⟨fun d hd => ?_, fun key value hlast => ?_, fun key hkey => ?_, fun e he => ?_⟩
  · obtain hd | rfl := List.mem_or_eq_of_mem_set hd
    · exact h.calls d hd
    · exact hcall
  · refine (h.last key value hlast).imp_right ?_
    rintro ⟨d, hd, hw, hgiven⟩
    exact ⟨d, hkept d hd hw, hw, hgiven⟩
  · refine h.tabled key (hkey.imp_right ?_)
    rintro ⟨d, hd, hw, hgiven⟩
    exact ⟨d, hold d hd hw, hw, hgiven⟩
  · refine (h.cached e he).imp_right ?_
    rintro ⟨d, hd, hw⟩
    exact ⟨d, hkept d hd hw, hw⟩

/-- The cache is cleared, or filled with what is stored. -/
theorem of_cache (h : SettingsInv w) {cache : Option CachedRaw}
    (hcache : ∀ e, cache = some e → e.value = w.stored) : SettingsInv { w with cache } :=
  ⟨h.calls, h.last, h.tabled, fun e he => Or.inl (hcache e he)⟩

/-! ## The write -/

/-- What a call writes is what it was given, and at the other keys what is stored, as long as the
table is stored whole. -/
theorem written_value {read : Option Raw} {base patch : Raw} (hc : CallInv c)
    (hphase : c.phase = .write read base patch) (hok : w.PhaseIsCurrent c.op c.phase)
    (key : RawKey) :
    (∀ value, c.op.given key = some value → base.merge patch key = some value) ∧
      (c.op.given key = none → (∀ k, key = .setting k → w.Tabled) →
        base.merge patch key = w.stored key) := by
  have hplan := hc.phase
  rw [hphase] at hplan hok
  obtain ⟨hbase, hread⟩ := hok
  cases hop : c.op with
  | readRaw =>
    rw [hop] at hplan
    exact hplan.elim
  | writeRaw given =>
    rw [hop] at hplan
    obtain ⟨-, rfl⟩ := hplan
    refine ⟨fun value hgiven => ?_, fun hnone _ => ?_⟩
    · change patch key = some value at hgiven
      rw [Raw.merge, hgiven, Option.some_or]
    · change patch key = none at hnone
      rw [Raw.merge, hnone, Option.none_or, hbase key hnone]
  | update given =>
    rw [hop] at hplan hread
    obtain ⟨raw, result, changed, rfl, hresult, rfl⟩ := hplan
    cases key with
    | sect name =>
      refine ⟨nofun, fun _ _ => ?_⟩
      rw [Raw.merge]
      exact hbase (.sect name) rfl
    | setting k =>
      have hvalue := applySettingsPatch_eq_ok hresult k
      refine ⟨fun value hgiven => ?_, fun hnone htabled => ?_⟩
      · change given k = some value at hgiven
        rw [hgiven, Option.getD_some] at hvalue
        exact congrArg some hvalue
      · change given k = none at hnone
        rw [hnone, Option.getD_none, hread raw rfl k hnone] at hvalue
        rw [htabled k rfl k]
        exact congrArg some hvalue

/-- An update stores the table whole, and `writeRaw` leaves the keys of the table alone. -/
theorem written_tabled {read : Option Raw} {base patch : Raw} (hc : CallInv c)
    (hphase : c.phase = .write read base patch) (hok : w.PhaseIsCurrent c.op c.phase)
    (hstored : w'.stored = base.merge patch)
    (htabled : (∀ k, c.op.given (.setting k) = none) → w.Tabled) : w'.Tabled := by
  have hplan := hc.phase
  rw [hphase] at hplan hok
  cases hop : c.op with
  | readRaw =>
    rw [hop] at hplan
    exact hplan.elim
  | writeRaw given =>
    rw [hop] at hplan
    obtain ⟨-, rfl⟩ := hplan
    have hsect := hc.sections patch hop
    have hkept : ∀ k, w'.stored (.setting k) = w.stored (.setting k) := by
      intro k
      rw [hstored, Raw.merge, hsect k, Option.none_or, hok.1 _ (hsect k)]
    intro k
    rw [settingsFromStored_congr hkept, hkept k]
    exact htabled (by rw [hop]; exact hsect) k
  | update given =>
    rw [hop] at hplan
    obtain ⟨raw, result, changed, -, -, rfl⟩ := hplan
    have htable : ∀ k, w'.stored (.setting k) = some (result.value k) := by
      intro k
      rw [hstored]
      rfl
    intro k
    rw [settingsFromStored_of_stored htable, htable k]

/-- A call writes over what is stored, so every key that it does not name is kept. -/
theorem write (h : SettingsInv w) (hc : w.calls[i]? = some c) {read : Option Raw} {base patch : Raw}
    (hphase : c.phase = .write read base patch) (hok : w.PhaseIsCurrent c.op c.phase) :
    SettingsInv { w with
      own := some (.object (base.merge patch))
      calls := w.calls.set i { c with phase := .keep (base.merge patch) } } := by
  have hmem : c ∈ w.calls := List.mem_of_getElem? hc
  have hcall := h.calls c hmem
  have hnew : ({ c with phase := .keep (base.merge patch) } : SettingsCall) ∈
      w.calls.set i { c with phase := .keep (base.merge patch) } :=
    List.mem_iff_getElem?.2 ⟨i, List.getElem?_set_self (List.getElem?_eq_some_iff.1 hc).1⟩
  have hkept : ∀ d ∈ w.calls, Written d.phase →
      d ∈ w.calls.set i { c with phase := .keep (base.merge patch) } := by
    intro d hd hw
    refine mem_set_of_ne hc hd ?_
    rintro rfl
    rw [hphase] at hw
    exact hw
  refine ⟨fun d hd => ?_, fun key value hlast => ?_, fun key hkey => ?_, fun e he => ?_⟩
  · obtain hd | rfl := List.mem_or_eq_of_mem_set hd
    · exact h.calls d hd
    · exact ⟨hcall.sections, fun key => (written_value hcall hphase hok key).1⟩
  · rcases h.last key value hlast with hvalue | ⟨d, hd, hw, hgiven⟩
    · cases hgiven : c.op.given key with
      | none =>
        refine Or.inl ?_
        have hsame := (written_value hcall hphase hok key).2 hgiven fun k hk => ?_
        · exact hsame.trans hvalue
        · subst hk
          exact h.tabled k (Or.inl (by rw [hlast]; exact Option.some_ne_none _))
      | some v => exact Or.inr ⟨_, hnew, trivial, by rw [hgiven]; exact Option.some_ne_none _⟩
    · exact Or.inr ⟨d, hkept d hd hw, hw, hgiven⟩
  · refine written_tabled hcall hphase hok rfl fun hnone => h.tabled key ?_
    refine hkey.imp_right ?_
    rintro ⟨d, hd, hw, hgiven⟩
    obtain hd | rfl := List.mem_or_eq_of_mem_set hd
    · exact ⟨d, hd, hw, hgiven⟩
    · exact absurd (hnone key) hgiven
  · exact Or.inr ⟨_, hnew, trivial⟩

/-- A call that has written caches what it has written, which is what is stored, and returns. -/
theorem keep (h : SettingsInv w) (hc : w.calls[i]? = some c) {next : Raw}
    (hphase : c.phase = .keep next) (hok : next = w.stored) :
    SettingsInv { w with
      cache := some ⟨next, w.clock⟩
      completed := c.op.given :: w.completed
      calls := w.calls.set i { c with phase := .done } } := by
  have hmem : c ∈ w.calls := List.mem_of_getElem? hc
  have hcall := h.calls c hmem
  have hgave : ∀ key value, c.op.given key = some value → w.stored key = some value := by
    have hwrote := hcall.phase
    rw [hphase] at hwrote
    rw [← hok]
    exact hwrote
  have hold : ∀ d ∈ w.calls.set i { c with phase := .done }, Written d.phase → d ∈ w.calls := by
    intro d hd hw
    obtain hd | rfl := List.mem_or_eq_of_mem_set hd
    · exact hd
    · exact hw.elim
  refine ⟨fun d hd => ?_, fun key value hlast => ?_, fun key hkey => ?_, fun e he => ?_⟩
  · obtain hd | rfl := List.mem_or_eq_of_mem_set hd
    · exact h.calls d hd
    · exact ⟨hcall.sections, trivial⟩
  · change ((c.op.given :: w.completed).findSome? fun given => given key) = some value at hlast
    cases hgiven : c.op.given key with
    | some v =>
      rw [List.findSome?_cons, hgiven] at hlast
      exact Or.inl (hgave key value (hgiven.trans hlast))
    | none =>
      rw [List.findSome?_cons, hgiven] at hlast
      refine (h.last key value hlast).imp_right ?_
      rintro ⟨d, hd, hw, hd'⟩
      refine ⟨d, mem_set_of_ne hc hd ?_, hw, hd'⟩
      rintro rfl
      exact hd' hgiven
  · refine h.tabled key ?_
    rcases hkey with hlast | ⟨d, hd, hw, hgiven⟩
    · change ((c.op.given :: w.completed).findSome? fun given => given
        (.setting key)) ≠ none at hlast
      cases hgiven : c.op.given (.setting key) with
      | some v =>
        refine Or.inr ⟨c, hmem, ?_, by rw [hgiven]; exact Option.some_ne_none _⟩
        rw [hphase]
        trivial
      | none =>
        rw [List.findSome?_cons, hgiven] at hlast
        exact Or.inl hlast
    · exact Or.inr ⟨d, hold d hd hw, hw, hgiven⟩
  · obtain rfl := Option.some.inj he
    exact Or.inl hok

/-! ## Steps and runs -/

/-- A call goes on to its next statement, by the phase it is in. -/
theorem proceed (h : SettingsInv w) (hc : w.calls[i]? = some c)
    (hok : w.PhaseIsCurrent c.op c.phase) : SettingsInv { (w.proceed c).1 with
      calls := (w.proceed c).1.calls.set i { c with phase := (w.proceed c).2 } } := by
  have hcall := h.calls c (List.mem_of_getElem? hc)
  have hplan := hcall.phase
  cases hphase : c.phase with
  | readOwn since =>
    have hbefore : ¬ Written c.phase := by rw [hphase]; exact id
    cases hown : w.own with
    | none =>
      have hp : w.proceed c = (w, .readOld since) := by
        simp only [SettingsWorld.proceed, hphase, hown]
      rw [hp]
      exact h.of_phase hc hbefore ⟨hcall.sections, trivial⟩ id
    | some value =>
      have hp : w.proceed c = (w, .refill since (asObject (some value))) := by
        simp only [SettingsWorld.proceed, hphase, hown]
      rw [hp]
      exact h.of_phase hc hbefore ⟨hcall.sections, trivial⟩ id
  | readOld since =>
    have hp : w.proceed c = (w, .refill since (asObject w.old)) := by
      simp only [SettingsWorld.proceed, hphase]
    rw [hp]
    exact h.of_phase hc (by rw [hphase]; exact id) ⟨hcall.sections, trivial⟩ id
  | refill since value =>
    rw [hphase] at hok
    have hp : w.proceed c = ({ w with cache := some ⟨value, since⟩ }, answered c.op value) := by
      simp only [SettingsWorld.proceed, hphase]
    rw [hp]
    obtain ⟨hanswered, hafter⟩ := CallInv.answered hcall.sections value
    have hcached : SettingsInv { w with cache := some ⟨value, since⟩ } := by
      refine h.of_cache fun e he => ?_
      obtain rfl := Option.some.inj he
      exact hok
    exact hcached.of_phase hc (by rw [hphase]; exact id) hanswered hafter
  | baseOwn read patch =>
    rw [hphase] at hplan
    have hbefore : ¬ Written c.phase := by rw [hphase]; exact id
    cases hown : w.own with
    | none =>
      have hp : w.proceed c = (w, .baseOld read patch) := by
        simp only [SettingsWorld.proceed, hphase, hown]
      rw [hp]
      exact h.of_phase hc hbefore ⟨hcall.sections, hplan⟩ id
    | some value =>
      have hp : w.proceed c = (w, .write read (asObject (some value)) patch) := by
        simp only [SettingsWorld.proceed, hphase, hown]
      rw [hp]
      exact h.of_phase hc hbefore ⟨hcall.sections, hplan⟩ id
  | baseOld read patch =>
    rw [hphase] at hplan
    have hp : w.proceed c = (w, .write read (asObject w.old) patch) := by
      simp only [SettingsWorld.proceed, hphase]
    rw [hp]
    exact h.of_phase hc (by rw [hphase]; exact id) ⟨hcall.sections, hplan⟩ id
  | write read base patch =>
    have hp : w.proceed c =
        ({ w with own := some (.object (base.merge patch)) }, .keep (base.merge patch)) := by
      simp only [SettingsWorld.proceed, hphase]
    rw [hp]
    exact h.write hc hphase hok
  | keep next =>
    rw [hphase] at hok
    have hp : w.proceed c = ({ w with
        cache := some ⟨next, w.clock⟩
        completed := c.op.given :: w.completed }, .done) := by
      simp only [SettingsWorld.proceed, hphase]
    rw [hp]
    exact h.keep hc hphase hok
  | done =>
    have hp : w.proceed c = (w, .done) := by
      simp only [SettingsWorld.proceed, hphase]
    rw [hp]
    exact h.of_phase hc (by rw [hphase]; exact id) ⟨hcall.sections, trivial⟩ id
  | refused problem =>
    have hp : w.proceed c = (w, .refused problem) := by
      simp only [SettingsWorld.proceed, hphase]
    rw [hp]
    exact h.of_phase hc (by rw [hphase]; exact id) ⟨hcall.sections, trivial⟩ id

/-- A call that begins reads what is stored, from the cache or from the row. -/
theorem first (hok : w.ReadIsCurrent (.begins op)) :
    CallInv ⟨op, w.first op⟩ ∧ ¬ Written (w.first op) := by
  cases op with
  | writeRaw patch =>
    refine ⟨⟨fun patch' hp => ?_, rfl, rfl⟩, id⟩
    obtain rfl := SettingsOp.writeRaw.inj hp
    exact hok
  | readRaw =>
    unfold SettingsWorld.first
    cases w.hit with
    | none => exact ⟨⟨fun _ hp => SettingsOp.noConfusion hp, trivial⟩, id⟩
    | some e => exact CallInv.answered (fun _ hp => SettingsOp.noConfusion hp) e.value
  | update patch =>
    unfold SettingsWorld.first
    cases w.hit with
    | none => exact ⟨⟨fun _ hp => SettingsOp.noConfusion hp, trivial⟩, id⟩
    | some e => exact CallInv.answered (fun _ hp => SettingsOp.noConfusion hp) e.value

/-- Every step whose call goes on with what is stored keeps the invariant. -/
theorem step (h : SettingsInv w) {a : SettingsAction} (hok : w.ReadIsCurrent a)
    (hs : w.step a = some w') : SettingsInv w' := by
  cases a with
  | tick now =>
    simp only [SettingsWorld.step] at hs
    split at hs
    · obtain rfl := Option.some.inj hs
      exact ⟨h.calls, h.last, h.tabled, h.cached⟩
    · cases hs
  | begins op =>
    obtain rfl := Option.some.inj hs
    obtain ⟨hcall, hwritten⟩ := first hok
    exact h.begins hcall hwritten
  | proceed i =>
    simp only [SettingsWorld.step] at hs
    cases hc : w.calls[i]? with
    | none => simp [hc] at hs
    | some c =>
      simp only [hc, Option.some.injEq] at hs
      subst hs
      exact h.proceed hc (hok c hc)
  | clear =>
    obtain rfl := Option.some.inj hs
    exact h.of_cache nofun

/-- With no call under way nothing is pending, and each key holds the last value that
was written to it. -/
theorem noWriteLost (h : SettingsInv w) (hquiet : w.Quiet) : w.NoWriteLost := by
  have hnot : ∀ c ∈ w.calls, ¬ Written c.phase := by
    intro c hc hw
    rcases hquiet c hc with hphase | ⟨problem, hphase⟩ <;> rw [hphase] at hw <;> exact hw
  refine ⟨fun key value hlast => ?_, fun e he => ?_⟩
  · refine (h.last key value hlast).resolve_right ?_
    rintro ⟨c, hc, hw, -⟩
    exact hnot c hc hw
  · refine (h.cached e he).resolve_right ?_
    rintro ⟨c, hc, hw⟩
    exact hnot c hc hw

end SettingsInv

/-- In every run in which each call writes and caches what is still stored, and once no call is
under way, no write is lost: every key holds the last value that was written to it, in the order the
calls returned. While calls run the invariant counts what was written and not yet cached. -/
theorem no_write_lost {acts : List SettingsAction} (h : Runs.run step (start own old) acts = some w)
    (hok : Runs.Meets step ReadIsCurrent (start own old) acts) (hquiet : w.Quiet) : w.NoWriteLost :=
  (Runs.invariant_run SettingsInv (fun _ _ _ hi ho hs => hi.step ho hs) .start hok
    h).noWriteLost hquiet

/-- One section's new value. -/
def sectionPatch (name : String) (value : Json) : Raw :=
  fun key => if key = .sect name then some value else none

/-- The calendar and the input tracking each save their section; both have read
before either writes. -/
def overlappingWrites : List SettingsAction :=
  [.begins (.writeRaw (sectionPatch "weekPatternHistory" (.other 0))),
    .begins (.writeRaw (sectionPatch "idleDefaultEnabled" (.bool true))),
    .proceed 0, .proceed 0, .proceed 1, .proceed 1, .proceed 0, .proceed 0, .proceed 1, .proceed 1]

/-- Of two writers that overlap, the second saves the row it read before the first: the
week pattern is lost. -/
theorem overlapping_write_lost :
    ¬ ∀ (own old : Option StoredValue) (acts : List SettingsAction) (w : SettingsWorld),
      Runs.run step (start own old) acts = some w → w.Quiet → w.NoWriteLost := by
  intro h
  have hrun : Runs.run step (start none none) overlappingWrites = some _ := rfl
  obtain ⟨hkept, -⟩ := h none none _ _ hrun fun c hc => by
    obtain rfl | hc := List.mem_cons.1 hc
    · exact Or.inl rfl
    · obtain rfl := List.mem_singleton.1 hc
      exact Or.inl rfl
  have hlost := hkept (.sect "weekPatternHistory") (.other 0) rfl
  cases hlost

/-- The calendar saves its section over a row that has another one, and both are there. -/
theorem calendarWrite_kept :
    ∃ w, Runs.run step (start (some (.object (sectionPatch "idleReasons" (.other 1)))) none) [
      .begins (.writeRaw (sectionPatch "weekPatternHistory" (.other 0))), .proceed 0, .proceed 0,
      .proceed 0] = some w ∧ w.NoWriteLost := by
  have hrun : Runs.run step (start (some (.object (sectionPatch "idleReasons" (.other 1)))) none) [
    .begins (.writeRaw (sectionPatch "weekPatternHistory" (.other 0))), .proceed 0, .proceed 0,
    .proceed 0] = some _ := rfl
  refine ⟨_, hrun, no_write_lost hrun ⟨fun _ => rfl, fun w₁ h₁ => ?_⟩ fun c hc => ?_⟩
  · obtain rfl := Option.some.inj h₁
    refine ⟨fun c hc => ?_, fun w₂ h₂ => ?_⟩
    · obtain rfl := Option.some.inj hc
      trivial
    obtain rfl := Option.some.inj h₂
    refine ⟨fun c hc => ?_, fun w₃ h₃ => ?_⟩
    · obtain rfl := Option.some.inj hc
      exact ⟨fun _ _ => rfl, nofun⟩
    obtain rfl := Option.some.inj h₃
    refine ⟨fun c hc => ?_, fun _ _ => trivial⟩
    obtain rfl := Option.some.inj hc
    rfl
  · obtain rfl := List.mem_singleton.1 hc
    exact Or.inl rfl

end SettingsWorld

end RxVision
