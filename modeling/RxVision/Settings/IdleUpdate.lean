import RxVision.Settings.IdleRules

/-!
# An accepted edit of the reasons (`applyReasonsUpdate`)

The loop keeps `Reading.Valid`: the labels read so far differ ignoring case, the built-in reasons
and the others stand under keys of their own. What it leaves is a sound list with labels that differ
ignoring case (`applyReasonsUpdate_sound`).
-/

namespace RxVision.Idle

section

variable {toLowerCase nfkd : Units → Units}

/-- The labels read so far, ignoring case. -/
def Reading.labels (toLowerCase : Units → Units) (st : Reading) : List Units :=
  st.builtIns.entries.map (fun p => toLowerCase p.2.label) ++
    (st.customs.map (fun r => toLowerCase r.label) ++ st.pendingNew.map toLowerCase)

/-- What the loop keeps. -/
structure Reading.Valid (toLowerCase : Units → Units) (st : Reading) : Prop where
  labels : (st.labels toLowerCase).Nodup
  seenLabels : st.labels toLowerCase ⊆ st.seenLabels
  builtIns : ∀ p ∈ st.builtIns.entries, ∃ b ∈ BUILT_IN_REASONS, b.key = p.1 ∧ Renamed b p.2
  custom : ∀ r ∈ st.customs, IsCustom r
  nodup : (st.customs.map AwayReason.key).Nodup
  seenBuiltIns : ∀ p ∈ st.builtIns.entries, p.1 ∈ st.seenKeys
  seenCustoms : ∀ r ∈ st.customs, r.key ∈ st.seenKeys
  length : st.seenKeys.length = st.builtIns.entries.length + st.customs.length
  pending : ∀ label ∈ st.pendingNew, Clean label

/-- Nothing is read yet, so nothing is wrong with what was read. -/
theorem Reading.valid_empty : Reading.Valid toLowerCase {} where
  labels := List.nodup_nil
  seenLabels := List.nil_subset _
  builtIns := by simp [Dict.empty]
  custom := by simp
  nodup := List.nodup_nil
  seenBuiltIns := by simp [Dict.empty]
  seenCustoms := by simp
  length := rfl
  pending := by simp

/-- A label that is not among those of two lists goes between them. -/
theorem nodup_insert {l₁ l₂ : List Units} {x : Units} (h : (l₁ ++ l₂).Nodup) (hx : x ∉ l₁ ++ l₂) :
    (l₁ ++ x :: l₂).Nodup :=
  List.nodup_middle.2 (List.nodup_cons.2 ⟨hx, h⟩)

/-- One more key that is seen. -/
theorem subset_insert {l₁ l₂ seen : List Units} {x : Units} (h : l₁ ++ l₂ ⊆ seen) :
    l₁ ++ x :: l₂ ⊆ x :: seen := by
  intro y hy
  rcases List.mem_append.1 hy with hy | hy
  · exact List.mem_cons_of_mem _ (h (List.mem_append_left _ hy))
  · rcases List.mem_cons.1 hy with rfl | hy
    · exact List.mem_cons_self
    · exact List.mem_cons_of_mem _ (h (List.mem_append_right _ hy))

variable {current builtIns customs list : List AwayReason} {st st' : Reading}
  {item : ReasonInput} {i : ℕ}
  {key label : Units}

section Steps

variable (hst : st.Valid toLowerCase) (hlabel : Clean label)
  (hnew : toLowerCase label ∉ st.labels toLowerCase)

include hst hlabel hnew

/-- A new reason without a key waits for one, under a label that was not read before. -/
theorem Reading.Valid.addPending : Reading.Valid toLowerCase
    { st with
      seenLabels := toLowerCase label :: st.seenLabels
      pendingNew := st.pendingNew ++ [label] } := by
  have hlabels : Reading.labels toLowerCase
      { st with
        seenLabels := toLowerCase label :: st.seenLabels
        pendingNew := st.pendingNew ++ [label] } = st.labels toLowerCase ++
            [toLowerCase label] := by
    simp [Reading.labels]
  refine { hst with labels := ?_, seenLabels := ?_, pending := ?_ }
  · rw [hlabels]
    exact nodup_insert (by rw [List.append_nil]; exact hst.labels)
      (by rw [List.append_nil]; exact hnew)
  · rw [hlabels]
    exact subset_insert (by rw [List.append_nil]; exact hst.seenLabels)
  · exact List.forall_mem_append.2 ⟨hst.pending, by simpa using hlabel⟩

/-- A built-in reason is read once, under its own key and with the label it was given. -/
theorem Reading.Valid.addBuiltIn {b : AwayReason} (hb : b ∈ BUILT_IN_REASONS)
    (hkey : b.key ∉ st.seenKeys) : Reading.Valid toLowerCase
      { st with
        seenLabels := toLowerCase label :: st.seenLabels
        seenKeys := b.key :: st.seenKeys
        builtIns := st.builtIns.set b.key { b with label } } := by
  have hentries : (st.builtIns.set b.key { b with label }).entries =
      st.builtIns.entries ++ [(b.key, { b with label })] := by
    refine Dict.entries_set_of_not_mem fun hmem => hkey ?_
    obtain ⟨p, hp, heq⟩ := List.mem_map.1 hmem
    exact heq ▸ hst.seenBuiltIns p hp
  have hlabels : Reading.labels toLowerCase
      { st with
        seenLabels := toLowerCase label :: st.seenLabels
        seenKeys := b.key :: st.seenKeys
        builtIns := st.builtIns.set b.key { b with label } } =
      st.builtIns.entries.map (fun p => toLowerCase p.2.label) ++ toLowerCase label ::
        (st.customs.map (fun r => toLowerCase r.label) ++ st.pendingNew.map toLowerCase) := by
    simp [Reading.labels, hentries]
  refine { hst with
    labels := ?_, seenLabels := ?_, builtIns := ?_, seenBuiltIns := ?_, seenCustoms := ?_
    length := ?_ }
  · rw [hlabels]
    exact nodup_insert hst.labels hnew
  · rw [hlabels]
    exact subset_insert hst.seenLabels
  · rw [hentries]
    refine List.forall_mem_append.2 ⟨hst.builtIns, ?_⟩
    simpa using ⟨b, hb, rfl, ⟨rfl, hlabel⟩⟩
  · rw [hentries]
    refine List.forall_mem_append.2 ⟨fun p hp => List.mem_cons_of_mem _ (hst.seenBuiltIns p hp), ?_⟩
    simp
  · exact fun r hr => List.mem_cons_of_mem _ (hst.seenCustoms r hr)
  · show (b.key :: st.seenKeys).length =
      (st.builtIns.set b.key { b with label }).entries.length + st.customs.length
    rw [hentries, List.length_cons, List.length_append, List.length_singleton, hst.length]
    omega

/-- Another reason is read under its key, which has the shape of a custom one and was
not read before. -/
theorem Reading.Valid.addCustom (hcustom : isCustomKey key = true) (hkey : key ∉ st.seenKeys) :
    Reading.Valid toLowerCase
      { st with
        seenLabels := toLowerCase label :: st.seenLabels
        seenKeys := key :: st.seenKeys
        customs := st.customs ++ [⟨key, label, .CUSTOM, false⟩] } := by
  have hlabels : Reading.labels toLowerCase
      { st with
        seenLabels := toLowerCase label :: st.seenLabels
        seenKeys := key :: st.seenKeys
        customs := st.customs ++ [⟨key, label, .CUSTOM, false⟩] } =
      (st.builtIns.entries.map (fun p => toLowerCase p.2.label) ++
        st.customs.map (fun r => toLowerCase r.label)) ++ toLowerCase label ::
          st.pendingNew.map toLowerCase := by
    simp [Reading.labels]
  have hassoc : st.labels toLowerCase = (st.builtIns.entries.map (fun p => toLowerCase p.2.label) ++
      st.customs.map (fun r => toLowerCase r.label)) ++ st.pendingNew.map toLowerCase :=
    (List.append_assoc _ _ _).symm
  refine { hst with
    labels := ?_, seenLabels := ?_, custom := ?_, nodup := ?_, seenBuiltIns := ?_
    seenCustoms := ?_, length := ?_ }
  · rw [hlabels]
    exact nodup_insert (hassoc ▸ hst.labels) (hassoc ▸ hnew)
  · rw [hlabels]
    exact subset_insert (hassoc ▸ hst.seenLabels)
  · exact List.forall_mem_append.2 ⟨hst.custom, by simpa using ⟨rfl, rfl, hcustom, hlabel⟩⟩
  · refine nodup_map_concat hst.nodup fun hmem => hkey ?_
    obtain ⟨r, hr, rfl⟩ := List.mem_map.1 hmem
    exact hst.seenCustoms r hr
  · exact fun p hp => List.mem_cons_of_mem _ (hst.seenBuiltIns p hp)
  · refine List.forall_mem_append.2 ⟨fun r hr => List.mem_cons_of_mem _ (hst.seenCustoms r hr), ?_⟩
    simp
  · show (key :: st.seenKeys).length = st.builtIns.entries.length + (st.customs ++ [_]).length
    rw [List.length_cons, List.length_append, List.length_singleton, hst.length]
    omega

end Steps

/-- What a key of the edit that is none of a built-in reason may be: one of the list's customs,
or of their shape. -/
theorem isCustomKey_of_existing (hc : SoundReasons builtIns customs) {key : Units}
    (hbuiltIn : BUILT_IN_REASONS.find? (fun b => b.key = key) = none)
    (h : ((((known (builtIns ++ customs)).get? key).isNone && !isCustomKey key) ||
      ((known (builtIns ++ customs)).get? key).any AwayReason.builtIn) = false) :
    isCustomKey key = true := by
  obtain ⟨hshape, -⟩ := Bool.or_eq_false_iff.1 h
  cases hexisting : (known (builtIns ++ customs)).get? key with
  | none =>
    rw [hexisting] at hshape
    simpa using hshape
  | some r =>
    have hmem := Dict.mem_of_get? hexisting
    rcases Dict.mem_setAll hmem with hmem | hmem
    · cases hmem
    · obtain ⟨r', hr', heq⟩ := List.mem_map.1 hmem
      obtain ⟨rfl, rfl⟩ := Prod.mk.inj heq
      rcases List.mem_append.1 hr' with hr' | hr'
      · obtain ⟨b, hb, hkey⟩ := isBuiltInKey_iff.1 (hc.builtIn hr')
        exact absurd (decide_eq_true hkey) (List.find?_eq_none.1 hbuiltIn b hb)
      · exact (hc.custom r' hr').key

/-- One round of the loop keeps the reading valid, by the kind of reason it reads. -/
theorem readItem_valid (hc : SoundReasons builtIns customs) (hst : st.Valid toLowerCase)
    (h : readItem toLowerCase (builtIns ++ customs) i st item = .ok st') :
    st'.Valid toLowerCase := by
  unfold readItem at h
  dsimp only at h
  split at h
  · cases h
  next hlength =>
  split at h
  · cases h
  next hlabel =>
  have hclean : Clean (normaliseReasonLabel (item.label.getD [])) :=
    clean_normalise (not_not.1 hlength)
  have hnew : toLowerCase (normaliseReasonLabel (item.label.getD [])) ∉ st.labels toLowerCase :=
    fun hmem => hlabel (hst.seenLabels hmem)
  cases hkey : (item.key.map (trimBy isSpaceUnit)).filter (· ≠ []) with
  | none =>
    rw [hkey] at h
    rw [← Except.ok.inj h]
    exact hst.addPending hclean hnew
  | some key =>
    rw [hkey] at h
    dsimp only at h
    split at h
    · cases h
    next hseen =>
    cases hbuiltIn : BUILT_IN_REASONS.find? fun b => b.key = key with
    | some b =>
      rw [hbuiltIn] at h
      have hfound : b.key = key := by simpa using List.find?_some hbuiltIn
      subst hfound
      rw [← Except.ok.inj h]
      exact hst.addBuiltIn hclean hnew (List.mem_of_find?_eq_some hbuiltIn) hseen
    | none =>
      rw [hbuiltIn] at h
      dsimp only at h
      split at h
      · cases h
      next hexisting =>
      rw [← Except.ok.inj h]
      exact hst.addCustom hclean hnew
        (isCustomKey_of_existing hc hbuiltIn (Bool.eq_false_iff.2 hexisting)) hseen

/-- The loop over the edit keeps the reading valid. By induction on what is still to be read. -/
theorem readItems_valid (hc : SoundReasons builtIns customs) {incoming : List ReasonInput}
    (hst : st.Valid toLowerCase)
    (h : readItems toLowerCase (builtIns ++ customs) i st incoming = .ok st') :
        st'.Valid toLowerCase := by
  induction incoming generalizing i st with
  | nil => exact Except.ok.inj h ▸ hst
  | cons item rest ih =>
    rw [readItems] at h
    split at h
    · cases h
    · next st₁ hitem => exact ih (readItem_valid hc hst hitem) h

/-! ## The list that is left -/

/-- The keys of the built-in reasons are distinct. -/
theorem builtIn_ext {b b' : AwayReason} (hb : b ∈ BUILT_IN_REASONS) (hb' : b' ∈ BUILT_IN_REASONS)
    (h : b.key = b'.key) : b = b' := by
  have hnodup : (BUILT_IN_REASONS.map AwayReason.key).Nodup := by decide
  exact List.inj_on_of_nodup_map hnodup hb hb' h

/-- What is read of a built-in reason is that reason, renamed. -/
theorem Reading.Valid.renamed_of_get? (hst : st.Valid toLowerCase) {b r : AwayReason}
    (hb : b ∈ BUILT_IN_REASONS) (h : st.builtIns.get? b.key = some r) : Renamed b r := by
  obtain ⟨b', hb', hkey, hrenamed⟩ := hst.builtIns _ (Dict.mem_of_get? h)
  rw [← builtIn_ext hb' hb hkey]
  exact hrenamed

/-- A list that is read one by one is the list of what is read. -/
theorem forall₂_filterMap {bs : List AwayReason} {g : AwayReason → Option AwayReason}
    (h : ∀ b ∈ bs, ∃ r, g b = some r ∧ Renamed b r) : List.Forall₂ Renamed bs (bs.filterMap g) := by
  induction bs with
  | nil => exact .nil
  | cons b bs ih =>
    obtain ⟨⟨r, hr, hrenamed⟩, hbs⟩ := List.forall_mem_cons.1 h
    rw [List.filterMap_cons_some hr]
    exact .cons hrenamed (ih hbs)

/-- There are no more built-in reasons in the edit than there are at all, since each
key was read once. -/
theorem Reading.Valid.length_builtIns (hst : st.Valid toLowerCase) :
    st.builtIns.entries.length ≤ 5 := by
  have hsub : st.builtIns.entries.map Prod.fst ⊆ BUILT_IN_REASONS.map AwayReason.key := by
    intro k hk
    obtain ⟨p, hp, rfl⟩ := List.mem_map.1 hk
    obtain ⟨b, hb, hkey, -⟩ := hst.builtIns p hp
    exact List.mem_map.2 ⟨b, hb, hkey⟩
  have hlength := (st.builtIns.nodup.subperm hsub).length_le
  rw [List.length_map] at hlength
  exact hlength

/-- The labels of the built-in reasons, in their order, are among those that were
read, each once. -/
theorem Reading.Valid.ordered_labels (hst : st.Valid toLowerCase) :
    let ordered := BUILT_IN_REASONS.filterMap fun b => st.builtIns.get? b.key
    (ordered.map AwayReason.key).Nodup → (ordered.map fun r => toLowerCase r.label).Nodup ∧
      (ordered.map fun r => toLowerCase r.label) ⊆
        st.builtIns.entries.map fun p => toLowerCase p.2.label := by
  intro ordered hkeys
  have hentries : ∀ r ∈ ordered, ∃ k, (k, r) ∈ st.builtIns.entries := by
    intro r hr
    obtain ⟨b, -, hget⟩ := List.mem_filterMap.1 hr
    exact ⟨b.key, Dict.mem_of_get? hget⟩
  refine ⟨(hkeys.of_map _).map_on fun r hr r' hr' heq => ?_, fun x hx => ?_⟩
  · obtain ⟨k, hk⟩ := hentries r hr
    obtain ⟨k', hk'⟩ := hentries r' hr'
    have hnodup := (List.nodup_append.1 hst.labels).1
    exact (Prod.mk.inj (List.inj_on_of_nodup_map hnodup hk hk' heq)).2
  · obtain ⟨r, hr, rfl⟩ := List.mem_map.1 hx
    obtain ⟨k, hk⟩ := hentries r hr
    exact List.mem_map.2 ⟨(k, r), hk, rfl⟩

/-- The new reasons get keys that nobody has, and keep the customs sound, under the labels
that were pending. -/
theorem addNew_sound {taken pending : List Units} (hcustom : ∀ r ∈ customs, IsCustom r)
    (hnodup : (customs.map AwayReason.key).Nodup) (htaken : ∀ r ∈ customs, r.key ∈ taken)
    (hpending : ∀ label ∈ pending, Clean label) (hlength : taken.length + pending.length < 1000) :
    let added := addNew nfkd taken customs pending
    (∀ r ∈ added, IsCustom r) ∧ (added.map AwayReason.key).Nodup ∧
      added.map AwayReason.label = customs.map AwayReason.label ++ pending := by
  induction pending generalizing taken customs with
  | nil => exact ⟨hcustom, hnodup, (List.append_nil _).symm⟩
  | cons label rest ih =>
    obtain ⟨hlabel, hrest⟩ := List.forall_mem_cons.1 hpending
    rw [List.length_cons] at hlength
    obtain ⟨key, hk⟩ : ∃ key, customReasonKey nfkd label taken = key := ⟨_, rfl⟩
    have hkey : key ∉ taken := hk ▸ customReasonKey_not_mem
    have hshape : isCustomKey key = true := hk ▸ isCustomKey_customReasonKey (by omega)
    have hcustom' : ∀ r ∈ customs ++ [⟨key, label, .CUSTOM, false⟩], IsCustom r :=
      List.forall_mem_append.2 ⟨hcustom, by simpa using ⟨rfl, rfl, hshape, hlabel⟩⟩
    have hnodup' :
        ((customs ++ [AwayReason.mk key label .CUSTOM false]).map AwayReason.key).Nodup := by
      refine nodup_map_concat hnodup fun hmem => hkey ?_
      obtain ⟨r, hr, rfl⟩ := List.mem_map.1 hmem
      exact htaken r hr
    have htaken' : ∀ r ∈ customs ++ [AwayReason.mk key label .CUSTOM false],
        r.key ∈ key :: taken := by
      refine List.forall_mem_append.2 ⟨fun r hr => List.mem_cons_of_mem _ (htaken r hr), ?_⟩
      simp
    obtain ⟨hall, hkeys, hlabels⟩ := ih hcustom' hnodup' htaken' hrest (by
      rw [List.length_cons]
      omega)
    rw [addNew, hk]
    refine ⟨hall, hkeys, ?_⟩
    rw [hlabels, List.map_append, List.append_assoc]
    rfl

/-- An accepted edit leaves a sound list, with labels that differ ignoring case. -/
theorem applyReasonsUpdate_sound (hc : SoundReasons builtIns customs) {incoming : List ReasonInput}
    (h : applyReasonsUpdate toLowerCase nfkd (builtIns ++ customs) incoming = .ok list) :
    ∃ builtIns' customs', list = builtIns' ++ customs' ∧ SoundReasons builtIns' customs' ∧
      (list.map fun r => toLowerCase r.label).Nodup := by
  unfold applyReasonsUpdate at h
  split at h
  · cases h
  next st hread =>
  have hst : st.Valid toLowerCase := readItems_valid hc Reading.valid_empty hread
  dsimp only at h
  split at h
  · cases h
  next hmissing =>
  split at h
  · cases h
  next hmany =>
  -- every built-in reason is there
  have hget : ∀ b ∈ BUILT_IN_REASONS, ∃ r, st.builtIns.get? b.key = some r := by
    intro b hb
    rw [← Option.isSome_iff_exists, ← Option.not_isNone, Bool.not_eq_true']
    rw [Bool.not_eq_true, Bool.not_eq_false', List.isEmpty_iff, List.filter_eq_nil_iff] at hmissing
    exact Bool.eq_false_iff.2 (hmissing b hb)
  have hrenamed : List.Forall₂ Renamed BUILT_IN_REASONS
      (BUILT_IN_REASONS.filterMap fun b => st.builtIns.get? b.key) := by
    refine forall₂_filterMap fun b hb => ?_
    obtain ⟨r, hr⟩ := hget b hb
    exact ⟨r, hr, hst.renamed_of_get? hb hr⟩
  have htaken : ∀ r ∈ st.customs,
      r.key ∈ (builtIns ++ customs).map AwayReason.key ++ st.seenKeys :=
    fun r hr => List.mem_append_right _ (hst.seenCustoms r hr)
  have hfew : ((builtIns ++ customs).map AwayReason.key ++ st.seenKeys).length +
    st.pendingNew.length <
      1000 := by
    have hcurrent : (builtIns ++ customs).length ≤ 25 := by
      rw [List.length_append, ← hc.renamed.length_eq]
      exact Nat.add_le_add_left hc.length_le 5
    have hbuiltIns := hst.length_builtIns
    rw [List.length_append, List.length_map, hst.length]
    rw [MAX_CUSTOM_REASONS] at hmany
    omega
  obtain ⟨hcustom, hnodup, hlabels⟩ := addNew_sound hst.custom hst.nodup htaken hst.pending hfew
  have hsound : SoundReasons (BUILT_IN_REASONS.filterMap fun b => st.builtIns.get? b.key)
      (addNew nfkd ((builtIns ++ customs).map AwayReason.key ++ st.seenKeys) st.customs
        st.pendingNew) := by
    refine ⟨hrenamed, hcustom, hnodup, ?_⟩
    have hlength := congrArg List.length hlabels
    rw [List.length_map, List.length_append, List.length_map] at hlength
    omega
  refine ⟨_, _, (Except.ok.inj h).symm, hsound, ?_⟩
  -- the labels are those of the valid reading
  have hadded : (addNew nfkd ((builtIns ++ customs).map AwayReason.key ++ st.seenKeys) st.customs
      st.pendingNew).map (fun r => toLowerCase r.label) =
      st.customs.map (fun r => toLowerCase r.label) ++ st.pendingNew.map toLowerCase := by
    have hlower := congrArg (List.map toLowerCase) hlabels
    refine List.map_map.symm.trans (hlower.trans ?_)
    rw [List.map_append, List.map_map]
    rfl
  have hkeys := hsound.nodup_keys
  rw [List.map_append] at hkeys
  obtain ⟨hordered, hsub⟩ := hst.ordered_labels (List.nodup_append.1 hkeys).1
  obtain ⟨-, hrest, hdisjoint⟩ := List.nodup_append.1 hst.labels
  rw [← Except.ok.inj h, List.map_append, hadded, List.nodup_append]
  exact ⟨hordered, hrest, fun x hx y hy => hdisjoint x (hsub hx) y hy⟩

end

end RxVision.Idle
