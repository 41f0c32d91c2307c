import RxVision.Lib.Runs
import RxVision.Users.UserEntity

/-!
# No account edit undoes another

Use cases on one account: each reads the entity, changes it, and saves every column of what it has
read. A save writes back whatever another one has changed since the read (`rename_undoes_block`);
when it has read what the others changed (`ReadAfterOthers`), every field keeps what the use case
that changed it wrote (`no_edit_undone`).
-/

namespace RxVision

/-- Where a use case is: it has to read, it has read the entity, it has saved, or it has
ended without a save. -/
inductive EditPhase
  | reading
  | loaded (read : User)
  | saved (read written : User)
  | ended

/-- A use case under way. -/
structure EditCall where
  edit : AccountEdit
  phase : EditPhase

/-- The account's row, and the use cases on it in the order they began. -/
structure EditDesk where
  row : UserRow
  calls : List EditCall

/-- What happens to the account. -/
inductive EditAction
  | begins (edit : AccountEdit)
  /-- The use case `i` reads, or saves. -/
  | proceed (i : ℕ)
  /-- The checks of the use case `i` refuse it, or its save fails. -/
  | refuses (i : ℕ)

namespace EditDesk

/-- Nobody is at work on the account. -/
def start (row : UserRow) : EditDesk := ⟨row, []⟩

/-- A use case goes on. -/
def proceed (w : EditDesk) (c : EditCall) : UserRow × EditPhase :=
  match c.phase with
  | .reading => (w.row, .loaded (.toDomain w.row))
  | .loaded read =>
    match c.edit.edit read with
    | .refused | .unchanged => (w.row, .ended)
    | .changed u => (User.save w.row u, .saved read u)
  | .saved read written => (w.row, .saved read written)
  | .ended => (w.row, .ended)

/-- A use case is refused; what is saved stays. -/
def refused (c : EditCall) : EditPhase :=
  match c.phase with
  | .saved read written => .saved read written
  | _ => .ended

/-- One step; `none` when it cannot happen. -/
def step (w : EditDesk) : EditAction → Option EditDesk
  | .begins edit => some { w with calls := w.calls ++ [⟨edit, .reading⟩] }
  | .proceed i =>
    match w.calls[i]? with
    | some c =>
      let (row, phase) := w.proceed c
      some ⟨row, w.calls.set i { c with phase }⟩
    | none => none
  | .refuses i =>
    match w.calls[i]? with
    | some c => some { w with calls := w.calls.set i { c with phase := refused c } }
    | none => none

/-- The use case `i` has changed the column to `value` and saved it. -/
def Changed (w : EditDesk) (i : ℕ) (c : Column) (value : Cell) : Prop :=
  ∃ call read written, w.calls[i]? = some call ∧ call.phase = .saved read written ∧
    written.props c = value ∧ read.props c ≠ value

/-- The use cases change different fields. -/
def DifferentFields (w : EditDesk) : Prop :=
  ∀ i j c v v', w.Changed i c v → w.Changed j c v' → i = j

/-- Every field that a use case has changed has the value it wrote. -/
def NoEditUndone (w : EditDesk) : Prop := ∀ i c v, w.Changed i c v → w.row c = v

/-- A use case that saves has read, of the fields it writes, what the others changed. -/
def ReadAfterOthers (w : EditDesk) : EditAction → Prop
  | .proceed i =>
    ∀ call ∈ w.calls[i]?, ∀ read, call.phase = .loaded read → ∀ j c v, w.Changed j c v →
      (c = .managedDepartments → call.edit.setsManaged = true) → read.props c = w.row c
  | _ => True

variable {w w' : EditDesk} {i j : ℕ} {c : Column} {v : Cell} {call : EditCall} {phase : EditPhase}

/-! ## Steps -/

/-- What a use case has changed stays on record when another one goes on. -/
theorem Changed.set {row : UserRow} (h : w.Changed j c v) (hc : w.calls[i]? = some call)
    (hsaved : ∀ read written, call.phase = .saved read written → phase = .saved read written) :
    (⟨row, w.calls.set i { call with phase }⟩ : EditDesk).Changed j c v := by
  obtain ⟨d, read, written, hd, hphase, hvalue⟩ := h
  rcases eq_or_ne i j with rfl | hne
  · obtain rfl := Option.some.inj (hc.symm.trans hd)
    refine ⟨{ call with phase }, read, written, ?_, hsaved read written hphase, hvalue⟩
    exact List.getElem?_set_self (List.getElem?_eq_some_iff.1 hc).1
  · refine ⟨d, read, written, ?_, hphase, hvalue⟩
    change (w.calls.set i _)[j]? = _
    rw [List.getElem?_set_ne hne, hd]

/-- When a use case goes on, nothing else is on record than before but what it changes itself. -/
theorem Changed.of_set {row : UserRow} (hc : w.calls[i]? = some call)
    (h : (⟨row, w.calls.set i { call with phase }⟩ : EditDesk).Changed j c v) :
    (j ≠ i ∧ w.Changed j c v) ∨
      (j = i ∧ ∃ read written, phase = .saved read written ∧ written.props c = v ∧
        read.props c ≠ v) := by
  obtain ⟨d, read, written, hd, hphase, hvalue⟩ := h
  rcases eq_or_ne i j with rfl | hne
  · change (w.calls.set i _)[i]? = _ at hd
    rw [List.getElem?_set_self (List.getElem?_eq_some_iff.1 hc).1] at hd
    obtain rfl := Option.some.inj hd
    exact Or.inr ⟨rfl, read, written, hphase, hvalue⟩
  · change (w.calls.set i _)[j]? = _ at hd
    rw [List.getElem?_set_ne hne] at hd
    exact Or.inl ⟨hne.symm, d, read, written, hd, hphase, hvalue⟩

/-- A use case that does not save keeps every field. -/
theorem NoEditUndone.of_set (h : w.NoEditUndone) (hc : w.calls[i]? = some call)
    (hsaved : ∀ read written, phase = .saved read written → call.phase = .saved read written) :
    (⟨w.row, w.calls.set i { call with phase }⟩ : EditDesk).NoEditUndone := by
  intro j d v hchanged
  rcases hchanged.of_set hc with ⟨-, hold⟩ | ⟨rfl, read, written, hphase, hvalue⟩
  · exact h j d v hold
  · exact h j d v ⟨call, read, written, hc, hsaved read written hphase, hvalue⟩

/-- A save that writes what the others changed as they wrote it keeps every field
that was changed. -/
theorem NoEditUndone.of_save (h : w.NoEditUndone) (hc : w.calls[i]? = some call) {read u : User}
    (hphase : call.phase = .loaded read) (hpending : read.pendingManaged = false)
    (hedit : call.edit.edit read = .changed u) (hok : w.ReadAfterOthers (.proceed i))
    (hdiff : (⟨User.save w.row u, w.calls.set i { call with phase := .saved read u }⟩ :
      EditDesk).DifferentFields) :
    (⟨User.save w.row u, w.calls.set i { call with phase := .saved read u }⟩ :
      EditDesk).NoEditUndone := by
  have hmanaged := User.edit_managed hedit
  intro j d v hchanged
  rcases hchanged.of_set hc with ⟨hne, hold⟩ | ⟨rfl, read', written, heq, hvalue, hread⟩
  · -- another one's field: this save did not change it, and had read it as it is
    have hrow := h j d v hold
    change User.save w.row u d = v
    unfold User.save
    split
    · exact hrow
    · next hwrites =>
      have hsame : u.props d = read.props d := by
        by_contra hdiffers
        refine hne (hdiff j i d v _ hchanged
          ⟨{ call with phase := .saved read u }, read, u, ?_, rfl, rfl, Ne.symm hdiffers⟩)
        exact List.getElem?_set_self (List.getElem?_eq_some_iff.1 hc).1
      rw [hsame, hok call hc read hphase j d v hold, hrow]
      rintro rfl
      cases hsets : call.edit.setsManaged with
      | true => rfl
      | false =>
        rw [hsets, if_neg Bool.false_ne_true] at hmanaged
        exact absurd ⟨rfl, hmanaged.2.trans hpending⟩ hwrites
  · obtain ⟨rfl, rfl⟩ := EditPhase.saved.inj heq
    change User.save w.row u d = v
    unfold User.save
    split
    · next hkeeps =>
      obtain ⟨rfl, hnot⟩ := hkeeps
      cases hsets : call.edit.setsManaged with
      | true =>
        rw [hsets, if_pos rfl, hnot] at hmanaged
        cases hmanaged
      | false =>
        rw [hsets, if_neg Bool.false_ne_true] at hmanaged
        exact absurd (hmanaged.1.symm.trans hvalue) hread
    · exact hvalue

/-- What a step keeps: what an entity that was read has pending, and, while the use cases change
different fields, every field. -/
structure EditInv (w : EditDesk) : Prop where
  read : ∀ call ∈ w.calls, ∀ read, call.phase = .loaded read → read.pendingManaged = false
  kept : w.DifferentFields → w.NoEditUndone

/-- Nobody is editing. -/
theorem EditInv.start (row : UserRow) : EditInv (.start row) where
  read := fun _ hc => absurd hc List.not_mem_nil
  kept := by
    rintro - i c v ⟨call, read, written, hc, -⟩
    cases hc

/-- Use cases that change different fields have done so before. -/
theorem DifferentFields.before {row : UserRow} (hc : w.calls[i]? = some call)
    (hsaved : ∀ read written, call.phase = .saved read written → phase = .saved read written)
    (h : (⟨row, w.calls.set i { call with phase }⟩ : EditDesk).DifferentFields) :
      w.DifferentFields :=
  fun j k c v v' hj hk => h j k c v v' (hj.set hc hsaved) (hk.set hc hsaved)

/-- A use case that neither saves nor comes to hold an entity with something pending
keeps the invariant. -/
theorem EditInv.of_set (h : EditInv w) (hc : w.calls[i]? = some call)
    (hsaved : ∀ read written, call.phase = .saved read written → phase = .saved read written)
    (hnew : ∀ read written, phase = .saved read written → call.phase = .saved read written)
    (hread : ∀ read, phase = .loaded read → read.pendingManaged = false) :
    EditInv ⟨w.row, w.calls.set i { call with phase }⟩ where
  read d hd read hphase := by
    obtain hd | rfl := List.mem_or_eq_of_mem_set hd
    · exact h.read d hd read hphase
    · exact hread read hphase
  kept hdiff := (h.kept (hdiff.before hc hsaved)).of_set hc hnew

/-- A use case goes on to its read, its check or its save, and keeps the invariant when it has read
what the others changed. -/
theorem EditInv.proceed (h : EditInv w) (hc : w.calls[i]? = some call)
    (hok : w.ReadAfterOthers (.proceed i)) :
    EditInv ⟨(w.proceed call).1, w.calls.set i { call with phase := (w.proceed call).2 }⟩ := by
  cases hphase : call.phase with
  | reading =>
    have hp : w.proceed call = (w.row, .loaded (.toDomain w.row)) := by
      simp only [EditDesk.proceed, hphase]
    rw [hp]
    refine h.of_set hc (by rw [hphase]; nofun) nofun fun read hread => ?_
    obtain rfl := EditPhase.loaded.inj hread
    rfl
  | loaded read =>
    cases hedit : call.edit.edit read with
    | refused =>
      have hp : w.proceed call = (w.row, .ended) := by simp only [EditDesk.proceed, hphase, hedit]
      rw [hp]
      exact h.of_set hc (by rw [hphase]; nofun) nofun nofun
    | unchanged =>
      have hp : w.proceed call = (w.row, .ended) := by simp only [EditDesk.proceed, hphase, hedit]
      rw [hp]
      exact h.of_set hc (by rw [hphase]; nofun) nofun nofun
    | changed u =>
      have hp : w.proceed call = (User.save w.row u, .saved read u) := by
        simp only [EditDesk.proceed, hphase, hedit]
      rw [hp]
      have hpending := h.read call (List.mem_of_getElem? hc) read hphase
      refine ⟨fun d hd read' hread' => ?_, fun hdiff => ?_⟩
      · obtain hd | rfl := List.mem_or_eq_of_mem_set hd
        · exact h.read d hd read' hread'
        · cases hread'
      · have hbefore := h.kept (hdiff.before hc (by rw [hphase]; nofun))
        exact hbefore.of_save hc hphase hpending hedit hok hdiff
  | saved read written =>
    have hp : w.proceed call = (w.row, .saved read written) := by
      simp only [EditDesk.proceed, hphase]
    rw [hp]
    exact h.of_set hc (by rw [hphase]; exact fun _ _ he => he)
      (by rw [hphase]; exact fun _ _ he => he) nofun
  | ended =>
    have hp : w.proceed call = (w.row, .ended) := by simp only [EditDesk.proceed, hphase]
    rw [hp]
    exact h.of_set hc (by rw [hphase]; nofun) nofun nofun

/-- Every step whose save has read what the others changed keeps the invariant. -/
theorem EditInv.step (h : EditInv w) {a : EditAction} (hok : w.ReadAfterOthers a)
    (hs : w.step a = some w') : EditInv w' := by
  cases a with
  | begins edit =>
    obtain rfl := Option.some.inj hs
    have hold : ∀ {j c v},
      ({ w with calls := w.calls ++ [⟨edit, .reading⟩] } : EditDesk).Changed j c v ↔
        w.Changed j c v := by
      intro j c v
      constructor
      · rintro ⟨d, read, written, hd, hphase, hvalue⟩
        change (w.calls ++ [_])[j]? = _ at hd
        rw [List.getElem?_append] at hd
        split at hd
        · exact ⟨d, read, written, hd, hphase, hvalue⟩
        · obtain rfl := List.mem_singleton.1 (List.mem_of_getElem? hd)
          cases hphase
      · rintro ⟨d, read, written, hd, hphase, hvalue⟩
        refine ⟨d, read, written, ?_, hphase, hvalue⟩
        change (w.calls ++ [_])[j]? = _
        rw [List.getElem?_append_left (List.getElem?_eq_some_iff.1 hd).1, hd]
    refine ⟨fun d hd read hphase => ?_, fun hdiff i c v hchanged => ?_⟩
    · obtain hd | hd := List.mem_append.1 hd
      · exact h.read d hd read hphase
      · obtain rfl := List.mem_singleton.1 hd
        cases hphase
    · have hbefore : w.DifferentFields := fun i j c v v' hi hj =>
        hdiff i j c v v' (hold.2 hi) (hold.2 hj)
      exact h.kept hbefore i c v (hold.1 hchanged)
  | proceed i =>
    simp only [EditDesk.step] at hs
    cases hc : w.calls[i]? with
    | none => simp [hc] at hs
    | some call =>
      simp only [hc, Option.some.injEq] at hs
      subst hs
      exact h.proceed hc hok
  | refuses i =>
    simp only [EditDesk.step] at hs
    cases hc : w.calls[i]? with
    | none => simp [hc] at hs
    | some call =>
      simp only [hc, Option.some.injEq] at hs
      subst hs
      refine h.of_set hc (fun read written hphase => ?_) (fun read written hphase => ?_)
        fun read hphase => ?_
      · simp only [refused, hphase]
      · -- a refusal ends a use case, unless it has saved already
        cases hcall : call.phase with
        | saved read' written' =>
          simp only [refused, hcall] at hphase
          exact hphase
        | reading | loaded | ended =>
          simp only [refused, hcall] at hphase
          cases hphase
      · cases hcall : call.phase with
        | reading | loaded | saved | ended =>
          simp only [refused, hcall] at hphase
          cases hphase

/-- In every run of use cases that change different fields, each of which has read what the others
changed when it saves, every field has what the use case that changed it wrote. -/
theorem no_edit_undone {row : UserRow} {acts : List EditAction}
    (h : Runs.run step (start row) acts = some w)
    (hok : Runs.Meets step ReadAfterOthers (start row) acts) (hdiff : w.DifferentFields) :
    w.NoEditUndone :=
  (Runs.invariant_run EditInv (fun _ _ _ hi ho hs => hi.step ho hs) (.start row) hok h).kept hdiff

/-- Two use cases change different fields when the second leaves alone what the first
has changed. -/
theorem differentFields_pair {row : UserRow} {first second : EditCall}
    (h : ∀ read written read' written', first.phase = .saved read written →
      second.phase = .saved read' written' → ∀ c, read.props c ≠ written.props c →
        read'.props c = written'.props c) :
    (⟨row, [first, second]⟩ : EditDesk).DifferentFields := by
  rintro i j c v v' ⟨d, read, written, hd, hphase, rfl, hne⟩
    ⟨d', read', written', hd', hphase', rfl, hne'⟩
  match i, j with
  | 0, 0 | 1, 1 => rfl
  | 0, 1 =>
    obtain rfl := Option.some.inj hd
    obtain rfl := Option.some.inj hd'
    exact absurd (h read written read' written' hphase hphase' c hne) hne'
  | 1, 0 =>
    obtain rfl := Option.some.inj hd
    obtain rfl := Option.some.inj hd'
    exact absurd (h read' written' read written hphase' hphase c hne') hne
  | _ + 2, _ => cases hd
  | _, _ + 2 => cases hd'

/-- An account of a Staff member named Ann. -/
def annRow : UserRow
  | .role => .role .user
  | .status => .status .active
  | .firstName => .text "Ann"
  | _ => .null

/-- Ann renames herself while her Admin blocks her. -/
def renameAroundBlock : List EditAction :=
  [.begins (.selfRename (some "Anna") none), .begins (.setUserStatus .disabled), .proceed 0,
    .proceed 1, .proceed 1, .proceed 0]

/-- She is active again: the rename read her row before the block, and its save writes
every column back. -/
theorem rename_undoes_block :
    ¬ ∀ (row : UserRow) (acts : List EditAction) (w : EditDesk),
      Runs.run step (start row) acts = some w → w.DifferentFields → w.NoEditUndone := by
  intro h
  have hrun : Runs.run step (start annRow) renameAroundBlock = some _ := rfl
  refine absurd (h annRow _ _ hrun (differentFields_pair
    fun read written read' written' hread hread' c => ?_) 1 .status (.status .disabled)
      ⟨_, _, _, rfl, rfl, rfl, by decide⟩) nofun
  · obtain ⟨rfl, rfl⟩ := EditPhase.saved.inj hread
    obtain ⟨rfl, rfl⟩ := EditPhase.saved.inj hread'
    cases c <;> decide +kernel

/-- A use case that has yet to read. -/
theorem readAfterOthers_of_reading (hc : w.calls[i]? = some call) (hphase : call.phase = .reading) :
    w.ReadAfterOthers (.proceed i) := by
  intro d hd read hread
  obtain rfl := Option.some.inj (hc.symm.trans hd)
  cases hphase.symm.trans hread

/-- A use case that saves before anything else has happened to the row has read what
the others changed. -/
theorem readAfterOthers_of_toDomain (hc : w.calls[i]? = some call)
    (hphase : call.phase = .loaded (.toDomain w.row)) (hsets : call.edit.setsManaged = false) :
    w.ReadAfterOthers (.proceed i) := by
  intro d hd read hread j c v _ hmanaged
  obtain rfl := Option.some.inj (hc.symm.trans hd)
  obtain rfl := EditPhase.loaded.inj (hphase.symm.trans hread)
  refine if_neg ?_
  rintro ⟨rfl, -⟩
  rw [hsets] at hmanaged
  cases hmanaged rfl

/-- When the Admin blocks her after the rename has been saved, both edits stand. -/
theorem blockAfterRename_kept :
    ∃ w, Runs.run step (start annRow) [.begins (.selfRename (some "Anna") none),
      .proceed 0, .proceed 0,
      .begins (.setUserStatus .disabled), .proceed 1, .proceed 1] = some w ∧ w.NoEditUndone := by
  have hrun : Runs.run step (start annRow) [.begins (.selfRename (some "Anna") none), .proceed 0,
    .proceed 0, .begins (.setUserStatus .disabled), .proceed 1, .proceed 1] = some _ := rfl
  refine ⟨_, hrun, no_edit_undone hrun ?_ (differentFields_pair
    fun read written read' written' hread hread' c => ?_)⟩
  · refine ⟨trivial, fun w₁ h₁ => ?_⟩
    obtain rfl := Option.some.inj h₁
    refine ⟨readAfterOthers_of_reading rfl rfl, fun w₂ h₂ => ?_⟩
    obtain rfl := Option.some.inj h₂
    refine ⟨readAfterOthers_of_toDomain rfl rfl rfl, fun w₃ h₃ => ⟨trivial, fun w₄ h₄ => ?_⟩⟩
    obtain rfl := Option.some.inj h₃
    obtain rfl := Option.some.inj h₄
    refine ⟨readAfterOthers_of_reading rfl rfl, fun w₅ h₅ => ?_⟩
    obtain rfl := Option.some.inj h₅
    exact ⟨readAfterOthers_of_toDomain rfl rfl rfl, fun _ _ => trivial⟩
  · obtain ⟨rfl, rfl⟩ := EditPhase.saved.inj hread
    obtain ⟨rfl, rfl⟩ := EditPhase.saved.inj hread'
    cases c <;> decide +kernel

end EditDesk

end RxVision
