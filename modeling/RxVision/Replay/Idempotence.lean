import RxVision.Replay.Handlers

/-!
# Event ids are idempotent

Any number of copies of an event, interleaved, with crashes and failed writes. An event goes through
the stages of `EventState`: nothing stored; a copy holds the placeholder and prepares; its handler
ran; the placeholder is left by a crash; completed. A run keeps every event in one of them
(`EventState.step`) as long as no placeholder is taken over while its copy still runs or after its
handler committed, and no write of an answer fails (`Server.IdempotentOk`).
-/

namespace RxVision

namespace Happened

/-- The handler's effect was applied, or is to be remembered. -/
def Applies : Happened → Prop
  | .ran outcome before after => outcome.stored ≠ none ∨ after ≠ before
  | .answered _ _ => False

/-- The answer of a copy that completed the event; a transient failure (5xx) does not. -/
def completed : Happened → Option Answer
  | .answered true a => if a.status < 500 then some a else none
  | _ => none

end Happened

/-- At most one of them applied the handler's effect. -/
def AppliedOnce (past : List Happened) : Prop := past.Pairwise fun h h' =>
    ¬ (h.Applies ∧ h'.Applies)

/-- The handler's effect was not applied, and no copy completed the event. -/
def Untouched (past : List Happened) : Prop := ∀ h ∈ past, ¬ h.Applies ∧ h.completed = none

/-- Every answer after the first that completed the event is the same. -/
def Repeats (past : List Happened) : Prop :=
  ∀ before a after, past = before ++ .answered true a :: after → a.status < 500 →
    ∀ own b, .answered own b ∈ after → b = a

section Past

variable {past : List Happened} {h : Happened}

/-- What applies nothing and completes nothing leaves the event untouched. -/
theorem Untouched.append (hp : Untouched past) (ha : ¬ h.Applies) (hc : h.completed = none) :
    Untouched (past ++ [h]) := by
  intro h' hh'
  rcases List.mem_append.1 hh' with hh' | hh'
  · exact hp h' hh'
  · rw [List.mem_singleton.1 hh']
    exact ⟨ha, hc⟩

/-- What is untouched was applied at most once. -/
theorem Untouched.appliedOnce (hp : Untouched past) : AppliedOnce past :=
  List.pairwise_of_forall_mem_list fun h hh _ _ ha => (hp h hh).1 ha.1

/-- Whatever comes after nothing. -/
theorem Untouched.appliedOnce_append (hp : Untouched past) (h : Happened) :
    AppliedOnce (past ++ [h]) :=
  List.pairwise_append.2 ⟨hp.appliedOnce, List.pairwise_singleton _ _,
    fun h' hh' _ _ ha => (hp h' hh').1 ha.1⟩

/-- What applies nothing changes nothing about that. -/
theorem AppliedOnce.append (hp : AppliedOnce past) (ha : ¬ h.Applies) :
    AppliedOnce (past ++ [h]) := by
  refine List.pairwise_append.2 ⟨hp, List.pairwise_singleton _ _, fun h' _ h'' hh'' ha' => ha ?_⟩
  rw [← List.mem_singleton.1 hh'']
  exact ha'.2

/-- An answer keeps that completed events are repeated, when it agrees with all that
completed the event. -/
theorem Repeats.append (hr : Repeats past)
    (hagree : ∀ own b, h = .answered own b → ∀ h' ∈ past, ∀ a, h'.completed = some a → b = a) :
    Repeats (past ++ [h]) := by
  intro before a after heq hstatus own b hb
  rcases List.eq_nil_or_concat' after with rfl | ⟨after', last, rfl⟩
  · exact absurd hb List.not_mem_nil
  · rw [← List.cons_append, ← List.append_assoc] at heq
    obtain ⟨rfl, hlast⟩ := List.append_inj' heq rfl
    rcases List.mem_append.1 hb with hb | hb
    · exact hr before a after' rfl hstatus own b hb
    · have hb' : h = .answered own b := by
        rw [List.mem_singleton] at hb
        rw [hb]
        exact List.head_eq_of_cons_eq hlast
      refine hagree own b hb' (.answered true a) ?_ a (if_pos hstatus)
      simp

/-- While nothing completed the event, there is nothing to repeat. -/
theorem Repeats.of_uncompleted (hp : ∀ h ∈ past, h.completed = none) : Repeats past := by
  rintro before a after rfl hstatus
  have hnone := hp (.answered true a) (by simp)
  simp [Happened.completed, hstatus] at hnone

end Past

namespace Phase

/-- The copy holds the placeholder and its handler has not run. -/
def prepares : Phase → Bool
  | .placed _ | .deciding _ _ _ _ | .reopening _ _ | .ready _ _ => true
  | _ => false

/-- The copy holds the placeholder. -/
def owns : Phase → Bool
  | .handled _ _ _ => true
  | phase => phase.prepares

/-- A copy that prepares holds the placeholder. -/
theorem owns_of_prepares {phase : Phase} (h : phase.prepares = true) : phase.owns = true := by
  cases phase <;> first | rfl | cases h

end Phase

namespace Server

/-- No copy of the event but `c` holds its placeholder. -/
def OnlyOwner (s : Server) (c : CopyId) : Prop :=
  ∀ d cp, d ≠ c → d.event = c.event → s.copies d = some cp → cp.phase.owns = false

/-- No copy of the event holds its placeholder. -/
def Unowned (s : Server) (i : ℕ) : Prop :=
  ∀ d cp, d.event = i → s.copies d = some cp → cp.phase.owns = false

/-- The event has only a placeholder. -/
def InProgress (s : Server) (i : ℕ) : Prop := ∃ row, s.events.lookup i = some row ∧
    row.answer = none

/-- The event has a stored answer. -/
def Completed (s : Server) (i : ℕ) (a : Answer) : Prop :=
  ∃ row, s.events.lookup i = some row ∧ row.answer = some a

/-- The stages of an event. -/
inductive EventState (s : Server) (i : ℕ) : Prop
  | idle (hrow : s.events.lookup i = none) (hfree : s.Unowned i) (hpast : Untouched (s.past i))
  | held (c : CopyId) (cp : Copy) (hevent : c.event = i) (hc : s.copies c = some cp)
      (hphase : cp.phase.prepares = true) (honly : s.OnlyOwner c) (hrow : s.InProgress i)
      (hpast : Untouched (s.past i))
  | ran (c : CopyId) (cp : Copy) (time : EventTime) (reopened : Option Reopened) (outcome : Outcome)
      (hevent : c.event = i) (hc : s.copies c = some cp)
      (hphase : cp.phase = .handled time reopened outcome) (honly : s.OnlyOwner c)
      (hrow : s.InProgress i) (hok : ∀ status body, outcome = .ok status body → status = 200)
      (honce : AppliedOnce (s.past i)) (hopen : ∀ h ∈ s.past i, h.completed = none)
      (hfailed : outcome.stored = none → Untouched (s.past i))
  | abandoned (hfree : s.Unowned i) (hrow : s.InProgress i) (honce : AppliedOnce (s.past i))
      (hopen : ∀ h ∈ s.past i, h.completed = none)
  | completed (a : Answer) (hfree : s.Unowned i) (hrow : s.Completed i a)
      (honce : AppliedOnce (s.past i)) (hanswer : ∀ h ∈ s.past i, ∀ b, h.completed = some b → b = a)
      (hrepeats : Repeats (s.past i))

/-- A placeholder is taken over only when no copy holds it and no handler of the event had
an effect; no copy goes on, or is refused, after the event was completed without it; the
writes of answers go through; a handler answers 200 when it succeeds, and wrote nothing when
it fails transiently. -/
def IdempotentOk (s : Server) : ServerAction → Prop
  | .copy c .lookup => ∀ cp a, s.copies c = some cp → cp.request.header = .unreadable →
      ¬ s.Completed c.event a
  | .copy c (.check _) | .copy c .create => ∀ a, ¬ s.Completed c.event a
  | .copy c .takeOver => s.InProgress c.event →
      s.Unowned c.event ∧ ∀ h ∈ s.past c.event, ¬ h.Applies
  | .copy c .handle => ∀ cp time reopened, s.copies c = some cp → cp.phase = .ready time reopened →
      let run := cp.request.handler ((s.view c.event cp.request).handlerTime time) s.db
      (∀ status body, run.1 = .ok status body → status = 200) ∧ (run.1.stored = none → run.2 = s.db)
  | .copy c (.finish stored) => ∀ cp time reopened outcome, s.copies c = some cp →
      cp.phase = .handled time reopened outcome → outcome.stored ≠ none → stored = true
  | _ => True

namespace EventState

variable {s t : Server} {i : ℕ} {c : CopyId} {cp : Copy}

/-- At the start nothing is stored. -/
theorem start (db : Db) (clock : ℤ) (i : ℕ) : EventState (Server.start db clock) i :=
  .idle rfl (fun _ _ _ h => by cases h) fun _ h => absurd h List.not_mem_nil

/-- A copy that holds no placeholder moves, and may be answered: a completed event is repeated
as it was stored. -/
theorem outside (hs : EventState s i)
    (hc : c.event = i → ∀ cp, s.copies c = some cp → cp.phase.owns = false)
    (hc' : c.event = i → ∀ cp, t.copies c = some cp → cp.phase.owns = false)
    (hne : ∀ d, d ≠ c → t.copies d = s.copies d) (hrow : t.events.lookup i = s.events.lookup i)
    (hpast : t.past i = s.past i ∨ ∃ a, t.past i = s.past i ++ [.answered false a] ∧
      ∀ b, s.Completed i b → a = b) : EventState t i := by
  have hfree : s.Unowned i → t.Unowned i := by
    intro h d cp hd hdc
    by_cases hcd : d = c
    · subst hcd
      exact hc' hd cp hdc
    · exact h d cp hd (hne d hcd ▸ hdc)
  have hheld : ∀ d cp, d.event = i → s.copies d = some cp → cp.phase.owns = true → s.OnlyOwner d →
      t.copies d = some cp ∧ t.OnlyOwner d := by
    intro d cp hd hdc howns honly
    have hcd : d ≠ c := by
      rintro rfl
      rw [hc hd cp hdc] at howns
      cases howns
    refine ⟨(hne d hcd).trans hdc, fun d' cp' hd' hevent hdc' => ?_⟩
    by_cases hcd' : d' = c
    · subst hcd'
      exact hc' (hevent.trans hd) cp' hdc'
    · exact honly d' cp' hd' hevent (hne d' hcd' ▸ hdc')
  have huntouched : Untouched (s.past i) → Untouched (t.past i) := by
    rcases hpast with h | ⟨a, h, -⟩ <;> rw [h]
    · exact id
    · exact fun hp => hp.append id rfl
  have honce' : AppliedOnce (s.past i) → AppliedOnce (t.past i) := by
    rcases hpast with h | ⟨a, h, -⟩ <;> rw [h]
    · exact id
    · exact fun hp => hp.append id
  have hcompleted : ∀ h ∈ t.past i, h ∈ s.past i ∨ h.completed = none := by
    rcases hpast with h | ⟨a, h, -⟩ <;> rw [h]
    · exact fun h' hh' => Or.inl hh'
    · intro h' hh'
      rcases List.mem_append.1 hh' with hh' | hh'
      · exact Or.inl hh'
      · rw [List.mem_singleton.1 hh']
        exact Or.inr rfl
  have hopen' : (∀ h ∈ s.past i, h.completed = none) → ∀ h ∈ t.past i, h.completed = none :=
    fun hp h hh => (hcompleted h hh).elim (hp h) id
  have hprogress : s.InProgress i → t.InProgress i := by
    rintro ⟨row, h, ha⟩
    exact ⟨row, hrow.trans h, ha⟩
  cases hs with
  | idle hrow' hf hp => exact .idle (hrow.trans hrow') (hfree hf) (huntouched hp)
  | held d cp hd hdc hphase honly hrow' hp =>
    obtain ⟨hdc', honly'⟩ := hheld d cp hd hdc (Phase.owns_of_prepares hphase) honly
    exact .held d cp hd hdc' hphase honly' (hprogress hrow') (huntouched hp)
  | ran d cp time reopened outcome hd hdc hphase honly hrow' hok honce hopen hfailed =>
    obtain ⟨hdc', honly'⟩ := hheld d cp hd hdc (by rw [hphase]; rfl) honly
    exact .ran d cp time reopened outcome hd hdc' hphase honly' (hprogress hrow') hok (honce' honce)
      (hopen' hopen) fun h => huntouched (hfailed h)
  | abandoned hf hrow' honce hopen =>
    exact .abandoned (hfree hf) (hprogress hrow') (honce' honce) (hopen' hopen)
  | completed a hf hrow' honce hanswer hrepeats =>
    obtain ⟨row, hlookup, ha⟩ := hrow'
    refine .completed a (hfree hf) ⟨row, hrow.trans hlookup, ha⟩ (honce' honce) ?_ ?_
    · intro h hh b hb
      rcases hcompleted h hh with hh | hh
      · exact hanswer h hh b hb
      · rw [hh] at hb
        cases hb
    · rcases hpast with h | ⟨b, h, hb⟩ <;> rw [h]
      · exact hrepeats
      · refine hrepeats.append fun own b' heq h' hh' a' ha' => ?_
        cases heq
        rw [hb a ⟨row, hlookup, ha⟩, hanswer h' hh' a' ha']

/-- The stage of an event whose copy prepares: the copy alone holds it, and no handler has run. -/
theorem of_prepares (hs : EventState s c.event) (hc : s.copies c = some cp)
    (hphase : cp.phase.prepares = true) :
    s.OnlyOwner c ∧ s.InProgress c.event ∧ Untouched (s.past c.event) := by
  have howns := Phase.owns_of_prepares hphase
  cases hs with
  | held d cp' hd hdc hphase' honly hrow hp =>
    by_cases hcd : d = c
    · subst hcd
      exact ⟨honly, hrow, hp⟩
    · rw [honly c cp (Ne.symm hcd) hd.symm hc] at howns
      cases howns
  | ran d cp' time reopened outcome hd hdc hphase' honly =>
    by_cases hcd : d = c
    · subst hcd
      obtain rfl := Option.some.inj (hc.symm.trans hdc)
      rw [hphase'] at hphase
      cases hphase
    · rw [honly c cp (Ne.symm hcd) hd.symm hc] at howns
      cases howns
  | idle _ hf | abandoned hf | completed _ hf =>
    rw [hf c cp rfl hc] at howns
    cases howns

/-- The stage of an event whose handler ran in a copy that is not answered yet: it ran once
and with one answer. -/
theorem of_handled {time : EventTime} {reopened : Option Reopened} {outcome : Outcome}
    (hs : EventState s c.event) (hc : s.copies c = some cp)
    (hphase : cp.phase = .handled time reopened outcome) :
    s.OnlyOwner c ∧ s.InProgress c.event ∧
      (∀ status body, outcome = .ok status body → status = 200) ∧ AppliedOnce (s.past c.event) ∧
      (∀ h ∈ s.past c.event, h.completed = none) ∧
      (outcome.stored = none → Untouched (s.past c.event)) := by
  have howns : cp.phase.owns = true := by rw [hphase]; rfl
  cases hs with
  | held d cp' hd hdc hphase' honly =>
    by_cases hcd : d = c
    · subst hcd
      obtain rfl := Option.some.inj (hc.symm.trans hdc)
      rw [hphase] at hphase'
      cases hphase'
    · rw [honly c cp (Ne.symm hcd) hd.symm hc] at howns
      cases howns
  | ran d cp' time' reopened' outcome' hd hdc hphase' honly hrow hok honce hopen hfailed =>
    by_cases hcd : d = c
    · subst hcd
      obtain rfl := Option.some.inj (hc.symm.trans hdc)
      obtain ⟨rfl, rfl, rfl⟩ := Phase.handled.inj (hphase.symm.trans hphase')
      exact ⟨honly, hrow, hok, honce, hopen, hfailed⟩
    · rw [honly c cp (Ne.symm hcd) hd.symm hc] at howns
      cases howns
  | idle _ hf | abandoned hf | completed _ hf =>
    rw [hf c cp rfl hc] at howns
    cases howns

/-- An event with no row has no history to speak of. -/
theorem of_lookup_eq_none (hs : EventState s i) (hrow : s.events.lookup i = none) :
    s.Unowned i ∧ Untouched (s.past i) := by
  cases hs with
  | idle _ hf hp => exact ⟨hf, hp⟩
  | held _ _ _ _ _ _ hrow' | ran _ _ _ _ _ _ _ _ _ hrow' | abandoned _ hrow'
  | completed _ _ hrow' =>
    obtain ⟨row, h, -⟩ := hrow'
    rw [hrow] at h
    cases h

/-- A step of the only owner leaves it the only one. -/
theorem commit_onlyOwner {e : Effect} (h : s.OnlyOwner c) : (s.commit c cp e).OnlyOwner c := by
  intro d cp' hd hevent hdc
  rw [commit_copies_ne _ _ _ hd] at hdc
  exact h d cp' hd hevent hdc

/-- When the only owner of a placeholder lets go, nobody holds it. -/
theorem commit_unowned {e : Effect} (h : s.OnlyOwner c) (he : e.phase.owns = false) :
    (s.commit c cp e).Unowned c.event := by
  intro d cp' hd hdc
  by_cases hcd : d = c
  · subst hcd
    rw [commit_copies_self] at hdc
    obtain rfl := Option.some.inj hdc
    exact he
  · rw [commit_copies_ne _ _ _ hcd] at hdc
    exact h d cp' hcd hd hdc

/-- A step of a copy without the placeholder that leaves the row, and answers a completed event with
its answer if it answers. -/
theorem quiet {e : Effect} (hs : EventState s c.event) (hc : s.copies c = some cp)
    (hphase : cp.phase.owns = false) (he : e.phase.owns = false)
    (hrow : e.row = s.events.lookup c.event)
    (hhappened : e.happened = none ∨ ∃ a, e.happened = some (.answered false a) ∧
      ∀ b, s.Completed c.event b → a = b) : EventState (s.commit c cp e) c.event := by
  refine hs.outside (c := c) (fun _ cp' hc'' => ?_) (fun _ cp' hc'' => ?_)
    (fun d hd => commit_copies_ne _ _ _ hd) ((commit_lookup_self ..).trans hrow) ?_
  · obtain rfl := Option.some.inj (hc.symm.trans hc'')
    exact hphase
  · rw [commit_copies_self] at hc''
    obtain rfl := Option.some.inj hc''
    exact he
  · rw [past_commit_self]
    rcases hhappened with h | ⟨a, h, ha⟩ <;> rw [h]
    · exact Or.inl (List.append_nil _)
    · exact Or.inr ⟨a, rfl, ha⟩

/-- The copy with the placeholder goes on to its handler. -/
theorem prepare {e : Effect} (hs : EventState s c.event) (hc : s.copies c = some cp)
    (hphase : cp.phase.prepares = true) (he : e.phase.prepares = true)
    (hrow : e.row = s.events.lookup c.event) (hhappened : e.happened = none) :
    EventState (s.commit c cp e) c.event := by
  obtain ⟨honly, ⟨row, hlookup, ha⟩, hp⟩ := hs.of_prepares hc hphase
  refine .held c _ rfl (commit_copies_self ..) he (commit_onlyOwner honly)
    ⟨row, (commit_lookup_self ..).trans (hrow.trans hlookup), ha⟩ ?_
  rwa [past_commit_of_none hhappened]

/-- The handler ran and the copy goes on, with the same answer and the same row. -/
theorem keep {time : EventTime} {reopened reopened' : Option Reopened} {outcome : Outcome}
    {e : Effect} (hs : EventState s c.event) (hc : s.copies c = some cp)
    (hphase : cp.phase = .handled time reopened outcome)
    (he : e.phase = .handled time reopened' outcome) (hrow : e.row = s.events.lookup c.event)
    (hhappened : e.happened = none) : EventState (s.commit c cp e) c.event := by
  obtain ⟨honly, ⟨row, hlookup, ha⟩, hok, honce, hopen, hfailed⟩ := hs.of_handled hc hphase
  have hpast : (s.commit c cp e).past c.event = s.past c.event := past_commit_of_none hhappened
  refine .ran c _ time reopened' outcome rfl (commit_copies_self ..) he (commit_onlyOwner honly)
    ⟨row, (commit_lookup_self ..).trans (hrow.trans hlookup), ha⟩ hok ?_ ?_ ?_
  · rwa [hpast]
  · rwa [hpast]
  · rwa [hpast]

/-- The copy takes the event over from a crashed one, which had not run the handler to its end. -/
theorem takeOver {e : Effect} (hs : EventState s c.event) (hc : s.copies c = some cp)
    (hphase : cp.phase = .stale) (hok : s.IdempotentOk (.copy c .takeOver))
    (he : e = { (s.view c.event cp.request).stay .looked with
      row := (s.view c.event cp.request).forget }) : EventState (s.commit c cp e) c.event := by
  have howns : cp.phase.owns = false := by rw [hphase]; rfl
  have hforget : (s.view c.event cp.request).forget =
      (s.events.lookup c.event).filter fun row => row.answer.isSome := rfl
  subst he
  cases hlookup : s.events.lookup c.event with
  | none => exact hs.quiet hc howns rfl (by rw [hforget, hlookup]; rfl) (Or.inl rfl)
  | some row =>
    cases ha : row.answer with
    | some a =>
      exact hs.quiet hc howns rfl (by rw [hforget, hlookup]; simp [ha]) (Or.inl rfl)
    | none =>
      obtain ⟨hfree, hnot⟩ := hok ⟨row, hlookup, ha⟩
      have hopen : ∀ h ∈ s.past c.event, h.completed = none := by
        cases hs with
        | idle _ _ hp | held _ _ _ _ _ _ _ hp => exact fun h hh => (hp h hh).2
        | ran _ _ _ _ _ _ _ _ _ _ _ _ hopen | abandoned _ _ _ hopen => exact hopen
        | completed a _ hrow =>
          obtain ⟨row', h, ha'⟩ := hrow
          obtain rfl := Option.some.inj (hlookup.symm.trans h)
          rw [ha] at ha'
          cases ha'
      refine .idle ?_ (commit_unowned (fun d cp' _ hd hdc => hfree d cp' hd hdc) rfl) ?_
      · rw [commit_lookup_self, hforget, hlookup]
        simp [ha]
      · rw [past_commit_of_none rfl]
        exact fun h hh => ⟨hnot h hh, hopen h hh⟩

/-- The copy with the placeholder is answered: its event is completed with the answer, forgotten
after a refusal, or left to a later copy. -/
theorem finish {time : EventTime} {reopened : Option Reopened} {outcome : Outcome} {went : Bool}
    (hs : EventState s c.event) (hc : s.copies c = some cp)
    (hphase : cp.phase = .handled time reopened outcome)
    (hwent : outcome.stored ≠ none → went = true) :
    EventState (s.commit c cp ((s.view c.event cp.request).finish outcome went)) c.event := by
  obtain ⟨honly, ⟨row, hlookup, ha⟩, hok, honce, hopen, hfailed⟩ := hs.of_handled hc hphase
  have hfree : (s.commit c cp ((s.view c.event cp.request).finish outcome went)).Unowned c.event :=
    commit_unowned honly rfl
  have hpast : (s.commit c cp ((s.view c.event cp.request).finish outcome went)).past c.event =
      s.past c.event ++ [.answered true outcome.sent] := past_commit_self ..
  have hrow : (s.commit c cp ((s.view c.event cp.request).finish outcome went)).events.lookup
      c.event = ((s.view c.event cp.request).finish outcome went).row := commit_lookup_self ..
  cases hstored : outcome.stored with
  | some a =>
    have hsent : outcome.sent = a := by
      cases outcome with
      | ok status body =>
        rw [hok status body rfl]
        exact Option.some.inj hstored
      | error answer =>
        simp only [Outcome.stored, Option.ite_none_right_eq_some, Option.some.injEq] at hstored
        exact hstored.2
    obtain rfl := hwent (by rw [hstored]; nofun)
    refine .completed a hfree ⟨{ row with answer := some a }, ?_, rfl⟩ ?_ ?_ ?_
    · rw [hrow]
      simp [View.finish, hstored, view, hlookup]
    · rw [hpast]
      exact honce.append id
    · rw [hpast]
      intro h hh b hb
      rcases List.mem_append.1 hh with hh | hh
      · rw [hopen h hh] at hb
        cases hb
      · rw [List.mem_singleton.1 hh, Happened.completed, Option.ite_none_right_eq_some] at hb
        exact (Option.some.inj hb.2).symm.trans hsent
    · rw [hpast]
      refine (Repeats.of_uncompleted hopen).append fun own b _ h hh a' ha' => ?_
      rw [hopen h hh] at ha'
      cases ha'
  | none =>
    have huntouched : Untouched (s.past c.event ++ [.answered true outcome.sent]) := by
      refine (hfailed hstored).append id ?_
      cases outcome with
      | ok status body => cases hstored
      | error answer =>
        simp only [Outcome.stored, ite_eq_right_iff, reduceCtorEq, imp_false] at hstored
        simp [Happened.completed, Outcome.sent, hstored]
    rw [← hpast] at huntouched
    cases went with
    | true =>
      refine .idle ?_ hfree huntouched
      rw [hrow]
      simp [View.finish, hstored, View.forget, view, hlookup, ha]
    | false =>
      exact .abandoned hfree ⟨row, hrow.trans hlookup, ha⟩ huntouched.appliedOnce
        fun h hh => (huntouched h hh).2

/-- Every step of a copy of the event. -/
theorem commit {act : CopyAction} {e : Effect} (hs : EventState s c.event)
    (hc : s.copies c = some cp) (h : cp.step (s.view c.event cp.request) act = some e)
    (hok : s.IdempotentOk (.copy c act)) : EventState (s.commit c cp e) c.event := by
  cases Copy.step_cases h with
  | repeated row a hphase hrow ha =>
    refine hs.quiet hc (by rw [hphase]; rfl) rfl rfl (Or.inr ⟨a, rfl, ?_⟩)
    rintro b ⟨row', h', hb⟩
    obtain rfl := Option.some.inj (hrow.symm.trans h')
    exact Option.some.inj (ha.symm.trans hb)
  | unreadable hphase hheader =>
    exact hs.quiet hc (by rw [hphase]; rfl) rfl rfl
      (Or.inr ⟨_, rfl, fun b hb => absurd hb (hok cp b hc hheader)⟩)
  | running row hphase hrow ha =>
    refine hs.quiet hc (by rw [hphase]; rfl) rfl rfl (Or.inr ⟨_, rfl, ?_⟩)
    rintro b ⟨row', h', hb⟩
    obtain rfl := Option.some.inj (hrow.symm.trans h')
    rw [ha] at hb
    cases hb
  | stale hphase | looked hphase | checked _ _ hphase =>
    exact hs.quiet hc (by rw [hphase]; rfl) rfl rfl (Or.inl rfl)
  | refused locked refusal hphase =>
    exact hs.quiet hc (by rw [hphase]; rfl) rfl rfl
      (Or.inr ⟨_, rfl, fun b hb => absurd hb (hok b)⟩)
  | raced time row hphase =>
    exact hs.quiet hc (by rw [hphase]; rfl) rfl rfl
      (Or.inr ⟨_, rfl, fun b hb => absurd hb (hok b)⟩)
  | takenOver hphase => exact hs.takeOver hc hphase hok rfl
  | created time hphase hrow =>
    obtain ⟨hfree, hp⟩ := hs.of_lookup_eq_none hrow
    refine .held c _ rfl (commit_copies_self ..) ?_
      (commit_onlyOwner fun d cp' _ hd hdc => hfree d cp' hd hdc) ⟨_, commit_lookup_self .., rfl⟩ ?_
    · dsimp only
      split <;> rfl
    · rwa [past_commit_self, Option.toList_none, List.append_nil]
  | found _ _ _ hphase | goesOn _ _ _ _ _ _ hphase | decided _ _ _ hphase
  | reopened _ _ hphase => exact hs.prepare hc (by rw [hphase]; rfl) rfl rfl rfl
  | notReopened _ _ hphase =>
    refine hs.prepare hc ?_ rfl rfl rfl
    rcases hphase with hphase | ⟨last, stop, next, hphase⟩ <;> rw [hphase] <;> rfl
  | reopenFailed hphase =>
    have hprepares : cp.phase.prepares = true := by
      rcases hphase with ⟨time, hphase⟩ | ⟨time, last, stop, next, hphase⟩ | ⟨time, r, hphase⟩ <;>
        rw [hphase] <;> rfl
    obtain ⟨honly, ⟨row, hlookup, ha⟩, hp⟩ := hs.of_prepares hc hprepares
    refine .idle ?_ (commit_unowned honly rfl) ?_
    · rw [commit_lookup_self]
      simp [View.forget, view, hlookup, ha]
    · rw [past_commit_self]
      exact hp.append id rfl
  | ran time reopened hphase =>
    obtain ⟨honly, ⟨row, hlookup, ha⟩, hp⟩ := hs.of_prepares hc (by rw [hphase]; rfl)
    obtain ⟨hstatus, hfailed⟩ := hok cp time reopened hc hphase
    refine .ran c _ time reopened _ rfl (commit_copies_self ..) rfl (commit_onlyOwner honly)
      ⟨row, (commit_lookup_self ..).trans hlookup, ha⟩ hstatus ?_ ?_ fun hnone => ?_
    · rw [past_commit_self]
      exact hp.appliedOnce_append _
    · rw [past_commit_self]
      intro h' hh'
      rcases List.mem_append.1 hh' with hh' | hh'
      · exact (hp h' hh').2
      · rw [List.mem_singleton.1 hh']
        rfl
    · rw [past_commit_self]
      exact hp.append (fun ha' => ha'.elim (absurd hnone) (absurd (hfailed hnone))) rfl
  | restored time r a went hphase =>
    exact hs.keep hc hphase rfl rfl rfl
  | finished time reopened outcome went hphase =>
    exact hs.finish hc hphase (hok cp time reopened outcome hc hphase)
  | crashed hphase =>
    cases hphase' : cp.phase.owns with
    | false => exact hs.quiet hc hphase' rfl rfl (Or.inl rfl)
    | true =>
      have hpast : (s.commit c cp ((s.view c.event cp.request).stay .done)).past c.event =
          s.past c.event := (past_commit_self ..).trans (List.append_nil _)
      have hrow := commit_lookup_self s c cp ((s.view c.event cp.request).stay .done)
      cases hcase : cp.phase with
      | placed | deciding | reopening | ready =>
        obtain ⟨honly, ⟨row, hlookup, ha⟩, hp⟩ := hs.of_prepares hc (by rw [hcase]; rfl)
        refine .abandoned (commit_unowned honly rfl) ⟨row, hrow.trans hlookup, ha⟩ ?_ ?_
        · rw [hpast]
          exact hp.appliedOnce
        · rw [hpast]
          exact fun h hh => (hp h hh).2
      | handled =>
        obtain ⟨honly, ⟨row, hlookup, ha⟩, -, honce, hopen, -⟩ := hs.of_handled hc hcase
        refine .abandoned (commit_unowned honly rfl) ⟨row, hrow.trans hlookup, ha⟩ ?_ ?_
        · rwa [hpast]
        · rwa [hpast]
      | arrived | stale | looked | checked | done =>
        rw [hcase] at hphase'
        cases hphase'

/-- Every step that meets the condition keeps every event in one of the stages. -/
theorem step {a : ServerAction} (hs : ∀ i, EventState s i) (hok : s.IdempotentOk a)
    (h : s.step a = some t) (i : ℕ) : EventState t i := by
  cases a with
  | tick now =>
    obtain ⟨-, rfl⟩ := step_tick h
    -- no copy of the event `i + 1` concerns the event `i`
    exact (hs i).outside (c := ⟨i + 1, 0⟩) (fun h => by simp at h) (fun h => by simp at h)
      (fun _ _ => rfl) rfl (Or.inl rfl)
  | arrive c request =>
    obtain ⟨hnone, rfl⟩ := step_arrive h
    refine (hs i).outside (c := c) (fun _ cp hc => ?_) (fun _ cp hc => ?_)
      (fun d hd => receive_copies_ne _ _ hd) rfl (Or.inl rfl)
    · rw [hnone] at hc
      cases hc
    · rw [receive_copies_self] at hc
      obtain rfl := Option.some.inj hc
      rfl
  | copy c act =>
    obtain ⟨cp, e, hc, hstep, rfl⟩ := step_copy h
    by_cases hi : i = c.event
    · subst hi
      exact (hs c.event).commit hc hstep hok
    · exact (hs i).outside (c := c) (fun h => absurd h.symm hi) (fun h => absurd h.symm hi)
        (fun d hd => commit_copies_ne _ _ _ hd) (commit_lookup_ne _ _ _ hi)
        (Or.inl (past_commit_ne _ _ _ hi))

/-- What the stages have in common. -/
theorem past (hs : EventState s i) : AppliedOnce (s.past i) ∧ Repeats (s.past i) := by
  cases hs with
  | idle _ _ hp | held _ _ _ _ _ _ _ hp =>
    exact ⟨hp.appliedOnce, .of_uncompleted fun h hh => (hp h hh).2⟩
  | ran _ _ _ _ _ _ _ _ _ _ _ honce hopen | abandoned _ _ honce hopen =>
    exact ⟨honce, .of_uncompleted hopen⟩
  | completed a _ _ honce _ hrepeats => exact ⟨honce, hrepeats⟩

end EventState

end Server

/-- In every run whose steps meet `Server.IdempotentOk`, the effect of an event's handler is
applied at most once, and every request answered after the first one that completed the
event answers the same. -/
theorem event_ids_idempotent {db : Db} {clock : ℤ} {acts : List ServerAction} {s : Server}
    (h : Runs.run Server.step (Server.start db clock) acts = some s)
    (hok : Runs.Meets Server.step Server.IdempotentOk (Server.start db clock) acts) (i : ℕ) :
    (s.past i).Pairwise (fun h h' => ¬ (h.Applies ∧ h'.Applies)) ∧
    ∀ before a after, s.past i = before ++ .answered true a :: after → a.status < 500 →
      ∀ own b, .answered own b ∈ after → b = a := by
  have hs : ∀ i, Server.EventState s i :=
    Runs.invariant_run (fun s => ∀ i, Server.EventState s i)
      (fun _ _ _ hi ho hs => Server.EventState.step hi ho hs)
        (Server.EventState.start db clock) hok h
  exact (hs i).past

/-- A copy of a meeting start of 20:00 runs the event up to its handler, and what happens then. -/
def meetingEvent (rest : List ServerAction) : List ServerAction :=
  upToReopening ⟨0, 0⟩ (meetingStart 72000000) eveningSession ++ .copy ⟨0, 0⟩ .handle :: rest

/-- The copy crashes before its answer is stored; two minutes later the agent
sends the event again. -/
def crashAndRetry : List ServerAction :=
  meetingEvent [.copy ⟨0, 0⟩ .crash, .tick 86520000, .arrive ⟨0, 1⟩ (meetingStart 72000000),
    .copy ⟨0, 1⟩ .lookup, .copy ⟨0, 1⟩ .takeOver, .copy ⟨0, 1⟩ (.check none), .copy ⟨0, 1⟩ .create,
    .copy ⟨0, 1⟩ (.reopenRead eveningSession), .copy ⟨0, 1⟩ .handle]

/-- The meeting is started twice: the first presence session is closed, and there is a
second one. -/
theorem crash_applies_twice :
    ¬ ∀ (db : Db) (clock : ℤ) (acts : List ServerAction) (s : Server) (i : ℕ),
      Runs.run Server.step (Server.start db clock) acts = some s →
      (s.past i).Pairwise (fun h h' => ¬ (h.Applies ∧ h'.Applies)) := by
  intro h
  have hrun : Runs.run Server.step (Server.start eveningDay 86400000) crashAndRetry = some _ := rfl
  have honce : [Happened.ran _ _ _, .ran _ _ _].Pairwise _ := h _ _ _ _ 0 hrun
  have hchanges : ∀ db code body,
      (StartPresenceUseCase.execute freelancer .meeting "MEETING" 72000000 db).1 = .ok code body →
      (StartPresenceUseCase.execute freelancer .meeting "MEETING" 72000000 db).2 ≠ db :=
    fun _ _ _ => StartPresenceUseCase.execute_ne
  refine (List.pairwise_cons.1 honce).1 _ (List.mem_singleton_self _) ⟨Or.inr ?_, Or.inr ?_⟩
  · exact hchanges eveningDay 200 _ rfl
  · exact hchanges (StartPresenceUseCase.execute freelancer .meeting "MEETING" 72000000
      eveningDay).2 200 _ rfl

/-- The copy is answered and the agent sends the event again: it gets the same answer. -/
theorem meetingEvent_once :
    ∃ s, Runs.run Server.step (Server.start eveningDay 86400000)
        (meetingEvent [.copy ⟨0, 0⟩ (.finish true), .arrive ⟨0, 1⟩ (meetingStart 72000000),
          .copy ⟨0, 1⟩ .lookup]) = some s ∧
      (s.past 0).Pairwise (fun h h' => ¬ (h.Applies ∧ h'.Applies)) ∧
      ∀ before a after, s.past 0 = before ++ .answered true a :: after → a.status < 500 →
        ∀ own b, .answered own b ∈ after → b = a := by
  have hrun : Runs.run Server.step (Server.start eveningDay 86400000)
      (meetingEvent [.copy ⟨0, 0⟩ (.finish true), .arrive ⟨0, 1⟩ (meetingStart 72000000),
        .copy ⟨0, 1⟩ .lookup]) = some _ := rfl
  refine ⟨_, hrun, event_ids_idempotent hrun ?_ 0⟩
  refine .cons trivial rfl (.cons ?_ rfl (.cons ?_ rfl (.cons ?_ rfl (.cons trivial rfl
    (.cons ?_ rfl (.cons (fun _ _ _ _ _ _ _ => rfl) rfl (.cons trivial rfl
    (.cons ?_ rfl trivial))))))))
  · intro cp a hc hheader
    obtain rfl := Option.some.inj (show some _ = some cp from hc)
    exact absurd hheader (by decide)
  · rintro a ⟨row, hrow, -⟩
    exact nomatch (show none = some row from hrow)
  · rintro a ⟨row, hrow, -⟩
    exact nomatch (show none = some row from hrow)
  · intro cp time reopened hc _
    obtain rfl := Option.some.inj (show some _ = some cp from hc)
    exact ⟨fun status body heq => (StartPresenceUseCase.execute_ok heq).1,
      fun hnone => absurd hnone StartPresenceUseCase.execute_stored⟩
  · intro cp a hc hheader
    obtain rfl := Option.some.inj (show some _ = some cp from hc)
    exact absurd hheader (by decide)

end RxVision
