import RxVision.Replay.Handlers

/-!
# The order of replayed actions

`begin` compares a replayed action with the events whose answer is stored, and with nothing else: an
action that is still running has only its placeholder. So what a replayed handler starts with is in
order with the actions completed when its own check read the events (`replayed_in_order`), and not
with those that run beside it (`runs_out_of_order`).
-/

namespace RxVision

/-- A step of a copy keeps the time of its checks; `check` gives a replayed one that is in order. -/
theorem Copy.step_time {cp : Copy} {v : View} {act : CopyAction} {e : Effect} {time : EventTime}
    (h : cp.step v act = some e) (ht : e.phase.time = some time) :
    cp.phase.time = some time ∨
      ∃ locked, act = .check locked ∧
        (time.replay = true → inOrder v.last time.eventAt = true) := by
  cases Copy.step_cases h with
  | checked locked time' _ horder =>
    obtain rfl := Option.some.inj ht
    exact Or.inr ⟨locked, rfl, horder⟩
  | created time' hphase _ =>
    refine Or.inl ?_
    rw [hphase, ← ht]
    dsimp only
    split <;> rfl
  | found _ _ _ hphase | goesOn _ _ _ _ _ _ hphase | decided _ _ _ hphase | reopened _ _ hphase
  | ran _ _ hphase | restored _ _ _ _ hphase =>
    refine Or.inl ?_
    rw [hphase, ← ht]
    rfl
  | notReopened _ _ hphase =>
    refine Or.inl ?_
    rw [← ht]
    rcases hphase with hphase | ⟨last, stop, next, hphase⟩ <;> rw [hphase] <;> rfl
  | repeated | unreadable | running | stale | looked | takenOver | refused | raced | reopenFailed
  | finished | crashed => cases ht

namespace Server

/-- The copy `c` was checked during `acts`, when no completed replay action lay more than
the tolerance after `t`. -/
def InOrderAtCheck (s : Server) (acts : List ServerAction) (c : CopyId)
    (api : List String) (t : ℤ) :
    Prop :=
  ∃ before locked after s₀, acts = before ++ .copy c (.check locked) :: after ∧
    Runs.run Server.step s before = some s₀ ∧
    ∀ i e, s₀.events.lookup i = some e → e.Counts api → e.eventAt - ORDER_TOLERANCE_MS ≤ t

variable {s s' t : Server} {acts past : List ServerAction} {c : CopyId} {api : List String}

/-- One more action of the past changes nothing of what was checked. -/
theorem InOrderAtCheck.append {τ : ℤ} (h : s.InOrderAtCheck past c api τ) (a : ServerAction) :
    s.InOrderAtCheck (past ++ [a]) c api τ := by
  obtain ⟨before, locked, after, s₀, rfl, hrun, hevents⟩ := h
  exact ⟨before, locked, after ++ [a], s₀, by simp, hrun, hevents⟩

/-- Every copy with a replayed time was checked in order on the way to the state. -/
def CheckedInOrder (s : Server) (past : List ServerAction) (t : Server) : Prop :=
  Runs.run Server.step s past = some t ∧
    ∀ c cp time, t.copies c = some cp → cp.phase.time = some time → time.replay = true →
      s.InOrderAtCheck past c cp.request.api time.eventAt

/-- Every step keeps it. -/
theorem CheckedInOrder.step {a : ServerAction} (hi : s.CheckedInOrder past t)
    (h : t.step a = some s') : s.CheckedInOrder (past ++ [a]) s' := by
  obtain ⟨hrun, hchecked⟩ := hi
  refine ⟨Runs.run_append_eq_some.2 ⟨t, hrun, by simp [h]⟩, ?_⟩
  intro c cp time hc htime hreplay
  cases a with
  | tick now =>
    obtain ⟨-, rfl⟩ := step_tick h
    exact (hchecked c cp time hc htime hreplay).append _
  | arrive d request =>
    obtain ⟨-, rfl⟩ := step_arrive h
    by_cases hcd : c = d
    · subst hcd
      rw [receive_copies_self] at hc
      obtain rfl := Option.some.inj hc
      cases htime
    · rw [receive_copies_ne _ _ hcd] at hc
      exact (hchecked c cp time hc htime hreplay).append _
  | copy d act =>
    obtain ⟨cp', e, hd, hstep, rfl⟩ := step_copy h
    by_cases hcd : c = d
    · subst hcd
      rw [commit_copies_self] at hc
      obtain rfl := Option.some.inj hc
      rcases Copy.step_time hstep htime with hold | ⟨locked, rfl, horder⟩
      · exact (hchecked c cp' time hd hold hreplay).append _
      · exact ⟨past, locked, [], t, rfl, hrun, inOrder_lastEvent.1 (horder hreplay)⟩
    · rw [commit_copies_ne _ _ _ hcd] at hc
      exact (hchecked c cp time hc htime hreplay).append _

/-- The step by which the handler of the copy `c` starts at the replayed time `τ`. -/
def Starts (s : Server) (c : CopyId) (cp : Copy) (τ : ℤ) : Prop :=
  s.copies c = some cp ∧
    ∃ time reopened, cp.phase = .ready time reopened ∧ time.replay = true ∧ time.eventAt = τ

/-- A handler that starts at a replayed time runs at it. -/
theorem Starts.step {cp : Copy} {τ : ℤ} (h : s.Starts c cp τ) :
    ∃ t, s.step (.copy c .handle) = some t ∧ t.db = (cp.request.handler τ s.db).2 := by
  obtain ⟨hc, time, reopened, hphase, hreplay, rfl⟩ := h
  refine ⟨s.commit c cp (cp.handle (s.view c.event cp.request) time reopened), ?_, ?_⟩
  · simp [Server.step, hc, Copy.step, hphase]
  · simp [commit, Copy.handle, View.handlerTime, hreplay, view]

end Server

/-- A replayed handler starts with an event time at most the tolerance before those of the replay
actions whose answer was stored when its own order check read the events. What is stored between the
check and the start is not compared, as the check is not repeated. -/
theorem replayed_in_order {db : Db} {clock : ℤ} {acts : List ServerAction} {s : Server} {c : CopyId}
    {cp : Copy} {τ : ℤ} (h : Runs.run Server.step (Server.start db clock) acts = some s)
    (hstarts : s.Starts c cp τ) :
    ∃ before locked after s₀, acts = before ++ .copy c (.check locked) :: after ∧
      Runs.run Server.step (Server.start db clock) before = some s₀ ∧
      ∀ i e, s₀.events.lookup i = some e → e.answer.isSome = true →
        e.kind ∈ replayKinds cp.request.api → e.eventAt - ORDER_TOLERANCE_MS ≤ τ := by
  have hi : (Server.start db clock).CheckedInOrder ([] ++ acts) s :=
    Runs.invariant_run_past (Server.start db clock).CheckedInOrder
      (fun _ _ _ _ hi hs => hi.step hs) ⟨rfl, fun _ _ _ hc => by cases hc⟩ h
  obtain ⟨hc, time, reopened, hphase, hreplay, rfl⟩ := hstarts
  obtain ⟨before, locked, after, s₀, hacts, hrun, hevents⟩ :=
    hi.2 c cp time hc (by rw [hphase]; rfl) hreplay
  exact ⟨before, locked, after, s₀, hacts, hrun, fun i e he ha hk => hevents i e he ⟨ha, hk⟩⟩

/-- With a meeting start of 19:50 completed, one of 20:05 runs while one of 20:00 is replayed. -/
def overlappingMeetings : List ServerAction :=
  upToReopening ⟨2, 0⟩ (meetingStart 71400000) eveningSession ++
    [.copy ⟨2, 0⟩ .handle, .copy ⟨2, 0⟩ (.finish true)] ++
    upToReopening ⟨0, 0⟩ (meetingStart 72300000) eveningSession ++ [.copy ⟨0, 0⟩ .handle] ++
    upToReopening ⟨1, 0⟩ (meetingStart 72000000) eveningSession

/-- The handler of the third request starts five minutes before the second one, which is running. -/
theorem runs_out_of_order :
    ¬ ∀ (db : Db) (clock : ℤ) (acts : List ServerAction) (s : Server) (c d : CopyId) (cp cp' : Copy)
        (τ : ℤ) (time : EventTime) (reopened : Option Reopened) (outcome : Outcome),
      Runs.run Server.step (Server.start db clock) acts = some s → s.Starts c cp τ →
      d.event ≠ c.event → s.copies d = some cp' → cp'.phase = .handled time reopened outcome →
      time.eventAt - ORDER_TOLERANCE_MS ≤ τ := by
  intro h
  have hrun : Runs.run Server.step (Server.start eveningDay 86400000) overlappingMeetings =
      some _ := rfl
  have hle := h _ _ _ _ ⟨1, 0⟩ ⟨0, 0⟩ _ _ 72000000 ⟨72300000, true⟩ none _ hrun
    ⟨rfl, ⟨72000000, true⟩, none, rfl, rfl, rfl⟩ (by decide) rfl rfl
  exact absurd hle (by decide)

/-- Each of them was in order with what was completed at its check, the third with the first. -/
theorem overlappingMeetings_checked :
    ∃ s cp, Runs.run Server.step (Server.start eveningDay 86400000) overlappingMeetings = some s ∧
      s.Starts ⟨1, 0⟩ cp 72000000 ∧
      (∃ e, s.events.lookup 2 = some e ∧ e.answer.isSome = true ∧
        e.kind ∈ replayKinds cp.request.api) ∧
      ∃ before locked after s₀,
        overlappingMeetings = before ++ .copy ⟨1, 0⟩ (.check locked) :: after ∧
        Runs.run Server.step (Server.start eveningDay 86400000) before = some s₀ ∧
        ∀ i e, s₀.events.lookup i = some e → e.answer.isSome = true →
          e.kind ∈ replayKinds cp.request.api → e.eventAt - ORDER_TOLERANCE_MS ≤ 72000000 := by
  have hrun : Runs.run Server.step (Server.start eveningDay 86400000) overlappingMeetings =
      some _ := rfl
  refine ⟨_, _, hrun, ⟨rfl, ⟨72000000, true⟩, none, rfl, rfl, rfl⟩, ⟨_, rfl, rfl, by decide⟩, ?_⟩
  exact replayed_in_order hrun ⟨rfl, ⟨72000000, true⟩, none, rfl, rfl, rfl⟩

end RxVision
