import RxVision.Lib.Runs
import RxVision.Approvals.Decisions
import RxVision.Approvals.Inbox

/-!
# Decisions and overruns of one break (`break-approvals.use-case.ts`, `finishBreak`)

The calls that decide or reopen one break record and the ends of the break that ask for its overrun,
interleaved: a call reads the record and checks it, and its transaction writes later. The row lock
orders the transactions; the read comes before the lock. An overrun asked for while the record is
already waiting changes neither its status nor anything the decision looks at, so a decision that
was read before it still goes through. `overrun_never_approved_unseen` is what holds as long as no
approval is overtaken in this way; what holds in every run are the parts about PENDING periods.
-/

namespace RxVision

/-- What a call asks for: `decideRecord` or `reopenRecord`. -/
inductive DecisionKind
  | approve | reject | reopen
  deriving DecidableEq, Repr

/-- A call between its read and its transaction. -/
structure DecisionCall where
  me : AuthenticatedUser
  kind : DecisionKind
  note : Option String
  /-- The record as its `findById` read it. -/
  read : ApprovalItem
  /-- A reviewer was routed for an overrun after the read. -/
  overtaken : Bool := false
  deriving DecidableEq, Repr

/-- One break record, the calls in flight on it, and what happened to it. -/
structure OverrunState where
  row : ApprovalItem
  calls : ℕ → Option DecisionCall
  /-- A `finishBreak` asked for the overrun with a reviewer. -/
  routed : Bool
  /-- The call of the last decision. -/
  decidedBy : Option DecisionCall
  /-- Number of times the record became PENDING. -/
  period : ℕ
  /-- The decisions made: the period and the call. -/
  decisions : List (ℕ × ℕ)

/-- The transactions and reads on the record. -/
inductive OverrunAction
  /-- `findById` and the checks of a call. -/
  | read (call : ℕ) (d : Directory) (me : AuthenticatedUser) (kind : DecisionKind)
      (note : Option String)
  /-- The `decide` transaction of a call. -/
  | commit (call : ℕ) (now start slaHours : ℤ) (monthOpen : Bool)
  | finishBreak (overrunSec : ℤ) (ask : Option OverrunAsk) (start slaHours : ℤ) (monthOpen : Bool)

/-- A new record: it waits, or needs no approval, and nobody asked for an overrun. -/
structure NewRecord (row : ApprovalItem) : Prop where
  status : row.status = .pending ∨ row.status = .notRequired
  overrunAsked : row.overrunAsked = false

/-- The state of a record as it is created. -/
def OverrunState.created (row : ApprovalItem) : OverrunState where
  row := row
  calls := fun _ => none
  routed := false
  decidedBy := none
  period := 0
  decisions := []

/-- The checks of a call on the record it read. -/
def DecisionKind.check (kind : DecisionKind) (d : Directory) (me : AuthenticatedUser)
    (record : ApprovalItem) : Except AppException Unit :=
  match kind with
  | .approve | .reject => checkDecide d me record
  | .reopen => checkReopen d me record

/-- The `decide` transaction of a call on the row as it is then. -/
def DecisionCall.write (c : DecisionCall) (row : ApprovalItem) (now start slaHours : ℤ)
    (monthOpen : Bool) : Option ApprovalItem :=
  match c.kind with
  | .approve => row.decide [.pending] ⟨.approved, some c.me.id, some now, c.note⟩ start slaHours
      monthOpen
  | .reject => row.decide [.pending] ⟨.rejected, some c.me.id, some now, c.note⟩ start slaHours
      monthOpen
  | .reopen => row.decide DECIDED .reopening start slaHours monthOpen

namespace OverrunState

variable (s : OverrunState)

/-- The calls in flight without one. -/
def without (call : ℕ) : ℕ → Option DecisionCall := fun n => if n = call then none else s.calls n

/-- The calls in flight, overtaken by an overrun when a reviewer was routed for one. -/
def overtake (routed : Bool) : ℕ → Option DecisionCall := fun n =>
  (s.calls n).map fun c => { c with overtaken := c.overtaken || routed }

/-- One step; a refused call is over and changes nothing. -/
def step : OverrunAction → Option OverrunState
  | .read call d me kind note =>
    if (s.calls call).isSome then none
    else
      match kind.check d me s.row with
      | .error _ => some s
      | .ok _ => some { s with
          calls := fun n => if n = call then some { me, kind, note, read := s.row } else s.calls n }
  | .commit call now start slaHours monthOpen =>
    match s.calls call with
    | none => none
    | some c =>
      match c.write s.row now start slaHours monthOpen with
      | none => some { s with calls := s.without call }
      | some row =>
        if c.kind = .reopen then
          some { s with row, calls := s.without call, period := s.period + 1 }
        else
          some { s with
            row, calls := s.without call, decidedBy := some c
            decisions := (s.period, call) :: s.decisions }
  | .finishBreak overrunSec ask start slaHours monthOpen =>
    match s.row.finishBreak overrunSec ask start slaHours monthOpen with
    | none => some s
    | some row =>
      let routed := (ask.bind OverrunAsk.routing).isSome
      some { s with
        row, calls := s.overtake routed, routed := s.routed || routed
        period := if s.row.status ≠ .pending ∧ row.status = .pending then s.period +
          1 else s.period }

/-! ## What a step does to the record -/

variable {s} {s' : OverrunState} {row row' : ApprovalItem} {c : DecisionCall} {call : ℕ}
  {now start slaHours overrunSec : ℤ} {monthOpen : Bool} {ask : Option OverrunAsk}

/-- A transaction that goes through decides a waiting record or reopens a decided one. -/
theorem write_cases (h : c.write row now start slaHours monthOpen = some row') :
    row'.overrunAsked = row.overrunAsked ∧
      ((c.kind = .reopen ∧ row.status ∈ DECIDED ∧ row'.status = .pending) ∨
        (c.kind = .approve ∧ row.status = .pending ∧ row'.status = .approved) ∨
        (c.kind = .reject ∧ row.status = .pending ∧ row'.status = .rejected)) := by
  unfold DecisionCall.write at h
  split at h
  · rename_i hkind
    obtain ⟨-, hstatus, -, rfl⟩ := ApprovalItem.decide_cases h
    exact ⟨rfl, Or.inr (Or.inl ⟨hkind, by simpa using hstatus, rfl⟩)⟩
  · rename_i hkind
    obtain ⟨-, hstatus, -, rfl⟩ := ApprovalItem.decide_cases h
    exact ⟨rfl, Or.inr (Or.inr ⟨hkind, by simpa using hstatus, rfl⟩)⟩
  · rename_i hkind
    obtain ⟨-, hstatus, -, rfl⟩ := ApprovalItem.decide_cases h
    exact ⟨rfl, Or.inl ⟨hkind, hstatus, rfl⟩⟩

/-- Nothing takes an asked overrun back. -/
theorem overrunAsked_finishBreak
    (h : row.finishBreak overrunSec ask start slaHours monthOpen = some row')
    (hasked : row.overrunAsked = true) : row'.overrunAsked = true := by
  unfold ApprovalItem.finishBreak at h
  simp only at h
  split at h
  · cases h
  cases ask with
  | none =>
    cases h
    exact hasked
  | some a =>
    cases hr : a.routing with
    | none =>
      simp only [hr] at h
      cases h
      rfl
    | some r =>
      simp only [hr] at h
      obtain rfl := Option.some.inj h
      split <;> rfl

/-- What a step can do, the record and the calls as they are after it. -/
theorem step_cases {a : OverrunAction} (h : s.step a = some s') :
    (s' = s) ∨
    (∃ call me kind note, s.calls call = none ∧ s' = { s with
      calls := fun n => if n = call then some { me, kind, note, read := s.row } else s.calls n }) ∨
    (∃ call, s' = { s with calls := s.without call }) ∨
    (∃ call c row now start slaHours monthOpen, a = .commit call now start slaHours monthOpen ∧
      s.calls call = some c ∧ c.write s.row now start slaHours monthOpen = some row ∧
      c.kind = .reopen ∧ s' = { s with row, calls := s.without call, period := s.period + 1 }) ∨
    (∃ call c row now start slaHours monthOpen, a = .commit call now start slaHours monthOpen ∧
      s.calls call = some c ∧ c.write s.row now start slaHours monthOpen = some row ∧
      c.kind ≠ .reopen ∧ s' = { s with
        row, calls := s.without call, decidedBy := some c
        decisions := (s.period, call) :: s.decisions }) ∨
    (∃ overrunSec ask start slaHours monthOpen row,
      a = .finishBreak overrunSec ask start slaHours monthOpen ∧
      s.row.finishBreak overrunSec ask start slaHours monthOpen = some row ∧
      s' = { s with
        row, calls := s.overtake (ask.bind OverrunAsk.routing).isSome
        routed := s.routed || (ask.bind OverrunAsk.routing).isSome
        period := if s.row.status ≠ .pending ∧ row.status = .pending then s.period + 1
          else s.period }) := by
  cases a with
  | read call d me kind note =>
    simp only [step] at h
    split at h
    · cases h
    rename_i hfree
    split at h
    · exact Or.inl (Option.some.inj h).symm
    · exact Or.inr (Or.inl ⟨call, me, kind, note, by simpa using hfree, (Option.some.inj h).symm⟩)
  | commit call now start slaHours monthOpen =>
    simp only [step] at h
    split at h
    · cases h
    rename_i c hc
    split at h
    · exact Or.inr (Or.inr (Or.inl ⟨call, (Option.some.inj h).symm⟩))
    rename_i row hw
    split at h
    · rename_i hkind
      exact Or.inr (Or.inr (Or.inr (Or.inl ⟨call, c, row, now, start, slaHours, monthOpen, rfl, hc,
        hw, hkind, (Option.some.inj h).symm⟩)))
    · rename_i hkind
      exact Or.inr (Or.inr (Or.inr (Or.inr (Or.inl ⟨call, c, row, now, start, slaHours, monthOpen,
        rfl, hc, hw, hkind, (Option.some.inj h).symm⟩))))
  | finishBreak overrunSec ask start slaHours monthOpen =>
    simp only [step] at h
    split at h
    · exact Or.inl (Option.some.inj h).symm
    · rename_i row hw
      exact Or.inr
        (Or.inr (Or.inr (Or.inr (Or.inr ⟨overrunSec, ask, start, slaHours, monthOpen, row,
        rfl, hw, (Option.some.inj h).symm⟩))))

/-! ## Waiting periods -/

/-- The decisions made so far are of different periods, and of earlier ones while the
record waits. -/
structure Periods (s : OverrunState) : Prop where
  le : ∀ p ∈ s.decisions, p.1 ≤ s.period
  waiting : s.row.status = .pending → ∀ p ∈ s.decisions, p.1 < s.period
  once : s.decisions.Pairwise fun p q => p.1 ≠ q.1

/-- A new record waits for the first time, or not at all. -/
theorem Periods.created (row : ApprovalItem) : Periods (.created row) where
  le := fun _ hp => by cases hp
  waiting := fun _ _ hp => by cases hp
  once := List.Pairwise.nil

/-- Every step keeps the count of its waits. -/
theorem Periods.step {a : OverrunAction} (h : s.Periods) (hstep : s.step a = some s') :
    s'.Periods := by
  rcases step_cases hstep with rfl | ⟨call, me, kind, note, -, rfl⟩ | ⟨call, rfl⟩ |
    ⟨call, c, row, now, start, slaHours, monthOpen, -, -, -, -, rfl⟩ |
    ⟨call, c, row, now, start, slaHours, monthOpen, -, -, hw, hkind, rfl⟩ |
    ⟨overrunSec, ask, start, slaHours, monthOpen, row, -, hw, rfl⟩
  · exact h
  · exact ⟨h.le, h.waiting, h.once⟩
  · exact ⟨h.le, h.waiting, h.once⟩
  · -- a reopened record starts a new period
    exact ⟨fun p hp => (h.le p hp).trans (Nat.le_succ _),
      fun _ p hp => Nat.lt_succ_of_le (h.le p hp),
      h.once⟩
  · -- a decision ends the period it is made in
    have hdecided : s.row.status = .pending ∧ row.status ≠ .pending := by
      obtain ⟨-, ⟨hk, -⟩ | ⟨-, hp, hs⟩ | ⟨-, hp, hs⟩⟩ := write_cases hw
      · exact absurd hk hkind
      · exact ⟨hp, by rw [hs]; decide⟩
      · exact ⟨hp, by rw [hs]; decide⟩
    refine ⟨?_, fun hp => absurd hp hdecided.2, ?_⟩
    · intro p hp
      rcases List.mem_cons.1 hp with rfl | hp
      · exact le_rfl
      · exact h.le p hp
    · exact List.pairwise_cons.2 ⟨fun p hp => (h.waiting hdecided.1 p hp).ne', h.once⟩
  · by_cases hnew : s.row.status ≠ .pending ∧ row.status = .pending
    · refine ⟨fun p hp => ?_, fun _ p hp => ?_, h.once⟩
      · dsimp only
        rw [if_pos hnew]
        exact (h.le p hp).trans (Nat.le_succ _)
      · dsimp only
        rw [if_pos hnew]
        exact Nat.lt_succ_of_le (h.le p hp)
    · refine ⟨fun p hp => ?_, fun hp p hmem => ?_, h.once⟩
      · dsimp only
        rw [if_neg hnew]
        exact h.le p hp
      · dsimp only
        rw [if_neg hnew]
        refine h.waiting ?_ p hmem
        by_contra hne
        exact hnew ⟨hne, hp⟩

/-- A reopening call's transaction, or an end of the break that asks with a reviewer. -/
def Reopens (s : OverrunState) : OverrunAction → Prop
  | .read .. => False
  | .commit call .. => ∃ c, s.calls call = some c ∧ c.kind = .reopen
  | .finishBreak _ ask .. => (ask.bind OverrunAsk.routing).isSome = true

/-- A decided record changes its status in no other way. -/
theorem reopens_of_status_ne {a : OverrunAction} (hstep : s.step a = some s')
    (hdecided : s.row.status ∈ DECIDED) (hne : s'.row.status ≠ s.row.status) : s.Reopens a := by
  rcases step_cases hstep with rfl | ⟨call, me, kind, note, -, rfl⟩ | ⟨call, rfl⟩ |
    ⟨call, c, row, now, start, slaHours, monthOpen, rfl, hc, -, hkind, -⟩ |
    ⟨call, c, row, now, start, slaHours, monthOpen, rfl, hc, hw, hkind, rfl⟩ |
    ⟨overrunSec, ask, start, slaHours, monthOpen, row, rfl, hw, rfl⟩
  · exact absurd rfl hne
  · exact absurd rfl hne
  · exact absurd rfl hne
  · exact ⟨c, hc, hkind⟩
  · exfalso
    obtain ⟨-, ⟨hk, -⟩ | ⟨-, hp, -⟩ | ⟨-, hp, -⟩⟩ := write_cases hw
    · exact hkind hk
    · rw [hp] at hdecided
      simp [DECIDED] at hdecided
    · rw [hp] at hdecided
      simp [DECIDED] at hdecided
  · obtain ⟨-, ⟨ask', r, rfl, hr, -⟩ | ⟨-, hstatus, -⟩⟩ := ApprovalItem.finishBreak_cases hw
    · change ((some ask').bind OverrunAsk.routing).isSome = true
      simp [hr]
    · exact absurd hstatus hne

/-! ## Approved with the overrun in sight -/

/-- An approval that was not overtaken by an overrun its call had not read. -/
def MayStep (s : OverrunState) : OverrunAction → Prop
  | .commit call .. => ∀ c, s.calls call = some c → c.kind = .approve → c.overtaken = true →
      c.read.overrunAsked = true
  | _ => True

/-- Once a reviewer was routed for the overrun, calls that were not overtaken have read it, and so
had the call that approved the record. -/
structure Inv (s : OverrunState) : Prop where
  asked : s.routed = true → s.row.overrunAsked = true
  read : ∀ n c, s.calls n = some c → c.overtaken = false → s.routed = true →
    c.read.overrunAsked = true
  approved : s.row.status = .approved → ∃ c, s.decidedBy = some c ∧ c.kind = .approve ∧
    (s.routed = true → c.read.overrunAsked = true)

/-- A new record has no overrun to review. -/
theorem Inv.created {row : ApprovalItem} (h : NewRecord row) : Inv (.created row) where
  asked := fun hr => by cases hr
  read := fun _ _ hc => by cases hc
  approved := by
    intro ha
    have ha : row.status = .approved := ha
    rcases h.status with hs | hs <;> rw [hs] at ha <;> cases ha

/-- The other calls stay. -/
theorem without_some {n : ℕ} (h : s.without call n = some c) : s.calls n = some c := by
  unfold without at h
  split at h
  · cases h
  · exact h

/-- Every step keeps the overrun reviewed, when the approvals are of what they read. -/
theorem Inv.step {a : OverrunAction} (h : s.Inv) (hmay : s.MayStep a) (hstep : s.step a = some s') :
    s'.Inv := by
  rcases step_cases hstep with rfl | ⟨call, me, kind, note, -, rfl⟩ | ⟨call, rfl⟩ |
    ⟨call, c, row, now, start, slaHours, monthOpen, rfl, hc, hw, hkind, rfl⟩ |
    ⟨call, c, row, now, start, slaHours, monthOpen, rfl, hc, hw, hkind, rfl⟩ |
    ⟨overrunSec, ask, start, slaHours, monthOpen, row, rfl, hw, rfl⟩
  · exact h
  · refine ⟨h.asked, fun n c hc hover hrouted => ?_, h.approved⟩
    dsimp only at hc
    split at hc
    · cases hc
      exact h.asked hrouted
    · exact h.read n c hc hover hrouted
  · exact ⟨h.asked, fun n c hc => h.read n c (without_some hc), h.approved⟩
  · obtain ⟨hasked, hcases⟩ := write_cases hw
    refine ⟨fun hrouted => hasked.trans (h.asked hrouted),
      fun n c hc => h.read n c (without_some hc), fun happroved => ?_⟩
    rcases hcases with ⟨-, -, hs⟩ | ⟨hk, -⟩ | ⟨hk, -⟩
    · exact absurd (hs.symm.trans happroved) (by decide)
    · rw [hkind] at hk
      cases hk
    · rw [hkind] at hk
      cases hk
  · obtain ⟨hasked, hcases⟩ := write_cases hw
    refine ⟨fun hrouted => hasked.trans (h.asked hrouted),
      fun n c hc => h.read n c (without_some hc), fun happroved => ?_⟩
    rcases hcases with ⟨hk, -⟩ | ⟨hk, -, -⟩ | ⟨-, -, hs⟩
    · exact absurd hk hkind
    · refine ⟨c, rfl, hk, fun hrouted => ?_⟩
      cases hover : c.overtaken with
      | false => exact h.read call c hc hover hrouted
      | true => exact hmay c hc hk hover
    · exact absurd (hs.symm.trans happroved) (by decide)
  · obtain ⟨-, hcases⟩ := ApprovalItem.finishBreak_cases hw
    rcases hcases with ⟨ask', r, rfl, hr, -, hpending, -, hasked, -⟩ | ⟨hnone, hstatus, -⟩
    · refine ⟨fun _ => hasked, fun n c hc hover => ?_, fun happroved => ?_⟩
      · obtain ⟨c', -, rfl⟩ := Option.map_eq_some_iff.1 hc
        simp [hr] at hover
      · exact absurd (hpending.symm.trans happroved) (by decide)
    · have hrouted : (s.routed || (ask.bind OverrunAsk.routing).isSome) = s.routed := by
        simp [hnone]
      refine ⟨fun hr => ?_, fun n c hc hover hr => ?_, fun happroved => ?_⟩
      · exact overrunAsked_finishBreak hw (h.asked (hrouted ▸ hr))
      · obtain ⟨c', hc', rfl⟩ := Option.map_eq_some_iff.1 hc
        simp only [Bool.or_eq_false_iff] at hover
        exact h.read n c' hc' hover.1 (hrouted ▸ hr)
      · obtain ⟨c, hc, hk, hread⟩ := h.approved (hstatus.symm.trans happroved)
        exact ⟨c, hc, hk, fun hr => hread (hrouted ▸ hr)⟩

/-- An approved record with an overrun a reviewer was routed for was approved by a call
that read the overrun. -/
def OverrunSeen (s : OverrunState) : Prop :=
  s.row.status = .approved → s.row.overrunAsked = true → s.routed = true →
    ∃ c, s.decidedBy = some c ∧ c.kind = .approve ∧ c.read.overrunAsked = true

/-- In every run in which no approval is overtaken by an overrun its call had not read, an approved
overrun was read by the call that approved it; every waiting period is decided once at most, and a
decided record is put back only by a reopen or by an end of the break that asks. -/
theorem overrun_never_approved_unseen {row : ApprovalItem} {as : List OverrunAction}
    (hrow : NewRecord row) (hmay : Runs.Meets step MayStep (.created row) as)
    (hrun : Runs.run step (.created row) as = some s) :
    s.OverrunSeen ∧ (s.decisions.Pairwise fun p q => p.1 ≠ q.1) ∧
      ∀ a s', s.step a = some s' → s.row.status ∈ DECIDED → s'.row.status ≠ s.row.status →
        s.Reopens a := by
  have hinv : s.Inv ∧ s.Periods :=
    Runs.invariant_run (fun s => s.Inv ∧ s.Periods)
      (fun s a s' hs hok hstep => ⟨hs.1.step hok hstep, hs.2.step hstep⟩)
      ⟨Inv.created hrow, Periods.created row⟩ hmay hrun
  refine ⟨fun happroved _ hrouted => ?_, hinv.2.once, fun a s' => reopens_of_status_ne⟩
  obtain ⟨c, hc, hk, hread⟩ := hinv.1.approved happroved
  exact ⟨c, hc, hk, hread hrouted⟩

/-! ## One break of Staff -/

/-- A Super Admin approves, from what they read, a break of Staff 2. -/
def readBreak : OverrunAction := .read 0 smallOrg (pickingAdmin (.printed 0)) .approve none

def approveRead : OverrunAction := .commit 0 1000 1000 24 true

/-- The break ends ten minutes late, and its person asks for the time to count. -/
def finishLate : OverrunAction :=
  .finishBreak 600 (some ⟨some "Call with a client", some ⟨some .manager, none⟩⟩) 900 24 true

/-- The overrun is asked for between the read and the transaction of an approval, and approved. -/
theorem overrun_approved_unseen :
    ∃ s, Runs.run step (.created smallItem) [readBreak, finishLate, approveRead] = some s ∧
      ¬s.OverrunSeen := by
  refine ⟨_, rfl, fun h => ?_⟩
  obtain ⟨c, hc, -, hread⟩ := h rfl rfl rfl
  cases hc
  cases hread

/-- Read after the break ended, the same approval has seen the overrun. -/
theorem overrun_approved_seen :
    ∃ s, Runs.run step (.created smallItem) [finishLate, readBreak, approveRead] = some s ∧
      s.row.status = .approved ∧ s.OverrunSeen := by
  have hmay : Runs.Meets step MayStep (.created smallItem)
      [finishLate, readBreak, approveRead] := by
    refine .cons trivial rfl (.cons trivial rfl (.cons ?_ rfl trivial))
    rintro c hc - hover
    cases hc
    cases hover
  exact ⟨_, rfl, rfl, (overrun_never_approved_unseen ⟨Or.inl rfl, rfl⟩ hmay rfl).1⟩

end OverrunState

end RxVision
