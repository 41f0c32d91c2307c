import Mathlib.Algebra.Order.Ring.Int
import RxVision.Activity.Samples
import RxVision.Lib.Runs
import RxVision.Lib.Table

/-!
# Online time (`heartbeat.use-case.ts`, `prisma-online-session.repository.ts`)

The agent's heartbeats extend a person's online session, or close it and open another one after a
gap. An advisory lock lets one heartbeat of a person at a time read and write; whatever closes a
session (an idle heartbeat, one after the day has ended, the end of the day) takes no lock, and may
write what it has read before a heartbeat. Still no moment is counted twice, and none that is not
close behind a heartbeat, as long as the heartbeats are recorded in the order in which they began
(`online_time_counted_once`).

The sessions of one person; every statement names the person. `localDate` is the server's calendar.
-/

namespace RxVision

/-- `online_sessions`. -/
structure OnlineSession where
  id : ℕ
  date : ℕ
  startedAt : ℤ
  lastSeenAt : ℤ
  endedAt : Option ℤ := none
  durationSec : Option ℤ := none
  deriving DecidableEq, Repr

namespace OnlineSession

/-- The end of the interval, as `listIntervalsForUserByDate` has it. -/
def stop (r : OnlineSession) : ℤ := r.endedAt.getD r.lastSeenAt

/-- `seconds`. -/
def seconds (r : OnlineSession) : ℤ :=
  match r.endedAt with
  | some endedAt => r.durationSec.getD (elapsedSeconds r.startedAt endedAt)
  | none => elapsedSeconds r.startedAt r.lastSeenAt

/-- The row once somebody who has read it as `read` closes it. -/
def closedAs (read r : OnlineSession) : OnlineSession :=
  { r with
    endedAt := some read.lastSeenAt
    durationSec := some (elapsedSeconds read.startedAt read.lastSeenAt) }

end OnlineSession

/-- `GRACE_SEC`. -/
def GRACE_SEC : ℤ := 150

abbrev OnlineSessions := Table OnlineSession.id

namespace OnlineSessions

variable (sessions : OnlineSessions)

/-- `findFirst` of the open session that started last. -/
def findOpen :
    Option OnlineSession := sessions.findLast? (fun r => r.endedAt.isNone) OnlineSession.startedAt

/-- The update that closes a session. -/
def close (read : OnlineSession) : OnlineSessions :=
  sessions.updateMany (fun r => r.id = read.id) read.closedAs fun _ => rfl

/-- `heartbeat`, after the read of the open session. -/
def heartbeat (localDate : ℤ → ℕ) (now : ℤ) (found : Option OnlineSession) : OnlineSessions :=
  let date := localDate now
  let opened (sessions : OnlineSessions) : OnlineSessions :=
    sessions.create (fun id => { id, date, startedAt := now, lastSeenAt := now }) fun _ => rfl
  match found with
  | some r =>
    if r.date = date ∧ elapsedSeconds r.lastSeenAt now ≤ GRACE_SEC then
      sessions.updateMany (fun r' => r'.id = r.id) (fun r' => { r' with lastSeenAt := now })
        fun _ => rfl
    else opened (sessions.close r)
  | none => opened sessions

end OnlineSessions

/-- A heartbeat that holds the lock: when it began, and the open session that it has read. -/
structure HeldBeat where
  now : ℤ
  found : Option OnlineSession

/-- The heartbeats that ask whether the day has ended, those that wait for the lock, the one that
holds it, the reads of whoever closes a session, and when the recorded heartbeats began. -/
structure OnlineDesk where
  clock : ℤ
  sessions : OnlineSessions
  asked : List (ℤ × Bool)
  waiting : List ℤ
  holder : Option HeldBeat
  closing : List OnlineSession
  beats : List ℤ

inductive OnlineAction
  | tick (now : ℤ)
  /-- `HeartbeatUseCase.execute`. -/
  | execute (idle : Bool)
  /-- `findEnd` answers. -/
  | findEnd (beat : ℤ × Bool) (ended : Bool)
  | lock (now : ℤ)
  | commit
  /-- `closeOpenForUser` reads. -/
  | readOpen
  | close (read : OnlineSession)

namespace OnlineDesk

variable (localDate : ℤ → ℕ)

/-- No heartbeat has come yet. -/
def start (clock : ℤ) : OnlineDesk := ⟨clock, .empty, [], [], none, [], []⟩

def step (s : OnlineDesk) : OnlineAction → Option OnlineDesk
  | .tick now => if s.clock ≤ now then some { s with clock := now } else none
  | .execute idle => some { s with asked := (s.clock, idle) :: s.asked }
  | .findEnd beat ended =>
    if beat ∈ s.asked then
      -- an idle heartbeat, or one after the end of the day, goes on to close the open session
      if ended || beat.2 then some { s with asked := s.asked.erase beat }
      else some { s with asked := s.asked.erase beat, waiting := beat.1 :: s.waiting }
    else none
  | .lock now =>
    if now ∈ s.waiting ∧ s.holder.isNone then
      some { s with waiting := s.waiting.erase now, holder := some ⟨now, s.sessions.findOpen⟩ }
    else none
  | .commit =>
    match s.holder with
    | some ⟨now, found⟩ => some { s with
        sessions := s.sessions.heartbeat localDate now found
        holder := none
        beats := now :: s.beats }
    | none => none
  | .readOpen =>
    match s.sessions.findOpen with
    | some r => some { s with closing := r :: s.closing }
    | none => some s
  | .close read =>
    if read ∈ s.closing then
      some { s with sessions := s.sessions.close read, closing := s.closing.erase read }
    else none

/-- Heartbeats are recorded in the order in which they began. -/
def InOrder (s : OnlineDesk) : OnlineAction → Prop
  | .commit => ∀ held ∈ s.holder, ∀ b ∈ s.beats, b ≤ held.now
  | _ => True

/-! ## What every step keeps -/

variable {localDate} {s s' : OnlineDesk} {act : OnlineAction} {acts : List OnlineAction}
  {r r' : OnlineSession} {sessions : OnlineSessions} {beats : List ℤ} {now : ℤ}

/-- A session is what its heartbeats leave: from its start to the last of them some heartbeat is
never far behind, and it ends at one of them at the latest. -/
structure Beaten (beats : List ℤ) (r : OnlineSession) : Prop where
  last : r.lastSeenAt ∈ beats
  le : r.startedAt ≤ r.lastSeenAt
  near : ∀ t, r.startedAt ≤ t → t ≤ r.lastSeenAt → ∃ b ∈ beats, b ≤ t ∧ t < b + 150500
  ended : ∀ e ∈ r.endedAt, r.startedAt ≤ e ∧ e ≤ r.lastSeenAt ∧ r.durationSec =
    some (elapsedSeconds r.startedAt e)

/-- Somebody has read the row, and heartbeats may have extended it since. -/
def ReadOf (sessions : OnlineSessions) (read : OnlineSession) : Prop :=
  read.startedAt ≤ read.lastSeenAt ∧
    ∃ r ∈ sessions, r.id = read.id ∧ r.startedAt = read.startedAt ∧ read.lastSeenAt ≤ r.lastSeenAt

structure Counted (s : OnlineDesk) : Prop where
  beaten : ∀ r ∈ s.sessions, Beaten s.beats r
  apart : ∀ r ∈ s.sessions, ∀ r' ∈ s.sessions, r.id < r'.id → r.endedAt ≠ none ∧
    r.lastSeenAt ≤ r'.startedAt
  closing : ∀ read ∈ s.closing, ReadOf s.sessions read
  /-- Nobody but the holder extends or opens a session. -/
  holder : ∀ held ∈ s.holder, match held.found with
    | some read => ReadOf s.sessions read ∧ ∀ r ∈ s.sessions, r.id ≤ read.id ∧
        (r.id = read.id → r.lastSeenAt = read.lastSeenAt)
    | none => ∀ r ∈ s.sessions, r.endedAt ≠ none

/-- One more beat takes none away. -/
theorem Beaten.mono (h : Beaten beats r) (b : ℤ) : Beaten (b :: beats) r where
  last := List.mem_cons_of_mem _ h.last
  le := h.le
  near t ht ht' := by
    obtain ⟨b', hb', hnear⟩ := h.near t ht ht'
    exact ⟨b', List.mem_cons_of_mem _ hb', hnear⟩
  ended := h.ended

/-- A session that is closed as it was read ends at one of its own heartbeats. -/
theorem Beaten.closedAs {read : OnlineSession} (h : Beaten beats r)
    (hstart : r.startedAt = read.startedAt)
    (hle : read.startedAt ≤ read.lastSeenAt) (hlast : read.lastSeenAt ≤ r.lastSeenAt) :
    Beaten beats (read.closedAs r) where
  last := h.last
  le := h.le
  near := h.near
  ended e he := by
    obtain rfl := Option.some.inj he
    exact ⟨hstart.le.trans hle, hlast, by rw [OnlineSession.closedAs, hstart]⟩

/-- A new heartbeat close behind the last one extends the session to it. -/
theorem Beaten.extended (h : Beaten beats r) (hgrace : elapsedSeconds r.lastSeenAt now ≤ GRACE_SEC)
    (hle : r.lastSeenAt ≤ now) : Beaten (now :: beats) { r with lastSeenAt := now } where
  last := List.mem_cons_self
  le := h.le.trans hle
  near t ht ht' := by
    by_cases hold : t ≤ r.lastSeenAt
    · exact (h.mono now).near t ht hold
    · refine ⟨r.lastSeenAt, List.mem_cons_of_mem _ h.last, by omega, ?_⟩
      have ht' : t ≤ now := ht'
      unfold elapsedSeconds GRACE_SEC at hgrace
      omega
  ended e he := by
    obtain ⟨hstart, hlast, hduration⟩ := h.ended e he
    exact ⟨hstart, hlast.trans hle, hduration⟩

/-- A session of one heartbeat. -/
theorem Beaten.opened (beats : List ℤ) (id date : ℕ) :
    Beaten (now :: beats) { id, date, startedAt := now, lastSeenAt := now } where
  last := List.mem_cons_self
  le := le_refl now
  near t ht ht' := ⟨now, List.mem_cons_self, ht, by
    have ht' : t ≤ now := ht'
    omega⟩
  ended := nofun

/-- A session that is read is one of the rows. -/
theorem ReadOf.of_mem (hr : r ∈ sessions) (h : Beaten beats r) : ReadOf sessions r :=
  ⟨h.le, r, hr, rfl, rfl, le_refl _⟩

/-- What was read stays read when rows keep their start and are extended. -/
theorem ReadOf.mono {sessions' : OnlineSessions} {read : OnlineSession} (h : ReadOf sessions read)
    (hrows : ∀ r ∈ sessions, ∃ r' ∈ sessions', r'.id = r.id ∧ r'.startedAt = r.startedAt ∧
      r.lastSeenAt ≤ r'.lastSeenAt) : ReadOf sessions' read := by
  obtain ⟨hle, r, hr, hid, hstart, hlast⟩ := h
  obtain ⟨r', hr', hid', hstart', hlast'⟩ := hrows r hr
  exact ⟨hle, r', hr', hid'.trans hid, hstart'.trans hstart, hlast.trans hlast'⟩

namespace Counted

/-- The open session is the last one. -/
theorem open_last (h : s.Counted) (hr : r ∈ s.sessions) (hopen : r.endedAt = none)
    (hr' : r' ∈ s.sessions) : r'.id ≤ r.id := by
  by_contra hlt
  exact (h.apart r hr r' hr' (not_le.1 hlt)).1 hopen

/-- What is found open is a row without an end. -/
theorem findOpen_spec (h : s.sessions.findOpen = some r) : r ∈ s.sessions ∧ r.endedAt = none := by
  obtain ⟨hr, hopen⟩ := Table.mem_of_findLast? h
  exact ⟨hr, by simpa using hopen⟩

/-- After a close a row is as it was, or the closed one. -/
theorem mem_close {read : OnlineSession} (hr : r ∈ sessions.close read) : ∃ r₀ ∈ sessions,
    r₀.id ≠ read.id ∧ r = r₀ ∨ r₀.id = read.id ∧ r = read.closedAs r₀ := by
  obtain ⟨r₀, hr₀, rfl⟩ := Table.exists_of_mem_updateMany hr
  refine ⟨r₀, hr₀, ?_⟩
  by_cases hid : r₀.id = read.id
  · exact .inr ⟨hid, if_pos (decide_eq_true hid)⟩
  · exact .inl ⟨hid, if_neg (by simpa using hid)⟩

/-- Whoever closes a session moves no other one, and moves no end past a heartbeat. -/
theorem close (h : s.Counted) {read : OnlineSession} (hread : ReadOf s.sessions read) :
    Counted { s with sessions := s.sessions.close read } := by
  have hrows : ∀ r ∈ s.sessions.close read, ∃ r₀ ∈ s.sessions, r.id = r₀.id ∧
    r.startedAt = r₀.startedAt ∧
      r.lastSeenAt = r₀.lastSeenAt ∧ (r = r₀ ∨ r₀.id = read.id ∧ r = read.closedAs r₀) := by
    intro r hr
    obtain ⟨r₀, hr₀, ⟨-, rfl⟩ | ⟨hid, rfl⟩⟩ := mem_close hr
    · exact ⟨r, hr₀, rfl, rfl, rfl, .inl rfl⟩
    · exact ⟨r₀, hr₀, rfl, rfl, rfl, .inr ⟨hid, rfl⟩⟩
  have hstays : ∀ r ∈ s.sessions, ∃ r' ∈ s.sessions.close read, r'.id = r.id ∧
      r'.startedAt = r.startedAt ∧ r.lastSeenAt ≤ r'.lastSeenAt := by
    intro r hr
    refine ⟨_, Table.mem_updateMany_of_mem hr, ?_⟩
    split <;> exact ⟨rfl, rfl, le_refl _⟩
  have hended : ∀ r ∈ s.sessions.close read, ∀ r₀ : OnlineSession, r₀.endedAt ≠ none →
      (r = r₀ ∨ r₀.id = read.id ∧ r = read.closedAs r₀) → r.endedAt ≠ none := by
    rintro r - r₀ hne (rfl | ⟨-, rfl⟩)
    · exact hne
    · exact Option.some_ne_none _
  obtain ⟨hle, r₁, hr₁, hid₁, hstart₁, hlast₁⟩ := hread
  refine ⟨fun r hr => ?_, fun r hr r' hr' hlt => ?_, fun c hc => (h.closing c hc).mono hstays,
    fun held hheld => ?_⟩
  · obtain ⟨r₀, hr₀, -, -, -, rfl | ⟨hid, rfl⟩⟩ := hrows r hr
    · exact h.beaten r hr₀
    · obtain rfl := Table.eq_of_key hr₀ hr₁ (hid.trans hid₁.symm)
      exact (h.beaten r₀ hr₀).closedAs hstart₁ hle hlast₁
  · obtain ⟨r₀, hr₀, hid, -, hlast, hcase⟩ := hrows r hr
    obtain ⟨r₀', hr₀', hid', hstart', -, -⟩ := hrows r' hr'
    obtain ⟨hne, hbefore⟩ := h.apart r₀ hr₀ r₀' hr₀' (by omega)
    exact ⟨hended r hr r₀ hne hcase, by omega⟩
  · have hheld := h.holder held hheld
    split
    · next found hfound =>
      rw [hfound] at hheld
      refine ⟨hheld.1.mono hstays, fun r hr => ?_⟩
      obtain ⟨r₀, hr₀, hid, -, hlast, -⟩ := hrows r hr
      rw [hid, hlast]
      exact hheld.2 r₀ hr₀
    · next hfound =>
      rw [hfound] at hheld
      intro r hr
      obtain ⟨r₀, hr₀, -, -, -, hcase⟩ := hrows r hr
      exact hended r hr r₀ (hheld r₀ hr₀) hcase

/-- A session opens once every other one has ended, at the time of its first heartbeat. -/
theorem opened (h : s.Counted) (hended : ∀ r ∈ s.sessions, r.endedAt ≠ none)
    (horder : ∀ b ∈ s.beats, b ≤ now) (date : ℕ) : Counted { s with
      sessions := s.sessions.create (fun id => { id, date, startedAt := now, lastSeenAt := now })
        fun _ => rfl
      holder := none
      beats := now :: s.beats } := by
  refine ⟨fun r hr => ?_, fun r hr r' hr' hlt => ?_, fun c hc => (h.closing c hc).mono
    fun r hr => ?_, nofun⟩
  · rcases Table.mem_create.1 hr with hr | rfl
    · exact (h.beaten r hr).mono now
    · exact Beaten.opened s.beats _ date
  · rcases Table.mem_create.1 hr with hr | rfl <;> rcases Table.mem_create.1 hr' with hr' | rfl
    · exact h.apart r hr r' hr' hlt
    · exact ⟨hended r hr, horder _ (h.beaten r hr).last⟩
    · exact absurd hlt (not_lt.2 (s.sessions.fresh r' hr').le)
    · exact absurd hlt (lt_irrefl _)
  · exact ⟨r, Table.mem_create.2 (.inl hr), rfl, rfl, le_refl _⟩

/-- The holder of the lock records its heartbeat: it extends the session it found, or closes it
and opens a new one. -/
theorem commit (h : s.Counted) {held : HeldBeat} (hheld : s.holder = some held)
    (horder : ∀ b ∈ s.beats, b ≤ held.now) : Counted { s with
      sessions := s.sessions.heartbeat localDate held.now held.found
      holder := none
      beats := held.now :: s.beats } := by
  have hholder := h.holder held hheld
  unfold OnlineSessions.heartbeat
  obtain ⟨now, found⟩ := held
  cases found with
  | none => exact h.opened hholder horder _
  | some read =>
    obtain ⟨hread, hlast⟩ := hholder
    dsimp only at horder hlast ⊢
    split
    · next hgrace =>
      have hrows : ∀ r ∈ s.sessions.updateMany (fun r' => r'.id = read.id)
          (fun r' => { r' with lastSeenAt := now }) (fun _ => rfl), ∃ r₀ ∈ s.sessions,
            r.id = r₀.id ∧
            r.startedAt = r₀.startedAt ∧ r.endedAt = r₀.endedAt ∧
              (r₀.id ≠ read.id ∧ r = r₀ ∨ r₀.id = read.id ∧ r = { r₀ with lastSeenAt := now }) := by
        intro r hr
        obtain ⟨r₀, hr₀, rfl⟩ := Table.exists_of_mem_updateMany hr
        refine ⟨r₀, hr₀, ?_⟩
        split
        · next hid => exact ⟨rfl, rfl, rfl, .inr ⟨of_decide_eq_true hid, rfl⟩⟩
        · next hid => exact ⟨rfl, rfl, rfl, .inl ⟨fun heq => hid (decide_eq_true heq), rfl⟩⟩
      refine ⟨fun r hr => ?_, fun r hr r' hr' hlt => ?_, fun c hc => (h.closing c hc).mono
        fun r hr => ?_, nofun⟩
      · obtain ⟨r₀, hr₀, -, -, -, ⟨-, rfl⟩ | ⟨hid, rfl⟩⟩ := hrows r hr
        · exact (h.beaten r hr₀).mono now
        · have hsame := (hlast r₀ hr₀).2 hid
          exact (h.beaten r₀ hr₀).extended (hsame ▸ hgrace.2) (horder _ (h.beaten r₀ hr₀).last)
      · obtain ⟨r₀, hr₀, hid, -, hended, hcase⟩ := hrows r hr
        obtain ⟨r₀', hr₀', hid', hstart', -, -⟩ := hrows r' hr'
        obtain ⟨hne, hbefore⟩ := h.apart r₀ hr₀ r₀' hr₀' (by omega)
        refine ⟨hended ▸ hne, ?_⟩
        rcases hcase with ⟨-, rfl⟩ | ⟨heq, rfl⟩
        · omega
        · -- the extended session is the last one
          have := (hlast r₀' hr₀').1
          omega
      · refine ⟨_, List.mem_map.2 ⟨r, hr, rfl⟩, ?_⟩
        split
        · exact ⟨rfl, rfl, horder _ (h.beaten r hr).last⟩
        · exact ⟨rfl, rfl, le_refl _⟩
    · refine (h.close hread).opened (fun r hr => ?_) horder _
      obtain ⟨r₀, hr₀, ⟨hne, rfl⟩ | ⟨-, rfl⟩⟩ := mem_close hr
      · obtain ⟨-, r₁, hr₁, hid₁, -, -⟩ := hread
        have hle := (hlast r hr₀).1
        exact (h.apart r hr₀ r₁ hr₁ (by omega)).1
      · exact Option.some_ne_none _

/-- Every step keeps the online time counted once, when the writes come in the order
of their times. -/
theorem step (h : s.Counted) (horder : s.InOrder act) (hstep : s.step localDate act = some s') :
    s'.Counted := by
  obtain ⟨hbeaten, hapart, hclosing, hholder⟩ := id h
  cases act with
  | tick now =>
    obtain ⟨-, hstep⟩ := Option.ite_none_right_eq_some.1 hstep
    obtain rfl := Option.some.inj hstep
    exact ⟨hbeaten, hapart, hclosing, hholder⟩
  | execute idle =>
    obtain rfl := Option.some.inj hstep
    exact ⟨hbeaten, hapart, hclosing, hholder⟩
  | findEnd beat ended =>
    obtain ⟨-, hstep⟩ := Option.ite_none_right_eq_some.1 hstep
    split at hstep <;> obtain rfl :=
      Option.some.inj hstep <;> exact ⟨hbeaten, hapart, hclosing, hholder⟩
  | lock now =>
    obtain ⟨-, hstep⟩ := Option.ite_none_right_eq_some.1 hstep
    obtain rfl := Option.some.inj hstep
    refine ⟨hbeaten, hapart, hclosing, fun held hheld => ?_⟩
    obtain rfl := Option.some.inj hheld
    dsimp only
    split
    · next read hread =>
      obtain ⟨hmem, hopen⟩ := findOpen_spec hread
      refine ⟨.of_mem hmem (hbeaten read hmem),
        fun r hr => ⟨h.open_last hmem hopen hr, fun hid => ?_⟩⟩
      rw [Table.eq_of_key hr hmem hid]
    · next hnone =>
      intro r hr hended
      simpa [hended] using Table.findLast?_eq_none.1 hnone r hr
  | commit =>
    simp only [OnlineDesk.step] at hstep
    split at hstep
    · next now found hheld =>
      obtain rfl := Option.some.inj hstep
      exact h.commit hheld fun b hb => horder _ hheld b hb
    · cases hstep
  | readOpen =>
    simp only [OnlineDesk.step] at hstep
    split at hstep
    · next read hread =>
      obtain rfl := Option.some.inj hstep
      refine ⟨hbeaten, hapart, fun c hc => ?_, hholder⟩
      rcases List.mem_cons.1 hc with rfl | hc
      · have hmem := (findOpen_spec hread).1
        exact .of_mem hmem (hbeaten c hmem)
      · exact hclosing c hc
    · obtain rfl := Option.some.inj hstep
      exact h
  | close read =>
    obtain ⟨hmem, hstep⟩ := Option.ite_none_right_eq_some.1 hstep
    obtain rfl := Option.some.inj hstep
    obtain ⟨hbeaten', hapart', hclosing', hholder'⟩ := h.close (hclosing read hmem)
    exact ⟨hbeaten', hapart', fun c hc => hclosing' c (List.mem_of_mem_erase hc), hholder'⟩

/-- Nothing is counted yet. -/
theorem start (clock : ℤ) : (start clock).Counted := ⟨nofun, nofun, nofun, nofun⟩

/-- A session ends at its last heartbeat at the latest. -/
theorem stop_le (h : s.Counted) (hr : r ∈ s.sessions) :
    r.startedAt ≤ r.stop ∧ r.stop ≤ r.lastSeenAt := by
  unfold OnlineSession.stop
  cases hended : r.endedAt with
  | none => exact ⟨(h.beaten r hr).le, le_refl _⟩
  | some e =>
    obtain ⟨hstart, hlast, -⟩ := (h.beaten r hr).ended e hended
    exact ⟨hstart, hlast⟩

/-- A session counts the seconds of its interval. -/
theorem seconds_eq (h : s.Counted) (hr : r ∈ s.sessions) :
    r.seconds = elapsedSeconds r.startedAt r.stop := by
  unfold OnlineSession.seconds OnlineSession.stop
  cases hended : r.endedAt with
  | none => rfl
  | some e =>
    obtain ⟨-, -, hduration⟩ := (h.beaten r hr).ended e hended
    rw [hduration]
    rfl

end Counted

/-- Online time counts no moment twice, and no moment without a heartbeat close before it, when
the heartbeats are written in the order of their times: at most one session is open, each has
stopped before the next one starts, and every moment of one has a heartbeat at most 150.5
seconds before it. -/
theorem online_time_counted_once {clock : ℤ}
    (hrun : Runs.run (step localDate) (start clock) acts = some s)
    (horder : Runs.Meets (step localDate) InOrder (start clock) acts) :
    (∀ r ∈ s.sessions, ∀ r' ∈ s.sessions, r.endedAt = none → r'.endedAt = none → r = r') ∧
    (∀ r ∈ s.sessions, ∀ r' ∈ s.sessions, r.id < r'.id → r.stop ≤ r'.startedAt) ∧
    (∀ r ∈ s.sessions, r.seconds = elapsedSeconds r.startedAt r.stop) ∧
    ∀ r ∈ s.sessions, ∀ t, r.startedAt ≤ t → t ≤ r.stop → ∃ b ∈ s.beats, b ≤ t ∧
        t < b + 150500 := by
  have h : s.Counted :=
    Runs.invariant_run Counted (fun _ _ _ hi hok hs => hi.step hok hs)
      (Counted.start clock) horder hrun
  refine ⟨fun r hr r' hr' hopen hopen' => ?_, fun r hr r' hr' hlt => ?_,
    fun r hr => h.seconds_eq hr,
    fun r hr t ht ht' => (h.beaten r hr).near t ht (ht'.trans (h.stop_le hr).2)⟩
  · exact Table.eq_of_key hr hr' ((h.open_last hr' hopen' hr).antisymm (h.open_last hr hopen hr'))
  · exact (h.stop_le hr).2.trans (h.apart r hr r' hr' hlt).2

instance : ∀ (s : OnlineDesk) (act : OnlineAction), Decidable (s.InOrder act)
  | _, .tick _ | _, .execute _ | _, .findEnd .. | _, .lock _ | _, .readOpen | _, .close _ =>
    isTrue trivial
  | s, .commit => inferInstanceAs (Decidable (∀ held ∈ s.holder, ∀ b ∈ s.beats, b ≤ held.now))

/-- An idle heartbeat has read the session that another extends before it closes
it; the next opens one. -/
def racedBeats : List OnlineAction :=
  [.execute false, .findEnd (0, false) false, .lock 0, .commit, .readOpen,
    .tick 60000, .execute false, .findEnd (60000, false) false, .lock 60000, .commit,
    .close { id := 0, date := 7, startedAt := 0, lastSeenAt := 0 },
    .tick 90000, .execute false, .findEnd (90000, false) false, .lock 90000, .commit]

/-- Two beats race: the time of each session is the time from its first beat to its end. -/
theorem online_time_raced : ∃ s, Runs.run (step fun _ => 7) (start 0) racedBeats = some s ∧
    ∀ r ∈ s.sessions, r.seconds = elapsedSeconds r.startedAt r.stop := by
  obtain ⟨s, hs⟩ : ∃ s, Runs.run (step fun _ => 7) (start 0) racedBeats = some s := ⟨_, rfl⟩
  exact ⟨s, hs, (online_time_counted_once hs (by decide)).2.2.1⟩

end OnlineDesk

end RxVision
