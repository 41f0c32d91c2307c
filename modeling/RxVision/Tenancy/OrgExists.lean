import RxVision.Lib.Dict
import RxVision.Lib.Runs
import RxVision.Lib.TimedCache
import RxVision.Tenancy.Scope

/-!
# Which organisation a header may name (`orgExists` of `prisma-auth-user-reader.ts`)

Whether an organisation exists is kept for half a minute under the text that named it. A changed
organisation is forgotten under its printed id, and a read that began before the change is not kept:
the generation it noted is over. So what is kept under a printed id is what the database says, until
the change is announced; under the same id in other letters it can be half a minute old
(`orgExists_kept`).
-/

namespace RxVision

/-- An organisation of this id exists. -/
def companyLive (companies : Table Company.id) (text : UuidText) : Bool :=
  companies.rows.any fun c => c.id = text.uuid && c.deletedAt.isNone

/-- `orgs`, emptied when it has grown too large. -/
def orgsWithRoom (c : Dict UuidText (Bool × ℤ)) : Dict UuidText (Bool × ℤ) :=
  if c.entries.length > 1000 then .empty else c

/-- `orgs`, with `ORG_TTL_MS`. -/
def orgCache : TimedCache (Table Company.id) (Dict UuidText (Bool × ℤ)) UuidText Bool where
  reads companies text ok := ok = companyLive companies text
  ttl := 30000
  fresh now since := now - since < 30000
  lookup c text := c.get? text
  keep c text e := c.set text e
  fresh_le := by
    intro now since h
    have : now - since < 30000 := of_decide_eq_true h
    omega
  ttl_nonneg := by decide
  lookup_keep := by
    intro c key e key' e' h
    rw [Dict.get?_set] at h
    split at h
    · next heq => exact .inl ⟨heq, (Option.some.inj h).symm⟩
    · exact .inr h

/-- The organisations and the map; each call notes the generation. -/
structure OrgReads where
  world : TimedCache.World (Table Company.id) (Dict UuidText (Bool × ℤ)) UuidText Bool ℕ
  generation : ℕ
  /-- Organisations that changed, whose `OrganisationChangedEvent` is still to come. -/
  pending : List ℕ

inductive OrgReadAction
  | tick (now : ℤ)
  | create
  | delete (org : ℕ) (now : ℤ)
  /-- `forgetOrg`. -/
  | forgetOrg (org : ℕ)
  | orgExists (text : UuidText)
  /-- Call `i` reads the organisation. -/
  | read (i : ℕ)
  | keep (i : ℕ)

/-- What a call that is about to read finds. -/
def OrgReads.found (w : OrgReads) (i : ℕ) : Bool :=
  match w.world.calls[i]? with
  | some (.asked text _ _) => companyLive w.world.db text
  | _ => false

namespace OrgReads

/-- Nothing is kept yet. -/
def start (clock : ℤ) (companies : Table Company.id) :
    OrgReads := ⟨⟨clock, companies, [], .empty, []⟩, 0, []⟩

def step (w : OrgReads) : OrgReadAction → Option OrgReads
  | .tick now =>
    if w.world.clock ≤ now then some { w with world := { w.world with clock := now } } else none
  | .create => some { w with
      world := w.world.change (w.world.db.create (fun id => { id }) Company.id_new)
      pending := w.world.db.next :: w.pending }
  | .delete org now => some { w with
      world := w.world.change (w.world.db.updateMany (fun c => c.id = org && c.deletedAt.isNone)
        (fun c => { c with deletedAt := some now }) (Company.id_deleted now))
      pending := org :: w.pending }
  | .forgetOrg org =>
    if org ∈ w.pending then
      some {
        world := { w.world with cache := w.world.cache.delete (.printed org) }
        generation := w.generation + 1
        pending := w.pending.erase org }
    else none
  | .orgExists text => some { w with world := orgCache.ask w.world text w.generation }
  | .read i => (orgCache.fetch w.world i (w.found i)).map fun world => { w with world }
  | .keep i =>
    (orgCache.finish { w.world with cache := orgsWithRoom w.world.cache } i fun g => g =
      w.generation).map fun world => { w with world }

variable {w w' : OrgReads} {act : OrgReadAction} {acts : List OrgReadAction}
  {companies : Table Company.id}
  {text : UuidText} {org u : ℕ} {ok : Bool} {since : ℤ}

/-- What is known of an organisation is so, or the change of it is to be announced. -/
def Known (w : OrgReads) (text : UuidText) (ok : Bool) : Prop :=
  text.uuid ∈ w.pending ∨ ok = companyLive w.world.db text

/-- What a step keeps. -/
structure Sound (w : OrgReads) : Prop where
  recent : orgCache.Recent w.world
  kept : ∀ u ok since, w.world.cache.get? (.printed u) = some (ok, since) → w.Known (.printed u) ok
  fetched : ∀ text since g ok, .fetched text since g ok ∈ w.world.calls →
    g ≤ w.generation ∧ (g = w.generation → w.Known text ok)
  asked : ∀ text since g, .asked text since g ∈ w.world.calls → g ≤ w.generation

/-- A new organisation leaves the others as live as they were. -/
theorem companyLive_create : text.uuid ≠ companies.next →
    companyLive (companies.create (fun id => { id }) fun _ => rfl) text = companyLive companies
    text := by
  intro hne
  unfold companyLive
  rw [Bool.eq_iff_iff, List.any_eq_true, List.any_eq_true]
  simp only [Table.mem_rows, Table.mem_create]
  constructor
  · rintro ⟨c, hc | rfl, hsel⟩
    · exact ⟨c, hc, hsel⟩
    · simp [hne.symm] at hsel
  · rintro ⟨c, hc, hsel⟩
    exact ⟨c, .inl hc, hsel⟩

/-- A deletion leaves the other organisations as live as they were. -/
theorem companyLive_delete {now : ℤ} (hne : text.uuid ≠ org) :
    companyLive (companies.updateMany (fun c => c.id = org && c.deletedAt.isNone)
      (fun c => { c with deletedAt := some now }) fun _ => rfl) text = companyLive companies
        text := by
  unfold companyLive
  rw [Bool.eq_iff_iff, List.any_eq_true, List.any_eq_true]
  simp only [Table.mem_rows]
  constructor
  · rintro ⟨c, hc, hsel⟩
    obtain ⟨c', hc', rfl⟩ := Table.exists_of_mem_updateMany hc
    refine ⟨c', hc', ?_⟩
    split at hsel
    · simp at hsel
    · exact hsel
  · rintro ⟨c, hc, hsel⟩
    refine ⟨_, Table.mem_updateMany_of_mem hc, ?_⟩
    have hid : c.id = text.uuid := by
      simp only [Bool.and_eq_true, decide_eq_true_eq] at hsel
      exact hsel.1
    rw [if_neg (by simp [hid, hne])]
    exact hsel

namespace Sound

/-- One organisation changes, and is to be announced: what is remembered of the
others is still right. -/
theorem change (h : w.Sound) {companies : Table Company.id} (org : ℕ)
    (hsame : ∀ text, text.uuid ≠ org → companyLive companies text = companyLive w.world.db text) :
    Sound { w with world := w.world.change companies, pending := org :: w.pending } := by
  have hknown : ∀ text ok, w.Known text ok →
      Known { w with world := w.world.change companies, pending := org :: w.pending } text ok := by
    intro text ok hk
    by_cases hne : text.uuid = org
    · exact .inl (hne ▸ List.mem_cons_self)
    · exact hk.imp (List.mem_cons_of_mem _) fun heq => heq.trans (hsame text hne).symm
  refine ⟨h.recent.change companies, fun u ok since hk => hknown _ _
    (h.kept u ok since hk), ?_, h.asked⟩
  intro text since g ok hc
  obtain ⟨hle, hg⟩ := h.fetched text since g ok hc
  exact ⟨hle, fun heq => hknown _ _ (hg heq)⟩

/-- The change of an organisation is announced: what was remembered of it goes, and reads that began
before it keep nothing. -/
theorem forgetOrg (h : w.Sound) : Sound {
    world := { w.world with cache := w.world.cache.delete (.printed org) }
    generation := w.generation + 1
    pending := w.pending.erase org } := by
  have hless : ∀ text e, (w.world.cache.delete (.printed org)).get? text = some e →
      text ≠ .printed org ∧ w.world.cache.get? text = some e := by
    intro text e he
    rw [Dict.get?_delete] at he
    split at he
    · cases he
    · next hne => exact ⟨hne, he⟩
  refine ⟨h.recent.forget fun text e he => (hless text e he).2, fun u ok since hk => ?_, ?_, ?_⟩
  · obtain ⟨hne, hk⟩ := hless _ _ hk
    have huo : u ≠ org := fun heq => hne (by rw [heq])
    exact (h.kept u ok since hk).imp_left (List.mem_erase_of_ne huo).2
  · intro text since g ok hc
    have hle := (h.fetched text since g ok hc).1
    exact ⟨hle.trans (Nat.le_succ _), fun heq => by dsimp only at heq; omega⟩
  · exact fun text since g hc => (h.asked text since g hc).trans (Nat.le_succ _)

/-- A call begins, with the generation of the moment. -/
theorem orgExists (h : w.Sound) (text : UuidText) :
    Sound { w with world := orgCache.ask w.world text w.generation } := by
  have hcache : (orgCache.ask w.world text w.generation).cache = w.world.cache ∧
      (orgCache.ask w.world text w.generation).db = w.world.db ∧
      ∃ c, (orgCache.ask w.world text w.generation).calls = w.world.calls ++ [c] ∧
        ((∃ ok, c = .answered text w.world.clock ok) ∨
          c = .asked text w.world.clock w.generation) := by
    unfold TimedCache.ask
    split
    · split
      · exact ⟨rfl, rfl, _, rfl, .inl ⟨_, rfl⟩⟩
      · exact ⟨rfl, rfl, _, rfl, .inr rfl⟩
    · exact ⟨rfl, rfl, _, rfl, .inr rfl⟩
  obtain ⟨hcache, hdb, c, hcalls, hc⟩ := hcache
  have hknown : ∀ text' ok, w.Known text' ok →
      Known { w with world := orgCache.ask w.world text w.generation } text' ok :=
    fun text' ok hk => hk.imp_right fun heq => by
      dsimp only
      rw [hdb]
      exact heq
  refine ⟨h.recent.ask text w.generation, fun u ok since hk => ?_, ?_, ?_⟩
  · dsimp only at hk
    rw [hcache] at hk
    exact hknown _ _ (h.kept u ok since hk)
  · intro text' since g ok hmem
    dsimp only at hmem
    rw [hcalls] at hmem
    rcases List.mem_append.1 hmem with hmem | hmem
    · obtain ⟨hle, hg⟩ := h.fetched text' since g ok hmem
      exact ⟨hle, fun heq => hknown _ _ (hg heq)⟩
    · rcases hc with ⟨_, rfl⟩ | rfl <;> cases List.mem_singleton.1 hmem
  · intro text' since g hmem
    dsimp only at hmem
    rw [hcalls] at hmem
    rcases List.mem_append.1 hmem with hmem | hmem
    · exact h.asked text' since g hmem
    · rcases hc with ⟨_, rfl⟩ | rfl
      · cases List.mem_singleton.1 hmem
      · cases List.mem_singleton.1 hmem
        exact le_refl w.generation

/-- A call reads whether the organisation is live now. -/
theorem read (h : w.Sound) {i : ℕ} {world}
    (hs : orgCache.fetch w.world i (w.found i) = some world) :
    Sound { w with world } := by
  have hrecent := h.recent.fetch hs
  unfold TimedCache.fetch at hs
  split at hs
  · next text since g hi =>
    split at hs
    · next hreads =>
      cases hs
      refine ⟨hrecent, h.kept, ?_, ?_⟩
      · intro text' since' g' ok' hc
        rcases List.mem_or_eq_of_mem_set hc with hc | hc
        · exact h.fetched text' since' g' ok' hc
        · cases hc
          exact ⟨h.asked text since g (List.mem_of_getElem? hi),
            fun _ => .inr (of_decide_eq_true hreads)⟩
      · intro text' since' g' hc
        rcases List.mem_or_eq_of_mem_set hc with hc | hc
        · exact h.asked text' since' g' hc
        · cases hc
    · cases hs
  · cases hs

/-- What is kept was read in this generation, so no announcement has come since. -/
theorem keep (h : w.Sound) {i : ℕ} {world}
    (hs : orgCache.finish { w.world with cache := orgsWithRoom w.world.cache } i
      (fun g => g = w.generation) = some world) : Sound { w with world } := by
  have hless : ∀ text e, (orgsWithRoom w.world.cache).get? text = some e →
      w.world.cache.get? text = some e := by
    intro text e he
    unfold orgsWithRoom at he
    split at he
    · cases he
    · exact he
  have hrecent := (h.recent.forget hless).finish hs
  unfold TimedCache.finish at hs
  split at hs
  · next text since g ok hi =>
    cases hs
    refine ⟨hrecent, fun u ok' since' hk => ?_, ?_, ?_⟩
    · dsimp only at hk
      split at hk
      · next hg =>
        replace hk : ((orgsWithRoom w.world.cache).set text (ok, since)).get? (.printed u) =
            some (ok', since') := hk
        rw [Dict.get?_set] at hk
        split at hk
        · next heq =>
          cases hk
          have hcall := h.fetched text since g ok (List.mem_of_getElem? hi)
          rw [heq]
          exact hcall.2 (of_decide_eq_true hg)
        · exact h.kept u ok' since' (hless _ _ hk)
      · exact h.kept u ok' since' (hless _ _ hk)
    · intro text' since' g' ok' hc
      rcases List.mem_or_eq_of_mem_set hc with hc | hc
      · exact h.fetched text' since' g' ok' hc
      · cases hc
    · intro text' since' g' hc
      rcases List.mem_or_eq_of_mem_set hc with hc | hc
      · exact h.asked text' since' g' hc
      · cases hc
  · cases hs

/-- Every step keeps what is remembered sound, or about to be announced. -/
theorem step (h : w.Sound) (hs : w.step act = some w') : w'.Sound := by
  cases act with
  | tick now =>
    simp only [OrgReads.step] at hs
    split at hs
    · next hle =>
      cases hs
      exact ⟨h.recent.tick hle, h.kept, h.fetched, h.asked⟩
    · cases hs
  | create =>
    cases hs
    exact h.change _ fun text hne => companyLive_create hne
  | delete org now =>
    cases hs
    exact h.change org fun text hne => companyLive_delete hne
  | forgetOrg org =>
    simp only [OrgReads.step] at hs
    split at hs
    · cases hs
      exact h.forgetOrg
    · cases hs
  | orgExists text =>
    cases hs
    exact h.orgExists text
  | read i =>
    obtain ⟨world, hworld, rfl⟩ := Option.map_eq_some_iff.1 hs
    exact h.read hworld
  | keep i =>
    obtain ⟨world, hworld, rfl⟩ := Option.map_eq_some_iff.1 hs
    exact h.keep hworld

end Sound

/-- What is remembered of a printed id is what the database says, unless the organisation has just
changed and that is still to be announced; and every answer, in whatever letters, was so at a moment
at most half a minute before the call. -/
theorem orgExists_kept {clock : ℤ} (h : Runs.run step (start clock companies) acts = some w) :
    (∀ u ok since, w.world.cache.get? (.printed u) = some (ok, since) → u ∉ w.pending →
      ok = companyLive w.world.db (.printed u)) ∧
    ∀ text since ok, .answered text since ok ∈ w.world.calls →
      ok = companyLive w.world.db text ∨
        ∃ p ∈ w.world.past, ok = companyLive p.1 text ∧ since - 30000 ≤ p.2 := by
  have hstart : (start clock companies).Sound :=
    ⟨⟨fun _ _ _ hk => (nomatch (show none = some _ from hk)),
      fun _ hc => absurd hc List.not_mem_nil⟩,
      fun _ _ _ hk => (nomatch (show none = some _ from hk)),
      fun _ _ _ _ hc => absurd hc List.not_mem_nil, fun _ _ _ hc => absurd hc List.not_mem_nil⟩
  have hsound := Runs.invariant_run Sound (fun _ _ _ hi _ hs => hi.step hs) hstart
    (Runs.Meets.of_forall (fun _ _ => trivial) acts _) h
  refine ⟨fun u ok since hk hnot => (hsound.kept u ok since hk).resolve_left hnot,
    fun text since ok hc => ?_⟩
  rcases hsound.recent.answered hc with hnow | ⟨p, hp, hreads, hle⟩
  · exact .inl (of_decide_eq_true hnow)
  · exact .inr ⟨p, hp, of_decide_eq_true hreads, hle⟩

/-- The organisation is read before it is deleted and kept after that was announced:
it is not remembered. -/
def lateRead : List OrgReadAction :=
  [.orgExists (.printed 0), .read 0, .delete 0 5, .forgetOrg 0, .keep 0, .orgExists (.printed 0),
    .read 1, .keep 1]

/-- The organisation is remembered as gone, although it was read before the deletion. -/
theorem orgExists_lateRead : ∃ w, Runs.run step (start 0 oneCompany) lateRead = some w ∧
    w.world.cache.get? (.printed 0) = some (false, 0) ∧
    false = companyLive w.world.db (.printed 0) := by
  have hrun : Runs.run step (start 0 oneCompany) lateRead = some ⟨⟨0, _, _, _, _⟩, 1, []⟩ := rfl
  have hkept := (orgExists_kept hrun).1 0 false 0 rfl (by decide)
  exact ⟨_, hrun, rfl, hkept⟩

end OrgReads

end RxVision
