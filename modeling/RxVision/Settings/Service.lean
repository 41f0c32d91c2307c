import RxVision.Lib.Runs
import RxVision.Settings.Rules

/-!
# The settings row and its cache (`settings/application/app-settings.service.ts`)

The row of one organisation (`org:<companyId>`, before the organisation saves its own the 3.x row
`org`), the in-process cache over it, and the calls that are under way. Each read and each write of
the store is a step of its own, and so is what a call does once its read or write has come back.
-/

namespace RxVision

/-- `CACHE_MS`: how long a read is reused. -/
def CACHE_MS : ℤ := 15000

/-- The value of a row. -/
inductive StoredValue
  | object (raw : Raw)
  /-- A list, a text, a number or a boolean. -/
  | other

/-- `asObject`; a row that is missing or `null` reads as `none`. -/
def asObject : Option StoredValue → Raw
  | some (.object raw) => raw
  | some .other | none => fun _ => none

/-- `{ ...base, ...patch }`. -/
def Raw.merge (base patch : Raw) : Raw := fun key => (patch key).or (base key)

/-- The table as keys of the object. -/
def AppSettings.raw (s : AppSettings) : Raw
  | .setting key => some (s.value key)
  | .sect _ => none

/-- A call of the service. -/
inductive SettingsOp
  /-- `readRaw`, for itself or for `get` and `idle`. -/
  | readRaw
  | writeRaw (patch : Raw)
  | update (patch : SettingKey → Option Json)

/-- The keys that the caller changes, with the new values. -/
def SettingsOp.given : SettingsOp → Raw
  | .readRaw => fun _ => none
  | .writeRaw patch => patch
  | .update patch => fun key =>
    match key with
    | .setting key => patch key
    | .sect _ => none

/-- Where a call is; `read` is what `readRaw` answered to an update. -/
inductive SettingsPhase
  /-- `readRaw`, which began at `since`, reads the organisation's row, and then the 3.x row. -/
  | readOwn (since : ℤ)
  | readOld (since : ℤ)
  /-- `readRaw` puts what it has read into the cache. -/
  | refill (since : ℤ) (value : Raw)
  /-- `writeRaw` reads the rows, writes, and puts what it has written into the cache. -/
  | baseOwn (read : Option Raw) (patch : Raw)
  | baseOld (read : Option Raw) (patch : Raw)
  | write (read : Option Raw) (base patch : Raw)
  | keep (next : Raw)
  | done
  | refused (problem : PatchProblem)

/-- A call. -/
structure SettingsCall where
  op : SettingsOp
  phase : SettingsPhase

/-- What the cache holds, and since when. -/
structure CachedRaw where
  value : Raw
  since : ℤ

/-- The rows, the cache and the calls in the order they began. `completed` has what each write that
has returned was given, the last one first. -/
structure SettingsWorld where
  clock : ℤ
  own : Option StoredValue
  old : Option StoredValue
  cache : Option CachedRaw
  calls : List SettingsCall
  completed : List Raw

/-- What happens around the settings. -/
inductive SettingsAction
  | tick (now : ℤ)
  | begins (op : SettingsOp)
  /-- The call `i` goes on. -/
  | proceed (i : ℕ)
  /-- The cache is full of other organisations and cleared. -/
  | clear

namespace SettingsWorld

/-- Nothing is cached, and no call has begun. -/
def start (own old : Option StoredValue) : SettingsWorld := ⟨0, own, old, none, [], []⟩

/-- The organisation's object: its own row, else the 3.x row, else empty. -/
def stored (w : SettingsWorld) : Raw := asObject (w.own.or w.old)

/-- The entry of the cache that is fresh enough. -/
def hit (w : SettingsWorld) : Option CachedRaw := w.cache.filter fun e =>
    w.clock - e.since < CACHE_MS

/-- How a call goes on once `readRaw` has answered. -/
def answered (op : SettingsOp) (value : Raw) : SettingsPhase :=
  match op with
  | .update patch =>
    match applySettingsPatch (settingsFromStored value) patch with
    | .ok (result, _) => .baseOwn (some value) result.raw
    | .error problem => .refused problem
  | .readRaw | .writeRaw _ => .done

/-- Where a call begins. -/
def first (w : SettingsWorld) (op : SettingsOp) : SettingsPhase :=
  match op with
  | .writeRaw patch => .baseOwn none patch
  | .readRaw | .update _ =>
    match w.hit with
    | some e => answered op e.value
    | none => .readOwn w.clock

/-- A call goes on: what it leaves, and where it is then. -/
def proceed (w : SettingsWorld) (c : SettingsCall) : SettingsWorld × SettingsPhase :=
  match c.phase with
  | .readOwn since =>
    match w.own with
    | some value => (w, .refill since (asObject (some value)))
    | none => (w, .readOld since)
  | .readOld since => (w, .refill since (asObject w.old))
  | .refill since value => ({ w with cache := some ⟨value, since⟩ }, answered c.op value)
  | .baseOwn read patch =>
    match w.own with
    | some value => (w, .write read (asObject (some value)) patch)
    | none => (w, .baseOld read patch)
  | .baseOld read patch => (w, .write read (asObject w.old) patch)
  | .write _ base patch =>
    ({ w with own := some (.object (base.merge patch)) }, .keep (base.merge patch))
  | .keep next =>
    ({ w with
      cache := some ⟨next, w.clock⟩
      completed := c.op.given :: w.completed }, .done)
  | .done => (w, .done)
  | .refused problem => (w, .refused problem)

/-- One step; `none` when it cannot happen. -/
def step (w : SettingsWorld) : SettingsAction → Option SettingsWorld
  | .tick now => if w.clock ≤ now then some { w with clock := now } else none
  | .begins op => some { w with calls := w.calls ++ [⟨op, w.first op⟩] }
  | .proceed i =>
    match w.calls[i]? with
    | some c =>
      let (w', phase) := w.proceed c
      some { w' with calls := w'.calls.set i { c with phase } }
    | none => none
  | .clear => some { w with cache := none }

end SettingsWorld

end RxVision
