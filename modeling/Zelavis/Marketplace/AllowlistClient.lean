import Zelavis.Lib.Fibers
import Zelavis.Marketplace.Allowlist

/-!
# An installation's copy of the allow-list

`allowlist/client.ts` and `allowlist/gate.ts`: a cache keeps the last list that was accepted, a refresh tries
the sources in order, and the gate asks what the list of the moment vouches for. Any number of calls go on
beside each other over one cache.
-/

namespace Zelavis.Marketplace

open Lib Db Edge Tasks Fibers

/-! ## What is kept and answered -/

/-- Source: `client.ts` `CachedAllowlist`. -/
structure CachedAllowlist where
  allowlist : Json
  source : Utf16
  fetchedAt : Utf16
  deriving DecidableEq

/-- Source: `client.ts` `AllowlistView`, its `origin`. -/
inductive Origin where
  | cache (source fetchedAt : Utf16)
  | bundled
  deriving DecidableEq

/-- Source: `client.ts` `AllowlistView`, its `status`. -/
inductive Status where
  | fresh
  | stale
  | expired
  deriving DecidableEq

/-- Source: `client.ts` `AllowlistView`. -/
structure AllowlistView where
  allowlist : Allowlist
  origin : Origin
  status : Status
  deriving DecidableEq

/-- Source: `client.ts` `AllowlistAttempt`, its `outcome`. -/
inductive AttemptOutcome where
  | ok
  | unreachable
  | invalid
  | stale
  | expired
  deriving DecidableEq

/-- Source: `client.ts` `AllowlistAttempt`. -/
structure AllowlistAttempt where
  source : Utf16
  outcome : AttemptOutcome
  detail : Option Utf16 := none
  deriving DecidableEq

/-- Source: `client.ts` `AllowlistRefreshReport`. -/
structure AllowlistRefreshReport where
  updated : Bool
  attempts : List AllowlistAttempt
  view : Option AllowlistView
  deriving DecidableEq

/-- Source: `gate.ts` `AllowlistRefusalCode`. -/
inductive AllowlistRefusalCode where
  | unavailable
  | expired
  | notListed
  | versionNotListed
  | digestMismatch
  deriving DecidableEq

/-- What is thrown. -/
inductive Fault where
  | failed (message : Utf16)
  /-- Source: `gate.ts` `AllowlistRefusal`. -/
  | refused (code : AllowlistRefusalCode) (message : Utf16)
  deriving DecidableEq

def Fault.message : Fault → Utf16
  | .failed message => message
  | .refused _ message => message

/-- Source: `client.ts` `ALLOWLIST_STALE_GRACE_MS`. -/
def ALLOWLIST_STALE_GRACE_MS : ℤ := 7 * 24 * 60 * 60000

/-- Source: `client.ts` `createAllowlistClient`, its `options` where there is a cache. -/
structure AllowlistOptions where
  sources : List Utf16
  bundled : Option Allowlist
  graceMs : ℤ := ALLOWLIST_STALE_GRACE_MS

/-! ## Calls -/

/-- A reading of the cache: the fiber that made it, what it found, and the moment. -/
structure Reading where
  fiber : ℕ
  cached : Option CachedAllowlist
  moment : ℤ
  deriving DecidableEq

/-- The cache and the clock, what sources have answered and when, and the readings of the cache. -/
structure Shared where
  cache : Option CachedAllowlist := none
  now : ℤ
  fetched : List (Json × ℤ) := []
  readings : List Reading := []
  deriving DecidableEq

/-- Source: `client.ts` `AllowlistCache`, `fetchList`, `now`. -/
inductive Call where
  | read
  | write (value : CachedAllowlist)
  | now
  | fetchList (source : Utf16)

/-- What a call is answered with. -/
abbrev Answer : Call → Type
  | .read => Option CachedAllowlist
  | .write _ => Unit
  | .now => ℤ
  | .fetchList _ => Json

/-- What comes back from outside. -/
inductive Reply where
  | done
  | body (value : Json)
  /-- The call fails: a cache that does not answer, a source that is no `https` URL, is not reached in time,
  redirects, refuses, or answers too much or no JSON. -/
  | fails (message : Utf16)
  | failsLate (message : Utf16)
  deriving DecidableEq

def exec (k : ℕ) (reply : Reply) (s : Shared) : (c : Call) → Option (Shared × Except Fault (Answer c))
  | .read => match reply with
    | .done => some ({ s with readings := s.readings ++ [⟨k, s.cache, s.now⟩] }, .ok s.cache)
    | .fails message => some (s, .error (.failed message))
    | _ => none
  | .write value => match reply with
    | .done => some ({ s with cache := some value }, .ok ())
    | .fails message => some (s, .error (.failed message))
    | .failsLate message => some ({ s with cache := some value }, .error (.failed message))
    | _ => none
  | .now => match reply with
    | .done => some (s, .ok s.now)
    | _ => none
  | .fetchList _ => match reply with
    | .body value => some ({ s with fetched := s.fetched ++ [(value, s.now)] }, .ok value)
    | .fails message => some (s, .error (.failed message))
    | _ => none

/-! ## Programs -/

/-- A program over the cache, the clock and the sources. -/
abbrev Program (α : Type) := Task Call Answer Fault α

/-- Fails with what the gate refuses for. Source: `gate.ts` `AllowlistRefusal`. -/
def refused {α : Type} (code : AllowlistRefusalCode) (message : Utf16) : Program α :=
  .fail (.refused code message)

section Client

variable (D : Dates) (o : AllowlistOptions)

def goodAfter (l : Allowlist) (more moment : ℤ) : Bool :=
  (D.parse l.expiresAt).any fun expires => moment < expires + more

/-- Source: `client.ts` `statusOf`. -/
def statusOf (l : Allowlist) : Program Status := do
  if goodAfter D l 0 (← Task.perform Call.now) then pure .fresh
  else if goodAfter D l o.graceMs (← Task.perform Call.now) then pure .stale
  else pure .expired

def cachedList (cached : Option CachedAllowlist) : Option Allowlist :=
  cached.bind fun value => (parseAllowlist D value.allowlist).toOption

/-- Source: `client.ts` `cached`. -/
def cached : Program (Option AllowlistView) := do
  match ← Task.perform Call.read with
  | none => pure none
  | some value => match parseAllowlist D value.allowlist with
    | .error _ => pure none
    | .ok allowlist => do
      let status ← statusOf D o allowlist
      pure (some ⟨allowlist, .cache value.source value.fetchedAt, status⟩)

/-- Source: `client.ts` `current`. -/
def current : Program (Option AllowlistView) := do
  let fromCache ← cached D o
  let fromBundle ← match o.bundled with
    | none => pure none
    | some allowlist => do
      let status ← statusOf D o allowlist
      pure (some ⟨allowlist, .bundled, status⟩)
  match fromCache, fromBundle with
  | some fromCache, some fromBundle =>
    pure (some (if fromCache.allowlist.sequence < fromBundle.allowlist.sequence then fromBundle else fromCache))
  | some fromCache, none => pure (some fromCache)
  | none, fromBundle => pure fromBundle

def sequenceOf (view : Option AllowlistView) : ℕ := view.elim 0 fun view => view.allowlist.sequence

/-- The time a list was fetched at, which is refused where it is no date. Source: `client.ts` `refresh`, its
`new Date(now()).toISOString()`. -/
def fetchedAt : Program Utf16 := do
  match D.iso (← Task.perform Call.now) with
  | some moment => pure moment
  | none => .fail (.failed (utf16 "Invalid time value"))

/-- The sources that are left, with the attempts made so far. Source: `client.ts` `refresh`, its loop. -/
def trySources (held : Option AllowlistView) (attempts : List AllowlistAttempt) :
    List Utf16 → Program AllowlistRefreshReport
  | [] => pure ⟨false, attempts, held⟩
  | source :: rest => do
    match ← attempt (Task.perform (Call.fetchList source)) with
    | .error fault => trySources held (attempts ++ [⟨source, .unreachable, some fault.message⟩]) rest
    | .ok body => match parseAllowlist D body with
      | .error message => trySources held (attempts ++ [⟨source, .invalid, some message⟩]) rest
      | .ok allowlist => do
        if (← statusOf D o allowlist) = .expired then
          trySources held (attempts ++ [⟨source, .expired, some (utf16 "The allow-list has expired.")⟩]) rest
        else if allowlist.sequence < sequenceOf held then
          trySources held (attempts ++ [⟨source, .stale, some (utf16 "Sequence " ++
            utf16 allowlist.sequence.repr ++ utf16 " is older than the " ++ utf16 (sequenceOf held).repr ++
            utf16 " already held.")⟩]) rest
        else do
          let moment ← fetchedAt D
          Task.perform (Call.write ⟨allowlist.toJson, source, moment⟩)
          let view ← current D o
          pure ⟨true, attempts ++ [⟨source, .ok, none⟩], view⟩

/-- Source: `client.ts` `refresh`. -/
def refresh : Program AllowlistRefreshReport := do
  let held ← current D o
  trySources D o held [] o.sources

/-! ## The gate -/

def differenceOf (left right : Utf16) : ℕ :=
  (List.zipWith (fun x y : CodeUnit => x.val ^^^ y.val) left right).foldl (· ||| ·) 0

/-- Source: `gate.ts` `sameDigest`. -/
def sameDigest (left right : Utf16) : Bool :=
  left.length = right.length && differenceOf left right = 0

/-- Source: `gate.ts` `authorize`. -/
def authorize (name version : Utf16) : Program (AllowlistService × AllowlistVersion) := do
  match ← current D o with
  | none =>
    refused .unavailable
      (utf16 "No allow-list is available, so nothing can be installed from the marketplace.")
  | some view =>
    if view.status ≠ .fresh then
      refused .expired (if view.status = .stale then
          utf16 ("The marketplace allow-list is out of date and could not be refreshed, " ++
            "so nothing new can be installed yet.")
        else utf16 "The marketplace allow-list has expired, so nothing can be installed from it.")
    else match view.allowlist.services.find? (·.name = name) with
      | none =>
        refused .notListed (utf16 "\"" ++ name ++ utf16 "\" is not on the marketplace allow-list.")
      | some service => match service.versions.find? (·.version = version) with
        | none =>
          refused .versionNotListed (utf16 "Version " ++ version ++ utf16 " of \"" ++ name ++
            utf16 "\" is not on the marketplace allow-list.")
        | some entry => pure (service, entry)

/-- Source: `gate.ts` `verifyAcquired`. -/
def verifyAcquired (name version integrity : Utf16) : Program Unit := do
  let (_, entry) ← authorize D o name version
  if sameDigest entry.integrity integrity then pure ()
  else refused .digestMismatch (utf16 "\"" ++ name ++ utf16 "@" ++ version ++
    utf16 "\" does not match the digest the allow-list vouches for.")

/-! ## An installation -/

/-- What is asked for. -/
inductive Request where
  | current
  | refresh
  | authorize (name version : Utf16)
  | verifyAcquired (name version integrity : Utf16)
  deriving DecidableEq

/-- What it comes to. -/
inductive Outcome where
  | view (view : Option AllowlistView)
  | report (report : AllowlistRefreshReport)
  | entry (service : AllowlistService) (version : AllowlistVersion)
  | verified
  deriving DecidableEq

def program : Request → Program Outcome
  | .current => do pure (.view (← current D o))
  | .refresh => do pure (.report (← refresh D o))
  | .authorize name version => do
    let (service, entry) ← authorize D o name version
    pure (.entry service entry)
  | .verifyAcquired name version integrity => do
    verifyAcquired D o name version integrity
    pure .verified

/-- Any number of calls are made, and time passes. A crash takes nothing but the calls, which then move no
more. -/
def installation : Process Shared Request Call Answer Fault Outcome Reply ℕ Empty where
  program := program D o
  exec := exec
  passes elapsed s := some { s with now := s.now + elapsed }
  crashes event _ := event.elim

/-- The list that is held for a cache: the newest of the cached one and the bundled one. -/
def heldList (cache : Option CachedAllowlist) : Option Allowlist :=
  match cachedList D cache, o.bundled with
  | some cached, some bundled => some (if cached.sequence < bundled.sequence then bundled else cached)
  | some cached, none => some cached
  | none, bundled => bundled

def floor (cache : Option CachedAllowlist) : ℕ := (heldList D o cache).elim 0 Allowlist.sequence

def Vouches (l : Allowlist) (name version integrity : Utf16) : Prop :=
  ∃ service ∈ l.services, service.name = name ∧
    ∃ entry ∈ service.versions, entry.version = version ∧ entry.integrity = integrity

end Client

end Zelavis.Marketplace
