import Mathlib.Logic.Function.Basic
import Zelavis.Identity.Mutations
import Zelavis.Lib.Turns
import Zelavis.Lib.Unicode

/-!
# Names that are claimed

`unique-claims.ts` over the records of `database.ts`: a name is claimed for an id before a record with it is
written, and released when no record has it any more. Every call of the claim store and of the repository
is a step; any number of calls go on beside each other.
-/

namespace Zelavis.Identity.UniqueClaims

open Lib Turns

/-! ## Names -/

/-- Source: `unique-claims.ts` `UniqueKey`. -/
structure UniqueKey where
  key : Utf16
  field : Utf16
  message : Utf16
  deriving DecidableEq

/-- What a repository with unique names knows of a record: its id, its names, and whether another has the
same. -/
structure Named (α : Type) where
  id : α → ℕ
  keys : α → List UniqueKey
  sameNames : α → α → Bool
  /-- Whether records are changed by `mutate` too. -/
  mutates : Bool
  keys_eq : ∀ a b, sameNames a b = true → keys a = keys b

/-- Source: `entities.ts` `Account`; what has no name in it is a number. -/
structure Account where
  id : ℕ
  email : Option Utf16
  username : Option Utf16
  rest : ℕ
  deriving DecidableEq

/-- Source: `entities.ts` `Credential`; what has no name in it is a number. -/
structure Credential where
  id : ℕ
  provider : Utf16
  identifier : Utf16
  rest : ℕ
  deriving DecidableEq

def emailKey (email : Utf16) : UniqueKey :=
  ⟨utf16 "account:email:" ++ email, utf16 "email", utf16 "An account already uses that email."⟩

def usernameKey (username : Utf16) : UniqueKey :=
  ⟨utf16 "account:username:" ++ username, utf16 "username", utf16 "An account already uses that username."⟩

/-- An email or a username that is empty is none. Source: `unique-claims.ts` `accountKeys`. -/
def accountKeys (account : Account) : List UniqueKey :=
  ((account.email.filter (· ≠ [])).map emailKey).toList ++
    ((account.username.filter (· ≠ [])).map usernameKey).toList

/-- Source: `unique-claims.ts` `credentialKeys`. -/
def credentialKeys (credential : Credential) : List UniqueKey :=
  [⟨utf16 "credential:" ++ credential.provider ++ [0] ++ credential.identifier, utf16 "identifier",
    utf16 "That provider identifier is already registered."⟩]

/-- Source: `unique-claims.ts` `withUniqueAccounts`. -/
def accountNames : Named Account where
  id := Account.id
  keys := accountKeys
  sameNames a b := a.email = b.email && a.username = b.username
  mutates := true
  keys_eq a b h := by
    simp only [Bool.and_eq_true, decide_eq_true_eq] at h
    rw [accountKeys, accountKeys, h.1, h.2]

/-- Source: `unique-claims.ts` `withUniqueCredentials`. -/
def credentialNames : Named Credential where
  id := Credential.id
  keys := credentialKeys
  sameNames a b := a.provider = b.provider && a.identifier = b.identifier
  mutates := false
  keys_eq a b h := by
    simp only [Bool.and_eq_true, decide_eq_true_eq] at h
    rw [credentialKeys, credentialKeys, h.1, h.2]

/-! ## Claims -/

/-- Who holds a name, and since when. -/
structure Claim where
  owner : ℕ
  since : ℕ
  deriving DecidableEq

variable {α : Type}

/-- The records by id, and the claims by name. -/
structure Store (α : Type) where
  records : ℕ → Option (Versioned α)
  claims : Utf16 → Option Claim

def Store.setRecord (s : Store α) (id : ℕ) (record : Option (Versioned α)) : Store α :=
  { s with records := Function.update s.records id record }

def Store.setClaim (s : Store α) (key : Utf16) (claim : Option Claim) : Store α :=
  { s with claims := Function.update s.claims key claim }

def Store.owns (s : Store α) (key : Utf16) (id : ℕ) : Bool := (s.claims key).any (·.owner = id)

/-- A name is released while its id still holds it. Source: `ClaimBackend` `release`. -/
def Store.release (s : Store α) (key : Utf16) (id : ℕ) : Store α :=
  if s.owns key id then s.setClaim key none else s

/-- Why a call fails. -/
inductive Error where
  /-- Source: `IdentityConflictError`. -/
  | conflict (field message : Utf16)
  /-- Source: `documents.ts` `DocumentNotFound`. -/
  | missing
  /-- Source: `documents.ts` `DocumentConflict`. -/
  | taken
  | unconverged
  deriving DecidableEq

/-- How long a claim is honoured with no record behind it. Source: `unique-claims.ts`. -/
def orphanClaimGraceMs : ℕ := 60000

/-- What is next for the first name that is not claimed yet. -/
inductive Stage where
  | claim
  | orphan (owner : ℕ)
  | takeover (owner : ℕ)
  deriving DecidableEq

/-- Where the claiming of names is. -/
structure Claiming where
  claimed : List UniqueKey
  todo : List UniqueKey
  stage : Stage
  deriving DecidableEq

def Claiming.start (keys : List UniqueKey) : Claiming := ⟨[], keys, .claim⟩

/-- What a step of it comes to. -/
inductive Claimed where
  | going (next : Claiming)
  | all
  | refused (error : Error)

def Claiming.advance (c : Claiming) (unique : UniqueKey) (todo : List UniqueKey) : Claiming :=
  ⟨c.claimed ++ [unique], todo, .claim⟩

/-- The next step of claiming names for an id. Source: `unique-claims.ts` `claimAll`. -/
def Claiming.next (owner now : ℕ) (s : Store α) (c : Claiming) : Store α × Claimed :=
  match c.todo, c.stage with
  | [], _ => (s, .all)
  | unique :: todo, .claim =>
    match s.claims unique.key with
    | none => (s.setClaim unique.key (some ⟨owner, now⟩), .going (c.advance unique todo))
    | some claim =>
      if claim.owner = owner then (s, .going (c.advance unique todo))
      else if claim.since + orphanClaimGraceMs < now then
        (s, .going { c with stage := .orphan claim.owner })
      else (s, .refused (.conflict unique.field unique.message))
  | unique :: _, .orphan stale =>
    if (s.records stale).isSome then (s, .refused (.conflict unique.field unique.message))
    else (s, .going { c with stage := .takeover stale })
  | unique :: todo, .takeover stale =>
    if s.owns unique.key stale then
      (s.setClaim unique.key (some ⟨owner, now⟩), .going (c.advance unique todo))
    else (s, .refused (.conflict unique.field unique.message))

/-- The names that are not among others. Source: `unique-claims.ts` `difference`. -/
def difference (keys without : List UniqueKey) : List UniqueKey :=
  keys.filter fun unique => without.all (·.key ≠ unique.key)

/-! ## The steps of a call -/

/-- How a call ends. -/
inductive Outcome where
  | done
  | failed (error : Error)
  deriving DecidableEq

/-- Where a call is. -/
inductive Phase (α : Type) where
  | creating (record : α) (claiming : Claiming)
  | inserting (record : α)
  | reading (record : α)
  | updating (record : α) (before : Option α) (claiming : Claiming)
  | setting (record : α) (before : Option α)
  | writing (record : α) (before : Option α) (stored : Bool)
  | mutating (id : ℕ) (mutation : Option α → Option α) (retry : ℕ)
  | committing (id : ℕ) (mutation : Option α → Option α) (retry : ℕ) (read : Option (Versioned α))
      (next : Option α)
  | removing (id : ℕ)
  | deleting (id : ℕ) (before : Option α)
  | releasing (id : ℕ) (keys : List UniqueKey) (outcome : Outcome)
  | ended (id : ℕ) (outcome : Outcome)

variable (names : Named α)

def Named.keysOf (before : Option α) : List UniqueKey := before.elim [] names.keys

def Named.added (record : α) (before : Option α) : List UniqueKey :=
  difference (names.keys record) (names.keysOf before)

def Phase.id : Phase α → ℕ
  | .creating record _ => names.id record
  | .inserting record => names.id record
  | .reading record => names.id record
  | .updating record _ _ => names.id record
  | .setting record _ => names.id record
  | .writing record _ _ => names.id record
  | .mutating id _ _ => id
  | .committing id _ _ _ _ => id
  | .removing id => id
  | .deleting id _ => id
  | .releasing id _ _ => id
  | .ended id _ => id

/-- What a step finds outside: a reading of the clock, and which of several names is released first. -/
structure Event where
  now : ℕ
  pick : ℕ

def Claimed.phase (id : ℕ) (claiming : Claiming) (going : Claiming → Phase α) (all : Phase α) :
    Claimed → Phase α
  | .going next => going next
  | .all => all
  | .refused error => .releasing id claiming.claimed (.failed error)

/-- The next step of a call. Source: `unique-claims.ts` `withUniqueAccounts`, `withUniqueCredentials`;
`database.ts` `create`, `set`, `mutate`, `delete`. -/
def advance (e : Event) (s : Store α) : Phase α → Option (Store α × Phase α)
  | .creating record claiming =>
    let next := claiming.next (names.id record) e.now s
    some (next.1, next.2.phase (names.id record) claiming (.creating record) (.inserting record))
  | .inserting record => some (match s.records (names.id record) with
    | none => (s.setRecord (names.id record) (some ⟨1, record⟩), .ended (names.id record) .done)
    | some _ => (s, .releasing (names.id record) (names.keys record)
        (.failed (.conflict (utf16 "id") (utf16 "An identity record with that id already exists.")))))
  | .reading record =>
    let before := (s.records (names.id record)).map Versioned.value
    some (s, .updating record before (.start (names.added record before)))
  | .updating record before claiming =>
    let next := claiming.next (names.id record) e.now s
    some (next.1, next.2.phase (names.id record) claiming (.updating record before) (.setting record before))
  | .setting record before => some (s, .writing record before (s.records (names.id record)).isSome)
  | .writing record before stored =>
    let old := .releasing (names.id record) (difference (names.keysOf before) (names.keys record)) .done
    let failed := fun error =>
      Phase.releasing (names.id record) (names.added record before) (.failed error)
    some (match s.records (names.id record) with
    | none =>
      if stored then (s, failed .missing)
      else (s.setRecord (names.id record) (some ⟨1, record⟩), old)
    | some v =>
      if stored then (s.setRecord (names.id record) (some (v.put record)), old)
      else (s, failed .taken))
  | .mutating id mutation retry =>
    let current := (s.records id).map Versioned.value
    let next := mutation current
    some (s,
      if current.any fun current => next.any fun next => !names.sameNames next current then
        .ended id (.failed (.conflict (utf16 "identity")
          (utf16 "Email and username change only through update, which keeps them unique.")))
      else if current.isNone ∧ next.isNone then .ended id .done
      else .committing id mutation retry (s.records id) next)
  | .committing id mutation retry read next => some (match write next read (s.records id) with
    | .stored record => (s.setRecord id record, .ended id .done)
    | .conflict => (s, if retry + 1 < 100 then .mutating id mutation (retry + 1)
        else .ended id (.failed .unconverged))
    | .notFound => (s, .ended id (.failed .missing)))
  | .removing id => some (s, .deleting id ((s.records id).map Versioned.value))
  | .deleting id before => some (s.setRecord id none, .releasing id (names.keysOf before) .done)
  | .releasing id [] outcome => some (s, .ended id outcome)
  | .releasing id keys outcome => keys[e.pick]?.map fun unique =>
    (s.release unique.key id, .releasing id (keys.eraseIdx e.pick) outcome)
  | .ended _ _ => none

def Phase.isStart : Phase α → Bool
  | .creating record claiming => claiming = .start (names.keys record)
  | .reading _ => true
  | .mutating _ _ retry => names.mutates && retry = 0
  | .removing _ => true
  | _ => false

def calls : Rules (Store α) (Phase α) Event Empty where
  begins := Phase.isStart names
  moves := advance names
  passes event _ := event.elim

/-! ## What is asked of a turn -/

/-- The names that a call has claimed, while it is still to write its record. -/
def Phase.holds : Phase α → List UniqueKey
  | .creating _ claiming => claiming.claimed
  | .inserting record => names.keys record
  | .updating _ _ claiming => claiming.claimed
  | .setting record before => names.added record before
  | .writing record before _ => names.added record before
  | _ => []

def Store.has (s : Store α) (id : ℕ) (key : Utf16) : Bool :=
  (s.records id).any fun v => (names.keys v.value).any (·.key = key)

/-- Whether an id uses a name: its record has it, or a call has claimed it and is still to write the
record. -/
def inUse (s : Store α) (parties : List (Phase α)) (id : ℕ) (key : Utf16) : Bool :=
  s.has names id key || parties.any fun p => p.id names = id && (p.holds names).any (·.key = key)

def Claiming.clear (s : Store α) (others : List (Phase α)) (c : Claiming) : Bool :=
  match c.todo, c.stage with
  | unique :: _, .takeover stale => !(s.owns unique.key stale && inUse names s others stale unique.key)
  | _, _ => true

/-- Whether a call may make its next step: a claim is taken over or released only where its id does not use
the name, and a record is written back only over one that has the names that are not claimed anew. -/
def Phase.clear (e : Event) (s : Store α) (others : List (Phase α)) : Phase α → Bool
  | .creating _ claiming => claiming.clear names s others
  | .updating _ _ claiming => claiming.clear names s others
  | .writing record before stored => stored ≠ (s.records (names.id record)).isSome ||
    (names.keys record).all fun unique => (names.keysOf before).all (·.key ≠ unique.key) ||
      s.has names (names.id record) unique.key
  | .committing id _ _ read next => read.map Versioned.version ≠ (s.records id).map Versioned.version ||
    (names.keysOf next).all fun unique => s.has names id unique.key
  | .releasing id keys _ => keys[e.pick]?.all fun unique =>
    !(s.owns unique.key id && inUse names s others id unique.key)
  | _ => true

def clear (w : World (Store α) (Phase α)) : Turn (Phase α) Event Empty → Bool
  | .move k e => w.parties[k]?.all fun p => p.clear names e w.shared (w.parties.eraseIdx k)
  | _ => true

end Zelavis.Identity.UniqueClaims
