import Zelavis.Platform.SystemStore

/-!
# The first owner

`auth-bootstrap.ts` over one System Store: an attempt looks for an owner, takes a claim that is honoured for
five minutes, cleans up what earlier attempts have left, creates an account with a credential, completes the
account, opens a session and marks the claim complete; where a call fails it takes back what it has created.
Every call of the store or of a repository is a step. Any number of attempts, by any number of processes, go
on beside each other; one that crashes is given no further turn.
-/

namespace Zelavis.Platform.Bootstrap

open Lib Turns Edge

/-! ## What an owner is asked for -/

/-- Source: `contracts/api.ts` `IdentityBootstrapInput`. -/
structure Input where
  provider : Utf16
  email : Option Utf16
  username : Option Utf16
  deriving DecidableEq

/-- A credential that a provider has prepared, and whose it is, where the provider says so. Source:
`authentication-service.ts` `prepareCredential`. -/
structure Prepared where
  identifier : Utf16
  email : Option Utf16
  username : Option Utf16
  deriving DecidableEq

/-- The owner that is to be created. -/
structure Owner where
  provider : Utf16
  identifier : Utf16
  email : Option Utf16
  username : Option Utf16
  deriving DecidableEq

/-- Source: `normalizeOptional`. -/
def normalizeOptional (value : Option Utf16) : Option Utf16 := (value.map trim).filter (· ≠ [])

/-- Whether what a provider says of an account is something else than what was asked for. -/
def mismatch (said requested : Option Utf16) : Bool :=
  (said.filter (· ≠ [])).isSome && requested.isSome && said ≠ requested

/-- The owner that is to be created; nothing where the input is refused. Source: `bootstrap`. -/
def identity (lower : Utf16 → Utf16) (input : Input) (prepared : Prepared) : Option Owner :=
  let requestedEmail := (normalizeOptional input.email).map lower
  let requestedUsername := normalizeOptional input.username
  let email := prepared.email.orElse fun _ => requestedEmail
  let username := prepared.username.orElse fun _ => requestedUsername
  if mismatch prepared.email requestedEmail then none
  else if mismatch prepared.username requestedUsername then none
  else if (email.filter (· ≠ [])).isNone ∧ (username.filter (· ≠ [])).isNone then none
  else some ⟨input.provider, prepared.identifier, email, username⟩

/-! ## What is stored -/

/-- Source: `BootstrapClaim`, its `status`. -/
inductive Status where
  | pending
  | complete
  | failed
  deriving DecidableEq

/-- Source: `BootstrapClaim`. -/
structure Claim where
  claimId : ℕ
  status : Status
  createdAt : ℕ
  updatedAt : ℕ
  deriving DecidableEq

/-- Source: `BOOTSTRAP_CLAIM_LEASE_MS`. -/
def leaseMs : ℕ := 5 * 60 * 1000

/-- An account with the role of an owner, and whether its bootstrap is pending. Source: `entities.ts`
`Account`; `auth-bootstrap.ts` `isPendingBootstrapAccount`. -/
structure Account where
  id : ℕ
  email : Option Utf16
  username : Option Utf16
  pending : Bool
  deriving DecidableEq

/-- A credential, or a session, of an account. Source: `entities.ts` `Credential`, `Session`. -/
structure Owned where
  id : ℕ
  accountId : ℕ
  deriving DecidableEq

/-- The claim, the accounts, the credentials and the sessions, and the next id that is drawn. -/
structure Shared where
  claim : Option (Versioned Claim)
  accounts : List Account
  credentials : List Owned
  sessions : List Owned
  next : ℕ
  deriving DecidableEq

/-- An account is written, whatever is stored under its id. Source: `auth-repositories.ts` `set`. -/
def Shared.setAccount (s : Shared) (account : Account) : Shared :=
  { s with accounts := s.accounts.filter (·.id ≠ account.id) ++ [account] }

/-- Source: `auth-repositories.ts`, the `delete` of its accounts. -/
def Shared.deleteAccount (s : Shared) (id : ℕ) : Shared :=
  { s with accounts := s.accounts.filter (·.id ≠ id) }

/-- Source: `auth-repositories.ts`, the `delete` of its credentials. -/
def Shared.deleteCredential (s : Shared) (id : ℕ) : Shared :=
  { s with credentials := s.credentials.filter (·.id ≠ id) }

/-- Source: `auth-repositories.ts`, the `delete` of its sessions. -/
def Shared.deleteSession (s : Shared) (id : ℕ) : Shared :=
  { s with sessions := s.sessions.filter (·.id ≠ id) }

/-- The ids of what is owned by an account. Source: `auth-repositories.ts` `listByAccountId`. -/
def ownedBy (owned : List Owned) (account : ℕ) : List ℕ :=
  (owned.filter (·.accountId = account)).map Owned.id

/-! ## Where an attempt is -/

/-- An attempt that holds a claim: the record of the claim, and the ids of what it creates. -/
structure Attempt where
  owner : Owner
  record : Versioned Claim
  account : ℕ
  credential : ℕ
  deriving DecidableEq

/-- What is next in the clean-up of an account. Source: `cleanPendingAccounts`. -/
inductive Chore where
  | listSessions
  | deleteSessions (ids : List ℕ)
  | listCredentials
  | deleteCredentials (ids : List ℕ)
  | deleteAccount
  deriving DecidableEq

/-- What is taken back. Source: `bootstrap`, where it catches. -/
inductive Undo where
  | session (id : ℕ)
  | credential
  | account
  | claim
  deriving DecidableEq

/-- Where an attempt is. -/
inductive Phase where
  | checking (input : Input)
  | preparing (input : Input)
  | acquiring (owner : Owner)
  | taking (owner : Owner) (claim : Claim) (expectedUpdatedAt : ℕ)
  | listing (t : Attempt)
  | cleaning (t : Attempt) (id : ℕ) (ids : List ℕ) (chore : Chore)
  | creating (t : Attempt)
  | enrolling (t : Attempt)
  | completing (t : Attempt)
  | opening (t : Attempt)
  | finishing (t : Attempt) (session : ℕ)
  | undoing (t : Attempt) (todo : List Undo)
  | succeeded (t : Attempt) (session : ℕ)
  | failed (t : Attempt)
  | refused
  deriving DecidableEq

/-- Whether a call fails, before it has had its effect or after. A name that another account has, and what
else a repository refuses, is a call that fails before. -/
inductive Fault where
  | none
  | before
  | after
  deriving DecidableEq

/-- What a step finds outside: whether its call fails, the clock of the process and that of the store, and
what the provider has prepared, if it has. -/
structure Event where
  fault : Fault
  now : ℕ
  storeNow : ℕ
  prepared : Option Prepared
  deriving DecidableEq

/-! ## The steps of an attempt -/

def Fault.apply (fault : Fault) (s s' : Shared) (next failing : Phase) : Shared × Phase :=
  match fault with
  | .none => (s', next)
  | .before => (s, failing)
  | .after => (s', failing)

def Chore.sessions : List ℕ → Chore
  | [] => .listCredentials
  | ids => .deleteSessions ids

def Chore.credentials : List ℕ → Chore
  | [] => .deleteAccount
  | ids => .deleteCredentials ids

/-- The accounts that are left to clean up, and then the account is created. -/
def Phase.clean (t : Attempt) : List ℕ → Phase
  | [] => .creating t
  | id :: ids => .cleaning t id ids .listSessions

/-- The next call of a clean-up, and what it leads to. Source: `cleanPendingAccounts`. -/
def Chore.next (s : Shared) (t : Attempt) (id : ℕ) (ids : List ℕ) : Chore → Shared × Phase
  | .listSessions => (s, .cleaning t id ids (.sessions (ownedBy s.sessions id)))
  | .deleteSessions [] => (s, .cleaning t id ids .listCredentials)
  | .deleteSessions (session :: sessions) =>
    (s.deleteSession session, .cleaning t id ids (.sessions sessions))
  | .listCredentials => (s, .cleaning t id ids (.credentials (ownedBy s.credentials id)))
  | .deleteCredentials [] => (s, .cleaning t id ids .deleteAccount)
  | .deleteCredentials (credential :: credentials) =>
    (s.deleteCredential credential, .cleaning t id ids (.credentials credentials))
  | .deleteAccount => (s.deleteAccount id, .clean t ids)

/-- The record of a claim that is replaced where it is still the one that was read. -/
def Shared.setClaim (s : Shared) (storeNow expectedUpdatedAt : ℕ) (claim : Claim) : Shared :=
  { s with
    claim := (SystemStore.compareAndSetRecord storeNow s.claim expectedUpdatedAt claim none).orElse fun _ =>
      s.claim }

/-- Whatever becomes of it. Source: `finishClaim`. -/
def Shared.finishClaim (s : Shared) (e : Event) (record : Versioned Claim) (status : Status) : Shared :=
  s.setClaim e.storeNow record.updatedAt { record.value with status, updatedAt := e.now }

def Attempt.undo (t : Attempt) (session : Option ℕ) (created : Bool) : Phase :=
  .undoing t ((session.map Undo.session).toList ++ [.credential] ++ (if created then [.account] else []) ++
    [.claim])

def Undo.act (e : Event) (s : Shared) (t : Attempt) : Undo → Shared
  | .session id => s.deleteSession id
  | .credential => s.deleteCredential t.credential
  | .account => s.deleteAccount t.account
  | .claim => s.finishClaim e t.record .failed

def Shared.hold (s : Shared) (owner : Owner) (record : Versioned Claim) : Shared × Phase :=
  ({ s with claim := some record, next := s.next + 2 }, .listing ⟨owner, record, s.next, s.next + 1⟩)

def Attempt.toAccount (t : Attempt) (pending : Bool) : Account :=
  ⟨t.account, t.owner.email, t.owner.username, pending⟩

variable (lower : Utf16 → Utf16)

/-- The next step of an attempt. Source: `createPlatformAuthBootstrap`. -/
def advance (e : Event) (s : Shared) : Phase → Option (Shared × Phase)
  | .checking input => some (e.fault.apply s s
      (if s.accounts.any fun account => !account.pending then .refused else .preparing input) .refused)
  | .preparing input => some (s, if input.provider = [] then .refused else
      (e.prepared.bind (identity lower input)).elim .refused .acquiring)
  | .acquiring owner =>
    let claim : Claim := ⟨s.next, .pending, e.now, e.now⟩
    let drawn := { s with next := s.next + 1 }
    some (match setIfAbsent e.storeNow s.claim claim with
    | some record => e.fault.apply s (drawn.hold owner record).1 (drawn.hold owner record).2 .refused
    | none => e.fault.apply s drawn (s.claim.elim .refused fun existing =>
        if existing.value.status = .complete then .refused
        else if existing.value.status = .pending ∧ e.now - existing.value.updatedAt < leaseMs then .refused
        else .taking owner claim existing.updatedAt) .refused)
  | .taking owner claim expectedUpdatedAt => some
      (match SystemStore.compareAndSetRecord e.storeNow s.claim expectedUpdatedAt claim none with
    | some record => e.fault.apply s (s.hold owner record).1 (s.hold owner record).2 .refused
    | none => (s, .refused))
  | .listing t => some (e.fault.apply s s (.clean t ((s.accounts.filter Account.pending).map Account.id))
      (t.undo none false))
  | .cleaning t id ids chore => some (e.fault.apply s (chore.next s t id ids).1 (chore.next s t id ids).2
      (t.undo none false))
  | .creating t => some (e.fault.apply s (s.setAccount (t.toAccount true)) (.enrolling t) (t.undo none false))
  | .enrolling t => some (e.fault.apply s
      { s with credentials := s.credentials ++ [⟨t.credential, t.account⟩] } (.completing t) (t.undo none true))
  | .completing t => some (e.fault.apply s (s.setAccount (t.toAccount false)) (.opening t) (t.undo none true))
  | .opening t => some (e.fault.apply s
      { s with sessions := s.sessions ++ [⟨s.next, t.account⟩], next := s.next + 1 } (.finishing t s.next)
      (t.undo none true))
  | .finishing t session => some (e.fault.apply s (s.finishClaim e t.record .complete) (.succeeded t session)
      (t.undo (some session) true))
  | .undoing t [] => some (s, .failed t)
  | .undoing t (undo :: todo) => some (e.fault.apply s (undo.act e s t)
      (if todo = [] then .failed t else .undoing t todo) (.failed t))
  | .succeeded _ _ => none
  | .failed _ => none
  | .refused => none

def Phase.isStart : Phase → Bool
  | .checking _ => true
  | _ => false

def attempts : Rules Shared Phase Event Empty where
  begins := Phase.isStart
  moves := advance lower
  passes event _ := event.elim

/-! ## What is asked of a turn -/

def Shared.vacant (s : Shared) : Bool := s.accounts.all Account.pending

/-- Whether an attempt may make its next step: a claim is taken only while no completed account is stored, an
account is completed only while the claim that is stored is its own, no completed account is cleaned up, and
no call fails once the account is completed. -/
def Phase.clear (e : Event) (s : Shared) : Phase → Bool
  | .acquiring _ => s.claim.isSome || e.fault = .before || s.vacant
  | .taking _ _ expectedUpdatedAt =>
    !SystemStore.isExpected s.claim expectedUpdatedAt none || e.fault = .before || s.vacant
  | .cleaning _ id _ .deleteAccount =>
    e.fault = .before || s.accounts.all fun account => account.id ≠ id || account.pending
  | .completing t => e.fault = .before || s.claim = some t.record && e.fault = .none
  | .opening _ => e.fault = .none
  | .finishing _ _ => e.fault = .none
  | _ => true

def clear (w : World Shared Phase) : Turn Phase Event Empty → Bool
  | .move k e => w.parties[k]?.all fun p => p.clear e w.shared
  | _ => true

end Zelavis.Platform.Bootstrap
