import Zelavis.Edge.RouteValidation
import Zelavis.Identity.UniqueClaimRuns

/-!
# Signing in through an authorization

`authentication-service.ts` `completeAuthorizationCode` over the repositories of `database.ts`: a stored
authorization is consumed, the provider is asked who signs in, and the account of that identity is found, or
created with a credential. Any number of completions go on beside each other.
-/

namespace Zelavis.Identity.SignIn

open Lib Turns UniqueClaims

/-! ## What is stored -/

/-- A stored authorization: for whom it was asked, the account it is to be linked to, if it is to be, and
when it expires. Source: `entities.ts` `IdentityAuthorizationFlow`. -/
structure Flow where
  provider : Utf16
  accountId : Option ℕ
  expiresAt : ℕ
  deriving DecidableEq

/-- Who signs in, as the provider says. Source: `credential-provider.ts` `AuthorizationCodeIdentity`. -/
structure ExternalIdentity where
  identifier : Utf16
  email : Option Utf16
  username : Option Utf16
  deriving DecidableEq

/-- The authorizations by state, the accounts and the credentials, each with its account as the rest, and the
next id that is drawn. -/
structure Shared where
  flows : List (Option (Versioned Flow))
  accounts : Store Account
  credentials : Store Credential
  next : ℕ

def Shared.flow (s : Shared) (state : ℕ) : Option (Versioned Flow) := s.flows[state]?.join

variable (lower : Utf16 → Utf16)

/-- Source: `credential-service.ts` `create`, its `identifier`. -/
def normalIdentifier (provider identifier : Utf16) : Utf16 :=
  if provider = utf16 "email-password" then lower (Edge.trim identifier) else Edge.trim identifier

/-- The credential of a provider and an identifier. Source: `database.ts` `findByProviderIdentifier`. -/
def Shared.findByProviderIdentifier (s : Shared) (provider identifier : Utf16) : Option Credential :=
  (List.range s.next).findSome? fun id => (s.credentials.records id).bind fun v =>
    if v.value.provider = provider ∧ v.value.identifier = identifier then some v.value else none

/-- The account that a first sign-in creates; one with neither email nor username is given a username.
Source: `authentication-service.ts` `completeAuthorizationCode`; `account-service.ts` `create`. -/
def newAccount (id : ℕ) (identity : ExternalIdentity) (drawn : Utf16) : Account :=
  let email := identity.email.map fun email => lower (Edge.trim email)
  let username := identity.username.orElse fun _ =>
    if (identity.email.filter (· ≠ [])).isNone then some (utf16 "oidc_" ++ drawn) else none
  ⟨id, email, username.map Edge.trim, 0⟩

/-! ## The steps of a completion -/

/-- What is known of a completion: the provider, the state, who signs in, and the ids that it has drawn. -/
structure Ticket where
  provider : Utf16
  state : ℕ
  identity : ExternalIdentity
  account : Option ℕ
  credential : Option ℕ
  deriving DecidableEq

/-- Where a completion is. -/
inductive Phase where
  | consuming (provider : Utf16) (state : ℕ) (change : Mutate Flow)
  | exchanging (provider : Utf16) (state : ℕ) (flow : Flow)
  | looking (t : Ticket) (link : Option ℕ)
  | linking (t : Ticket) (account : ℕ) (registered : Option Credential)
  | registering (t : Ticket) (call : UniqueClaims.Phase Account)
  | enrolling (t : Ticket) (account : ℕ) (made : Bool) (call : UniqueClaims.Phase Credential)
  | withdrawing (t : Ticket) (adopts : Bool) (call : UniqueClaims.Phase Account)
  | adopting (t : Ticket)
  | relinking (t : Ticket) (account : ℕ)
  | finding (t : Ticket) (credential : Credential)
  | opening (t : Ticket) (account credential : ℕ)
  | completed (t : Ticket) (account credential : ℕ)
  | invalid
  | failed (t : Ticket)

/-- What a step finds outside. -/
structure Event where
  call : UniqueClaims.Event
  answer : Option ExternalIdentity
  drawn : Utf16
  opens : Bool

/-- A credential of an account is to be created, with the next id. Source: `credential-service.ts`
`create`. -/
def enroll (s : Shared) (t : Ticket) (account : ℕ) (made : Bool) : Shared × Phase :=
  let record : Credential := ⟨s.next, t.provider, normalIdentifier lower t.provider t.identity.identifier,
    account⟩
  ({ s with next := s.next + 1 },
    .enrolling { t with credential := some s.next } account made (.creating record (.start
      (credentialKeys record))))

/-- Whether another's account is looked for after a refusal. Source: `authentication-service.ts`, its
`instanceof IdentityConflictError`. -/
def isConflict : Error → Bool
  | .conflict _ _ => true
  | _ => false

/-- The next step of a completion. Source: `authentication-service.ts` `completeAuthorizationCode`. -/
def advance (e : Event) (s : Shared) : Phase → Option (Shared × Phase)
  | .consuming provider state change =>
    let next := change.next (fun _ => none) (s.flow state)
    some ({ s with flows := s.flows.set state next.1 }, match next.2 with
      | .going change => .consuming provider state change
      | .failed => .invalid
      | .through none _ => .invalid
      | .through (some flow) _ =>
        if flow.provider ≠ provider ∨ flow.expiresAt ≤ e.call.now then .invalid
        else .exchanging provider state flow)
  | .exchanging provider state flow => some (s, match e.answer with
    | none => .invalid
    | some identity =>
      if Edge.trim identity.identifier = [] then .invalid
      else .looking ⟨provider, state, identity, none, none⟩ flow.accountId)
  | .looking t link =>
    let registered := s.findByProviderIdentifier t.provider t.identity.identifier
    match link, registered with
    | some account, registered => some (s, .linking t account registered)
    | none, some credential => some (s, .finding t credential)
    | none, none =>
      let account := newAccount lower s.next t.identity e.drawn
      if (account.email.filter (· ≠ [])).isNone ∧ (account.username.filter (· ≠ [])).isNone then
        some (s, .failed t)
      else some ({ s with next := s.next + 1 }, .registering { t with account := some s.next }
        (.creating account (.start (accountKeys account))))
  | .linking t account registered =>
    if (s.accounts.records account).isNone then some (s, .failed t)
    else match registered with
    | some credential => some (s, if credential.rest ≠ account then .failed t
        else .opening t account credential.id)
    | none =>
      if normalIdentifier lower t.provider t.identity.identifier = [] then some (s, .failed t)
      else some (enroll lower s t account false)
  | .registering t (.ended account .done) =>
    if normalIdentifier lower t.provider t.identity.identifier = [] then
      some (s, .withdrawing t false (.removing account))
    else some (enroll lower s t account true)
  | .registering t (.ended _ (.failed error)) => some (s, if isConflict error then .adopting t else .failed t)
  | .registering t call => (UniqueClaims.advance accountNames e.call s.accounts call).map fun next =>
    ({ s with accounts := next.1 }, .registering t next.2)
  | .enrolling t account _ (.ended credential .done) => some (s, .opening t account credential)
  | .enrolling t account true (.ended _ (.failed error)) =>
    some (s, .withdrawing t (isConflict error) (.removing account))
  | .enrolling t account false (.ended _ (.failed error)) =>
    some (s, if isConflict error then .relinking t account else .failed t)
  | .enrolling t account made call =>
    (UniqueClaims.advance credentialNames e.call s.credentials call).map fun next =>
      ({ s with credentials := next.1 }, .enrolling t account made next.2)
  | .withdrawing t adopts (.ended _ _) => some (s, if adopts then .adopting t else .failed t)
  | .withdrawing t adopts call => (UniqueClaims.advance accountNames e.call s.accounts call).map fun next =>
    ({ s with accounts := next.1 }, .withdrawing t adopts next.2)
  | .adopting t => some (s, (s.findByProviderIdentifier t.provider t.identity.identifier).elim (.failed t)
    (.finding t))
  | .relinking t account => some (s, match s.findByProviderIdentifier t.provider t.identity.identifier with
    | none => .failed t
    | some credential => if credential.rest ≠ account then .failed t else .opening t account credential.id)
  | .finding t credential => some (s, if (s.accounts.records credential.rest).isNone then .failed t
      else .opening t credential.rest credential.id)
  | .opening t account credential => some (s, if e.opens then .completed t account credential else .failed t)
  | .completed _ _ _ => none
  | .invalid => none
  | .failed _ => none

def Phase.isStart : Phase → Bool
  | .consuming _ _ change => change = .start
  | _ => false

def completions : Rules Shared Phase Event Empty where
  begins := Phase.isStart
  moves := advance lower
  passes event _ := event.elim

/-! ## What is asked of a turn -/

def Phase.enrols : Phase → Option (UniqueClaims.Phase Credential)
  | .enrolling _ _ _ call => some call
  | _ => none

/-- Whether a completion may make its next step: an authorization that was read is deleted only while it is
stored, and a claim on an identity is taken over or released only where its id does not use it. -/
def Phase.clear (e : Event) (s : Shared) (others : List Phase) : Phase → Bool
  | .consuming _ state change => change.read.all fun read => read.isNone || (s.flow state).isSome
  | .enrolling _ _ _ call => call.clear credentialNames e.call s.credentials (others.filterMap Phase.enrols)
  | _ => true

def clear (w : World Shared Phase) : Turn Phase Event Empty → Bool
  | .move k e => w.parties[k]?.all fun p => p.clear e w.shared (w.parties.eraseIdx k)
  | _ => true

end Zelavis.Identity.SignIn
