import Zelavis.Identity.Mutations

/-!
# Sessions

`session-service.ts` over the sessions of one account, step by step: every call of a repository is a step,
and a change by `mutate` is one for its every reading and writing.
-/

namespace Zelavis.Identity.Sessions

/-! ## What is stored -/

/-- Source: `entities.ts` `Session`, its `status`. -/
inductive Status where
  | active
  | revoked
  | expired
  deriving DecidableEq

/-- A session of the account. Source: `entities.ts` `Session`. -/
structure Session where
  status : Status
  epoch : Option ℕ
  expiresAt : ℕ
  createdAt : ℕ
  deriving DecidableEq

/-- The account. Source: `entities.ts` `Account`, its `sessionEpoch`, and its `metadata` as a number. -/
structure Account where
  sessionEpoch : Option ℕ
  metadata : ℕ
  deriving DecidableEq

/-- The account, and its sessions in the order they were created; the place of one stands for its id and
for its token. -/
structure Stored where
  account : Option (Versioned Account)
  sessions : List (Versioned Session)
  deriving DecidableEq

/-- Source: `currentEpoch`. -/
def Stored.currentEpoch (s : Stored) : ℕ := s.account.elim 0 fun account => account.value.sessionEpoch.getD 0

def Session.epochOf (x : Session) : ℕ := x.epoch.getD 0

def Stored.setSession (s : Stored) (id : ℕ) (record : Option (Versioned Session)) : Stored :=
  record.elim s fun record => { s with sessions := s.sessions.set id record }

/-! ## Creation -/

/-- Where a creation is. -/
inductive Create where
  | asked (expiresAt : ℕ)
  | issuing (expiresAt epoch : ℕ)
  | created (id : ℕ)
  | failed
  deriving DecidableEq

/-- A session is issued. Source: `issue`. -/
def issue (now expiresAt epoch : ℕ) (s : Stored) : Option (Stored × ℕ) :=
  if expiresAt ≤ now then none
  else some ({ s with sessions := s.sessions ++ [⟨1, ⟨.active, some epoch, expiresAt, now⟩⟩] },
    s.sessions.length)

/-- The next step of a creation. Source: `create`. -/
def Create.next (now : ℕ) (s : Stored) : Create → Option (Stored × Create)
  | .asked expiresAt => some (s, .issuing expiresAt s.currentEpoch)
  | .issuing expiresAt epoch => some ((issue now expiresAt epoch s).elim (s, .failed) fun issued =>
    (issued.1, .created issued.2))
  | .created _ => none
  | .failed => none

/-! ## Resolution -/

/-- Where the resolution of a token is. -/
inductive Resolve where
  | asked (id : ℕ)
  | expiring (id : ℕ) (session : Session)
  | comparing (id : ℕ) (session : Session)
  | resolved (id : ℕ)
  | unresolved
  deriving DecidableEq

/-- The next step of a resolution. An expired session is written back as it was read. Source:
`resolveToken`; `database.ts` `set`. -/
def Resolve.next (now : ℕ) (s : Stored) : Resolve → Option (Stored × Resolve)
  | .asked id => some (s, match s.sessions[id]? with
    | none => .unresolved
    | some stored =>
      if stored.value.status ≠ .active then .unresolved
      else if stored.value.expiresAt ≤ now then .expiring id stored.value
      else .comparing id stored.value)
  | .expiring id session => some (s.setSession id
    (s.sessions[id]?.map fun stored => stored.put { session with status := .expired }), .unresolved)
  | .comparing id session =>
    some (s, if session.epochOf ≠ s.currentEpoch then .unresolved else .resolved id)
  | .resolved _ => none
  | .unresolved => none

/-! ## Revocation -/

/-- Source: `revoke`, its mutation. -/
def revoked (x : Session) : Session := { x with status := .revoked }

/-- Where the change of a session is. -/
abbrev Revoke := Mutate Session

def changeSession (f : Session → Session) (id : ℕ) (s : Stored) (m : Mutate Session) :
    Stored × Came Session :=
  let next := m.next (Option.map f) s.sessions[id]?
  (s.setSession id next.1, next.2)

/-! ## Rotation -/

/-- Where a rotation is. -/
inductive Rotate where
  | asked (id : ℕ)
  | checking (id : ℕ) (session : Session) (now : ℕ)
  | consuming (id : ℕ) (session : Session) (now : ℕ) (change : Mutate Session)
  | issuing (id : ℕ) (session : Session) (now : ℕ)
  | verifying (id next epoch : ℕ)
  | undoing (next : ℕ) (change : Mutate Session)
  | rotated (id next : ℕ)
  | refused
  | failed
  deriving DecidableEq

def Session.live (x : Session) (now : ℕ) : Bool := x.status = .active && now < x.expiresAt

/-- Source: `rotate`, its mutation. -/
def consumed (now : ℕ) (x : Session) : Session := if x.live now then revoked x else x

/-- The next step of a rotation. Source: `rotate`. -/
def Rotate.next (now : ℕ) (s : Stored) : Rotate → Option (Stored × Rotate)
  | .asked id => some (s, match s.sessions[id]? with
    | none => .refused
    | some stored => if stored.value.live now then .checking id stored.value now else .refused)
  | .checking id session at_ =>
    some (s, if session.epochOf ≠ s.currentEpoch then .refused else .consuming id session at_ .start)
  | .consuming id session at_ change =>
    let next := changeSession (consumed at_) id s change
    some (next.1, match next.2 with
      | .going change => .consuming id session at_ change
      | .through current _ =>
        if current.any (Session.live · at_) then .issuing id session at_ else .refused
      | .failed => .failed)
  | .issuing id session at_ =>
    some ((issue now (at_ + max 1 (session.expiresAt - session.createdAt)) session.epochOf s).elim
      (s, .failed) fun issued => (issued.1, .verifying id issued.2 session.epochOf))
  | .verifying id next epoch =>
    some (s, if epoch ≠ s.currentEpoch then .undoing next .start else .rotated id next)
  | .undoing id change =>
    let next := changeSession revoked id s change
    some (next.1, match next.2 with
      | .going change => .undoing id change
      | .through _ _ => .refused
      | .failed => .failed)
  | .rotated _ _ => none
  | .refused => none
  | .failed => none

/-! ## Revocation of all -/

/-- Where the revocation of all sessions is. -/
inductive RevokeAll where
  | bumping (kept : Option ℕ) (change : Mutate Account)
  | keeping (id epoch : ℕ) (change : Mutate Session)
  | listing (kept epoch : Option ℕ)
  | ending (kept epoch : Option ℕ) (remaining : List ℕ) (change : Mutate Session)
  | ended (kept epoch : Option ℕ)
  | failed
  deriving DecidableEq

/-- Source: `revokeAll`, its mutation of the account. -/
def bumped (account : Account) : Account := { account with sessionEpoch := some (account.sessionEpoch.getD 0 + 1) }

/-- Source: `revokeAll`, its mutation of the session that is kept. -/
def moved (epoch : ℕ) (x : Session) : Session :=
  if x.status = .active then { x with epoch := some epoch } else x

/-- The sessions that are revoked: those that are active, but for the one that is kept. -/
def Stored.others (s : Stored) (kept : Option ℕ) : List ℕ :=
  (List.range s.sessions.length).filter fun id =>
    s.sessions[id]?.any (·.value.status = .active) && kept ≠ some id

/-- The next step of a revocation of all. Source: `revokeAll`. -/
def RevokeAll.next (s : Stored) : RevokeAll → Option (Stored × RevokeAll)
  | .bumping kept change =>
    let next := change.next (Option.map bumped) s.account
    some ({ s with account := next.1 }, match next.2 with
      | .going change => .bumping kept change
      | .through _ account =>
        let epoch := account.map fun account => account.sessionEpoch.getD 0
        match kept, epoch with
        | some id, some epoch => .keeping id epoch .start
        | _, _ => .listing kept epoch
      | .failed => .failed)
  | .keeping id epoch change =>
    let next := changeSession (moved epoch) id s change
    some (next.1, match next.2 with
      | .going change => .keeping id epoch change
      | .through _ _ => .listing (some id) (some epoch)
      | .failed => .failed)
  | .listing kept epoch => some (s, .ending kept epoch (s.others kept) .start)
  | .ending kept epoch [] _ => some (s, .ended kept epoch)
  | .ending kept epoch (id :: remaining) change =>
    let next := changeSession revoked id s change
    some (next.1, match next.2 with
      | .going change => .ending kept epoch (id :: remaining) change
      | .through _ _ => .ending kept epoch remaining .start
      | .failed => .failed)
  | .ended _ _ => none
  | .failed => none

/-! ## The account's metadata -/

/-- Where a replacement of the account's metadata is. -/
inductive Describe where
  | asked (metadata : ℕ)
  | writing (account : Account)
  | described
  | failed
  deriving DecidableEq

/-- The next step of a replacement of the account's metadata; no name changes, so none is claimed. Source:
`account-service.ts` `setMetadata`; `database.ts` `set`. -/
def Describe.next (s : Stored) : Describe → Option (Stored × Describe)
  | .asked metadata =>
    some (s, s.account.elim .failed fun account => .writing { account.value with metadata })
  | .writing account => some ({ s with account := s.account.map (Versioned.put · account) }, .described)
  | .described => none
  | .failed => none

/-! ## All of them together -/

/-- Where a call is. -/
inductive Phase where
  | create (p : Create)
  | resolve (p : Resolve)
  | rotate (p : Rotate)
  | revoke (id : ℕ) (change : Revoke)
  | revokeAll (p : RevokeAll)
  | describe (p : Describe)
  | finished
  deriving DecidableEq

def advance (now : ℕ) (s : Stored) : Phase → Option (Stored × Phase)
  | .create p => (p.next now s).map (Prod.map id .create)
  | .resolve p => (p.next now s).map (Prod.map id .resolve)
  | .rotate p => (p.next now s).map (Prod.map id .rotate)
  | .revoke session change =>
    let next := changeSession revoked session s change
    some (next.1, match next.2 with
      | .going change => .revoke session change
      | _ => .finished)
  | .revokeAll p => (p.next s).map (Prod.map id .revokeAll)
  | .describe p => (p.next s).map (Prod.map id .describe)
  | .finished => none

def Phase.isStart : Phase → Bool
  | .create (.asked _) => true
  | .resolve (.asked _) => true
  | .rotate (.asked _) => true
  | .revoke _ change => change = .start
  | .revokeAll (.bumping _ change) => change = .start
  | .describe (.asked _) => true
  | .finished => true
  | _ => false

/-! ## What a call has read, and what it has done -/

/-- The epoch that a call has read, or compared with what it read, and is to stamp a session with. -/
def Phase.stamp : Phase → Option ℕ
  | .create (.issuing _ epoch) => some epoch
  | .rotate (.consuming _ session _ _) => some session.epochOf
  | .rotate (.issuing _ session _) => some session.epochOf
  | _ => none

def Phase.issued : Phase → Option ℕ
  | .create (.created id) => some id
  | .rotate (.verifying _ next _) => some next
  | .rotate (.undoing next _) => some next
  | .rotate (.rotated _ next) => some next
  | _ => none

/-- Whether a call, if it is one that issues a session, is past its reading of the account's epoch. -/
def Phase.hasRead : Phase → Bool
  | .create (.asked _) => false
  | .rotate (.asked _) => false
  | .rotate (.checking _ _ _) => false
  | _ => true

def Phase.consumes : Phase → Option ℕ
  | .rotate (.issuing id _ _) => some id
  | .rotate (.verifying id _ _) => some id
  | .rotate (.rotated id _) => some id
  | _ => none

def Phase.bumpedTo : Phase → Option ℕ
  | .revokeAll (.keeping _ epoch _) => some epoch
  | .revokeAll (.listing _ epoch) => epoch
  | .revokeAll (.ending _ epoch _ _) => epoch
  | .revokeAll (.ended _ epoch) => epoch
  | _ => none

/-- The epoch below which a session has been ended by a revocation of all that has listed the others: it
does not keep it, and does not find it active. -/
def Phase.ends (id : ℕ) : Phase → Option ℕ
  | .revokeAll (.ending kept epoch remaining _) =>
    if kept = some id ∨ id ∈ remaining then none else epoch
  | .revokeAll (.ended kept epoch) => if kept = some id then none else epoch
  | _ => none

/-! ## What a step does to what is stored -/

def Stored.issue (s : Stored) (x : Session) : Stored := { s with sessions := s.sessions ++ [⟨1, x⟩] }

def Stored.putSession (s : Stored) (id : ℕ) (v : Versioned Session) (x : Session) : Stored :=
  { s with sessions := s.sessions.set id (v.put x) }

def Stored.putAccount (s : Stored) (v : Versioned Account) (account : Account) : Stored :=
  { s with account := some (v.put account) }

/-- What a step does. -/
inductive Step (s : Stored) (p p' : Phase) : Stored → Prop where
  | quiet : Step s p p' s
  | issued (x : Session) (epoch : ℕ) (hstamp : p.stamp = some epoch) (hepoch : x.epoch = some epoch)
      (hissued : p'.issued = some s.sessions.length) : Step s p p' (s.issue x)
  | ended (id : ℕ) (v : Versioned Session) (x : Session) (hv : s.sessions[id]? = some v)
      (hx : x.status ≠ .active ∨ x = v.value) : Step s p p' (s.putSession id v x)
  | kept (id epoch : ℕ) (change : Mutate Session) (v : Versioned Session)
      (hp : p = .revokeAll (.keeping id epoch change)) (hv : s.sessions[id]? = some v)
      (hactive : v.value.status = .active) (hwrites : change.writes (some v) = true) :
      Step s p p' (s.putSession id v { v.value with epoch := some epoch })
  | bumped (v : Versioned Account) (hv : s.account = some v)
      (hbumped : p'.bumpedTo = some (s.currentEpoch + 1)) :
      Step s p p' (s.putAccount v (Sessions.bumped v.value))
  | described (v : Versioned Account) (account : Account) (hp : p = .describe (.writing account))
      (hv : s.account = some v) : Step s p p' (s.putAccount v account)

def Phase.Sound (s : Stored) : Phase → Prop
  | .rotate (.consuming id _ _ change) => change.Reads s.sessions[id]?
  | .rotate (.undoing id change) => change.Reads s.sessions[id]?
  | .revoke id change => change.Reads s.sessions[id]?
  | .revokeAll (.bumping _ change) => change.Reads s.account
  | .revokeAll (.keeping id _ change) => change.Reads s.sessions[id]?
  | .revokeAll (.ending _ _ (id :: _) change) => change.Reads s.sessions[id]?
  | .revokeAll (.ending _ _ [] change) => change = .start
  | _ => True

variable {s s' : Stored} {p p' : Phase} {id : ℕ} {f : Session → Session}

@[simp] lemma Stored.setSession_none (s : Stored) (id : ℕ) : s.setSession id none = s := rfl

lemma Stored.setSession_self (s : Stored) (id : ℕ) : s.setSession id s.sessions[id]? = s := by
  cases hv : s.sessions[id]? with
  | none => rfl
  | some v =>
    obtain ⟨hlt, rfl⟩ := List.getElem?_eq_some_iff.1 hv
    simp [Stored.setSession]

lemma changeSession_cases {change : Mutate Session} (h : change.Reads s.sessions[id]?) :
    (s.sessions[id]? = none ∧ changeSession f id s change = (s, .through none none)) ∨
    (∃ change' : Mutate Session, change'.Reads s.sessions[id]? ∧
      changeSession f id s change = (s, .going change')) ∨ changeSession f id s change = (s, .failed) ∨
    ∃ v, s.sessions[id]? = some v ∧ change.writes (some v) = true ∧ changeSession f id s change =
      (s.putSession id v (f v.value), .through (some v.value) (some (f v.value))) := by
  obtain ⟨hv, heq⟩ | ⟨change', hreads, heq⟩ | heq | ⟨v, hv, hwrites, heq⟩ := Mutate.next_cases (f := f) h
  · exact .inl ⟨hv, by rw [changeSession, heq]; rfl⟩
  · refine .inr (.inl ⟨change', hreads, ?_⟩)
    rw [changeSession, heq]
    exact congrArg (·, _) (s.setSession_self id)
  · refine .inr (.inr (.inl ?_))
    rw [changeSession, heq]
    exact congrArg (·, _) (s.setSession_self id)
  · exact .inr (.inr (.inr ⟨v, hv, hv ▸ hwrites, by rw [changeSession, heq]; rfl⟩))

variable {now : ℕ}

lemma Create.next_step {c c' : Create} (h : c.next now s = some (s', c')) :
    Step s (.create c) (.create c') s' := by
  cases c with
  | asked expiresAt =>
    cases h
    exact .quiet
  | issuing expiresAt epoch =>
    obtain ⟨rfl, rfl⟩ := Prod.mk.inj (Option.some.inj h)
    unfold issue
    by_cases hexpired : expiresAt ≤ now
    · rw [if_pos hexpired]
      exact .quiet
    · rw [if_neg hexpired]
      exact .issued _ epoch rfl rfl rfl
  | created | failed => cases h

lemma Resolve.next_step {r r' : Resolve} (h : r.next now s = some (s', r')) :
    Step s (.resolve r) (.resolve r') s' := by
  cases r with
  | asked id =>
    cases h
    exact .quiet
  | expiring id session =>
    cases h
    cases hv : s.sessions[id]? with
    | none => exact .quiet
    | some v => exact .ended id v _ hv (.inl nofun)
  | comparing id session =>
    cases h
    exact .quiet
  | resolved | unresolved => cases h

lemma consumed_status (now : ℕ) (x : Session) : (consumed now x).status ≠ .active ∨ consumed now x = x := by
  unfold consumed
  by_cases hlive : x.live now = true
  · rw [if_pos hlive]
    exact .inl nofun
  · rw [if_neg hlive]
    exact .inr rfl

lemma Rotate.next_step {r r' : Rotate} (hsound : (Phase.rotate r).Sound s)
    (h : r.next now s = some (s', r')) : Step s (.rotate r) (.rotate r') s' ∧ (Phase.rotate r').Sound s' := by
  cases r with
  | asked id =>
    cases h
    refine ⟨.quiet, ?_⟩
    cases s.sessions[id]? with
    | none => trivial
    | some v =>
      dsimp only
      split_ifs <;> trivial
  | checking id session at_ =>
    cases h
    refine ⟨.quiet, ?_⟩
    split_ifs
    · trivial
    · exact Mutate.reads_start _
  | consuming id session at_ change =>
    cases h
    obtain ⟨hv, heq⟩ | ⟨change', hreads, heq⟩ | heq | ⟨v, hv, -, heq⟩ := changeSession_cases hsound
    · rw [heq]
      exact ⟨.quiet, trivial⟩
    · rw [heq]
      exact ⟨.quiet, hreads⟩
    · rw [heq]
      exact ⟨.quiet, trivial⟩
    · rw [heq]
      refine ⟨.ended id v _ hv (consumed_status at_ v.value), ?_⟩
      dsimp only
      split_ifs <;> trivial
  | issuing id session at_ =>
    obtain ⟨rfl, rfl⟩ := Prod.mk.inj (Option.some.inj h)
    unfold issue
    split_ifs
    · exact ⟨.quiet, trivial⟩
    · exact ⟨.issued _ session.epochOf rfl rfl rfl, trivial⟩
  | verifying id next epoch =>
    cases h
    refine ⟨.quiet, ?_⟩
    split_ifs
    · exact Mutate.reads_start _
    · trivial
  | undoing id change =>
    cases h
    obtain ⟨hv, heq⟩ | ⟨change', hreads, heq⟩ | heq | ⟨v, hv, -, heq⟩ := changeSession_cases hsound
    · rw [heq]
      exact ⟨.quiet, trivial⟩
    · rw [heq]
      exact ⟨.quiet, hreads⟩
    · rw [heq]
      exact ⟨.quiet, trivial⟩
    · rw [heq]
      exact ⟨.ended id v _ hv (.inl nofun), trivial⟩
  | rotated | refused | failed => cases h

lemma RevokeAll.next_step {r r' : RevokeAll} (hsound : (Phase.revokeAll r).Sound s)
    (h : r.next s = some (s', r')) :
    Step s (.revokeAll r) (.revokeAll r') s' ∧ (Phase.revokeAll r').Sound s' := by
  cases r with
  | bumping kept change =>
    cases h
    obtain ⟨hv, heq⟩ | ⟨change', hreads, heq⟩ | heq | ⟨v, hv, -, heq⟩ :=
      Mutate.next_cases (f := Sessions.bumped) hsound
    · rw [heq, ← hv]
      refine ⟨.quiet, ?_⟩
      cases kept <;> trivial
    · rw [heq]
      exact ⟨.quiet, hreads⟩
    · rw [heq]
      exact ⟨.quiet, trivial⟩
    · have hepoch : s.currentEpoch = v.value.sessionEpoch.getD 0 := by
        rw [Stored.currentEpoch, hv]
        rfl
      rw [heq]
      cases kept with
      | none => exact ⟨.bumped v hv (by rw [hepoch]; rfl), trivial⟩
      | some id => exact ⟨.bumped v hv (by rw [hepoch]; rfl), Mutate.reads_start _⟩
  | keeping id epoch change =>
    cases h
    obtain ⟨hv, heq⟩ | ⟨change', hreads, heq⟩ | heq | ⟨v, hv, hwrites, heq⟩ :=
      changeSession_cases (f := moved epoch) hsound
    · rw [heq]
      exact ⟨.quiet, trivial⟩
    · rw [heq]
      exact ⟨.quiet, hreads⟩
    · rw [heq]
      exact ⟨.quiet, trivial⟩
    · rw [heq]
      refine ⟨?_, trivial⟩
      by_cases hactive : v.value.status = .active
      · rw [moved, if_pos hactive]
        exact .kept id epoch change v rfl hv hactive hwrites
      · rw [moved, if_neg hactive]
        exact .ended id v _ hv (.inr rfl)
  | listing kept epoch =>
    cases h
    refine ⟨.quiet, ?_⟩
    cases s.others kept with
    | nil => rfl
    | cons id remaining => exact Mutate.reads_start _
  | ending kept epoch remaining change =>
    cases remaining with
    | nil =>
      cases h
      exact ⟨.quiet, trivial⟩
    | cons id remaining =>
      cases h
      have hstart : ∀ s' : Stored, (Phase.revokeAll (.ending kept epoch remaining .start)).Sound s' := by
        intro s'
        cases remaining with
        | nil => rfl
        | cons id remaining => exact Mutate.reads_start _
      obtain ⟨hv, heq⟩ | ⟨change', hreads, heq⟩ | heq | ⟨v, hv, -, heq⟩ :=
        changeSession_cases (f := revoked) hsound
      · rw [heq]
        exact ⟨.quiet, hstart s⟩
      · rw [heq]
        exact ⟨.quiet, hreads⟩
      · rw [heq]
        exact ⟨.quiet, trivial⟩
      · rw [heq]
        exact ⟨.ended id v _ hv (.inl nofun), hstart _⟩
  | ended | failed => cases h

lemma Describe.next_step {d d' : Describe} (h : d.next s = some (s', d')) :
    Step s (.describe d) (.describe d') s' := by
  cases d with
  | asked metadata =>
    cases h
    exact .quiet
  | writing account =>
    cases h
    cases hv : s.account with
    | none =>
      have heq : ({ s with account := none } : Stored) = s := by rw [← hv]
      rw [Option.map_none, heq]
      exact .quiet
    | some v => exact .described v account rfl hv
  | described | failed => cases h

lemma advance_step (hsound : p.Sound s) (h : advance now s p = some (s', p')) :
    Step s p p' s' ∧ p'.Sound s' := by
  cases p with
  | create c =>
    obtain ⟨⟨t, c'⟩, hnext, heq⟩ := Option.map_eq_some_iff.1 h
    cases heq
    exact ⟨Create.next_step hnext, by cases c' <;> trivial⟩
  | resolve r =>
    obtain ⟨⟨t, r'⟩, hnext, heq⟩ := Option.map_eq_some_iff.1 h
    cases heq
    exact ⟨Resolve.next_step hnext, by cases r' <;> trivial⟩
  | rotate r =>
    obtain ⟨⟨t, r'⟩, hnext, heq⟩ := Option.map_eq_some_iff.1 h
    cases heq
    exact Rotate.next_step hsound hnext
  | revoke id change =>
    cases h
    obtain ⟨hv, heq⟩ | ⟨change', hreads, heq⟩ | heq | ⟨v, hv, -, heq⟩ :=
      changeSession_cases (f := revoked) hsound
    · rw [heq]
      exact ⟨.quiet, trivial⟩
    · rw [heq]
      exact ⟨.quiet, hreads⟩
    · rw [heq]
      exact ⟨.quiet, trivial⟩
    · rw [heq]
      exact ⟨.ended id v _ hv (.inl nofun), trivial⟩
  | revokeAll r =>
    obtain ⟨⟨t, r'⟩, hnext, heq⟩ := Option.map_eq_some_iff.1 h
    cases heq
    exact RevokeAll.next_step hsound hnext
  | describe d =>
    obtain ⟨⟨t, d'⟩, hnext, heq⟩ := Option.map_eq_some_iff.1 h
    cases heq
    exact ⟨Describe.next_step hnext, by cases d' <;> trivial⟩
  | finished => cases h

/-! ## What no step undoes -/

/-- What is stored later: no session is gone, none that was ended is active, and what was written has
another version. -/
structure Stored.Later (s s' : Stored) : Prop where
  sessions : ∀ (id : ℕ) (v : Versioned Session), s.sessions[id]? = some v →
    ∃ w, s'.sessions[id]? = some w ∧ Follows v w ∧ (w.value.status = .active → v.value.status = .active)
  account : ∀ v, s.account = some v → ∃ w, s'.account = some w ∧ Follows v w

lemma Stored.Later.refl (s : Stored) : s.Later s :=
  ⟨fun _ v hv => ⟨v, hv, Follows.refl v, id⟩, fun v hv => ⟨v, hv, Follows.refl v⟩⟩

lemma Stored.Later.trans {s₁ s₂ s₃ : Stored} (h : s₁.Later s₂) (h' : s₂.Later s₃) : s₁.Later s₃ := by
  refine ⟨fun id v hv => ?_, fun v hv => ?_⟩
  · obtain ⟨w, hw, hvw, hback⟩ := h.sessions id v hv
    obtain ⟨x, hx, hwx, hback'⟩ := h'.sessions id w hw
    exact ⟨x, hx, hvw.trans hwx, fun hactive => hback (hback' hactive)⟩
  · obtain ⟨w, hw, hvw⟩ := h.account v hv
    obtain ⟨x, hx, hwx⟩ := h'.account w hw
    exact ⟨x, hx, hvw.trans hwx⟩

lemma Stored.later_putSession {v : Versioned Session} {x : Session} (hv : s.sessions[id]? = some v)
    (hx : x.status = .active → v.value.status = .active) : s.Later (s.putSession id v x) := by
  refine ⟨fun id' w hw => ?_, fun w hw => ⟨w, hw, Follows.refl w⟩⟩
  have hlt : id < s.sessions.length := (List.getElem?_eq_some_iff.1 hv).1
  by_cases hid : id = id'
  · subst hid
    cases hv.symm.trans hw
    exact ⟨_, List.getElem?_set_self hlt, Follows.put v x, hx⟩
  · exact ⟨w, (List.getElem?_set_ne hid).trans hw, Follows.refl w, fun h => h⟩

lemma Step.later (h : Step s p p' s') : s.Later s' := by
  cases h with
  | quiet => exact Stored.Later.refl s
  | issued x epoch hstamp hepoch hissued =>
    refine ⟨fun id v hv => ⟨v, ?_, Follows.refl v, fun h => h⟩, fun v hv => ⟨v, hv, Follows.refl v⟩⟩
    exact (List.getElem?_append_left (List.getElem?_eq_some_iff.1 hv).1).trans hv
  | ended id v x hv hx =>
    refine Stored.later_putSession hv fun hactive => ?_
    obtain hx | rfl := hx
    · exact absurd hactive hx
    · exact hactive
  | kept id epoch change v hp hv hactive hwrites => exact Stored.later_putSession hv fun _ => hactive
  | bumped v hv | described v _ _ hv =>
    refine ⟨fun id w hw => ⟨w, hw, Follows.refl w, fun h => h⟩, fun w hw => ?_⟩
    cases hv.symm.trans hw
    exact ⟨_, rfl, Follows.put v _⟩

lemma Phase.Sound.later (hsound : p.Sound s) (h : s.Later s') : p.Sound s' := by
  have hsession : ∀ (id : ℕ) (change : Mutate Session), change.Reads s.sessions[id]? →
      change.Reads s'.sessions[id]? := fun id change hreads => hreads.later fun v hv => by
    obtain ⟨w, hw, hvw, -⟩ := h.sessions id v hv
    exact ⟨w, hw, hvw⟩
  cases p with
  | create | resolve => trivial
  | rotate r =>
    cases r with
    | consuming id _ _ change | undoing id change => exact hsession id change hsound
    | _ => trivial
  | revoke id change => exact hsession id change hsound
  | revokeAll r =>
    cases r with
    | bumping kept change => exact hsound.later h.account
    | keeping id epoch change => exact hsession id change hsound
    | ending kept epoch remaining change =>
      cases remaining with
      | nil => exact hsound
      | cons id remaining => exact hsession id change hsound
    | _ => trivial
  | describe | finished => trivial

end Zelavis.Identity.Sessions
