import Zelavis.Identity.Revocation
import Zelavis.Lib.Unicode

/-!
# Password recovery

`password.ts` over one account and its credential: any number of recoveries are begun and completed, and
attempts to authenticate go on beside them, over the sessions of `session-service.ts`.
-/

namespace Zelavis.Identity.Recovery

open Lib Turns Sessions Option

/-! ## What is stored -/

/-- What is done with passwords and tokens. Source: `core/password.ts` `hashPassword`, `verifyPassword`;
`password.ts` `recoveryTokenHash`. -/
structure Secrets (H D : Type) where
  hash : Utf16 → ℕ → H
  verify : Utf16 → H → Bool
  digest : Utf16 → D

variable {H D : Type}

/-- A recovery that has been begun. Source: `password.ts` `beginRecovery`. -/
structure Begun (D : Type) where
  tokenHash : D
  expiresAt : ℕ
  deriving DecidableEq

/-- The credential. Source: `entities.ts` `Credential`, its `secretHash` and the recovery in its
`metadata`. -/
structure Credential (H D : Type) where
  secretHash : Option H
  recovery : Option (Begun D)
  deriving DecidableEq

/-- The credential, the digests of the tokens that have been drawn, and the account with its sessions. -/
structure Shared (H D : Type) where
  credential : Option (Credential H D)
  drawn : List D
  stored : Stored
  deriving DecidableEq

/-! ## The steps of a call -/

/-- Where a call is. A call that is to issue a session carries its expiry. -/
inductive Phase (H D : Type) where
  | beginning
  | delivering (read : Credential H D) (recovery : Begun D)
  | accepted
  | completing (token password : Utf16)
  | replacing (token : Utf16) (read : Credential H D) (hash : H)
  | revoking (token : Utf16) (replaced : Option H) (p : RevokeAll)
  | unrecovered
  | authenticating (password : Utf16) (expiresAt : ℕ)
  | verified (password : Utf16) (hash : H) (expiresAt : ℕ)
  | signing (password : Utf16) (hash : H) (p : Create)
  | unauthenticated (expiresAt : ℕ)
  | resolving (p : Resolve)
  deriving DecidableEq

/-- What a step finds outside: a reading of the clock, a salt and a token. -/
structure Event where
  now : ℕ
  salt : ℕ
  token : Utf16

/-- How long a password may be. Source: `password.ts` `authenticate`. -/
def maxPasswordLength : ℕ := 1024

variable [DecidableEq D] (secrets : Secrets H D) (ttlMs : ℕ)

/-- The next step of a call; a token is drawn that never was. Source: `password.ts` `authenticate`,
`beginRecovery`, `completeRecovery`; `database.ts` `set`. -/
def advance (e : Event) (s : Shared H D) : Phase H D → Option (Shared H D × Phase H D)
  | .beginning => match s.credential with
    | none => some (s, .accepted)
    | some read =>
      if secrets.digest e.token ∈ s.drawn then none
      else some ({ s with drawn := secrets.digest e.token :: s.drawn },
        .delivering read ⟨secrets.digest e.token, e.now + ttlMs⟩)
  | .delivering read recovery =>
    some ({ s with credential := s.credential.map fun _ => { read with recovery := some recovery } },
      .accepted)
  | .completing token password => some (s, match s.credential with
    | none => .unrecovered
    | some read =>
      if read.recovery.any fun r => e.now < r.expiresAt && secrets.digest token = r.tokenHash then
        .replacing token read (secrets.hash password e.salt)
      else .unrecovered)
  | .replacing token read hash =>
    some ({ s with credential := s.credential.map fun _ => ⟨some hash, none⟩ },
      .revoking token read.secretHash (.bumping none .start))
  | .revoking token replaced p =>
    (p.next s.stored).map fun next => ({ s with stored := next.1 }, .revoking token replaced next.2)
  | .authenticating password expiresAt =>
    some (s, if maxPasswordLength < password.length then .unauthenticated expiresAt
      else match s.credential.bind Credential.secretHash with
        | none => .unauthenticated expiresAt
        | some hash =>
          if secrets.verify password hash then .verified password hash expiresAt
          else .unauthenticated expiresAt)
  | .verified password hash expiresAt =>
    some (s, if s.stored.account.isSome then .signing password hash (.asked expiresAt)
      else .unauthenticated expiresAt)
  | .signing password hash p =>
    (p.next e.now s.stored).map fun next => ({ s with stored := next.1 }, .signing password hash next.2)
  | .resolving p => (p.next e.now s.stored).map fun next => ({ s with stored := next.1 }, .resolving next.2)
  | .accepted => none
  | .unrecovered => none
  | .unauthenticated _ => none

def Phase.isStart : Phase H D → Bool
  | .beginning => true
  | .completing _ _ => true
  | .authenticating _ _ => true
  | .resolving (.asked _) => true
  | _ => false

def recoveries : Rules (Shared H D) (Phase H D) Event Empty where
  begins := Phase.isStart
  moves := advance secrets ttlMs
  passes event _ := event.elim

/-! ## What is asked of a run -/

/-- The password that a recovery has replaced, once it has bumped the account's epoch. -/
def Phase.replaced : Phase H D → Option H
  | .revoking _ replaced p => if (Sessions.Phase.revokeAll p).bumpedTo.isSome then replaced else none
  | _ => none

variable [DecidableEq H]

/-- Whether a call may make its next step. Source: `password.ts` `beginRecovery` and `completeRecovery`,
which write the credential whole from an earlier reading; `authenticate`, which begins a session without
another look at the credential. -/
def Phase.clear (s : Shared H D) (parties : List (Phase H D)) : Phase H D → Bool
  | .delivering read _ => s.credential.all fun stored => stored.secretHash = read.secretHash
  | .replacing _ read _ => s.credential = some read
  | .signing _ hash (.asked _) => parties.all fun p => p.replaced ≠ some hash
  | _ => true

/-- No credential is written over another password, or another recovery where it is completed, than was
read; and no session is begun for a password that a recovery has replaced and bumped the epoch for. -/
def clear (w : World (Shared H D) (Phase H D)) : Turn (Phase H D) Event Empty → Bool
  | .move k _ => w.parties[k]?.all fun p => p.clear w.shared w.parties
  | _ => true

/-! ## A run, as far as its sessions are concerned -/

def Phase.seen : Phase H D → Sessions.Phase
  | .completing _ _ => .revokeAll (.bumping none .start)
  | .replacing _ _ _ => .revokeAll (.bumping none .start)
  | .unrecovered => .revokeAll (.bumping none .start)
  | .revoking _ _ p => .revokeAll p
  | .authenticating _ expiresAt => .create (.asked expiresAt)
  | .verified _ _ expiresAt => .create (.asked expiresAt)
  | .unauthenticated expiresAt => .create (.asked expiresAt)
  | .signing _ _ p => .create p
  | .resolving p => .resolve p
  | .beginning => .finished
  | .delivering _ _ => .finished
  | .accepted => .finished

def Phase.inSessions : Phase H D → Bool
  | .revoking _ _ _ => true
  | .signing _ _ _ => true
  | .resolving _ => true
  | _ => false

variable {secrets ttlMs} {s s' : Shared H D} {p p' : Phase H D} {e : Event}

/-! ## Where a call goes -/

/-- The moves of a call. -/
inductive Moves (secrets : Secrets H D) (e : Event) (s : Shared H D) :
    Phase H D → Shared H D → Phase H D → Prop where
  | ignored : Moves secrets e s .beginning s .accepted
  | drew (read : Credential H D) (expiresAt : ℕ) (hread : s.credential = some read)
      (hfresh : secrets.digest e.token ∉ s.drawn) :
      Moves secrets e s .beginning { s with drawn := secrets.digest e.token :: s.drawn }
        (.delivering read ⟨secrets.digest e.token, expiresAt⟩)
  | delivered (read : Credential H D) (recovery : Begun D) : Moves secrets e s (.delivering read recovery)
      { s with credential := s.credential.map fun _ => { read with recovery := some recovery } } .accepted
  | matched (token password : Utf16) (read : Credential H D) (recovery : Begun D)
      (hread : s.credential = some read) (hrecovery : read.recovery = some recovery)
      (hdigest : secrets.digest token = recovery.tokenHash) :
      Moves secrets e s (.completing token password) s (.replacing token read (secrets.hash password e.salt))
  | unmatched (token password : Utf16) : Moves secrets e s (.completing token password) s .unrecovered
  | replaced (token : Utf16) (read : Credential H D) (hash : H) : Moves secrets e s (.replacing token read hash)
      { s with credential := s.credential.map fun _ => ⟨some hash, none⟩ }
      (.revoking token read.secretHash (.bumping none .start))
  | revoked (token : Utf16) (replaced : Option H) (r r' : RevokeAll) (t : Stored)
      (hnext : r.next s.stored = some (t, r')) :
      Moves secrets e s (.revoking token replaced r) { s with stored := t } (.revoking token replaced r')
  | verified (password : Utf16) (expiresAt : ℕ) (hash : H)
      (hread : s.credential.bind Credential.secretHash = some hash)
      (hverify : secrets.verify password hash = true) :
      Moves secrets e s (.authenticating password expiresAt) s (.verified password hash expiresAt)
  | unverified (password : Utf16) (expiresAt : ℕ) :
      Moves secrets e s (.authenticating password expiresAt) s (.unauthenticated expiresAt)
  | found (password : Utf16) (hash : H) (expiresAt : ℕ) (haccount : s.stored.account.isSome = true) :
      Moves secrets e s (.verified password hash expiresAt) s (.signing password hash (.asked expiresAt))
  | missing (password : Utf16) (hash : H) (expiresAt : ℕ) :
      Moves secrets e s (.verified password hash expiresAt) s (.unauthenticated expiresAt)
  | signed (password : Utf16) (hash : H) (c c' : Create) (t : Stored)
      (hnext : c.next e.now s.stored = some (t, c')) :
      Moves secrets e s (.signing password hash c) { s with stored := t } (.signing password hash c')
  | resolved (r r' : Resolve) (t : Stored) (hnext : r.next e.now s.stored = some (t, r')) :
      Moves secrets e s (.resolving r) { s with stored := t } (.resolving r')

omit [DecidableEq H] in
lemma advance_moves (h : advance secrets ttlMs e s p = some (s', p')) : Moves secrets e s p s' p' := by
  cases p with
  | beginning =>
    simp only [advance] at h
    split at h
    · cases h
      exact .ignored
    · rename_i read hread
      split_ifs at h with hdrawn
      cases h
      exact .drew read _ hread hdrawn
  | delivering read recovery =>
    cases h
    exact .delivered read recovery
  | completing token password =>
    cases h
    split
    · exact .unmatched token password
    · rename_i read hread
      split_ifs with hrecovery
      · obtain ⟨recovery, hsome⟩ := isSome_iff_exists.1 (isSome_of_any hrecovery)
        rw [hsome, any_some, Bool.and_eq_true] at hrecovery
        exact .matched token password read recovery hread hsome (of_decide_eq_true hrecovery.2)
      · exact .unmatched token password
  | replacing token read hash =>
    cases h
    exact .replaced token read hash
  | revoking token replaced r =>
    obtain ⟨⟨t, r'⟩, hnext, heq⟩ := map_eq_some_iff.1 h
    cases heq
    exact .revoked token replaced r r' t hnext
  | authenticating password expiresAt =>
    cases h
    split_ifs
    · exact .unverified password expiresAt
    · split
      · exact .unverified password expiresAt
      · rename_i hash hread
        split_ifs with hverify
        · exact .verified password expiresAt hash hread hverify
        · exact .unverified password expiresAt
  | verified password hash expiresAt =>
    cases h
    split_ifs with haccount
    · exact .found password hash expiresAt haccount
    · exact .missing password hash expiresAt
  | signing password hash c =>
    obtain ⟨⟨t, c'⟩, hnext, heq⟩ := map_eq_some_iff.1 h
    cases heq
    exact .signed password hash c c' t hnext
  | resolving r =>
    obtain ⟨⟨t, r'⟩, hnext, heq⟩ := map_eq_some_iff.1 h
    cases heq
    exact .resolved r r' t hnext
  | accepted | unrecovered | unauthenticated => cases h

omit [DecidableEq H] in
lemma seen_next (h : advance secrets ttlMs e s p = some (s', p')) :
    if p.inSessions = true then Sessions.advance e.now s.stored p.seen = some (s'.stored, p'.seen)
    else s'.stored = s.stored ∧ p'.seen = p.seen := by
  cases advance_moves h with
  | revoked _ _ _ _ _ hnext | signed _ _ _ _ _ hnext | resolved _ _ _ hnext =>
    exact map_eq_some_iff.2 ⟨_, hnext, rfl⟩
  | _ => exact ⟨rfl, rfl⟩

variable (secrets ttlMs)

omit [DecidableEq H] in
def seen : (recoveries secrets ttlMs).View calls where
  shared s := s.stored
  party := Phase.seen
  event e p := if p.inSessions then some e.now else none
  begins {p} hb := by
    cases p with
    | resolving r =>
      cases r with
      | asked id => rfl
      | _ => cases hb
    | beginning | completing | authenticating => rfl
    | _ => cases hb
  moves {e s p s' p' e'} hmove he := by
    by_cases hin : p.inSessions = true
    · rw [if_pos hin] at he
      cases he
      exact (if_pos hin).mp (seen_next hmove)
    · rw [if_neg hin] at he
      cases he
  unseen {e s p s' p'} hmove he := by
    by_cases hin : p.inSessions = true
    · rw [if_pos hin] at he
      cases he
    · exact (if_neg hin).mp (seen_next hmove)
  passes {event} := event.elim

variable {secrets ttlMs}

/-! ## What a run of recoveries does with sessions -/

def keepsNone : RevokeAll → Bool
  | .bumping kept _ => kept.isNone
  | .keeping _ _ _ => false
  | .listing kept _ => kept.isNone
  | .ending kept _ _ _ => kept.isNone
  | .ended kept _ => kept.isNone
  | .failed => true

variable {t t' : Stored}

lemma keepsNone_next {r r' : RevokeAll} (h : r.next t = some (t', r'))
    (hnone : keepsNone r = true) : keepsNone r' = true := by
  cases r with
  | bumping kept change =>
    cases h
    obtain rfl := isNone_iff_eq_none.1 hnone
    split <;> rfl
  | keeping id epoch change => cases hnone
  | listing kept epoch =>
    cases h
    exact hnone
  | ending kept epoch remaining change =>
    cases remaining with
    | nil =>
      cases h
      exact hnone
    | cons id remaining =>
      cases h
      split
      · exact hnone
      · exact hnone
      · rfl
  | ended | failed => cases h

def Phase.KeepsNone (p : Phase H D) : Prop := ∀ r, p.seen = .revokeAll r → keepsNone r = true

omit [DecidableEq D] [DecidableEq H] in
lemma Phase.keepsNone_of_isStart (hb : p.isStart = true) : p.KeepsNone := by
  intro r hr
  cases p with
  | completing token password =>
    cases hr
    rfl
  | beginning | authenticating | resolving => cases hr
  | _ => cases hb

omit [DecidableEq H] in
lemma Phase.KeepsNone.next (hnone : p.KeepsNone) (h : advance secrets ttlMs e s p = some (s', p')) :
    p'.KeepsNone := by
  intro r hr
  cases advance_moves h with
  | revoked token replaced q q' t hnext =>
    cases hr
    exact keepsNone_next hnext (hnone q rfl)
  | matched | unmatched | replaced => exact hnone r hr
  | _ => cases hr

section

variable (run : Run (recoveries secrets ttlMs)) {i j k : ℕ}

def seenRun : Run calls := (seen secrets ttlMs).run run

omit [DecidableEq H] in
lemma keepsNone_world (hstart : (run.world 0).parties = []) (hp : (run.world i).parties[k]? = some p) :
    p.KeepsNone := by
  induction i generalizing p with
  | zero =>
    rw [hstart] at hp
    cases hp
  | succ i ih =>
    obtain hp' | ⟨-, hb⟩ | ⟨event, q, -, hq, hmove⟩ := run.stays_or_moves hp
    · exact ih hp'
    · exact Phase.keepsNone_of_isStart hb
    · exact (ih hq).next hmove

omit [DecidableEq H] in
lemma seenRun_start (hstart : (run.world 0).parties = []) : ((seenRun run).world 0).parties = [] := by
  show (run.world 0).parties.map Phase.seen = []
  rw [hstart, List.map_nil]

omit [DecidableEq H] in
lemma seenRun_clear (hstart : (run.world 0).parties = []) (i : ℕ) :
    Sessions.clear ((seenRun run).world i) ((seenRun run).turn i) = true := by
  obtain ⟨hturn, -⟩ | ⟨party, hturn, -, -⟩ | ⟨k, event, p, s', p', hturn, hp, -, -⟩ | ⟨event, -⟩ :=
    Rules.play_cases (run.plays i)
  · show Sessions.clear _ ((seen secrets ttlMs).turn (run.world i) (run.turn i)) = true
    rw [hturn]
    rfl
  · show Sessions.clear _ ((seen secrets ttlMs).turn (run.world i) (run.turn i)) = true
    rw [hturn]
    rfl
  · show Sessions.clear _ ((seen secrets ttlMs).turn (run.world i) (run.turn i)) = true
    rw [hturn, Rules.View.turn, hp, bind_some]
    have hp' : ((seenRun run).world i).parties[k]? = some p.seen :=
      (seen secrets ttlMs).getElem?_world hp
    cases he : (seen secrets ttlMs).event event p with
    | none => rfl
    | some e' =>
      rw [elim_some, Sessions.clear, hp', all_some]
      have hnone := keepsNone_world run hstart hp
      cases p with
      | revoking token replaced r =>
        cases r with
        | keeping id epoch change => cases hnone _ rfl
        | _ => rfl
      | _ => rfl
  · exact event.elim

end

/-! ## Sessions of a password that was replaced -/

variable {password : Utf16}

omit [DecidableEq H] in
/-- Where a session is being created, it was, or it is begun now for an account that is there. -/
theorem signing_next {hash : H} {c' : Create}
    (h : advance secrets ttlMs e s p = some (s', .signing password hash c')) :
    (∃ c, p = .signing password hash c ∧ c.next e.now s.stored = some (s'.stored, c')) ∨
      ((∃ expiresAt, c' = .asked expiresAt) ∧ s.stored.account.isSome = true) := by
  cases advance_moves h with
  | found password hash expiresAt haccount => exact .inr ⟨⟨expiresAt, rfl⟩, haccount⟩
  | signed password hash c c' t hnext => exact .inl ⟨c, rfl, hnext⟩

variable {replaced : Option H} {token : Utf16}

omit [DecidableEq H] in
lemma revoking_next {r' : RevokeAll}
    (h : advance secrets ttlMs e s p = some (s', .revoking token replaced r')) :
    (∃ r, p = .revoking token replaced r ∧ r.next s.stored = some (s'.stored, r')) ∨
      ((∃ read hash, p = .replacing token read hash ∧ replaced = read.secretHash) ∧
        r' = .bumping none .start) := by
  cases advance_moves h with
  | replaced token read hash => exact .inr ⟨⟨read, hash, rfl, rfl⟩, rfl⟩
  | revoked token replaced r r' t hnext => exact .inl ⟨r, rfl, hnext⟩

omit [DecidableEq H] [DecidableEq D] in
lemma Phase.replaced_eq_some {h : H} (hp : p.replaced = some h) :
    ∃ token r, p = .revoking token (some h) r ∧ (Sessions.Phase.revokeAll r).bumpedTo.isSome = true := by
  cases p with
  | revoking token replaced r =>
    rw [Phase.replaced] at hp
    split_ifs at hp with hbumped
    rw [hp]
    exact ⟨token, r, rfl, hbumped⟩
  | _ => cases hp

variable {c : Create}

section

variable (run : Run (recoveries secrets ttlMs)) {i j k r epoch : ℕ} {h : H}

omit [DecidableEq H] in
lemma sound_seen (hstart : (run.world 0).parties = []) (hp : (run.world i).parties[k]? = some p) :
    p.seen.Sound (run.world i).shared.stored :=
  sound_world (seenRun run) (seenRun_start run hstart) ((seen secrets ttlMs).getElem?_world hp)

omit [DecidableEq H] in
/-- A recovery that has bumped the epoch did so at some moment, and has replaced the password since. -/
theorem bumped_world (hstart : (run.world 0).parties = []) (hp : (run.world i).parties[r]? = some p)
    (hreplaced : p.replaced = some h) (hbumped : p.seen.bumpedTo = some epoch) :
    ∃ b < i, BumpsAt (seenRun run) b r epoch ∧
      ∀ m, b < m → m ≤ i → ∃ q, (run.world m).parties[r]? = some q ∧ q.replaced = some h := by
  induction i generalizing p with
  | zero =>
    rw [hstart] at hp
    cases hp
  | succ i ih =>
    have hlast : ∀ b, (∀ m, b < m → m ≤ i → ∃ q, (run.world m).parties[r]? = some q ∧ q.replaced = some h) →
        ∀ m, b < m → m ≤ i + 1 → ∃ q, (run.world m).parties[r]? = some q ∧ q.replaced = some h := by
      intro b hall m hbm hm
      obtain hm | rfl := Nat.le_succ_iff.1 hm
      · exact hall m hbm hm
      · exact ⟨p, hp, hreplaced⟩
    obtain ⟨token, q, rfl, -⟩ := Phase.replaced_eq_some hreplaced
    obtain hp' | ⟨-, hb⟩ | ⟨event, p₀, -, hp₀, hmove⟩ := run.stays_or_moves hp
    · obtain ⟨b, hb, hbumps, hall⟩ := ih hp' hreplaced hbumped
      exact ⟨b, Nat.lt_succ_of_lt hb, hbumps, hlast b hall⟩
    · cases hb
    · have hthere : ((seenRun run).world (i + 1)).parties[r]? = some (.revokeAll q) :=
        (seen secrets ttlMs).getElem?_world hp
      have hsound := sound_seen run hstart hp₀
      obtain ⟨q₀, rfl, hnext⟩ | ⟨-, rfl⟩ := revoking_next hmove
      · have hstep : Sessions.advance event.now (run.world i).shared.stored (.revokeAll q₀) =
            some ((run.world (i + 1)).shared.stored, .revokeAll q) :=
          map_eq_some_iff.2 ⟨_, hnext, rfl⟩
        obtain hbumped' | ⟨hunbumped, -⟩ := bumpedTo_next hsound hstep hbumped
        · have hreplaced' : Phase.replaced (H := H) (D := D) (.revoking token (some h) q₀) = some h := by
            show (if (Sessions.Phase.revokeAll q₀).bumpedTo.isSome then some h else none) = some h
            exact if_pos (isSome_iff_exists.2 ⟨epoch, hbumped'⟩)
          obtain ⟨b, hb, hbumps, hall⟩ := ih hp₀ hreplaced' hbumped'
          exact ⟨b, Nat.lt_succ_of_lt hb, hbumps, hlast b hall⟩
        · refine ⟨i, Nat.lt_succ_self i, ⟨⟨_, (seen secrets ttlMs).getElem?_world hp₀, hunbumped⟩,
            _, hthere, hbumped⟩, hlast i fun m him hmi => ?_⟩
          exact absurd him (not_lt.2 hmi)
      · cases hbumped

omit [DecidableEq H] in
/-- A session that is created for a password was begun at some moment, when the epoch was read. -/
theorem signed_world (hstart : (run.world 0).parties = [])
    (hp : (run.world i).parties[k]? = some (.signing password h c))
    (hread : (Sessions.Phase.create c).hasRead = true) : ∃ a < i, (∃ event, run.turn a = .move k event) ∧
      (∃ expiresAt, (run.world a).parties[k]? = some (.signing password h (.asked expiresAt))) ∧
      ∀ m, a < m → m ≤ i → ∃ c', (run.world m).parties[k]? = some (.signing password h c') ∧
        (Sessions.Phase.create c').hasRead = true := by
  induction i generalizing c with
  | zero =>
    rw [hstart] at hp
    cases hp
  | succ i ih =>
    have hlast : ∀ a, (∀ m, a < m → m ≤ i → ∃ c', (run.world m).parties[k]? = some (.signing password h c') ∧
        (Sessions.Phase.create c').hasRead = true) → ∀ m, a < m → m ≤ i + 1 → ∃ c',
        (run.world m).parties[k]? = some (.signing password h c') ∧
          (Sessions.Phase.create c').hasRead = true := by
      intro a hall m ham hm
      obtain hm | rfl := Nat.le_succ_iff.1 hm
      · exact hall m ham hm
      · exact ⟨c, hp, hread⟩
    obtain hp' | ⟨-, hb⟩ | ⟨event, p₀, hturn, hp₀, hmove⟩ := run.stays_or_moves hp
    · obtain ⟨a, ha, hturn, hasked, hall⟩ := ih hp' hread
      exact ⟨a, Nat.lt_succ_of_lt ha, hturn, hasked, hlast a hall⟩
    · cases hb
    · obtain ⟨c₀, rfl, hnext⟩ | ⟨⟨expiresAt, rfl⟩, -⟩ := signing_next hmove
      · cases c₀ with
        | asked expiresAt =>
          exact ⟨i, Nat.lt_succ_self i, ⟨event, hturn⟩, ⟨expiresAt, hp₀⟩, hlast i fun m him hmi =>
            absurd him (not_lt.2 hmi)⟩
        | issuing expiresAt epoch =>
          obtain ⟨a, ha, hturn, hasked, hall⟩ := ih hp₀ rfl
          exact ⟨a, Nat.lt_succ_of_lt ha, hturn, hasked, hlast a hall⟩
        | created | failed => cases hnext
      · cases hread

omit [DecidableEq H] in
lemma account_of_signing (hstart : (run.world 0).parties = [])
    (hp : (run.world i).parties[k]? = some (.signing password h c)) :
    (run.world i).shared.stored.account.isSome = true := by
  induction i generalizing c with
  | zero =>
    rw [hstart] at hp
    cases hp
  | succ i ih =>
    refine (account_isSome (seenRun run) (seenRun_start run hstart) (Nat.le_succ i)).trans ?_
    obtain hp' | ⟨-, hb⟩ | ⟨event, p₀, -, hp₀, hmove⟩ := run.stays_or_moves hp
    · exact ih hp'
    · cases hb
    · obtain ⟨c₀, rfl, -⟩ | ⟨-, haccount⟩ := signing_next hmove
      · exact ih hp₀
      · exact haccount

end

def unbumped : RevokeAll → Bool
  | .listing _ epoch => epoch.isNone
  | .ending _ epoch _ _ => epoch.isNone
  | .ended _ epoch => epoch.isNone
  | _ => false

lemma unbumped_next {r r' : RevokeAll} (hsound : (Sessions.Phase.revokeAll r).Sound t)
    (h : r.next t = some (t', r')) (hnone : unbumped r' = true) : unbumped r = true ∨ t.account = none := by
  cases r with
  | bumping kept change =>
    cases h
    obtain ⟨hv, -⟩ | ⟨change', -, heq⟩ | heq | ⟨v, hv, -, heq⟩ :=
      Mutate.next_cases (f := Sessions.bumped) hsound
    · exact .inr hv
    · rw [heq] at hnone
      cases hnone
    · rw [heq] at hnone
      cases hnone
    · rw [heq] at hnone
      cases kept <;> cases hnone
  | keeping id epoch change =>
    cases h
    split at hnone <;> cases hnone
  | listing kept epoch =>
    cases h
    exact .inl hnone
  | ending kept epoch remaining change =>
    cases remaining with
    | nil =>
      cases h
      exact .inl hnone
    | cons id remaining =>
      cases h
      refine .inl ?_
      split at hnone
      · exact hnone
      · exact hnone
      · cases hnone
  | ended | failed => cases h

section

variable (run : Run (recoveries secrets ttlMs)) {i j k r epoch : ℕ} {h : H}

omit [DecidableEq H] in
lemma account_of_unbumped (hstart : (run.world 0).parties = [])
    {q : RevokeAll} (hp : (run.world i).parties[r]? = some (.revoking token replaced q))
    (hnone : unbumped q = true) : (run.world i).shared.stored.account.isSome = false := by
  induction i generalizing q with
  | zero =>
    rw [hstart] at hp
    cases hp
  | succ i ih =>
    refine (account_isSome (seenRun run) (seenRun_start run hstart) (Nat.le_succ i)).trans ?_
    obtain hp' | ⟨-, hb⟩ | ⟨event, p₀, -, hp₀, hmove⟩ := run.stays_or_moves hp
    · exact ih hp' hnone
    · cases hb
    · have hsound := sound_seen run hstart hp₀
      obtain ⟨q₀, rfl, hnext⟩ | ⟨-, rfl⟩ := revoking_next hmove
      · obtain hnone' | haccount := unbumped_next hsound hnext hnone
        · exact ih hp₀ hnone'
        · exact congrArg Option.isSome haccount
      · cases hnone

lemma unresolved_of_replaced (hstart : (run.world 0).parties = [])
    (hclear : ∀ i, clear (run.world i) (run.turn i) = true) {token password : Utf16} {e : Option ℕ}
    {id k' i' : ℕ} (hended : (run.world i).parties[r]? = some (.revoking token (some h) (.ended none e)))
    (hsigned : (run.world i').parties[k]? = some (.signing password h (.created id))) (hij : i ≤ j)
    (hasked : (run.world j).parties[k']? = some (.resolving (.asked id))) (j' : ℕ) :
    (run.world j').parties[k']? ≠ some (.resolving (.resolved id)) := by
  have hafter : ∀ n, i ≤ n → (run.world n).parties[r]? = some (.revoking token (some h) (.ended none e)) :=
    fun n hn => run.stuck (fun _ _ => rfl) hended hn
  have hcreated : ∀ n, i' ≤ n → (run.world n).parties[k]? = some (.signing password h (.created id)) :=
    fun n hn => run.stuck (fun _ _ => rfl) hsigned hn
  cases e with
  | none =>
    have hmissing := account_of_unbumped run hstart (hafter (max i i') (le_max_left _ _)) rfl
    have hthere := account_of_signing run hstart (hcreated (max i i') (le_max_right _ _))
    rw [hmissing] at hthere
    cases hthere
  | some epoch =>
    obtain ⟨b, hbi, hbumps, hreplaced⟩ := bumped_world run hstart hended rfl rfl
    obtain ⟨a, hai, ⟨event, hturn⟩, ⟨expiresAt, hasking⟩, hread⟩ := signed_world run hstart hsigned rfl
    -- the epoch was read before it was bumped, or the session was begun for a password that is replaced
    have hab : a < b := by
      obtain hlt | rfl | hlt := lt_trichotomy a b
      · exact hlt
      · obtain ⟨⟨p, hp, hunbumped⟩, p', hp', hbumped⟩ := hbumps
        obtain hstays | ⟨event', q, hturn', hq, -⟩ := Rules.play_stays ((seenRun run).plays a) hp
        · cases hstays.symm.trans hp'
          rw [hunbumped] at hbumped
          cases hbumped
        · have hkr : k = r := by
            have hseen : (seenRun run).turn a = (seen secrets ttlMs).turn (run.world a) (run.turn a) := rfl
            rw [hseen, hturn, Rules.View.turn, hasking] at hturn'
            cases hturn'
            rfl
          subst hkr
          obtain ⟨c', hc', -⟩ := hread (a + 1) (Nat.lt_succ_self a) hai
          obtain ⟨q', hq', hrep⟩ := hreplaced (a + 1) (Nat.lt_succ_self a) hbi
          cases hc'.symm.trans hq'
          cases hrep
      · have hat : ∃ q, (run.world a).parties[r]? = some q ∧ q.replaced = some h := by
          obtain hle | hle := le_total a i
          · exact hreplaced a hlt hle
          · exact ⟨_, hafter a hle, rfl⟩
        obtain ⟨q, hq, hrep⟩ := hat
        have hthis := hclear a
        rw [hturn, clear, hasking, all_some, Phase.clear, List.all_eq_true] at hthis
        exact absurd hrep (of_decide_eq_true (hthis q (List.mem_of_getElem? hq)))
    have hissued : IssuedFrom (seenRun run) b id := by
      have hat : ∃ c', (run.world b).parties[k]? = some (.signing password h c') ∧
          (Sessions.Phase.create c').hasRead = true := by
        obtain hle | hle := le_total b i'
        · exact hread b hab hle
        · exact ⟨_, hcreated b hle, rfl⟩
      obtain ⟨c', hc', hread'⟩ := hat
      exact ⟨k, _, (seen secrets ttlMs).getElem?_world hc', hread', i', _,
        (seen secrets ttlMs).getElem?_world hsigned, rfl⟩
    intro hresolved
    exact (revocations_final (seenRun run) (seenRun_start run hstart) (seenRun_clear run hstart)).revoked
      hbumps ((seen secrets ttlMs).getElem?_world hended) hissued (some_ne_none _).symm hij
      ((seen secrets ttlMs).getElem?_world hasked) j' ((seen secrets ttlMs).getElem?_world hresolved)

end

end Zelavis.Identity.Recovery
