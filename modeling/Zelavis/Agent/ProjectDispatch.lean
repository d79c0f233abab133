import Mathlib.Data.List.Nodup
import Zelavis.Platform.ProjectPlacementAuthority

/-!
# Orders the platform dispatches to an agent

`project-dispatch.ts`: the platform signs one order for one agent, and the agent carries it out once,
while it is good and while the project is placed as the order says. It remembers the orders it carried
out by a digest of their nonces, and forgets them once they are out.
-/

namespace Zelavis.Agent.ProjectDispatch

open Lib Checks Platform

/-! ## Orders -/

/-- Source: `ProjectDispatchClaims`, its `action`. -/
inductive Action where
  | prepare
  | start
  | stop
  deriving DecidableEq

/-- What an order says. Source: `ProjectDispatchClaims`. -/
structure Claims where
  keyId : Utf16
  agentId : Utf16
  action : Action
  projectId : Utf16
  nodeId : Utf16
  ownerSession : Utf16
  epoch : ℚ
  issuedAt : ℚ
  expiresAt : ℚ
  nonce : Utf16
  artifactDigest : Option Utf16
  deriving DecidableEq

/-- How a project is placed. Source: `ProjectDispatchPlacement`. -/
structure DispatchPlacement where
  projectId : Utf16
  nodeId : Utf16
  ownerSession : Utf16
  epoch : ℚ
  state : Standing
  leaseExpiresAt : ℚ
  deriving DecidableEq

/-- What an agent takes from outside: what a token spells, whether its key is trusted and its signature
good, and the digest a nonce is remembered by. -/
structure Destination (Digest : Type) where
  decode : Utf16 → Option Claims
  trusts : Utf16 → ℚ → Bool
  /-- Source: `createProjectDispatchNonceConsumer`, its `keyFor`. -/
  keyFor : Utf16 → Digest

/-- An artifact's digest is spelled as one: `sha256:` and 64 hexadecimal digits. -/
def isArtifactDigest (digest : Utf16) : Bool :=
  digest.take 7 == utf16 "sha256:" && (digest.drop 7).length == 64 &&
    (digest.drop 7).all fun unit => (utf16 "0123456789abcdef").contains unit

def Claims.isValid (c : Claims) : Bool :=
  validId c.keyId && validId c.agentId && validId c.projectId && validId c.nodeId &&
    validId c.ownerSession && validId c.nonce && c.artifactDigest.all isArtifactDigest &&
    isSafeInteger c.epoch && 1 ≤ c.epoch && isSafeInteger c.issuedAt && isSafeInteger c.expiresAt

def Claims.names (c : Claims) (p : DispatchPlacement) : Bool :=
  c.projectId == p.projectId && c.nodeId == p.nodeId && c.ownerSession == p.ownerSession &&
    c.epoch == p.epoch && p.state == .active

def Claims.isGood (c : Claims) (agentId : Utf16) (action : Action) (p : DispatchPlacement) (now : ℚ) :
    Bool :=
  isSafeInteger now && isSafeInteger p.leaseExpiresAt && c.agentId == agentId && c.action == action &&
    c.names p && now < p.leaseExpiresAt && c.issuedAt ≤ now + 5000 && now < c.expiresAt &&
    c.issuedAt < c.expiresAt && c.expiresAt - c.issuedAt ≤ 60000

variable {nonce : Utf16} {event : Event}

section

variable {Digest : Type} [DecidableEq Digest] (a : Destination Digest)

/-- What a token orders, where it is good, before its nonce is looked at. Source:
`verifyProjectDispatchAuthority`. -/
def verifyDispatch (token agentId : Utf16) (action : Action) (p : DispatchPlacement) (now : ℚ) :
    Option Claims :=
  (a.decode token).filter fun c => c.isValid && c.isGood agentId action p now && a.trusts token now

/-- The nonces an agent remembers, and until when. -/
abbrev Nonces (Digest : Type) := Digest → Option ℚ

/-- A nonce remembered, where it was not. Source: `createProjectDispatchNonceConsumer`, its `consume`. -/
def consumeNonce (nonces : Nonces Digest) (nonce : Utf16) (expiresAt now : ℚ) :
    Option (Nonces Digest) :=
  if validId nonce = false ∨ isSafeInteger expiresAt = false ∨ expiresAt ≤ now then none
  else if (nonces (a.keyFor nonce)).isSome then none
  else some (Function.update nonces (a.keyFor nonce) (some expiresAt))

/-- The nonces that are out forgotten. Source: `createProjectDispatchNonceConsumer`, its `sweepExpired`. -/
def sweepExpired (nonces : Nonces Digest) (now : ℚ) : Nonces Digest :=
  if isSafeInteger now then fun key => (nonces key).filter fun expiry => now < expiry else nonces

/-! ## What happens to an agent -/

/-- An order received. Source: `receiveProjectDispatch`, its `input`. -/
structure Dispatch where
  token : Utf16
  agentId : Utf16
  action : Action
  projectId : Utf16
  nodeId : Utf16

/-- An order carried out. -/
structure Execution where
  token : Utf16
  claims : Claims
  deriving DecidableEq

/-- An agent's state. -/
structure State (Digest : Type) where
  now : ℚ
  placements : Utf16 → Option DispatchPlacement
  nonces : Nonces Digest
  executed : List Execution

/-- Source: `receiveProjectDispatch`: an order is looked at at one moment and its
nonce at another. -/
def receiveDispatch (s : State Digest) (d : Dispatch) (verified consumed : ℚ) : State Digest :=
  let s' := { s with now := consumed }
  if validId d.projectId = false ∨ validId d.nodeId = false then s'
  else
    match s.placements d.projectId with
    | none => s'
    | some p =>
      if p.nodeId ≠ d.nodeId then s'
      else
        match verifyDispatch a d.token d.agentId d.action p verified with
        | none => s'
        | some c =>
          match consumeNonce a s.nonces c.nonce c.expiresAt consumed with
          | none => s'
          | some nonces =>
            if c.projectId ≠ d.projectId then { s' with nonces }
            else { s' with nonces, executed := s.executed ++ [⟨d.token, c⟩] }

/-- What happens to an agent. -/
inductive Event where
  | dispatch (order : Dispatch) (verified consumed : ℚ)
  | sweep (now : ℚ)
  | place (placements : Utf16 → Option DispatchPlacement)
  | tick (now : ℚ)

def step (s : State Digest) : Event → Option (State Digest)
  | .dispatch order verified consumed =>
    if s.now ≤ verified ∧ verified ≤ consumed then some (receiveDispatch a s order verified consumed)
    else none
  | .sweep now =>
    if s.now ≤ now then some { s with now, nonces := sweepExpired s.nonces now } else none
  | .place placements => some { s with placements }
  | .tick now => if s.now ≤ now then some { s with now } else none

def runFrom (s : State Digest) (events : List Event) : Option (State Digest) :=
  events.foldlM (step a) s

/-! ## What is remembered -/

/-- Each order that was carried out is the one its token spells, and its nonce is remembered while it
is good. -/
def Remembers (s : State Digest) : Prop := ∀ x ∈ s.executed, a.decode x.token = some x.claims ∧
  (x.claims.expiresAt ≤ s.now ∨
    ∃ expiry, s.nonces (a.keyFor x.claims.nonce) = some expiry ∧ x.claims.expiresAt ≤ expiry)

variable {a} {s s' : State Digest} {nonces : Nonces Digest} {c : Claims}

omit [DecidableEq Digest] in
lemma verifyDispatch_eq_some {token agentId : Utf16} {action : Action} {p : DispatchPlacement}
    {now : ℚ} (h : verifyDispatch a token agentId action p now = some c) :
    a.decode token = some c ∧ c.agentId = agentId ∧ c.action = action ∧ c.names p = true ∧
      now < p.leaseExpiresAt ∧ now < c.expiresAt ∧ a.trusts token now = true := by
  obtain ⟨hdecode, h⟩ := Option.filter_eq_some_iff.1 h
  unfold Claims.isGood at h
  simp only [Bool.and_eq_true, decide_eq_true_iff, beq_iff_eq] at h
  tauto

variable {nonces' : Nonces Digest}

lemma consumeNonce_eq_some {expiresAt now : ℚ}
    (h : consumeNonce a nonces nonce expiresAt now = some nonces') : now < expiresAt ∧
      nonces (a.keyFor nonce) = none ∧
      nonces' = Function.update nonces (a.keyFor nonce) (some expiresAt) := by
  unfold consumeNonce at h
  split_ifs at h with hbad hseen
  rw [not_or, not_or, not_le] at hbad
  cases h
  refine ⟨hbad.2.2, ?_, rfl⟩
  rwa [Option.isSome_iff_ne_none, not_not] at hseen

/-- What receiving an order comes to: nothing but the clock, or its nonce remembered, or the order
carried out. -/
theorem receiveDispatch_cases (a : Destination Digest) (s : State Digest) (d : Dispatch)
    (verified consumed : ℚ) :
    receiveDispatch a s d verified consumed = { s with now := consumed } ∨
    ∃ p c nonces, s.placements d.projectId = some p ∧
      verifyDispatch a d.token d.agentId d.action p verified = some c ∧
      consumeNonce a s.nonces c.nonce c.expiresAt consumed = some nonces ∧
      (receiveDispatch a s d verified consumed = { s with now := consumed, nonces } ∨
        (c.projectId = d.projectId ∧ p.nodeId = d.nodeId ∧ receiveDispatch a s d verified consumed = { s with
            now := consumed
            nonces
            executed := s.executed ++ [⟨d.token, c⟩] })) := by
  unfold receiveDispatch
  split_ifs with hids
  · exact .inl rfl
  · cases hplacement : s.placements d.projectId with
    | none => exact .inl rfl
    | some p =>
      dsimp only
      split_ifs with hnode
      · exact .inl rfl
      · cases hverify : verifyDispatch a d.token d.agentId d.action p verified with
        | none => exact .inl rfl
        | some c =>
          dsimp only
          cases hconsume : consumeNonce a s.nonces c.nonce c.expiresAt consumed with
          | none => exact .inl rfl
          | some nonces =>
            refine .inr ⟨p, c, nonces, rfl, hverify, hconsume, ?_⟩
            split_ifs with hproject
            · exact .inl rfl
            · exact .inr ⟨not_not.1 hproject, not_not.1 hnode, rfl⟩

variable {key : Digest}

omit [DecidableEq Digest] in
lemma sweepExpired_eq {now expiry : ℚ} (h : nonces key = some expiry)
    (hnow : now < expiry) : sweepExpired nonces now key = some expiry := by
  unfold sweepExpired
  split_ifs
  · exact Option.filter_eq_some_iff.2 ⟨h, decide_eq_true hnow⟩
  · exact h

lemma consumeNonce_keeps {expiresAt now expiry : ℚ}
    (h : consumeNonce a nonces nonce expiresAt now = some nonces')
    (hkey : nonces key = some expiry) : nonces' key = some expiry := by
  obtain ⟨-, hnone, rfl⟩ := consumeNonce_eq_some h
  have hne : key ≠ a.keyFor nonce := by
    rintro rfl
    rw [hnone] at hkey
    cases hkey
  rw [Function.update_of_ne hne, hkey]

omit [DecidableEq Digest] in
lemma Remembers.later (h : Remembers a s) (hnow : s.now ≤ s'.now) (hexecuted : s'.executed = s.executed)
    (hnonces : ∀ key expiry, s.nonces key = some expiry →
      s'.nonces key = some expiry ∨ expiry ≤ s'.now) : Remembers a s' := by
  intro x hx
  rw [hexecuted] at hx
  obtain ⟨hdecode, hover | ⟨expiry, hkey, hle⟩⟩ := h x hx
  · exact ⟨hdecode, .inl (hover.trans hnow)⟩
  · obtain hkept | hover := hnonces _ _ hkey
    · exact ⟨hdecode, .inr ⟨expiry, hkept, hle⟩⟩
    · exact ⟨hdecode, .inl (hle.trans hover)⟩

lemma remembers_step (h : Remembers a s) (hstep : step a s event = some s') : Remembers a s' := by
  cases event with
  | dispatch d verified consumed =>
    simp only [step] at hstep
    split_ifs at hstep with hnow
    cases hstep
    have hle : s.now ≤ consumed := hnow.1.trans hnow.2
    obtain heq | ⟨p, c, nonces, -, hverify, hconsume, heq | ⟨-, -, heq⟩⟩ :=
      receiveDispatch_cases a s d verified consumed
    · rw [heq]
      exact h.later hle rfl fun key expiry hkey => .inl hkey
    · rw [heq]
      exact h.later hle rfl fun key expiry hkey => .inl (consumeNonce_keeps hconsume hkey)
    · rw [heq]
      intro x hx
      obtain hx | hx := List.mem_append.1 hx
      · have hlater : Remembers a { s with now := consumed, nonces } :=
          h.later hle rfl fun key expiry hkey => .inl (consumeNonce_keeps hconsume hkey)
        exact hlater x hx
      · cases List.mem_singleton.1 hx
        obtain ⟨-, -, rfl⟩ := consumeNonce_eq_some hconsume
        exact ⟨(verifyDispatch_eq_some hverify).1, .inr ⟨c.expiresAt, Function.update_self _ _ _, le_rfl⟩⟩
  | sweep now =>
    simp only [step] at hstep
    split_ifs at hstep with hnow
    cases hstep
    refine h.later hnow rfl fun key expiry hkey => ?_
    obtain hlt | hle := lt_or_ge now expiry
    · exact .inl (sweepExpired_eq hkey hlt)
    · exact .inr hle
  | place placements =>
    cases hstep
    exact h.later le_rfl rfl fun key expiry hkey => .inl hkey
  | tick now =>
    simp only [step] at hstep
    split_ifs at hstep with hnow
    cases hstep
    exact h.later hnow rfl fun key expiry hkey => .inl hkey

/-! ## Every sequence -/

/-- An order is carried out by receiving it, while it is good and names the placement of its project as
it is held, and no order with its token was carried out before. -/
theorem executed_step (h : Remembers a s) (hstep : step a s event = some s') :
    s'.executed = s.executed ∨ ∃ d verified consumed x p, event = .dispatch d verified consumed ∧
      s'.executed = s.executed ++ [x] ∧ x.token = d.token ∧ consumed < x.claims.expiresAt ∧
      s.placements x.claims.projectId = some p ∧ x.claims.names p = true ∧
      verified < p.leaseExpiresAt ∧ ∀ y ∈ s.executed, y.token ≠ x.token := by
  cases event with
  | dispatch d verified consumed =>
    simp only [step] at hstep
    split_ifs at hstep with hnow
    cases hstep
    obtain heq | ⟨p, c, nonces, hplacement, hverify, hconsume, heq | ⟨hproject, -, heq⟩⟩ :=
      receiveDispatch_cases a s d verified consumed
    · exact .inl (by rw [heq])
    · exact .inl (by rw [heq])
    · obtain ⟨hdecode, -, -, hnames, hlease, hgood, -⟩ := verifyDispatch_eq_some hverify
      obtain ⟨hconsumed, hnone, -⟩ := consumeNonce_eq_some hconsume
      refine .inr ⟨d, verified, consumed, ⟨d.token, c⟩, p, rfl, by rw [heq], rfl, hconsumed,
        by rw [hproject, hplacement], hnames, hlease, fun y hy htoken => ?_⟩
      -- what its token spells is remembered or out, and it is neither
      obtain ⟨hspelled, hover | ⟨expiry, hkey, -⟩⟩ := h y hy
      · rw [htoken, hdecode] at hspelled
        cases hspelled
        exact absurd (hover.trans hnow.1) (not_le.2 hgood)
      · rw [htoken, hdecode] at hspelled
        cases hspelled
        rw [hnone] at hkey
        cases hkey
  | sweep now =>
    simp only [step] at hstep
    split_ifs at hstep
    cases hstep
    exact .inl rfl
  | place placements =>
    cases hstep
    exact .inl rfl
  | tick now =>
    simp only [step] at hstep
    split_ifs at hstep
    cases hstep
    exact .inl rfl

/-- What holds of an agent's state after any sequence of events. -/
structure Carried (a : Destination Digest) (s : State Digest) : Prop where
  once : (s.executed.map Execution.token).Nodup
  /-- Whatever happens next, nothing more is carried out, or an order is that comes in, is unexpired,
  names the placement of its project that is held and not out, and was not carried out before. -/
  good : ∀ event s', step a s event = some s' → s'.executed = s.executed ∨
    ∃ d verified consumed x p, event = .dispatch d verified consumed ∧
      s'.executed = s.executed ++ [x] ∧ x.token = d.token ∧ consumed < x.claims.expiresAt ∧
      s.placements x.claims.projectId = some p ∧ x.claims.names p = true ∧
      verified < p.leaseExpiresAt ∧ ∀ y ∈ s.executed, y.token ≠ x.token
  never : ∀ x ∈ s.executed, ∀ events s', runFrom a s events = some s' →
    ∀ d verified consumed s'', d.token = x.token →
      step a s' (.dispatch d verified consumed) = some s'' → s''.executed = s'.executed

lemma remembers_run (events : List Event) : ∀ {s s' : State Digest}, Remembers a s →
    runFrom a s events = some s' → Remembers a s' ∧ s.executed <+: s'.executed ∧
      ((s.executed.map Execution.token).Nodup → (s'.executed.map Execution.token).Nodup) := by
  induction events with
  | nil =>
    intro s s' h hrun
    cases hrun
    exact ⟨h, List.prefix_rfl, id⟩
  | cons event events ih =>
    intro s s' h hrun
    obtain ⟨s₁, hstep, hrun⟩ := Option.bind_eq_some_iff.1 hrun
    obtain ⟨h', hpre, hnodup⟩ := ih (remembers_step h hstep) hrun
    obtain heq | ⟨d, verified, consumed, x, p, -, heq, -, -, -, -, -, hfresh⟩ :=
      executed_step h hstep
    · rw [heq] at hpre hnodup
      exact ⟨h', hpre, hnodup⟩
    · rw [heq] at hpre hnodup
      refine ⟨h', (List.prefix_append _ _).trans hpre, fun hs => hnodup ?_⟩
      rw [List.map_append, List.nodup_append]
      refine ⟨hs, List.nodup_singleton _, fun token htoken token' htoken' => ?_⟩
      obtain ⟨y, hy, rfl⟩ := List.mem_map.1 htoken
      cases List.mem_singleton.1 htoken'
      exact hfresh y hy

end

end Zelavis.Agent.ProjectDispatch
