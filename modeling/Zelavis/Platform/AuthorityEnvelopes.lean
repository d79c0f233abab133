import Mathlib.Data.List.Sort
import Zelavis.Core.Checks
import Zelavis.Db.JsonText
import Zelavis.Lib.SingleUse

/-!
# Signed authority

`gateway-authority.ts`: the platform signs an envelope for one project, and the project's runtime accepts
it once. `core/agent/index.ts`: the platform signs one for one operation of one agent, and the agent
accepts it once. Both look at what an envelope says at one moment, and ask the same tracker for its nonce
at another.
-/

namespace Zelavis.Platform.AuthorityEnvelopes

open Lib Turns SingleUse

/-! ## The gateway -/

/-- What an envelope of the gateway says. Source: `gateway-authority.ts`
`ZelavisGatewayAuthorityClaims`. -/
structure GatewayClaims where
  projectId : Utf16
  scopeId : Utf16
  generation : ℚ
  runtimeNodeId : Utf16
  subject : Utf16
  subjectType : Utf16
  tenantId : Utf16
  permissions : List Utf16
  expiresAt : ℚ
  nonce : Utf16
  deriving DecidableEq

/-- What a runtime takes from outside: what the payload of a token spells, where it is a list of ten
fields of their types, and whether the signature is that of the payload under the secret. -/
structure GatewayWire where
  decode : Utf16 → Option GatewayClaims
  verify : Utf16 → Bool

/-- Source: `gateway-authority.ts` `ZELAVIS_GATEWAY_AUTHORITY_TTL_MS`. -/
def gatewayTtl : ℚ := 30000

/-- What an envelope says is good for a project at a moment. Source: `gateway-authority.ts`
`verifyGatewayAuthority`. -/
def GatewayClaims.isGood (c : GatewayClaims) (audienceProjectId : Utf16) (now : ℚ) : Bool :=
  !c.tenantId.isEmpty && c.projectId = audienceProjectId && now < c.expiresAt &&
    c.expiresAt - now ≤ gatewayTtl * 2 && !c.permissions.contains (utf16 "*")

/-- Envelopes of the gateway; `consume` is the tracker of their nonces. Source: `gateway-authority.ts`
`signGatewayAuthority`, `verifyGatewayAuthority`, `createGatewayNonceTracker`. -/
def gateway (g : GatewayWire) : Verifier Utf16 GatewayClaims Utf16 Utf16 ℚ where
  spells := g.decode
  authentic token _ _ := g.verify token
  admits := GatewayClaims.isGood
  nonce := GatewayClaims.nonce
  expiresAt := GatewayClaims.expiresAt
  signs _ := true

def GatewayMeant (c : GatewayClaims) (audienceProjectId : Utf16) : Prop := c.projectId = audienceProjectId

variable {now : ℚ}

lemma gatewayMeant_of_isGood {c : GatewayClaims} {audienceProjectId : Utf16}
    (h : c.isGood audienceProjectId now = true) : GatewayMeant c audienceProjectId := by
  simp only [GatewayClaims.isGood, Bool.and_eq_true, decide_eq_true_eq] at h
  exact h.1.1.1.2

/-! ## The agent -/

/-- What an envelope of an agent says. Source: `core/agent/index.ts` `ZelavisAgentAuthorityClaims`. -/
structure AgentClaims where
  keyId : Utf16
  agentId : Utf16
  operationId : Utf16
  operation : Utf16
  version : Utf16
  artifactDigest : Utf16
  argumentsDigest : Utf16
  projectId : Option Utf16
  actorId : Utf16
  issuedAt : ℚ
  expiresAt : ℚ
  nonce : Utf16
  deriving DecidableEq

/-- What an agent is asked to do, and which agent it is. Source: `verifyAgentAuthority`, its `request` and
its `audienceAgentId`. -/
structure AgentRequest where
  audienceAgentId : Utf16
  operationId : Utf16
  operation : Utf16
  version : Utf16
  artifactDigest : Utf16
  arguments : List (Utf16 × Utf16)
  projectId : Option Utf16

/-- What an agent takes from outside: what the payload of a token spells, where it is a list of twelve
fields of their types; the public key that is trusted under a name at a moment; whether the signature is
that of the payload; and the digest of a text in hexadecimal digits. -/
structure AgentWire where
  {Key : Type}
  decode : Utf16 → Option AgentClaims
  resolveTrustedEd25519Key : Utf16 → ℚ → Option Key
  verify : Key → Utf16 → Bool
  sha256 : Utf16 → Utf16

/-- Source: `core/agent/index.ts` `hostOperationArgumentsDigest`. -/
def hostOperationArgumentsDigest (a : AgentWire) (args : List (Utf16 × Utf16)) : Utf16 :=
  a.sha256 (Db.stringify (fun _ => []) (.array
    ((args.insertionSort fun x y => x.1 ≤ y.1).map fun x => .array [.string x.1, .string x.2])))

/-- Source: `core/agent/index.ts` `validateAgentAuthorityClaims`, its `boundedId`. -/
def boundedId (value : Utf16) (maximum : ℕ) : Bool := 0 < value.length && value.length ≤ maximum

/-- `/^[a-f0-9]{64}$/`. -/
def isDigest (value : Utf16) : Bool :=
  value.length = 64 && value.all fun unit => (utf16 "0123456789abcdef").contains unit

def agentTtl : ℚ := 15 * 60000

/-- Source: `core/agent/index.ts` `validateAgentAuthorityClaims`; `false` where it throws. -/
def AgentClaims.isValid (c : AgentClaims) : Bool :=
  boundedId c.keyId 128 && boundedId c.agentId 256 && boundedId c.operationId 128 &&
    boundedId c.operation 128 && boundedId c.version 64 && isDigest c.artifactDigest &&
    isDigest c.argumentsDigest && c.projectId.all (boundedId · 256) && boundedId c.actorId 256 &&
    boundedId c.nonce 256 && c.issuedAt < c.expiresAt && c.expiresAt - c.issuedAt ≤ agentTtl

/-- What an envelope says is good for a request at a moment. Source: `core/agent/index.ts`
`verifyAgentAuthority`. -/
def AgentClaims.isGood (a : AgentWire) (c : AgentClaims) (r : AgentRequest) (now : ℚ) : Bool :=
  c.agentId = r.audienceAgentId && c.operationId = r.operationId && c.operation = r.operation &&
    c.version = r.version && c.artifactDigest = r.artifactDigest &&
    c.argumentsDigest = hostOperationArgumentsDigest a r.arguments && c.projectId = r.projectId &&
    c.issuedAt ≤ now + 5000 && now < c.expiresAt && c.expiresAt - c.issuedAt ≤ agentTtl

/-- Envelopes of an agent; `consume` is the tracker of their nonces too. Source: `core/agent/index.ts`
`signAgentAuthority`, `verifyAgentAuthority`, `createAgentNonceTracker`. -/
def agent (a : AgentWire) : Verifier Utf16 AgentClaims AgentRequest Utf16 ℚ where
  spells token := if token.length ≤ 16384 then a.decode token else none
  authentic token c now := (a.resolveTrustedEd25519Key c.keyId now).any (a.verify · token)
  admits := AgentClaims.isGood a
  nonce := AgentClaims.nonce
  expiresAt := AgentClaims.expiresAt
  signs := AgentClaims.isValid

/-- An envelope is for the agent and the operation it names, with the arguments whose digest it names. -/
structure AgentMeant (a : AgentWire) (c : AgentClaims) (r : AgentRequest) : Prop where
  audience : c.agentId = r.audienceAgentId
  operationId : c.operationId = r.operationId
  operation : c.operation = r.operation
  version : c.version = r.version
  artifactDigest : c.artifactDigest = r.artifactDigest
  argumentsDigest : c.argumentsDigest = hostOperationArgumentsDigest a r.arguments
  projectId : c.projectId = r.projectId

lemma agentMeant_of_isGood {a : AgentWire} {c : AgentClaims} {r : AgentRequest}
    (h : c.isGood a r now = true) : AgentMeant a c r := by
  simp only [AgentClaims.isGood, Bool.and_eq_true, decide_eq_true_eq] at h
  obtain ⟨⟨⟨⟨⟨⟨⟨⟨⟨h₁, h₂⟩, h₃⟩, h₄⟩, h₅⟩, h₆⟩, h₇⟩, -⟩, -⟩, -⟩ := h
  exact ⟨h₁, h₂, h₃, h₄, h₅, h₆, h₇⟩

/-! ## Both -/

/-- Either verifier accepts an envelope once, for what it was signed for, before it expires, exactly where
the tracker's clock has not reached the expiry of what was checked, unless its nonce is remembered for
longer. -/
theorem envelopes_once (g : GatewayWire) (a : AgentWire) (gatewayRun : Run (presentations (gateway g)))
    (agentRun : Run (presentations (agent a))) (hgateway : (gatewayRun.world 0).parties = [])
    (hagent : (agentRun.world 0).parties = [])
    (hgatewayKey : ∀ i, unforged (gateway g) (gatewayRun.world i) (gatewayRun.turn i) = true)
    (hagentKey : ∀ i, unforged (agent a) (agentRun.world i) (agentRun.turn i) = true) :
    ((∀ i, inTime (gateway g) (gatewayRun.world i) (gatewayRun.turn i) = true) ↔
      GoodOnce GatewayMeant gatewayRun) ∧
    ((∀ i, inTime (agent a) (agentRun.world i) (agentRun.turn i) = true) ↔
      GoodOnce (AgentMeant a) agentRun) :=
  ⟨inTime_iff_goodOnce GatewayMeant (fun _ _ _ h => gatewayMeant_of_isGood h) hgateway hgatewayKey,
    inTime_iff_goodOnce (AgentMeant a) (fun _ _ _ h => agentMeant_of_isGood h) hagent hagentKey⟩

/-! ## An envelope that expires meanwhile -/

def shopEnvelope : GatewayClaims where
  projectId := utf16 "shop"
  scopeId := utf16 "scope"
  generation := 1
  runtimeNodeId := utf16 "node"
  subject := utf16 "account"
  subjectType := utf16 "user"
  tenantId := utf16 "tenant"
  permissions := [utf16 "read"]
  expiresAt := 10
  nonce := utf16 "nonce"

/-- The token `t` is the envelope's, and no other is signed. -/
def shopWire : GatewayWire where
  decode token := if token = utf16 "t" then some shopEnvelope else none
  verify token := token = utf16 "t"

def restartEnvelope : AgentClaims where
  keyId := utf16 "key"
  agentId := utf16 "agent"
  operationId := utf16 "operation"
  operation := utf16 "restart"
  version := utf16 "1"
  artifactDigest := List.replicate 64 0x61
  argumentsDigest := utf16 "4f53cda18c2baa0c0354bb5f9a3ecbe5ed12ab4d8e11ba873c2f11161202b945"
  projectId := none
  actorId := utf16 "account"
  issuedAt := 0
  expiresAt := 10
  nonce := utf16 "nonce"

/-- The token `t` is the order's, and no other is signed. -/
def restartWire : AgentWire where
  Key := Unit
  decode token := if token = utf16 "t" then some restartEnvelope else none
  resolveTrustedEd25519Key keyId _ := if keyId = utf16 "key" then some () else none
  verify _ token := token = utf16 "t"
  sha256 text := if text = utf16 "[]" then restartEnvelope.argumentsDigest else []

def restartRequest : AgentRequest where
  audienceAgentId := utf16 "agent"
  operationId := utf16 "operation"
  operation := utf16 "restart"
  version := utf16 "1"
  artifactDigest := List.replicate 64 0x61
  arguments := []
  projectId := none

/-- An envelope is signed and presented twice; the second time it is checked at the ninth millisecond, and
the tracker is asked at a moment. -/
def presentedTwice {Claims Request : Type} (claims : Claims) (request : Request) (moment : ℚ) :
    List (Turn (Presentation Utf16 Claims Request ℚ) ℚ (Event Claims ℚ)) := [
  .pass (.sign claims),
  .begin ⟨utf16 "t", request, .presented⟩, .move 0 0, .move 0 0,
  .begin ⟨utf16 "t", request, .presented⟩, .move 1 9, .move 1 moment]

def unsigned {Claims Request : Type} : World (Shared Claims Utf16 ℚ) (Presentation Utf16 Claims Request ℚ) :=
  ⟨⟨0, [], fun _ => none⟩, []⟩

def promptRun : Run (presentations (gateway shopWire)) :=
  (presentations (gateway shopWire)).replay unsigned (presentedTwice shopEnvelope (utf16 "shop") 9)
    (by decide +kernel)

def promptRestart : Run (presentations (agent restartWire)) :=
  (presentations (agent restartWire)).replay unsigned (presentedTwice restartEnvelope restartRequest 9)
    (by decide +kernel)

def lateRun : Run (presentations (gateway shopWire)) :=
  (presentations (gateway shopWire)).replay unsigned (presentedTwice shopEnvelope (utf16 "shop") 10)
    (by decide +kernel)

theorem envelopes_once_prompt :
    GoodOnce GatewayMeant promptRun ∧ GoodOnce (AgentMeant restartWire) promptRestart := by
  have h := envelopes_once shopWire restartWire promptRun promptRestart rfl rfl
    (Rules.replay_all (fun _ => rfl) (by decide +kernel))
    (Rules.replay_all (fun _ => rfl) (by decide +kernel))
  exact ⟨h.1.1 (Rules.replay_all (fun _ => rfl) (by decide +kernel)),
    h.2.1 (Rules.replay_all (fun _ => rfl) (by decide +kernel))⟩

/-- The envelope is accepted a second time. -/
theorem not_envelopes_once : ¬∀ (g : GatewayWire) (run : Run (presentations (gateway g))),
    (run.world 0).parties = [] → (∀ i, unforged (gateway g) (run.world i) (run.turn i) = true) →
    GoodOnce GatewayMeant run := by
  intro h
  have hgood := h shopWire lateRun rfl (Rules.replay_all (fun _ => rfl) (by decide +kernel))
  have hfirst : Accepted (lateRun.world 7) 0 shopEnvelope (utf16 "shop") 0 :=
    ⟨⟨utf16 "t", utf16 "shop", .accepted shopEnvelope 0⟩, by decide +kernel, rfl, rfl⟩
  have hsecond : Accepted (lateRun.world 7) 1 shopEnvelope (utf16 "shop") 10 :=
    ⟨⟨utf16 "t", utf16 "shop", .accepted shopEnvelope 10⟩, by decide +kernel, rfl, rfl⟩
  exact absurd (hgood.once 7 0 1 _ _ _ _ _ hfirst hsecond) (by decide)

end Zelavis.Platform.AuthorityEnvelopes
