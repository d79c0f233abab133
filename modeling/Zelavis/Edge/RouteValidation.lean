import Zelavis.Edge.Publications
import Zelavis.Lib.Decoding
import Zelavis.Lib.MatchRules
import Mathlib.Data.List.DropRight

/-!
# What the route registry accepts

The checks `routes.ts` makes of a hostname or a route whenever it is written or read, and the
publication of what passes them. Numbers of a record are whole ones.
-/

namespace Zelavis.Edge

open Lib Lib.MatchRules List

/-- What the standard library says of a text. -/
structure Standard where
  /-- Source: `String.prototype.toLowerCase`. -/
  toLowerCase : Utf16 → Utf16
  /-- `new URL` reads it, and its protocol is `http:` or `https:`. -/
  isHttpUrl : Utf16 → Bool
  /-- Source: `String.prototype.localeCompare`. -/
  localeCompare : Utf16 → Utf16 → ℤ

/-- Source: `ZelavisEdgeValidationError`, by what `routes.ts` throws it for. -/
inductive RouteError where
  /-- `"<host>" is not a valid hostname.` -/
  | hostname (host : Utf16)
  /-- `Route id "<id>" must contain 1-128 lowercase letters, numbers, …` -/
  | routeId (id : Utf16)
  /-- `<label> with scope "project" requires a non-empty projectId.` -/
  | projectId (label : Utf16)
  /-- `Hostname with tlsMode "managed" requires a certificateRef.` -/
  | certificateMissing
  /-- `Hostname with tlsMode "none" must not have a certificateRef.` -/
  | certificateUnused
  /-- `Hostname certificateRef must not exceed 512 characters.` -/
  | certificateLength
  /-- `The hostname "*" is reserved for a Platform root fallback with priority 1.` -/
  | reserved
  /-- `Route pathPrefix must start with "/".` -/
  | pathPrefix
  /-- `Route requires at least one target.` -/
  | targets
  /-- `Target <index> requires a non-empty url.` -/
  | targetWithoutUrl (index : ℕ)
  /-- `Target <index> url "<url>" must be a valid http or https URL.` -/
  | targetUrl (index : ℕ) (url : Utf16)
  /-- `Target <index> weight must be an integer between 1 and 100.` -/
  | targetWeight (index : ℕ)
  /-- `Target <index> placementGeneration must be a non-negative safe integer.` -/
  | targetGeneration (index : ℕ)
  /-- `Route <field> must be a non-negative safe integer.` -/
  | limit (field : Utf16)
  /-- `Route priority must be a safe integer.` -/
  | priority
  /-- `Health check requires a non-empty path.` -/
  | healthPath
  /-- `Health check <field> must be a positive integer.` -/
  | healthField (field : Utf16)
  deriving DecidableEq

def require (check : Bool) (error : RouteError) : Except RouteError Unit :=
  if check then .ok () else .error error

lemma require_eq_ok {check : Bool} {error : RouteError} {u : Unit} :
    require check error = .ok u ↔ check = true := by
  unfold require
  split_ifs with h
  · simp [h]
  · simp [h]

/-! ## Texts -/

def isBlank (c : CodeUnit) : Bool :=
  0x09 ≤ c && c ≤ 0x0D || c = 0x20 || c = 0xA0 || c = 0x1680 || 0x2000 ≤ c && c ≤ 0x200A ||
    c = 0x2028 || c = 0x2029 || c = 0x202F || c = 0x205F || c = 0x3000 || c = 0xFEFF

/-- Source: `String.prototype.trim`. -/
def trim (s : Utf16) : Utf16 := (s.dropWhile isBlank).rdropWhile isBlank

def isAlphanumeric (c : CodeUnit) : Bool := 0x61 ≤ c && c ≤ 0x7A || 0x30 ≤ c && c ≤ 0x39

def dot : CodeUnit := 0x2E

/-- `[a-z0-9-]`. -/
def isHostUnit (c : CodeUnit) : Bool := isAlphanumeric c || c = 0x2D

/-- `[a-z0-9.:_-]`. -/
def isIdUnit (c : CodeUnit) : Bool := isHostUnit c || c = dot || c = 0x3A || c = 0x5F

/-- Some units, the first and the last of them alphanumeric, and no more than a number of them. -/
def isBounded (unit : CodeUnit → Bool) (most : ℕ) (s : Utf16) : Bool :=
  s.head?.any isAlphanumeric && s.getLast?.any isAlphanumeric && s.all unit && s.length ≤ most

def labels (s : Utf16) : List Utf16 := s.splitOn dot

def HOSTNAME_PATTERN (s : Utf16) : Bool := (labels s).all (isBounded isHostUnit 63)

def ROUTE_ID_PATTERN (s : Utf16) : Bool := isBounded isIdUnit 128 s

/-- Source: `Number.MAX_SAFE_INTEGER`. -/
def maxSafe : ℕ := 9007199254740991

def anyHost : Utf16 := utf16 "*"

section

variable (S : Standard)

def normalizeHostValue (host : Utf16) : Except RouteError Utf16 :=
  let normalized := (S.toLowerCase (trim host)).rdropWhile (· = dot)
  if normalized = [] ∨ 253 < normalized.length ∨ HOSTNAME_PATTERN normalized = false then
    .error (.hostname host)
  else .ok normalized

def normalizeRouteId (id : Utf16) : Except RouteError Utf16 :=
  let normalized := S.toLowerCase (trim id)
  if normalized = [] ∨ ROUTE_ID_PATTERN normalized = false then .error (.routeId id)
  else .ok normalized

end

/-! ## Hostnames -/

/-- A project is named where one is needed. Source: `validateScope`. -/
def validateScope (scope : Scope) (projectId : Option Utf16) (label : Utf16) :
    Except RouteError Unit :=
  require (scope ≠ .project || projectId.any fun id => trim id ≠ []) (.projectId label)

def trimmed (value : Option Utf16) : Option Utf16 := (value.filter (· ≠ [])).map trim

variable (S : Standard)

def validateHostname (hostname : Hostname) : Except RouteError Hostname := do
  let host ← normalizeHostValue S hostname.host
  validateScope hostname.scope hostname.projectId (utf16 "Hostname")
  require (hostname.tlsMode ≠ .managed || hostname.certificateRef.any fun ref => trim ref ≠ [])
    .certificateMissing
  require (hostname.tlsMode ≠ .none || hostname.certificateRef.all fun ref => ref = [])
    .certificateUnused
  let certificateRef := hostname.certificateRef.map trim
  require (certificateRef.all fun ref => ref.length ≤ 512) .certificateLength
  pure { hostname with
    host := host
    projectId := trimmed hostname.projectId
    certificateRef := certificateRef.filter (· ≠ []) }

/-! ## Routes -/

def validateTarget (target : Target) (index : ℕ) : Except RouteError Target := do
  let url := trim target.url
  require (url ≠ []) (.targetWithoutUrl index)
  require (S.isHttpUrl url) (.targetUrl index url)
  require (1 ≤ target.weight && target.weight ≤ 100) (.targetWeight index)
  require (target.placementGeneration.all fun generation => generation ≤ maxSafe)
    (.targetGeneration index)
  pure { target with url := url, nodeId := trimmed target.nodeId }

def isPositive (n : ℕ) : Bool := 1 ≤ n && n ≤ maxSafe

def validateHealthCheck (check : HealthCheckPolicy) : Except RouteError HealthCheckPolicy := do
  require (check.path ≠ []) .healthPath
  require (isPositive check.intervalMs) (.healthField (utf16 "intervalMs"))
  require (isPositive check.timeoutMs) (.healthField (utf16 "timeoutMs"))
  require (isPositive check.unhealthyThreshold) (.healthField (utf16 "unhealthyThreshold"))
  require (isPositive check.healthyThreshold) (.healthField (utf16 "healthyThreshold"))
  pure { check with path := trim check.path }

def normalizeRouteHost (hostname : Utf16) : Except RouteError Utf16 :=
  if hostname = anyHost then .ok anyHost else normalizeHostValue S hostname

def validateRoute (route : Route) : Except RouteError Route := do
  let id ← normalizeRouteId S route.id
  validateScope route.scope route.projectId (utf16 "Route")
  let hostname ← normalizeRouteHost S route.hostname
  require (hostname ≠ anyHost || route.scope = .platform && route.pathPrefix = [slash] &&
    route.pathMatch = .beginning && route.priority = 1) .reserved
  let pathPrefix := trim route.pathPrefix
  require (pathPrefix.head? = some slash) .pathPrefix
  require (route.targets ≠ []) .targets
  let targets ← route.targets.zipIdx.mapM fun target => validateTarget S target.1 target.2
  require (route.timeoutMs.all fun value => value ≤ maxSafe) (.limit (utf16 "timeoutMs"))
  require (route.maxRequestBodyBytes.all fun value => value ≤ maxSafe)
    (.limit (utf16 "maxRequestBodyBytes"))
  require (route.priority.natAbs ≤ maxSafe) .priority
  let healthCheck ← route.healthCheck.mapM validateHealthCheck
  pure { route with
    id := id
    projectId := trimmed route.projectId
    hostname := hostname
    pathPrefix := pathPrefix
    targets := targets
    protocols := route.protocols.eraseDups
    healthCheck := healthCheck }

/-! ## Publications -/

/-- Source: `listHostnames`, where nothing is filtered. -/
def listHostnames (store : Store) : Except RouteError (List Hostname) :=
  store.hostnames.entries.mapM fun record => validateHostname S record.2

/-- Source: `listRoutes`, where nothing is filtered. -/
def listRoutes (store : Store) : Except RouteError (List Route) :=
  (store.routes.entries.mapM fun record => validateRoute S record.2).map
    (sortRoutes S.localeCompare)

/-- The publication of what is stored. Source: `compile`. -/
def publication (store : Store) (revision : ℕ) (compiledAt : Utf16) :
    Except RouteError Publication := do
  let hostnames ← listHostnames S store
  let routes ← listRoutes S store
  pure (compiled revision compiledAt hostnames routes)

/-! ## What a route of a publication is -/

def isNameUnit (c : CodeUnit) : Bool := isHostUnit c || c = dot

/-- What the checks leave of a route's hostname and path. -/
structure Registered (route : Route) : Prop where
  fallback : route.hostname = anyHost →
    route.pathPrefix = [slash] ∧ route.pathMatch = .beginning ∧ route.priority = 1
  hostname : route.hostname ≠ anyHost → ∀ c ∈ route.hostname, isNameUnit c = true
  rooted : route.pathPrefix.head? = some slash

variable {S} {c : CodeUnit} {s : Utf16}

lemma mem_labels (hc : c ∈ s) (hdot : c ≠ dot) : ∃ label ∈ labels s, c ∈ label := by
  induction s with
  | nil => exact absurd hc not_mem_nil
  | cons d s ih =>
    rw [labels, splitOn_cons_eq_if_modifyHead]
    split_ifs with hd
    · have hcs : c ∈ s := by
        rcases mem_cons.mp hc with rfl | hcs
        · exact absurd (eq_of_beq hd) hdot
        · exact hcs
      obtain ⟨label, hlabel, hmem⟩ := ih hcs
      exact ⟨label, mem_cons_of_mem _ hlabel, hmem⟩
    · cases hs : s.splitOn dot with
      | nil => exact absurd hs (splitOn_ne_nil _ _)
      | cons first rest =>
        rcases mem_cons.mp hc with rfl | hcs
        · exact ⟨_, mem_cons_self, mem_cons_self⟩
        · obtain ⟨label, hlabel, hmem⟩ := ih hcs
          rw [labels, hs] at hlabel
          rcases mem_cons.mp hlabel with rfl | hlabel
          · exact ⟨_, mem_cons_self, mem_cons_of_mem _ hmem⟩
          · exact ⟨label, mem_cons_of_mem _ hlabel, hmem⟩

lemma isNameUnit_of_pattern (h : HOSTNAME_PATTERN s = true) (hc : c ∈ s) : isNameUnit c = true := by
  by_cases hdot : c = dot
  · simp [isNameUnit, hdot]
  · obtain ⟨label, hlabel, hmem⟩ := mem_labels hc hdot
    have hbounded := List.all_eq_true.mp h label hlabel
    simp only [isBounded, Bool.and_eq_true, List.all_eq_true] at hbounded
    rw [isNameUnit, hbounded.1.2 c hmem, Bool.true_or]

lemma pattern_of_normalizeHostValue {host normalized : Utf16}
    (h : normalizeHostValue S host = .ok normalized) : HOSTNAME_PATTERN normalized = true := by
  simp only [normalizeHostValue] at h
  split_ifs at h with hbad
  obtain rfl := Except.ok.inj h
  rw [not_or, not_or, Bool.not_eq_false] at hbad
  exact hbad.2.2

lemma trim_slash : trim [slash] = [slash] := by decide

lemma registered_of_validateRoute {input route : Route} (h : validateRoute S input = .ok route) :
    Registered route := by
  obtain ⟨id, -, h⟩ := bind_eq_ok_iff.mp h
  obtain ⟨-, -, h⟩ := bind_eq_ok_iff.mp h
  obtain ⟨hostname, hhost, h⟩ := bind_eq_ok_iff.mp h
  obtain ⟨_, hreserved, h⟩ := bind_eq_ok_iff.mp h
  obtain ⟨_, hrooted, h⟩ := bind_eq_ok_iff.mp h
  obtain ⟨-, -, h⟩ := bind_eq_ok_iff.mp h
  obtain ⟨targets, -, h⟩ := bind_eq_ok_iff.mp h
  obtain ⟨-, -, h⟩ := bind_eq_ok_iff.mp h
  obtain ⟨-, -, h⟩ := bind_eq_ok_iff.mp h
  obtain ⟨-, -, h⟩ := bind_eq_ok_iff.mp h
  obtain ⟨health, -, h⟩ := bind_eq_ok_iff.mp h
  obtain rfl := Except.ok.inj h
  have hreserved := require_eq_ok.mp hreserved
  have hrooted := require_eq_ok.mp hrooted
  refine ⟨?_, ?_, decide_eq_true_iff.mp hrooted⟩
  · intro hany
    have hany : hostname = anyHost := hany
    rw [hany] at hreserved
    have hreserved : ((input.scope = .platform ∧ input.pathPrefix = [slash]) ∧
        input.pathMatch = .beginning) ∧ input.priority = 1 := by simpa using hreserved
    refine ⟨?_, hreserved.1.2, hreserved.2⟩
    rw [hreserved.1.1.2, trim_slash]
  · intro hany c hc
    rw [normalizeRouteHost] at hhost
    split_ifs at hhost with hstar
    · exact absurd (Except.ok.inj hhost).symm hany
    · exact isNameUnit_of_pattern (pattern_of_normalizeHostValue hhost) hc

lemma registered_of_publication {store : Store} {revision : ℕ} {compiledAt : Utf16}
    {p : Publication} (h : publication S store revision compiledAt = .ok p) {route : Route}
    (hroute : route ∈ p.routes) : Registered route := by
  obtain ⟨hostnames, -, h⟩ := bind_eq_ok_iff.mp h
  obtain ⟨routes, hroutes, h⟩ := bind_eq_ok_iff.mp h
  obtain rfl := Except.ok.inj h
  unfold listRoutes at hroutes
  cases hread : store.routes.entries.mapM fun record => validateRoute S record.2 with
  | error reason =>
    rw [hread] at hroutes
    cases hroutes
  | ok read =>
    rw [hread] at hroutes
    obtain rfl := Except.ok.inj hroutes
    have hmem : route ∈ read := (mem_insertionSort _).mp hroute
    obtain ⟨record, -, hvalid⟩ := exists_left_of_forall₂ (mapM_eq_ok_iff.mp hread) hmem
    exact registered_of_validateRoute hvalid

end Zelavis.Edge
