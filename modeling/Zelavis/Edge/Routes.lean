import Zelavis.Lib.OrderedMap
import Zelavis.Lib.Unicode

/-!
# Edge routes and what is compiled from them

`routes.ts`: hostnames, routes, and the publication compiled from both.
-/

namespace Zelavis.Edge

open Lib

/-! ## Records -/

/-- Who a record belongs to. -/
inductive Scope where
  /-- `"platform"`. -/
  | platform
  /-- `"project"`. -/
  | project
  deriving DecidableEq

/-- Source: `ZelavisEdgeTlsMode`. -/
inductive TlsMode where
  /-- `"managed"`. -/
  | managed
  /-- `"external"`. -/
  | external
  /-- `"none"`. -/
  | none
  deriving DecidableEq

/-- Source: `ZelavisEdgeHostname`. -/
structure Hostname where
  host : Utf16
  scope : Scope
  projectId : Option Utf16 := none
  tlsMode : TlsMode
  certificateRef : Option Utf16 := none
  createdAt : Utf16
  updatedAt : Utf16
  deriving DecidableEq

/-- Source: `ZelavisEdgeRouteProtocol`. -/
inductive Protocol where
  /-- `"http"`. -/
  | http
  /-- `"websocket"`. -/
  | websocket
  /-- `"sse"`. -/
  | sse
  /-- `"grpc"`. -/
  | grpc
  deriving DecidableEq

/-- Source: `ZelavisEdgeRouteTarget`. -/
structure Target where
  url : Utf16
  weight : ℕ
  placementGeneration : Option ℕ := none
  nodeId : Option Utf16 := none
  deriving DecidableEq

/-- Source: `ZelavisEdgeHealthCheckPolicy`. -/
structure HealthCheckPolicy where
  path : Utf16
  intervalMs : ℕ
  timeoutMs : ℕ
  unhealthyThreshold : ℕ
  healthyThreshold : ℕ
  deriving DecidableEq

/-- Whether a route matches a path or all that begin with it. -/
inductive PathMatch where
  /-- `"prefix"`. -/
  | beginning
  /-- `"exact"`. -/
  | exact
  deriving DecidableEq

/-- Source: `ZelavisEdgeRoute`. -/
structure Route where
  id : Utf16
  scope : Scope
  projectId : Option Utf16 := none
  hostname : Utf16
  pathPrefix : Utf16
  pathMatch : PathMatch
  targets : List Target
  protocols : List Protocol
  timeoutMs : Option ℕ := none
  maxRequestBodyBytes : Option ℕ := none
  healthCheck : Option HealthCheckPolicy := none
  priority : ℤ
  createdAt : Utf16
  updatedAt : Utf16
  deriving DecidableEq

/-! ## What a publication says -/

/-- What a proxy may have to do, in the order of their names. Source: `index.ts`
`ZelavisEdgeCapability`. -/
inductive Capability where
  /-- `"active-health-checks"`. -/
  | activeHealthChecks
  /-- `"certificate-hot-reload"`. -/
  | certificateHotReload
  /-- `"http"`. -/
  | http
  /-- `"https"`. -/
  | https
  /-- `"sse"`. -/
  | sse
  /-- `"websocket"`. -/
  | websocket
  /-- `"weighted-targets"`. -/
  | weightedTargets
  deriving DecidableEq

def Capability.all : List Capability :=
  [.activeHealthChecks, .certificateHotReload, .http, .https, .sse, .websocket, .weightedTargets]

def Route.isWeighted (route : Route) : Bool :=
  1 < route.targets.length && 1 < ((route.targets.map Target.weight).eraseDups).length

def asksFor (routes : List Route) (hostnames : List Hostname) : Capability → Bool
  | .activeHealthChecks => routes.any fun route => route.healthCheck.isSome
  | .certificateHotReload => hostnames.any fun hostname => hostname.tlsMode = .managed
  | .http => routes ≠ []
  | .https => hostnames.any fun hostname => hostname.tlsMode = .managed || hostname.tlsMode = .external
  | .sse => routes.any fun route => route.protocols.contains .sse
  | .websocket => routes.any fun route => route.protocols.contains .websocket
  | .weightedTargets => routes.any Route.isWeighted

def deriveEdgeCapabilities (routes : List Route) (hostnames : List Hostname) : List Capability :=
  Capability.all.filter (asksFor routes hostnames)

def certificateRefs (hostnames : List Hostname) : List Utf16 :=
  ((hostnames.filterMap Hostname.certificateRef).eraseDups).insertionSort fun a b => a ≤ b

/-- A snapshot of all routes and hostnames. Source: `ZelavisEdgeCompiledPublication`. -/
structure Publication where
  revision : ℕ
  compiledAt : Utf16
  hostnames : List Hostname
  routes : List Route
  requiredCapabilities : List Capability
  certificateRefs : List Utf16
  routeCount : ℕ
  deriving DecidableEq

def compiled (revision : ℕ) (compiledAt : Utf16) (hostnames : List Hostname) (routes : List Route) :
    Publication where
  revision := revision
  compiledAt := compiledAt
  hostnames := hostnames
  routes := routes
  requiredCapabilities := deriveEdgeCapabilities routes hostnames
  certificateRefs := Edge.certificateRefs hostnames
  routeCount := routes.length

/-! ## Listings -/

/-- Routes by priority, the highest first, and by id among equals; `localeCompare` compares two ids.
Source: `listRoutes`. -/
def sortRoutes (localeCompare : Utf16 → Utf16 → ℤ) (routes : List Route) : List Route :=
  routes.insertionSort fun a b =>
    (if a.priority ≠ b.priority then b.priority - a.priority else localeCompare a.id b.id) ≤ 0

end Zelavis.Edge
