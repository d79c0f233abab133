import Zelavis.Edge.Routes
import Mathlib.Data.List.DropRight

/-!
# Compiling a publication to a Traefik configuration

`traefik-compiler.ts`: one service and one or two routers for each route, under names made of the
route's scope and id. What is read of the result is its configuration; the files it is written to and
their hash are left out.
-/

namespace Zelavis.Edge

open Lib

/-! ## The configuration -/

/-- Source: `CompileTraefikOptions`. -/
structure CompileTraefikOptions where
  generation : Option Utf16 := none
  certificateDirectory : Option Utf16 := none
  http : Option Utf16 := none
  https : Option Utf16 := none
  redirectHttpToHttps : Option Bool := none

/-- Source: `TraefikRouterConfig`. -/
structure TraefikRouterConfig where
  entryPoints : List Utf16
  rule : Utf16
  service : Utf16
  priority : Option ℤ := none
  middlewares : List Utf16 := []
  tls : Bool := false
  deriving DecidableEq

/-- Source: `TraefikServiceServer`. -/
structure TraefikServiceServer where
  url : Utf16
  weight : Option ℕ
  deriving DecidableEq

/-- The `healthCheck` of a `TraefikServiceConfig`. -/
structure TraefikHealthCheck where
  path : Utf16
  interval : Utf16
  timeout : Utf16
  deriving DecidableEq

/-- Source: `TraefikServiceConfig`. -/
structure TraefikServiceConfig where
  servers : List TraefikServiceServer
  healthCheck : Option TraefikHealthCheck
  deriving DecidableEq

/-- Source: `TraefikMiddlewareConfig`. -/
inductive TraefikMiddlewareConfig where
  | redirectScheme (scheme : Utf16)
  | buffering (maxRequestBodyBytes : ℕ)
  deriving DecidableEq

/-- Source: `TraefikTlsCertificate`. -/
structure TraefikTlsCertificate where
  certFile : Utf16
  keyFile : Utf16
  deriving DecidableEq

/-- Source: `TraefikDynamicConfiguration`; objects are sorted by their keys. -/
structure TraefikDynamicConfiguration where
  routers : OrderedMap Utf16 TraefikRouterConfig := .empty
  services : OrderedMap Utf16 TraefikServiceConfig := .empty
  middlewares : OrderedMap Utf16 TraefikMiddlewareConfig := .empty
  certificates : List TraefikTlsCertificate := []

/-- Source: `TraefikCompiledGeneration`. -/
structure TraefikCompiledGeneration where
  generation : Utf16
  revision : ℕ
  configuration : TraefikDynamicConfiguration
  requiredCapabilities : List Capability

/-! ## Names and rules -/

/-- `[a-zA-Z0-9_-]`. -/
def isIdentifierUnit (c : CodeUnit) : Bool :=
  0x61 ≤ c && c ≤ 0x7A || 0x41 ≤ c && c ≤ 0x5A || 0x30 ≤ c && c ≤ 0x39 || c = 0x5F || c = 0x2D

/-- Source: `sanitizeIdentifier`. -/
def sanitizeIdentifier (id : Utf16) : Utf16 :=
  id.map fun c => if isIdentifierUnit c then c else 0x5F

/-- Source: `buildTraefikRule`. -/
def buildTraefikRule (route : Route) : Utf16 :=
  if route.hostname = utf16 "*" then utf16 "PathPrefix(`/`)"
  else
    let hostRule := utf16 "Host(`" ++ route.hostname ++ utf16 "`)"
    if route.pathPrefix = utf16 "/" then hostRule
    else if route.pathMatch = .exact then
      hostRule ++ utf16 " && Path(`" ++ route.pathPrefix ++ utf16 "`)"
    else hostRule ++ utf16 " && PathPrefix(`" ++ route.pathPrefix ++ utf16 "`)"

def Scope.text : Scope → Utf16
  | .platform => utf16 "platform"
  | .project => utf16 "project"

def Route.scoped (route : Route) : Utf16 :=
  route.scope.text ++ utf16 "_" ++ sanitizeIdentifier route.id

def serviceName (route : Route) : Utf16 := utf16 "svc_" ++ route.scoped

/-- Which of a route's routers. -/
inductive RouterKind where
  | https
  | redirect
  | http
  deriving DecidableEq

def RouterKind.suffix : RouterKind → Utf16
  | .https => utf16 "_https"
  | .redirect => utf16 "_redirect"
  | .http => utf16 "_http"

def routerName (route : Route) (kind : RouterKind) : Utf16 :=
  utf16 "router_" ++ route.scoped ++ kind.suffix

/-! ## One route -/

def milliseconds (n : ℕ) : Utf16 := utf16 n.repr ++ utf16 "ms"

def serviceOf (route : Route) : TraefikServiceConfig where
  servers := route.targets.map fun target =>
    ⟨target.url, if 1 < route.targets.length then some target.weight else none⟩
  healthCheck := route.healthCheck.map fun check =>
    ⟨check.path, milliseconds check.intervalMs, milliseconds check.timeoutMs⟩

def bufferMiddlewareName (route : Route) : Utf16 :=
  utf16 "middleware_buffer_" ++ sanitizeIdentifier route.id

def redirectMiddlewareName : Utf16 := utf16 "middleware_redirect_https"

section

variable (options : CompileTraefikOptions) (publication : Publication) (route : Route)

def CompileTraefikOptions.httpEntryPoint : Utf16 := options.http.getD (utf16 "web")

def CompileTraefikOptions.httpsEntryPoint : Utf16 := options.https.getD (utf16 "websecure")

def CompileTraefikOptions.redirects : Bool := options.redirectHttpToHttps ≠ some false

def hostnameConfig : Option Hostname :=
  publication.hostnames.reverse.find? fun hostname => hostname.host = route.hostname

def isAcmeChallenge : Bool := (utf16 "/.well-known/acme-challenge").isPrefixOf route.pathPrefix

def hasTls : Bool :=
  !isAcmeChallenge route && (hostnameConfig publication route).any fun hostname =>
    hostname.tlsMode = .managed || hostname.tlsMode = .external

def hasFallback : Bool := publication.routes.any fun route => route.hostname = utf16 "*"

/-- The priority of a route's routers. The fallback is below every explicit host route, including
priority 1. -/
def routerPriority : ℤ :=
  if route.hostname = utf16 "*" then 1
  else if hasFallback publication && 0 < route.priority then route.priority + 1
  else route.priority

def routerKinds : List RouterKind :=
  if hasTls publication route then
    if options.redirects then [.https, .redirect] else [.https]
  else [.http]

def routerOf (kind : RouterKind) : TraefikRouterConfig where
  entryPoints := [if kind = .https then options.httpsEntryPoint else options.httpEntryPoint]
  rule := buildTraefikRule route
  service := serviceName route
  priority :=
    if routerPriority publication route ≠ 0 then some (routerPriority publication route) else none
  middlewares :=
    if kind = .redirect then [redirectMiddlewareName]
    else if route.maxRequestBodyBytes.isSome then [bufferMiddlewareName route]
    else []
  tls := kind = .https

/-- The routers, services and middlewares made so far, with a route's among them. -/
def compileRoute (made : TraefikDynamicConfiguration) : TraefikDynamicConfiguration where
  routers := (routerKinds options publication route).foldl
    (fun routers kind =>
      routers.insert (routerName route kind) (routerOf options publication route kind)) made.routers
  services := made.services.insert (serviceName route) (serviceOf route)
  middlewares := route.maxRequestBodyBytes.elim made.middlewares fun bytes =>
    made.middlewares.insert (bufferMiddlewareName route) (.buffering bytes)
  certificates := made.certificates

end

/-! ## The compiler -/

/-- Source: `TRAEFIK_SUPPORTED_CAPABILITIES`, of those a publication can ask
for. -/
def TRAEFIK_SUPPORTED_CAPABILITIES : List Capability :=
  [.http, .https, .websocket, .sse, .weightedTargets, .activeHealthChecks, .certificateHotReload]

def certificateFiles (directory reference : Utf16) : TraefikTlsCertificate :=
  let stem := directory ++ utf16 "/" ++ sanitizeIdentifier reference
  ⟨stem ++ utf16 ".crt", stem ++ utf16 ".key"⟩

section

variable (localeCompare : Utf16 → Utf16 → ℤ) (options : CompileTraefikOptions)
  (publication : Publication)

/-- Source: `TraefikCompiledGeneration`, its `configuration`. -/
def configurationOf : TraefikDynamicConfiguration :=
  let made := publication.routes.foldl
    (fun made route => compileRoute options publication route made) {}
  let needsRedirectMiddleware := publication.routes.any fun route =>
    (routerKinds options publication route).contains .redirect
  let directory := (options.certificateDirectory.getD (utf16 "/var/lib/zelavis/edge/traefik/certs"))
    |>.rdropWhile (· = 0x2F)
  { made with
    middlewares :=
      if needsRedirectMiddleware then
        made.middlewares.insert redirectMiddlewareName (.redirectScheme (utf16 "https"))
      else made.middlewares
    certificates := (publication.certificateRefs.map (certificateFiles directory)).insertionSort
      fun a b => localeCompare a.certFile b.certFile ≤ 0 }

/-- A publication compiled, or the first capability Traefik has not. Source: `compileTraefikPublication`. -/
def compileTraefikPublication : Except Capability TraefikCompiledGeneration :=
  match publication.requiredCapabilities.find? fun cap => !TRAEFIK_SUPPORTED_CAPABILITIES.contains cap with
  | some cap => .error cap
  | none => .ok
    { generation := options.generation.getD (utf16 "rev-" ++ utf16 publication.revision.repr)
      revision := publication.revision
      configuration := configurationOf localeCompare options publication
      requiredCapabilities := publication.requiredCapabilities }

end

/-! ## What is in a configuration -/

variable {localeCompare : Utf16 → Utf16 → ℤ} {options : CompileTraefikOptions}
  {publication : Publication}

lemma compileTraefikPublication_eq_ok : compileTraefikPublication localeCompare options publication = .ok
      { generation := options.generation.getD (utf16 "rev-" ++ utf16 publication.revision.repr)
        revision := publication.revision, configuration := configurationOf localeCompare options publication
        requiredCapabilities := publication.requiredCapabilities } := by
  have hall : ∀ cap : Capability, TRAEFIK_SUPPORTED_CAPABILITIES.contains cap = true := by
    intro cap
    cases cap <;> decide
  have hnone : (publication.requiredCapabilities.find? fun cap =>
      !TRAEFIK_SUPPORTED_CAPABILITIES.contains cap) = none := by
    rw [List.find?_eq_none]
    intro cap _
    rw [hall]
    decide
  rw [compileTraefikPublication, hnone]

def serviceWrites (routes : List Route) : List (OrderedMap.Write Utf16 TraefikServiceConfig) :=
  routes.map fun route => .put (serviceName route) (serviceOf route)

def routerWrites (options : CompileTraefikOptions) (publication : Publication)
    (routes : List Route) : List (OrderedMap.Write Utf16 TraefikRouterConfig) :=
  routes.flatMap fun route => (routerKinds options publication route).map fun kind =>
    .put (routerName route kind) (routerOf options publication route kind)

lemma services_foldl (routes : List Route) (made : TraefikDynamicConfiguration) :
    (routes.foldl (fun made route => compileRoute options publication route made) made).services =
      made.services.apply (serviceWrites routes) := by
  induction routes generalizing made with
  | nil => rfl
  | cons route routes ih =>
    rw [List.foldl_cons, ih]
    rfl

lemma routers_foldl (routes : List Route) (made : TraefikDynamicConfiguration) :
    (routes.foldl (fun made route => compileRoute options publication route made) made).routers =
      made.routers.apply (routerWrites options publication routes) := by
  induction routes generalizing made with
  | nil => rfl
  | cons route routes ih =>
    have hwrites : routerWrites options publication (route :: routes) =
        (routerKinds options publication route).map (fun kind =>
          .put (routerName route kind) (routerOf options publication route kind)) ++
        routerWrites options publication routes := List.flatMap_cons
    rw [List.foldl_cons, ih, hwrites, OrderedMap.apply, OrderedMap.apply, List.foldl_append, List.foldl_map]
    rfl

lemma services_configurationOf : (configurationOf localeCompare options publication).services =
      OrderedMap.empty.apply (serviceWrites publication.routes) :=
  services_foldl publication.routes {}

lemma routers_configurationOf : (configurationOf localeCompare options publication).routers =
      OrderedMap.empty.apply (routerWrites options publication publication.routes) :=
  routers_foldl publication.routes {}

/-! ## Whose a name is -/

variable {a b : Route}

lemma scoped_inj :
    a.scoped = b.scoped ↔ a.scope = b.scope ∧ sanitizeIdentifier a.id = sanitizeIdentifier b.id := by
  unfold Route.scoped
  constructor
  · intro h
    cases ha : a.scope <;> cases hb : b.scope <;> rw [ha, hb] at h
    · exact ⟨rfl, List.append_cancel_left h⟩
    · exact absurd (congrArg (List.take 3) h) (by simp [Scope.text, utf16])
    · exact absurd (congrArg (List.take 3) h) (by simp [Scope.text, utf16])
    · exact ⟨rfl, List.append_cancel_left h⟩
  · rintro ⟨hscope, hid⟩
    rw [hscope, hid]

lemma serviceName_inj : serviceName a = serviceName b ↔ a.scoped = b.scoped :=
  List.append_cancel_left_eq _ _ _ |>.to_iff

lemma getLast?_routerName (route : Route) (kind : RouterKind) :
    (routerName route kind).getLast? = kind.suffix.getLast? := by
  rw [routerName, List.getLast?_append]
  cases kind <;> rfl

variable {k l : RouterKind}

lemma suffix_inj (h : k.suffix.getLast? = l.suffix.getLast?) : k = l := by
  cases k <;> cases l <;> first | rfl | exact absurd h (by decide)

lemma routerName_inj : routerName a k = routerName b l ↔ a.scoped = b.scoped ∧ k = l := by
  unfold routerName
  constructor
  · intro h
    have hlast : (routerName a k).getLast? = (routerName b l).getLast? := congrArg List.getLast? h
    rw [getLast?_routerName, getLast?_routerName] at hlast
    obtain rfl := suffix_inj hlast
    exact ⟨List.append_cancel_left (List.append_cancel_right h), rfl⟩
  · rintro ⟨hscoped, rfl⟩
    rw [hscoped]

end Zelavis.Edge
