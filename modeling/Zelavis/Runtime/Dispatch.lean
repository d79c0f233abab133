import Zelavis.Db.Json
import Zelavis.Lib.UriComponent
import Zelavis.Runtime.RequestDispatcher

/-!
# Dispatching

`request-dispatcher.ts`: a route is selected and executed, what is thrown while it is executed becomes a
response, and what no route is for is not found.
-/

namespace Zelavis.Runtime

open Lib Db List

/-! ## Responses -/

/-- What is thrown: by what is mounted, or by the language. -/
inductive Thrown (E : Type) where
  | mounted (error : E)
  | uri
  | type
  | range
  deriving DecidableEq

/-- A body. -/
inductive Body where
  | absent
  | raw (content : Utf16)
  | json (value : Json)
  | unserializable

/-- What a handler answers. Source: `contracts.ts` `ZelavisRouteResponse`. -/
structure Payload where
  status : Option ℕ := none
  headers : List (Utf16 × Utf16) := []
  body : Body := .absent

/-- What is sent. -/
structure Response where
  status : ℕ
  headers : List (Utf16 × Utf16)
  body : Body

/-- Source: `BODYLESS_RESPONSE_STATUSES`. -/
def BODYLESS_RESPONSE_STATUSES : List ℕ := [101, 103, 204, 205, 304]

/-- Source: `canResponseHaveBody`. -/
def canResponseHaveBody (status : ℕ) : Bool := status ∉ BODYLESS_RESPONSE_STATUSES

def isTokenUnit (u : CodeUnit) : Bool :=
  (0x30 ≤ u.val ∧ u.val ≤ 0x39) ∨ (0x41 ≤ u.val ∧ u.val ≤ 0x5a) ∨ (0x5e ≤ u.val ∧ u.val ≤ 0x7a) ∨
    u ∈ utf16 "!#$%&'*+-.|~"

/-- A header that can be set: a name, and a value of bytes without an end of line. -/
def isHeader (header : Utf16 × Utf16) : Bool :=
  header.1 ≠ [] ∧ header.1.all isTokenUnit ∧
    header.2.all fun u => u.val ≤ 0xff ∧ u.val ≠ 0 ∧ u.val ≠ 0xa ∧ u.val ≠ 0xd

def lowerUnit (u : CodeUnit) : CodeUnit := if 0x41 ≤ u.val ∧ u.val ≤ 0x5a then u + 0x20 else u

/-- Source: `new Headers`. -/
def headersOf {E : Type} (headers : List (Utf16 × Utf16)) : Except (Thrown E) (List (Utf16 × Utf16)) :=
  if headers.all isHeader then .ok (headers.map fun header => (header.1.map lowerUnit, header.2))
  else .error .type

def withoutHeader (headers : List (Utf16 × Utf16)) (name : Utf16) : List (Utf16 × Utf16) :=
  headers.filter fun header => header.1 ≠ name

/-- Source: `new Response`; a status is one of a final response. -/
def newResponse {E : Type} (body : Body) (status : ℕ) (headers : List (Utf16 × Utf16)) :
    Except (Thrown E) Response :=
  if 200 ≤ status ∧ status ≤ 599 then .ok ⟨status, headers, body⟩ else .error .range

/-- Source: `toResponse`. -/
def toResponse {E : Type} (payload : Payload) : Except (Thrown E) Response := do
  let headers ← headersOf payload.headers
  let status := payload.status.getD 200
  let bare := withoutHeader (withoutHeader headers (utf16 "content-length")) (utf16 "transfer-encoding")
  if canResponseHaveBody status then
    match payload.body with
    | .absent => newResponse .absent status bare
    | .raw content => newResponse (.raw content) status headers
    | .json value =>
      let headers := if headers.any fun header => header.1 = utf16 "content-type" then headers
        else headers ++ [(utf16 "content-type", utf16 "application/json; charset=utf-8")]
      newResponse (.json value) status headers
    | .unserializable => .error .type
  else newResponse .absent status (withoutHeader bare (utf16 "content-type"))

def errorPayload (status : ℕ) (members : JsonObject) : Payload where
  status := some status
  body := .json (.object members)

/-- Source: `notFoundResponse`. -/
def notFoundResponse : Payload := errorPayload 404 [(utf16 "error", .string (utf16 "Not found"))]

/-! ## What is mounted -/

/-- What the routes are mounted with, in so far as a dispatch depends on it. -/
structure Mount (H E : Type) where
  /-- The access check of a route: nothing where it is allowed, and otherwise what it is refused with.
  Source: `checkRouteAccess`. -/
  checkRouteAccess : Route H → Request → Params → Except (Thrown E) (Option Payload)
  handle : H → Request → Params → Except (Thrown E) Payload
  /-- The hook for what is thrown. Source: `contracts.ts` `onError`. -/
  onError : Option (Thrown E → Route H → Except (Thrown E) (Option Payload))
  /-- Source: `ZelavisRequestBodyTooLargeError`, its message. -/
  tooLarge : Thrown E → Option Utf16
  /-- Source: `error-policy.ts` `publicErrorMessage`. -/
  publicErrorMessage : Thrown E → Option Utf16
  /-- Source: `error-policy.ts` `createErrorCorrelationId`. -/
  correlationId : Utf16

/-- What a request comes to. -/
structure Dispatched (H : Type) where
  matched : Bool
  response : Response
  resolvedRoute : Option (Route H)

section

variable {H E : Type} (m : Mount H E)

/-- Source: `defaultErrorResponse`. -/
def defaultErrorResponse (error : Thrown E) : Payload :=
  match m.tooLarge error with
  | some message => errorPayload 413 [(utf16 "error", .string message)]
  | none =>
    match m.publicErrorMessage error with
    | some message => errorPayload 500 [(utf16 "error", .string message)]
    | none => errorPayload 500 [(utf16 "error", .string (utf16 "The request could not be completed.")),
      (utf16 "correlationId", .string m.correlationId)]

/-- Source: `executeResolvedRoute`, the region whose failures are caught. -/
def respond (route : Route H) (request : Request) (params : Params) : Except (Thrown E) Response := do
  match ← m.checkRouteAccess route request params with
  | some payload => toResponse payload
  | none => toResponse (← m.handle route.handler request params)

/-- Source: `executeResolvedRoute`. -/
def executeResolvedRoute (route : Route H) (request : Request) (params : Params) :
    Except (Thrown E) (Dispatched H) :=
  match respond m route request params with
  | .ok response => .ok ⟨true, response, some route⟩
  | .error error => do
    let answered ← match m.onError with
      | some hook => hook error route
      | none => .ok none
    let response ← toResponse (answered.getD (defaultErrorResponse m error))
    return ⟨true, response, some route⟩

/-- Source: `createZelavisDispatcher`. -/
def dispatch (S : Strings) (routes : List (Route H)) (request : Request) :
    Except (Thrown E) (Dispatched H) :=
  match select S request routes with
  | .error .uri => .error .uri
  | .ok (some found) => executeResolvedRoute m found.route request found.params
  | .ok none => (toResponse notFoundResponse).map fun response => ⟨false, response, none⟩

def Mount.Steady : Prop :=
  ∀ hook, m.onError = some hook → ∀ error route, ∃ answered, hook error route = .ok answered ∧
    ∀ payload, answered = some payload → ∃ response, toResponse payload = (.ok response : Except (Thrown E) _)

end

/-! ## Parts that are decoded -/

/-- The parts of a path that a pattern decodes: those it captures before the first that differs. -/
def captured : List Utf16 → List Utf16 → List Utf16
  | [], _ => []
  | patternPart :: pattern, parts =>
    if isWildcard patternPart then parts
    else
      match parts with
      | [] => []
      | part :: parts =>
        if isParam patternPart then part :: captured pattern parts
        else if patternPart ≠ part then []
        else captured pattern parts

/-- A path has as many parts as a pattern, or at least as many as precede its wildcard, which is its last
part. -/
def fits (pattern pathname : Utf16) : Bool :=
  match (splitPath pattern).findIdx? isWildcard with
  | some wildcardIndex =>
    wildcardIndex = (splitPath pattern).length - 1 ∧ wildcardIndex ≤ (splitPath pathname).length
  | none => (splitPath pattern).length = (splitPath pathname).length

section

variable {H : Type}

def isTried (S : Strings) (request : Request) (route : Route H) : Bool :=
  (route.method = methodOf S request ∨ (methodOf S request = utf16 "HEAD" ∧ route.method = utf16 "GET")) ∧
    (matchRouteHost S route.host (hostOf S request)).isSome

/-- Every part of the path that a route for the method and the host of the request captures, before a part
of its pattern that differs, is an encoded text. -/
def Legible (S : Strings) (routes : List (Route H)) (request : Request) : Prop :=
  ∀ route ∈ routes, isTried S request route = true → fits route.fullPath request.pathname = true →
    ∀ part ∈ captured (splitPath route.fullPath) (splitPath request.pathname),
      (S.decodeURIComponent part).isSome = true

end

/-! ## Parameters -/

def captureName (patternPart : Utf16) : Option Utf16 :=
  if isWildcard patternPart then some (wildcardName patternPart)
  else if isParam patternPart then some patternPart.tail
  else none

/-- What is read of a parameter: what was set last. A member of this name is that of no object. -/
def Params.own (params : Params) (name : Utf16) : Option Utf16 :=
  if name = utf16 "__proto__" then none
  else (params.reverse.find? fun param => param.1 = name).map Prod.snd

/-- A pattern captures a value under a name: the last part of it with that name captures a part of the path
that the value is the decoding of, or the rest of the path, of whose parts it is. -/
inductive Captures (S : Strings) (name value : Utf16) : List Utf16 → List Utf16 → Prop where
  | rest {patternPart : Utf16} {pattern parts decoded : List Utf16} (hwildcard : isWildcard patternPart = true)
      (hname : wildcardName patternPart = name) (hdecoded : decodeAll S parts = .ok decoded)
      (hvalue : value = [SLASH].intercalate decoded) : Captures S name value (patternPart :: pattern) parts
  | part {patternPart part : Utf16} {pattern parts : List Utf16} (hwildcard : isWildcard patternPart = false)
      (hparam : isParam patternPart = true) (hname : patternPart.tail = name)
      (hdecoded : S.decodeURIComponent part = some value)
      (hlast : ∀ later ∈ pattern, captureName later ≠ some name) :
      Captures S name value (patternPart :: pattern) (part :: parts)
  | later {patternPart part : Utf16} {pattern parts : List Utf16} (hwildcard : isWildcard patternPart = false)
      (h : Captures S name value pattern parts) : Captures S name value (patternPart :: pattern) (part :: parts)

/-! ## When a response is produced -/

section

variable {H E : Type}

/-- A request is answered, and every parameter of the route that is selected is the decoding of what its
pattern captures under its name. -/
structure Total (S : Strings) (m : Mount H E) (routes : List (Route H)) (request : Request) : Prop where
  responds : ∃ dispatched, dispatch m S routes request = .ok dispatched
  faithful : ∀ {found : Matched H} {name value : Utf16}, select S request routes = .ok (some found) →
    found.params.own name = some value →
    Captures S name value (splitPath found.route.fullPath) (splitPath request.pathname)

end

variable {name value : Utf16}

section

variable {S : Strings} {pattern parts : List Utf16} {params : Params}

lemma decodeAll_cons (S : Strings) (part : Utf16) (parts : List Utf16) : decodeAll S (part :: parts) =
      (S.decodeURIComponent part).elim (.error .uri) fun decoded => (decodeAll S parts).map (decoded :: ·) := by
  unfold decodeAll
  rw [mapM_cons]
  cases S.decodeURIComponent part with
  | none | some => rfl

lemma decodeAll_eq_ok : (∃ decoded, decodeAll S parts = .ok decoded) ↔
    ∀ part ∈ parts, (S.decodeURIComponent part).isSome = true := by
  induction parts with
  | nil => exact ⟨fun _ part h => (not_mem_nil h).elim, fun _ => ⟨[], rfl⟩⟩
  | cons part parts ih =>
    rw [forall_mem_cons, ← ih, decodeAll_cons]
    cases S.decodeURIComponent part with
    | none =>
      refine ⟨fun ⟨_, h⟩ => ?_, fun ⟨h, _⟩ => ?_⟩
      · cases h
      · cases h
    | some decoded =>
      refine ⟨fun ⟨all, h⟩ => ⟨rfl, ?_⟩, fun ⟨_, rest, h⟩ => ⟨decoded :: rest, ?_⟩⟩
      · cases hrest : decodeAll S parts with
        | error fault =>
          rw [hrest] at h
          cases h
        | ok rest => exact ⟨rest, rfl⟩
      · rw [h]
        rfl

lemma matchParts_eq_ok : (∃ found, matchParts S pattern parts params = .ok found) ↔
    ∀ part ∈ captured pattern parts, (S.decodeURIComponent part).isSome = true := by
  induction pattern generalizing parts params with
  | nil => exact ⟨fun _ part h => (not_mem_nil h).elim, fun _ => ⟨some params, rfl⟩⟩
  | cons patternPart pattern ih =>
    rw [matchParts.eq_def, captured.eq_def]
    dsimp only
    by_cases hwildcard : isWildcard patternPart = true
    · rw [if_pos hwildcard, if_pos hwildcard, ← decodeAll_eq_ok]
      refine ⟨fun ⟨found, h⟩ => ?_, fun ⟨decoded, h⟩ => ⟨_, by rw [h]; rfl⟩⟩
      cases hdecoded : decodeAll S parts with
      | error fault =>
        rw [hdecoded] at h
        cases h
      | ok decoded => exact ⟨decoded, rfl⟩
    · rw [if_neg hwildcard, if_neg hwildcard]
      cases parts with
      | nil => exact ⟨fun _ part h => (not_mem_nil h).elim, fun _ => ⟨none, rfl⟩⟩
      | cons part parts =>
        dsimp only
        by_cases hparam : isParam patternPart = true
        · rw [if_pos hparam, if_pos hparam, forall_mem_cons]
          cases hdecoded : S.decodeURIComponent part with
          | none =>
            refine ⟨fun ⟨_, h⟩ => ?_, fun ⟨h, _⟩ => ?_⟩
            · cases h
            · cases h
          | some decoded => exact ih.trans ⟨fun h => ⟨rfl, h⟩, fun h => h.2⟩
        · rw [if_neg hparam, if_neg hparam]
          by_cases hne : patternPart ≠ part
          · rw [if_pos hne, if_pos hne]
            exact ⟨fun _ part h => (not_mem_nil h).elim, fun _ => ⟨none, rfl⟩⟩
          · rw [if_neg hne, if_neg hne]
            exact ih

lemma find_reverse_append (params : Params) (param : Utf16 × Utf16) (name : Utf16) :
    ((params ++ [param]).reverse.find? fun param => param.1 = name) =
      if param.1 = name then some param else params.reverse.find? fun param => param.1 = name := by
  rw [reverse_append, reverse_singleton, singleton_append, List.find?_cons]
  by_cases h : param.1 = name
  · rw [if_pos h, decide_eq_true h]
  · rw [if_neg h, decide_eq_false h]

lemma captures_of_matchParts {found : Params}
    (hlast : ∀ patternPart ∈ pattern.dropLast, isWildcard patternPart = false)
    (h : matchParts S pattern parts params = .ok (some found))
    (hfound : (found.reverse.find? fun param => param.1 = name).map Prod.snd = some value) :
    Captures S name value pattern parts ∨ (∀ patternPart ∈ pattern, captureName patternPart ≠ some name) ∧
      (params.reverse.find? fun param => param.1 = name).map Prod.snd = some value := by
  induction pattern generalizing parts params with
  | nil =>
    cases h
    exact .inr ⟨fun _ h => (not_mem_nil h).elim, hfound⟩
  | cons patternPart pattern ih =>
    rw [matchParts.eq_def] at h
    dsimp only at h
    by_cases hwildcard : isWildcard patternPart = true
    · -- a wildcard is the last part
      have hnil : pattern = [] := by
        cases pattern with
        | nil => rfl
        | cons next pattern =>
          rw [hlast patternPart (by rw [dropLast_cons₂]; exact mem_cons_self)] at hwildcard
          cases hwildcard
      subst hnil
      rw [if_pos hwildcard] at h
      cases hdecoded : decodeAll S parts with
      | error fault =>
        rw [hdecoded] at h
        cases h
      | ok decoded =>
        rw [hdecoded] at h
        cases h
        rw [find_reverse_append] at hfound
        by_cases hname : wildcardName patternPart = name
        · rw [if_pos hname] at hfound
          exact .inl (.rest hwildcard hname hdecoded (Option.some.inj hfound).symm)
        · rw [if_neg hname] at hfound
          refine .inr ⟨?_, hfound⟩
          rw [forall_mem_singleton, captureName, if_pos hwildcard]
          exact fun heq => hname (Option.some.inj heq)
    · rw [if_neg hwildcard] at h
      rw [Bool.not_eq_true] at hwildcard
      have hlast : ∀ patternPart ∈ pattern.dropLast, isWildcard patternPart = false := by
        intro next hnext
        refine hlast next ?_
        cases pattern with
        | nil => cases hnext
        | cons first pattern => exact mem_cons_of_mem _ hnext
      cases parts with
      | nil => cases h
      | cons part parts =>
        dsimp only at h
        by_cases hparam : isParam patternPart = true
        · rw [if_pos hparam] at h
          cases hdecoded : S.decodeURIComponent part with
          | none =>
            rw [hdecoded] at h
            cases h
          | some decoded =>
            rw [hdecoded] at h
            obtain hlater | ⟨hnone, hset⟩ := ih hlast h
            · exact .inl (.later hwildcard hlater)
            · rw [find_reverse_append] at hset
              by_cases hname : patternPart.tail = name
              · rw [if_pos hname] at hset
                cases hset
                exact .inl (.part hwildcard hparam hname hdecoded hnone)
              · rw [if_neg hname] at hset
                refine .inr ⟨?_, hset⟩
                rw [forall_mem_cons, captureName, if_neg (by rw [hwildcard]; decide), if_pos hparam]
                exact ⟨fun heq => hname (Option.some.inj heq), hnone⟩
        · rw [if_neg hparam] at h
          by_cases hne : patternPart ≠ part
          · rw [if_pos hne] at h
            cases h
          · rw [if_neg hne] at h
            obtain hlater | ⟨hnone, hset⟩ := ih hlast h
            · exact .inl (.later hwildcard hlater)
            · refine .inr ⟨?_, hset⟩
              rw [forall_mem_cons, captureName, if_neg (by rw [hwildcard]; decide), if_neg hparam]
              exact ⟨(Option.some_ne_none _).symm, hnone⟩

/-- A path matches, or not, where it fits the pattern; and fails where a part that is captured cannot be
decoded. -/
theorem matchPath_eq (S : Strings) (pattern pathname : Utf16) : matchPath S pattern pathname =
      if fits pattern pathname = true then matchParts S (splitPath pattern) (splitPath pathname) []
      else .ok none := by
  unfold matchPath fits
  dsimp only
  cases (splitPath pattern).findIdx? isWildcard with
  | none =>
    by_cases h : (splitPath pattern).length = (splitPath pathname).length
    · rw [if_neg (not_not.2 h), if_pos (decide_eq_true h)]
    · rw [if_pos h, if_neg fun heq => h (of_decide_eq_true heq)]
  | some wildcardIndex =>
    dsimp only
    by_cases hlast : wildcardIndex = (splitPath pattern).length - 1
    · by_cases hle : wildcardIndex ≤ (splitPath pathname).length
      · rw [if_neg (not_not.2 hlast), if_neg (not_lt.2 hle), if_pos (decide_eq_true ⟨hlast, hle⟩)]
      · rw [if_neg (not_not.2 hlast), if_pos (not_le.1 hle), if_neg fun heq => hle (of_decide_eq_true heq).2]
    · rw [if_pos hlast, if_neg fun heq => hlast (of_decide_eq_true heq).1]

lemma isWildcard_dropLast {pattern pathname : Utf16} (h : fits pattern pathname = true) :
    ∀ patternPart ∈ (splitPath pattern).dropLast, isWildcard patternPart = false := by
  unfold fits at h
  intro patternPart hmem
  cases hindex : (splitPath pattern).findIdx? isWildcard with
  | none => exact List.findIdx?_eq_none_iff.1 hindex patternPart (mem_of_mem_dropLast hmem)
  | some wildcardIndex =>
    rw [hindex] at h
    obtain ⟨hlast, -⟩ := of_decide_eq_true h
    obtain ⟨hlt, -, hbefore⟩ := List.findIdx?_eq_some_iff_getElem.1 hindex
    obtain ⟨j, hj, rfl⟩ := mem_iff_getElem.1 hmem
    rw [getElem_dropLast]
    rw [length_dropLast] at hj
    exact Bool.not_eq_true _ ▸ hbefore j (hlast ▸ hj)

end

section

variable {H E : Type} {S : Strings} {m : Mount H E} {routes : List (Route H)} {request : Request}

lemma answer_eq (S : Strings) (request : Request) (route : Route H) : answer S request route =
      if isTried S request route = true ∧ fits route.fullPath request.pathname = true then
        (matchParts S (splitPath route.fullPath) (splitPath request.pathname) []).map fun params =>
          params.map fun params => ⟨route, params,
            scoreMatchedPath route.fullPath + (matchRouteHost S route.host (hostOf S request)).getD 0⟩
      else .ok none := by
  unfold answer isTried
  rw [matchPath_eq]
  by_cases hmethod : route.method = methodOf S request ∨
      (methodOf S request = utf16 "HEAD" ∧ route.method = utf16 "GET")
  · rw [if_neg (by rw [← not_or]; exact not_not.2 hmethod)]
    cases hhost : matchRouteHost S route.host (hostOf S request) with
    | none =>
      dsimp only
      rw [if_neg]
      rintro ⟨htried, -⟩
      cases (of_decide_eq_true htried).2
    | some hostMatch =>
      rw [decide_eq_true ⟨hmethod, rfl⟩, Option.getD_some]
      by_cases hfits : fits route.fullPath request.pathname = true
      · rw [if_pos hfits, if_pos ⟨rfl, hfits⟩]
      · rw [if_neg hfits, if_neg fun h => hfits h.2]
        rfl
  · rw [if_pos (not_or.1 hmethod), if_neg]
    rintro ⟨htried, -⟩
    exact hmethod (of_decide_eq_true htried).1

lemma select_eq_ok : (∃ found, select S request routes = .ok found) ↔ Legible S routes request := by
  have hanswer : ∀ route : Route H, (∃ found, answer S request route = .ok found) ↔
      (isTried S request route = true → fits route.fullPath request.pathname = true →
        ∀ part ∈ captured (splitPath route.fullPath) (splitPath request.pathname),
          (S.decodeURIComponent part).isSome = true) := by
    intro route
    rw [answer_eq]
    by_cases h : isTried S request route = true ∧ fits route.fullPath request.pathname = true
    · rw [if_pos h, forall_prop_of_true h.1, forall_prop_of_true h.2,
        ← @matchParts_eq_ok S (splitPath route.fullPath) (splitPath request.pathname) []]
      refine ⟨fun ⟨found, hfound⟩ => ?_, fun ⟨found, hfound⟩ => ⟨_, by rw [hfound]; rfl⟩⟩
      cases hmatch : matchParts S (splitPath route.fullPath) (splitPath request.pathname) [] with
      | error fault =>
        rw [hmatch] at hfound
        cases hfound
      | ok found => exact ⟨found, rfl⟩
    · rw [if_neg h]
      exact ⟨fun _ htried hfits => absurd ⟨htried, hfits⟩ h, fun _ => ⟨none, rfl⟩⟩
  obtain ⟨hlegible, heq⟩ | ⟨⟨route, hmem, fault, hfault⟩, fault', heq⟩ := select_eq S request routes
  · exact ⟨fun _ route hmem => (hanswer route).1 (hlegible route hmem), fun _ => ⟨_, heq⟩⟩
  · refine ⟨fun ⟨found, hfound⟩ => ?_, fun hlegible => ?_⟩
    · rw [heq] at hfound
      cases hfound
    · obtain ⟨found, hfound⟩ := (hanswer route).2 (hlegible route hmem)
      rw [hfault] at hfound
      cases hfound

lemma captures_of_select {found : Matched H}
    (h : select S request routes = .ok (some found)) (hown : found.params.own name = some value) :
    Captures S name value (splitPath found.route.fullPath) (splitPath request.pathname) := by
  obtain ⟨hmax, -⟩ := firstMax_of_select h
  obtain ⟨route, -, hanswer⟩ := mem_filterMap.1 hmax.mem
  rw [answer_eq] at hanswer
  split_ifs at hanswer with hcond
  · cases hmatch : matchParts S (splitPath route.fullPath) (splitPath request.pathname) [] with
    | error fault =>
      rw [hmatch] at hanswer
      cases hanswer
    | ok params =>
      rw [hmatch] at hanswer
      cases params with
      | none => cases hanswer
      | some params =>
        cases hanswer
        unfold Params.own at hown
        split_ifs at hown
        obtain hcaptures | ⟨-, hnone⟩ :=
          captures_of_matchParts (isWildcard_dropLast hcond.2) hmatch hown
        · exact hcaptures
        · cases hnone
  · cases hanswer

lemma toResponse_errorPayload (status : ℕ) (members : JsonObject) (hbody : canResponseHaveBody status = true)
    (hle : 200 ≤ status) (hle' : status ≤ 599) :
    ∃ response, toResponse (errorPayload status members) = (.ok response : Except (Thrown E) _) := by
  have heq : toResponse (errorPayload status members) =
      (if canResponseHaveBody status = true then newResponse (.json (.object members)) status
          [(utf16 "content-type", utf16 "application/json; charset=utf-8")]
        else newResponse .absent status [] : Except (Thrown E) Response) := rfl
  rw [heq, if_pos hbody, newResponse, if_pos ⟨hle, hle'⟩]
  exact ⟨_, rfl⟩

lemma toResponse_defaultErrorResponse (m : Mount H E) (error : Thrown E) :
    ∃ response, toResponse (defaultErrorResponse m error) = (.ok response : Except (Thrown E) _) := by
  unfold defaultErrorResponse
  cases m.tooLarge error with
  | some message => exact toResponse_errorPayload _ _ (by decide) (by decide) (by decide)
  | none =>
    cases m.publicErrorMessage error with
    | some | none => exact toResponse_errorPayload _ _ (by decide) (by decide) (by decide)

lemma executeResolvedRoute_eq_ok (hm : m.Steady) (route : Route H) (params : Params) :
    ∃ dispatched, executeResolvedRoute m route request params = .ok dispatched := by
  unfold executeResolvedRoute
  cases respond m route request params with
  | ok response => exact ⟨_, rfl⟩
  | error error =>
    obtain ⟨fallback, hfallback⟩ := toResponse_defaultErrorResponse m error
    cases hhook : m.onError with
    | none => exact ⟨⟨true, fallback, some route⟩, by simp only [bind, Except.bind, Option.getD_none, hfallback]; rfl⟩
    | some hook =>
      obtain ⟨answered, hanswered, hbuilt⟩ := hm hook hhook error route
      cases answered with
      | none =>
        exact ⟨⟨true, fallback, some route⟩, by
          simp only [bind, Except.bind, hanswered, Option.getD_none, hfallback]; rfl⟩
      | some payload =>
        obtain ⟨response, hresponse⟩ := hbuilt payload rfl
        exact ⟨⟨true, response, some route⟩, by
          simp only [bind, Except.bind, hanswered, Option.getD_some, hresponse]; rfl⟩

/-- A request is answered, whatever its path, exactly where every part that is captured can be decoded. -/
theorem total_iff (hm : m.Steady) : Total S m routes request ↔ Legible S routes request := by
  rw [← select_eq_ok]
  refine ⟨fun ⟨⟨dispatched, h⟩, _⟩ => ?_, fun ⟨found, hfound⟩ => ⟨?_, captures_of_select⟩⟩
  · unfold dispatch at h
    cases hselect : select S request routes with
    | error fault =>
      rw [hselect] at h
      cases h
    | ok found => exact ⟨found, rfl⟩
  · unfold dispatch
    rw [hfound]
    cases found with
    | none =>
      obtain ⟨response, hresponse⟩ := toResponse_errorPayload (E := E) 404
        [(utf16 "error", .string (utf16 "Not found"))] (by decide) (by decide) (by decide)
      exact ⟨⟨false, response, none⟩, by dsimp only [notFoundResponse]; rw [hresponse]; rfl⟩
    | some found => exact executeResolvedRoute_eq_ok hm found.route found.params

end

/-! ## A path that is not encoded -/

/-- The language's functions on strings that are in the letters of hosts and methods already. -/
def languageStrings : Strings where
  toLowerCase s := s
  toUpperCase s := s
  decodeURIComponent := decodeURIComponent

def openMount : Mount ℕ Unit where
  checkRouteAccess _ _ _ := .ok none
  handle _ _ _ := .ok { body := .raw (utf16 "ok") }
  onError := none
  tooLarge _ := none
  publicErrorMessage _ := none
  correlationId := utf16 "0123456789abcdef"

def projectRoutes : List (Route ℕ) := [⟨utf16 "GET", .unsaid, utf16 "/projects/:id", 0⟩]

lemma openMount_steady : openMount.Steady := nofun

/-- A project is found by an id that is encoded. -/
theorem total_project : Legible languageStrings projectRoutes
      ⟨utf16 "GET", utf16 "localhost", utf16 "/projects/a%2Fb"⟩ ∧
    Total languageStrings openMount projectRoutes ⟨utf16 "GET", utf16 "localhost", utf16 "/projects/a%2Fb"⟩ := by
  have hlegible : Legible languageStrings projectRoutes
      ⟨utf16 "GET", utf16 "localhost", utf16 "/projects/a%2Fb"⟩ := by
    unfold Legible
    decide +kernel
  exact ⟨hlegible, (total_iff openMount_steady).2 hlegible⟩

/-- An id that is no encoded text is thrown out of the dispatcher. -/
theorem not_total : ¬∀ (m : Mount ℕ Unit) (routes : List (Route ℕ)) (request : Request), m.Steady →
    Total languageStrings m routes request := by
  intro h
  obtain ⟨⟨dispatched, hdispatched⟩, -⟩ :=
    h openMount projectRoutes ⟨utf16 "GET", utf16 "localhost", utf16 "/projects/%zz"⟩ openMount_steady
  have hthrown : (select languageStrings ⟨utf16 "GET", utf16 "localhost", utf16 "/projects/%zz"⟩
      projectRoutes).toOption.isNone = true := by
    decide +kernel
  unfold dispatch at hdispatched
  cases hselect : select languageStrings ⟨utf16 "GET", utf16 "localhost", utf16 "/projects/%zz"⟩
      projectRoutes with
  | error fault =>
    rw [hselect] at hdispatched
    cases hdispatched
  | ok found =>
    rw [hselect] at hthrown
    cases hthrown

end Zelavis.Runtime
