import Mathlib.Data.Int.ConditionallyCompleteOrder
import Zelavis.Lib.FirstMax
import Zelavis.Lib.Unicode

/-!
# The selection of a route

`request-dispatcher.ts`: of the routes whose method, host and path match a request, the one with the
greatest score is selected, and the first of them where several have it.
-/

namespace Zelavis.Runtime

open Lib List

/-! ## Routes and requests -/

/-- Which hosts a route is for. Source: `matchRouteHost`, its `matcher`. -/
inductive HostMatcher where
  | unsaid
  | one (host : Utf16)
  | many (hosts : List Utf16)
  deriving DecidableEq

/-- A route as it is mounted. -/
structure Route (H : Type) where
  method : Utf16
  host : HostMatcher
  fullPath : Utf16
  handler : H
  deriving DecidableEq

/-- A request, with its host and path as its URL has them. -/
structure Request where
  method : Utf16
  host : Utf16
  pathname : Utf16

/-- The functions of the language on strings; the last throws on what is no encoded text. -/
structure Strings where
  /-- Source: `String.prototype.toLowerCase`. -/
  toLowerCase : Utf16 → Utf16
  /-- Source: `String.prototype.toUpperCase`. -/
  toUpperCase : Utf16 → Utf16
  /-- Source: `decodeURIComponent`. -/
  decodeURIComponent : Utf16 → Option Utf16

/-- What `decodeURIComponent` throws. -/
inductive Fault where
  | uri
  deriving DecidableEq

/-- The parameters of a path, in the order they were set; of two with one name the later counts. -/
abbrev Params := List (Utf16 × Utf16)

/-! ## Paths -/

def SLASH : CodeUnit := 0x2f

def STAR : CodeUnit := 0x2a

def COLON : CodeUnit := 0x3a

/-- Source: `splitPath`. -/
def splitPath (path : Utf16) : List Utf16 := (path.splitOn SLASH).filter fun part => part ≠ []

def isWildcard (part : Utf16) : Bool := part.head? == some STAR

def isParam (part : Utf16) : Bool := part.head? == some COLON

def wildcardName (part : Utf16) : Utf16 := if part.tail = [] then [STAR] else part.tail

def decodeAll (S : Strings) (parts : List Utf16) : Except Fault (List Utf16) :=
  parts.mapM fun part => (S.decodeURIComponent part).elim (.error .uri) .ok

/-- The parts of a path against those of a pattern. Source: `matchPath`, its
loop. -/
def matchParts (S : Strings) : List Utf16 → List Utf16 → Params → Except Fault (Option Params)
  | [], _, params => .ok (some params)
  | patternPart :: pattern, parts, params =>
    if isWildcard patternPart then
      (decodeAll S parts).map fun decoded =>
        some (params ++ [(wildcardName patternPart, [SLASH].intercalate decoded)])
    else
      match parts with
      | [] => .ok none
      | part :: parts =>
        if isParam patternPart then
          match S.decodeURIComponent part with
          | none => .error .uri
          | some decoded => matchParts S pattern parts (params ++ [(patternPart.tail, decoded)])
        else if patternPart ≠ part then .ok none
        else matchParts S pattern parts params

/-- Source: `matchPath`. -/
def matchPath (S : Strings) (pattern pathname : Utf16) : Except Fault (Option Params) :=
  let patternParts := splitPath pattern
  let pathParts := splitPath pathname
  match patternParts.findIdx? isWildcard with
  | some wildcardIndex =>
    if wildcardIndex ≠ patternParts.length - 1 then .ok none
    else if pathParts.length < wildcardIndex then .ok none
    else matchParts S patternParts pathParts []
  | none =>
    if patternParts.length ≠ pathParts.length then .ok none
    else matchParts S patternParts pathParts []

/-- Source: `scoreMatchedPath`. -/
def scoreMatchedPath (pattern : Utf16) : ℤ :=
  let parts := splitPath pattern
  (parts.map fun part => if isWildcard part then (1 : ℤ) else if isParam part then 10 else 100).sum +
    parts.length - (parts.filter isWildcard).length * 1000

/-! ## Hosts -/

def anyHost : Utf16 := [STAR]

/-- Source: `matchRouteHost`, one candidate. -/
def matchCandidate (S : Strings) (requestHost candidate : Utf16) : Option ℤ :=
  if candidate = anyHost then some 0
  else if S.toLowerCase candidate = requestHost then some 1000
  else none

/-- Source: `matchRouteHost`. -/
def matchRouteHost (S : Strings) (matcher : HostMatcher) (requestHost : Utf16) : Option ℤ :=
  match matcher with
  | .unsaid => some 0
  | .one host => matchCandidate S requestHost host
  | .many hosts => hosts.findSome? (matchCandidate S requestHost)

def HostMatcher.hosts : HostMatcher → List Utf16
  | .unsaid => [anyHost]
  | .one host => [host]
  | .many hosts => hosts

def RestrictedTo (S : Strings) (matcher : HostMatcher) (requestHost : Utf16) : Prop :=
  ∃ before host after, matcher.hosts = before ++ host :: after ∧ host ≠ anyHost ∧
    S.toLowerCase host = requestHost ∧ anyHost ∉ before

/-- A route is for every host: it says so, and does not name this one before. -/
def Hostless (S : Strings) (matcher : HostMatcher) (requestHost : Utf16) : Prop :=
  ∃ before after, matcher.hosts = before ++ anyHost :: after ∧ anyHost ∉ before ∧
    ∀ host ∈ before, S.toLowerCase host ≠ requestHost

/-! ## The selection -/

/-- A route that matches. -/
structure Matched (H : Type) where
  route : Route H
  params : Params
  score : ℤ

section

variable {H : Type} (S : Strings) (request : Request)

def methodOf : Utf16 := S.toUpperCase request.method

def hostOf : Utf16 := S.toLowerCase request.host

/-- What a route comes to: it matches or not, or its path cannot be decoded. Source:
`createZelavisDispatcher`, its loop up to the score. -/
def answer (route : Route H) : Except Fault (Option (Matched H)) :=
  if route.method ≠ methodOf S request ∧
      ¬(methodOf S request = utf16 "HEAD" ∧ route.method = utf16 "GET") then .ok none
  else
    match matchRouteHost S route.host (hostOf S request) with
    | none => .ok none
    | some hostMatch =>
      (matchPath S route.fullPath request.pathname).map fun params =>
        params.map fun params => ⟨route, params, scoreMatchedPath route.fullPath + hostMatch⟩

/-- The better of the best so far and a route that matches. Source: `createZelavisDispatcher`, its loop from the score on. -/
def better (best : Option (Matched H)) : Option (Matched H) → Option (Matched H)
  | none => best
  | some m => if best.all fun b => b.score < m.score then some m else best

/-- Source: `createZelavisDispatcher`. -/
def select (routes : List (Route H)) : Except Fault (Option (Matched H)) :=
  routes.foldlM (fun best route => (answer S request route).map (better best)) none

def matched (routes : List (Route H)) : List (Matched H) :=
  routes.filterMap fun route => (answer S request route).toOption.join

end

/-! ## Hosts, in words -/

variable {S : Strings} {H : Type} {request : Request} {requestHost : Utf16} {matcher : HostMatcher}
  {routes : List (Route H)} {m m' : Matched H}

lemma matchRouteHost_eq (S : Strings) (matcher : HostMatcher) (requestHost : Utf16) :
    matchRouteHost S matcher requestHost = matcher.hosts.findSome? (matchCandidate S requestHost) := by
  cases matcher with
  | unsaid => rfl
  | one host =>
    unfold matchRouteHost HostMatcher.hosts
    rw [List.findSome?_singleton]
  | many hosts => rfl

variable {host : Utf16}

lemma matchCandidate_eq_none : matchCandidate S requestHost host = none ↔
    host ≠ anyHost ∧ S.toLowerCase host ≠ requestHost := by
  unfold matchCandidate
  split_ifs with hany hhost
  · simp [hany]
  · simp [hhost]
  · simp [hany, hhost]

variable {score : ℤ}

lemma matchCandidate_eq_some : matchCandidate S requestHost host = some score ↔
      (host = anyHost ∧ score = 0) ∨ (host ≠ anyHost ∧ S.toLowerCase host = requestHost ∧ score = 1000) := by
  unfold matchCandidate
  split_ifs with hany hhost
  · simp [hany, eq_comm]
  · simp [hany, hhost, eq_comm]
  · simp [hany, hhost]

lemma matchRouteHost_eq_thousand : matchRouteHost S matcher requestHost = some 1000 ↔
    RestrictedTo S matcher requestHost := by
  rw [matchRouteHost_eq]
  refine ⟨fun h => ?_, fun ⟨before, host, after, hhosts, hany, hhost, hbefore⟩ => ?_⟩
  · obtain ⟨before, host, after, hhosts, hscore, hnone⟩ := List.findSome?_eq_some_iff.1 h
    obtain ⟨-, hzero⟩ | ⟨hany, hhost, -⟩ := matchCandidate_eq_some.1 hscore
    · cases hzero
    · exact ⟨before, host, after, hhosts, hany, hhost, fun hmem =>
        (matchCandidate_eq_none.1 (hnone _ hmem)).1 rfl⟩
  · rw [hhosts]
    clear hhosts
    induction before with
    | nil =>
      rw [nil_append, List.findSome?_cons, matchCandidate_eq_some.2 (.inr ⟨hany, hhost, rfl⟩)]
    | cons b before ih =>
      rw [mem_cons, not_or] at hbefore
      rw [cons_append, List.findSome?_cons]
      by_cases hb : S.toLowerCase b = requestHost
      · rw [matchCandidate_eq_some.2 (.inr ⟨Ne.symm hbefore.1, hb, rfl⟩)]
      · rw [matchCandidate_eq_none.2 ⟨Ne.symm hbefore.1, hb⟩]
        exact ih hbefore.2

lemma matchRouteHost_eq_zero : matchRouteHost S matcher requestHost = some 0 ↔
    Hostless S matcher requestHost := by
  rw [matchRouteHost_eq, List.findSome?_eq_some_iff]
  refine ⟨fun ⟨before, host, after, hhosts, hscore, hnone⟩ => ?_,
    fun ⟨before, after, hhosts, hany, hbefore⟩ => ?_⟩
  · obtain ⟨rfl, -⟩ | ⟨-, -, hzero⟩ := matchCandidate_eq_some.1 hscore
    · exact ⟨before, after, hhosts, fun hmem => (matchCandidate_eq_none.1 (hnone _ hmem)).1 rfl,
        fun host hmem => (matchCandidate_eq_none.1 (hnone _ hmem)).2⟩
    · cases hzero
  · refine ⟨before, anyHost, after, hhosts, matchCandidate_eq_some.2 (.inl ⟨rfl, rfl⟩),
      fun host hmem => matchCandidate_eq_none.2 ⟨fun heq => hany (heq ▸ hmem), hbefore host hmem⟩⟩

lemma matchRouteHost_cases (h : matchRouteHost S matcher requestHost = some score) :
    (score = 0 ∧ Hostless S matcher requestHost ∧ ¬RestrictedTo S matcher requestHost) ∨
      (score = 1000 ∧ RestrictedTo S matcher requestHost ∧ ¬Hostless S matcher requestHost) := by
  have hscore : score = 0 ∨ score = 1000 := by
    rw [matchRouteHost_eq] at h
    obtain ⟨-, host, -, -, hhost, -⟩ := List.findSome?_eq_some_iff.1 h
    obtain ⟨-, rfl⟩ | ⟨-, -, rfl⟩ := matchCandidate_eq_some.1 hhost
    · exact .inl rfl
    · exact .inr rfl
  rw [← matchRouteHost_eq_zero, ← matchRouteHost_eq_thousand, h]
  obtain rfl | rfl := hscore
  · exact .inl ⟨rfl, rfl, by decide⟩
  · exact .inr ⟨rfl, rfl, by decide⟩

lemma hostless_or_restricted (h : m ∈ matched S request routes) :
    (Hostless S m.route.host (hostOf S request) ∧ ¬RestrictedTo S m.route.host (hostOf S request)) ∨
      (RestrictedTo S m.route.host (hostOf S request) ∧ ¬Hostless S m.route.host (hostOf S request)) := by
  obtain ⟨route, -, h⟩ := mem_filterMap.1 h
  cases ha : answer S request route with
  | error fault =>
    rw [ha] at h
    cases h
  | ok found =>
    rw [ha] at h
    have hfound : found = some m := h
    subst hfound
    unfold answer at ha
    split_ifs at ha
    · cases ha
    · cases hhost : matchRouteHost S route.host (hostOf S request) with
      | none =>
        rw [hhost] at ha
        cases ha
      | some hostMatch =>
        rw [hhost] at ha
        cases hpath : matchPath S route.fullPath request.pathname with
        | error fault =>
          rw [hpath] at ha
          cases ha
        | ok params =>
          rw [hpath] at ha
          cases params with
          | none => cases ha
          | some params =>
            cases ha
            obtain ⟨-, h⟩ | ⟨-, h⟩ := matchRouteHost_cases hhost
            · exact .inl h
            · exact .inr h

/-! ## The loop -/

lemma better_eq (l : List (Matched H)) (found : Option (Matched H)) :
    better (l.argmax Matched.score) found = (l ++ found.toList).argmax Matched.score := by
  cases found with
  | none => rw [Option.toList_none, append_nil]; rfl
  | some m =>
    rw [Option.toList_some, argmax_concat]
    unfold better
    cases l.argmax Matched.score with
    | none => rfl
    | some b => simp

/-- The loop fails where a path cannot be decoded, and selects the first of the greatest where all
can. -/
theorem select_eq (S : Strings) (request : Request) (routes : List (Route H)) :
    (∀ route ∈ routes, ∃ found, answer S request route = .ok found) ∧
      select S request routes = .ok ((matched S request routes).argmax Matched.score) ∨
    (∃ route ∈ routes, ∃ fault, answer S request route = .error fault) ∧
      ∃ fault, select S request routes = .error fault := by
  induction routes using List.reverseRecOn with
  | nil => exact .inl ⟨fun route h => (not_mem_nil h).elim, rfl⟩
  | append_singleton routes route ih =>
    have hselect : select S request (routes ++ [route]) =
        select S request routes >>= fun best => (answer S request route).map (better best) := by
      unfold select
      rw [foldlM_append]
      exact bind_congr fun best => by simp [bind_pure]
    obtain ⟨hlegible, heq⟩ | ⟨⟨bad, hbad, fault, hfault⟩, fault', heq⟩ := ih
    · cases ha : answer S request route with
      | error fault =>
        refine .inr ⟨⟨route, mem_append_right _ mem_cons_self, fault, ha⟩, fault, ?_⟩
        rw [hselect, heq, ha]
        rfl
      | ok found =>
        refine .inl ⟨fun route' hmem => ?_, ?_⟩
        · obtain hmem | hmem := mem_append.1 hmem
          · exact hlegible route' hmem
          · cases mem_singleton.1 hmem
            exact ⟨found, ha⟩
        · have hmatched : matched S request (routes ++ [route]) =
              matched S request routes ++ found.toList := by
            unfold matched
            rw [filterMap_append]
            rw [filterMap_cons, ha]
            cases found <;> rfl
          rw [hselect, heq, ha, hmatched, ← better_eq]
          rfl
    · refine .inr ⟨⟨bad, mem_append_left _ hbad, fault, hfault⟩, fault', ?_⟩
      rw [hselect, heq]
      rfl

/-! ## When a host is honoured -/

/-- A request is dispatched by its host: where a route that is for it matches, such a route is selected;
where none does but another matches, one is selected that is for every host; and where no two routes
that match are equally specific, the order in which routes are registered does not matter. -/
structure Honours (S : Strings) (request : Request) (routes : List (Route H)) : Prop where
  host : (∃ m ∈ matched S request routes, RestrictedTo S m.route.host (hostOf S request)) →
    ∃ m, select S request routes = .ok (some m) ∧ RestrictedTo S m.route.host (hostOf S request)
  hostless : (∀ m ∈ matched S request routes, ¬RestrictedTo S m.route.host (hostOf S request)) →
    matched S request routes ≠ [] →
    ∃ m, select S request routes = .ok (some m) ∧ Hostless S m.route.host (hostOf S request)
  order : ((matched S request routes).map Matched.score).Nodup → ∀ routes', routes'.Perm routes →
    (select S request routes').toOption = (select S request routes).toOption

/-- Where a route matches, the path can be decoded for every route that is tried, and where a route for
the host matches, each route for every host that matches has one for the host that was registered
before it and is as specific, or after it and is more. -/
structure HostsLead (S : Strings) (request : Request) (routes : List (Route H)) : Prop where
  legible : matched S request routes ≠ [] → ∀ route ∈ routes, ∃ found, answer S request route = .ok found
  lead : ∀ before m after, matched S request routes = before ++ m :: after →
    Hostless S m.route.host (hostOf S request) →
    (∃ m' ∈ matched S request routes, RestrictedTo S m'.route.host (hostOf S request)) →
    ∃ m', RestrictedTo S m'.route.host (hostOf S request) ∧
      ((m' ∈ before ∧ m.score ≤ m'.score) ∨ (m' ∈ after ∧ m.score < m'.score))

lemma matched_ne_nil (h : m ∈ matched S request routes) : matched S request routes ≠ [] :=
  ne_nil_of_mem h

lemma firstMax_of_select (h : select S request routes = .ok (some m)) :
    FirstMax Matched.score (matched S request routes) m ∧
      ∀ route ∈ routes, ∃ found, answer S request route = .ok found := by
  obtain ⟨hlegible, heq⟩ | ⟨-, fault, heq⟩ := select_eq S request routes
  · exact ⟨firstMax_of_argmax (Except.ok.inj (heq.symm.trans h)), hlegible⟩
  · rw [heq] at h
    cases h

lemma select_of_legible (hlegible : ∀ route ∈ routes, ∃ found, answer S request route = .ok found)
    (hne : matched S request routes ≠ []) : ∃ m, select S request routes = .ok (some m) := by
  obtain ⟨-, heq⟩ | ⟨⟨route, hmem, fault, hfault⟩, -⟩ := select_eq S request routes
  · cases hmax : (matched S request routes).argmax Matched.score with
    | none => exact absurd (argmax_eq_none.1 hmax) hne
    | some m => exact ⟨m, by rw [heq, hmax]⟩
  · obtain ⟨found, hfound⟩ := hlegible route hmem
    rw [hfault] at hfound
    cases hfound

lemma select_perm {routes' : List (Route H)}
    (hnodup : ((matched S request routes).map Matched.score).Nodup) (hperm : routes'.Perm routes) :
    (select S request routes').toOption = (select S request routes).toOption := by
  have hmatched : (matched S request routes').Perm (matched S request routes) :=
    hperm.filterMap _
  obtain ⟨hlegible, heq⟩ | ⟨⟨route, hmem, fault, hfault⟩, fault', heq⟩ :=
    select_eq S request routes
  · obtain ⟨-, heq'⟩ | ⟨⟨route, hmem, fault, hfault⟩, -⟩ := select_eq S request routes'
    · rw [heq, heq', argmax_perm hnodup hmatched]
    · obtain ⟨found, hfound⟩ := hlegible route (hperm.mem_iff.1 hmem)
      rw [hfault] at hfound
      cases hfound
  · obtain ⟨hlegible', -⟩ | ⟨-, fault'', heq'⟩ := select_eq S request routes'
    · obtain ⟨found, hfound⟩ := hlegible' route (hperm.mem_iff.2 hmem)
      rw [hfault] at hfound
      cases hfound
    · rw [heq, heq']

/-- Hosts are honoured exactly where every path that is tried can be decoded and routes for the host
lead. -/
theorem honours_iff (S : Strings) (request : Request) (routes : List (Route H)) :
    Honours S request routes ↔ HostsLead S request routes := by
  refine ⟨fun h => ⟨fun hne => ?_, fun before m after hsplit hhostless hrestricted => ?_⟩,
    fun h => ⟨fun hrestricted => ?_, fun hnone hne => ?_, fun hnodup routes' => select_perm hnodup⟩⟩
  · by_cases hrestricted : ∃ m ∈ matched S request routes, RestrictedTo S m.route.host (hostOf S request)
    · obtain ⟨m, hselect, -⟩ := h.host hrestricted
      exact (firstMax_of_select hselect).2
    · push Not at hrestricted
      obtain ⟨m, hselect, -⟩ := h.hostless hrestricted hne
      exact (firstMax_of_select hselect).2
  · obtain ⟨m', hselect, hm'⟩ := h.host hrestricted
    obtain ⟨hmax, -⟩ := firstMax_of_select hselect
    have hmem : m ∈ matched S request routes := by
      rw [hsplit]
      exact List.mem_append_right _ List.mem_cons_self
    have hne : m ≠ m' := by
      rintro rfl
      obtain ⟨-, hnot⟩ | ⟨-, hnot⟩ := hostless_or_restricted hmem
      · exact hnot hm'
      · exact hnot hhostless
    exact ⟨m', hm', hmax.leads hsplit hne⟩
  · obtain ⟨m', hmem', hm'⟩ := hrestricted
    obtain ⟨m, hselect⟩ := select_of_legible (h.legible (matched_ne_nil hmem')) (matched_ne_nil hmem')
    obtain ⟨hmax, -⟩ := firstMax_of_select hselect
    refine ⟨m, hselect, ?_⟩
    obtain ⟨hhostless, -⟩ | ⟨hm, -⟩ := hostless_or_restricted hmax.mem
    · obtain ⟨before, after, hsplit, hbefore, hafter⟩ := hmax
      obtain ⟨m'', -, ⟨hmem, hle⟩ | ⟨hmem, hlt⟩⟩ :=
        h.lead before m after hsplit hhostless ⟨m', hmem', hm'⟩
      · exact absurd (hbefore m'' hmem) (not_lt.2 hle)
      · exact absurd hlt (not_lt.2 (hafter m'' hmem))
    · exact hm
  · obtain ⟨m, hselect⟩ := select_of_legible (h.legible hne) hne
    obtain ⟨hmax, -⟩ := firstMax_of_select hselect
    refine ⟨m, hselect, ?_⟩
    obtain ⟨hhostless, -⟩ | ⟨hm, -⟩ := hostless_or_restricted hmax.mem
    · exact hhostless
    · exact absurd hm (hnone m hmax.mem)

def plainStrings : Strings where
  toLowerCase s := s
  toUpperCase s := s
  decodeURIComponent := some

/-- A route for a host and everything under it, and one for every host and one path. -/
def boardRoutes : List (Route ℕ) := [
  ⟨utf16 "GET", .one (utf16 "kanban.example.com"), utf16 "/*", 0⟩,
  ⟨utf16 "GET", .unsaid, utf16 "/a", 1⟩]

/-- The route that is not for the host is selected. -/
theorem not_honours : ¬∀ (S : Strings) (request : Request) (routes : List (Route ℕ)),
    Honours S request routes := by
  intro h
  have hrestricted : (matched plainStrings ⟨utf16 "GET", utf16 "kanban.example.com", utf16 "/a"⟩
      boardRoutes).head?.map (fun m => m.route.host) = some (.one (utf16 "kanban.example.com")) := by
    decide +kernel
  have hselected : (select plainStrings ⟨utf16 "GET", utf16 "kanban.example.com", utf16 "/a"⟩
      boardRoutes).toOption.join.map (fun m => m.route.host) = some .unsaid := by
    decide +kernel
  obtain ⟨m, hm, hhost⟩ := Option.map_eq_some_iff.1 hrestricted
  have hfor : RestrictedTo plainStrings m.route.host
      (hostOf plainStrings ⟨utf16 "GET", utf16 "kanban.example.com", utf16 "/a"⟩) := by
    rw [hhost]
    exact ⟨[], _, [], rfl, by decide, rfl, List.not_mem_nil⟩
  obtain ⟨m', hselect, hm'⟩ :=
    (h plainStrings ⟨utf16 "GET", utf16 "kanban.example.com", utf16 "/a"⟩ boardRoutes).host
      ⟨m, List.mem_of_head? hm, hfor⟩
  rw [hselect] at hselected
  have hunsaid : m'.route.host = .unsaid := Option.some.inj hselected
  rw [hunsaid] at hm'
  obtain ⟨before, host, after, hhosts, hany, -⟩ := hm'
  have hmem : host ∈ [anyHost] := by
    rw [show [anyHost] = before ++ host :: after from hhosts]
    exact List.mem_append_right _ List.mem_cons_self
  exact hany (List.mem_singleton.1 hmem)

end Zelavis.Runtime
