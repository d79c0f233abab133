import Zelavis.Edge.RouteValidation
import Zelavis.Edge.TraefikCompiler

/-!
# What a compiled rule accepts

The requests a route is for, beside the requests its compiled rule accepts.
-/

namespace Zelavis.Edge.Traefik

open Lib Lib.MatchRules List

/-! ## What the routes say -/

/-- A request: its host without a port and in lowercase, and its path. -/
structure Request where
  host : Utf16
  path : Utf16
  rooted : path.head? = some slash

def matchesPath (route : Route) (path : Utf16) : Bool :=
  if route.pathMatch = .exact then path = route.pathPrefix else route.pathPrefix.isPrefixOf path

def covers (route : Route) (request : Request) : Bool :=
  (route.hostname = anyHost || request.host = route.hostname) && matchesPath route request.path

/-- A path that a rule can spell, and that it does not leave out. -/
structure Plain (route : Route) : Prop where
  units : ∀ c ∈ route.pathPrefix, c ≠ backtick ∧ c ≠ carriageReturn ∧ isRefused c = false
  rooted : ¬ (route.pathMatch = .exact ∧ route.pathPrefix = [slash])

/-! ## What a route's rule accepts -/

def pathWord (route : Route) : Utf16 :=
  if route.pathMatch = .exact then utf16 "Path" else utf16 "PathPrefix"

lemma plain_of_isNameUnit {c : CodeUnit} (h : isNameUnit c = true) :
    c ≠ backtick ∧ c ≠ carriageReturn ∧ isRefused c = false := by
  refine ⟨?_, ?_, ?_⟩
  · rintro rfl
    exact absurd h (by decide)
  · rintro rfl
    exact absurd h (by decide)
  · rw [isRefused, Bool.or_eq_false_iff, decide_eq_false_iff_not, decide_eq_false_iff_not]
    constructor
    · rintro rfl
      exact absurd h (by decide)
    · rintro rfl
      exact absurd h (by decide)

section

variable {route : Route} {request : Request}

lemma scan_host (hroute : Registered route) (hany : route.hostname ≠ anyHost) (rest : Utf16) :
    scan .between (utf16 "Host(`" ++ (route.hostname ++ backtick :: rest)) =
      (scan .between rest).map fun later =>
        ([.name (utf16 "Host"), .opens, .text route.hostname] ++ later.1, later.2) := by
  have hunits := fun c hc => plain_of_isNameUnit (hroute.hostname hany c hc)
  have hopen : scan .between (utf16 "Host(`") =
      some ([.name (utf16 "Host"), .opens], .text []) := by decide
  rw [scan_append, hopen, Option.bind_some,
    scan_value_append (fun hmem => (hunits _ hmem).1 rfl) (fun c hc => (hunits c hc).2.2),
    valueOf_eq_self fun hmem => (hunits _ hmem).2.1 rfl]
  cases scan .between rest <;> rfl

lemma buildTraefikRule_eq (hany : route.hostname ≠ anyHost) : buildTraefikRule route =
      if route.pathPrefix = [slash] then utf16 "Host(`" ++ (route.hostname ++ backtick :: utf16 ")")
      else utf16 "Host(`" ++ (route.hostname ++ backtick :: (utf16 ") && " ++
        (pathWord route ++ (utf16 "(`" ++ (route.pathPrefix ++ backtick :: utf16 ")"))))) := by
  have hslash : utf16 "/" = [slash] := by decide
  have hclose : utf16 "`)" = backtick :: utf16 ")" := by decide
  have hpath : utf16 " && Path(`" = utf16 " && " ++ (utf16 "Path" ++ utf16 "(`") := by decide
  have hprefix : utf16 " && PathPrefix(`" = utf16 " && " ++ (utf16 "PathPrefix" ++ utf16 "(`") := by
    decide
  have hand : utf16 ") && " = utf16 ")" ++ utf16 " && " := by decide
  have hstar : route.hostname ≠ utf16 "*" := hany
  rw [buildTraefikRule, if_neg hstar]
  simp only [hslash]
  by_cases hroot : route.pathPrefix = [slash]
  · rw [if_pos hroot, if_pos hroot, hclose, append_assoc]
  · rw [if_neg hroot, if_neg hroot]
    by_cases hexact : route.pathMatch = .exact
    · rw [if_pos hexact, pathWord, if_pos hexact, hpath, hclose, hand]
      simp
    · rw [if_neg hexact, pathWord, if_neg hexact, hprefix, hclose, hand]
      simp

lemma scan_pathWord (route : Route) : scan .between (utf16 ") && " ++ (pathWord route ++ utf16 "(`")) =
      some ([.closes, .both, .name (pathWord route), .opens], .text []) := by
  unfold pathWord
  by_cases hexact : route.pathMatch = .exact
  · rw [if_pos hexact]
    decide
  · rw [if_neg hexact]
    decide

lemma scan_rule (hroute : Registered route) (hany : route.hostname ≠ anyHost)
    (hroot : route.pathPrefix ≠ [slash]) :
    scan .between (buildTraefikRule route) =
      (scan (.text []) (route.pathPrefix ++ backtick :: utf16 ")")).map fun later =>
        ([.name (utf16 "Host"), .opens, .text route.hostname, .closes, .both,
          .name (pathWord route), .opens] ++ later.1, later.2) := by
  rw [buildTraefikRule_eq hany, if_neg hroot, scan_host hroute hany, ← append_assoc,
    ← append_assoc, scan_append, append_assoc, scan_pathWord, Option.bind_some]
  cases scan (.text []) (route.pathPrefix ++ backtick :: utf16 ")") <;> rfl

lemma matcher_pathWord {value : Utf16} (h : value.head? = some slash) : matcher (pathWord route) value =
      some (if route.pathMatch = .exact then .path value else .pathPrefix value) := by
  unfold pathWord
  by_cases hexact : route.pathMatch = .exact
  · rw [if_pos hexact, if_pos hexact, matcher_path h]
  · rw [if_neg hexact, if_neg hexact, matcher_pathPrefix h]

lemma read_fallback (hany : route.hostname = anyHost) :
    read (buildTraefikRule route) = some (.pathPrefix [slash]) := by
  have hstar : route.hostname = utf16 "*" := hany
  rw [buildTraefikRule, if_pos hstar]
  decide

lemma read_root (hroute : Registered route) (hany : route.hostname ≠ anyHost)
    (hroot : route.pathPrefix = [slash]) : read (buildTraefikRule route) = some (.host route.hostname) := by
  apply read_one _ (matcher_host _)
  rw [buildTraefikRule_eq hany, if_pos hroot, tokens, scan_host hroute hany]
  have hclose : scan .between (utf16 ")") = some ([.closes], .between) := by decide
  rfl

lemma read_path (hroute : Registered route) (hany : route.hostname ≠ anyHost)
    (hroot : route.pathPrefix ≠ [slash]) (hbacktick : backtick ∉ route.pathPrefix)
    (hrefused : ∀ c ∈ route.pathPrefix, isRefused c = false) :
    read (buildTraefikRule route) = some (.both (.host route.hostname)
      (if route.pathMatch = .exact then .path (valueOf route.pathPrefix)
        else .pathPrefix (valueOf route.pathPrefix))) := by
  have hhead : (valueOf route.pathPrefix).head? = some slash := by
    obtain ⟨rest, hrest⟩ := List.head?_eq_some_iff.mp hroute.rooted
    rw [hrest, valueOf, filter_cons_of_pos (by decide)]
    rfl
  apply read_both _ (matcher_host _) (matcher_pathWord hhead)
  have hclose : scan .between (utf16 ")") = some ([.closes], .between) := by decide
  rw [tokens, scan_rule hroute hany hroot, scan_value_append hbacktick hrefused, hclose]
  rfl

lemma accepts_eq_covers (hroute : Registered route) (hplain : Plain route) (request : Request) :
    MatchRules.accepts (buildTraefikRule route) request.host request.path = covers route request := by
  by_cases hany : route.hostname = anyHost
  · obtain ⟨hpath, hmatch, -⟩ := hroute.fallback hany
    rw [MatchRules.accepts, read_fallback hany, covers, matchesPath, hpath, hmatch]
    simp [Rule.accepts, hany]
  · by_cases hroot : route.pathPrefix = [slash]
    · have hmatch : route.pathMatch ≠ .exact := fun hexact => hplain.rooted ⟨hexact, hroot⟩
      obtain ⟨rest, hrest⟩ := List.head?_eq_some_iff.mp request.rooted
      rw [MatchRules.accepts, read_root hroute hany hroot, covers, matchesPath, if_neg hmatch, hroot, hrest]
      simp [Rule.accepts, hany]
    · have hvalue : valueOf route.pathPrefix = route.pathPrefix :=
        valueOf_eq_self fun hmem => (hplain.units _ hmem).2.1 rfl
      rw [MatchRules.accepts, read_path hroute hany hroot (fun hmem => (hplain.units _ hmem).1 rfl)
        fun c hc => (hplain.units c hc).2.2, hvalue, covers, matchesPath]
      by_cases hexact : route.pathMatch = .exact
      · simp [Rule.accepts, hany, hexact]
      · simp [Rule.accepts, hany, hexact]

end

/-! ## A path that cannot be spelled -/

variable {path : Utf16}

section

variable {route : Route}

def asked (route : Route) {path : Utf16} (h : path.head? = some slash) : Request :=
  ⟨route.hostname, path, h⟩

lemma covers_asked (h : path.head? = some slash) :
    covers route (asked route h) = matchesPath route path := by
  simp [covers, asked]

lemma matchesPath_self (route : Route) : matchesPath route route.pathPrefix = true := by
  rw [matchesPath]
  split_ifs
  · exact decide_eq_true rfl
  · exact List.isPrefixOf_iff_prefix.mpr (prefix_refl _)

lemma matchesPath_of_length_lt (h : path.length < route.pathPrefix.length) :
    matchesPath route path = false := by
  rw [matchesPath]
  split_ifs
  · rw [decide_eq_false_iff_not]
    rintro rfl
    exact lt_irrefl _ h
  · rw [Bool.eq_false_iff]
    intro hprefix
    exact absurd (List.isPrefixOf_iff_prefix.mp hprefix).length_le (not_le.mpr h)

section

variable (hroute : Registered route) (hany : route.hostname ≠ anyHost)
  (hroot : route.pathPrefix ≠ [slash])
include hroute hany hroot

lemma read_refused {u w : Utf16} (hpath : route.pathPrefix = u ++ w)
    (hbacktick : backtick ∉ u) (hrefused : ∃ c ∈ u, isRefused c = true) :
    read (buildTraefikRule route) = none := by
  rw [MatchRules.read, tokens, scan_rule hroute hany hroot, hpath, append_assoc,
    scan_refused hbacktick hrefused]
  rfl

lemma read_open {u : Utf16} (hpath : route.pathPrefix = u ++ [backtick])
    (hbacktick : backtick ∉ u) : read (buildTraefikRule route) = none := by
  by_cases hrefused : ∃ c ∈ u, isRefused c = true
  · exact read_refused hroute hany hroot hpath hbacktick hrefused
  · push Not at hrefused
    have hrest : scan .between (backtick :: utf16 ")") = some ([], .text (utf16 ")")) := by decide
    rw [MatchRules.read, tokens, scan_rule hroute hany hroot, hpath, append_assoc, singleton_append,
      scan_value_append hbacktick fun c hc => Bool.eq_false_iff.mpr (hrefused c hc), hrest]
    rfl

end

lemma plain_of_accepts (hroute : Registered route) (h : ∀ request : Request,
      MatchRules.accepts (buildTraefikRule route) request.host request.path = covers route request) :
    Plain route := by
  by_cases hany : route.hostname = anyHost
  · obtain ⟨hpath, hmatch, -⟩ := hroute.fallback hany
    refine ⟨?_, fun hexact => ?_⟩
    · rw [hpath]
      intro c hc
      rw [mem_singleton.mp hc]
      decide
    · rw [hmatch] at hexact
      exact absurd hexact.1 (by decide)
  -- the requests for a path on the route's hostname are enough
  have hpaths : ∀ path : Utf16, path.head? = some slash →
      MatchRules.accepts (buildTraefikRule route) route.hostname path = matchesPath route path :=
    fun path hpath => (h (asked route hpath)).trans (covers_asked hpath)
  have hself := (hpaths _ hroute.rooted).trans (matchesPath_self route)
  by_cases hroot : route.pathPrefix = [slash]
  · refine ⟨?_, fun hexact => ?_⟩
    · rw [hroot]
      intro c hc
      rw [mem_singleton.mp hc]
      decide
    · have hlonger := hpaths [slash, slash] rfl
      rw [MatchRules.accepts, read_root hroute hany hroot, matchesPath, if_pos hexact.1, hroot]
        at hlonger
      exact absurd hlonger (by simp [Rule.accepts])
  have hunread : read (buildTraefikRule route) ≠ none := by
    intro hnone
    rw [MatchRules.accepts, hnone] at hself
    exact Bool.false_ne_true hself
  have hbacktick : backtick ∉ route.pathPrefix := by
    intro hmem
    obtain ⟨u, w, hpath, hu⟩ := eq_append_cons_of_mem hmem
    cases w with
    | nil => exact hunread (read_open hroute hany hroot hpath hu)
    | cons c w =>
      -- up to the backtick the path is shorter, and no rule sees the rest
      have hhead : (u ++ [backtick]).head? = some slash := by
        have hrooted := hroute.rooted
        rw [hpath] at hrooted
        cases u with
        | nil =>
          have hslash : backtick = slash := Option.some.inj hrooted
          exact absurd hslash (by decide)
        | cons d u => exact hrooted
      have hshort : matchesPath route (u ++ [backtick]) = false := by
        apply matchesPath_of_length_lt
        rw [hpath]
        simp
      have hblind := accepts_past_backtick (buildTraefikRule route) route.hostname u (c :: w) []
      rw [← hpath, hself, hpaths _ hhead, hshort] at hblind
      exact absurd hblind (by decide)
  have hrefused : ∀ c ∈ route.pathPrefix, isRefused c = false := by
    intro c hc
    rw [Bool.eq_false_iff]
    intro hrefused
    exact hunread (read_refused hroute hany hroot (append_nil _).symm hbacktick
      ⟨c, hc, hrefused⟩)
  have hreturn : carriageReturn ∉ route.pathPrefix := by
    intro hmem
    have hhead : (valueOf route.pathPrefix).head? = some slash := by
      obtain ⟨rest, hrest⟩ := List.head?_eq_some_iff.mp hroute.rooted
      rw [hrest, valueOf, filter_cons_of_pos (by decide)]
      rfl
    have hvalue := hpaths _ hhead
    rw [matchesPath_of_length_lt (length_valueOf_lt hmem), MatchRules.accepts,
      read_path hroute hany hroot hbacktick hrefused] at hvalue
    by_cases hexact : route.pathMatch = .exact
    · exact absurd hvalue (by simp [Rule.accepts, hexact])
    · exact absurd hvalue (by simp [Rule.accepts, hexact])
  refine ⟨fun c hc => ⟨?_, ?_, hrefused c hc⟩, fun hexact => hroot hexact.2⟩
  · rintro rfl
    exact hbacktick hc
  · rintro rfl
    exact hreturn hc

end

end Zelavis.Edge.Traefik
