import Zelavis.Edge.TraefikRules
import Mathlib.Data.Set.Finite.Lemmas

/-!
# Whether Traefik routes as the routes say

The route that wins among those that are for a request, beside the router that Traefik gives the
request to.
-/

namespace Zelavis.Edge.Traefik

open Lib Lib.MatchRules

/-! ## What the routes say -/

/-- Whether a route wins over another: the fallback is below every explicit host route, and of two
others the higher priority wins. -/
def Outranks (a b : Route) : Prop :=
  a.hostname ≠ anyHost ∧ (b.hostname = anyHost ∨ b.priority < a.priority)

/-! ## What Traefik does -/

def accepts (router : TraefikRouterConfig) (request : Request) : Bool :=
  MatchRules.accepts router.rule request.host request.path

def ruleLength (rule : Utf16) : ℤ := (utf8 rule).length

/-- The priority of a router: the length of its rule, where none is set or it is zero. -/
def effectivePriority (router : TraefikRouterConfig) : ℤ :=
  if router.priority.getD 0 = 0 then ruleLength router.rule else router.priority.getD 0

/-- A router may be given a request that comes in at an entry point: none that accepts it there has a
higher priority. -/
structure Wins (configuration : TraefikDynamicConfiguration) (entryPoint : Utf16)
    (request : Request) (name : Utf16) (router : TraefikRouterConfig) : Prop where
  configured : configuration.routers.get name = some router
  listens : entryPoint ∈ router.entryPoints
  accepted : accepts router request = true
  highest : ∀ name' other, configuration.routers.get name' = some other →
    entryPoint ∈ other.entryPoints → accepts other request = true →
    effectivePriority other ≤ effectivePriority router

/-- A configuration does with requests what the routes of a publication say. -/
structure PreservesRouting (publication : Publication)
    (configuration : TraefikDynamicConfiguration) : Prop where
  apart : publication.routes.Pairwise fun a b =>
    serviceName a ≠ serviceName b ∧ ∀ k l, routerName a k ≠ routerName b l
  service : ∀ route ∈ publication.routes,
    configuration.services.get (serviceName route) = some (serviceOf route)
  router : ∀ route ∈ publication.routes, ∃ kind router,
    configuration.routers.get (routerName route kind) = some router
  leads : ∀ route ∈ publication.routes, ∀ kind router,
    configuration.routers.get (routerName route kind) = some router →
    router.service = serviceName route
  exact : ∀ route ∈ publication.routes, ∀ kind router,
    configuration.routers.get (routerName route kind) = some router →
    ∀ request, accepts router request = covers route request
  selected : ∀ entryPoint request name router, Wins configuration entryPoint request name router →
    ∃ route ∈ publication.routes, (∃ kind, name = routerName route kind) ∧
      ∀ other ∈ publication.routes, covers other request = true → ¬ Outranks other route

/-! ## What routes must be for that -/

def entryPoints (options : CompileTraefikOptions) (publication : Publication) (route : Route) :
    List Utf16 :=
  if hasTls publication route then
    if options.redirects then [options.httpsEntryPoint, options.httpEntryPoint]
    else [options.httpsEntryPoint]
  else [options.httpEntryPoint]

/-- A route that is for a request and is served where it comes in. -/
structure Candidate (options : CompileTraefikOptions) (publication : Publication)
    (entryPoint : Utf16) (request : Request) (route : Route) : Prop where
  mem : route ∈ publication.routes
  served : entryPoint ∈ entryPoints options publication route
  covered : covers route request = true

/-- Among the routes that are for a request, the lengths of rules do not get in the way of the
priorities. -/
structure Ordered (options : CompileTraefikOptions) (publication : Publication)
    (entryPoint : Utf16) (request : Request) : Prop where
  /-- Where one has a priority above zero and another has priority zero, one is above the length of
  the other's rule. -/
  length_lt : ∀ a ∈ publication.routes, covers a request = true → a.hostname ≠ anyHost →
    0 < a.priority → ∀ b, Candidate options publication entryPoint request b →
    b.hostname ≠ anyHost → b.priority = 0 →
    ∃ c, Candidate options publication entryPoint request c ∧ c.hostname ≠ anyHost ∧
      ruleLength (buildTraefikRule b) < c.priority + if hasFallback publication = true then 1 else 0
  nonneg : ∀ a, Candidate options publication entryPoint request a → a.hostname = anyHost →
    ∀ b, Candidate options publication entryPoint request b → b.hostname ≠ anyHost →
    ∃ c, Candidate options publication entryPoint request c ∧ c.hostname ≠ anyHost ∧ 0 ≤ c.priority
  served : ∀ a ∈ publication.routes, covers a request = true →
    ∀ b, Candidate options publication entryPoint request b →
    ∃ c, Candidate options publication entryPoint request c ∧ ¬ Outranks a c

/-- Routes that Traefik can be told of. -/
structure Faithful (options : CompileTraefikOptions) (publication : Publication) : Prop where
  apart : publication.routes.Pairwise fun a b =>
    a.scope = b.scope → sanitizeIdentifier a.id ≠ sanitizeIdentifier b.id
  plain : ∀ route ∈ publication.routes, Plain route
  ordered : ∀ entryPoint request, Ordered options publication entryPoint request

/-! ## Which router wins -/

section

variable {options : CompileTraefikOptions} {publication : Publication} {entryPoint : Utf16}
  {request : Request} {a b route : Route}

def lift (publication : Publication) : ℤ := if hasFallback publication = true then 1 else 0

def standing (publication : Publication) (route : Route) : ℤ :=
  if route.hostname = anyHost then 1
  else if route.priority = 0 then ruleLength (buildTraefikRule route)
  else if 0 < route.priority then route.priority + lift publication
  else route.priority

lemma standing_fallback (h : route.hostname = anyHost) : standing publication route = 1 :=
  if_pos h

lemma standing_zero (h : route.hostname ≠ anyHost) (hzero : route.priority = 0) :
    standing publication route = ruleLength (buildTraefikRule route) := by
  rw [standing, if_neg h, if_pos hzero]

lemma standing_pos (h : route.hostname ≠ anyHost) (hpos : 0 < route.priority) :
    standing publication route = route.priority + lift publication := by
  rw [standing, if_neg h, if_neg hpos.ne', if_pos hpos]

lemma standing_neg (h : route.hostname ≠ anyHost) (hneg : route.priority < 0) :
    standing publication route = route.priority := by
  rw [standing, if_neg h, if_neg hneg.ne, if_neg hneg.le.not_gt]

lemma lift_nonneg : 0 ≤ lift publication := by
  unfold lift
  split_ifs <;> omega

lemma lift_eq_one (h : route ∈ publication.routes) (hany : route.hostname = anyHost) :
    lift publication = 1 := by
  have hfallback : hasFallback publication = true :=
    List.any_eq_true.mpr ⟨route, h, decide_eq_true hany⟩
  exact if_pos hfallback

lemma one_lt_ruleLength (h : route.hostname ≠ anyHost) : 1 < ruleLength (buildTraefikRule route) := by
  have hrule : ∃ rest, buildTraefikRule route = utf16 "Host(`" ++ rest := by
    rw [buildTraefikRule_eq h]
    split_ifs
    · exact ⟨_, rfl⟩
    · exact ⟨_, rfl⟩
  obtain ⟨rest, hrest⟩ := hrule
  have hbytes : utf8 (utf16 "Host(`" ++ rest) = utf8 (utf16 "Host(`") ++ utf8 rest := by
    rw [utf8, codePoints_append (by decide), List.flatMap_append]
    rfl
  have hlength : (utf8 (utf16 "Host(`")).length = 6 := by decide
  rw [ruleLength, hrest, hbytes, List.length_append, hlength]
  omega

lemma effectivePriority_routerOf (options : CompileTraefikOptions) (route : Route) (kind : RouterKind) :
    effectivePriority (routerOf options publication route kind) = standing publication route := by
  have hpriority : (routerOf options publication route kind).priority.getD 0 =
      routerPriority publication route := by
    simp only [routerOf]
    split_ifs with h
    · rfl
    · rw [not_not] at h
      exact h.symm
  have hrule : (routerOf options publication route kind).rule = buildTraefikRule route := rfl
  rw [effectivePriority, hpriority, hrule]
  by_cases hany : route.hostname = anyHost
  · have hone : routerPriority publication route = 1 := if_pos hany
    rw [hone, if_neg (by decide), standing_fallback hany]
  · have hset : routerPriority publication route =
        if (hasFallback publication && decide (0 < route.priority)) = true then route.priority + 1
        else route.priority := if_neg hany
    rcases lt_trichotomy route.priority 0 with hneg | hzero | hpos
    · rw [if_neg (by simp [hneg.le.not_gt])] at hset
      rw [hset, if_neg hneg.ne, standing_neg hany hneg]
    · rw [if_neg (by simp [hzero])] at hset
      rw [hset, if_pos hzero, standing_zero hany hzero]
    · rw [standing_pos hany hpos, lift]
      by_cases hfallback : hasFallback publication = true
      · rw [if_pos (by simp [hfallback, hpos])] at hset
        rw [hset, if_neg (by omega), if_pos hfallback]
      · rw [if_neg (by simp [hfallback])] at hset
        rw [hset, if_neg hpos.ne', if_neg hfallback, add_zero]

lemma exists_highest (h : Candidate options publication entryPoint request route) :
    ∃ top, Candidate options publication entryPoint request top ∧
      ∀ other, Candidate options publication entryPoint request other →
        standing publication other ≤ standing publication top := by
  have hfinite : {other | Candidate options publication entryPoint request other}.Finite :=
    publication.routes.finite_toSet.subset fun other hother => hother.mem
  exact Set.exists_max_image _ (standing publication) hfinite ⟨route, h⟩

/-- Where the routes are in order, none that is for a request outranks the one with the highest
priority. -/
theorem Ordered.not_outranks (h : Ordered options publication entryPoint request)
    (hroute : Candidate options publication entryPoint request route)
    (htop : ∀ other, Candidate options publication entryPoint request other →
      standing publication other ≤ standing publication route)
    (ha : a ∈ publication.routes) (hcovers : covers a request = true) : ¬ Outranks a route := by
  rintro ⟨hany, hlower⟩
  -- one that is served there outranks the top too
  obtain ⟨c, hc, hca⟩ := h.served a ha hcovers route hroute
  have hcany : c.hostname ≠ anyHost := fun hc => hca ⟨hany, .inl hc⟩
  have hcle : a.priority ≤ c.priority := by
    by_contra hlt
    exact hca ⟨hany, .inr (not_le.mp hlt)⟩
  have hctop := htop c hc
  have hlift : 0 ≤ lift publication := lift_nonneg
  by_cases hfallback : route.hostname = anyHost
  · -- the top is the fallback: the other is not below zero, and so above it
    obtain ⟨d, hd, hdany, hdnonneg⟩ := h.nonneg route hroute hfallback c hc hcany
    have hdtop := htop d hd
    rw [standing_fallback hfallback] at hdtop
    rcases hdnonneg.lt_or_eq with hpos | hzero
    · rw [standing_pos hdany hpos, lift_eq_one hroute.mem hfallback] at hdtop
      omega
    · rw [standing_zero hdany hzero.symm] at hdtop
      exact absurd (one_lt_ruleLength hdany) (not_lt.mpr hdtop)
  · have hlt : route.priority < c.priority := by
      rcases hlower with hother | hlt
      · exact absurd hother hfallback
      · omega
    rcases lt_trichotomy route.priority 0 with hneg | hzero | hpos
    · rw [standing_neg hfallback hneg] at hctop
      rcases lt_trichotomy c.priority 0 with hcneg | hczero | hcpos
      · rw [standing_neg hcany hcneg] at hctop
        omega
      · rw [standing_zero hcany hczero] at hctop
        have := one_lt_ruleLength hcany
        omega
      · rw [standing_pos hcany hcpos] at hctop
        omega
    · obtain ⟨d, hd, hdany, hdlt⟩ := h.length_lt c hc.mem hc.covered hcany (by omega) route hroute
        hfallback hzero
      have hdtop := htop d hd
      have hlength := one_lt_ruleLength hfallback
      have hdlt : ruleLength (buildTraefikRule route) < d.priority + lift publication := hdlt
      rw [standing_zero hfallback hzero, standing_pos hdany (by omega)] at hdtop
      omega
    · rw [standing_pos hfallback hpos, standing_pos hcany (by omega)] at hctop
      omega

/-- Where none that is for a request outranks the one with the highest priority, the routes are in
order. -/
theorem ordered_of_not_outranks (h : ∀ route, Candidate options publication entryPoint request route →
      (∀ other, Candidate options publication entryPoint request other →
        standing publication other ≤ standing publication route) →
      ∀ other ∈ publication.routes, covers other request = true → ¬ Outranks other route) :
    Ordered options publication entryPoint request where
  length_lt a ha hcovers hany hpos b hb hbany hbzero := by
    obtain ⟨top, htop, hhighest⟩ := exists_highest hb
    have hnot := h top htop hhighest a ha hcovers
    have htopany : top.hostname ≠ anyHost := fun htop => hnot ⟨hany, .inl htop⟩
    have hle : a.priority ≤ top.priority := by
      by_contra hlt
      exact hnot ⟨hany, .inr (not_le.mp hlt)⟩
    refine ⟨top, htop, htopany, ?_⟩
    show ruleLength (buildTraefikRule b) < top.priority + lift publication
    have hb_standing : standing publication b = ruleLength (buildTraefikRule b) :=
      standing_zero hbany hbzero
    rw [← hb_standing, ← standing_pos htopany (hpos.trans_le hle)]
    by_contra hge
    -- as high as the top, the other would be given the request
    refine h b hb (fun other hother => ?_) a ha hcovers ⟨hany, .inr (hbzero ▸ hpos)⟩
    exact (hhighest other hother).trans (not_lt.mp hge)
  nonneg a ha hany b hb hbany := by
    obtain ⟨top, htop, hhighest⟩ := exists_highest hb
    have hnot := h top htop hhighest b hb.mem hb.covered
    have htopany : top.hostname ≠ anyHost := fun htop => hnot ⟨hbany, .inl htop⟩
    refine ⟨top, htop, htopany, ?_⟩
    by_contra hneg
    have hle := hhighest a ha
    rw [standing_fallback hany, standing_neg htopany (not_le.mp hneg)] at hle
    omega
  served a ha hcovers b hb := by
    obtain ⟨top, htop, hhighest⟩ := exists_highest hb
    exact ⟨top, htop, h top htop hhighest a ha hcovers⟩

end

/-! ## What a configuration holds -/

variable {router : TraefikRouterConfig} {name : Utf16}

section

variable {localeCompare : Utf16 → Utf16 → ℤ} {options : CompileTraefikOptions}
  {publication : Publication} {a b route : Route} {kind : RouterKind}

lemma scoped_ne_iff : a.scoped ≠ b.scoped ↔
    (a.scope = b.scope → sanitizeIdentifier a.id ≠ sanitizeIdentifier b.id) := by
  rw [Ne, scoped_inj, not_and]

lemma names_apart_iff : (serviceName a ≠ serviceName b ∧ ∀ k l, routerName a k ≠ routerName b l) ↔
    (a.scope = b.scope → sanitizeIdentifier a.id ≠ sanitizeIdentifier b.id) := by
  rw [← scoped_ne_iff, Ne, serviceName_inj]
  constructor
  · intro h
    exact h.1
  · intro h
    exact ⟨h, fun k l heq => h (routerName_inj.mp heq).1⟩

lemma eq_of_scoped (h : publication.routes.Pairwise fun a b =>
    a.scope = b.scope → sanitizeIdentifier a.id ≠ sanitizeIdentifier b.id)
    (ha : a ∈ publication.routes) (hb : b ∈ publication.routes) (hab : a.scoped = b.scoped) : a = b := by
  by_contra hne
  have hsymm : Std.Symm fun a b : Route =>
      a.scope = b.scope → sanitizeIdentifier a.id ≠ sanitizeIdentifier b.id :=
    ⟨fun a b h hscope heq => h hscope.symm heq.symm⟩
  exact scoped_ne_iff.mpr (h.forall ha hb hne) hab

lemma mem_entryPoints {entryPoint : Utf16} : entryPoint ∈ entryPoints options publication route ↔
    ∃ kind ∈ routerKinds options publication route,
      entryPoint ∈ (routerOf options publication route kind).entryPoints := by
  unfold entryPoints routerKinds
  split_ifs <;> simp [routerOf]

lemma exists_of_get_routers
    (h : (configurationOf localeCompare options publication).routers.get name = some router) :
    ∃ route ∈ publication.routes, ∃ kind ∈ routerKinds options publication route,
      name = routerName route kind ∧ router = routerOf options publication route kind := by
  rw [routers_configurationOf, OrderedMap.get_apply, OrderedMap.get_empty] at h
  cases hlast : OrderedMap.lastWrite (routerWrites options publication publication.routes) name with
  | none =>
    rw [hlast] at h
    cases h
  | some value =>
    rw [hlast, Option.getD_some] at h
    obtain ⟨w, hw, hkey, hvalue⟩ := OrderedMap.exists_of_lastWrite hlast
    obtain ⟨route, hroute, hw⟩ := List.mem_flatMap.mp hw
    obtain ⟨kind, hkind, rfl⟩ := List.mem_map.mp hw
    refine ⟨route, hroute, kind, hkind, hkey.symm, ?_⟩
    exact (Option.some.inj (hvalue.trans h)).symm

section

variable (h : publication.routes.Pairwise fun a b => a.scope = b.scope → sanitizeIdentifier a.id ≠ sanitizeIdentifier b.id)
  (hroute : route ∈ publication.routes)
include h hroute

lemma get_routers (hkind : kind ∈ routerKinds options publication route) :
    (configurationOf localeCompare options publication).routers.get (routerName route kind) =
      some (routerOf options publication route kind) := by
  rw [routers_configurationOf, OrderedMap.get_apply,
    OrderedMap.lastWrite_eq_some (v := some (routerOf options publication route kind)) _ _,
    Option.getD_some]
  · refine ⟨.put (routerName route kind) (routerOf options publication route kind), ?_, rfl⟩
    exact List.mem_flatMap.mpr ⟨route, hroute, List.mem_map.mpr ⟨kind, hkind, rfl⟩⟩
  · intro w hw hkey
    obtain ⟨other, hother, hw⟩ := List.mem_flatMap.mp hw
    obtain ⟨kind', hkind', rfl⟩ := List.mem_map.mp hw
    have hname : routerName other kind' = routerName route kind := hkey
    obtain ⟨hscoped, rfl⟩ := routerName_inj.mp hname
    obtain rfl := eq_of_scoped h hother hroute hscoped
    rfl

lemma get_services :
    (configurationOf localeCompare options publication).services.get (serviceName route) =
      some (serviceOf route) := by
  rw [services_configurationOf, OrderedMap.get_apply,
    OrderedMap.lastWrite_eq_some (v := some (serviceOf route)) _ _, Option.getD_some]
  · exact ⟨.put (serviceName route) (serviceOf route), List.mem_map.mpr ⟨route, hroute, rfl⟩, rfl⟩
  · intro w hw hkey
    obtain ⟨other, hother, rfl⟩ := List.mem_map.mp hw
    have hname : serviceName other = serviceName route := hkey
    obtain rfl := eq_of_scoped h hother hroute (serviceName_inj.mp hname)
    rfl

lemma eq_of_get_routers
    (hget : (configurationOf localeCompare options publication).routers.get (routerName route kind) =
      some router) : kind ∈ routerKinds options publication route ∧
      router = routerOf options publication route kind := by
  obtain ⟨other, hother, kind', hkind', hname, rfl⟩ := exists_of_get_routers hget
  obtain ⟨hscoped, rfl⟩ := routerName_inj.mp hname
  obtain rfl := eq_of_scoped h hroute hother hscoped
  exact ⟨hkind', rfl⟩

end

lemma exists_routerKind (options : CompileTraefikOptions) (publication : Publication) (route : Route) :
    ∃ kind, kind ∈ routerKinds options publication route := by
  unfold routerKinds
  split_ifs
  · exact ⟨.https, by decide⟩
  · exact ⟨.https, by decide⟩
  · exact ⟨.http, by decide⟩

/-! ## Both directions -/

section

variable {entryPoint : Utf16} {request : Request}

/-- Where names are apart and paths can be spelled, a router is given a request if its route is the
highest that is served there and for it. -/
theorem wins_iff (happart : publication.routes.Pairwise fun a b =>
    a.scope = b.scope → sanitizeIdentifier a.id ≠ sanitizeIdentifier b.id)
    (hregistered : ∀ route ∈ publication.routes, Registered route)
    (hplain : ∀ route ∈ publication.routes, Plain route) :
    Wins (configurationOf localeCompare options publication) entryPoint request name router ↔
      ∃ route ∈ publication.routes, ∃ kind ∈ routerKinds options publication route,
        name = routerName route kind ∧ router = routerOf options publication route kind ∧
        entryPoint ∈ router.entryPoints ∧ covers route request = true ∧
        ∀ other, Candidate options publication entryPoint request other →
          standing publication other ≤ standing publication route := by
  have hcovers : ∀ route ∈ publication.routes, ∀ kind,
      accepts (routerOf options publication route kind) request = covers route request :=
    fun route hroute kind => accepts_eq_covers (hregistered route hroute) (hplain route hroute) request
  constructor
  · intro h
    obtain ⟨route, hroute, kind, hkind, hname, rfl⟩ := exists_of_get_routers h.configured
    refine ⟨route, hroute, kind, hkind, hname, rfl, h.listens, ?_, ?_⟩
    · exact (hcovers route hroute kind).symm.trans h.accepted
    · intro other hother
      obtain ⟨kind', hkind', hlistens⟩ := mem_entryPoints.mp hother.served
      have hle := h.highest _ _ (get_routers happart hother.mem hkind') hlistens
        ((hcovers other hother.mem kind').trans hother.covered)
      rwa [effectivePriority_routerOf, effectivePriority_routerOf] at hle
  · rintro ⟨route, hroute, kind, hkind, rfl, rfl, hlistens, hcovered, htop⟩
    refine ⟨get_routers happart hroute hkind, hlistens, (hcovers route hroute kind).trans hcovered, ?_⟩
    intro name' other hget hother haccepted
    obtain ⟨route', hroute', kind', hkind', -, rfl⟩ := exists_of_get_routers hget
    rw [effectivePriority_routerOf, effectivePriority_routerOf]
    exact htop route' ⟨hroute', mem_entryPoints.mpr ⟨kind', hkind', hother⟩,
      (hcovers route' hroute' kind').symm.trans haccepted⟩

lemma preservesRouting_of_faithful (hregistered : ∀ route ∈ publication.routes, Registered route)
    (h : Faithful options publication) :
    PreservesRouting publication (configurationOf localeCompare options publication) where
  apart := h.apart.imp fun hab => names_apart_iff.mpr hab
  service route hroute := get_services h.apart hroute
  router route hroute := by
    obtain ⟨kind, hkind⟩ := exists_routerKind options publication route
    exact ⟨kind, _, get_routers h.apart hroute hkind⟩
  leads route hroute kind router hget := by
    obtain ⟨-, rfl⟩ := eq_of_get_routers h.apart hroute hget
    rfl
  exact route hroute kind router hget request := by
    obtain ⟨-, rfl⟩ := eq_of_get_routers h.apart hroute hget
    exact accepts_eq_covers (hregistered route hroute) (h.plain route hroute) request
  selected entryPoint request name router hwins := by
    obtain ⟨route, hroute, kind, hkind, hname, rfl, hlistens, hcovered, htop⟩ :=
      (wins_iff h.apart hregistered h.plain).mp hwins
    have hcandidate : Candidate options publication entryPoint request route :=
      ⟨hroute, mem_entryPoints.mpr ⟨kind, hkind, hlistens⟩, hcovered⟩
    refine ⟨route, hroute, ⟨kind, hname⟩, fun other hother hcovers => ?_⟩
    exact (h.ordered entryPoint request).not_outranks hcandidate htop hother hcovers

lemma faithful_of_preservesRouting (hregistered : ∀ route ∈ publication.routes, Registered route)
    (h : PreservesRouting publication (configurationOf localeCompare options publication)) :
    Faithful options publication := by
  have happart : publication.routes.Pairwise fun a b =>
      a.scope = b.scope → sanitizeIdentifier a.id ≠ sanitizeIdentifier b.id :=
    h.apart.imp fun hab => names_apart_iff.mp hab
  have hplain : ∀ route ∈ publication.routes, Plain route := by
    intro route hroute
    obtain ⟨kind, hkind⟩ := exists_routerKind options publication route
    apply plain_of_accepts (hregistered route hroute)
    intro request
    exact h.exact route hroute kind _ (get_routers happart hroute hkind) request
  refine ⟨happart, hplain, fun entryPoint request => ordered_of_not_outranks ?_⟩
  intro route hroute htop other hother hcovers
  obtain ⟨kind, hkind, hlistens⟩ := mem_entryPoints.mp hroute.served
  have hwins : Wins (configurationOf localeCompare options publication) entryPoint request
      (routerName route kind) (routerOf options publication route kind) :=
    (wins_iff happart hregistered hplain).mpr
      ⟨route, hroute.mem, kind, hkind, rfl, rfl, hlistens, hroute.covered, htop⟩
  obtain ⟨selected, hselected, ⟨kind', hname⟩, hbest⟩ := h.selected _ _ _ _ hwins
  obtain rfl := eq_of_scoped happart hroute.mem hselected (routerName_inj.mp hname).1
  exact hbest other hother hcovers

end

/-- Of a publication the route registry accepts, the compiled configuration does with requests what
the routes say if and only if the routes' ids stay apart, their paths can be spelled, and their
priorities stay in order. -/
theorem preservesRouting_iff (S : Standard) (options : CompileTraefikOptions) {store : Store}
    {revision : ℕ} {compiledAt : Utf16} {p : Publication}
    (h : Edge.publication S store revision compiledAt = .ok p) :
    (∃ generation, compileTraefikPublication S.localeCompare options p = .ok generation ∧
      PreservesRouting p generation.configuration) ↔ Faithful options p := by
  have hregistered : ∀ route ∈ p.routes, Registered route :=
    fun route hroute => registered_of_publication h hroute
  rw [compileTraefikPublication_eq_ok]
  constructor
  · rintro ⟨generation, hgeneration, hpreserves⟩
    obtain rfl := Except.ok.inj hgeneration
    exact faithful_of_preservesRouting hregistered hpreserves
  · intro hfaithful
    exact ⟨_, rfl, preservesRouting_of_faithful hregistered hfaithful⟩

end

/-! ## Two routes under one name -/

def plainStandard : Standard where
  toLowerCase s := s
  isHttpUrl _ := true
  localeCompare a b := if a = b then 0 else if a < b then -1 else 1

def platformRoute (id hostname : Utf16) : Route where
  id := id
  scope := .platform
  hostname := hostname
  pathPrefix := [slash]
  pathMatch := .beginning
  targets := [⟨utf16 "http://127.0.0.1:3000", 100, none, none⟩]
  protocols := [.http]
  priority := 0
  createdAt := utf16 "2026-01-01T00:00:00.000Z"
  updatedAt := utf16 "2026-01-01T00:00:00.000Z"

/-- `shop.web` for one hostname. -/
def dotRoute : Route := platformRoute (utf16 "shop.web") (utf16 "a.example")

/-- `shop:web` for another. -/
def colonRoute : Route := platformRoute (utf16 "shop:web") (utf16 "b.example")

def storeOf (routes : List Route) : Store where
  routes := .ofList (routes.map fun route => (route.id, route))

theorem preservesRouting_dotRoute : (∃ generation,
      compileTraefikPublication plainStandard.localeCompare {} (compiled 1 [] [] [dotRoute]) =
        .ok generation ∧ PreservesRouting (compiled 1 [] [] [dotRoute]) generation.configuration) ↔
    Faithful {} (compiled 1 [] [] [dotRoute]) :=
  preservesRouting_iff plainStandard {} (show publication plainStandard (storeOf [dotRoute]) 1 [] =
    .ok (compiled 1 [] [] [dotRoute]) by decide)

theorem not_preservesRouting : ¬ ∀ (S : Standard) (options : CompileTraefikOptions) (store : Store)
    (revision : ℕ) (compiledAt : Utf16) (p : Publication), publication S store revision compiledAt = .ok p →
    ∃ generation, compileTraefikPublication S.localeCompare options p = .ok generation ∧
      PreservesRouting p generation.configuration := by
  intro h
  have hpublication : publication plainStandard (storeOf [dotRoute, colonRoute]) 1 [] =
      .ok (compiled 1 [] [] [dotRoute, colonRoute]) := by decide
  obtain ⟨generation, -, hpreserves⟩ := h plainStandard {} _ 1 [] _ hpublication
  have hnames := (List.pairwise_pair.mp hpreserves.apart).1
  exact hnames (by decide)

end Zelavis.Edge.Traefik
