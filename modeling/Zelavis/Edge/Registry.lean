import Zelavis.Edge.RouteValidation

/-!
# Definitions that are read as they were accepted

`routes.ts`: what `putHostname` and `putRoute` store is checked again whenever it is read, and one record that
is refused then blocks every listing and every publication.
-/

namespace Zelavis.Edge.Registry

open Lib List Option

/-! ## Putting and getting -/

/-- What is checked and stored alike. -/
structure Kind (α : Type) where
  validate : α → Except RouteError α
  key : α → Utf16
  normalize : Utf16 → Except RouteError Utf16
  createdAt : α → Utf16
  stamped : α → Utf16 → Utf16 → α

variable {α : Type}

/-- The records a definition leaves, and what it is answered; a record under its key is read before.
Source: `putHostname`, `putRoute`. -/
def Kind.put (K : Kind α) (timestamp : Utf16) (records : OrderedMap Utf16 α) (input : α) :
    OrderedMap Utf16 α × Except RouteError α :=
  let put := do
    let validated ← K.validate input
    let createdAt ← (records.get (K.key validated)).elim (.ok timestamp) fun existing =>
      (K.validate existing).map K.createdAt
    pure (K.stamped validated createdAt timestamp)
  match put with
  | .ok stored => (records.insert (K.key stored) stored, .ok stored)
  | .error e => (records, .error e)

/-- Source: `getHostname`, `getRoute`. -/
def Kind.get (K : Kind α) (records : OrderedMap Utf16 α) (name : Utf16) : Except RouteError (Option α) := do
  let normalized ← K.normalize name
  (records.get normalized).mapM K.validate

variable (S : Standard)

def hostnameKind : Kind Hostname where
  validate := validateHostname S
  key := Hostname.host
  normalize := normalizeHostValue S
  createdAt := Hostname.createdAt
  stamped := fun hostname created updated => { hostname with createdAt := created, updatedAt := updated }

def routeKind : Kind Route where
  validate := validateRoute S
  key := Route.id
  normalize := normalizeRouteId S
  createdAt := Route.createdAt
  stamped := fun route created updated => { route with createdAt := created, updatedAt := updated }

def NotBlank (value : Option Utf16) : Prop := ∀ text ∈ value, text ≠ [] → trim text ≠ []

def PlainHostname (hostname : Hostname) : Prop := NotBlank hostname.projectId

structure PlainRoute (route : Route) : Prop where
  projectId : NotBlank route.projectId
  nodeId : ∀ target ∈ route.targets, NotBlank target.nodeId
  path : ∀ check ∈ route.healthCheck, trim check.path ≠ []

/-- The stores that definitions put and deleted lead to, each accepted or not. -/
inductive Runs (H : Hostname → Prop) (R : Route → Prop) : Store → Prop where
  | empty : Runs H R {}
  | putHostname {store : Store} (timestamp : Utf16) (input : Hostname) (h : Runs H R store) (hinput : H input) :
    Runs H R { store with hostnames := ((hostnameKind S).put timestamp store.hostnames input).1 }
  | deleteHostname {store : Store} (host : Utf16) (h : Runs H R store) :
    Runs H R { store with hostnames := store.hostnames.erase host }
  | putRoute {store : Store} (timestamp : Utf16) (input : Route) (h : Runs H R store) (hinput : R input) :
    Runs H R { store with routes := ((routeKind S).put timestamp store.routes input).1 }
  | deleteRoute {store : Store} (id : Utf16) (h : Runs H R store) :
    Runs H R { store with routes := store.routes.erase id }

/-- Whatever is put is answered as it is stored, or leaves the records as they were; and what is got is what is
stored. -/
structure Kept (K : Kind α) (records : OrderedMap Utf16 α) : Prop where
  get : ∀ name, K.get records name = (K.normalize name).map records.get
  put : ∀ timestamp input, (∃ out, (K.put timestamp records input).2 = .ok out ∧
      ∀ k, (K.put timestamp records input).1.get k = if k = K.key out then some out else records.get k) ∨
    ∃ e, K.put timestamp records input = (records, .error e)

/-- All that is stored is listed and compiled as it is. -/
structure Reads (store : Store) : Prop where
  hostnames : Kept (hostnameKind S) store.hostnames
  routes : Kept (routeKind S) store.routes
  listHostnames : listHostnames S store = .ok (store.hostnames.entries.map Prod.snd)
  listRoutes : listRoutes S store = .ok (sortRoutes S.localeCompare (store.routes.entries.map Prod.snd))
  compile : ∀ revision compiledAt, publication S store revision compiledAt =
    .ok (compiled revision compiledAt (store.hostnames.entries.map Prod.snd)
      (sortRoutes S.localeCompare (store.routes.entries.map Prod.snd)))

/-! ## Checks that change nothing -/

variable {S : Standard} {K : Kind α} {records : OrderedMap Utf16 α} {s : Utf16}

lemma dropWhile_of_prefix {p : CodeUnit → Bool} {t : Utf16} (h : s <+: t) (ht : t.dropWhile p = t) :
    s.dropWhile p = s := by
  obtain ⟨rest, rfl⟩ := h
  cases s with
  | nil => rfl
  | cons c s =>
    rw [dropWhile_eq_self_iff] at ht ⊢
    simpa using ht

lemma trim_trim (s : Utf16) : trim (trim s) = trim s := by
  have hhead : (trim s).dropWhile isBlank = trim s :=
    dropWhile_of_prefix (List.rdropWhile_prefix isBlank _) (dropWhile_idempotent isBlank s)
  rw [trim, hhead, trim, rdropWhile_idempotent]

lemma trim_eq_self (h : ∀ c ∈ s, isBlank c = false) : trim s = s := by
  rw [trim, dropWhile_eq_self_iff.2 fun hl => by simp [h _ (getElem_mem hl)],
    rdropWhile_eq_self_iff.2 fun hl => by simp [h _ (getLast_mem hl)]]

lemma isBlank_of_isIdUnit {c : CodeUnit} (h : isIdUnit c = true) : isBlank c = false := by
  simp only [isIdUnit, isHostUnit, isAlphanumeric, dot, isBlank, Bool.or_eq_true, Bool.and_eq_true,
    decide_eq_true_eq, Bool.or_eq_false_iff, Bool.and_eq_false_iff, decide_eq_false_iff_not, Fin.le_def,
    Fin.ext_iff, Fin.coe_ofNat_eq_mod, Nat.reduceMod] at h ⊢
  omega

def LowerCase (S : Standard) : Prop := ∀ s : Utf16, (∀ c ∈ s, isIdUnit c = true) → S.toLowerCase s = s

lemma normalizeRouteId_again (hS : LowerCase S) {id : Utf16} (h : normalizeRouteId S id = .ok s) :
    normalizeRouteId S s = .ok s := by
  unfold normalizeRouteId at h
  dsimp only at h
  split_ifs at h with hbad
  obtain rfl := Except.ok.inj h
  have hunits : ∀ c ∈ S.toLowerCase (trim id), isIdUnit c = true := by
    simp only [ROUTE_ID_PATTERN, isBounded, not_or, Bool.not_eq_false, Bool.and_eq_true, List.all_eq_true] at hbad
    exact hbad.2.1.2
  unfold normalizeRouteId
  dsimp only
  rw [trim_eq_self fun c hc => isBlank_of_isIdUnit (hunits c hc), hS _ hunits, if_neg hbad]

variable {host : Utf16}

lemma normalizeHostValue_again (hS : LowerCase S) (h : normalizeHostValue S host = .ok s) :
    normalizeHostValue S s = .ok s := by
  have hpattern := pattern_of_normalizeHostValue h
  have hunits : ∀ c ∈ s, isIdUnit c = true := fun c hc => by
    have := isNameUnit_of_pattern hpattern hc
    simp only [isNameUnit, isIdUnit, Bool.or_eq_true] at this ⊢
    exact Or.inl (Or.inl this)
  unfold normalizeHostValue at h
  dsimp only at h
  split_ifs at h with hbad
  obtain rfl := Except.ok.inj h
  unfold normalizeHostValue
  dsimp only
  rw [trim_eq_self fun c hc => isBlank_of_isIdUnit (hunits c hc), hS _ hunits, rdropWhile_idempotent,
    if_neg hbad]

lemma normalizeRouteHost_again (hS : LowerCase S) (h : normalizeRouteHost S host = .ok s) :
    normalizeRouteHost S s = .ok s := by
  unfold normalizeRouteHost at h ⊢
  split_ifs at h with hany
  · obtain rfl := Except.ok.inj h
    simp
  · split_ifs with hs
    · rw [hs]
    · exact normalizeHostValue_again hS h

lemma trimmed_again {value : Option Utf16} (h : NotBlank value) : trimmed (trimmed value) = trimmed value := by
  cases value with
  | none => rfl
  | some text =>
    by_cases hempty : text = []
    · simp [trimmed, filter_some, hempty]
    · simp [trimmed, filter_some, hempty, h text rfl hempty, trim_trim]

lemma validateScope_again {scope : Scope} {projectId : Option Utf16} {label : Utf16} {u : Unit}
    (h : validateScope scope projectId label = .ok u) :
    validateScope scope (trimmed projectId) label = .ok () := by
  unfold validateScope at h ⊢
  rw [require_eq_ok] at h ⊢
  cases projectId with
  | none => exact h
  | some id =>
    by_cases hempty : id = []
    · simpa [trimmed, filter_some, hempty, show trim [] = [] from rfl] using h
    · simpa [trimmed, filter_some, hempty, trim_trim] using h

/-! ## What was accepted is accepted again -/

lemma validateHostname_again (hS : LowerCase S) {input out : Hostname} (h : validateHostname S input = .ok out)
    (hplain : PlainHostname input) (created updated : Utf16) :
    validateHostname S ((hostnameKind S).stamped out created updated) =
      .ok ((hostnameKind S).stamped out created updated) := by
  obtain ⟨host, hhost, h⟩ := bind_eq_ok_iff.1 h
  obtain ⟨_, hscope, h⟩ := bind_eq_ok_iff.1 h
  obtain ⟨_, hmissing, h⟩ := bind_eq_ok_iff.1 h
  obtain ⟨_, hunused, h⟩ := bind_eq_ok_iff.1 h
  obtain ⟨_, hlength, h⟩ := bind_eq_ok_iff.1 h
  obtain rfl := Except.ok.inj h
  rw [require_eq_ok] at hmissing hunused hlength
  -- the reference, as it is kept, passes each check of it, and is kept so again
  have href : (((input.certificateRef.map trim).filter (· ≠ [])).map trim).filter (· ≠ []) =
      (input.certificateRef.map trim).filter (· ≠ []) := by
    cases input.certificateRef with
    | none => rfl
    | some ref => by_cases hempty : trim ref = [] <;> simp [filter_some, hempty, trim_trim]
  refine bind_eq_ok_iff.2 ⟨_, normalizeHostValue_again hS hhost, bind_eq_ok_iff.2 ⟨(), validateScope_again hscope,
    bind_eq_ok_iff.2 ⟨(), require_eq_ok.2 ?_, bind_eq_ok_iff.2 ⟨(), require_eq_ok.2 ?_,
    bind_eq_ok_iff.2 ⟨(), require_eq_ok.2 ?_, ?_⟩⟩⟩⟩⟩
  · cases hcert : input.certificateRef with
    | none => simpa [hostnameKind, hcert] using hmissing
    | some ref =>
      rw [hcert] at hmissing
      by_cases hempty : trim ref = []
      · simpa [hostnameKind, filter_some, hempty] using hmissing
      · simp [hostnameKind, filter_some, hempty, trim_trim]
  · cases hcert : input.certificateRef with
    | none => simp [hostnameKind]
    | some ref =>
      rw [hcert] at hunused
      by_cases hempty : trim ref = []
      · simp [hostnameKind, filter_some, hempty]
      · have hne : ref ≠ [] := fun he => hempty (by rw [he]; rfl)
        simpa [hostnameKind, filter_some, hempty, hne] using hunused
  · cases hcert : input.certificateRef with
    | none => simp [hostnameKind]
    | some ref =>
      rw [hcert] at hlength
      by_cases hempty : trim ref = []
      · simp [hostnameKind, filter_some, hempty]
      · simpa [hostnameKind, filter_some, hempty, trim_trim] using hlength
  · simp only [hostnameKind, href, trimmed_again hplain]
    rfl

lemma eraseDups_again (l : List Protocol) : l.eraseDups.eraseDups = l.eraseDups := by
  induction hn : l.length using Nat.strong_induction_on generalizing l with
  | _ n ih =>
    cases l with
    | nil => rfl
    | cons a l =>
      have hself : (l.filter fun b => !b == a).eraseDups.filter (fun b => !b == a) =
          (l.filter fun b => !b == a).eraseDups :=
        filter_eq_self.2 fun b hb => (mem_filter.1 (mem_eraseDups.1 hb)).2
      rw [eraseDups_cons, eraseDups_cons, hself,
        ih _ (hn ▸ Nat.lt_succ_of_le (length_filter_le _ l)) _ rfl]

lemma forall₂_zipIdx {β : Type} {R : β × ℕ → β → Prop} {l bs : List β} {k : ℕ}
    (h : List.Forall₂ R (l.zipIdx k) bs) (hagain : ∀ t ∈ l, ∀ i b, R (t, i) b → ∀ j, R (b, j) b) :
    List.Forall₂ R (bs.zipIdx k) bs := by
  induction l generalizing bs k with
  | nil => cases h; exact .nil
  | cons t l ih =>
    rw [zipIdx_cons] at h
    cases h with
    | cons hhead htail =>
      exact .cons (hagain t mem_cons_self _ _ hhead _)
        (ih htail fun t ht => hagain t (mem_cons_of_mem _ ht))

lemma validateTarget_again {t b : Target} {i j : ℕ} (h : validateTarget S t i = .ok b)
    (hplain : NotBlank t.nodeId) : validateTarget S b j = .ok b := by
  obtain ⟨_, hurl, h⟩ := bind_eq_ok_iff.1 h
  obtain ⟨_, hhttp, h⟩ := bind_eq_ok_iff.1 h
  obtain ⟨_, hweight, h⟩ := bind_eq_ok_iff.1 h
  obtain ⟨_, hgeneration, h⟩ := bind_eq_ok_iff.1 h
  obtain rfl := Except.ok.inj h
  rw [require_eq_ok] at hurl hhttp hweight hgeneration
  simp [validateTarget, require, trim_trim, trimmed_again hplain, hurl, hhttp, hweight, hgeneration]

lemma validateHealthCheck_again {check out : HealthCheckPolicy} (h : validateHealthCheck check = .ok out)
    (hpath : trim check.path ≠ []) : validateHealthCheck out = .ok out := by
  obtain ⟨_, -, h⟩ := bind_eq_ok_iff.1 h
  obtain ⟨_, h₁, h⟩ := bind_eq_ok_iff.1 h
  obtain ⟨_, h₂, h⟩ := bind_eq_ok_iff.1 h
  obtain ⟨_, h₃, h⟩ := bind_eq_ok_iff.1 h
  obtain ⟨_, h₄, h⟩ := bind_eq_ok_iff.1 h
  obtain rfl := Except.ok.inj h
  rw [require_eq_ok] at h₁ h₂ h₃ h₄
  simp [validateHealthCheck, require, trim_trim, hpath, h₁, h₂, h₃, h₄]

lemma validateRoute_again (hS : LowerCase S) {input out : Route} (h : validateRoute S input = .ok out)
    (hplain : PlainRoute input) (created updated : Utf16) :
    validateRoute S ((routeKind S).stamped out created updated) = .ok ((routeKind S).stamped out created updated) := by
  obtain ⟨id, hid, h⟩ := bind_eq_ok_iff.1 h
  obtain ⟨_, hscope, h⟩ := bind_eq_ok_iff.1 h
  obtain ⟨hostname, hhost, h⟩ := bind_eq_ok_iff.1 h
  obtain ⟨_, hreserved, h⟩ := bind_eq_ok_iff.1 h
  obtain ⟨_, hrooted, h⟩ := bind_eq_ok_iff.1 h
  obtain ⟨_, htargets, h⟩ := bind_eq_ok_iff.1 h
  obtain ⟨targets, hmapped, h⟩ := bind_eq_ok_iff.1 h
  obtain ⟨_, htimeout, h⟩ := bind_eq_ok_iff.1 h
  obtain ⟨_, hbody, h⟩ := bind_eq_ok_iff.1 h
  obtain ⟨_, hpriority, h⟩ := bind_eq_ok_iff.1 h
  obtain ⟨health, hhealth, h⟩ := bind_eq_ok_iff.1 h
  obtain rfl := Except.ok.inj h
  rw [require_eq_ok] at hreserved hrooted htargets htimeout hbody hpriority
  have hagain : targets.zipIdx.mapM (fun target => validateTarget S target.1 target.2) = .ok targets :=
    mapM_eq_ok_iff.2 (forall₂_zipIdx (mapM_eq_ok_iff.1 hmapped) fun t ht i b hb j =>
      validateTarget_again hb (hplain.nodeId t ht))
  have hsome : targets ≠ [] := by
    rintro rfl
    have hnone := (mapM_eq_ok_iff.1 hmapped).length_eq
    simp at hnone
    simp [hnone] at htargets
  have hchecked : health.mapM validateHealthCheck = .ok health := by
    cases hcheck : input.healthCheck with
    | none =>
      rw [hcheck] at hhealth
      cases hhealth
      rfl
    | some check =>
      rw [hcheck, mapM_some] at hhealth
      cases hout : validateHealthCheck check with
      | error e => rw [hout] at hhealth; cases hhealth
      | ok checked =>
        rw [hout] at hhealth
        cases hhealth
        rw [mapM_some, validateHealthCheck_again hout (hplain.path check hcheck)]
        rfl
  refine bind_eq_ok_iff.2 ⟨_, normalizeRouteId_again hS hid, bind_eq_ok_iff.2 ⟨(), validateScope_again hscope,
    bind_eq_ok_iff.2 ⟨_, normalizeRouteHost_again hS hhost, bind_eq_ok_iff.2 ⟨(), require_eq_ok.2 ?_,
    bind_eq_ok_iff.2 ⟨(), require_eq_ok.2 ?_, bind_eq_ok_iff.2 ⟨(), require_eq_ok.2 (decide_eq_true hsome),
    bind_eq_ok_iff.2 ⟨_, hagain, bind_eq_ok_iff.2 ⟨(), require_eq_ok.2 htimeout, bind_eq_ok_iff.2 ⟨(),
    require_eq_ok.2 hbody, bind_eq_ok_iff.2 ⟨(), require_eq_ok.2 hpriority, bind_eq_ok_iff.2 ⟨_, hchecked, ?_⟩⟩⟩⟩⟩⟩⟩⟩⟩⟩⟩
  · simp only [Bool.or_eq_true, Bool.and_eq_true, decide_eq_true_eq] at hreserved ⊢
    exact hreserved.imp_right fun h => ⟨⟨⟨h.1.1.1, (congrArg trim h.1.1.2).trans trim_slash⟩, h.1.2⟩, h.2⟩
  · exact (congrArg (fun s => decide (s.head? = some MatchRules.slash)) (trim_trim _)).trans hrooted
  · simp only [routeKind, trim_trim, trimmed_again hplain.projectId, eraseDups_again]
    rfl

/-! ## Over any changes -/

lemma kept_of_valid (hvalid : ∀ k v, records.get k = some v → K.validate v = .ok v) : Kept K records where
  get name := by
    unfold Kind.get
    cases K.normalize name with
    | error e => rfl
    | ok k =>
      show (records.get k).mapM K.validate = .ok (records.get k)
      cases hk : records.get k with
      | none => rfl
      | some v => rw [mapM_some, hvalid k v hk]; rfl
  put timestamp input := by
    unfold Kind.put
    dsimp only
    split
    · rename_i stored _
      refine Or.inl ⟨stored, rfl, fun k => ?_⟩
      rw [OrderedMap.get_insert]
      split_ifs <;> rfl
    · rename_i e _
      exact Or.inr ⟨e, rfl⟩

lemma valid_put {C : α → Prop} {timestamp : Utf16} {input : α}
    (hagain : ∀ input out, K.validate input = .ok out → C input → ∀ created updated,
      K.validate (K.stamped out created updated) = .ok (K.stamped out created updated))
    (hvalid : ∀ k v, records.get k = some v → K.validate v = .ok v) (hinput : C input) :
    ∀ k v, (K.put timestamp records input).1.get k = some v → K.validate v = .ok v := by
  intro k v hk
  unfold Kind.put at hk
  dsimp only at hk
  split at hk
  · rename_i stored hput
    rw [OrderedMap.get_insert] at hk
    split_ifs at hk
    · obtain rfl := some.inj hk
      obtain ⟨validated, hout, hput⟩ := bind_eq_ok_iff.1 hput
      obtain ⟨created, -, hput⟩ := bind_eq_ok_iff.1 hput
      obtain rfl := Except.ok.inj hput
      exact hagain input validated hout hinput created timestamp
    · exact hvalid k v hk
  · exact hvalid k v hk

lemma mapM_of_valid {validate : α → Except RouteError α}
    (hvalid : ∀ k v, records.get k = some v → validate v = .ok v) :
    records.entries.mapM (fun record => validate record.2) = .ok (records.entries.map Prod.snd) :=
  mapM_eq_ok_iff.2 (List.forall₂_map_right_iff.2 (List.forall₂_same.2 fun e he =>
    hvalid e.1 e.2 (OrderedMap.mem_entries.1 he)))

lemma valid_erase {P : α → Prop} (hvalid : ∀ k v, records.get k = some v → P v) (name : Utf16) :
    ∀ k v, (records.erase name).get k = some v → P v := by
  intro k v hk
  rw [OrderedMap.get_erase] at hk
  split_ifs at hk
  exact hvalid k v hk

/-- After any changes of which those that were accepted were by plain definitions: what is stored is got, listed
and compiled as it is. -/
theorem reads_of_runs (hS : LowerCase S) {store : Store}
    (h : Runs S (fun input => ∀ out, validateHostname S input = .ok out → PlainHostname input)
      (fun input => ∀ out, validateRoute S input = .ok out → PlainRoute input) store) : Reads S store := by
  have hvalid : (∀ k v, store.hostnames.get k = some v → validateHostname S v = .ok v) ∧
      ∀ k v, store.routes.get k = some v → validateRoute S v = .ok v := by
    induction h with
    | empty => exact ⟨fun k v hk => absurd hk (by simp), fun k v hk => absurd hk (by simp)⟩
    | putHostname timestamp input _ hinput ih =>
      exact ⟨valid_put (K := hostnameKind S)
        (C := fun input => ∀ out, validateHostname S input = .ok out → PlainHostname input)
        (fun _ _ hout hplain => validateHostname_again hS hout (hplain _ hout)) ih.1 hinput, ih.2⟩
    | putRoute timestamp input _ hinput ih =>
      exact ⟨ih.1, valid_put (K := routeKind S)
        (C := fun input => ∀ out, validateRoute S input = .ok out → PlainRoute input)
        (fun _ _ hout hplain => validateRoute_again hS hout (hplain _ hout)) ih.2 hinput⟩
    | deleteHostname host _ ih => exact ⟨valid_erase ih.1 host, ih.2⟩
    | deleteRoute id _ ih => exact ⟨ih.1, valid_erase ih.2 id⟩
  have hhostnames : listHostnames S store = .ok (store.hostnames.entries.map Prod.snd) := mapM_of_valid hvalid.1
  have hroutes : listRoutes S store =
      .ok (sortRoutes S.localeCompare (store.routes.entries.map Prod.snd)) := by
    rw [listRoutes, mapM_of_valid hvalid.2]
    rfl
  refine ⟨kept_of_valid hvalid.1, kept_of_valid hvalid.2, hhostnames, hroutes, fun revision compiledAt => ?_⟩
  rw [publication, hhostnames, hroutes]
  rfl

/-- Letters of the basic alphabet in lower case, any URL, and texts compared as equal. -/
def plainStandard : Standard where
  toLowerCase := fun s => s.map fun c => if 0x41 ≤ c && c ≤ 0x5A then c + 0x20 else c
  isHttpUrl := fun _ => true
  localeCompare := fun _ _ => 0

lemma lowerCase_plainStandard : LowerCase plainStandard := by
  intro s hs
  refine (map_congr_left fun c hc => if_neg ?_).trans (List.map_id s)
  have hid := hs c hc
  simp only [isIdUnit, isHostUnit, isAlphanumeric, dot, Bool.or_eq_true, Bool.and_eq_true, decide_eq_true_eq,
    Fin.le_def, Fin.ext_iff, Fin.coe_ofNat_eq_mod, Nat.reduceMod] at hid ⊢
  omega

def blankRoute : Route where
  id := utf16 "r"
  scope := .platform
  hostname := utf16 "example.com"
  pathPrefix := utf16 "/"
  pathMatch := .beginning
  targets := [{ url := utf16 "http://127.0.0.1", weight := 1 }]
  protocols := [.http]
  healthCheck := some ⟨utf16 " ", 1000, 1000, 1, 1⟩
  priority := 1
  createdAt := []
  updatedAt := []

theorem not_reads_blankRoute : ¬∀ S : Standard, LowerCase S → ∀ store,
    Runs S (fun _ => True) (fun _ => True) store → Reads S store := by
  intro h
  have hruns := Runs.putRoute (H := fun _ => True) (R := fun _ => True) [] blankRoute (.empty (S := plainStandard)) trivial
  have hlist := (h plainStandard lowerCase_plainStandard _ hruns).listRoutes
  have hrefused : listRoutes plainStandard { routes := ((routeKind plainStandard).put [] .empty blankRoute).1 } =
      .error .healthPath := by decide +kernel
  exact absurd (hlist.symm.trans hrefused) (by simp)

theorem reads_of_runs_unchecked : Reads plainStandard
    { routes := ((routeKind plainStandard).put [] .empty { blankRoute with healthCheck := none }).1 } :=
  reads_of_runs lowerCase_plainStandard (.putRoute [] _ .empty fun _ _ =>
    ⟨by simp [NotBlank, blankRoute], by simp [NotBlank, blankRoute], by simp⟩)

end Zelavis.Edge.Registry
