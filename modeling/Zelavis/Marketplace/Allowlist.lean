import Zelavis.Db.KeyValue
import Zelavis.Edge.RouteValidation

/-!
# The marketplace allow-list

`allowlist/parse.ts` and `allowlist/types.ts`: the document that says which packages may be installed, at
which versions and with which digests, and what `project-managed.ts` says of a recipe in it.
-/

namespace Zelavis.Marketplace

open Lib Db Edge List

variable {value : Option Json} {place : Utf16}

/-! ## Patterns -/

/-- `[0-9]`. -/
def isDigit (c : CodeUnit) : Bool := 0x30 ≤ c && c ≤ 0x39

/-- `[0-9A-Za-z]`. -/
def isWordUnit (c : CodeUnit) : Bool := isAlphanumeric c || 0x41 ≤ c && c ≤ 0x5A

/-- `[a-z0-9._-]`. -/
def isNpmUnit (c : CodeUnit) : Bool := isHostUnit c || c = dot || c = 0x5F

/-- Source: `parse.ts` `NPM_UNSCOPED`. -/
def NPM_UNSCOPED (s : Utf16) : Bool := s.head?.any isAlphanumeric && s.all isNpmUnit

/-- Source: `parse.ts` `NPM_SCOPED`. -/
def NPM_SCOPED : Utf16 → Bool
  | 0x40 :: rest => match rest.splitOn 0x2F with
    | [scope, name] => NPM_UNSCOPED scope && NPM_UNSCOPED name
    | _ => false
  | _ => false

def afterDigits (s : Utf16) : Option Utf16 :=
  if s.head?.any isDigit then some (s.dropWhile isDigit) else none

def afterUnit (c : CodeUnit) : Utf16 → Option Utf16
  | d :: rest => if d = c then some rest else none
  | [] => none

/-- `[0-9A-Za-z.-]`. -/
def isLabelUnit (c : CodeUnit) : Bool := isWordUnit c || c = dot || c = 0x2D

/-- What follows a mark and the units of a label, or the text, where it does not begin so. -/
def afterLabel (mark : CodeUnit) (s : Utf16) : Utf16 :=
  match afterUnit mark s with
  | some rest => if rest.head?.any isLabelUnit then rest.dropWhile isLabelUnit else s
  | none => s

/-- Source: `parse.ts` `EXACT_VERSION`. -/
def EXACT_VERSION (s : Utf16) : Bool :=
  ((((afterDigits s).bind (afterUnit dot)).bind afterDigits).bind (afterUnit dot)).bind afterDigits |>.any
    fun rest => afterLabel 0x2B (afterLabel 0x2D rest) = []

/-- `[A-Za-z0-9+/]`. -/
def isBase64Unit (c : CodeUnit) : Bool := isWordUnit c || c = 0x2B || c = 0x2F

/-- Source: `parse.ts` `INTEGRITY`. -/
def INTEGRITY (s : Utf16) : Bool :=
  s.take 7 = utf16 "sha512-" && ((s.drop 7).take 86).all isBase64Unit && s.drop 93 = utf16 "=="

/-- `/^[a-z][a-z0-9-]{0,31}$/`. -/
def isPackageSet (s : Utf16) : Bool :=
  s.head?.any (fun c => 0x61 ≤ c && c ≤ 0x7A) && s.all isHostUnit && s.length ≤ 32

/-- `/[\u0000-\u001f]/`. -/
def hasControl (s : Utf16) : Bool := s.any (· ≤ 0x1F)

def isPathUnit (c : CodeUnit) : Bool := isLabelUnit c || c = 0x5F || c = 0x7E || c = 0x2F

/-! ## What is read -/

/-- Source: `parse.ts` `MAX_SERVICES`. -/
def MAX_SERVICES : ℕ := 500

/-- Source: `parse.ts` `MAX_VERSIONS`. -/
def MAX_VERSIONS : ℕ := 200

/-- Source: `parse.ts` `MAX_TEXT`. -/
def MAX_TEXT : ℕ := 500

/-- Source: `types.ts` `AllowlistServiceKind`. -/
inductive Kind where
  | app
  | plugin
  | frontend
  deriving DecidableEq

def Kind.spelling : Kind → Utf16
  | app => utf16 "app"
  | plugin => utf16 "plugin"
  | frontend => utf16 "frontend"

/-- Source: `parse.ts` `KINDS`. -/
def KINDS : List Kind := [.app, .plugin, .frontend]

/-- Source: `project-managed.ts` `ZelavisProjectManagedDefinition`. -/
structure Managed where
  adminTitle : Option Utf16
  adminPath : Option Utf16
  deriving DecidableEq

/-- Source: `types.ts` `AllowlistVersion`. -/
structure AllowlistVersion where
  version : Utf16
  integrity : Utf16
  deprecated : Option Utf16
  deriving DecidableEq

/-- Source: `types.ts` `AllowlistService`. -/
structure AllowlistService where
  name : Utf16
  kind : Kind
  maintainer : Utf16
  title : Utf16
  summary : Option Utf16
  categories : Option (List Utf16)
  tags : Option (List Utf16)
  hostPackages : Option (List Utf16)
  managed : Option Managed
  runtimeKinds : Option (List Utf16)
  projectRuntime : Bool
  versions : List AllowlistVersion
  latest : Utf16
  deriving DecidableEq

/-- Source: `types.ts` `Allowlist`. -/
structure Allowlist where
  sequence : ℕ
  issuedAt : Utf16
  expiresAt : Utf16
  services : List AllowlistService
  deriving DecidableEq

/-! ## As JSON -/

def textsJson (l : List Utf16) : Json := .array (l.map .string)

def Managed.toJson (m : Managed) : Json :=
  .object (objectOf [(utf16 "adminTitle", m.adminTitle.map .string), (utf16 "adminPath", m.adminPath.map .string)])

def AllowlistVersion.fields (v : AllowlistVersion) : List (Utf16 × Option Json) :=
  [(utf16 "version", some (.string v.version)), (utf16 "integrity", some (.string v.integrity)),
    (utf16 "deprecated", v.deprecated.map .string)]

def AllowlistVersion.toJson (v : AllowlistVersion) : Json := .object (objectOf v.fields)

def AllowlistService.fields (s : AllowlistService) : List (Utf16 × Option Json) :=
  [(utf16 "name", some (.string s.name)), (utf16 "kind", some (.string s.kind.spelling)),
    (utf16 "maintainer", some (.string s.maintainer)), (utf16 "title", some (.string s.title)),
    (utf16 "summary", s.summary.map .string), (utf16 "categories", s.categories.map textsJson),
    (utf16 "tags", s.tags.map textsJson), (utf16 "hostPackages", s.hostPackages.map textsJson),
    (utf16 "managed", s.managed.map Managed.toJson), (utf16 "runtimeKinds", s.runtimeKinds.map textsJson),
    (utf16 "projectRuntime", if s.projectRuntime then some (.scalar (.boolean true)) else none),
    (utf16 "versions", some (.array (s.versions.map AllowlistVersion.toJson))),
    (utf16 "latest", some (.string s.latest))]

def AllowlistService.toJson (s : AllowlistService) : Json := .object (objectOf s.fields)

def Allowlist.fields (l : Allowlist) : List (Utf16 × Option Json) :=
  [(utf16 "schemaVersion", some (.scalar (.number (JsNumber.ofNat 1)))),
    (utf16 "sequence", some (.scalar (.number (JsNumber.ofNat l.sequence)))),
    (utf16 "issuedAt", some (.string l.issuedAt)), (utf16 "expiresAt", some (.string l.expiresAt)),
    (utf16 "services", some (.array (l.services.map AllowlistService.toJson)))]

def Allowlist.toJson (l : Allowlist) : Json := .object (objectOf l.fields)

/-! ## Reading -/

/-- A refusal, by its message. Source: `parse.ts` `AllowlistFormatError`. -/
def refuse {α : Type} (place : Utf16) (message : String) : Except Utf16 α :=
  .error (place ++ utf16 message)

def demand (check : Bool) (place : Utf16) (message : String) : Except Utf16 Unit :=
  if check then .ok () else refuse place message

def fieldOf (place : Utf16) (name : String) : Utf16 := place ++ utf16 "." ++ utf16 name

def itemOf (place : Utf16) (i : ℕ) : Utf16 := place ++ utf16 "[" ++ utf16 i.repr ++ utf16 "]"

/-- Source: `parse.ts` `record`. -/
def record (value : Option Json) (place : Utf16) : Except Utf16 JsonObject :=
  match value with
  | some (.object members) => .ok members
  | _ => refuse place " must be an object."

def isText (s : Utf16) : Bool := trim s ≠ [] && s.length ≤ MAX_TEXT && !hasControl s

/-- Source: `parse.ts` `text`. -/
def text (value : Option Json) (place : Utf16) : Except Utf16 Utf16 :=
  match value with
  | some (.scalar (.string s)) =>
    if isText s then .ok s else refuse place " must be a short single-line string."
  | _ => refuse place " must be a short single-line string."

/-- Source: `parse.ts` `text`, where it is not required. -/
def optionalText (value : Option Json) (place : Utf16) : Except Utf16 (Option Utf16) :=
  match value with
  | none => .ok none
  | some v => (text (some v) place).map some

def eachFrom {α : Type} (read : Option Json → Utf16 → Except Utf16 α) (place : Utf16) :
    ℕ → List Json → Except Utf16 (List α)
  | _, [] => .ok []
  | i, entry :: rest => do
    let a ← read (some entry) (itemOf place i)
    let as ← eachFrom read place (i + 1) rest
    pure (a :: as)

/-- Source: `parse.ts` `texts`. -/
def texts (value : Option Json) (place : Utf16) : Except Utf16 (Option (List Utf16)) :=
  match value with
  | none => .ok none
  | some (.array items) =>
    if 50 < items.length then refuse place " must be a list of at most 50 strings."
    else (eachFrom text place 0 items).map some
  | some _ => refuse place " must be a list of at most 50 strings."

/-- Source: `parse.ts` `instant`. -/
def instant (D : Dates) (value : Option Json) (place : Utf16) : Except Utf16 Utf16 := do
  let raw ← text value place
  demand (D.parse raw).isSome place " must be a timestamp."
  pure raw

def isAdminTitle (s : Utf16) : Bool := trim s ≠ [] && s.length ≤ 60 && !hasControl s

def isAdminPath (s : Utf16) : Bool :=
  s.length ≤ 200 && s.head?.any (· = 0x2F) && s.all isPathUnit && !(decide (utf16 "//" <:+: s)) &&
    utf16 ".." ∉ s.splitOn 0x2F

/-- A member of an object that is a string of some kind, where there is one. -/
def optionalString (fits : Utf16 → Bool) (value : Option Json) (message : String) :
    Except Utf16 (Option Utf16) :=
  match value with
  | none => .ok none
  | some (.scalar (.string s)) => if fits s then .ok (some s) else .error (utf16 message)
  | some _ => .error (utf16 message)

/-- Source: `project-managed.ts` `normalizeProjectManaged`, of a value there is. -/
def normalizeProjectManaged (value : Json) : Except Utf16 Managed :=
  match value with
  | .object input => do
    match input.find? fun m => m.1 ≠ utf16 "adminTitle" && m.1 ≠ utf16 "adminPath" with
    | some m => .error (utf16 "Unknown Project managed field \"" ++ m.1 ++ utf16 "\".")
    | none => do
      let adminTitle ← optionalString isAdminTitle (ownMember input (utf16 "adminTitle"))
        "Project managed adminTitle must be a short single-line string."
      let adminPath ← optionalString isAdminPath (ownMember input (utf16 "adminPath"))
        "Project managed adminPath must be a plain absolute path such as /wp-admin/."
      pure ⟨adminTitle, adminPath⟩
  | _ => .error (utf16 "Project managed metadata must be an object.")

/-- Source: `parse.ts` `parseVersion`. -/
def parseVersion (value : Option Json) (place : Utf16) : Except Utf16 AllowlistVersion := do
  let input ← record value place
  let version ← text (ownMember input (utf16 "version")) (fieldOf place "version")
  demand (EXACT_VERSION version) place ".version must be an exact version, not a range or tag."
  let integrity ← text (ownMember input (utf16 "integrity")) (fieldOf place "integrity")
  demand (INTEGRITY integrity) place ".integrity must be a sha512 integrity string."
  let deprecated ← optionalText (ownMember input (utf16 "deprecated")) (fieldOf place "deprecated")
  pure ⟨version, integrity, deprecated⟩

def parseKind (value : Option Json) (place : Utf16) : Except Utf16 Kind :=
  match (value.bind Json.asString?).bind fun s => KINDS.find? (·.spelling = s) with
  | some kind => .ok kind
  | none => refuse place ".kind must be app, plugin or frontend."

def parseVersions (value : Option Json) (place : Utf16) : Except Utf16 (List AllowlistVersion) :=
  match value with
  | some (.array items) =>
    if items.length = 0 ∨ MAX_VERSIONS < items.length then
      refuse place ".versions must list 1 to 200 versions."
    else do
      let versions ← eachFrom parseVersion (fieldOf place "versions") 0 items
      demand (versions.map AllowlistVersion.version).Nodup place ".versions repeats a version."
      pure versions
  | _ => refuse place ".versions must list 1 to 200 versions."

def packagesFit (kind : Kind) (hostPackages : Option (List Utf16)) : Bool :=
  hostPackages.all fun sets => kind = .app && sets.length ≤ 8 && sets.Nodup && sets.all isPackageSet

def parseManaged (kind : Kind) (value : Option Json) (place : Utf16) : Except Utf16 (Option Managed) :=
  match value with
  | none => .ok none
  | some v => do
    demand (kind = .app) place ".managed is only for Project recipes."
    match normalizeProjectManaged v with
    | .ok managed => pure (some managed)
    | .error message => .error (place ++ utf16 ".managed: " ++ message)

def parseProjectRuntime (kind : Kind) (value : Option Json) (place : Utf16) : Except Utf16 Bool :=
  match value with
  | none => .ok false
  | some (.scalar (.boolean b)) => do
    demand (!b || kind = .app) place ".projectRuntime is only for Project recipes (kind app)."
    pure b
  | some _ => refuse place ".projectRuntime must be true or false."

/-- Source: `parse.ts` `parseService`. -/
def parseService (value : Option Json) (place : Utf16) : Except Utf16 AllowlistService := do
  let input ← record value place
  let name ← text (ownMember input (utf16 "name")) (fieldOf place "name")
  demand (NPM_SCOPED name || NPM_UNSCOPED name) place ".name is not an npm package name."
  let kind ← parseKind (ownMember input (utf16 "kind")) place
  let versions ← parseVersions (ownMember input (utf16 "versions")) place
  let latest ← text (ownMember input (utf16 "latest")) (fieldOf place "latest")
  demand (versions.any (·.version = latest)) place ".latest must be one of its versions."
  let summary ← optionalText (ownMember input (utf16 "summary")) (fieldOf place "summary")
  let categories ← texts (ownMember input (utf16 "categories")) (fieldOf place "categories")
  let tags ← texts (ownMember input (utf16 "tags")) (fieldOf place "tags")
  let hostPackages ← texts (ownMember input (utf16 "hostPackages")) (fieldOf place "hostPackages")
  demand (packagesFit kind hostPackages) place
    ".hostPackages must be at most eight distinct named sets on a Project recipe."
  let managed ← parseManaged kind (ownMember input (utf16 "managed")) place
  let runtimeKinds ← texts (ownMember input (utf16 "runtimeKinds")) (fieldOf place "runtimeKinds")
  let projectRuntime ← parseProjectRuntime kind (ownMember input (utf16 "projectRuntime")) place
  let maintainer ← text (ownMember input (utf16 "maintainer")) (fieldOf place "maintainer")
  let title ← text (ownMember input (utf16 "title")) (fieldOf place "title")
  pure { name, kind, maintainer, title, summary, categories, tags, hostPackages, managed, runtimeKinds,
         projectRuntime, versions, latest }

def asNumber? : Option Json → Option JsNumber
  | some (.scalar (.number n)) => some n
  | _ => none

def positive? (value : Option Json) : Option ℕ :=
  ((asNumber? value).filter fun n => n.isSafeInteger && n.isIntegerFrom 1).bind fun n =>
    n.integer?.map Int.toNat

def parseServices (value : Option Json) : Except Utf16 (List AllowlistService) :=
  match value with
  | some (.array items) =>
    if MAX_SERVICES < items.length then .error (utf16 "services must be a list of at most 500.")
    else do
      let services ← eachFrom parseService (utf16 "services") 0 items
      demand (services.map AllowlistService.name).Nodup [] "services repeats a package name."
      pure services
  | _ => .error (utf16 "services must be a list of at most 500.")

/-- Source: `parse.ts` `parseAllowlist`. -/
def parseAllowlist (D : Dates) (value : Json) : Except Utf16 Allowlist := do
  let input ← record (some value) (utf16 "The allow-list")
  demand (asNumber? (ownMember input (utf16 "schemaVersion")) = some (JsNumber.ofNat 1)) []
    "Unsupported allow-list schema version."
  match positive? (ownMember input (utf16 "sequence")) with
  | none => .error (utf16 "sequence must be a positive integer.")
  | some sequence => do
    let issuedAt ← instant D (ownMember input (utf16 "issuedAt")) (utf16 "issuedAt")
    let expiresAt ← instant D (ownMember input (utf16 "expiresAt")) (utf16 "expiresAt")
    demand ((D.parse issuedAt).any fun issued => (D.parse expiresAt).any (issued < ·)) []
      "expiresAt must be after issuedAt."
    let services ← parseServices (ownMember input (utf16 "services"))
    pure ⟨sequence, issuedAt, expiresAt, services⟩
/-! ## What was read is read again -/

variable {message : String} {s : Option Utf16} {D : Dates} {fits : Utf16 → Bool} {check : Bool}

section Parts

variable {α : Type} {place place' : Utf16} {value : Option Json}

lemma demand_eq_ok {u : Unit} : demand check place message = .ok u ↔ check = true := by
  cases check with
  | false => exact ⟨(fun h => by cases h), (fun h => by cases h)⟩
  | true => exact ⟨fun _ => rfl, fun _ => rfl⟩

lemma demand_of (h : check = true) : demand check place message = .ok () :=
  demand_eq_ok.2 h

lemma map_eq_ok {β : Type} {x : Except Utf16 α} {f : α → β} {b : β} (h : x.map f = .ok b) :
    ∃ a, x = .ok a ∧ f a = b := by
  cases x with
  | error message => cases h
  | ok a => exact ⟨a, rfl, Except.ok.inj h⟩

lemma record_object (members : JsonObject) : record (some (.object members)) place = .ok members := rfl

lemma text_string {s : Utf16} (h : isText s = true) : text (some (.string s)) place = .ok s := if_pos h

lemma isText_of_text {s : Utf16} (h : text value place = .ok s) : isText s = true := by
  unfold text at h
  split at h
  · rename_i s'
    split_ifs at h with htext
    · cases h
      exact htext
    · cases h
  · cases h

lemma optionalText_string (h : s.all isText = true) : optionalText (s.map .string) place = .ok s := by
  cases s with
  | none => rfl
  | some s =>
    show (text (some (.string s)) place).map some = _
    rw [text_string h]
    rfl

lemma all_of_optionalText (h : optionalText value place = .ok s) : s.all isText = true := by
  cases value with
  | none =>
    cases h
    rfl
  | some v =>
    obtain ⟨s, hs, rfl⟩ := map_eq_ok h
    exact isText_of_text hs

variable {read : Option Json → Utf16 → Except Utf16 α} {as : List α}

lemma eachFrom_sound {good : α → Prop}
    (hread : ∀ {v p a}, read v p = .ok a → good a) {items : List Json} {i : ℕ}
    (h : eachFrom read place i items = .ok as) : as.length = items.length ∧ ∀ a ∈ as, good a := by
  induction items generalizing i as with
  | nil =>
    cases h
    exact ⟨rfl, fun a ha => absurd ha not_mem_nil⟩
  | cons v items ih =>
    obtain ⟨a, ha, h⟩ := bind_eq_ok_iff.1 h
    obtain ⟨as, has, h⟩ := bind_eq_ok_iff.1 h
    cases h
    obtain ⟨hlength, hgood⟩ := ih has
    refine ⟨by rw [length_cons, length_cons, hlength], fun b hb => ?_⟩
    rcases mem_cons.1 hb with rfl | hb
    · exact hread ha
    · exact hgood b hb

lemma eachFrom_map {toJson : α → Json} (hread : ∀ a ∈ as, ∀ p, read (some (toJson a)) p = .ok a) (i : ℕ) :
    eachFrom read place i (as.map toJson) = .ok as := by
  induction as generalizing i with
  | nil => rfl
  | cons a as ih =>
    show ((read (some (toJson a)) (itemOf place i)) >>= fun a =>
      eachFrom read place (i + 1) (as.map toJson) >>= fun as => pure (a :: as)) = _
    rw [hread a mem_cons_self, ok_bind, ih fun b hb => hread b (mem_cons_of_mem a hb), ok_bind]
    rfl

def areTexts (l : List Utf16) : Bool := l.length ≤ 50 && l.all isText

lemma texts_textsJson {l : Option (List Utf16)} (h : l.all areTexts = true) :
    texts (l.map textsJson) place = .ok l := by
  cases l with
  | none => rfl
  | some l =>
    obtain ⟨hlength, htexts⟩ := Bool.and_eq_true_iff.1 (show areTexts l = true from h)
    show (if 50 < (l.map Json.string).length then _ else _) = _
    rw [if_neg (by rw [length_map]; exact not_lt.2 (of_decide_eq_true hlength)),
      eachFrom_map fun s hs p => text_string (List.all_eq_true.1 htexts s hs)]
    rfl

lemma all_of_texts {l : Option (List Utf16)} (h : texts value place = .ok l) : l.all areTexts = true := by
  unfold texts at h
  split at h
  · cases h
    rfl
  · rename_i items
    split_ifs at h with hlength
    · cases h
    · obtain ⟨l, hl, rfl⟩ := map_eq_ok h
      obtain ⟨hl, htexts⟩ := eachFrom_sound isText_of_text hl
      exact Bool.and_eq_true_iff.2 ⟨decide_eq_true (hl ▸ not_lt.1 hlength), List.all_eq_true.2 htexts⟩
  · cases h

lemma instant_string {s : Utf16} (h : isText s = true) (hdate : (D.parse s).isSome = true) :
    instant D (some (.string s)) place = .ok s := by
  unfold instant
  rw [text_string h, ok_bind, demand_of hdate, ok_bind]
  rfl

lemma isText_of_instant {s : Utf16} (h : instant D value place = .ok s) :
    isText s = true ∧ (D.parse s).isSome = true := by
  obtain ⟨raw, hraw, h⟩ := bind_eq_ok_iff.1 h
  obtain ⟨u, hu, h⟩ := bind_eq_ok_iff.1 h
  cases h
  exact ⟨isText_of_text hraw, demand_eq_ok.1 hu⟩

lemma optionalString_string
    (h : s.all fits = true) : optionalString fits (s.map .string) message = .ok s := by
  cases s with
  | none => rfl
  | some s => exact if_pos h

lemma all_of_optionalString (h : optionalString fits value message = .ok s) : s.all fits = true := by
  unfold optionalString at h
  split at h
  · cases h
    rfl
  · split_ifs at h with hfits
    cases h
    exact hfits
  · cases h

end Parts

/-! ### A recipe's declaration -/

def Managed.Sound (m : Managed) : Prop :=
  m.adminTitle.all isAdminTitle = true ∧ m.adminPath.all isAdminPath = true

variable {m : Managed}

lemma managed_sound {value : Json} (h : normalizeProjectManaged value = .ok m) : m.Sound := by
  unfold normalizeProjectManaged at h
  split at h
  · split at h
    · cases h
    · obtain ⟨title, htitle, h⟩ := bind_eq_ok_iff.1 h
      obtain ⟨path, hpath, h⟩ := bind_eq_ok_iff.1 h
      cases h
      exact ⟨all_of_optionalString htitle, all_of_optionalString hpath⟩
  · cases h

lemma managed_toJson (h : m.Sound) : normalizeProjectManaged m.toJson = .ok m := by
  have hnodup : ([(utf16 "adminTitle", m.adminTitle.map Json.string),
      (utf16 "adminPath", m.adminPath.map Json.string)].map Prod.fst).Nodup := by
    show [utf16 "adminTitle", utf16 "adminPath"].Nodup
    decide
  have hnames : ∀ f ∈ objectOf [(utf16 "adminTitle", m.adminTitle.map Json.string),
      (utf16 "adminPath", m.adminPath.map Json.string)],
      (f.1 ≠ utf16 "adminTitle" && f.1 ≠ utf16 "adminPath") ≠ true := by
    intro f hf
    obtain ⟨g, hg, hf⟩ := mem_filterMap.1 hf
    obtain ⟨v, -, rfl⟩ := Option.map_eq_some_iff.1 hf
    rcases mem_cons.1 hg with rfl | hg
    · simp
    · cases mem_singleton.1 hg
      simp
  unfold normalizeProjectManaged Managed.toJson
  dsimp only
  rw [List.find?_eq_none.2 hnames]
  rw [ownMember_objectOf hnodup mem_cons_self, optionalString_string h.1, ok_bind,
    ownMember_objectOf hnodup (mem_cons_of_mem _ mem_cons_self), optionalString_string h.2, ok_bind]
  rfl

/-! ### Versions -/

/-- What every version that is read meets. -/
structure AllowlistVersion.Sound (v : AllowlistVersion) : Prop where
  version : isText v.version = true
  exact : EXACT_VERSION v.version = true
  integrity : isText v.integrity = true
  digest : INTEGRITY v.integrity = true
  deprecated : v.deprecated.all isText = true

variable {v : AllowlistVersion}

lemma version_sound
    (h : parseVersion value place = .ok v) : v.Sound := by
  obtain ⟨input, -, h⟩ := bind_eq_ok_iff.1 h
  obtain ⟨version, hversion, h⟩ := bind_eq_ok_iff.1 h
  obtain ⟨u, hexact, h⟩ := bind_eq_ok_iff.1 h
  obtain ⟨integrity, hintegrity, h⟩ := bind_eq_ok_iff.1 h
  obtain ⟨u', hdigest, h⟩ := bind_eq_ok_iff.1 h
  obtain ⟨deprecated, hdeprecated, h⟩ := bind_eq_ok_iff.1 h
  cases h
  exact ⟨isText_of_text hversion, demand_eq_ok.1 hexact, isText_of_text hintegrity, demand_eq_ok.1 hdigest,
    all_of_optionalText hdeprecated⟩

lemma ownMember_of_fields (fields : List (Utf16 × Option Json)) (h : (fields.map Prod.fst).Nodup) :
    ∃ members, objectOf fields = members ∧ ∀ f ∈ fields, ownMember members f.1 = f.2 :=
  ⟨_, rfl, fun _ hf => ownMember_objectOf h hf⟩

lemma version_toJson (h : v.Sound) (place : Utf16) : parseVersion (some v.toJson) place = .ok v := by
  obtain ⟨members, hmembers, hfields⟩ := ownMember_of_fields v.fields (by
    show [utf16 "version", utf16 "integrity", utf16 "deprecated"].Nodup
    decide)
  simp only [AllowlistVersion.fields, forall_mem_cons] at hfields
  obtain ⟨hversion, hintegrity, hdeprecated, -⟩ := hfields
  unfold parseVersion AllowlistVersion.toJson
  rw [hmembers, record_object, ok_bind, hversion, text_string h.version, ok_bind, demand_of h.exact, ok_bind,
    hintegrity, text_string h.integrity, ok_bind, demand_of h.digest, ok_bind, hdeprecated,
    optionalText_string h.deprecated, ok_bind]
  rfl

/-- Some versions, none of them twice. -/
structure VersionsSound (versions : List AllowlistVersion) : Prop where
  some : versions.length ≠ 0
  most : versions.length ≤ MAX_VERSIONS
  each : ∀ v ∈ versions, v.Sound
  nodup : (versions.map AllowlistVersion.version).Nodup

variable {versions : List AllowlistVersion}

lemma versions_sound
    (h : parseVersions value place = .ok versions) : VersionsSound versions := by
  unfold parseVersions at h
  split at h
  · split_ifs at h with hlength
    · cases h
    · obtain ⟨versions, hversions, h⟩ := bind_eq_ok_iff.1 h
      obtain ⟨u, hnodup, h⟩ := bind_eq_ok_iff.1 h
      cases h
      obtain ⟨heq, heach⟩ := eachFrom_sound version_sound hversions
      rw [not_or] at hlength
      exact ⟨heq ▸ hlength.1, heq ▸ not_lt.1 hlength.2, heach, of_decide_eq_true (demand_eq_ok.1 hnodup)⟩
  · cases h

lemma versions_toJson (h : VersionsSound versions) (place : Utf16) :
    parseVersions (some (.array (versions.map AllowlistVersion.toJson))) place = .ok versions := by
  unfold parseVersions
  dsimp only
  rw [length_map, if_neg (not_or.2 ⟨h.some, not_lt.2 h.most⟩),
    eachFrom_map fun v hv p => version_toJson (h.each v hv) p, ok_bind, demand_of (decide_eq_true h.nodup),
    ok_bind]
  rfl

/-! ### Services -/

/-- What every service that is read meets. -/
structure AllowlistService.Sound (s : AllowlistService) : Prop where
  name : isText s.name = true
  npm : (NPM_SCOPED s.name || NPM_UNSCOPED s.name) = true
  versions : VersionsSound s.versions
  latest : isText s.latest = true
  listed : s.versions.any (·.version = s.latest) = true
  summary : s.summary.all isText = true
  categories : s.categories.all areTexts = true
  tags : s.tags.all areTexts = true
  hostPackages : s.hostPackages.all areTexts = true
  packages : packagesFit s.kind s.hostPackages = true
  managed : ∀ m, s.managed = some m → s.kind = .app ∧ m.Sound
  runtimeKinds : s.runtimeKinds.all areTexts = true
  runtime : s.projectRuntime = true → s.kind = .app
  maintainer : isText s.maintainer = true
  title : isText s.title = true

lemma kind_spelling (kind : Kind) (place : Utf16) : parseKind (some (.string kind.spelling)) place = .ok kind := by
  cases kind with
  | app | plugin | frontend => rfl

variable {kind : Kind} {managed : Option Managed}

lemma parsedManaged_sound
    (h : parseManaged kind value place = .ok managed) : ∀ m, managed = some m → kind = .app ∧ m.Sound := by
  unfold parseManaged at h
  split at h
  · cases h
    intro m hm
    cases hm
  · obtain ⟨u, hkind, h⟩ := bind_eq_ok_iff.1 h
    split at h
    · rename_i m hm
      cases h
      rintro m' hm'
      cases hm'
      exact ⟨of_decide_eq_true (demand_eq_ok.1 hkind), managed_sound hm⟩
    · cases h

lemma parsedManaged_toJson (h : ∀ m, managed = some m → kind = .app ∧ m.Sound) (place : Utf16) :
    parseManaged kind (managed.map Managed.toJson) place = .ok managed := by
  cases managed with
  | none => rfl
  | some m =>
    obtain ⟨hkind, hm⟩ := h m rfl
    unfold parseManaged
    dsimp only [Option.map_some]
    rw [demand_of (decide_eq_true hkind), ok_bind, managed_toJson hm]
    rfl

lemma projectRuntime_sound {b : Bool}
    (h : parseProjectRuntime kind value place = .ok b) : b = true → kind = .app := by
  unfold parseProjectRuntime at h
  split at h
  · cases h
    intro hb
    cases hb
  · obtain ⟨u, hkind, h⟩ := bind_eq_ok_iff.1 h
    cases h
    rintro rfl
    exact of_decide_eq_true (demand_eq_ok.1 hkind)
  · cases h

lemma projectRuntime_toJson {b : Bool} (h : b = true → kind = .app) (place : Utf16) :
    parseProjectRuntime kind (if b then some (.scalar (.boolean true)) else none) place = .ok b := by
  cases b with
  | false => rfl
  | true =>
    show (demand (!true || kind = .app) place _ >>= fun _ => pure true) = _
    rw [demand_of (show (!true || decide (kind = .app)) = true from decide_eq_true (h rfl)), ok_bind]
    rfl

lemma service_sound {s : AllowlistService}
    (h : parseService value place = .ok s) : s.Sound := by
  obtain ⟨input, -, h⟩ := bind_eq_ok_iff.1 h
  obtain ⟨name, hname, h⟩ := bind_eq_ok_iff.1 h
  obtain ⟨_, hnpm, h⟩ := bind_eq_ok_iff.1 h
  obtain ⟨kind, -, h⟩ := bind_eq_ok_iff.1 h
  obtain ⟨versions, hversions, h⟩ := bind_eq_ok_iff.1 h
  obtain ⟨latest, hlatest, h⟩ := bind_eq_ok_iff.1 h
  obtain ⟨_, hlisted, h⟩ := bind_eq_ok_iff.1 h
  obtain ⟨summary, hsummary, h⟩ := bind_eq_ok_iff.1 h
  obtain ⟨categories, hcategories, h⟩ := bind_eq_ok_iff.1 h
  obtain ⟨tags, htags, h⟩ := bind_eq_ok_iff.1 h
  obtain ⟨hostPackages, hhost, h⟩ := bind_eq_ok_iff.1 h
  obtain ⟨_, hpackages, h⟩ := bind_eq_ok_iff.1 h
  obtain ⟨managed, hmanaged, h⟩ := bind_eq_ok_iff.1 h
  obtain ⟨runtimeKinds, hkinds, h⟩ := bind_eq_ok_iff.1 h
  obtain ⟨projectRuntime, hruntime, h⟩ := bind_eq_ok_iff.1 h
  obtain ⟨maintainer, hmaintainer, h⟩ := bind_eq_ok_iff.1 h
  obtain ⟨title, htitle, h⟩ := bind_eq_ok_iff.1 h
  cases h
  exact {
    name := isText_of_text hname
    npm := demand_eq_ok.1 hnpm
    versions := versions_sound hversions
    latest := isText_of_text hlatest
    listed := demand_eq_ok.1 hlisted
    summary := all_of_optionalText hsummary
    categories := all_of_texts hcategories
    tags := all_of_texts htags
    hostPackages := all_of_texts hhost
    packages := demand_eq_ok.1 hpackages
    managed := parsedManaged_sound hmanaged
    runtimeKinds := all_of_texts hkinds
    runtime := projectRuntime_sound hruntime
    maintainer := isText_of_text hmaintainer
    title := isText_of_text htitle }

lemma service_toJson {s : AllowlistService} (h : s.Sound) (place : Utf16) :
    parseService (some s.toJson) place = .ok s := by
  obtain ⟨members, hmembers, hfields⟩ := ownMember_of_fields s.fields (by
    show ([ "name", "kind", "maintainer", "title", "summary", "categories", "tags", "hostPackages", "managed",
      "runtimeKinds", "projectRuntime", "versions", "latest"].map utf16).Nodup
    decide +kernel)
  simp only [AllowlistService.fields, forall_mem_cons] at hfields
  obtain ⟨hname, hkind, hmaintainer, htitle, hsummary, hcategories, htags, hhost, hmanaged, hkinds, hruntime,
    hversions, hlatest, -⟩ := hfields
  unfold parseService AllowlistService.toJson
  rw [hmembers, record_object, ok_bind, hname, text_string h.name, ok_bind, demand_of h.npm, ok_bind,
    hkind, kind_spelling, ok_bind, hversions, versions_toJson h.versions, ok_bind,
    hlatest, text_string h.latest, ok_bind, demand_of h.listed, ok_bind,
    hsummary, optionalText_string h.summary, ok_bind, hcategories, texts_textsJson h.categories, ok_bind,
    htags, texts_textsJson h.tags, ok_bind, hhost, texts_textsJson h.hostPackages, ok_bind,
    demand_of h.packages, ok_bind, hmanaged, parsedManaged_toJson h.managed, ok_bind,
    hkinds, texts_textsJson h.runtimeKinds, ok_bind, hruntime, projectRuntime_toJson h.runtime, ok_bind,
    hmaintainer, text_string h.maintainer, ok_bind, htitle, text_string h.title, ok_bind]
  rfl

/-! ### Lists -/

/-- What every list that is read meets. -/
structure Allowlist.Sound (D : Dates) (l : Allowlist) : Prop where
  positive : 1 ≤ l.sequence
  safe : l.sequence ≤ JsNumber.MAX_SAFE_INTEGER
  issuedAt : isText l.issuedAt = true ∧ (D.parse l.issuedAt).isSome = true
  expiresAt : isText l.expiresAt = true ∧ (D.parse l.expiresAt).isSome = true
  later : ((D.parse l.issuedAt).any fun issued => (D.parse l.expiresAt).any (issued < ·)) = true
  most : l.services.length ≤ MAX_SERVICES
  each : ∀ s ∈ l.services, s.Sound
  nodup : (l.services.map AllowlistService.name).Nodup

lemma positive_ofNat {n : ℕ} (hpos : 1 ≤ n) (hsafe : n ≤ JsNumber.MAX_SAFE_INTEGER) :
    positive? (some (.scalar (.number (JsNumber.ofNat n)))) = some n := by
  have hint := JsNumber.integer?_ofNat hsafe
  have hfilter : ((JsNumber.ofNat n).isSafeInteger && (JsNumber.ofNat n).isIntegerFrom 1) = true := by
    rw [JsNumber.isSafeInteger_ofNat, JsNumber.isIntegerFrom, hint]
    simpa using ⟨hsafe, hpos⟩
  unfold positive? asNumber?
  rw [Option.filter_some, if_pos hfilter, Option.bind_some, hint]
  rfl

lemma positive_sound {n : ℕ} (h : positive? value = some n) :
    1 ≤ n ∧ n ≤ JsNumber.MAX_SAFE_INTEGER := by
  obtain ⟨x, hx, h⟩ := Option.bind_eq_some_iff.1 h
  obtain ⟨z, hz, rfl⟩ := Option.map_eq_some_iff.1 h
  obtain ⟨-, hcheck⟩ := Option.filter_eq_some_iff.1 hx
  rw [JsNumber.isSafeInteger, JsNumber.isIntegerFrom, hz] at hcheck
  obtain ⟨hsafe, hfrom⟩ : z.natAbs ≤ 9007199254740991 ∧ 1 ≤ z := by simpa using hcheck
  unfold JsNumber.MAX_SAFE_INTEGER
  omega

variable {services : List AllowlistService}

lemma services_sound
    (h : parseServices value = .ok services) : services.length ≤ MAX_SERVICES ∧ (∀ s ∈ services, s.Sound) ∧
      (services.map AllowlistService.name).Nodup := by
  unfold parseServices at h
  split at h
  · split_ifs at h with hlength
    obtain ⟨services, hservices, h⟩ := bind_eq_ok_iff.1 h
    obtain ⟨u, hnodup, h⟩ := bind_eq_ok_iff.1 h
    cases h
    obtain ⟨heq, heach⟩ := eachFrom_sound service_sound hservices
    exact ⟨heq ▸ not_lt.1 hlength, heach, of_decide_eq_true (demand_eq_ok.1 hnodup)⟩
  · cases h

lemma services_toJson (hmost : services.length ≤ MAX_SERVICES)
    (heach : ∀ s ∈ services, s.Sound) (hnodup : (services.map AllowlistService.name).Nodup) :
    parseServices (some (.array (services.map AllowlistService.toJson))) = .ok services := by
  unfold parseServices
  dsimp only
  rw [length_map, if_neg (not_lt.2 hmost), eachFrom_map fun s hs p => service_toJson (heach s hs) p,
    ok_bind, demand_of (decide_eq_true hnodup), ok_bind]
  rfl

variable {l : Allowlist}

lemma allowlist_sound {value : Json} (h : parseAllowlist D value = .ok l) : l.Sound D := by
  obtain ⟨input, -, h⟩ := bind_eq_ok_iff.1 h
  obtain ⟨_, -, h⟩ := bind_eq_ok_iff.1 h
  split at h
  · cases h
  · rename_i n hn
    obtain ⟨issuedAt, hissued, h⟩ := bind_eq_ok_iff.1 h
    obtain ⟨expiresAt, hexpires, h⟩ := bind_eq_ok_iff.1 h
    obtain ⟨_, hlater, h⟩ := bind_eq_ok_iff.1 h
    obtain ⟨services, hservices, h⟩ := bind_eq_ok_iff.1 h
    cases h
    obtain ⟨hpos, hsafe⟩ := positive_sound hn
    obtain ⟨hmost, heach, hnodup⟩ := services_sound hservices
    exact ⟨hpos, hsafe, isText_of_instant hissued, isText_of_instant hexpires, demand_eq_ok.1 hlater, hmost,
      heach, hnodup⟩

lemma allowlist_toJson (h : l.Sound D) : parseAllowlist D l.toJson = .ok l := by
  obtain ⟨members, hmembers, hfields⟩ := ownMember_of_fields l.fields (by
    show (["schemaVersion", "sequence", "issuedAt", "expiresAt", "services"].map utf16).Nodup
    decide +kernel)
  simp only [Allowlist.fields, forall_mem_cons] at hfields
  obtain ⟨hschema, hsequence, hissued, hexpires, hservices, -⟩ := hfields
  unfold parseAllowlist Allowlist.toJson
  rw [hmembers, record_object, ok_bind, hschema, demand_of (by rfl), ok_bind, hsequence,
    positive_ofNat h.positive h.safe]
  dsimp only
  rw [hissued, instant_string h.issuedAt.1 h.issuedAt.2, ok_bind, hexpires,
    instant_string h.expiresAt.1 h.expiresAt.2, ok_bind, demand_of h.later, ok_bind, hservices,
    services_toJson h.most h.each h.nodup, ok_bind]
  rfl

lemma parseAllowlist_toJson {value : Json}
    (h : parseAllowlist D value = .ok l) : parseAllowlist D l.toJson = .ok l :=
  allowlist_toJson (allowlist_sound h)

end Zelavis.Marketplace
