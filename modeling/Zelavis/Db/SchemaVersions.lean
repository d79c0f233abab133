import Zelavis.Lib.Fibers
import Zelavis.Db.Topology
import Zelavis.Db.Validation

/-!
# Versions of a schema

`schemas.ts`: a version of a collection's schema is an object of the store under a name of its own. `save`
looks whether there is one, and writes it in a later step.
-/

namespace Zelavis.Db.SchemaVersions

open Lib Tasks Fibers

/-! ## Schemas -/

/-- Source: `collection-schema.ts` `CollectionSchema`. -/
structure CollectionSchema where
  collection : Utf16
  version : JsNumber
  activate : Option Bool := none
  fields : List Json

/-- Source: `collection-schema.ts` `StoredCollectionSchema`. -/
structure StoredCollectionSchema where
  collection : Utf16
  version : JsNumber
  active : Bool
  fields : List Json

def StoredCollectionSchema.json (s : StoredCollectionSchema) : Json :=
  .object [(utf16 "collection", .string s.collection), (utf16 "version", .scalar (.number s.version)),
    (utf16 "active", .scalar (.boolean s.active)), (utf16 "fields", .array s.fields)]

/-- The version a save stores. Source: `save`. -/
def CollectionSchema.stored (s : CollectionSchema) : StoredCollectionSchema where
  collection := s.collection
  version := s.version
  active := s.activate ≠ some false
  fields := s.fields

def SCHEMA_NS : Utf16 := utf16 "zv.schema"

def ACTIVE_NS : Utf16 := utf16 "zv.schema.active"

def SCHEMA_COLUMN : Utf16 := utf16 "zv.schema"

def activeKey (tenant : TenantId) (collection : Utf16) : Utf16 := tenant ++ utf16 "/" ++ collection

/-! ## Calls on the store -/

/-- A call on the store. -/
inductive Call where
  | lookup (ns key : Utf16)
  | read (seq : Seq)
  | nextSeq
  /-- A transaction of one `put`. -/
  | put (seq : Seq) (body : Json) (manifest : IndexManifest) (identity : ObjectIdentity)

@[reducible] def Answer : Call → Type
  | .lookup _ _ => Option Seq
  | .read _ => Option Json
  | .nextSeq => Seq
  | .put _ _ _ _ => Unit

/-- How a call of the schemas fails. -/
inductive Fault where
  /-- `SchemaVersionExists`. -/
  | versionExists (collection : Utf16) (version : JsNumber)
  /-- `SchemaNotFound`. -/
  | notFound (collection : Utf16) (version : JsNumber)
  | died

/-- A program over the store. -/
abbrev Program (α : Type) := Task Call Answer Fault α

/-- Source: `store.ts` `ObjectStoreApi.lookup`. -/
def lookup (ns key : Utf16) : Program (Option Seq) := Task.perform (Call.lookup ns key)

/-- Source: `store.ts` `ObjectStoreApi.read`. -/
def read (seq : Seq) : Program (Option Json) := Task.perform (Call.read seq)

/-- Source: `store.ts` `ObjectStoreApi.nextSeq`. -/
def nextSeq : Program Seq := Task.perform Call.nextSeq

/-- What is asked of the schemas. -/
inductive Request where
  | save (tenant : TenantId) (schema : CollectionSchema)
  | activate (tenant : TenantId) (collection : Utf16) (version : JsNumber)

section

-- The text of a number, and the check of one field of a schema.
variable (digits : JsNumber → Utf16) (isFieldEntry : Validator)

def schemaKey (tenant : TenantId) (collection : Utf16) (version : JsNumber) : Utf16 :=
  tenant ++ utf16 "/" ++ collection ++ utf16 "/" ++ digits version

def schemaRecord : Validator :=
  objectFields [(utf16 "collection", isString), (utf16 "version", isPositiveInteger),
    (utf16 "active", isBoolean), (utf16 "fields", arrayOf isFieldEntry)]

def readAt (ns key : Utf16) : Program (Option Json) := do
  match ← lookup ns key with
  | none => pure none
  | some seq => read seq

def put (ns key : Utf16) (value : Json) (columns : List (Utf16 × OrderedScalar)) : Program Unit := do
  let seq ← match ← lookup ns key with
    | some seq => pure seq
    | none => nextSeq
  Task.perform (Call.put seq value { columns } ⟨ns, key⟩)

def getVersion (tenant : TenantId) (collection : Utf16) (version : JsNumber) :
    Program (Option Json) := do
  match ← readAt SCHEMA_NS (schemaKey digits tenant collection version) with
  | none => pure none
  | some raw => if schemaRecord isFieldEntry (some raw) then pure (some raw) else .fail .died

def save (tenant : TenantId) (schema : CollectionSchema) : Program Json := do
  match ← getVersion digits isFieldEntry tenant schema.collection schema.version with
  | some _ => .fail (.versionExists schema.collection schema.version)
  | none =>
    put SCHEMA_NS (schemaKey digits tenant schema.collection schema.version) schema.stored.json
      [(SCHEMA_COLUMN, .string tenant)]
    if schema.stored.active then
      put ACTIVE_NS (activeKey tenant schema.collection)
        (.object [(utf16 "version", .scalar (.number schema.version))]) []
    pure schema.stored.json

def markActive : Json → Json
  | .object members => .object (members.map fun m =>
      if m.1 = utf16 "active" then (m.1, .scalar (.boolean true)) else m)
  | v => v

def activate (tenant : TenantId) (collection : Utf16) (version : JsNumber) : Program Json := do
  match ← getVersion digits isFieldEntry tenant collection version with
  | none => .fail (.notFound collection version)
  | some stored =>
    put ACTIVE_NS (activeKey tenant collection)
      (.object [(utf16 "version", .scalar (.number version))]) []
    pure (markActive stored)

def program : Request → Program Json
  | .save tenant schema => save digits isFieldEntry tenant schema
  | .activate tenant collection version => activate digits isFieldEntry tenant collection version

end

/-! ## What the calls share -/

/-- The store, and the fiber each identifier was handed to, which nothing reads. -/
structure Shared where
  store : Objects Json
  drawn : Seq → Option ℕ

def unwritten : Shared := ⟨.empty, fun _ => none⟩

/-- What becomes of a call on the store: it is done, it fails, or it is done and its answer is lost. -/
inductive Outcome where
  | done
  | fails
  | failsLate

def perform (k : ℕ) (s : Shared) : (c : Call) → Shared × Answer c
  | .lookup ns key => (s, s.store.lookup ns key)
  | .read seq => (s, s.store.read seq)
  | .nextSeq =>
    (⟨s.store.nextSeq.2, Function.update s.drawn s.store.nextSeq.1 (some k)⟩, s.store.nextSeq.1)
  | .put seq body manifest identity =>
    ({ s with store := s.store.commit [.put seq (reread body) manifest (some identity)] }, ())

def exec (k : ℕ) (outcome : Outcome) (s : Shared) (c : Call) : Option (Shared × Except Fault (Answer c)) :=
  match outcome with
  | .done => some ((perform k s c).1, .ok (perform k s c).2)
  | .fails => some (s, .error .died)
  | .failsLate => some ((perform k s c).1, .error .died)

/-- Any number of calls of the schemas side by side on one store; a crash ends them and leaves the
store. -/
def schemas (digits : JsNumber → Utf16) (isFieldEntry : Validator) :
    Process Shared Request Call Answer Fault Json Outcome Empty Unit where
  program := program digits isFieldEntry
  exec := exec
  passes event _ := event.elim
  crashes _ s := some s

def contentAt (o : Objects Json) (key : Utf16) : Option Json := (o.lookup SCHEMA_NS key).bind o.read

/-! ## What a write leaves -/

/-- A name is of an object that has it, and every identifier in use has been handed out. -/
structure Sound (s : Shared) : Prop where
  named : ∀ {i q}, s.store.named i = some q → ∃ h, s.store.held.get q = some h ∧ h.identity = some i
  held : ∀ {q h}, s.store.held.get q = some h → q ≤ s.store.lastSeq
  drawn : ∀ {q k}, s.drawn q = some k → q ≤ s.store.lastSeq

/-- What others leave a fiber: objects keep their names, the identifiers it was handed are its own, and what
is stored of a version stays. -/
structure Leaves (k : ℕ) (s s' : Shared) : Prop where
  held : ∀ {q h}, s.store.held.get q = some h → ∃ h', s'.store.held.get q = some h' ∧ h'.identity = h.identity
  mine : ∀ {q}, s.drawn q = some k → s.store.held.get q = none → s'.store.held.get q = none
  drawn : ∀ {q}, s.drawn q = some k → s'.drawn q = some k
  content : ∀ {key c}, contentAt s.store key = some c → contentAt s'.store key = some c

lemma Leaves.refl (k : ℕ) (s : Shared) : Leaves k s s :=
  ⟨fun h => ⟨_, h, rfl⟩, fun _ h => h, fun h => h, fun h => h⟩

lemma Leaves.trans {k : ℕ} {s s' s'' : Shared} (h : Leaves k s s') (h' : Leaves k s' s'') :
    Leaves k s s'' where
  held hheld := by
    obtain ⟨held', hheld', hsame⟩ := h.held hheld
    obtain ⟨held'', hheld'', hsame'⟩ := h'.held hheld'
    exact ⟨held'', hheld'', hsame'.trans hsame⟩
  mine hdrawn hnone := h'.mine (h.drawn hdrawn) (h.mine hdrawn hnone)
  drawn hdrawn := h'.drawn (h.drawn hdrawn)
  content hc := h'.content (h.content hc)

/-- An identifier a fiber may write a name's object under: the name's own, or one handed to the fiber
that has no object yet. -/
def Writable (k : ℕ) (i : ObjectIdentity) (q : Seq) (s : Shared) : Prop :=
  (∃ h, s.store.held.get q = some h ∧ h.identity = some i) ∨ (s.drawn q = some k ∧ s.store.held.get q = none)

lemma Writable.mono {k : ℕ} {i : ObjectIdentity} {q : Seq} {s s' : Shared} (h : Writable k i q s)
    (hleaves : Leaves k s s') : Writable k i q s' := by
  rcases h with ⟨h, hheld, hi⟩ | ⟨hdrawn, hnone⟩
  · obtain ⟨h', hheld', hsame⟩ := hleaves.held hheld
    exact .inl ⟨h', hheld', hsame.trans hi⟩
  · exact .inr ⟨hleaves.drawn hdrawn, hleaves.mine hdrawn hnone⟩

section

variable {k : ℕ} {s : Shared} {q : Seq} {body : Json} {manifest : IndexManifest} {i : ObjectIdentity}

lemma Writable.ne (hq : Writable k i q s) {j : ObjectIdentity} {q' : Seq} {h : Held Json}
    (hheld : s.store.held.get q' = some h) (hidentity : h.identity = some j) (hj : j ≠ i) : q' ≠ q := by
  rintro rfl
  rcases hq with ⟨h', hheld', hi⟩ | ⟨-, hnone⟩
  · obtain rfl := Option.some.inj (hheld.symm.trans hheld')
    exact hj (Option.some.inj (hidentity.symm.trans hi))
  · exact Option.some_ne_none _ (hheld.symm.trans hnone)

lemma named_commit (hq : Writable k i q s) (j : ObjectIdentity) :
    (s.store.commit [.put q body manifest (some i)]).named j = if j = i then some q else s.store.named j := by
  show (if some i = some j then some q else s.store.unnamed q j) = _
  by_cases hji : j = i
  · rw [if_pos hji, if_pos (congrArg some hji.symm)]
  · rw [if_neg hji, if_neg fun heq => hji (Option.some.inj heq).symm]
    refine if_neg fun heq => hji ?_
    rcases hq with ⟨h, hheld, hi⟩ | ⟨-, hnone⟩
    · rw [hheld, Option.bind_some, hi] at heq
      exact (Option.some.inj heq).symm
    · rw [hnone] at heq
      cases heq

lemma get_commit (q' : Seq) : (s.store.commit [.put q body manifest (some i)]).held.get q' =
      if q' = q then some ⟨some i, ((s.store.held.get q).elim 0 Held.version) + 1, body, manifest⟩
      else s.store.held.get q' := OrderedMap.get_insert _ _ _ _

lemma contentAt_commit (hs : Sound s) (hq : Writable k i q s) (key : Utf16) :
    contentAt (s.store.commit [.put q body manifest (some i)]) key =
      if ⟨SCHEMA_NS, key⟩ = i then some body else contentAt s.store key := by
  unfold contentAt Objects.lookup
  rw [named_commit hq]
  split_ifs with hi
  · show ((s.store.commit [.put q body manifest (some i)]).held.get q).map Held.body = some body
    rw [get_commit, if_pos rfl]
    rfl
  · cases hnamed : s.store.named ⟨SCHEMA_NS, key⟩ with
    | none => rfl
    | some q' =>
      obtain ⟨h, hheld, hidentity⟩ := hs.named hnamed
      show ((s.store.commit [.put q body manifest (some i)]).held.get q').map Held.body =
        (s.store.held.get q').map Held.body
      rw [get_commit, if_neg (hq.ne hheld hidentity hi)]

/-- A write under an identifier a fiber may write under keeps everything but what is stored under its own
name. -/
theorem sound_commit (hs : Sound s) (hq : Writable k i q s) :
    Sound { s with store := s.store.commit [.put q body manifest (some i)] } where
  named {j q'} hj := by
    rw [named_commit hq] at hj
    rw [get_commit]
    by_cases hji : j = i
    · rw [if_pos hji] at hj
      rw [if_pos (Option.some.inj hj).symm]
      exact ⟨_, rfl, congrArg some hji.symm⟩
    · rw [if_neg hji] at hj
      obtain ⟨h, hheld, hidentity⟩ := hs.named hj
      rw [if_neg (hq.ne hheld hidentity hji)]
      exact ⟨h, hheld, hidentity⟩
  held {q' h} hheld := by
    rw [get_commit] at hheld
    split_ifs at hheld with hq'
    · rw [hq']
      rcases hq with ⟨h', hheld', -⟩ | ⟨hdrawn, -⟩
      · exact hs.held hheld'
      · exact hs.drawn hdrawn
    · exact hs.held hheld
  drawn hdrawn := hs.drawn hdrawn

lemma leaves_commit (hs : Sound s) (hq : Writable k i q s)
    (hcond : ∀ key, i = ⟨SCHEMA_NS, key⟩ → ∀ c, contentAt s.store key = some c → c = body) {j : ℕ}
    (hj : j ≠ k ∨ ∃ h, s.store.held.get q = some h) :
    Leaves j s { s with store := s.store.commit [.put q body manifest (some i)] } where
  held {q' h} hheld := by
    rw [get_commit]
    split_ifs with hq'
    · refine ⟨_, rfl, ?_⟩
      rw [hq'] at hheld
      rcases hq with ⟨h', hheld', hi⟩ | ⟨-, hnone⟩
      · obtain rfl := Option.some.inj (hheld.symm.trans hheld')
        exact hi.symm
      · exact absurd (hheld.symm.trans hnone) (Option.some_ne_none _)
    · exact ⟨h, hheld, rfl⟩
  mine {q'} hdrawn hnone := by
    rw [get_commit, if_neg ?_]
    · exact hnone
    · rintro rfl
      rcases hj with hj | ⟨h, hheld⟩
      · rcases hq with ⟨h, hheld, -⟩ | ⟨hdrawn', -⟩
        · exact Option.some_ne_none _ (hheld.symm.trans hnone)
        · exact hj (Option.some.inj (hdrawn.symm.trans hdrawn'))
      · exact Option.some_ne_none _ (hheld.symm.trans hnone)
  drawn hdrawn := hdrawn
  content {key c} hc := by
    rw [contentAt_commit hs hq]
    split_ifs with hi
    · rw [hcond key hi.symm c hc]
    · exact hc

end

/-! ## What every call keeps to -/

/-- Where a version is written, nothing or the same content is stored under its key. -/
def Unwritten (_ : ℕ) (c : Call) (s : Shared) : Prop :=
  ∀ q body manifest key, c = .put q body manifest ⟨SCHEMA_NS, key⟩ →
    ∀ held, contentAt s.store key = some held → held = reread body

def Stays (s s' : Shared) : Prop :=
  ∀ key c, contentAt s.store key = some c → contentAt s'.store key = some c

def Ends (digits : JsNumber → Utf16) (request : Request) (_ : ℕ) (answer : Json) (s : Shared) : Prop :=
  match request with
  | .save tenant schema => answer = schema.stored.json ∧
      contentAt s.store (schemaKey digits tenant schema.collection schema.version) =
        some (reread schema.stored.json)
  | .activate _ _ _ => True

lemma perform_sound {k : ℕ} {s : Shared} (hs : Sound s) {c : Call} (hcond : Unwritten k c s)
    (hput : ∀ q body manifest i, c = .put q body manifest i → Writable k i q s) :
    Sound (perform k s c).1 ∧ Stays s (perform k s c).1 ∧ ∀ j, j ≠ k → Leaves j s (perform k s c).1 := by
  cases c with
  | lookup | read => exact ⟨hs, fun _ _ h => h, fun j _ => .refl j s⟩
  | nextSeq =>
    refine ⟨⟨fun h => hs.named h, fun h => Nat.le_succ_of_le (hs.held h), fun {q j} h => ?_⟩,
      fun _ _ h => h, fun j hj => ⟨fun h => ⟨_, h, rfl⟩, fun _ h => h, fun {q} h => ?_, fun h => h⟩⟩
    · by_cases hq : q = s.store.nextSeq.1
      · exact hq.le
      · refine Nat.le_succ_of_le (hs.drawn (q := q) (k := j) ?_)
        rwa [show (perform k s .nextSeq).1.drawn q = s.drawn q from Function.update_of_ne hq _ _] at h
    · have hle := hs.drawn h
      exact (Function.update_of_ne (Nat.ne_of_lt (Nat.lt_succ_of_le hle)) _ _).trans h
  | put q body manifest i =>
    have hq := hput q body manifest i rfl
    have hown : ∀ key, i = ⟨SCHEMA_NS, key⟩ → ∀ c, contentAt s.store key = some c → c = reread body := by
      rintro key rfl c hc
      exact hcond q body manifest key rfl c hc
    refine ⟨sound_commit hs hq, fun key c hc => ?_, fun j hj => leaves_commit hs hq hown (.inl hj)⟩
    show contentAt (s.store.commit [.put q (reread body) manifest (some i)]) key = some c
    rw [contentAt_commit hs hq]
    split_ifs with hi
    · rw [hown key hi.symm c hc]
    · exact hc

variable {tenant : TenantId}
  {Post : Option Json → Shared → Prop} {schema : CollectionSchema} {collection : Utf16}
  {version : JsNumber} {ns key : Utf16}

section

variable {digits : JsNumber → Utf16} {isFieldEntry : Validator}

variable (digits isFieldEntry) in
/-- What a program of a fiber leaves, where it does not fail. -/
abbrev Keeps (k : ℕ) {α : Type} (Post : α → Shared → Prop) (t : Program α) (s : Shared) : Prop :=
  (schemas digits isFieldEntry).Keeps Unwritten Sound Leaves Stays k Post (fun _ _ => True) t s

variable {k : ℕ} {s : Shared}

lemma keeps_perform {c : Call} {Post : Answer c → Shared → Prop}
    (hput : ∀ s₁, Sound s₁ → Leaves k s s₁ → ∀ q body manifest i, c = .put q body manifest i →
      Writable k i q s₁) (hPost : ∀ s₁, Sound s₁ → Leaves k s s₁ → Stays s (perform k s₁ c).1 →
      Post (perform k s₁ c).2 (perform k s₁ c).1) : Keeps digits isFieldEntry k Post (Task.perform c) s := by
  refine guarded_perform fun s₁ s' r hs hleaves hmakes => ?_
  obtain ⟨hcond, outcome, hexec⟩ := hmakes
  obtain ⟨hs', hstays, hothers⟩ := perform_sound hs hcond (hput s₁ hs hleaves)
  cases outcome with
  | done =>
    cases hexec
    refine ⟨hs', ⟨hstays, hothers⟩, fun a ha => ?_, fun _ _ => trivial⟩
    rw [← Except.ok.inj ha]
    exact hPost s₁ hs hleaves fun key c hc => hstays key c (hleaves.content hc)
  | fails =>
    cases hexec
    exact ⟨hs, ⟨fun _ _ h => h, fun j _ => .refl j _⟩, (fun a ha => by cases ha), fun _ _ => trivial⟩
  | failsLate =>
    cases hexec
    exact ⟨hs', ⟨hstays, hothers⟩, (fun a ha => by cases ha), fun _ _ => trivial⟩

lemma keeps_lookup {Post : Option Seq → Shared → Prop}
    (hPost : ∀ s', Leaves k s s' → ∀ found, (∀ q ∈ found, Writable k ⟨ns, key⟩ q s') → Post found s') :
    Keeps digits isFieldEntry k Post (lookup ns key) s := by
  refine keeps_perform (fun _ _ _ q body manifest i h => by cases h) fun s₁ hs hleaves _ => ?_
  exact hPost s₁ hleaves _ fun q hq => .inl (hs.named hq)

lemma keeps_read {q : Seq} (hPost : ∀ a s', Post a s') : Keeps digits isFieldEntry k Post (read q) s :=
  keeps_perform (fun _ _ _ q body manifest i h => by cases h) fun s₁ _ _ _ => hPost _ _

lemma keeps_nextSeq {Post : Seq → Shared → Prop}
    (hPost : ∀ s' q, Stays s s' → (∀ i, Writable k i q s') → Post q s') :
    Keeps digits isFieldEntry k Post nextSeq s := by
  refine keeps_perform (fun _ _ _ q body manifest i h => by cases h) fun s₁ hs _ hstays => ?_
  refine hPost _ _ hstays fun i => .inr ⟨Function.update_self _ _ _, ?_⟩
  rw [Option.eq_none_iff_forall_ne_some]
  exact fun h hheld => absurd (hs.held hheld) (Nat.not_succ_le_self _)

lemma keeps_put {value : Json} {columns : List (Utf16 × OrderedScalar)} {Post : Unit → Shared → Prop}
    (hPost : ∀ s', Stays s s' → (ns = SCHEMA_NS → contentAt s'.store key = some (reread value)) →
      Post () s') : Keeps digits isFieldEntry k Post (put ns key value columns) s := by
  have hwrite : ∀ q s', Stays s s' → Writable k ⟨ns, key⟩ q s' → Keeps digits isFieldEntry k Post
        (Task.perform (Call.put q value { columns } ⟨ns, key⟩)) s' := by
    intro q s' hstays hq
    refine keeps_perform (fun s₁ _ hleaves q body manifest i h => ?_) fun s₁ hs hleaves hstays' => ?_
    · cases h
      exact hq.mono hleaves
    · refine hPost _ (fun key c hc => hstays' key c (hstays key c hc)) ?_
      rintro rfl
      exact (contentAt_commit hs (hq.mono hleaves) key).trans (if_pos rfl)
  refine guarded_bind (keeps_lookup fun s' hleaves found hfound => ?_)
  have hstays : Stays s s' := fun _ _ hc => hleaves.content hc
  cases found with
  | some q => exact hwrite q s' hstays (hfound q rfl)
  | none =>
    refine guarded_bind (keeps_nextSeq fun s'' q hstays' hq => ?_)
    exact hwrite q s'' (fun key c hc => hstays' key c (hstays key c hc)) (hq _)

lemma keeps_getVersion (hPost : ∀ a s', Post a s') :
    Keeps digits isFieldEntry k Post (getVersion digits isFieldEntry tenant collection version) s := by
  have hcheck : ∀ raw s', Keeps digits isFieldEntry k Post
      (match raw with
        | none => pure none
        | some raw => if schemaRecord isFieldEntry (some raw) then pure (some raw)
            else Task.fail .died) s' := by
    intro raw s'
    cases raw with
    | none => exact hPost _ _
    | some raw =>
      dsimp only
      split_ifs
      · exact hPost _ _
      · exact trivial
  refine guarded_bind (guarded_bind (keeps_lookup fun s' _ found _ => ?_))
  cases found with
  | none => exact hcheck none s'
  | some q => exact keeps_read fun a s' => hcheck a s'

lemma keeps_save : Keeps digits isFieldEntry k (Ends digits (.save tenant schema) k)
      (save digits isFieldEntry tenant schema) s := by
  refine guarded_bind (keeps_getVersion fun found s₁ => ?_)
  cases found with
  | some _ => exact trivial
  | none =>
    refine guarded_bind (keeps_put fun s₂ _ hcontent => ?_)
    split_ifs
    · refine guarded_bind (keeps_put fun s₃ hstays _ => ?_)
      exact ⟨rfl, hstays _ _ (hcontent rfl)⟩
    · exact ⟨rfl, hcontent rfl⟩

lemma keeps_activate : Keeps digits isFieldEntry k (Ends digits (.activate tenant collection version) k)
      (activate digits isFieldEntry tenant collection version) s := by
  refine guarded_bind (keeps_getVersion fun found s₁ => ?_)
  cases found with
  | none => exact trivial
  | some stored =>
    refine guarded_bind (keeps_put fun s₂ _ _ => ?_)
    exact trivial

variable (digits isFieldEntry)

lemma discipline : Discipline (schemas digits isFieldEntry) Unwritten Sound Leaves (fun _ _ => True)
    Stays (Ends digits) where
  refl := .refl
  trans := .trans
  fresh_stable _ h := h
  leaves_refl _ _ _ h := h
  ends_stable {request k answer s s'} hleaves h := by
    cases request with
    | save tenant schema => exact ⟨h.1, hleaves.content h.2⟩
    | activate tenant collection version => exact trivial
  programs k request s _ _ := by
    cases request with
    | save tenant schema => exact keeps_save
    | activate tenant collection version => exact keeps_activate
  passes {event} := event.elim
  crashes hs h := by
    cases h
    exact ⟨hs, fun _ _ h => h, fun _ => trivial⟩

/-! ## Runs -/

/-- What there is of a run. -/
abbrev Runs : Type := Fibers.World Shared (Job Request Call Answer Fault Json)

def start : Runs := ⟨unwritten, []⟩

def Succeeded (w : Runs) (tenant : TenantId) (schema : CollectionSchema) : Prop :=
  ∃ (k : ℕ) (answer : Json), w.fibers[k]? = some (.running (.save tenant schema) (.done answer))

/-- What a save has returned of a version stays as it is, and no other content is saved under it. -/
def VersionsImmutable (events : List (Event Request Outcome Empty Unit)) : Prop :=
  ∀ first rest w w', events = first ++ rest → (schemas digits isFieldEntry).after start first = some w →
    (schemas digits isFieldEntry).after w rest = some w' →
    ∀ tenant schema, Succeeded w tenant schema →
      contentAt w'.shared.store (schemaKey digits tenant schema.collection schema.version) =
        some (reread schema.stored.json) ∧
      ∀ schema', Succeeded w' tenant schema' → schema'.collection = schema.collection →
        schema'.version = schema.version → reread schema'.stored.json = reread schema.stored.json

variable {digits isFieldEntry}

lemma stays_after {w w' : Runs} {events : List (Event Request Outcome Empty Unit)}
    (hw : Fibers.Held (schemas digits isFieldEntry) Unwritten Sound Leaves (fun _ _ => True) Stays
      (Ends digits) w) (hwithin : (schemas digits isFieldEntry).Within Unwritten w events)
    (hafter : (schemas digits isFieldEntry).after w events = some w') : Stays w.shared w'.shared := by
  induction events generalizing w with
  | nil =>
    cases Process.after_nil hafter
    exact fun _ _ h => h
  | cons e events ih =>
    obtain ⟨w₁, hstep, hafter⟩ := Process.after_cons hafter
    obtain ⟨hw₁, hstays⟩ := (discipline digits isFieldEntry).step hw hwithin.1 hstep
    exact fun key c hc => ih hw₁ (hwithin.2 w₁ hstep) hafter key c (hstays key c hc)

lemma Succeeded.content {w : Runs} (h : Succeeded w tenant schema)
    (hw : Fibers.Held (schemas digits isFieldEntry) Unwritten Sound Leaves (fun _ _ => True) Stays
      (Ends digits) w) : contentAt w.shared.store (schemaKey digits tenant schema.collection schema.version) =
      some (reread schema.stored.json) := by
  obtain ⟨k, answer, hjob⟩ := h
  exact (show Ends digits (.save tenant schema) k answer w.shared from hw.fibers hjob).2

lemma held_unwritten : Fibers.Held (schemas digits isFieldEntry) Unwritten Sound Leaves
    (fun _ _ => True) Stays (Ends digits) start :=
  held_start ⟨(fun h => by cases h), (fun h => by cases h), fun h => by cases h⟩ fun _ => trivial

/-- In every run whose writes of a version meet no other content under its key, what a save has returned of a
version stays, and no other content is saved under it. -/
theorem schemaVersions_immutable (digits : JsNumber → Utf16) (isFieldEntry : Validator)
    (events : List (Event Request Outcome Empty Unit))
    (hwithin : (schemas digits isFieldEntry).Within Unwritten start events) :
    VersionsImmutable digits isFieldEntry events := by
  rintro first rest w w' rfl hfirst hrest tenant schema hsaved
  obtain ⟨hbefore, hlater⟩ := Process.within_append hwithin hfirst
  have hw := (discipline digits isFieldEntry).after held_unwritten hbefore hfirst
  have hw' := (discipline digits isFieldEntry).after hw hlater hrest
  have hcontent := stays_after hw hlater hrest _ _ (hsaved.content hw)
  refine ⟨hcontent, fun schema' hsaved' hcollection hversion => ?_⟩
  have hcontent' := hsaved'.content hw'
  rw [hcollection, hversion, hcontent] at hcontent'
  exact (Option.some.inj hcontent').symm

def plainSchema (fields : List Json) : CollectionSchema where
  collection := utf16 "a"
  version := .ofNat 1
  activate := some false
  fields := fields

def savedAlone : List (Event Request Outcome Empty Unit) :=
  [.begins (.save (utf16 "t") (plainSchema [])), .moves 0 .done, .moves 0 .done, .moves 0 .done,
    .moves 0 .done]

theorem schemaVersions_immutable_alone :
    (schemas (fun _ => []) fun _ => true).Within Unwritten start savedAlone ∧
      VersionsImmutable (fun _ => []) (fun _ => true) savedAlone := by
  have hwithin : (schemas (fun _ => []) fun _ => true).Within Unwritten start savedAlone := by
    refine ⟨(fun k c h => by cases h), fun w h => ?_⟩
    cases h
    refine ⟨fun k c h => ?_, fun w h => ?_⟩
    · cases h
      rintro q body manifest key ⟨⟩
    cases h
    refine ⟨fun k c h => ?_, fun w h => ?_⟩
    · cases h
      rintro q body manifest key ⟨⟩
    cases h
    refine ⟨fun k c h => ?_, fun w h => ?_⟩
    · cases h
      rintro q body manifest key ⟨⟩
    cases h
    refine ⟨fun k c h => ?_, fun w h => trivial⟩
    cases h
    rintro q body manifest key ⟨⟩ held hheld
    cases hheld
  exact ⟨hwithin, schemaVersions_immutable (fun _ => []) (fun _ => true) savedAlone hwithin⟩

/-- Two saves of one version that both look before either writes: both succeed, and the second writes over
the first. -/
theorem not_schemaVersions_immutable :
    ¬∀ digits isFieldEntry events, VersionsImmutable digits isFieldEntry events := by
  intro h
  let schema := plainSchema []
  let first : List (Event Request Outcome Empty Unit) :=
    [.begins (.save (utf16 "t") schema), .begins (.save (utf16 "t") (plainSchema [.string []])),
      .moves 0 .done, .moves 1 .done, .moves 0 .done, .moves 0 .done, .moves 0 .done]
  let rest : List (Event Request Outcome Empty Unit) := [.moves 1 .done, .moves 1 .done]
  obtain ⟨hcontent, -⟩ := h (fun _ => []) (fun _ => true) (first ++ rest) first rest _ _ rfl rfl rfl
    (utf16 "t") schema ⟨0, schema.stored.json, rfl⟩
  exact absurd hcontent (by decide +kernel)

end

end Zelavis.Db.SchemaVersions
