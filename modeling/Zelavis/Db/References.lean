import Zelavis.Db.Indexes
import Zelavis.Db.Named

/-!
# Collections and the references between them

The operations of `documents.ts` that create and drop collections, and that add and drop the
references between them. A reference is recorded twice: where it is declared, and as a
back-reference of the collection it names.
-/

namespace Zelavis.Db

open Lib

/-- What an operation leaves, and why it was refused if it was. -/
abbrev Outcome := Option DocError × Objects Record

/-! ## The two records of a reference -/

def ReferenceConstraint.back (source : Utf16) (reference : ReferenceConstraint) : BackReference :=
  ⟨source, reference.name⟩

def linked (source : Utf16) (naming : List ReferenceConstraint) (target : StoredCollection) :
    StoredCollection :=
  { target with
    referencedBy := target.referencedBy ++ naming.map (ReferenceConstraint.back source) }

def unlinked (source name : Utf16) (record : StoredCollection) : StoredCollection :=
  { record with
    referencedBy := record.referencedBy.filter fun back =>
      !(back.collection = source && back.reference = name) }

def withoutReference (name : Utf16) (record : StoredCollection) : StoredCollection :=
  { record with references := record.references.filter fun candidate => candidate.name ≠ name }

@[simp] lemma linked_references (s : Utf16) (rs : List ReferenceConstraint) (c : StoredCollection) :
    (linked s rs c).references = c.references := rfl

@[simp] lemma linked_name (s : Utf16) (rs : List ReferenceConstraint) (c : StoredCollection) :
    (linked s rs c).name = c.name := rfl

@[simp] lemma linked_referencedBy (s : Utf16) (rs : List ReferenceConstraint)
    (c : StoredCollection) : (linked s rs c).referencedBy =
      c.referencedBy ++ rs.map (ReferenceConstraint.back s) := rfl

@[simp] lemma unlinked_references (s n : Utf16) (c : StoredCollection) :
    (unlinked s n c).references = c.references := rfl

@[simp] lemma unlinked_name (s n : Utf16) (c : StoredCollection) : (unlinked s n c).name = c.name := rfl

@[simp] lemma withoutReference_referencedBy (n : Utf16) (c : StoredCollection) :
    (withoutReference n c).referencedBy = c.referencedBy := rfl

@[simp] lemma withoutReference_name (n : Utf16) (c : StoredCollection) :
    (withoutReference n c).name = c.name := rfl

lemma linked_nil (s : Utf16) (c : StoredCollection) : linked s [] c = c := by
  simp [linked]

variable {c : StoredCollection}

lemma mem_unlinked {s n : Utf16} {back : BackReference} :
    back ∈ (unlinked s n c).referencedBy ↔ back ∈ c.referencedBy ∧ back ≠ ⟨s, n⟩ := by
  obtain ⟨bc, br⟩ := back
  simp only [unlinked, List.mem_filter, Bool.not_eq_true', decide_eq_false_iff_not, ne_eq,
    BackReference.mk.injEq, Bool.and_eq_false_imp]
  simp

lemma mem_withoutReference {n : Utf16} {r : ReferenceConstraint} :
    r ∈ (withoutReference n c).references ↔ r ∈ c.references ∧ r.name ≠ n := by
  simp [withoutReference]

section

variable (tenant : TenantId) (o : Objects Record)

/-- One target of `linkTargets`, with all of its references at once. -/
def linkTarget (source : Utf16) (references : List ReferenceConstraint) (name : Utf16) :
    Except DocError (Objects.Write Record) :=
  let naming := references.filter fun reference => reference.collection = name
  match o.lookup (collectionNs tenant) name, loadCollection tenant o name with
  | some targetSeq, some target => .ok (collectionPut tenant targetSeq (linked source naming target))
  | _, _ => .error (.invalidConstraint source (naming.head?.elim [] ReferenceConstraint.name)
      (.noCollection name))

def linkTargets (source : Utf16) (references : List ReferenceConstraint) :
    Except DocError (List (Objects.Write Record)) :=
  (references.map ReferenceConstraint.collection).eraseDups.mapM
    (linkTarget tenant o source references)

/-- A reference and its back-reference removed, or nothing where there is no such reference.
Source: `unlinkReference`. -/
def unlinkReference (source name : Utf16) : List (Objects.Write Record) :=
  match o.lookup (collectionNs tenant) source, loadCollection tenant o source with
  | some sourceSeq, some record =>
    match record.references.find? fun candidate => candidate.name = name with
    | none => []
    | some reference =>
      if reference.collection = source then
        [collectionPut tenant sourceSeq (unlinked source name (withoutReference name record))]
      else
        collectionPut tenant sourceSeq (withoutReference name record) ::
          match o.lookup (collectionNs tenant) reference.collection,
            loadCollection tenant o reference.collection with
          | some targetSeq, some target =>
            [collectionPut tenant targetSeq (unlinked source name target)]
          | _, _ => []
  | _, _ => []

end

/-! ## Creating -/

/-- What a collection is created from. Source: `CreateCollectionInput`. -/
structure CollectionInput where
  name : Utf16
  surface : Option CollectionSurface := none
  metadata : Option JsonObject := none
  indexes : List IndexDefinition := []
  checks : List CheckConstraint := []
  references : List ReferenceConstraint := []
  analyzer : Option Analyzer := none
  spatial : Option SpatialIndex := none
  embedding : Option EmbeddingIndex := none
  measures : List MeasureDefinition := []
  edges : List EdgeDefinition := []

def normalizeAll {δ : Type} (normalize : δ → Except DocError δ) (name : δ → Utf16)
    (twice : Utf16 → DocError) : List δ → List δ → Except DocError (List δ)
  | taken, [] => .ok taken
  | taken, definition :: rest =>
    match normalize definition with
    | .error fault => .error fault
    | .ok definition =>
      if taken.any fun other => name other = name definition then .error (twice (name definition))
      else normalizeAll normalize name twice (taken ++ [definition]) rest

def normalizeOption {δ : Type} (normalize : δ → Except DocError δ) :
    Option δ → Except DocError (Option δ)
  | none => .ok none
  | some definition => (normalize definition).map some

/-- The record of a collection as its definition asks for it, before its back-references. `salt`
is what is drawn for the column of each index. Source: `createCollection`. -/
def collectionFor (tenant : TenantId) (now : Utf16) (salt : Utf16 → Utf16)
    (input : CollectionInput) : Except DocError StoredCollection := do
  let constraintTwice := fun name => DocError.invalidConstraint input.name name (.twice name)
  let indexes ← normalizeAll (normalizeIndex input.name) IndexDefinition.name
    (fun name => .invalidIndex input.name name (.twice name)) [] input.indexes
  let checks ← normalizeAll (normalizeCheck input.name) CheckConstraint.name constraintTwice []
    input.checks
  let references ← normalizeAll (normalizeReference input.name) ReferenceConstraint.name
    constraintTwice [] input.references
  let analyzer ← normalizeOption (normalizeAnalyzer input.name) input.analyzer
  let spatial ← normalizeOption (normalizeSpatial input.name) input.spatial
  let embedding ← normalizeOption (normalizeEmbedding input.name) input.embedding
  let measures ← normalizeAll (normalizeMeasure input.name) MeasureDefinition.name constraintTwice
    [] input.measures
  let edges ← normalizeAll (normalizeEdge input.name) EdgeDefinition.name constraintTwice []
    input.edges
  return {
    name := input.name
    createdAt := now
    surface := input.surface.getD .database
    metadata := input.metadata
    indexes := indexes.map fun index => { index with
      state := .ready, column := indexColumnFor tenant input.name index.name (salt index.name) }
    checks, references, analyzer, spatial, embedding, edges, measures }

section

variable (host : Host) (tenant : TenantId) (o : Objects Record)

/-- The marker of a tenant that occupies the shard, where there is none yet. -/
def markTenant : Objects Record :=
  match o.lookup TENANT_NAMESPACE tenant with
  | some _ => o
  | none => o.nextSeq.2.commit [.put o.nextSeq.1 (.tenant tenant)
      { columns := [(TENANT_COLUMN, .string TENANT_MARKER)] } (some ⟨TENANT_NAMESPACE, tenant⟩)]

/-- The writes that record a collection: itself with the references it makes to itself, and the
back-references its targets carry. -/
def createWrites (seq : Seq) (collection : StoredCollection) :
    Except DocError (List (Objects.Write Record)) :=
  let own := collection.references.filter fun reference => reference.collection = collection.name
  let others := collection.references.filter fun reference => reference.collection ≠ collection.name
  (linkTargets tenant o collection.name others).map fun links =>
    collectionPut tenant seq (linked collection.name own collection) :: links

def createCollection (now : Utf16) (salt : Utf16 → Utf16) (input : CollectionInput) : Outcome :=
  match assertNotMoving tenant o, validateName input.name with
  | .error fault, _ => (some fault, o)
  | _, .error fault => (some fault, o)
  | .ok _, .ok _ =>
    if (loadCollection tenant o input.name).isSome then (some (.collectionExists input.name), o)
    else
      match collectionFor tenant now salt input with
      | .error fault => (some fault, o)
      | .ok collection =>
        match createWrites tenant o o.nextSeq.1 collection with
        | .error fault => (some fault, o.nextSeq.2)
        | .ok writes => (none, markTenant tenant (o.nextSeq.2.commit writes))

/-! ## Adding and dropping -/

def addWrites (source : Utf16) (sourceSeq : Seq) (record : StoredCollection)
    (reference : ReferenceConstraint) : Except DocError (List (Objects.Write Record)) :=
  let declared := { record with references := record.references ++ [reference] }
  if reference.collection = source then
    .ok [collectionPut tenant sourceSeq (linked source [reference] declared)]
  else
    (linkTargets tenant o source [reference]).map fun links =>
      collectionPut tenant sourceSeq declared :: links

/-- Whether a document's value for a reference names a document that exists. -/
def namesDocument (source : Utf16) (reference : ReferenceConstraint) (doc : Document) : Bool :=
  match readPath doc.data reference.path with
  | none => true
  | some value =>
    value.isNull ||
      match value.asString? with
      | none => false
      | some id =>
        (reference.collection = source && id = doc.id) ||
          (o.lookup (documentNs tenant reference.collection) id).isSome

def unnamedIn (source : Utf16) (reference : ReferenceConstraint) : Option Document :=
  ((documentSeqs tenant o source).filterMap (readDocument o)).find? fun doc =>
    !namesDocument tenant o source reference doc

def danglingReason (reference : ReferenceConstraint) (doc : Document) : Reason :=
  match (readPath doc.data reference.path).bind Json.asString? with
  | some id => .noDocument id
  | none => .notAnId

/-- The reference recorded first, and taken off again where a document already breaks it. Source:
`addReference`. -/
def addReference (source : Utf16) (reference : ReferenceConstraint) : Outcome :=
  match assertNotMoving tenant o, normalizeReference source reference with
  | .error fault, _ => (some fault, o)
  | _, .error fault => (some fault, o)
  | .ok _, .ok reference =>
    match o.lookup (collectionNs tenant) source, loadCollection tenant o source with
    | some sourceSeq, some record =>
      if record.references.any fun other => other.name = reference.name then
        (some (.constraintExists source reference.name), o)
      else
        match addWrites tenant o source sourceSeq record reference with
        | .error fault => (some fault, o)
        | .ok writes =>
          let added := o.commit writes
          match unnamedIn tenant added source reference with
          | none => (none, added)
          | some doc =>
            (some (.referenceViolation source doc.id reference.name (danglingReason reference doc)),
              added.commit (unlinkReference tenant added source reference.name))
    | _, _ => (some (.collectionNotFound source), o)

def dropReference (collection name : Utf16) : Outcome :=
  match assertNotMoving tenant o, o.lookup (collectionNs tenant) collection with
  | .error fault, _ => (some fault, o)
  | _, none => (some (.collectionNotFound collection), o)
  | .ok _, some _ => (none, o.commit (unlinkReference tenant o collection name))

def dropPage (collection : Utf16) : List Document :=
  ((documentSeqs tenant o collection).filterMap (readDocument o)).take 500

/-- A collection emptied a page at a time. A page is gone before the next is read, so `fuel` bounds
the pages. -/
def emptied (now collection : Utf16) : ℕ → Objects Record → Outcome
  | 0, o => (some .defect, o)
  | fuel + 1, o =>
    match dropPage tenant o collection with
    | [] => (none, o)
    | doc :: rest =>
      match (doc :: rest).foldlM (fun s (doc : Document) =>
          applyDelete host tenant o now collection doc.id none [] s) {} with
      | .error fault => (some fault, o)
      | .ok s => emptied now collection fuel (o.commit s.writes)

/-- The writes that drop a collection: its references to others, and itself. -/
def dropWrites (collection : StoredCollection) : List (Objects.Write Record) :=
  (collection.references.filter fun reference => reference.collection ≠ collection.name).flatMap
      (fun reference => unlinkReference tenant o collection.name reference.name) ++
    ((o.lookup (collectionNs tenant) collection.name).map Objects.Write.retract).toList

def unmarkTenant : Objects Record :=
  if o.resolve (.equals (collectionColumn tenant) (.string COLLECTION_MARKER)) = [] then
    match o.lookup TENANT_NAMESPACE tenant with
    | none => o
    | some markerSeq => o.commit [.retract markerSeq]
  else o

def dropCollection (now name : Utf16) : Outcome :=
  match assertNotMoving tenant o, loadCollection tenant o name with
  | .error fault, _ => (some fault, o)
  | _, none => (some (.collectionNotFound name), o)
  | .ok _, some collection =>
    match collection.referencedBy.find? fun back => back.collection ≠ name with
    | some back => (some (.referenceViolation name [] back.reference .stillNamed), o)
    | none =>
      match emptied host tenant now name (o.held.entries.length + 1) o with
      | (some fault, o) => (some fault, o)
      | (none, o) => (none, unmarkTenant tenant (o.commit (dropWrites tenant o collection)))

end

/-! ## Runs -/

/-- An operation of one tenant. -/
inductive CollectionOp where
  /-- `createCollection`. -/
  | create (tenant : TenantId) (now : Utf16) (salt : Utf16 → Utf16) (input : CollectionInput)
  | addReference (tenant : TenantId) (source : Utf16) (reference : ReferenceConstraint)
  | dropReference (tenant : TenantId) (collection name : Utf16)
  | dropCollection (tenant : TenantId) (now name : Utf16)

def CollectionOp.run (host : Host) (o : Objects Record) : CollectionOp → Outcome
  | .create tenant now salt input => Db.createCollection tenant o now salt input
  | .addReference tenant source reference => Db.addReference tenant o source reference
  | .dropReference tenant collection name => Db.dropReference tenant o collection name
  | .dropCollection tenant now name => Db.dropCollection host tenant o now name

def ranCollections (host : Host) (ops : List CollectionOp) (o : Objects Record) : Objects Record :=
  ops.foldl (fun o op => (op.run host o).2) o

/-- The stores that operations meeting a condition lead to. -/
inductive Arrived (host : Host) (cond : CollectionOp → Objects Record → Prop) :
    Objects Record → Prop
  | start : Arrived host cond .empty
  | step {o : Objects Record} (op : CollectionOp) (ho : Arrived host cond o) (hop : cond op o) :
    Arrived host cond (op.run host o).2

end Zelavis.Db
