import Zelavis.Db.Collections

/-!
# Writing documents

The write path of `documents.ts`: what a transaction does to a tenant's documents, from the
committed objects and the overlay it carries.
-/

namespace Zelavis.Db

open Lib

/-- What the write path takes from elsewhere. -/
structure Host where
  /-- The terms of a text. Source: `tokenize`. -/
  tokenize : Utf16 → Analyzer → List Utf16
  /-- The cell terms of a document. Source: `cellTermsFor`. -/
  cellTermsFor : SpatialIndex → JsonObject → List (Utf16 × Utf16)
  /-- Whether data satisfies a collection's active schema. Source: `schemas.ts` `validate`. -/
  satisfiesSchema : Utf16 → JsonObject → Bool

def plainHost : Host where
  tokenize := fun _ _ => []
  cellTermsFor := fun _ _ => []
  satisfiesSchema := fun _ _ => true

/-! ## Namespaces and columns -/

def documentNs (tenant : TenantId) (collection : Utf16) : Utf16 :=
  utf16 "doc/" ++ tenant ++ utf16 "/" ++ collection

def collectionColumn (tenant : TenantId) : Utf16 := utf16 "zv.collection/" ++ tenant

def columnFor (tenant : TenantId) (collection path : Utf16) : Utf16 :=
  tenant ++ utf16 "/" ++ collection ++ utf16 "." ++ path

/-- The column of one creation of an index; the salt is the random part. Source: `indexColumnFor`. -/
def indexColumnFor (tenant : TenantId) (collection name salt : Utf16) : Utf16 :=
  tenant ++ utf16 "/" ++ collection ++ utf16 ":" ++ name ++ utf16 "#" ++ salt

def measureColumnFor (tenant : TenantId) (collection name : Utf16) : Utf16 :=
  tenant ++ utf16 "/" ++ collection ++ utf16 "~" ++ name

def edgeTypeFor (collection name : Utf16) : Utf16 := collection ++ utf16 "/" ++ name

/-- `COLLECTION_MARKER`. -/
def COLLECTION_MARKER : Utf16 := 0 :: utf16 "collection"

/-- `MOVE_FENCE_NAMESPACE`. -/
def MOVE_FENCE_NAMESPACE : Utf16 := utf16 "zv.moving"

/-! ## What a document contributes -/

mutual

def scalarsUnder (path : Utf16) : Json → List (Utf16 × OrderedScalar)
  | .scalar v => if path ≠ [] then [(path, v)] else []
  | .array _ => []
  | .object members => scalarsOf path members

def scalarsOf (path : Utf16) : List (Utf16 × Json) → List (Utf16 × OrderedScalar)
  | [] => []
  | (k, v) :: rest =>
    scalarsUnder (if path = [] then k else path ++ [DOT] ++ k) v ++ scalarsOf path rest

end

mutual

/-- The first path of a number that is not finite. Source: `nonFiniteIndexedPath`. -/
def nonFiniteIndexedPath (path : Utf16) : Json → Option Utf16
  | .scalar (.number n) => if n.isFinite then none else some path
  | .scalar _ => none
  | .array _ => none
  | .object members => nonFiniteMember path members

def nonFiniteMember (path : Utf16) : List (Utf16 × Json) → Option Utf16
  | [] => none
  | (k, v) :: rest =>
    match nonFiniteIndexedPath (if path = [] then k else path ++ [DOT] ++ k) v with
    | some found => some found
    | none => nonFiniteMember path rest

end

def validateDocumentData (collection : Utf16) (data : JsonObject) : Except DocError Unit :=
  match nonFiniteMember [] data with
  | some path => .error (.invalidDocumentValue collection path)
  | none => .ok ()

def columnsFor (tenant : TenantId) (collection : Utf16) (data : JsonObject) :
    List (Utf16 × OrderedScalar) :=
  (collectionColumn tenant, .string collection) ::
    (scalarsOf [] data).map fun s => (columnFor tenant collection s.1, s.2)

/-- Every analyzed field's terms, each once. Source: `termsFor`. -/
def termsFor (host : Host) (analyzer : Option Analyzer) (data : JsonObject) :
    List (Utf16 × Utf16) :=
  match analyzer with
  | none => []
  | some analyzer => (analyzer.fields.flatMap fun path =>
      match readPath data path with
      | some (.scalar (.string text)) => (host.tokenize text analyzer).map fun t => (path, t)
      | _ => []).eraseDups

def measuresFor (tenant : TenantId) (collection : Utf16) (defined : List MeasureDefinition)
    (data : JsonObject) : List (Utf16 × JsNumber) :=
  defined.filterMap fun measure =>
    match readPath data measure.path with
    | some (.scalar (.number n)) =>
      if n.isFinite then some (measureColumnFor tenant collection measure.name, n) else none
    | _ => none

def indexComponents (index : StoredIndex) (data : JsonObject) : List TupleComponent :=
  index.fields.map fun field =>
    ⟨(orderable (readPath data field.path)).map .scalar, field.direction, field.nulls⟩

/-- A document's position in one index; throws where a field holds a number that is not finite.
Source: `indexTuple`. -/
def indexTuple (index : StoredIndex) (data : JsonObject) : Option Utf16 :=
  orderedTuple (indexComponents index data)

def allValued (index : StoredIndex) (data : JsonObject) : Bool :=
  index.fields.all fun field => hasValue (readPath data field.path)

/-- Every posting a document contributes: a column per scalar, and a tuple per index. Source:
`manifestFor`. -/
def manifestFor (host : Host) (tenant : TenantId) (doc : Document)
    (collection : Option StoredCollection) (edges : List (Utf16 × Seq)) : Option IndexManifest := do
  let indexes := collection.elim [] StoredCollection.indexes
  let tuples ← indexes.mapM fun index => (indexTuple index doc.data).map fun t => (index.column, t)
  return {
    terms := termsFor host (collection.bind StoredCollection.analyzer) doc.data ++
      ((collection.bind StoredCollection.spatial).elim [] fun s => host.cellTermsFor s doc.data)
    columns := columnsFor tenant doc.collection doc.data ++ tuples.map fun t => (t.1, .string t.2)
    measures := measuresFor tenant doc.collection (collection.elim [] StoredCollection.measures)
      doc.data
    edges }

/-! ## Filters -/

/-- Strict equality of a value read and one given: objects and arrays are never the same one. -/
def strictlyEqual (actual : Option Json) (expected : Json) : Bool :=
  match actual, expected with
  | some (.scalar a), .scalar e => a.same e
  | _, _ => false

/-- How two values compare, if they are of one kind. Source: `comparison`. -/
def comparison (actual : Option Json) (expected : Json) : Option ℤ :=
  match orderable actual, orderable (some expected) with
  | some a, some e =>
    if sameOrderedKind (.scalar a) (.scalar e) then
      compareOrderedValues (.scalar a) (.scalar e)
    else none
  | _, _ => none

/-- Source: `matches`. -/
def «matches» (data : JsonObject) (filter : DocumentFilter) : Bool :=
  let actual := readPath data filter.path
  match filter.op with
  | .among =>
    match filter.value with
    | .array values => values.any (strictlyEqual actual)
    | value => strictlyEqual actual value
  | .eq => strictlyEqual actual filter.value
  | .ne => !strictlyEqual actual filter.value
  | .gt => (comparison actual filter.value).any fun order => 0 < order
  | .gte => (comparison actual filter.value).any fun order => 0 ≤ order
  | .lt => (comparison actual filter.value).any fun order => order < 0
  | .lte => (comparison actual filter.value).any fun order => order ≤ 0

/-- A filter of a check holds of a field with no value. Source: `satisfiesCheck`. -/
def satisfiesCheck (data : JsonObject) (filter : DocumentFilter) : Bool :=
  match readPath data filter.path with
  | none => true
  | some value => value.isNull || «matches» data filter

/-- Whether a value is not the vector an embedding declares. Source: `describeVector`. -/
def isWrongVector (embedding : EmbeddingIndex) : Option Json → Bool
  | none => false
  | some (.scalar .null) => false
  | some (.array items) =>
    embedding.dimension.integer? ≠ some items.length ||
      !(items ≠ [] ∧ items.all fun item =>
        match item with
        | .scalar (.number n) => n.isFinite
        | _ => false)
  | some _ => true

/-! ## A transaction -/

def nameOf (collection id : Utf16) : Utf16 := collection ++ utf16 "/" ++ id

def Document.name (doc : Document) : Utf16 := nameOf doc.collection doc.id

def claimOf (column tuple : Utf16) : Utf16 := column ++ [0] ++ tuple

/-- What a transaction has written so far. Source: `Pending`. -/
structure PendingDocs where
  bySeq : Seq → Option (Option Document) := fun _ => none
  byName : Utf16 → Option (Seq × Option Document) := fun _ => none
  claimed : Utf16 → Option Utf16 := fun _ => none

/-- A transaction's overlay and the writes it has staged. -/
structure Staged where
  pending : PendingDocs := {}
  writes : List (Objects.Write Record) := []

def changed {β γ : Type} [DecidableEq β] (f : β → γ) (b : β) (c : γ) : β → γ := fun b' =>
  if b' = b then c else f b'

def releasedBy (claimed : Utf16 → Option Utf16) (held : Utf16) : Utf16 → Option Utf16 := fun key =>
  if claimed key = some held then none else claimed key

def claimAll (doc : Document) (claimed : Utf16 → Option Utf16) (index : StoredIndex) :
    Utf16 → Option Utf16 :=
  if index.unique = true ∧ allValued index doc.data = true then
    match indexTuple index doc.data with
    | some tuple => changed claimed (claimOf index.column tuple) (some doc.name)
    | none => claimed
  else claimed

/-- Record a document the transaction has written, and the unique values it takes. Source:
`remember`. -/
def remember (p : PendingDocs) (collection : Option StoredCollection) (doc : Document) (seq : Seq) :
    PendingDocs where
  bySeq := changed p.bySeq seq (some (some doc))
  byName := changed p.byName doc.name (some (seq, some doc))
  claimed := (collection.elim [] StoredCollection.indexes).foldl (claimAll doc)
    (releasedBy p.claimed doc.name)

/-- Record a document the transaction has retracted, and release what it held. Source:
`forget`. -/
def forget (p : PendingDocs) (doc : Document) (seq : Seq) : PendingDocs where
  bySeq := changed p.bySeq seq (some none)
  byName := changed p.byName doc.name (some (seq, none))
  claimed := releasedBy p.claimed doc.name

section

variable (host : Host) (tenant : TenantId) (o : Objects Record)

def loadCollection (name : Utf16) : Option StoredCollection :=
  match (o.lookup (collectionNs tenant) name).bind o.read with
  | some (.collection c) => some c
  | _ => none

def readDocument (seq : Seq) : Option Document :=
  match o.read seq with
  | some (.document doc) => some doc
  | _ => none

/-- Refuse a write to a tenant that is being relocated. Source: `assertNotMoving`. -/
def assertNotMoving : Except DocError Unit :=
  match (o.lookup MOVE_FENCE_NAMESPACE tenant).bind o.read with
  | none => .ok ()
  | some (.fence _ _) => .error (.tenantMoving tenant)
  | some _ => .error .defect

/-- The document at an identifier, as the transaction leaves it. Source: `currentAt`. -/
def currentAt (p : PendingDocs) (seq : Seq) : Option Document :=
  match p.bySeq seq with
  | some doc => doc
  | none => readDocument o seq

/-- What a name addresses, as the transaction leaves it. Source: `currentNamed`. -/
def currentNamed (p : PendingDocs) (collection id : Utf16) : Option (Seq × Option Document) :=
  match p.byName (nameOf collection id) with
  | some written => some written
  | none => (o.lookup (documentNs tenant collection) id).map fun seq => (seq, readDocument o seq)

/-! ## Constraints -/

def embeddingFault (collection : StoredCollection) (doc : Document) : Option DocError :=
  collection.embedding.bind fun embedding =>
    if isWrongVector embedding (readPath doc.data embedding.field) then
      some (.vectorShapeMismatch doc.collection doc.id embedding.field)
    else none

def checkFault (doc : Document) (check : CheckConstraint) : Option DocError :=
  if check.filters.all (satisfiesCheck doc.data) then none
  else some (.checkViolation doc.collection doc.id check.name)

/-- Whether a value names a document that exists as the transaction leaves it. A document may name
itself; it does not exist until its write lands. -/
def namedFault (p : PendingDocs) (doc : Document) (name target : Utf16) (value : Json) :
    Option DocError :=
  match value.asString? with
  | none => some (.referenceViolation doc.collection doc.id name .notAnId)
  | some id =>
    if target = doc.collection ∧ id = doc.id then none
    else
      match currentNamed tenant o p target id with
      | some (_, some _) => none
      | _ => some (.referenceViolation doc.collection doc.id name (.noDocument id))

def referenceFault (p : PendingDocs) (doc : Document) (reference : ReferenceConstraint) :
    Option DocError :=
  match readPath doc.data reference.path with
  | none => none
  | some value =>
    if value.isNull then none
    else namedFault tenant o p doc reference.name reference.collection value

def uniqueViolation (doc : Document) (index : StoredIndex) (holder : Utf16) : DocError :=
  .uniqueViolation doc.collection index.name doc.id holder

def holderFault (p : PendingDocs) (doc : Document) (seq : Seq) (index : StoredIndex) (tuple : Utf16) :
    Option DocError :=
  (o.resolve (.equals index.column (.string tuple))).findSome? fun other =>
    if other = seq then none
    else
      match currentAt o p other with
      | none => none
      | some holder =>
        if indexTuple index holder.data ≠ some tuple then none
        else some (uniqueViolation doc index holder.id)

/-- Values another document holds in a ready unique index: first those taken earlier in this
transaction, which the postings do not show yet. -/
def uniqueFault (p : PendingDocs) (doc : Document) (seq : Seq) (index : StoredIndex) :
    Option DocError :=
  if index.unique = false ∨ index.state ≠ .ready then none
  else if allValued index doc.data = false then none
  else
    match indexTuple index doc.data with
    | none => some .defect
    | some tuple =>
      match p.claimed (claimOf index.column tuple) with
      | none => holderFault o p doc seq index tuple
      | some claimant =>
        if claimant ≠ doc.name then some (uniqueViolation doc index claimant)
        else holderFault o p doc seq index tuple

def edgesAt (p : PendingDocs) (doc : Document) (seq : Seq) (definition : EdgeDefinition) :
    Except DocError (List (Utf16 × Seq)) :=
  let ids : List Json :=
    match readPath doc.data definition.path with
    | none => []
    | some (.scalar .null) => []
    | some (.array items) => items
    | some value => [value]
  ids.mapM fun value =>
    match value.asString? with
    | none => .error (.referenceViolation doc.collection doc.id definition.name .notAnId)
    | some id =>
      if definition.collection = doc.collection ∧ id = doc.id then
        .ok (edgeTypeFor doc.collection definition.name, seq)
      else
        match currentNamed tenant o p definition.collection id with
        | some (target, some _) => .ok (edgeTypeFor doc.collection definition.name, target)
        | _ => .error (.referenceViolation doc.collection doc.id definition.name (.noDocument id))

def constraintFault (p : PendingDocs) (collection : StoredCollection) (doc : Document) (seq : Seq) :
    Option DocError :=
  (embeddingFault collection doc).or <|
    (collection.checks.findSome? (checkFault doc)).or <|
      (collection.references.findSome? (referenceFault tenant o p doc)).or <|
        collection.indexes.findSome? (uniqueFault o p doc seq)

/-- Refuse a document its collection's constraints do not allow, or answer with its edges. Source:
`enforceConstraints`. -/
def enforceConstraints (collection : Option StoredCollection) (doc : Document) (seq : Seq)
    (p : PendingDocs) : Except DocError (List (Utf16 × Seq)) :=
  match collection with
  | none => .ok []
  | some collection =>
    match constraintFault tenant o p collection doc seq with
    | some fault => .error fault
    | none => (collection.edges.mapM (edgesAt tenant o p doc seq)).map List.flatten

/-- Write a document with every posting it contributes, once its collection's constraints allow
it. Source: `documentPut`. -/
def documentPut (doc : Document) (seq : Seq) (loaded : Option StoredCollection) (s : Staged) :
    Except DocError Staged :=
  let collection := loaded.or (loadCollection tenant o doc.collection)
  match enforceConstraints tenant o collection doc seq s.pending with
  | .error fault => .error fault
  | .ok edges =>
    match manifestFor host tenant doc collection edges with
    | none => .error .defect
    | some manifest => .ok {
        pending := remember s.pending collection doc seq
        writes := s.writes ++
          [.put seq (.document doc) manifest (some ⟨documentNs tenant doc.collection, doc.id⟩)] }

/-! ## Deleting -/

/-- A document naming one that is deleted, and the references it names it through. -/
structure Gathered where
  seq : Seq
  source : StoredCollection
  naming : List ReferenceConstraint

def namesId (data : JsonObject) (path id : Utf16) : Bool :=
  match readPath data path with
  | some (.scalar (.string v)) => v = id
  | _ => false

def gatherInto (gathered : List Gathered) (seq : Seq) (source : StoredCollection)
    (reference : ReferenceConstraint) : List Gathered :=
  if gathered.any fun g => g.seq = seq then
    gathered.map fun g => if g.seq = seq then { g with naming := g.naming ++ [reference] } else g
  else gathered ++ [⟨seq, source, [reference]⟩]

/-- One document found under a reference: gone already, no longer naming it, refusing the delete,
or gathered. -/
def gatherHeld (p : PendingDocs) (doc : Document) (source : StoredCollection)
    (reference : ReferenceConstraint) (gathered : List Gathered) (held : Seq) :
    Except DocError (List Gathered) :=
  match currentAt o p held with
  | none => .ok gathered
  | some holder =>
    if namesId holder.data reference.path doc.id = false then .ok gathered
    else if reference.onDelete = .restrict then
      .error (.referenceViolation doc.collection doc.id reference.name .stillNamed)
    else .ok (gatherInto gathered held source reference)

/-- The documents naming a document through one reference recorded on its collection. -/
def gatherBack (p : PendingDocs) (doc : Document) (target : StoredCollection)
    (gathered : List Gathered) (back : BackReference) : Except DocError (List Gathered) :=
  let source := if back.collection = doc.collection then some target
    else loadCollection tenant o back.collection
  match source with
  | none => .ok gathered
  | some source =>
    match source.references.find? fun r => r.name = back.reference with
    | none => .ok gathered
    | some reference =>
      (o.resolve (.equals (columnFor tenant back.collection reference.path)
        (.string doc.id))).foldlM (gatherHeld o p doc source reference) gathered

def gatherNaming (p : PendingDocs) (doc : Document) : Except DocError (List Gathered) :=
  match loadCollection tenant o doc.collection with
  | none => .ok []
  | some target => target.referencedBy.foldlM (gatherBack tenant o p doc target) []

/-- A document with the fields that name a deleted one cleared: one change of it however many
fields a transaction clears. -/
def clearedOf (now : Utf16) (p : PendingDocs) (holder : Document) (seq : Seq)
    (naming : List ReferenceConstraint) : Document :=
  { holder with
    data := naming.foldl (fun data reference => setPath data reference.path .null) holder.data
    updatedAt := now
    version := if (p.bySeq seq).isSome then holder.version else holder.version + 1 }

/-- What a delete does to one document naming it, as it stands now: deleting it outranks clearing a
field of it. -/
def releaseHolder (now : Utf16) (release : Document → Staged → Except DocError Staged)
    (doc : Document) (s : Staged) (g : Gathered) : Except DocError Staged :=
  match currentAt o s.pending g.seq with
  | none => .ok s
  | some holder =>
    let naming := g.naming.filter fun r => namesId holder.data r.path doc.id
    if naming = [] then .ok s
    else if naming.any fun r => r.onDelete = .cascade then
      match release holder { s with pending := forget s.pending holder g.seq } with
      | .error fault => .error fault
      | .ok s => .ok { s with writes := s.writes ++ [.retract g.seq] }
    else
      let cleared := clearedOf now s.pending holder g.seq naming
      if host.satisfiesSchema g.source.name cleared.data = false then
        .error (.schemaViolation g.source.name)
      else documentPut host tenant o cleared g.seq (some g.source) s

/-- What deleting a document does to the documents naming it. Each level down a cascade has one
document fewer left, so `fuel` bounds the levels. Source: `releaseReferences`. -/
def release (now : Utf16) : ℕ → Document → Staged → Except DocError Staged
  | 0, _, _ => .error .defect
  | fuel + 1, doc, s =>
    match gatherNaming tenant o s.pending doc with
    | .error fault => .error fault
    | .ok gathered =>
      gathered.foldlM (releaseHolder host tenant o now (release now fuel) doc) s

def releaseReferences (now : Utf16) (deleted : Document) (seq : Seq) (s : Staged) :
    Except DocError Staged :=
  release host tenant o now (o.held.entries.length + 1) deleted
    { s with pending := forget s.pending deleted seq }

/-! ## The changes of a batch -/

/-- What becomes of a document's expiry. -/
inductive Expiry where
  | keep
  | ttl (moment : Option Utf16)
  | at' (moment : Utf16)
  | clear

/-- The expiry of a new document; throws where a time to live comes to no date. -/
def Expiry.ofNew : Expiry → Except DocError (Option Utf16)
  | .keep => .ok none
  | .ttl none => .error .defect
  | .ttl (some moment) => .ok (some moment)
  | .at' moment => .ok (some moment)
  | .clear => .ok none

def Expiry.ofCurrent (current : Option Utf16) : Expiry → Except DocError (Option Utf16)
  | .keep => .ok current
  | expiry => expiry.ofNew

def applyInsert (now : Utf16) (collection id : Utf16) (data : JsonObject) (expiry : Expiry)
    (seq : Seq) (s : Staged) : Except DocError Staged := do
  let record ← match loadCollection tenant o collection with
    | none => .error (.collectionNotFound collection)
    | some record => .ok record
  validateDocumentData collection data
  if host.satisfiesSchema collection data = false then .error (.schemaViolation collection)
  match currentNamed tenant o s.pending collection id with
  | some (_, some _) => .error (.documentConflict collection id .taken)
  | _ =>
    let expiresAt ← expiry.ofNew
    documentPut host tenant o
      { id, collection, data, createdAt := now, updatedAt := now, version := 1, expiresAt }
      seq (some record) s

/-- The conditions a caller put on a change. Source: `expect`. -/
def expect (collection : Utf16) (current : Document) (expectedVersion : Option ℕ)
    (precondition : List DocumentFilter) : Except DocError Unit :=
  match expectedVersion with
  | some expected =>
    if expected ≠ current.version then
      .error (.documentConflict collection current.id (.version expected current.version))
    else if precondition.all («matches» current.data) then .ok ()
    else .error (.documentConflict collection current.id .unmet)
  | none =>
    if precondition.all («matches» current.data) then .ok ()
    else .error (.documentConflict collection current.id .unmet)

/-- How given data meets a document's own. -/
inductive UpdateMode where
  | merge
  | replace
  deriving DecidableEq

def updatedData (mode : UpdateMode) (current given : JsonObject) : JsonObject :=
  match mode with
  | .merge => spread current given
  | .replace => given

def applyUpdate (now : Utf16) (collection id : Utf16) (data : JsonObject) (mode : UpdateMode)
    (expectedVersion : Option ℕ) (precondition : List DocumentFilter) (expiry : Expiry)
    (s : Staged) : Except DocError Staged :=
  match currentNamed tenant o s.pending collection id with
  | some (seq, some current) => do
    expect collection current expectedVersion precondition
    let next := updatedData mode current.data data
    validateDocumentData collection next
    if host.satisfiesSchema collection next = false then .error (.schemaViolation collection)
    let expiresAt ← expiry.ofCurrent current.expiresAt
    documentPut host tenant o
      { current with data := next, updatedAt := now, version := current.version + 1, expiresAt }
      seq none s
  | _ => .error (.documentNotFound collection id)

def applyDelete (now : Utf16) (collection id : Utf16) (expectedVersion : Option ℕ)
    (precondition : List DocumentFilter) (s : Staged) : Except DocError Staged :=
  match currentNamed tenant o s.pending collection id with
  | some (seq, some current) => do
    expect collection current expectedVersion precondition
    let s ← releaseReferences host tenant o now current seq s
    return { pending := forget s.pending current seq, writes := s.writes ++ [.retract seq] }
  | _ => .ok s

/-- One change of a batch; an insert or an upsert comes with the identifier allocated for it.
Source: `DocumentWrite`. -/
inductive DocumentWrite where
  | insert (collection id : Utf16) (data : JsonObject) (expiry : Expiry) (seq : Seq)
  | update (collection id : Utf16) (data : JsonObject) (mode : UpdateMode)
      (expectedVersion : Option ℕ) (precondition : List DocumentFilter)
  | upsert (collection id : Utf16) (data : JsonObject) (expectedVersion : Option ℕ)
      (expiry : Expiry) (seq : Seq)
  | delete (collection id : Utf16) (expectedVersion : Option ℕ)
      (precondition : List DocumentFilter)

/-- Source: `write`, its loop. -/
def applyWrite (now : Utf16) (s : Staged) : DocumentWrite → Except DocError Staged
  | .insert collection id data expiry seq =>
    applyInsert host tenant o now collection id data expiry seq s
  | .update collection id data mode expectedVersion precondition =>
    applyUpdate host tenant o now collection id data mode expectedVersion precondition .keep s
  | .upsert collection id data expectedVersion expiry seq =>
    match currentNamed tenant o s.pending collection id with
    | some (_, some _) =>
      applyUpdate host tenant o now collection id data .replace expectedVersion [] expiry s
    | _ =>
      match expectedVersion with
      | some expected => .error (.documentConflict collection id (.version expected 0))
      | none => applyInsert host tenant o now collection id data expiry seq s
  | .delete collection id expectedVersion precondition =>
    applyDelete host tenant o now collection id expectedVersion precondition s

/-- What a batch stages, under one overlay. Source: `write`, its transaction. -/
def applyAll (now : Utf16) (operations : List DocumentWrite) : Except DocError Staged := do
  assertNotMoving tenant o
  operations.foldlM (applyWrite host tenant o now) {}

/-- `MAX_BATCH`. -/
def MAX_BATCH : ℕ := 1000

def DocumentWrite.validate : DocumentWrite → Except DocError Unit
  | .insert collection _ data _ _ => validateDocumentData collection data
  | .update collection _ data _ _ _ => validateDocumentData collection data
  | .upsert collection _ data _ _ _ => validateDocumentData collection data
  | .delete .. => .ok ()

/-- A batch: the store it leaves, or why it is refused; `insert`, `update` and `delete` are batches
of one. Source: `write`. -/
def writeDocuments (now : Utf16) (operations : List DocumentWrite) :
    Except DocError (Objects Record) := do
  if operations.length = 0 ∨ MAX_BATCH < operations.length then .error .defect
  operations.forM DocumentWrite.validate
  let staged ← applyAll host tenant o now operations
  return o.commit staged.writes

end

end Zelavis.Db
