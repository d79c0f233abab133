import Zelavis.Db.Json
import Zelavis.Db.Topology
import Zelavis.Db.Tuples

/-!
# Collections

What `documents.ts` stores of a collection, and the checks a definition passes before it is
stored.
-/

namespace Zelavis.Db

open Lib

/-! ## Errors -/

/-- Why a definition or a write is refused. -/
inductive Reason where
  | badName
  /-- The `zv` prefix is reserved. -/
  | reservedName
  | badCount
  | notAPath (path : Utf16)
  | twice (name : Utf16)
  | badOption
  /-- `in` takes a list. -/
  | notAList (path : Utf16)
  | badNumber
  | noCollection (name : Utf16)
  | notAnId
  | noDocument (id : Utf16)
  | stillNamed
  | taken
  | version (expected found : ℕ)
  | unmet
  deriving DecidableEq

/-- The failures of `errors.ts` that the document operations return. -/
inductive DocError where
  | invalidCollectionName (name : Utf16) (reason : Reason)
  | collectionExists (name : Utf16)
  | collectionNotFound (name : Utf16)
  | invalidIndex (collection name : Utf16) (reason : Reason)
  | indexExists (collection name : Utf16)
  | invalidConstraint (collection name : Utf16) (reason : Reason)
  | constraintExists (collection name : Utf16)
  | invalidDocumentValue (collection path : Utf16)
  | schemaViolation (collection : Utf16)
  | documentConflict (collection id : Utf16) (reason : Reason)
  | documentNotFound (collection id : Utf16)
  | checkViolation (collection id check : Utf16)
  | uniqueViolation (collection index id holder : Utf16)
  | referenceViolation (collection id reference : Utf16) (reason : Reason)
  | vectorShapeMismatch (collection id field : Utf16)
  | tenantMoving (tenant : TenantId)
  | defect
  deriving DecidableEq

/-! ## Definitions -/

/-- One field of an index. Source: `IndexField`. -/
structure IndexField where
  path : Utf16
  direction : Direction := .asc
  nulls : NullPlacement := .last
  deriving DecidableEq

structure IndexDefinition where
  name : Utf16
  fields : List IndexField
  unique : Bool := false
  deriving DecidableEq

/-- Whether an index is complete. -/
inductive IndexState where
  | building
  | ready
  deriving DecidableEq

/-- An index as the collection record stores it. Source: `StoredIndex`. -/
structure StoredIndex extends IndexDefinition where
  state : IndexState
  column : Utf16
  deriving DecidableEq

/-- The operators a check may use. Source: `FilterOperator`. -/
inductive FilterOperator where
  /-- `"eq"`. -/
  | eq
  /-- `"ne"`. -/
  | ne
  /-- `"gt"`. -/
  | gt
  /-- `"gte"`. -/
  | gte
  /-- `"lt"`. -/
  | lt
  /-- `"lte"`. -/
  | lte
  /-- `"in"`. -/
  | among
  deriving DecidableEq

structure DocumentFilter where
  path : Utf16
  op : FilterOperator := .eq
  value : Json

structure CheckConstraint where
  name : Utf16
  filters : List DocumentFilter

/-- What deleting a document does to those naming it. -/
inductive OnDelete where
  | restrict
  | cascade
  | setNull
  deriving DecidableEq

/-- A field naming documents of a collection. Source: `ReferenceConstraint`. -/
structure ReferenceConstraint where
  name : Utf16
  path : Utf16
  collection : Utf16
  onDelete : OnDelete := .restrict
  deriving DecidableEq

/-- A reference as its target records it. -/
structure BackReference where
  collection : Utf16
  reference : Utf16
  deriving DecidableEq

structure EdgeDefinition where
  name : Utf16
  path : Utf16
  collection : Utf16
  deriving DecidableEq

structure MeasureDefinition where
  name : Utf16
  path : Utf16
  deriving DecidableEq

structure Analyzer where
  fields : List Utf16
  version : JsNumber
  fold : Option Bool := none
  stopWords : Option (List Utf16) := none
  minLength : Option JsNumber := none
  language : Option Utf16 := none
  deriving DecidableEq

structure SpatialIndex where
  fields : List Utf16
  resolution : JsNumber
  version : JsNumber
  deriving DecidableEq

/-- How distance is measured. -/
inductive Metric where
  /-- `"cosine"`. -/
  | cosine
  /-- `"dot"`. -/
  | dot
  /-- `"euclidean"`. -/
  | euclidean
  deriving DecidableEq

structure EmbeddingIndex where
  field : Utf16
  dimension : JsNumber
  metric : Metric
  quantization : Option (Fin 4) := none
  normalize : Option Bool := none
  model : Option Utf16 := none
  modelVersion : Option (Utf16 ⊕ JsNumber) := none
  version : JsNumber

/-- Where a collection is shown. -/
inductive CollectionSurface where
  /-- `"content-studio"`. -/
  | contentStudio
  /-- `"database"`. -/
  | database
  deriving DecidableEq

/-- What is stored of a collection; a list the record leaves out is empty. Source: `StoredCollection`. -/
structure StoredCollection where
  name : Utf16
  createdAt : Utf16
  surface : CollectionSurface := .database
  metadata : Option JsonObject := none
  indexes : List StoredIndex := []
  checks : List CheckConstraint := []
  references : List ReferenceConstraint := []
  analyzer : Option Analyzer := none
  spatial : Option SpatialIndex := none
  embedding : Option EmbeddingIndex := none
  edges : List EdgeDefinition := []
  measures : List MeasureDefinition := []
  referencedBy : List BackReference := []

/-- A document. Source: `Document`. -/
structure Document where
  id : Utf16
  collection : Utf16
  data : JsonObject
  createdAt : Utf16
  updatedAt : Utf16
  version : ℕ
  expiresAt : Option Utf16 := none

/-- What an object of a shard decodes to. -/
inductive Record where
  | collection (c : StoredCollection)
  | document (d : Document)
  | tenant (tenant : TenantId)
  | fence (source target : ShardId)

/-! ## Names and paths -/

def isNameStart (u : CodeUnit) : Bool :=
  (0x41 ≤ u.val && u.val ≤ 0x5A) || (0x61 ≤ u.val && u.val ≤ 0x7A) || u.val = 0x5F

def isNamePart (u : CodeUnit) : Bool :=
  isNameStart u || (0x30 ≤ u.val && u.val ≤ 0x39) || u.val = 0x2D

/-- `COLLECTION_NAME_PATTERN`. -/
def isName : Utf16 → Bool
  | [] => false
  | u :: rest => isNameStart u && rest.all isNamePart

/-- Source: `naming.ts` `isReservedCollectionName`. -/
def isReservedCollectionName (name : Utf16) : Bool :=
  (utf16 "zv_").isPrefixOf name || (utf16 "zv.").isPrefixOf name

def isPath (path : Utf16) : Bool := path ≠ [] && (path.splitOn DOT).all fun segment => segment ≠ []

def validateName (name : Utf16) : Except DocError Unit :=
  if isName name = false then .error (.invalidCollectionName name .badName)
  else if isReservedCollectionName name then .error (.invalidCollectionName name .reservedName)
  else .ok ()

/-! ## Normalized definitions -/

/-- `MAX_INDEX_FIELDS`. -/
def MAX_INDEX_FIELDS : ℕ := 8

def faultyField : List Utf16 → List IndexField → Option Reason
  | _, [] => none
  | seen, field :: rest =>
    if isPath field.path = false then some (.notAPath field.path)
    else if field.path ∈ seen then some (.twice field.path)
    else faultyField (field.path :: seen) rest

def normalizeIndex (collection : Utf16) (definition : IndexDefinition) :
    Except DocError IndexDefinition :=
  let invalid := fun reason => Except.error (DocError.invalidIndex collection definition.name reason)
  if isName definition.name = false then invalid .badName
  else if definition.fields.length = 0 ∨ MAX_INDEX_FIELDS < definition.fields.length then
    invalid .badCount
  else
    match faultyField [] definition.fields with
    | some reason => invalid reason
    | none => .ok definition

def faultyFilter (filters : List DocumentFilter) : Option Reason :=
  filters.findSome? fun filter =>
    if isPath filter.path = false then some (.notAPath filter.path)
    else match filter.op, filter.value with
      | .among, .array _ => none
      | .among, _ => some (.notAList filter.path)
      | _, _ => none

def normalizeCheck (collection : Utf16) (check : CheckConstraint) :
    Except DocError CheckConstraint :=
  let invalid := fun reason => Except.error (DocError.invalidConstraint collection check.name reason)
  if isName check.name = false then invalid .badName
  else if check.filters.length = 0 then invalid .badCount
  else
    match faultyFilter check.filters with
    | some reason => invalid reason
    | none => .ok check

def faultyPath (fields : List Utf16) : Option Reason :=
  (fields.find? fun path => isPath path = false).map .notAPath

def normalizeAnalyzer (collection : Utf16) (analyzer : Analyzer) : Except DocError Analyzer :=
  let invalid := fun reason =>
    Except.error (DocError.invalidConstraint collection (utf16 "analyzer") reason)
  if analyzer.fields.length = 0 then invalid .badCount
  else
    match faultyPath analyzer.fields with
    | some reason => invalid reason
    | none =>
      if analyzer.version.isIntegerFrom 1 = false then invalid .badNumber
      else if (analyzer.minLength.all fun n => n.isIntegerFrom 1) = false then invalid .badNumber
      else .ok analyzer

def normalizeSpatial (collection : Utf16) (spatial : SpatialIndex) : Except DocError SpatialIndex :=
  let invalid := fun reason =>
    Except.error (DocError.invalidConstraint collection (utf16 "spatial") reason)
  if spatial.fields.length = 0 then invalid .badCount
  else
    match faultyPath spatial.fields with
    | some reason => invalid reason
    | none =>
      if (spatial.resolution.integer?.any fun z => 0 ≤ z && z ≤ 15) = false then invalid .badNumber
      else if spatial.version.isIntegerFrom 1 = false then invalid .badNumber
      else .ok spatial

def normalizeEmbedding (collection : Utf16) (embedding : EmbeddingIndex) :
    Except DocError EmbeddingIndex :=
  let invalid := fun reason =>
    Except.error (DocError.invalidConstraint collection (utf16 "embedding") reason)
  if isPath embedding.field = false then invalid (.notAPath embedding.field)
  else if embedding.dimension.isIntegerFrom 1 = false then invalid .badNumber
  else if embedding.version.isIntegerFrom 1 = false then invalid .badNumber
  else .ok embedding

def faultyLink (name path : Utf16) (target : Option Utf16) : Option Reason :=
  if isName name = false then some .badName
  else if isPath path = false then some (.notAPath path)
  else if (target.all isName) = false then some .badName
  else none

def normalized {δ : Type} (collection name : Utf16) (definition : δ) (fault : Option Reason) :
    Except DocError δ :=
  match fault with
  | some reason => .error (.invalidConstraint collection name reason)
  | none => .ok definition

def normalizeEdge (collection : Utf16) (edge : EdgeDefinition) : Except DocError EdgeDefinition :=
  normalized collection edge.name edge (faultyLink edge.name edge.path (some edge.collection))

def normalizeMeasure (collection : Utf16) (measure : MeasureDefinition) :
    Except DocError MeasureDefinition :=
  normalized collection measure.name measure (faultyLink measure.name measure.path none)

def normalizeReference (collection : Utf16) (reference : ReferenceConstraint) :
    Except DocError ReferenceConstraint :=
  normalized collection reference.name reference
    (faultyLink reference.name reference.path (some reference.collection))

end Zelavis.Db
