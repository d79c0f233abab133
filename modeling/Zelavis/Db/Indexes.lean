import Mathlib.Data.Prod.Lex
import Zelavis.Db.Documents

/-!
# Building an index

`createIndex` of `documents.ts`: an index is recorded as building, every document written before it
is put back with the posting it calls for, and only then does the index become ready, unless the
documents already break it. Each of these is a transaction of its own, and writes go on between
them.
-/

namespace Zelavis.Db

open Lib

section

variable (host : Host) (tenant : TenantId)

def collectionPut (seq : Seq) (collection : StoredCollection) : Objects.Write Record :=
  .put seq (.collection collection)
    { columns := [(collectionColumn tenant, .string COLLECTION_MARKER)] }
    (some ⟨collectionNs tenant, collection.name⟩)

variable (o : Objects Record)

/-- The first transaction of `createIndex`: the index as the record has it, added as building if it
is not there. Source: `createIndex`. -/
def recordIndex (seq : Seq) (collection : Utf16) (definition : IndexDefinition) (salt : Utf16) :
    Except DocError (StoredIndex × Objects Record) :=
  match loadCollection tenant o collection with
  | none => .error (.collectionNotFound collection)
  | some current =>
    match current.indexes.find? fun index => index.name = definition.name with
    | some existing => .ok (existing, o)
    | none =>
      let index : StoredIndex := { definition with
        state := .building, column := indexColumnFor tenant collection definition.name salt }
      .ok (index, o.commit [collectionPut tenant seq
        { current with indexes := current.indexes ++ [index] }])

/-! ## Settings -/

/-- What `addCheck`, `dropCheck`, `analyze`, `locate` and `embed` set. -/
structure Settings where
  checks : List CheckConstraint
  analyzer : Option Analyzer
  spatial : Option SpatialIndex
  embedding : Option EmbeddingIndex

def Settings.on (settings : Settings) (c : StoredCollection) : StoredCollection :=
  { c with
    checks := settings.checks, analyzer := settings.analyzer, spatial := settings.spatial
    embedding := settings.embedding }

/-! ## Rewriting -/

def linksAt (doc : Document) (seq : Seq) (definition : EdgeDefinition) : List (Utf16 × Seq) :=
  let ids : List Json :=
    match readPath doc.data definition.path with
    | none => []
    | some (.scalar .null) => []
    | some (.array items) => items
    | some value => [value]
  ids.filterMap fun value =>
    match value.asString? with
    | none => none
    | some id =>
      if definition.collection = doc.collection ∧ id = doc.id then
        some (edgeTypeFor doc.collection definition.name, seq)
      else (o.lookup (documentNs tenant definition.collection) id).map fun target =>
        (edgeTypeFor doc.collection definition.name, target)

/-- One document put back with the postings its collection's record calls for; nothing where there
is no such document. -/
def rewritten (collection : Utf16) (seq : Seq) : Except DocError (List (Objects.Write Record)) :=
  match readDocument o seq with
  | none => .ok []
  | some doc =>
    if doc.collection ≠ collection then .ok []
    else
      let record := loadCollection tenant o collection
      let links := (record.elim [] StoredCollection.edges).flatMap (linksAt tenant o doc seq)
      match manifestFor host tenant doc record links with
      | none => .error .defect
      | some manifest =>
        .ok [.put seq (.document doc) manifest (some ⟨documentNs tenant collection, doc.id⟩)]

/-- `REWRITE_CHUNK`. -/
def REWRITE_CHUNK : ℕ := 256

def documentSeqs (collection : Utf16) : List Seq :=
  o.resolve (.equals (collectionColumn tenant) (.string collection))

/-- One transaction of a rewrite. Source: `rewriteDocuments`. -/
def rewriteChunk (collection : Utf16) (seqs : List Seq) : Except DocError (Objects Record) :=
  (seqs.mapM (rewritten host tenant o collection)).map fun writes => o.commit writes.flatten

/-! ## Making it ready -/

/-- A column's postings in order: by the encoding of the value, then by identifier. Source:
`store.ts` `ObjectStoreApi.ordered`. -/
def orderedRows (column : Utf16) : List (OrderedScalar × Seq) :=
  let rows := o.held.entries.flatMap fun e =>
    (e.2.manifest.columns.filter fun c => c.1 = column).map fun c => (c.2, e.1)
  rows.insertionSort fun a b =>
    toLex ((writeOrderedValue (.scalar a.1)).getD [], a.2) ≤
      toLex ((writeOrderedValue (.scalar b.1)).getD [], b.2)

def isValuedTuple (directions : List Direction) : OrderedScalar → Bool
  | .string tuple =>
    match decodeOrderedTuple tuple directions with
    | some values => values.all Option.isSome
    | none => false
  | _ => false

def adjacentPair (directions : List Direction) :
    List (OrderedScalar × Seq) → Option (Seq × Seq)
  | a :: b :: rest =>
    if a.1 = b.1 ∧ isValuedTuple directions b.1 = true then some (a.2, b.2)
    else adjacentPair directions (b :: rest)
  | _ => none

/-- Two documents holding the same values in every field of an index, if any do. Source:
`duplicateIn`. -/
def duplicateIn (index : StoredIndex) : Option (Seq × Seq) :=
  adjacentPair (index.fields.map IndexField.direction) (orderedRows o index.column)

/-- What the last transaction of `createIndex` comes to. -/
inductive BuildOutcome where
  | dropped
  | duplicate (first second : Seq)
  | ready
  deriving DecidableEq

/-- The last transaction of `createIndex`: the check and the start of refusing duplicates are one
change. Source: `createIndex`. -/
def finishIndex (seq : Seq) (collection : Utf16) (recorded : StoredIndex) :
    BuildOutcome × Objects Record :=
  match loadCollection tenant o collection with
  | none => (.dropped, o)
  | some current =>
    if current.indexes.all fun index => index.column ≠ recorded.column then (.dropped, o)
    else
      match (if recorded.unique then duplicateIn o recorded else none) with
      | some (first, second) => (.duplicate first second, o.commit [collectionPut tenant seq
          { current with
            indexes := current.indexes.filter fun index => index.column ≠ recorded.column }])
      | none => (.ready, o.commit [collectionPut tenant seq
          { current with
            indexes := current.indexes.map fun index =>
              if index.column = recorded.column then { index with state := .ready } else index }])

/-- The transaction of `dropIndex`: the index taken off the record. Source: `dropIndex`. -/
def dropIndex (seq : Seq) (collection name : Utf16) : Objects Record :=
  match loadCollection tenant o collection with
  | none => o
  | some current =>
    if current.indexes.all fun index => index.name ≠ name then o
    else o.commit [collectionPut tenant seq
      { current with indexes := current.indexes.filter fun index => index.name ≠ name }]

/-- The transaction that records other settings of a collection. Source: `addCheck`,
`dropCheck`, `analyze`, `locate`, `embed`. -/
def recordSettings (seq : Seq) (collection : Utf16) (settings : StoredCollection → Settings) :
    Objects Record :=
  match loadCollection tenant o collection with
  | none => o
  | some current => o.commit [collectionPut tenant seq ((settings current).on current)]

/-- Nothing is written, or the record with other indexes. -/
def PutsIndexes (seq : Seq) (collection : Utf16) (o' : Objects Record) : Prop :=
  o' = o ∨ ∃ c indexes, loadCollection tenant o collection = some c ∧
    o' = o.commit [collectionPut tenant seq { c with indexes := indexes }]

end

section

variable {tenant : TenantId} {o o' : Objects Record} {seq : Seq} {collection : Utf16}
  {recorded : StoredIndex}

lemma recordIndex_puts {definition : IndexDefinition} {salt : Utf16}
    (h : recordIndex tenant o seq collection definition salt = .ok (recorded, o')) :
    PutsIndexes tenant o seq collection o' := by
  unfold recordIndex at h
  split at h
  · cases h
  next c hc =>
    split at h
    · cases h
      exact .inl rfl
    · cases h
      exact .inr ⟨c, _, hc, rfl⟩

lemma finishIndex_puts {outcome : BuildOutcome}
    (h : finishIndex tenant o seq collection recorded = (outcome, o')) :
    PutsIndexes tenant o seq collection o' := by
  unfold finishIndex at h
  split at h
  · cases h
    exact .inl rfl
  next c hc =>
    split at h
    · cases h
      exact .inl rfl
    · split at h
      · cases h
        exact .inr ⟨c, _, hc, rfl⟩
      · cases h
        exact .inr ⟨c, _, hc, rfl⟩

lemma dropIndex_puts (name : Utf16) :
    PutsIndexes tenant o seq collection (dropIndex tenant o seq collection name) := by
  unfold dropIndex
  split
  · exact .inl rfl
  next c hc =>
    split_ifs
    · exact .inl rfl
    · exact .inr ⟨c, _, hc, rfl⟩

end

end Zelavis.Db
