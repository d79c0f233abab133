import Zelavis.Db.Batches
import Zelavis.Db.Canonical

/-!
# Schemas and migrations

`schemas.ts`, and `migrations.ts` `transform` and `migrate`.
-/

namespace Zelavis.Db

open Lib

/-! ## Fields -/

/-- A field of a version. What a field's kind makes of a value is the platform's: it depends on no
more of the value than JSON keeps. Source: `schema/field-types.ts` `CollectionField`. -/
structure CollectionField where
  tag : Utf16
  required : Bool
  /-- Whether it accepts a value. Source: `schema/collection-schema.ts` `fieldToValueSchema`. -/
  accepts : Json → Bool
  accepts_reread : ∀ v, accepts (reread v) = accepts v

/-- Source: `schema/field-types.ts` `CollectionFieldEntry`. -/
structure CollectionFieldEntry where
  name : Utf16
  field : CollectionField

def fieldNamed (fields : List CollectionFieldEntry) (name : Utf16) : Option CollectionField :=
  (fields.reverse.find? fun entry => entry.name = name).map CollectionFieldEntry.field

def CollectionField.acceptsMember (field : CollectionField) : Option Json → Bool
  | some v => field.accepts v
  | none => !field.required

/-- Whether fields accept a document's data: it has no name they do not, and each accepts what is
there. Source: `schema/collection-schema.ts` `validateDocumentData`. -/
def acceptsData (fields : List CollectionFieldEntry) (data : JsonObject) : Bool :=
  (data.all fun m => (fieldNamed fields m.1).isSome) &&
    fields.all fun entry =>
      (fieldNamed fields entry.name).all fun field => field.acceptsMember (ownMember data entry.name)

/-! ## Schemas -/

/-- A tenant's schemas. Source: `schemas.ts`. -/
structure Schemas where
  versions : Utf16 → ℕ → Option (List CollectionFieldEntry) := fun _ _ => none
  active : Utf16 → Option ℕ := fun _ => none

namespace Schemas

/-- The active version and its fields. Source: `schemas.ts` `getActive`. -/
def getActive (schemas : Schemas) (collection : Utf16) : Option (ℕ × List CollectionFieldEntry) :=
  (schemas.active collection).bind fun version =>
    (schemas.versions collection version).map fun fields => (version, fields)

/-- Whether the active version accepts a document's data; without one anything is accepted. Source:
`schemas.ts` `validate`. -/
def validate (schemas : Schemas) (collection : Utf16) (data : JsonObject) : Bool :=
  (schemas.getActive collection).all fun active => acceptsData active.2 data

/-- A version made the active one, if it was saved. Source: `schemas.ts` `activate`. -/
def activate (schemas : Schemas) (collection : Utf16) (version : ℕ) : Option Schemas :=
  (schemas.versions collection version).map fun _ =>
    { schemas with active := changed schemas.active collection (some version) }

end Schemas

def Host.checkedBy (host : Host) (schemas : Schemas) : Host :=
  { host with satisfiesSchema := schemas.validate }

/-! ## Instructions -/

/-- One change to make to each document. Source: `migrations.ts` `FieldMigration`. -/
inductive FieldMigration where
  | rename (source target : Utf16)
  | set (path : Utf16) (value : Json)
  | default (path : Utf16) (value : Json)
  | drop (path : Utf16)

def eraseMember (data : JsonObject) (name : Utf16) : JsonObject :=
  data.filter fun m => m.1 ≠ name

/-- `out[name] = value`: the prototype's name sets no member an object does not have already. -/
def assignMember (data : JsonObject) (name : Utf16) (value : Json) : JsonObject :=
  if name = utf16 "__proto__" ∧ ownMember data name = none then data
  else setMember data name value

def FieldMigration.apply (data : JsonObject) : FieldMigration → JsonObject
  | .rename source target =>
    match ownMember data source with
    | some value => eraseMember (assignMember data target value) source
    | none => data
  | .set path value => assignMember data path value
  | .default path value =>
    match ownMember data path with
    | some _ => data
    | none => assignMember data path value
  | .drop path => eraseMember data path

/-- The instructions applied, then what the new version does not name discarded. Source:
`migrations.ts` `transform`. -/
def transform (data : JsonObject) (instructions : List FieldMigration) (keep : List Utf16) :
    JsonObject :=
  (instructions.foldl FieldMigration.apply data).filter fun m => m.1 ∈ keep

/-! ## Plans -/

/-- How a field differs between two versions. -/
inductive SchemaChange where
  | added
  | removed
  | retyped
  | tightened

/-- Source: `migrations.ts` `SchemaDifference`. -/
structure SchemaDifference where
  path : Utf16
  change : SchemaChange
  blocking : Bool

def fieldNames (fields : List CollectionFieldEntry) : List Utf16 :=
  fields.foldl (fun names entry => if entry.name ∈ names then names else names ++ [entry.name]) []

def differenceAt (source target : List CollectionFieldEntry) (name : Utf16) :
    Option SchemaDifference :=
  (fieldNamed target name).bind fun entry =>
    match fieldNamed source name with
    | none => some ⟨name, .added, entry.required⟩
    | some was =>
      if was.tag ≠ entry.tag then some ⟨name, .retyped, true⟩
      else if was.required = false ∧ entry.required = true then some ⟨name, .tightened, true⟩
      else none

/-- What separates two versions. Source: `migrations.ts` `differencesBetween`. -/
def differencesBetween (source target : List CollectionFieldEntry) : List SchemaDifference :=
  (fieldNames target).filterMap (differenceAt source target) ++
    ((fieldNames source).filter fun name => (fieldNamed target name).isNone).map fun name =>
      ⟨name, .removed, false⟩

def FieldMigration.addresses : FieldMigration → Utf16
  | .rename _ target => target
  | .set path _ => path
  | .default path _ => path
  | .drop path => path

/-- The blocking differences that no instruction speaks to. Source: `migrations.ts`
`unresolvedIn`. -/
def unresolvedIn (differences : List SchemaDifference) (instructions : List FieldMigration) :
    List SchemaDifference :=
  differences.filter fun d => d.blocking && d.path ∉ instructions.map FieldMigration.addresses

/-! ## Migrating -/

/-- What is asked of a migration. Source: `migrations.ts` `MigrateInput`. -/
structure MigrateInput where
  source : Option ℕ := none
  target : ℕ
  apply : List FieldMigration := []
  dryRun : Bool := false
  activate : Bool := true

/-- What a migration comes to. Source: `migrations.ts` `MigrationResult`. -/
structure MigrationResult where
  source : ℕ
  target : ℕ
  migrated : ℕ
  unchanged : ℕ
  failures : List Utf16
  activated : Bool
  dryRun : Bool

/-- Why a migration fails. -/
inductive MigrationError where
  | schemaNotFound (version : ℕ)
  /-- `SchemaMigrationBlocked`: the differences that are left to speak to. -/
  | schemaMigrationBlocked (source target : ℕ) (unresolved : List SchemaDifference)
  | died (fault : DocError)

/-- What a migration does to the documents, as it was decided. -/
structure MigrationPlan where
  result : MigrationResult
  pending : List (Utf16 × JsonObject)

/-- Where a migration is. -/
inductive MigrationPhase where
  | asked
  | targeted (target : List CollectionFieldEntry)
  | comparing (target : List CollectionFieldEntry) (source : ℕ)
  | listing (target : List CollectionFieldEntry) (source : ℕ) (before : List CollectionFieldEntry)
  | collecting (target : List CollectionFieldEntry) (source : ℕ) (before : List CollectionFieldEntry)
      (seqs : List Seq) (docs : List Document)
  | activating (plan : MigrationPlan)
  | writing (plan : MigrationPlan) (pending : List (Utf16 × JsonObject))
  | done (result : Except MigrationError MigrationResult)

/-- A store with its schemas, a migration on it, and what the migration has changed. -/
structure Migration where
  store : Objects Record
  schemas : Schemas
  phase : MigrationPhase := .asked
  activated : Bool := false
  wrote : List Utf16 := []

section

variable (digits : JsNumber → Utf16) (collection : Utf16) (input : MigrateInput)

def migrated (target : List CollectionFieldEntry) (doc : Document) : JsonObject :=
  transform doc.data input.apply (target.map CollectionFieldEntry.name)

def writtenAlike (target : List CollectionFieldEntry) (doc : Document) : Bool :=
  stringify digits (.object (migrated input target doc)) = stringify digits (.object doc.data)

def failuresIn (target : List CollectionFieldEntry) (docs : List Document) : List Document :=
  docs.filter fun doc => acceptsData target (migrated input target doc) = false

def unchangedIn (target : List CollectionFieldEntry) (docs : List Document) : List Document :=
  docs.filter fun doc => acceptsData target (migrated input target doc) &&
    writtenAlike digits input target doc

def pendingIn (target : List CollectionFieldEntry) (docs : List Document) : List Document :=
  docs.filter fun doc => acceptsData target (migrated input target doc) &&
    !writtenAlike digits input target doc

/-- What is decided once every document is read, before anything is changed. Source:
`migrations.ts` `migrate`. -/
def decided (target : List CollectionFieldEntry) (source : ℕ) (before : List CollectionFieldEntry)
    (docs : List Document) : MigrationPhase :=
  let unresolved := unresolvedIn (differencesBetween before target) input.apply
  let failures := failuresIn input target docs
  let pending := pendingIn digits input target docs
  let result : MigrationResult :=
    { source, target := input.target, migrated := 0
      unchanged := (unchangedIn digits input target docs).length
      failures := failures.map Document.id, activated := false, dryRun := input.dryRun }
  if unresolved ≠ [] then .done (.error (.schemaMigrationBlocked source input.target unresolved))
  else if failures ≠ [] then .done (.ok result)
  else if input.dryRun = true then .done (.ok { result with migrated := pending.length })
  else
    let plan : MigrationPlan :=
      { result := { result with migrated := pending.length, activated := input.activate }
        pending := pending.map fun doc => (doc.id, migrated input target doc) }
    if input.activate = true then .activating plan else .writing plan plan.pending

variable (host : Host) (t : TenantId)

/-- The next step of a migration. Source: `migrations.ts` `migrate`. -/
def Migration.advance (now : Utf16) (w : Migration) : Migration :=
  match w.phase with
  | .asked =>
    match w.schemas.versions collection input.target with
    | none => { w with phase := .done (.error (.schemaNotFound input.target)) }
    | some target => { w with phase := .targeted target }
  | .targeted target =>
    match input.source.or ((w.schemas.getActive collection).map Prod.fst) with
    | none => { w with phase := .done (.error (.schemaNotFound 0)) }
    | some source => { w with phase := .comparing target source }
  | .comparing target source =>
    match w.schemas.versions collection source with
    | none => { w with phase := .done (.error (.schemaNotFound source)) }
    | some before => { w with phase := .listing target source before }
  | .listing target source before =>
    { w with phase := .collecting target source before (documentSeqs t w.store collection) [] }
  | .collecting target source before seqs docs =>
    match seqs with
    | [] => { w with phase := decided digits input target source before docs }
    | q :: seqs =>
      match w.store.read q with
      | some (.document doc) =>
        { w with phase := .collecting target source before seqs (docs ++ [doc]) }
      | some _ => { w with phase := .done (.error (.died .defect)) }
      | none => { w with phase := .collecting target source before seqs docs }
  | .activating plan =>
    match w.schemas.activate collection input.target with
    | none => { w with phase := .done (.error (.schemaNotFound input.target)) }
    | some schemas =>
      { w with schemas, activated := true, phase := .writing plan plan.pending }
  | .writing plan pending =>
    match pending with
    | [] => { w with phase := .done (.ok plan.result) }
    | (id, data) :: pending =>
      match writeDocuments (host.checkedBy w.schemas) t w.store now
        [.update collection id data .replace none []] with
      | .error fault => { w with phase := .done (.error (.died fault)) }
      | .ok store => { w with store, phase := .writing plan pending, wrote := w.wrote ++ [id] }
  | .done _ => w

/-- A step of the migration, before which the state meets a condition, or a change of the store by
anything else, which meets another. -/
inductive Migration.Step (C : Utf16 → Migration → Prop) (D : Migration → Migration → Prop) :
    Migration → Migration → Prop where
  | advance {w : Migration} (now : Utf16) (hC : C now w) :
      Step C D w (w.advance digits collection input host t now)
  /-- Anything else changes the documents or the schemas; a store stays one of objects that are what
  their identities say. -/
  | other {w : Migration} (store : Objects Record) (schemas : Schemas) (hkept : Kept store)
      (hD : D w { w with store, schemas }) : Step C D w { w with store, schemas }

/-- The states that runs of a migration lead to from a state. -/
inductive Migration.Runs (C : Utf16 → Migration → Prop) (D : Migration → Migration → Prop)
    (w₀ : Migration) : Migration → Prop where
  | start : Runs C D w₀ w₀
  | step {w w' : Migration} (h : Runs C D w₀ w)
      (hstep : Migration.Step digits collection input host t C D w w') : Runs C D w₀ w'

end

/-! ## What is claimed -/

section

variable (collection : Utf16) (input : MigrateInput) (t : TenantId)

/-- What is claimed of a migration that has returned. -/
structure Migration.AllOrNothing (w w₀ : Migration) : Prop where
  failed : ∀ fault, w.phase = .done (.error fault) → w.wrote = [] ∧ w.activated = false
  refused : ∀ result, w.phase = .done (.ok result) → result.failures ≠ [] ∨ input.dryRun = true →
    w.wrote = [] ∧ w.activated = false
  /-- Where it succeeds, the new version is active, and every document of the collection satisfies
  it and carries the transform of its previous data. -/
  succeeded : ∀ result, w.phase = .done (.ok result) → result.failures = [] →
    input.dryRun = false → input.activate = true →
    w.schemas.active collection = some input.target ∧
    ∃ target, w.schemas.versions collection input.target = some target ∧
      ∀ q d, docAt t w.store q = some d → d.collection = collection →
        acceptsData target d.data = true ∧ ∃ d₀, docAt t w₀.store q = some d₀ ∧
          reread (.object d.data) = reread (.object (migrated input target d₀))

end

end Zelavis.Db
