import Zelavis.Db.Batches
import Zelavis.Db.Canonical

/-!
# Writes done at most once

`documents.ts` `insert`, `update`, `delete` and `write` under an idempotency key, and the receipts
that a retry is answered from.

A receipt is never written again, so that looking it up and reading it are one step here. A
transaction lands as a whole or not at all; an attempt that crashes is one that takes no further
step.
-/

namespace Zelavis.Db

open Lib

/-! ## Requests -/

/-- A condition as a caller gives it. Source: `DocumentFilter`. -/
structure FilterInput where
  path : Utf16
  /-- The comparison, `"eq"` where it is left out. -/
  op : Option FilterOperator := none
  value : Json

def FilterInput.filter (input : FilterInput) : DocumentFilter where
  path := input.path
  op := input.op.getD .eq
  value := input.value

/-- One change of a batch, as a caller gives it. Source: `DocumentWrite`. -/
inductive DocumentOperation where
  /-- `"Upsert"`; an expiry of null clears the one there is. -/
  | upsert (collection id : Utf16) (data : JsonObject) (expectedVersion : Option ℕ)
      (expiresAt : Option (Option Utf16)) (ttlMs : Option JsNumber)
  /-- `"Insert"`. -/
  | insert (collection : Utf16) (id : Option Utf16) (data : JsonObject) (expiresAt : Option Utf16)
      (ttlMs : Option JsNumber)
  /-- `"Update"`. -/
  | update (collection id : Utf16) (data : JsonObject) (mode : Option UpdateMode)
      (expectedVersion : Option ℕ) (precondition : Option (List FilterInput))
  /-- `"Delete"`. -/
  | delete (collection id : Utf16) (expectedVersion : Option ℕ)
      (precondition : Option (List FilterInput))

/-- What is asked under a key. -/
inductive KeyedRequest where
  /-- Source: `insert`. -/
  | insert (collection : Utf16) (id : Option Utf16) (data : JsonObject)
  /-- Source: `update`. -/
  | update (collection id : Utf16) (data : JsonObject) (mode : Option UpdateMode)
      (expectedVersion : Option ℕ) (precondition : Option (List FilterInput))
  /-- Source: `delete`. -/
  | delete (collection id : Utf16) (expectedVersion : Option ℕ)
      (precondition : Option (List FilterInput))
  /-- Source: `write`. -/
  | write (operations : List DocumentOperation)

def KeyedRequest.operations : KeyedRequest → List DocumentOperation
  | .insert collection id data => [.insert collection id data none none]
  | .update collection id data mode expectedVersion precondition =>
    [.update collection id data mode expectedVersion precondition]
  | .delete collection id expectedVersion precondition =>
    [.delete collection id expectedVersion precondition]
  | .write operations => operations

def DocumentOperation.validate : DocumentOperation → Except DocError Unit
  | .upsert collection _ data _ _ _ => validateDocumentData collection data
  | .insert collection _ data _ _ => validateDocumentData collection data
  | .update collection _ data _ _ _ => validateDocumentData collection data
  | .delete .. => .ok ()

/-- What is asked of a request before anything is read: a batch takes 1 to `MAX_BATCH` changes. -/
def KeyedRequest.validate (request : KeyedRequest) : Except DocError Unit := do
  if request.operations.length = 0 ∨ MAX_BATCH < request.operations.length then .error .defect
  request.operations.forM DocumentOperation.validate

/-- A request that its identifiers are allocated for; its receipt is looked for before they are. -/
def KeyedRequest.numbers : KeyedRequest → Bool
  | .insert .. => true
  | .write _ => true
  | _ => false

def DocumentOperation.takesSeq : DocumentOperation → Bool
  | .insert .. => true
  | .upsert .. => true
  | _ => false

/-- The id of the document a change is about; an insert without one is given one. -/
def DocumentOperation.idOr (generated : Utf16) : DocumentOperation → Utf16
  | .upsert _ id .. => id
  | .insert _ id .. => id.getD generated
  | .update _ id .. => id
  | .delete _ id .. => id

/-- What a transaction takes from the clock. -/
structure Clock where
  now : Utf16
  ttl : JsNumber → Option Utf16

def expiryOf (clock : Clock) (ttlMs : Option JsNumber) (expiresAt : Expiry) : Expiry :=
  ttlMs.elim expiresAt fun ttl => .ttl (clock.ttl ttl)

def DocumentOperation.change (clock : Clock) (id : Utf16) (seq : Seq) :
    DocumentOperation → DocumentWrite
  | .upsert collection _ data expectedVersion expiresAt ttlMs =>
    .upsert collection id data expectedVersion
      (expiryOf clock ttlMs (expiresAt.elim .keep fun moment => moment.elim .clear .at')) seq
  | .insert collection _ data expiresAt ttlMs =>
    .insert collection id data (expiryOf clock ttlMs (expiresAt.elim .keep .at')) seq
  | .update collection _ data mode expectedVersion precondition =>
    .update collection id data (mode.getD .merge) expectedVersion
      ((precondition.getD []).map FilterInput.filter)
  | .delete collection _ expectedVersion precondition =>
    .delete collection id expectedVersion ((precondition.getD []).map FilterInput.filter)

/-- The changes of a request, with their ids and the identifiers allocated for them. -/
def KeyedRequest.changes (clock : Clock) (ids : List Utf16) (seqs : List (Option Seq))
    (request : KeyedRequest) : List DocumentWrite :=
  (request.operations.zip (ids.zip seqs)).map fun op =>
    op.1.change clock op.2.1 (op.2.2.getD 0)

/-! ## Requests as JSON -/

def FilterOperator.name : FilterOperator → Utf16
  | .eq => utf16 "eq"
  | .ne => utf16 "ne"
  | .gt => utf16 "gt"
  | .gte => utf16 "gte"
  | .lt => utf16 "lt"
  | .lte => utf16 "lte"
  | .among => utf16 "in"

def UpdateMode.name : UpdateMode → Utf16
  | .merge => utf16 "merge"
  | .replace => utf16 "replace"

def FilterInput.json (input : FilterInput) : Json := .object (objectOf
  [(utf16 "path", some (.string input.path)),
    (utf16 "op", input.op.map fun op => .string op.name),
    (utf16 "value", some input.value)])

def preconditionJson (precondition : List FilterInput) : Json :=
  .array (precondition.map FilterInput.json)

def countJson (n : ℕ) : Json := .scalar (.number (.ofNat n))

def DocumentOperation.json : DocumentOperation → Json
  | .upsert collection id data expectedVersion expiresAt ttlMs => .object (objectOf
    [(utf16 "_tag", some (.string (utf16 "Upsert"))),
      (utf16 "collection", some (.string collection)),
      (utf16 "id", some (.string id)),
      (utf16 "data", some (.object data)),
      (utf16 "expectedVersion", expectedVersion.map countJson),
      (utf16 "expiresAt", expiresAt.map fun moment => moment.elim .null Json.string),
      (utf16 "ttlMs", ttlMs.map fun ttl => .scalar (.number ttl))])
  | .insert collection id data expiresAt ttlMs => .object (objectOf
    [(utf16 "_tag", some (.string (utf16 "Insert"))),
      (utf16 "collection", some (.string collection)),
      (utf16 "id", id.map Json.string),
      (utf16 "data", some (.object data)),
      (utf16 "expiresAt", expiresAt.map Json.string),
      (utf16 "ttlMs", ttlMs.map fun ttl => .scalar (.number ttl))])
  | .update collection id data mode expectedVersion precondition => .object (objectOf
    [(utf16 "_tag", some (.string (utf16 "Update"))),
      (utf16 "collection", some (.string collection)),
      (utf16 "id", some (.string id)),
      (utf16 "data", some (.object data)),
      (utf16 "mode", mode.map fun mode => .string mode.name),
      (utf16 "expectedVersion", expectedVersion.map countJson),
      (utf16 "precondition", precondition.map preconditionJson)])
  | .delete collection id expectedVersion precondition => .object (objectOf
    [(utf16 "_tag", some (.string (utf16 "Delete"))),
      (utf16 "collection", some (.string collection)),
      (utf16 "id", some (.string id)),
      (utf16 "expectedVersion", expectedVersion.map countJson),
      (utf16 "precondition", precondition.map preconditionJson)])

def KeyedRequest.json : KeyedRequest → Json
  | .insert collection id data => .object (objectOf
    [(utf16 "op", some (.string (utf16 "insert"))),
      (utf16 "collection", some (.string collection)),
      (utf16 "id", id.map Json.string),
      (utf16 "data", some (.object data))])
  | .update collection id data mode expectedVersion precondition => .object (objectOf
    [(utf16 "op", some (.string (utf16 "update"))),
      (utf16 "collection", some (.string collection)),
      (utf16 "id", some (.string id)),
      (utf16 "data", some (.object data)),
      (utf16 "mode", mode.map fun mode => .string mode.name),
      (utf16 "expectedVersion", expectedVersion.map countJson),
      (utf16 "precondition", precondition.map preconditionJson)])
  | .delete collection id expectedVersion precondition => .object (objectOf
    [(utf16 "op", some (.string (utf16 "delete"))),
      (utf16 "collection", some (.string collection)),
      (utf16 "id", some (.string id)),
      (utf16 "expectedVersion", expectedVersion.map countJson),
      (utf16 "precondition", precondition.map preconditionJson)])
  | .write operations => .object (objectOf
    [(utf16 "op", some (.string (utf16 "write"))),
      (utf16 "operations", some (.array (operations.map DocumentOperation.json)))])

def KeyedRequest.words : KeyedRequest → Utf16
  | .insert collection _ _ => utf16 "insert into \"" ++ collection ++ utf16 "\""
  | .update collection id .. =>
    utf16 "update \"" ++ collection ++ utf16 "/" ++ id ++ utf16 "\""
  | .delete collection id .. =>
    utf16 "delete \"" ++ collection ++ utf16 "/" ++ id ++ utf16 "\""
  | .write operations =>
    utf16 "write " ++ utf16 (toString operations.length) ++ utf16 " documents"

/-- A request's fingerprint, under a digest. Source: `fingerprintOf`. -/
def KeyedRequest.fingerprint (digits : JsNumber → Utf16) (digest : Utf16 → Utf16)
    (request : KeyedRequest) : Utf16 := digest (canonical digits request.json)

/-! ## What a change answers -/

inductive DocumentWritten where
  | inserted (document : Document)
  | updated (document : Document)
  | deleted (collection id : Utf16) (found : Bool)

def documentNamed (t : TenantId) (o : Objects Record) (p : PendingDocs) (collection id : Utf16) :
    Option Document := (currentNamed t o p collection id).bind Prod.snd

def updatedAnswer (t : TenantId) (o : Objects Record) (before after : PendingDocs)
    (collection id : Utf16) : Option DocumentWritten :=
  (currentNamed t o before collection id).bind fun named =>
    (currentAt o after named.1).map .updated

/-- What a change answers, from the overlay before it and the one it leaves. -/
def DocumentWrite.written (t : TenantId) (o : Objects Record) (before after : PendingDocs) :
    DocumentWrite → Option DocumentWritten
  | .insert _ _ _ _ seq => (currentAt o after seq).map .inserted
  | .update collection id .. => updatedAnswer t o before after collection id
  | .upsert collection id _ _ _ seq =>
    if (documentNamed t o before collection id).isSome then updatedAnswer t o before after collection id
    else (currentAt o after seq).map .inserted
  | .delete collection id .. =>
    some (.deleted collection id (documentNamed t o before collection id).isSome)

/-- The changes of a batch, and what each answers. Source: `write`, its loop. -/
def applyWritten (host : Host) (t : TenantId) (o : Objects Record) (now : Utf16) :
    Staged → List DocumentWrite → Except DocError (Staged × List DocumentWritten)
  | s, [] => .ok (s, [])
  | s, op :: ops => do
    let after ← applyWrite host t o now s op
    let rest ← applyWritten host t o now after ops
    return (rest.1, (op.written t o s.pending after.pending).toList ++ rest.2)

def DocumentWritten.json : DocumentWritten → Json
  | .inserted document => .object (objectOf
    [(utf16 "_tag", some (.string (utf16 "Inserted"))), (utf16 "document", some document.json)])
  | .updated document => .object (objectOf
    [(utf16 "_tag", some (.string (utf16 "Updated"))), (utf16 "document", some document.json)])
  | .deleted collection id found => .object (objectOf
    [(utf16 "_tag", some (.string (utf16 "Deleted"))),
      (utf16 "collection", some (.string collection)),
      (utf16 "id", some (.string id)),
      (utf16 "deleted", some (.scalar (.boolean found)))])

def DocumentWritten.single : DocumentWritten → Json
  | .inserted document => document.json
  | .updated document => document.json
  | .deleted _ _ found => .scalar (.boolean found)

/-- What a request answers: a batch with what each change did, the others with their own. -/
def KeyedRequest.result (request : KeyedRequest) (written : List DocumentWritten) : Json :=
  match request with
  | .write _ => .array (written.map DocumentWritten.json)
  | _ => written.head?.elim .null DocumentWritten.single

def KeyedRequest.remembers (request : KeyedRequest) (written : List DocumentWritten) : Bool :=
  match request, written with
  | .delete .., [.deleted _ _ found] => found
  | _, _ => true

/-! ## Receipts -/

/-- What a keyed write did. Source: `Receipt`. -/
structure Receipt where
  key : Utf16
  fingerprint : Utf16
  request : Utf16
  result : Json
  moment : Utf16

def Receipt.json (receipt : Receipt) : Json := .object (objectOf
  [(utf16 "key", some (.string receipt.key)),
    (utf16 "fingerprint", some (.string receipt.fingerprint)),
    (utf16 "request", some (.string receipt.request)),
    (utf16 "result", some receipt.result),
    (utf16 "at", some (.string receipt.moment))])

/-- The checks of a receipt. Source: `receiptRecord`. -/
def receiptRecord (isDate : Utf16 → Bool) : List (Utf16 × Validator) :=
  [(utf16 "key", isString),
    (utf16 "fingerprint", isString),
    (utf16 "request", isString),
    (utf16 "result", isUnknown),
    (utf16 "at", isTimestamp isDate)]

/-- Why an attempt fails. -/
inductive AttemptError where
  | refused (fault : DocError)
  /-- `IdempotencyKeyReused`: the key, what it was first used for, and what it is offered for. -/
  | idempotencyKeyReused (key first now : Utf16)

section

variable (P : Platform) (digest : Utf16 → Utf16)

/-- What a key was used for last time, if it has been used: what the change answered then, as it is
read back. Source: `receiptFor`. -/
def receiptFor (receipts : Utf16 → Option Receipt) (key : Utf16) (request : KeyedRequest) :
    Except AttemptError (Option Json) :=
  match receipts key with
  | none => .ok none
  | some receipt =>
    if readsBack P.digits (objectFields (receiptRecord P.isDate)) receipt.json = false then
      .error (.refused .defect)
    else if receipt.fingerprint ≠ request.fingerprint P.digits digest then
      .error (.idempotencyKeyReused key receipt.request request.words)
    else .ok (some (reread receipt.result))

end

/-! ## Attempts -/

/-- Where an attempt is. -/
inductive AttemptPhase where
  | asked
  | numbering (ids : List Utf16) (seqs : List (Option Seq))
  | looking (ids : List Utf16) (seqs : List (Option Seq))
  | reserving (ids : List Utf16) (seqs : List (Option Seq))
  | committing (ids : List Utf16) (seqs : List (Option Seq))
  | done (result : Except AttemptError Json)

/-- An attempt: its key, what is asked, and where it is. -/
structure Attempt where
  key : Utf16
  request : KeyedRequest
  phase : AttemptPhase

/-- A change that was applied: under which key, what was asked, and what it answered. -/
structure Applied where
  key : Utf16
  request : KeyedRequest
  result : Json

/-- A tenant's documents and receipts, the attempts made, and the changes they applied. -/
structure Ledger where
  store : Objects Record
  receipts : Utf16 → Option Receipt := fun _ => none
  attempts : List Attempt := []
  applied : List Applied := []

/-- What a step of an attempt makes of the documents, the receipts and its own phase, and the
change it applies, if it does. -/
structure Made where
  store : Objects Record
  receipts : Utf16 → Option Receipt
  phase : AttemptPhase
  applied : List Applied := []

/-- What an attempt's step is given: ids for the inserts without one, and the clock. -/
structure Given where
  generated : ℕ → Utf16
  clock : Clock

section

variable (host : Host) (t : TenantId) (P : Platform) (digest : Utf16 → Utf16)

/-- The change of a request and its answer, checked against the documents as they stand. -/
def applyKeyed (o : Objects Record) (clock : Clock) (ids : List Utf16) (seqs : List (Option Seq))
    (request : KeyedRequest) : Except DocError (Staged × List DocumentWritten) := do
  assertNotMoving t o
  applyWritten host t o clock.now {} (request.changes clock ids seqs)

/-- The transaction: the receipt is looked for again, and the change and its receipt land
together. Source: `commitOnce`, its transaction. -/
def commitKeyed (w : Ledger) (clock : Clock) (ids : List Utf16) (seqs : List (Option Seq))
    (key : Utf16) (request : KeyedRequest) : Made :=
  match receiptFor P digest w.receipts key request with
  | .error fault => ⟨w.store, w.receipts, .done (.error fault), []⟩
  | .ok (some result) => ⟨w.store, w.receipts, .done (.ok result), []⟩
  | .ok none =>
    match applyKeyed host t w.store clock ids seqs request with
    | .error fault => ⟨w.store, w.receipts, .done (.error (.refused fault)), []⟩
    | .ok (s, written) =>
      let result := request.result written
      if request.remembers written then
        { store := w.store.commit s.writes
          receipts := changed w.receipts key (some
            ⟨key, request.fingerprint P.digits digest, request.words, result, clock.now⟩)
          phase := .done (.ok result)
          applied := [⟨key, request, result⟩] }
      else ⟨w.store.commit s.writes, w.receipts, .done (.ok result), []⟩

/-- The next step of an attempt. Source: `insert`, `update`, `delete`, `write`,
`commitOnce`. -/
def Attempt.advance (w : Ledger) (given : Given) (a : Attempt) : Made :=
  match a.phase with
  | .asked =>
    match a.request.validate with
    | .error fault => ⟨w.store, w.receipts, .done (.error (.refused fault)), []⟩
    | .ok _ =>
      let ids := a.request.operations.mapIdx fun place op => op.idOr (given.generated place)
      if a.request.numbers then
        match receiptFor P digest w.receipts a.key a.request with
        | .error fault => ⟨w.store, w.receipts, .done (.error fault), []⟩
        | .ok (some result) => ⟨w.store, w.receipts, .done (.ok result), []⟩
        | .ok none => ⟨w.store, w.receipts, .numbering ids [], []⟩
      else ⟨w.store, w.receipts, .looking ids [none], []⟩
  | .numbering ids seqs =>
    match a.request.operations.drop seqs.length with
    | [] => ⟨w.store, w.receipts, .looking ids seqs, []⟩
    | op :: _ =>
      if op.takesSeq then
        ⟨w.store.nextSeq.2, w.receipts, .numbering ids (seqs ++ [some w.store.nextSeq.1]), []⟩
      else ⟨w.store, w.receipts, .numbering ids (seqs ++ [none]), []⟩
  | .looking ids seqs =>
    match receiptFor P digest w.receipts a.key a.request with
    | .error fault => ⟨w.store, w.receipts, .done (.error fault), []⟩
    | .ok (some result) => ⟨w.store, w.receipts, .done (.ok result), []⟩
    | .ok none => ⟨w.store, w.receipts, .reserving ids seqs, []⟩
  | .reserving ids seqs => ⟨w.store.nextSeq.2, w.receipts, .committing ids seqs, []⟩
  | .committing ids seqs => commitKeyed host t P digest w given.clock ids seqs a.key a.request
  | .done result => ⟨w.store, w.receipts, .done result, []⟩

def Ledger.advanced (w : Ledger) (before after : List Attempt) (a : Attempt) (made : Made) :
    Ledger where
  store := made.store
  receipts := made.receipts
  attempts := before ++ ⟨a.key, a.request, made.phase⟩ :: after
  applied := w.applied ++ made.applied

/-- One step of an attempt, or a change of the store by anything else. -/
inductive Ledger.Step : Ledger → Ledger → Prop where
  | ask {w : Ledger} (key : Utf16) (request : KeyedRequest) :
      Step w { w with attempts := w.attempts ++ [⟨key, request, .asked⟩] }
  | advance {w : Ledger} {before after : List Attempt} {a : Attempt} (given : Given)
      (hattempts : w.attempts = before ++ a :: after) :
      Step w (w.advanced before after a (a.advance host t P digest w given))
  | other {w : Ledger} (store : Objects Record) : Step w { w with store }

/-- The states that runs lead to from a store whose keys were not used. -/
inductive Ledger.Runs : Ledger → Prop where
  | start (store : Objects Record) : Runs { store }
  | step {w w' : Ledger} (h : Runs w) (hstep : Ledger.Step host t P digest w w') : Runs w'

end

end Zelavis.Db
