import Zelavis.Lib.Paging
import Zelavis.Db.Kv
import Zelavis.Db.Receipts

/-!
# Documents as keys and values

`key-value.ts`: one collection read and written as a map from keys to values that expire.
-/

namespace Zelavis.Db

open Lib

/-! ## Dates -/

/-- The dates of the platform, as milliseconds. -/
structure Dates where
  /-- Source: `Date.parse`; none where it is no date. -/
  parse : Utf16 → Option ℤ
  /-- Source: `Date.prototype.toISOString`; none where it throws. -/
  iso : ℤ → Option Utf16

def Dates.clock (D : Dates) (now : ℤ) : Clock where
  now := (D.iso now).getD []
  ttl := fun ttl => ttl.integer?.bind fun z => D.iso (now + z)

def isExpired (D : Dates) (now : ℤ) (expiresAt : Option Utf16) : Bool :=
  expiresAt.any fun moment => !(D.parse moment).any fun millis => now < millis

/-! ## Names in key order -/

/-- What is asked of the names of a namespace. Source: `store.ts`
`ObjectStoreApi.scanIdentities`. -/
structure IdentityScan where
  ns : Utf16
  pre : Option Utf16 := none
  lower : Option Utf16 := none
  upper : Option Utf16 := none
  after : Option Utf16 := none
  desc : Bool := false
  limit : ℕ

def identityIndex (o : Objects Record) : OrderedMap Key Seq :=
  .ofList (o.held.entries.filterMap fun e =>
    e.2.identity.map fun i => (identityKey i.ns i.key, e.1))

/-- The range a scan of names reads: a descending one stops before the key it goes on from, an
ascending one begins at it. -/
def IdentityScan.range (input : IdentityScan) : Key × Option Key :=
  let lower := input.lower.map (identityKey input.ns)
  let upper := input.upper.map (identityKey input.ns)
  let after := input.after.map (identityKey input.ns)
  scanRange (input.pre.elim (identityPrefix input.ns) (identityNamePrefix input.ns))
    (if input.desc then lower
      else after.elim lower fun a =>
        some (lower.elim a fun l => if 0 < compareKeys a l then a else l))
    (if input.desc then
        after.elim upper fun a => some (upper.elim a fun u => if compareKeys a u < 0 then a else u)
      else upper)

/-- The names of a namespace, in key order. Source: `kv-store.ts` `scanIdentities`. -/
def scanIdentities (o : Objects Record) (input : IdentityScan) : List (Utf16 × Seq) :=
  let entries := (identityIndex o).between input.range.1 input.range.2
  let read := (if input.desc then entries.reverse else entries).take
    (min 1001 (input.limit + if input.after.isSome then 1 else 0))
  ((read.map fun e => (decodeIdentity e.1, e.2)).filter fun e =>
    e.1.ns = input.ns && input.after ≠ some e.1.key).take input.limit |>.map fun e => (e.1.key, e.2)

/-! ## Changes without a key -/

/-- The identifiers a request's changes come with. Source: `documents.ts` `write`. -/
def allocate : List DocumentOperation → Objects Record → Objects Record × List (Option Seq)
  | [], o => (o, [])
  | op :: ops, o =>
    if op.takesSeq then
      let rest := allocate ops o.nextSeq.2
      (rest.1, some o.nextSeq.1 :: rest.2)
    else
      let rest := allocate ops o
      (rest.1, none :: rest.2)

section

variable (host : Host) (t : TenantId)

/-- A change of documents under no key: the store it leaves, and what it answers. Source:
`documents.ts` `write`, `delete`. -/
def writeRequest (o : Objects Record) (clock : Clock) (request : KeyedRequest) :
    Objects Record × Except DocError (List DocumentWritten) :=
  match request.validate with
  | .error fault => (o, .error fault)
  | .ok _ =>
    let allocated := allocate request.operations o
    match applyKeyed host t allocated.1 clock (request.operations.map (DocumentOperation.idOr []))
      allocated.2 request with
    | .error fault => (allocated.1, .error fault)
    | .ok (s, written) => (allocated.1.commit s.writes, .ok written)

/-- Source: `documents.ts` `findById`. -/
def findById (o : Objects Record) (collection id : Utf16) : Option Document :=
  (o.lookup (documentNs t collection) id).bind (readDocument o)

end

/-! ## Entries -/

/-- Source: `key-value.ts` `KeyValueEntry`. -/
structure KeyValueEntry where
  key : Utf16
  value : JsonObject
  version : ℕ
  createdAt : Utf16
  updatedAt : Utf16
  expiresAt : Option Utf16

/-- Source: `key-value.ts` `entryOf`. -/
def entryOf (doc : Document) : KeyValueEntry where
  key := doc.id
  value := doc.data
  version := doc.version
  createdAt := doc.createdAt
  updatedAt := doc.updatedAt
  expiresAt := doc.expiresAt

/-- Why a call fails. Source: `key-value.ts` `KeyValueError`. -/
inductive KeyValueError where
  | refused (fault : DocError)
  /-- `InvalidKeyValueExpiration`. -/
  | invalidExpiration (reason : Utf16)
  /-- `KeyValueCursorMismatch`. -/
  | cursorMismatch (reason : Utf16)
  /-- `RangeError`. -/
  | range

/-- When an entry is to expire. -/
structure Expires where
  expiresAt : Option Utf16 := none
  ttlMs : Option JsNumber := none

/-- Source: `key-value.ts` `expirationOptions`. -/
def expirationOptions (D : Dates) (options : Expires) : Except KeyValueError Expires :=
  match options.expiresAt, options.ttlMs with
  | some _, some _ =>
    .error (.invalidExpiration (utf16 "expiresAt and ttlMs are mutually exclusive"))
  | none, some ttl =>
    if ttl.isSafeInteger = false ∨ ttl.isIntegerFrom 0 = false then
      .error (.invalidExpiration (utf16 "ttlMs must be a non-negative safe integer"))
    else .ok { ttlMs := some ttl }
  | some moment, none =>
    match D.parse moment with
    | none => .error (.invalidExpiration (utf16 "expiresAt must be a valid ISO-8601 timestamp"))
    | some millis =>
      match D.iso millis with
      | none => .error (.refused .defect)
      | some moment => .ok { expiresAt := some moment }
  | none, none => .ok {}

/-! ## What is asked -/

/-- One change. Source: `key-value.ts` `KeyValueWrite`, `KvSetOptions`. -/
inductive KeyValueWrite where
  /-- `"Set"`. -/
  | set (key : Utf16) (value : JsonObject) (expectedVersion : Option ℕ) (ifAbsent : Bool)
      (expires : Expires)
  /-- `"Remove"`. -/
  | remove (key : Utf16) (expectedVersion : Option ℕ)

def KeyValueWrite.key : KeyValueWrite → Utf16
  | .set key .. => key
  | .remove key _ => key

def KeyValueWrite.expires (D : Dates) : KeyValueWrite → Except KeyValueError Expires
  | .set _ _ _ _ expires => expirationOptions D expires
  | .remove .. => .ok {}

/-- A change as the change of a document: a value set over another takes its expiry away. Source:
`key-value.ts` `set`, `remove`, `write`. -/
def KeyValueWrite.operation (name : Utf16) (expires : Expires) : KeyValueWrite → DocumentOperation
  | .set key value expectedVersion ifAbsent _ =>
    if ifAbsent then .insert name (some key) value expires.expiresAt expires.ttlMs
    else .upsert name key value expectedVersion
      (if expires.expiresAt.isNone && expires.ttlMs.isNone then some none
        else expires.expiresAt.map some) expires.ttlMs
  | .remove key expectedVersion => .delete name key expectedVersion none

/-- What a change answers. -/
inductive KeyValueWritten where
  | entry (entry : KeyValueEntry)
  | deleted (key : Utf16) (found : Bool)

/-- Source: `key-value.ts` `write`, its results. -/
def writtenOf : DocumentWritten → KeyValueWritten
  | .inserted document => .entry (entryOf document)
  | .updated document => .entry (entryOf document)
  | .deleted _ id found => .deleted id found

/-- Where a scan goes on; opaque to a caller. Source: `key-value.ts` `CursorPayload`. -/
structure CursorPayload where
  ns : Utf16
  key : Utf16
  pre : Option Utf16
  lower : Option Utf16
  upper : Option Utf16
  desc : Bool

/-- Source: `key-value.ts` `KeyValueScanOptions`. -/
structure KeyValueScanOptions where
  pre : Option Utf16 := none
  lower : Option Utf16 := none
  upper : Option Utf16 := none
  desc : Bool := false
  limit : Option JsNumber := none
  after : Option CursorPayload := none

/-- The entries a page takes, 1 to 1000 of them. Source: `key-value.ts` `pageLimit`. -/
def pageLimit (value : Option JsNumber) : Except KeyValueError ℕ :=
  match value with
  | none => .ok 100
  | some value =>
    match value.integer? with
    | none => .error .range
    | some limit => if limit < 1 ∨ 1000 < limit then .error .range else .ok limit.toNat

/-- Whether a cursor is one of a scan. Source: `key-value.ts` `sameScan`. -/
def sameScan (cursor : CursorPayload) (ns : Utf16) (options : KeyValueScanOptions) : Bool :=
  cursor.ns = ns && cursor.pre = options.pre && cursor.lower = options.lower &&
    cursor.upper = options.upper && cursor.desc = options.desc

def KeyValueScanOptions.cursor (options : KeyValueScanOptions) (ns key : Utf16) : CursorPayload where
  ns := ns
  key := key
  pre := options.pre
  lower := options.lower
  upper := options.upper
  desc := options.desc

/-- What is asked of a namespace. Source: `key-value.ts` `KvNamespaceApi`. -/
inductive KeyValueCall where
  | get (key : Utf16)
  | has (key : Utf16)
  | set (key : Utf16) (value : JsonObject) (expectedVersion : Option ℕ) (ifAbsent : Bool)
      (expires : Expires)
  | remove (key : Utf16) (expectedVersion : Option ℕ)
  | write (operations : List KeyValueWrite)
  | scan (options : KeyValueScanOptions)
  | size

/-- What a call answers. -/
inductive KeyValueAnswer where
  | entry (found : Option KeyValueEntry)
  | flag (found : Bool)
  | written (entry : KeyValueEntry)
  | writes (results : List KeyValueWritten)
  | page (entries : List KeyValueEntry) (next : Option CursorPayload)
  | count (total : ℕ)

/-- The moments of a call: when it begins, when each of its pages comes to a key, and when it
ends. -/
structure Moments where
  now : ℤ
  visits : ℕ → Utf16 → ℤ
  last : ℤ

/-! ## What a call does -/

section

variable (host : Host) (t : TenantId) (D : Dates) (name : Utf16)

/-- Read an entry, and delete it where it is expired, so many times. Source: `key-value.ts`
`get`. -/
def getEntry (now : ℤ) (key : Utf16) : ℕ → Objects Record →
    Objects Record × Except KeyValueError (Option KeyValueEntry)
  | 0, o => (o, .error (.invalidExpiration
      (utf16 "expiry cleanup for " ++ key ++ utf16 " did not converge")))
  | retries + 1, o =>
    match findById t o name key with
    | none => (o, .ok none)
    | some document =>
      if isExpired D now document.expiresAt = false then (o, .ok (some (entryOf document)))
      else
        match writeRequest host t o (D.clock now) (.delete name key (some document.version) none) with
        | (store, .ok _) => (store, .ok none)
        | (store, .error (.documentConflict ..)) => getEntry now key retries store
        | (store, .error fault) => (store, .error (.refused fault))

/-- Read the entries under some names, until there are more than a page takes: those found, and
the last key read. Source: `key-value.ts` `scan`, its inner loop. -/
def visitEntries (visits : Utf16 → ℤ) (limit : ℕ) : List (Utf16 × Seq) →
    List KeyValueEntry → Option Utf16 → Objects Record →
    Objects Record × Except KeyValueError (List KeyValueEntry × Option Utf16)
  | [], found, after, o => (o, .ok (found, after))
  | identity :: rest, found, _, o =>
    match getEntry host t D name (visits identity.1) identity.1 8 o with
    | (store, .error fault) => (store, .error fault)
    | (store, .ok entry) =>
      if limit < (found ++ entry.toList).length then
        (store, .ok (found ++ entry.toList, some identity.1))
      else visitEntries visits limit rest (found ++ entry.toList) (some identity.1) store

def namesAtOnce (limit found : ℕ) : ℕ := min 1000 (max 32 (limit + 1 - found))

/-- Read names and the entries under them until there are more than a page takes, or no more names;
each turn reads a name, so `fuel` bounds the turns. Source: `key-value.ts` `scan`, its loop. -/
def scanEntries (visits : Utf16 → ℤ) (options : KeyValueScanOptions) (limit : ℕ) : ℕ →
    List KeyValueEntry → Option Utf16 → Objects Record →
    Objects Record × Except KeyValueError (List KeyValueEntry)
  | 0, _, _, o => (o, .error (.refused .defect))
  | fuel + 1, found, after, o =>
    let identities := scanIdentities o {
      ns := documentNs t name, pre := options.pre, lower := options.lower, upper := options.upper,
      after, desc := options.desc, limit := namesAtOnce limit found.length }
    if identities = [] then (o, .ok found)
    else
      match visitEntries host t D name visits limit identities found after o with
      | (store, .error fault) => (store, .error fault)
      | (store, .ok (found, after)) =>
        if limit < found.length ∨ identities.length < namesAtOnce limit found.length then
          (store, .ok found)
        else scanEntries visits options limit fuel found after store

/-- A page of entries. Source: `key-value.ts` `scan`. -/
def scanPage (visits : Utf16 → ℤ) (options : KeyValueScanOptions) (o : Objects Record) :
    Objects Record × Except KeyValueError (List KeyValueEntry × Option CursorPayload) :=
  match pageLimit options.limit with
  | .error fault => (o, .error fault)
  | .ok limit =>
    if (options.after.any fun cursor => !sameScan cursor name options) = true then
      (o, .error (.cursorMismatch (utf16 "the cursor belongs to a different namespace or range")))
    else
      match scanEntries host t D name visits options limit (o.held.entries.length + 1) []
        (options.after.map CursorPayload.key) o with
      | (store, .error fault) => (store, .error fault)
      | (store, .ok found) => (store, .ok (found.take limit,
          if limit < found.length then
            found[limit - 1]?.map fun e => options.cursor name e.key
          else none))

/-- The entries of a namespace, a thousand at a time; each page but the last has some, so `fuel`
bounds the pages. Source: `key-value.ts` `size`. -/
def countEntries (visits : ℕ → Utf16 → ℤ) : ℕ → ℕ → Option CursorPayload → ℕ → Objects Record →
    Objects Record × Except KeyValueError ℕ
  | 0, _, _, _, o => (o, .error (.refused .defect))
  | fuel + 1, place, after, total, o =>
    match scanPage host t D name (visits place) { limit := some (.ofNat 1000), after } o with
    | (store, .error fault) => (store, .error fault)
    | (store, .ok (entries, none)) => (store, .ok (total + entries.length))
    | (store, .ok (entries, some next)) =>
      countEntries visits fuel (place + 1) (some next) (total + entries.length) store

/-- Changes of documents, once every expiry is one. Source: `key-value.ts` `set`, `write`. -/
def writeEntries (now : ℤ) (operations : List KeyValueWrite) (o : Objects Record) :
    Objects Record × Except KeyValueError (List DocumentWritten) :=
  match operations.mapM fun w => (w.expires D).map fun expires => w.operation name expires with
  | .error fault => (o, .error fault)
  | .ok changes =>
    match writeRequest host t o (D.clock now) (.write changes) with
    | (store, .error fault) => (store, .error (.refused fault))
    | (store, .ok written) => (store, .ok written)

/-- What a call does to the store, and what it answers. Source: `key-value.ts` `keyValueFor`. -/
def KeyValueCall.run (m : Moments) (o : Objects Record) :
    KeyValueCall → Objects Record × Except KeyValueError KeyValueAnswer
  | .get key => (getEntry host t D name m.now key 8 o).map id (Except.map .entry)
  | .has key =>
    (getEntry host t D name m.now key 8 o).map id (Except.map fun found => .flag found.isSome)
  | .set key value expectedVersion ifAbsent expires =>
    match writeEntries host t D name m.now [.set key value expectedVersion ifAbsent expires] o with
    | (store, .error fault) => (store, .error fault)
    | (store, .ok written) =>
      match written.head? with
      | some (.inserted document) => (store, .ok (.written (entryOf document)))
      | some (.updated document) => (store, .ok (.written (entryOf document)))
      | _ => (store, .error (.refused .defect))
  | .remove key expectedVersion =>
    match writeRequest host t o (D.clock m.now) (.delete name key expectedVersion none) with
    | (store, .error fault) => (store, .error (.refused fault))
    | (store, .ok written) =>
      match written.head? with
      | some (.deleted _ _ found) => (store, .ok (.flag found))
      | _ => (store, .error (.refused .defect))
  | .write operations =>
    (writeEntries host t D name m.now operations o).map id
      (Except.map fun written => .writes (written.map writtenOf))
  | .scan options =>
    (scanPage host t D name (m.visits 0) options o).map id
      (Except.map fun page => .page page.1 page.2)
  | .size =>
    (countEntries host t D name m.visits (o.held.entries.length + 1) 0 none 0 o).map id
      (Except.map .count)

end

end Zelavis.Db
