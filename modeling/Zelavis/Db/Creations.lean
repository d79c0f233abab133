import Zelavis.Db.RecordSteps

/-!
# Creating and dropping collections side by side

`createCollection` and `dropCollection` of `documents.ts` beside any number of other such calls of
one tenant, one read or one transaction at a time.
-/

namespace Zelavis.Db

open Lib

/-! ## Listings -/

/-- A record as it is shown: without the columns of its indexes. Source: `publicCollection`. -/
def publicCollection (c : StoredCollection) : StoredCollection :=
  { c with indexes := c.indexes.map fun index => { index with column := [] } }

def asCollection : Record → Option StoredCollection
  | .collection c => some c
  | _ => none

section

variable (tenant : TenantId) (o : Objects Record)

def collectionSeqs : List Seq :=
  o.resolve (.equals (collectionColumn tenant) (.string COLLECTION_MARKER))

/-- A tenant's collections by name, as `localeCompare` orders names; throws at a record that is no
collection's. Source: `listCollections`. -/
def listCollections (localeCompare : Utf16 → Utf16 → ℤ) : Option (List StoredCollection) :=
  (((collectionSeqs tenant o).filterMap o.read).mapM asCollection).map fun out =>
    (out.map publicCollection).insertionSort fun a b => localeCompare a.name b.name ≤ 0

def Marked : Prop :=
  ∃ seq ∈ o.resolve (.equals TENANT_COLUMN (.string TENANT_MARKER)), o.read seq = some (.tenant tenant)

def markerPut (seq : Seq) : Objects.Write Record :=
  .put seq (.tenant tenant) { columns := [(TENANT_COLUMN, .string TENANT_MARKER)] }
    (some ⟨TENANT_NAMESPACE, tenant⟩)

end

/-! ## Calls -/

/-- What is asked of a tenant. -/
inductive CollectionRequest where
  /-- `createCollection`. -/
  | create (now : Utf16) (salt : Utf16 → Utf16) (input : CollectionInput)
  /-- `dropCollection`. -/
  | drop (now name : Utf16)

def CollectionRequest.name : CollectionRequest → Utf16
  | .create _ _ input => input.name
  | .drop _ name => name

/-- Where a call is. -/
inductive CallPhase where
  | asked
  | fenced (seq : Seq)
  | seeking
  | loading (seq : Seq)
  | numbering (c : StoredCollection)
  | recording (c : StoredCollection) (seq : Seq)
  | recorded
  | unmarked
  | marking (seq : Seq)
  | paging (c : StoredCollection)
  | collecting (c : StoredCollection) (seqs : List Seq) (page : List Document)
  | emptying (c : StoredCollection) (page : List Document)
  | unlinking (c : StoredCollection)
  | dropped
  | leaving
  | unmarking (seq : Seq)
  | done (fault : Option DocError)

/-- A call: what is asked, and where it is. -/
structure CollectionCall where
  request : CollectionRequest
  phase : CallPhase

/-- What happens to a collection. -/
inductive CollectionEvent where
  | created (c : StoredCollection)
  | dropped (name : Utf16)

section

variable (host : Host) (t : TenantId) (o : Objects Record)

/-- A tenant that is not moving: a name to create under is looked at, then it is looked up. -/
def admitted : CollectionRequest → CallPhase
  | .create _ _ input =>
    match validateName input.name with
    | .error fault => .done (some fault)
    | .ok _ => .seeking
  | .drop _ _ => .seeking

def found : CollectionRequest → Option StoredCollection → CallPhase
  | .create _ _ input, some _ => .done (some (.collectionExists input.name))
  | .create now salt input, none =>
    match collectionFor t now salt input with
    | .error fault => .done (some fault)
    | .ok c => .numbering c
  | .drop _ name, none => .done (some (.collectionNotFound name))
  | .drop _ name, some c =>
    match c.referencedBy.find? fun back => back.collection ≠ name with
    | some back => .done (some (.referenceViolation name [] back.reference .stillNamed))
    | none => .paging c

def deletePage (now name : Utf16) (page : List Document) : Except DocError Staged :=
  page.foldlM (fun s (doc : Document) => applyDelete host t o now name doc.id none [] s) {}

def pageEnds (seqs : List Seq) (page : List Document) : Bool := seqs.isEmpty || 500 ≤ page.length

def CollectionRequest.now : CollectionRequest → Utf16
  | .create now _ _ => now
  | .drop now _ => now

/-- The next step of a call: the store it leaves, where the call is then, and what happened. Source:
`createCollection`, `dropCollection`. -/
def CollectionCall.advance (call : CollectionCall) :
    Objects Record × CallPhase × List CollectionEvent :=
  let name := call.request.name
  match call.phase with
  | .asked =>
    match o.lookup MOVE_FENCE_NAMESPACE t with
    | none => (o, admitted call.request, [])
    | some seq => (o, .fenced seq, [])
  | .fenced seq =>
    match o.read seq with
    | none => (o, admitted call.request, [])
    | some (.fence _ _) => (o, .done (some (.tenantMoving t)), [])
    | some _ => (o, .done (some .defect), [])
  | .seeking =>
    match o.lookup (collectionNs t) name with
    | none => (o, found t call.request none, [])
    | some seq => (o, .loading seq, [])
  | .loading seq =>
    match o.read seq with
    | none => (o, found t call.request none, [])
    | some (.collection c) => (o, found t call.request (some c), [])
    | some _ => (o, .done (some .defect), [])
  | .numbering c => (o.nextSeq.2, .recording c o.nextSeq.1, [])
  | .recording c seq =>
    match createWrites t o seq c with
    | .error fault => (o, .done (some fault), [])
    | .ok writes => (o.commit writes, .recorded, [.created c])
  | .recorded =>
    match o.lookup TENANT_NAMESPACE t with
    | some _ => (o, .done none, [])
    | none => (o, .unmarked, [])
  | .unmarked => (o.nextSeq.2, .marking o.nextSeq.1, [])
  | .marking seq => (o.commit [markerPut t seq], .done none, [])
  | .paging c => (o, .collecting c (documentSeqs t o name) [], [])
  | .collecting c seqs page =>
    if pageEnds seqs page then
      if page.isEmpty then (o, .unlinking c, []) else (o, .emptying c page, [])
    else (o, .collecting c seqs.tail (page ++ (seqs.head?.bind (readDocument o)).toList), [])
  | .emptying c page =>
    match deletePage host t o call.request.now name page with
    | .error fault => (o, .done (some fault), [])
    | .ok s => (o.commit s.writes, .paging c, [])
  | .unlinking c =>
    (o.commit (dropWrites t o { c with name }), .dropped,
      if (o.lookup (collectionNs t) name).isSome then [.dropped name] else [])
  | .dropped =>
    (o, if collectionSeqs t o = [] then .leaving else .done none, [])
  | .leaving =>
    match o.lookup TENANT_NAMESPACE t with
    | none => (o, .done none, [])
    | some seq => (o, .unmarking seq, [])
  | .unmarking seq => (o.commit [.retract seq], .done none, [])
  | .done fault => (o, .done fault, [])

end

/-! ## Runs -/

/-- A tenant's store, what is under way on it and what happened to its collections. -/
structure Tenancy where
  store : Objects Record := .empty
  reserved : List Seq := []
  calls : List CollectionCall := []
  history : List CollectionEvent := []

def Tenancy.advanced (w : Tenancy) (before after : List CollectionCall) (request : CollectionRequest)
    (made : Objects Record × CallPhase × List CollectionEvent) : Tenancy :=
  { w with
    store := made.1
    calls := before ++ ⟨request, made.2.1⟩ :: after
    history := w.history ++ made.2.2 }

/-- One read or one transaction, where every step of a call meets a condition on the state before
it. -/
inductive Tenancy.Step (host : Host) (t : TenantId) (C : Tenancy → CollectionCall → Prop) :
    Tenancy → Tenancy → Prop where
  | reserve {w : Tenancy} : Step host t C w { w with
      store := w.store.nextSeq.2, reserved := w.store.nextSeq.1 :: w.reserved }
  | write {w : Tenancy} {now : Utf16} {ops : List DocumentWrite} {store : Objects Record}
      (hreserved : ∀ q ∈ seqsOf ops, q ∈ w.reserved) (hnodup : (seqsOf ops).Nodup)
      (h : writeDocuments host t w.store now ops = .ok store) : Step host t C w { w with
      store, reserved := w.reserved.filter fun q => q ∉ seqsOf ops }
  | call {w : Tenancy} (request : CollectionRequest) :
      Step host t C w { w with calls := w.calls ++ [⟨request, .asked⟩] }
  | advance {w : Tenancy} {before after : List CollectionCall} {call : CollectionCall}
      (hcalls : w.calls = before ++ call :: after) (hC : C w call) :
      Step host t C w (w.advanced before after call.request (call.advance host t w.store))

/-- The states that runs lead to. -/
inductive Tenancy.Runs (host : Host) (t : TenantId) (C : Tenancy → CollectionCall → Prop) :
    Tenancy → Prop where
  | start : Runs host t C {}
  | step {w w' : Tenancy} (h : Runs host t C w) (hstep : w.Step host t C w') : Runs host t C w'

/-! ## What is claimed -/

def CollectionEvent.standing (name : Utf16) (before : Option StoredCollection) :
    CollectionEvent → Option StoredCollection
  | .created c => if c.name = name then some c else before
  | .dropped gone => if gone = name then none else before

/-- The definition that stands under a name: the one it was last created with, if it was not dropped
since. -/
def standing (history : List CollectionEvent) (name : Utf16) : Option StoredCollection :=
  history.foldl (fun before event => event.standing name before) none

def bare (c : StoredCollection) : StoredCollection := { c with referencedBy := [] }

def CollectionCall.Returned (call : CollectionCall) : Prop := ∃ fault, call.phase = .done fault

/-- What is claimed of a tenant's state. -/
structure Tenancy.Whole (t : TenantId) (localeCompare : Utf16 → Utf16 → ℤ) (w : Tenancy) : Prop where
  once : ∀ before between after c c', w.history = before ++ .created c :: between ++ .created c' :: after →
    c.name = c'.name → CollectionEvent.dropped c.name ∈ between
  listed : ∃ out, listCollections t w.store localeCompare = some out ∧ (out.map StoredCollection.name).Nodup ∧
    (∀ c ∈ out, ∃ d, standing w.history c.name = some d ∧ bare c = bare (publicCollection d)) ∧
    ∀ name d, standing w.history name = some d → ∃ c ∈ out, c.name = name
  marked : (∀ call ∈ w.calls, call.Returned) →
    (Marked t w.store ↔ listCollections t w.store localeCompare ≠ some [])

end Zelavis.Db
