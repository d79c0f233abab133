import Zelavis.Db.Batches

/-!
# Checks and embeddings declared while documents are written

A call that declares a check or an embedding records it in one transaction, reads the documents that
are there one after the other outside of any, and takes it off again in another where one of them
fails it. In between anything else goes on.
-/

namespace Zelavis.Db.Declarations

open Lib

/-- What is asked of a collection. -/
inductive Request where
  | addCheck (check : CheckConstraint)
  | dropCheck (name : Utf16)
  | embed (embedding : EmbeddingIndex)

def Request.normalize (collection : Utf16) : Request → Except DocError Request
  | .addCheck check => (normalizeCheck collection check).map .addCheck
  | .dropCheck name => .ok (.dropCheck name)
  | .embed embedding => (normalizeEmbedding collection embedding).map .embed

def Request.fault (collection : Utf16) (doc : Document) : Request → Option DocError
  | .addCheck check =>
    if check.filters.all (satisfiesCheck doc.data) then none
    else some (.checkViolation collection doc.id check.name)
  | .dropCheck _ => none
  | .embed embedding =>
    if isWrongVector embedding (readPath doc.data embedding.field) then
      some (.vectorShapeMismatch collection doc.id embedding.field)
    else none

def Request.RecordedIn (c : StoredCollection) : Request → Prop
  | .addCheck check => check ∈ c.checks
  | .dropCheck _ => True
  | .embed embedding => c.embedding = some embedding

/-- What a call answers. -/
inductive Answer where
  | check (check : CheckConstraint)
  | dropped (found : Bool)
  | embedding (embedding : EmbeddingIndex) (documents : ℕ)

/-- What a call that declares something answers, once it has read the documents. -/
def Request.answer (documents : ℕ) : Request → Answer
  | .addCheck check => .check check
  | .dropCheck _ => .dropped false
  | .embed embedding => .embedding embedding documents

/-- Where a call is; `before` is the embedding that was recorded when it recorded its own. -/
inductive Phase where
  | asked
  | looking
  | found (seq : Seq)
  | recorded (seq : Seq) (before : Option EmbeddingIndex)
  | reading (seq : Seq) (before : Option EmbeddingIndex) (todo : List Seq) (documents : ℕ)
  | failing (seq : Seq) (before : Option EmbeddingIndex) (fault : DocError)
  | done (result : Except DocError Answer)

/-- The identifier of the collection's record, once a call has looked it up. -/
def Phase.seq : Phase → Option Seq
  | .found seq => some seq
  | .recorded seq _ => some seq
  | .reading seq _ _ _ => some seq
  | .failing seq _ _ => some seq
  | _ => none

def Phase.isOpen : Phase → Bool
  | .recorded .. => true
  | .reading .. => true
  | .failing .. => true
  | _ => false

/-- A call, and where it is. -/
structure Call where
  request : Request
  phase : Phase

/-! ## Steps of a call -/

section

variable (t : TenantId) (n : Utf16) (o : Objects Record)

/-- The transaction of `addCheck`, `dropCheck` and `embed`: the store it leaves and where the call is
then. -/
def record (seq : Seq) (request : Request) : Objects Record × Phase :=
  match loadCollection t o n, request with
  | none, .dropCheck _ => (o, .done (.ok (.dropped false)))
  | none, _ => (o, .done (.error (.collectionNotFound n)))
  | some current, .addCheck check =>
    if current.checks.any fun other => other.name = check.name then
      (o, .done (.error (.constraintExists n check.name)))
    else (o.commit [collectionPut t seq { current with checks := current.checks ++ [check] }],
      .recorded seq current.embedding)
  | some current, .dropCheck name =>
    if current.checks.any fun check => check.name = name then
      (o.commit [collectionPut t seq { current with
        checks := current.checks.filter fun check => check.name ≠ name }],
        .done (.ok (.dropped true)))
    else (o, .done (.ok (.dropped false)))
  | some current, .embed embedding =>
    (o.commit [collectionPut t seq { current with embedding := some embedding }],
      .recorded seq current.embedding)

/-- The transaction that takes off what a document does not meet: a check by its name, and whatever
embedding there is. -/
def withdraw (seq : Seq) (request : Request) : Objects Record :=
  match loadCollection t o n, request with
  | some current, .addCheck check => o.commit [collectionPut t seq { current with
      checks := current.checks.filter fun other => other.name ≠ check.name }]
  | some current, .embed _ => o.commit [collectionPut t seq { current with embedding := none }]
  | _, _ => o

def readNext (seq : Seq) (before : Option EmbeddingIndex) (q : Seq) (todo : List Seq)
    (documents : ℕ) (request : Request) : Phase :=
  match readDocument o q with
  | none => .reading seq before todo documents
  | some doc =>
    match request.fault n doc with
    | none => .reading seq before todo (documents + 1)
    | some fault => .failing seq before fault

/-- The next step of a call. Source: `documents.ts` `addCheck`, `dropCheck`, `embed`. -/
def Call.advance (call : Call) : Objects Record × Phase :=
  match call.phase with
  | .asked =>
    match assertNotMoving t o, call.request.normalize n with
    | .error fault, _ => (o, .done (.error fault))
    | .ok _, .error fault => (o, .done (.error fault))
    | .ok _, .ok _ => (o, .looking)
  | .looking =>
    match o.lookup (collectionNs t) n with
    | none => (o, .done (.error (.collectionNotFound n)))
    | some seq => (o, .found seq)
  | .found seq => record t n o seq call.request
  | .recorded seq before => (o, .reading seq before (documentSeqs t o n) 0)
  | .reading seq before (q :: todo) documents =>
    (o, readNext n o seq before q todo documents call.request)
  | .reading _ _ [] documents => (o, .done (.ok (call.request.answer documents)))
  | .failing seq _ fault => (withdraw t n o seq call.request, .done (.error fault))
  | .done result => (o, .done result)

end

/-! ## What happens -/

/-- A store, the calls made of one collection, and what they declared that is in force: the checks that
were added since a call to drop one of the name was made, and the embedding that was declared since
the last call to embed was made. -/
structure World where
  store : Objects Record
  reserved : List Seq := []
  calls : List Call := []
  checks : List CheckConstraint := []
  embedding : Option EmbeddingIndex := none

/-- What happens. -/
inductive Event where
  | reserve
  /-- A batch of documents; `insert`, `update` and `delete` are batches of one. -/
  | write (now : Utf16) (operations : List DocumentWrite)
  | call (request : Request)
  | advance (place : ℕ)

section

variable (host : Host) (t : TenantId) (n : Utf16)

def checksAfter (checks : List CheckConstraint) (request : Request) (before after : Phase) :
    List CheckConstraint :=
  match request, before, after with
  | .addCheck check, .reading .., .done _ => checks ++ [check]
  | _, _, _ => checks

def embeddingAfter (embedding : Option EmbeddingIndex) (request : Request) (before after : Phase) :
    Option EmbeddingIndex :=
  match request, before, after with
  | .embed declared, .reading .., .done _ => some declared
  | _, _, _ => embedding

def World.called (w : World) (request : Request) : World :=
  { w with
    calls := w.calls ++ [⟨request, .asked⟩]
    checks := match request with
      | .dropCheck name => w.checks.filter fun check => check.name ≠ name
      | _ => w.checks
    embedding := match request with
      | .embed _ => none
      | _ => w.embedding }

def World.advanced (w : World) (place : ℕ) (call : Call) : World :=
  let made := call.advance t n w.store
  { w with
    store := made.1
    calls := w.calls.set place { call with phase := made.2 }
    checks := checksAfter w.checks call.request call.phase made.2
    embedding := embeddingAfter w.embedding call.request call.phase made.2 }

def World.next (w : World) : Event → World
  | .reserve => { w with
      store := w.store.nextSeq.2, reserved := w.store.nextSeq.1 :: w.reserved }
  | .write now operations =>
    if (∀ q ∈ seqsOf operations, q ∈ w.reserved) ∧ (seqsOf operations).Nodup then
      match writeDocuments host t w.store now operations with
      | .ok store => { w with
          store, reserved := w.reserved.filter fun q => q ∉ seqsOf operations }
      | .error _ => w
    else w
  | .call request => w.called request
  | .advance place =>
    match w.calls[place]? with
    | none => w
    | some call => w.advanced t n place call

def World.run (w : World) (events : List Event) : World := events.foldl (World.next host t n) w

/-- A declaration is recorded, and every document of the collection meets it. -/
def Holds (o : Objects Record) (request : Request) : Prop :=
  (∃ c, loadCollection t o n = some c ∧ request.RecordedIn c) ∧
    ∀ q d, docAt t o q = some d → d.collection = n → request.fault n d = none

/-- What is in force is recorded, and every document meets it. -/
structure World.InForce (w : World) : Prop where
  checks : ∀ check ∈ w.checks, Holds t n w.store (.addCheck check)
  embedding : ∀ e, w.embedding = some e → Holds t n w.store (.embed e)

/-- What a call that declares something leaves of what is recorded otherwise, in each of its steps, and
what one that failed leaves of the embedding there was. -/
structure World.Leaves (w : World) (call : Call) : Prop where
  checks : (∀ name, call.request ≠ .dropCheck name) → ∀ other, call.request ≠ .addCheck other →
    ((∃ c, loadCollection t (call.advance t n w.store).1 n = some c ∧ other ∈ c.checks) ↔
      ∃ c, loadCollection t w.store n = some c ∧ other ∈ c.checks)
  embedding : ∀ check, call.request = .addCheck check →
    (loadCollection t (call.advance t n w.store).1 n).map StoredCollection.embedding =
      (loadCollection t w.store n).map StoredCollection.embedding
  withdrawn : ∀ e seq before fault, call.request = .embed e → call.phase = .failing seq before fault →
    (loadCollection t (call.advance t n w.store).1 n).map StoredCollection.embedding = some before

/-- What is asked of an event: a call to drop a check takes off none that is being added and none that
is in force, an embedding is recorded while no other is being declared and none is in force, and it
fails on a document only where it was recorded over none. -/
def Clear (w : World) : Event → Prop
  | .advance place => ∀ call, w.calls[place]? = some call →
    (∀ name seq, call.request = .dropCheck name → call.phase = .found seq →
      (∀ check ∈ w.checks, check.name ≠ name) ∧
        ∀ other ∈ w.calls, ∀ check, other.request = .addCheck check → other.phase.isOpen = true →
          check.name ≠ name) ∧
    (∀ e seq, call.request = .embed e → call.phase = .found seq → w.embedding = none ∧
        ∀ other ∈ w.calls, ∀ e', other.request = .embed e' → other.phase.isOpen = false) ∧
    ∀ e seq before q todo documents, call.request = .embed e →
      call.phase = .reading seq before (q :: todo) documents →
      ∀ d, readDocument w.store q = some d → call.request.fault n d ≠ none → before = none
  | _ => True

end

end Zelavis.Db.Declarations
