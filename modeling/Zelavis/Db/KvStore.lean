import Zelavis.Db.Kv
import Zelavis.Db.Segments

/-!
# The store over an ordered engine: writing

`kv-store.ts`, operation by operation, as programs over the engine.
-/

namespace Zelavis.Db

open Lib OrderedMap

/-! ## Records and their names -/

/-- `META_NEXT_SEQ`. -/
def META_NEXT_SEQ : Utf16 := utf16 "next_seq"
/-- `META_NEXT_POSITION`. -/
def META_NEXT_POSITION : Utf16 := utf16 "next_position"
/-- `META_GENERATION`. -/
def META_GENERATION : Utf16 := utf16 "generation"
/-- `META_OWNER`. -/
def META_OWNER : Utf16 := utf16 "writer_session"
/-- `META_REVISION`. -/
def META_REVISION : Utf16 := utf16 "writer_revision"
/-- `META_COMPACTED_TO`. -/
def META_COMPACTED_TO : Utf16 := utf16 "compacted_to"
/-- `META_SNAPSHOT_AT`. -/
def META_SNAPSHOT_AT : Utf16 := utf16 "snapshot_at"
/-- `META_SEALED`. -/
def META_SEALED : Utf16 := utf16 "sealed"
/-- `META_SWEPT`. -/
def META_SWEPT : Utf16 := utf16 "swept"
/-- `META_FORMAT`. -/
def META_FORMAT : Utf16 := utf16 "format"

/-- `SEAL_BATCH`. -/
def SEAL_BATCH : ℕ := 4096

/-- `MIN_SEALED_POSTINGS`. -/
def MIN_SEALED_POSTINGS : ℕ := 64

/-- `CURRENT_FORMAT`. -/
def CURRENT_FORMAT : ℕ := 2

/-- `DERIVED_TAGS`. -/
def DERIVED_TAGS : List Byte :=
  [Tag.term, Tag.measure, Tag.edge, Tag.edgeReverse, Tag.segment, Tag.tombstone, Tag.ordered, Tag.dirty]

/-- `SEALABLE_TAGS`. -/
def SEALABLE_TAGS : List Byte := [Tag.term, Tag.ordered, Tag.edge, Tag.edgeReverse]

/-- `STATE_TAGS`. -/
def STATE_TAGS : List Byte := [Tag.payload, Tag.manifest, Tag.identity, Tag.identityBySeq]

/-- `LENS_TAGS`. -/
def LENS_TAGS : List Byte := STATE_TAGS ++ DERIVED_TAGS

/-- The value of a key that is the fact itself. Source: `EMPTY`. -/
def EMPTY : Stored := .raw []

/-- The first four bytes of a record; a shorter one throws. Source: `readU32`. -/
def recordU32 : Stored → Option ℕ
  | .raw b => if b.length < 4 then none else some (readBigEndian (b.take 4))
  | _ => none

def encodePayload (version : ℕ) (body : Bytes) : Stored := .raw (writeU32 version ++ body)

def keySeq (key : Key) : Option ℕ := recordU32 (.raw (key.drop 1))

def payloadBody : Stored → Bytes
  | .raw b => b.drop 4
  | _ => []

def f64 (value : JsNumber) : Stored := .raw (bigEndian 8 value.bits.val)

def readF64 : Stored → JsNumber
  | .raw b => ⟨Fin.ofNat _ (readBigEndian (b.take 8))⟩
  | _ => .zero

/-- `Number.MAX_SAFE_INTEGER`. -/
def MAX_SAFE_INTEGER : ℕ := 9007199254740991

/-- A generation record; four-byte ones are widened. Source: `readGeneration`. -/
def readGeneration : Option Stored → Option ℕ
  | none => some 0
  | some (.raw b) =>
    if b.length = 4 then some (readBigEndian b)
    else if b.length ≠ 8 then none
    else if MAX_SAFE_INTEGER < readBigEndian b then none
    else some (readBigEndian b)
  | some _ => none

def generationBytes (generation : ℕ) : Stored := .raw (bigEndian 8 generation)

/-! ## Fencing -/

/-- What an opened handle holds. Source: `WriterClaim`. -/
structure WriterClaim where
  generation : ℕ
  session : Bytes
  deriving DecidableEq

def readMeta (name : Utf16) : StoreM ℕ := do
  match ← Prog.read (metaKey name) with
  | none => pure 0
  | some stored => orThrow (recordU32 stored)

def generationOf : StoreM ℕ := do
  match readGeneration (← Prog.read (metaKey META_GENERATION)) with
  | some generation => pure generation
  | none => Prog.fail .generationRead

def assertCurrent (claim : WriterClaim) : StoreM Unit := do
  let current ← generationOf
  let owner ← Prog.read (metaKey META_OWNER)
  if current ≠ claim.generation ∨ owner ≠ some (.raw claim.session) then
    Prog.fail (.writerFenced claim.generation current)
  else pure ()

/-- The revision the body starts from is read before the claim is checked. Source: `exclusive`. -/
def exclusive {α : Type} (claim : WriterClaim) (body : Option Stored → StoreM α) : StoreM α := do
  let revision ← Prog.read (metaKey META_REVISION)
  assertCurrent claim
  body revision

/-- One batch, on condition that the claim is current and nothing was written since `revision`;
gives the revision it leaves. Source: `write`. -/
def write (claim : WriterClaim) (revision : Option Stored) (writes : List (Write Key Stored)) :
    StoreM (Option Stored) := do
  let nextRevision ← Prog.token
  let accepted ← Prog.tryWrite
    (writes ++ [.put (metaKey META_REVISION) (.raw nextRevision)])
    [(metaKey META_GENERATION, some (generationBytes claim.generation)),
      (metaKey META_OWNER, some (.raw claim.session)),
      (metaKey META_REVISION, revision)]
  if accepted then pure (some (.raw nextRevision))
  else do
    assertCurrent claim
    Prog.fail .conflict

/-! ## Transactions -/

/-- The batch a transaction builds, by key: a value to put, or none to delete. -/
abbrev Pending := OrderedMap Key (Option Stored)

/-- The state of a transaction: its batch and the last position of the log. -/
structure Txn where
  pending : Pending := .empty
  position : ℕ

/-- A program in a transaction. -/
abbrev TxnM := StateT Txn StoreM

def stagePending (pending : Pending) (ws : List (Write Key Stored)) : Pending :=
  ws.foldl (fun p w => p.insert w.key w.value) pending

def pendingWrites (pending : Pending) : List (Write Key Stored) :=
  pending.entries.map fun e => match e.2 with
    | some v => .put e.1 v
    | none => .delete e.1

/-- Source: `pendingView.get`. -/
def viewGet (key : Key) : TxnM (Option Stored) := do
  match (← get).pending.get key with
  | some staged => pure staged
  | none => StateT.lift (Prog.read key)

/-- Source: `pendingView.put` and `pendingView.del`. -/
def stage (ws : List (Write Key Stored)) : TxnM Unit :=
  modify fun txn => { txn with pending := stagePending txn.pending ws }

def markDirty (key : Key) : Write Key Stored :=
  .put (dirtyKey (livePrefixOf key) (segmentOf (seqOf key))) EMPTY

def dropPosting (key : Key) (sealed : Bool) : List (Write Key Stored) :=
  .delete key :: if sealed then [.put (tombstoneKey key) EMPTY, markDirty key] else []

def addPosting (key : Key) (value : Stored) (sealed : Bool) : List (Write Key Stored) :=
  .put key value :: if sealed then [.delete (tombstoneKey key), markDirty key] else []

def columnKeys (seq : Seq) (manifest : IndexManifest) : Option (List Key) :=
  manifest.columns.mapM fun c => orderedKey c.1 (.scalar c.2) seq

def edgeKeys (seq : Seq) (edge : Utf16 × Seq) : List Key :=
  [edgeKey edge.1 seq edge.2, reverseEdgeKey edge.1 edge.2 seq]

def unproject (seq : Seq) (sealed : Bool) : TxnM Unit := do
  match ← viewGet (manifestKey seq) with
  | none => pure ()
  | some stored => do
    let manifest ← StateT.lift (orThrow (unjsonManifest stored))
    stage (manifest.terms.flatMap fun t => dropPosting (termKey t.1 t.2 seq) sealed)
    let columns ← StateT.lift (orThrow (columnKeys seq manifest))
    stage (columns.flatMap fun key => dropPosting key sealed)
    stage (manifest.measures.map fun c => .delete (measureKey c.1 seq))
    stage (manifest.edges.flatMap fun e => (edgeKeys seq e).flatMap (dropPosting · sealed))
    stage [.delete (manifestKey seq)]
    match ← viewGet (identityBySeqKey seq) with
    | none => pure ()
    | some stored => do
      let identity ← StateT.lift (orThrow (unjsonIdentity stored))
      stage [.delete (identityKey identity.ns identity.key), .delete (identityBySeqKey seq)]

def project (seq : Seq) (version : ℕ) (body : Bytes) (manifest : IndexManifest) (sealed : Bool)
    (identity : Option ObjectIdentity) : TxnM Unit := do
  unproject seq sealed
  stage [.put (payloadKey seq) (encodePayload version body)]
  stage (manifest.terms.flatMap fun t => addPosting (termKey t.1 t.2 seq) EMPTY sealed)
  let columns ← StateT.lift (orThrow (columnKeys seq manifest))
  stage (columns.flatMap fun key => addPosting key EMPTY sealed)
  stage (manifest.measures.map fun c => .put (measureKey c.1 seq) (f64 c.2))
  stage (manifest.edges.flatMap fun e => (edgeKeys seq e).flatMap (addPosting · EMPTY sealed))
  stage [.put (manifestKey seq) (.manifest (jsonManifest manifest))]
  match identity with
  | none => pure ()
  | some identity =>
    stage [.put (identityKey identity.ns identity.key) (.raw (writeU32 seq)),
      .put (identityBySeqKey seq) (.identity identity)]

def versionOf (seq : Seq) : TxnM ℕ := do
  match ← viewGet (payloadKey seq) with
  | none => pure 0
  | some stored => StateT.lift (orThrow (recordU32 stored))

/-- One more event of the log. Source: `commit`, `append`. -/
def append (event : StoredEvent) : TxnM Unit := do
  modify fun txn => { txn with position := txn.position + 1 }
  stage [.put (eventKey (← get).position) (.event (jsonEvent event))]

/-- Source: `txn.put`. -/
def Txn.put (claim : WriterClaim) (sealed : Bool) (now : ℕ) (seq : Seq) (bytes : Bytes)
    (manifest : IndexManifest) (identity : Option ObjectIdentity) : TxnM Unit := do
  StateT.lift (assertCurrent claim)
  let version := (← versionOf seq) + 1
  append { generation := claim.generation, seq, kind := .put, version, writtenAt := now,
           body := some bytes, manifest := some manifest, identity }
  project seq version bytes manifest sealed identity

def identityOf (seq : Seq) : TxnM (Option ObjectIdentity) := do
  match ← viewGet (identityBySeqKey seq) with
  | none => pure none
  | some stored => do
    let identity ← StateT.lift (orThrow (unjsonIdentity stored))
    pure (some identity)

/-- Source: `txn.retract`. -/
def Txn.retract (claim : WriterClaim) (sealed : Bool) (now : ℕ) (seq : Seq) : TxnM Unit := do
  StateT.lift (assertCurrent claim)
  let version ← versionOf seq
  if version = 0 then pure ()
  else do
    let identity ← identityOf seq
    append { generation := claim.generation, seq, kind := .retract, version := version + 1,
             writtenAt := now, identity }
    unproject seq sealed
    stage [.delete (payloadKey seq)]

def commit {α : Type} (claim : WriterClaim) (f : Bool → TxnM α) : StoreM α :=
  exclusive claim fun revision => do
    let position ← readMeta META_NEXT_POSITION
    let isSealed := decide (0 < (← readMeta META_SEALED))
    let (result, txn) ← (f isSealed).run { position }
    let pending := stagePending txn.pending
      [.put (metaKey META_NEXT_POSITION) (.raw (writeU32 txn.position))]
    let _ ← write claim revision (pendingWrites pending)
    pure result

/-- One operation of a transaction, with the time it is made at. -/
inductive TxnOp where
  /-- `txn.put`. -/
  | put (now : ℕ) (seq : Seq) (bytes : Bytes) (manifest : IndexManifest)
    (identity : Option ObjectIdentity)
  /-- `txn.retract`. -/
  | retract (now : ℕ) (seq : Seq)

def TxnOp.run (claim : WriterClaim) (sealed : Bool) : TxnOp → TxnM Unit
  | .put now seq bytes manifest identity => Txn.put claim sealed now seq bytes manifest identity
  | .retract now seq => Txn.retract claim sealed now seq

/-- The operations a caller's function makes of one transaction. Source: `transact`. -/
def transact (claim : WriterClaim) (ops : List TxnOp) : StoreM Unit :=
  commit claim fun isSealed => ops.forM (TxnOp.run claim isSealed)

/-! ## Replication -/

/-- An event as it is handed out and applied. Source: `events.ts` `AppliedEvent`. -/
inductive DbEvent where
  | objectPut (generation writtenAt : ℕ) (seq : Seq) (version : ℕ) (bytes : Bytes)
    (manifest : IndexManifest) (identity : Option ObjectIdentity)
  | objectRetracted (generation writtenAt : ℕ) (seq : Seq) (version : ℕ)
    (identity : Option ObjectIdentity)

def DbEvent.seq : DbEvent → Seq
  | .objectPut _ _ seq _ _ _ _ => seq
  | .objectRetracted _ _ seq _ _ => seq

def DbEvent.version : DbEvent → ℕ
  | .objectPut _ _ _ version _ _ _ => version
  | .objectRetracted _ _ _ version _ => version

/-- An event as the log keeps it. Source: `events.apply`. -/
def DbEvent.stored : DbEvent → StoredEvent
  | .objectPut generation writtenAt seq version bytes manifest identity =>
    { generation, seq, kind := .put, version, writtenAt, body := some bytes,
      manifest := some manifest, identity }
  | .objectRetracted generation writtenAt seq version identity =>
    { generation, seq, kind := .retract, version, writtenAt, identity }

/-- Source: `toEvent`, without the cursor. -/
def toEvent (stored : StoredEvent) : DbEvent :=
  match stored.kind with
  | .put => .objectPut stored.generation stored.writtenAt stored.seq stored.version
      (stored.body.getD []) (stored.manifest.getD emptyManifest) stored.identity
  | .retract => .objectRetracted stored.generation stored.writtenAt stored.seq stored.version
      stored.identity

/-- Source: `events.apply`. -/
def applyEvent (claim : WriterClaim) (event : DbEvent) : StoreM Unit :=
  commit claim fun _ => do
    let seen ← versionOf event.seq
    if event.version ≤ seen then pure ()
    else do
      append event.stored
      let isSealed := decide (0 < (← StateT.lift (readMeta META_SEALED)))
      match event with
      | .objectPut _ _ seq version bytes manifest identity =>
        project seq version bytes manifest isSealed identity
      | .objectRetracted _ _ seq _ _ => do
        unproject seq isSealed
        stage [.delete (payloadKey seq)]

/-! ## Re-deriving the lenses -/

/-- One live record. Source: `liveRecords`. -/
structure LiveRecord where
  seq : Seq
  version : ℕ
  bytes : Bytes
  manifest : IndexManifest
  identity : ObjectIdentity

/-- The records with a caller-facing identity. Source: `liveRecords`. -/
def liveRecords : StoreM (List LiveRecord) := do
  let identities ← (← scanM [Tag.identityBySeq] none none).mapM fun entry => do
    let seq ← orThrow (keySeq entry.1)
    let identity ← orThrow (unjsonIdentity entry.2)
    pure (seq, identity)
  let out ← identities.mapM fun (seq, identity) => do
    let payload ← Prog.read (payloadKey seq)
    let manifest ← Prog.read (manifestKey seq)
    match payload with
    | none => pure []
    | some payload => do
      let version ← orThrow (recordU32 payload)
      let manifest ← match manifest with
        | none => pure emptyManifest
        | some stored => orThrow (unjsonManifest stored)
      pure [{ seq, version, bytes := payloadBody payload, manifest, identity }]
  pure out.flatten

def dropTags (tags : List Byte) : StoreM (List (Write Key Stored)) := do
  let dropped ← tags.mapM fun tag => scanM [tag] none none
  pure (dropped.flatten.map fun entry => .delete entry.1)

def unsealed : List (Write Key Stored) :=
  [.put (metaKey META_SEALED) (.raw (writeU32 0)), .put (metaKey META_SWEPT) (.raw (writeU32 0))]

def manifestWrites (seq : Seq) (manifest : IndexManifest) : StoreM (List (Write Key Stored)) := do
  let columns ← orThrow (columnKeys seq manifest)
  pure (manifest.terms.map (fun t => .put (termKey t.1 t.2 seq) EMPTY) ++
    columns.map (fun key => .put key EMPTY) ++
    manifest.measures.map (fun c => .put (measureKey c.1 seq) (f64 c.2)) ++
    manifest.edges.flatMap fun e => (edgeKeys seq e).map fun key => .put key EMPTY)

def reindexLenses (claim : WriterClaim) : StoreM ℕ :=
  exclusive claim fun revision => do
    let dropped ← dropTags DERIVED_TAGS
    let manifests ← (← scanM [Tag.manifest] none none).mapM fun entry => do
      let seq ← orThrow (keySeq entry.1)
      let manifest ← orThrow (unjsonManifest entry.2)
      pure (seq, manifest)
    let postings ← manifests.mapM fun (seq, manifest) => manifestWrites seq manifest
    let pending := stagePending .empty (dropped ++ unsealed ++ postings.flatten)
    let _ ← write claim revision (pendingWrites pending)
    pure manifests.length

def replayEvent (event : StoredEvent) : TxnM Unit :=
  match event.kind with
  | .put => project event.seq event.version (event.body.getD [])
      (event.manifest.getD emptyManifest) false event.identity
  | .retract => do
    unproject event.seq false
    stage [.delete (payloadKey event.seq)]

def replaySnapshot (record : Seq × StoredSnapshot) : TxnM Unit :=
  project record.1 record.2.version record.2.body record.2.manifest false record.2.identity

def eventsAfter (snapshotAt : ℕ) : StoreM (List StoredEvent) := do
  let events ← (← scanM eventPrefix none none).mapM fun entry => do
    if positionOf entry.1 ≤ snapshotAt then pure []
    else do
      let event ← orThrow (unjsonEvent entry.2)
      pure [event]
  pure events.flatten

def snapshotRecords : StoreM (List (Seq × StoredSnapshot)) := do
  (← scanM snapshotPrefix none none).mapM fun entry => do
    let seq ← orThrow (keySeq entry.1)
    let record ← orThrow (unjsonSnapshot entry.2)
    pure (seq, record)

def rebuildLenses (claim : WriterClaim) : StoreM ℕ :=
  exclusive claim fun revision => do
    let compactedTo ← readMeta META_COMPACTED_TO
    let snapshotAt ← readMeta META_SNAPSHOT_AT
    if 0 < compactedTo ∧ snapshotAt < compactedTo then
      Prog.fail (.logCompacted compactedTo)
    else do
      let stored ← eventsAfter snapshotAt
      let dropped ← dropTags LENS_TAGS
      let records ← if 0 < snapshotAt then snapshotRecords else pure []
      let ((), txn) ← StateT.run (do
        stage (dropped ++ unsealed)
        records.forM replaySnapshot
        stored.forM replayEvent) { position := 0 }
      let _ ← write claim revision (pendingWrites txn.pending)
      pure (records.length + stored.length)

/-- How many records a snapshot holds, and the position it covers. Source: `snapshot`. -/
def snapshot (claim : WriterClaim) : StoreM (ℕ × ℕ) :=
  exclusive claim fun revision => do
    let position ← readMeta META_NEXT_POSITION
    let old ← scanM snapshotPrefix none none
    let records ← liveRecords
    let _ ← write claim revision
      (old.map (fun entry => .delete entry.1) ++
        records.map (fun record => .put (snapshotKey record.seq) (.snapshot
          { version := record.version, body := record.bytes,
            manifest := jsonManifest record.manifest, identity := some record.identity })) ++
        [.put (metaKey META_SNAPSHOT_AT) (.raw (writeU32 position))])
    pure (records.length, position)

/-- How many events were removed, and up to which position; scan order is position order.
Source: `compact`. -/
def compact (claim : WriterClaim) (keep : ℕ) : StoreM (ℕ × ℕ) :=
  exclusive claim fun revision => do
    let positions := (← scanM eventPrefix none none).map fun entry => positionOf entry.1
    let cut := positions.length - keep
    if cut = 0 then do
      pure (0, ← readMeta META_COMPACTED_TO)
    else do
      let compactedTo := positions.getD (cut - 1) 0
      let _ ← write claim revision
        ((positions.take cut).map (fun position => .delete (eventKey position)) ++
          [.put (metaKey META_COMPACTED_TO) (.raw (writeU32 compactedTo))])
      pure (cut, compactedTo)

def nextSeq (claim : WriterClaim) : StoreM Seq :=
  exclusive claim fun revision => do
    let next := (← readMeta META_NEXT_SEQ) + 1
    let _ ← write claim revision [.put (metaKey META_NEXT_SEQ) (.raw (writeU32 next))]
    pure next

/-! ## Sealing -/

/-- What a seal works with. Source: `sealPostings`. -/
structure SealState where
  revision : Option Stored
  batch : List (Write Key Stored) := []
  buffer : SegmentBuffer := .reset
  opened : Option (Key × ℕ) := none
  gathered : List Key := []
  hadBlob : Bool := false
  segments : ℕ := 0
  postings : ℕ := 0
  examined : ℕ := 0

/-- A program of a seal. -/
abbrev SealM := StateT SealState StoreM

/-- Write back the segment the buffer holds: nothing when it had no blob and holds too few, a
deletion when it holds none, a blob otherwise. Source: `sealPostings`, `flush`. -/
def SealState.flush (s : SealState) : SealState :=
  match s.opened with
  | none => s
  | some (pre, segment) =>
    if !s.hadBlob && s.buffer.size < MIN_SEALED_POSTINGS then
      { s with gathered := [], opened := none }
    else
      let key := segmentKey pre segment
      let base := segment * SEGMENT_SPAN
      let deletions := s.gathered.map fun live => .delete live
      if s.buffer.size = 0 then
        { s with batch := s.batch ++ deletions ++ [.delete key], gathered := [], opened := none }
      else
        { s with
          batch := s.batch ++ deletions ++ [.put key (.raw (encodeSegment (s.buffer.ids base) base))]
          gathered := []
          opened := none
          segments := s.segments + 1
          postings := s.postings + s.buffer.size }

def writeBatch (claim : WriterClaim) : SealM Unit := do
  let s ← get
  let revision ← StateT.lift (write claim s.revision s.batch)
  set { s with batch := [], revision }

def blobBytes : Stored → Bytes
  | .raw b => b
  | _ => []

/-- Move to the segment a posting key belongs to, loading its blob. Source: `sealPostings`, `openFor`. -/
def openFor (claim : WriterClaim) (key : Key) (id : ℕ) : SealM Unit := do
  let pre := livePrefixOf key
  let segment := segmentOf id
  if (← get).opened = some (pre, segment) then pure ()
  else do
    modify SealState.flush
    if SEAL_BATCH ≤ (← get).batch.length then writeBatch claim
    let existing ← StateT.lift (Prog.read (segmentKey pre segment))
    modify fun s => { s with
      opened := some (pre, segment)
      hadBlob := existing.isSome
      buffer := (decodeSegment (existing.elim [] blobBytes) 0).foldl SegmentBuffer.add .reset }

/-- A live posting folded into its segment. Source: `sealPostings`, `take`. -/
def take (claim : WriterClaim) (key : Key) : SealM Unit := do
  let id := seqOf key
  openFor claim key id
  modify fun s => { s with
    buffer := s.buffer.add (id % SEGMENT_SPAN)
    gathered := s.gathered ++ [key]
    examined := s.examined + 1 }

def clear (claim : WriterClaim) (key : Key) : SealM Unit := do
  let posting := key.drop 1
  let id := seqOf posting
  openFor claim posting id
  modify fun s => { s with
    buffer := s.buffer.remove (id % SEGMENT_SPAN)
    batch := s.batch ++ [.delete key] }

def sweepTag (claim : WriterClaim) (tag : Byte) : SealM Unit := do
  (← StateT.lift (scanM [tag] none none)).forM fun entry => take claim entry.1
  modify SealState.flush

def takeMarked (claim : WriterClaim) (mark : Key) : SealM Unit := do
  let livePrefix := (mark.drop 1).take (mark.length - 5)
  let base := readU32 mark (mark.length - 4) * SEGMENT_SPAN
  let upper := if 0xffffffff < base + SEGMENT_SPAN then none
    else some (livePrefix ++ writeU32 (base + SEGMENT_SPAN))
  (← StateT.lift (scanM livePrefix (some (livePrefix ++ writeU32 base)) upper)).forM
    fun entry => take claim entry.1
  modify fun s => { s with batch := s.batch ++ [.delete mark] }

/-- How many segments a seal wrote, the postings they hold and the live postings it read.
Source: `sealPostings`. -/
def sealPostings (claim : WriterClaim) : StoreM (ℕ × ℕ × ℕ) :=
  exclusive claim fun revision => do
    let swept := decide (0 < (← readMeta META_SWEPT))
    let revision ← write claim revision [.put (metaKey META_SEALED) (.raw (writeU32 1))]
    let ((), s) ← StateT.run (do
      if !swept then SEALABLE_TAGS.forM (sweepTag claim)
      else do
        (← StateT.lift (scanM [Tag.dirty] none none)).forM fun mark => takeMarked claim mark.1
        modify SealState.flush
      -- the removals below read the blobs these additions write
      if (← get).batch ≠ [] then writeBatch claim
      (← StateT.lift (scanM [Tag.tombstone] none none)).forM fun entry => clear claim entry.1
      modify SealState.flush
      if !swept then do
        let marks ← StateT.lift (scanM [Tag.dirty] none none)
        modify fun s => { s with
          batch := s.batch ++ marks.map (fun entry => .delete entry.1) ++
            [.put (metaKey META_SWEPT) (.raw (writeU32 1))] }
      if (← get).batch ≠ [] then writeBatch claim) { revision }
    pure (s.segments, s.postings, s.examined)

/-! ## Opening -/

def claimLoop (session : Bytes) : ℕ → StoreM WriterClaim
  | 0 => Prog.fail .generationClaim
  | attempts + 1 => do
    let current ← Prog.read (metaKey META_GENERATION)
    match readGeneration current with
    | none => Prog.fail .generationClaim
    | some previous =>
      if previous = MAX_SAFE_INTEGER then Prog.fail .generationClaim
      else do
        let generation := previous + 1
        let revision ← Prog.token
        let accepted ← Prog.tryWrite
          [.put (metaKey META_GENERATION) (generationBytes generation),
            .put (metaKey META_OWNER) (.raw session),
            .put (metaKey META_REVISION) (.raw revision)]
          [(metaKey META_GENERATION, current)]
        if accepted then pure { generation, session } else claimLoop session attempts

def claimGeneration : StoreM WriterClaim := do
  let session ← Prog.token
  claimLoop session 32

/-- Claim the writer generation and mark a fresh store with its layout. Source: `openStoreOverKv`. -/
def openStoreOverKv : StoreM WriterClaim := do
  let claim ← claimGeneration
  let format ← Prog.read (metaKey META_FORMAT)
  let holdsData := (← Prog.read (metaKey META_NEXT_POSITION)).isSome
  match format with
  | none =>
    if holdsData then Prog.fail .formatOpen
    else do
      let revision ← Prog.read (metaKey META_REVISION)
      let next ← Prog.token
      let accepted ← Prog.tryWrite
        [.put (metaKey META_REVISION) (.raw next),
          .put (metaKey META_FORMAT) (.raw (writeU32 CURRENT_FORMAT))]
        [(metaKey META_GENERATION, some (generationBytes claim.generation)),
          (metaKey META_OWNER, some (.raw claim.session)),
          (metaKey META_FORMAT, none),
          (metaKey META_REVISION, revision)]
      if accepted then pure claim else Prog.fail .formatOpen
  | some stored => do
    let version ← orThrow (recordU32 stored)
    if version < CURRENT_FORMAT then Prog.fail .formatOpen else pure claim

end Zelavis.Db
