import Zelavis.Db.Attempts
import Zelavis.Db.KeyValueMap
import Zelavis.Db.Vocabulary

/-!
# Changes of a namespace, as changes of a map
-/

namespace Zelavis.Db

open Lib Option

/-! ## Keys that are read as they were written -/

/-- A key that comes back from its encoding as it was: no surrogate in it stands alone, and it has no
leading byte order mark. -/
def Legible (key : Utf16) : Prop := wellFormed key = true ∧ key.head? ≠ some 0xFEFF

lemma Legible.eq_of_utf8 {key key' : Utf16} (h : Legible key) (h' : Legible key')
    (heq : utf8 key = utf8 key') : key = key' := (utf8_inj h.1 h'.1).1 heq

lemma Legible.readString {key : Utf16} (h : Legible key) (rest : Bytes) :
    readString (writeString key ++ rest) = (key, rest) := by
  have hdecode : decodeText (utf8 key) = key := by
    rw [decodeText_utf8 h.1, dropBom, if_neg h.2]
  rw [Db.readString, writeString, readEscaped_writeEscaped]
  exact congrArg (·, rest) hdecode

/-! ## Collections whose documents stand alone -/

/-- A collection without unique indexes, references to or from it, and edges: whether a document can
be written is a matter of the document. -/
structure Standalone (record : StoredCollection) : Prop where
  indexes : ∀ i ∈ record.indexes, i.unique = false
  references : record.references = []
  edges : record.edges = []
  referencedBy : record.referencedBy = []

/-- A value under a key as a document, as far as its collection's rules go. -/
def bareDocument (name key : Utf16) (value : JsonObject) : Document where
  id := key
  collection := name
  data := value
  createdAt := []
  updatedAt := []
  version := 0

def rulesOf (host : Host) (t : TenantId) (name : Utf16) (record : StoredCollection) :
    KeyValueRules where
  valid := validateDocumentData name
  takes := fun value => do
    validateDocumentData name value
    if host.satisfiesSchema name value = false then .error (.schemaViolation name)
  admits := fun key value =>
    (embeddingFault record (bareDocument name key value)).or <|
      (record.checks.findSome? (checkFault (bareDocument name key value))).or <|
        if (manifestFor host t (bareDocument name key value) (some record) []).isNone then
          some .defect
        else none

variable {p : PendingDocs} {seq : Seq} {doc : Document}

section

variable {host : Host} {t : TenantId} {o : Objects Record} {name : Utf16}
  {record : StoredCollection}

lemma constraintFault_standalone (hr : Standalone record) (p : PendingDocs) (doc : Document)
    (seq : Seq) : constraintFault t o p record doc seq =
      (embeddingFault record doc).or (record.checks.findSome? (checkFault doc)) := by
  have hunique : record.indexes.findSome? (uniqueFault o p doc seq) = none := by
    refine List.findSome?_eq_none_iff.2 fun i hi => ?_
    unfold uniqueFault
    rw [if_pos (Or.inl (hr.indexes i hi))]
  unfold constraintFault
  rw [hr.references, hunique]
  simp

lemma documentPut_standalone (host : Host) (hr : Standalone record) (doc : Document)
    (hc : doc.collection = name) (seq : Seq) {loaded : Option StoredCollection} (s : Staged)
    (hload : loaded.or (loadCollection t o doc.collection) = some record) :
    (∀ fault, (rulesOf host t name record).admits doc.id doc.data = some fault →
      documentPut host t o doc seq loaded s = .error fault) ∧
    ((rulesOf host t name record).admits doc.id doc.data = none →
      ∃ writes, documentPut host t o doc seq loaded s =
        .ok { pending := remember s.pending (some record) doc seq, writes }) := by
  subst hc
  have hchecks : record.checks.findSome? (checkFault (bareDocument doc.collection doc.id doc.data)) =
      record.checks.findSome? (checkFault doc) := rfl
  have hadmits : (rulesOf host t doc.collection record).admits doc.id doc.data =
      (embeddingFault record doc).or ((record.checks.findSome? (checkFault doc)).or
        (if (manifestFor host t doc (some record) []).isNone then some .defect else none)) := rfl
  have hput : documentPut host t o doc seq loaded s =
      match (embeddingFault record doc).or (record.checks.findSome? (checkFault doc)),
        manifestFor host t doc (some record) [] with
      | some fault, _ => .error fault
      | none, none => .error .defect
      | none, some manifest => .ok
        { pending := remember s.pending (some record) doc seq
          writes := s.writes ++
            [.put seq (.document doc) manifest (some ⟨documentNs t doc.collection, doc.id⟩)] } := by
    unfold documentPut
    rw [hload]
    unfold enforceConstraints
    dsimp only
    rw [constraintFault_standalone hr, hr.edges]
    cases (embeddingFault record doc).or (record.checks.findSome? (checkFault doc)) with
    | some fault => rfl
    | none =>
      dsimp only [List.mapM_nil, pure, Except.pure, Except.map, List.flatten_nil]
      cases manifestFor host t doc (some record) [] with
      | none => rfl
      | some manifest => rfl
  rw [hadmits, ← Option.or_assoc, hput]
  cases (embeddingFault record doc).or (record.checks.findSome? (checkFault doc)) with
  | some fault =>
    refine ⟨fun fault' h => ?_, fun h => ?_⟩
    · cases h
      rfl
    · cases h
  | none =>
    cases manifestFor host t doc (some record) [] with
    | none =>
      refine ⟨fun fault h => ?_, fun h => ?_⟩
      · cases h
        rfl
      · cases h
    | some manifest =>
      refine ⟨fun fault h => ?_, fun _ => ⟨_, rfl⟩⟩
      cases h

lemma releaseReferences_standalone (hr : Standalone record)
    (hload : loadCollection t o doc.collection = some record) (now : Utf16) (seq : Seq)
    (s : Staged) : releaseReferences host t o now doc seq s =
      .ok { s with pending := forget s.pending doc seq } := by
  unfold releaseReferences release
  have hgather : gatherNaming t o (forget s.pending doc seq) doc = .ok [] := by
    unfold gatherNaming
    rw [hload]
    dsimp only
    rw [hr.referencedBy]
    rfl
  rw [hgather]
  rfl

/-! ## What a transaction's writes change -/

lemma documentNamed_changed {p' : PendingDocs} {found : Option Document} (hc : doc.collection = name)
    (hp : p'.byName = changed p.byName doc.name (some (seq, found))) (id : Utf16) :
    documentNamed t o p' name id = if id = doc.id then found else documentNamed t o p name id := by
  subst hc
  unfold documentNamed currentNamed changed at *
  rw [hp]
  dsimp only
  by_cases hid : id = doc.id
  · rw [hid, if_pos rfl, if_pos (show nameOf doc.collection doc.id = doc.name from rfl)]
    rfl
  · rw [if_neg hid, if_neg (show nameOf doc.collection id ≠ doc.name from fun h =>
      hid (List.append_cancel_left h))]

lemma documentNamed_remember {c : Option StoredCollection} (hc : doc.collection = name) (id : Utf16) :
    documentNamed t o (remember p c doc seq) name id =
      if id = doc.id then some doc else documentNamed t o p name id :=
  documentNamed_changed hc rfl id

lemma documentNamed_forget (hc : doc.collection = name) (id : Utf16) :
    documentNamed t o (forget p doc seq) name id =
      if id = doc.id then none else documentNamed t o p name id :=
  documentNamed_changed hc rfl id

end

/-! ## What is looked up, and what a map has -/

variable {look' : Utf16 → Option Document} {d : Document} {key₀ : Utf16}

section

variable {D : Dates} {name : Utf16}

lemma isExpired_mono {now now' : ℤ} (h : now ≤ now') {expiresAt : Option Utf16}
    (hexpired : isExpired D now expiresAt = true) : isExpired D now' expiresAt = true := by
  cases expiresAt with
  | none => cases hexpired
  | some moment =>
    unfold isExpired at hexpired ⊢
    rw [any_some] at hexpired ⊢
    cases hparse : D.parse moment with
    | none => rfl
    | some millis =>
      rw [hparse] at hexpired
      simp only [any_some, Bool.not_eq_true', decide_eq_false_iff_not, not_lt] at hexpired ⊢
      exact hexpired.trans h

def seenAt (D : Dates) (now : ℤ) (look : Utf16 → Option Document) (key : Utf16) :
    Option KeyValueEntry :=
  ((look key).map entryOf).filter fun e => !isExpired D now e.expiresAt

/-- What is looked up is what a map has, under each key from some moment on. -/
structure Shows (D : Dates) (name : Utf16) (since : Utf16 → ℤ) (look : Utf16 → Option Document)
    (m : KeyValueMap) : Prop where
  keyed : m.Keyed
  plain : ∀ k e, m.get k = some e → Legible e.key
  own : ∀ key d, look key = some d → d.id = key ∧ d.collection = name ∧ Legible key
  agrees : ∀ key, Legible key → seenAt D (since key) look key = m.find D (since key) key

namespace Shows

variable {since : Utf16 → ℤ} {look : Utf16 → Option Document} {m : KeyValueMap} {now : ℤ}
  {key : Utf16}

lemma filter_later {now' : ℤ} (h : now ≤ now') (found : Option KeyValueEntry) :
    (found.filter fun e => !isExpired D now e.expiresAt).filter
      (fun e => !isExpired D now' e.expiresAt) = found.filter fun e => !isExpired D now' e.expiresAt := by
  rw [Option.filter_filter]
  congr 1
  funext e
  cases hexpired : isExpired D now e.expiresAt with
  | false => simp
  | true => simp [isExpired_mono h hexpired]

section

variable (h : Shows D name since look m)
include h

lemma agrees_at (hk : Legible key) (hnow : since key ≤ now) :
    seenAt D now look key = m.find D now key := by
  have heq := congrArg (Option.filter fun e => !isExpired D now e.expiresAt) (h.agrees key hk)
  unfold seenAt KeyValueMap.find at heq ⊢
  rw [filter_later hnow, filter_later hnow] at heq
  exact heq

lemma later {since' : Utf16 → ℤ}
    (hle : ∀ key, since key ≤ since' key) : Shows D name since' look m :=
  ⟨h.keyed, h.plain, h.own, fun key hk => h.agrees_at hk (hle key)⟩

lemma find_eq (hk : Legible key) (hnow : since key ≤ now)
    (hfresh : ∀ d, look key = some d → isExpired D now d.expiresAt = false) :
    m.find D now key = (look key).map entryOf := by
  rw [← h.agrees_at hk hnow]
  unfold seenAt
  cases hlook : look key with
  | none => rfl
  | some d =>
    rw [map_some, filter_some, if_pos]
    show (!isExpired D now d.expiresAt) = true
    rw [hfresh d hlook]
    rfl

lemma insert (hc : d.collection = name) (hk : Legible d.id)
    (hlook : ∀ id, look' id = if id = d.id then some d else look id) :
    Shows D name since look' (OrderedMap.insert m (utf8 d.id) (entryOf d)) where
  keyed := by
    intro k e he
    rw [OrderedMap.get_insert] at he
    split_ifs at he with hk'
    · cases he
      exact hk'.symm
    · exact h.keyed k e he
  plain := by
    intro k e he
    rw [OrderedMap.get_insert] at he
    split_ifs at he with hk'
    · cases he
      exact hk
    · exact h.plain k e he
  own := by
    intro key d' hd'
    rw [hlook] at hd'
    split_ifs at hd' with hkey
    · cases hd'
      exact ⟨hkey.symm, hc, hkey ▸ hk⟩
    · exact h.own key d' hd'
  agrees := by
    intro key hplain
    have hagrees := h.agrees key hplain
    unfold seenAt KeyValueMap.find at hagrees ⊢
    rw [hlook, OrderedMap.get_insert]
    by_cases hkey : key = d.id
    · rw [if_pos hkey, if_pos (by rw [hkey])]
      rfl
    · rw [if_neg hkey, if_neg fun hbytes => hkey (hplain.eq_of_utf8 hk hbytes)]
      exact hagrees

lemma erase (hk : Legible key₀)
    (hlook : ∀ id, look' id = if id = key₀ then none else look id) :
    Shows D name since look' (OrderedMap.erase m (utf8 key₀)) where
  keyed := by
    intro k e he
    rw [OrderedMap.get_erase] at he
    split_ifs at he with hk'
    exact h.keyed k e he
  plain := by
    intro k e he
    rw [OrderedMap.get_erase] at he
    split_ifs at he with hk'
    exact h.plain k e he
  own := by
    intro key d' hd'
    rw [hlook] at hd'
    split_ifs at hd' with hkey
    exact h.own key d' hd'
  agrees := by
    intro key hplain
    have hagrees := h.agrees key hplain
    unfold seenAt KeyValueMap.find at hagrees ⊢
    rw [hlook, OrderedMap.get_erase]
    by_cases hkey : key = key₀
    · rw [if_pos hkey, if_pos (by rw [hkey])]
      rfl
    · rw [if_neg hkey, if_neg fun hbytes => hkey (hplain.eq_of_utf8 hk hbytes)]
      exact hagrees

lemma expire {now : ℤ} (hnow : since key₀ = now)
    (hexpired : ∀ d, look key₀ = some d → isExpired D now d.expiresAt = true)
    (hlook : ∀ id, look' id = if id = key₀ then none else look id) : Shows D name since look' m where
  keyed := h.keyed
  plain := h.plain
  own := by
    intro key d' hd'
    rw [hlook] at hd'
    split_ifs at hd' with hkey
    exact h.own key d' hd'
  agrees := by
    intro key hplain
    rw [← h.agrees key hplain]
    unfold seenAt
    rw [hlook]
    split_ifs with hkey
    · subst hkey
      cases hd : look key with
      | none => rfl
      | some d =>
        rw [map_some, filter_some, if_neg]
        · rfl
        · show ¬(!isExpired D (since key) d.expiresAt) = true
          rw [hnow, hexpired d hd]
          decide
    · rfl

end

end Shows

end

/-! ## One change -/

def placedDocument (D : Dates) (now : ℤ) (name key : Utf16) (value : JsonObject)
    (previous : Option KeyValueEntry) (expiresAt : Option Utf16) : Document where
  id := key
  collection := name
  data := value
  createdAt := previous.elim (D.clock now).now KeyValueEntry.createdAt
  updatedAt := (D.clock now).now
  version := previous.elim 0 KeyValueEntry.version + 1
  expiresAt := expiresAt

def Expires.expiry (D : Dates) (now : ℤ) (ifAbsent : Bool) (expires : Expires) : Expiry :=
  expiryOf (D.clock now) expires.ttlMs
    (if ifAbsent = true then expires.expiresAt.elim .keep .at'
      else (if expires.expiresAt.isNone && expires.ttlMs.isNone then some none
        else expires.expiresAt.map some).elim .keep fun moment => moment.elim .clear .at')

lemma ofNew_expiry (D : Dates) (now : ℤ) (ifAbsent : Bool) (expires : Expires) :
    (expires.expiry D now ifAbsent).ofNew = KeyValueMap.expiry D now expires := by
  obtain ⟨moment, ttl⟩ := expires
  cases ttl with
  | some ttl =>
    show (Expiry.ttl ((D.clock now).ttl ttl)).ofNew = _
    unfold KeyValueMap.expiry
    dsimp only
    cases (D.clock now).ttl ttl <;> rfl
  | none =>
    cases ifAbsent <;> cases moment <;> rfl

lemma ofCurrent_expiry (D : Dates) (now : ℤ) (expires : Expires) (current : Option Utf16) :
    (expires.expiry D now false).ofCurrent current = KeyValueMap.expiry D now expires := by
  rw [← ofNew_expiry D now false expires]
  obtain ⟨moment, ttl⟩ := expires
  cases ttl <;> cases moment <;> rfl

variable {w : KeyValueWrite}
  {meant : Except DocError (KeyValueMap × KeyValueWritten)} {result : Except DocError Staged}
  {expectedVersion : Option ℕ} {ifAbsent : Bool} {e : Expires}

section

variable {host : Host} {t : TenantId} {o : Objects Record} {name : Utf16}
  {record : StoredCollection} {D : Dates} {now : ℤ} {since : Utf16 → ℤ} {m : KeyValueMap}
  {s : Staged} {key : Utf16} {value : JsonObject} {expires : Expires}

/-- What a transaction does is what a change of the map does: refused alike, or done alike. -/
def Does (D : Dates) (name : Utf16) (now : ℤ) (record : StoredCollection) (s : Staged)
    (m : KeyValueMap) (key : Utf16) (seq : Seq) (expires : Expires)
    (result : Except DocError Staged)
    (meant : Except DocError (KeyValueMap × KeyValueWritten)) : Prop :=
  (∀ fault, meant = .error fault → result = .error fault) ∧
    ∀ m' answer, meant = .ok (m', answer) → ∃ s' d, result = .ok s' ∧
      s'.pending = remember s.pending (some record) d seq ∧ d.id = key ∧ d.collection = name ∧
      KeyValueMap.expiry D now expires = .ok d.expiresAt ∧
      m' = OrderedMap.insert m (utf8 key) (entryOf d) ∧ answer = .entry (entryOf d)

lemma does_put (hr : Standalone record) (previous : Option KeyValueEntry)
    (loaded : Option StoredCollection)
    (hload : loaded.or (loadCollection t o name) = some record)
    (hresult : result = do
      (rulesOf host t name record).takes value
      let expiresAt ← KeyValueMap.expiry D now expires
      documentPut host t o (placedDocument D now name key value previous expiresAt) seq loaded s) :
    Does D name now record s m key seq expires result
      (m.put (rulesOf host t name record) D now key value expires previous) := by
  subst hresult
  unfold KeyValueMap.put
  cases htakes : (rulesOf host t name record).takes value with
  | error fault =>
    refine ⟨fun fault' h => ?_, fun m' answer h => ?_⟩
    · cases h
      rfl
    · cases h
  | ok u =>
    cases hexpiry : KeyValueMap.expiry D now expires with
    | error fault =>
      refine ⟨fun fault' h => ?_, fun m' answer h => ?_⟩
      · cases h
        rfl
      · cases h
    | ok expiresAt =>
      obtain ⟨hrefused, hput⟩ := documentPut_standalone host hr
        (placedDocument D now name key value previous expiresAt) rfl seq s hload
      cases hadmits : (rulesOf host t name record).admits key value with
      | some fault =>
        refine ⟨fun fault' h => ?_, fun m' answer h => ?_⟩
        · cases h
          exact hrefused fault hadmits
        · cases h
      | none =>
        obtain ⟨writes, hput⟩ := hput hadmits
        refine ⟨fun fault' h => ?_, fun m' answer h => ?_⟩
        · cases h
        · cases h
          exact ⟨_, _, hput, rfl, rfl, rfl, hexpiry, rfl, rfl⟩

lemma does_insert (hr : Standalone record) (hload : loadCollection t o name = some record)
    (hnone : documentNamed t o s.pending name key = none) (ifAbsent : Bool) (seq : Seq) :
    Does D name now record s m key seq expires
      (applyInsert host t o (D.clock now).now name key value (expires.expiry D now ifAbsent) seq s)
      (m.put (rulesOf host t name record) D now key value expires none) := by
  refine does_put (o := o) hr none (some record) rfl ?_
  rw [← ofNew_expiry D now ifAbsent]
  have hfree : ∀ (q : Seq) (d : Document), currentNamed t o s.pending name key ≠ some (q, some d) := by
    intro q d h
    unfold documentNamed at hnone
    rw [h] at hnone
    cases hnone
  unfold applyInsert rulesOf
  rw [hload]
  dsimp only
  cases validateDocumentData name value with
  | error fault => rfl
  | ok u =>
    split_ifs with hschema
    · rfl
    · cases hnamed : currentNamed t o s.pending name key with
      | none => rfl
      | some named =>
        obtain ⟨q, found⟩ := named
        cases found with
        | none => rfl
        | some d => exact absurd hnamed (hfree q d)

lemma does_update (hr : Standalone record) (hload : loadCollection t o name = some record)
    {q : Seq} (hnamed : currentNamed t o s.pending name key = some (q, some d))
    (hid : d.id = key) (hc : d.collection = name) (expectedVersion : Option ℕ) :
    Does D name now record s m key q expires
      (applyUpdate host t o (D.clock now).now name key value .replace expectedVersion []
        (expires.expiry D now false) s)
      (do
        KeyValueMap.expectVersion name (entryOf d) expectedVersion
        m.put (rulesOf host t name record) D now key value expires (some (entryOf d))) := by
  have hexpect : expect name d expectedVersion [] =
      KeyValueMap.expectVersion name (entryOf d) expectedVersion := by
    cases expectedVersion <;> rfl
  cases hversion : KeyValueMap.expectVersion name (entryOf d) expectedVersion with
  | error fault =>
    refine ⟨fun fault' h => ?_, fun m' answer h => ?_⟩
    · cases h
      unfold applyUpdate
      rw [hnamed]
      dsimp only
      rw [hexpect, hversion]
      rfl
    · cases h
  | ok u =>
    refine does_put (o := o) hr (some (entryOf d)) none ?_ ?_
    · rw [none_or, hload]
    · unfold applyUpdate rulesOf
      rw [hnamed]
      dsimp only
      have hdata : updatedData .replace d.data value = value := rfl
      rw [hexpect, hversion, ofCurrent_expiry, hdata]
      cases validateDocumentData name value with
      | error fault => rfl
      | ok u =>
        split_ifs with hschema
        · rfl
        · subst hid
          subst hc
          rfl

lemma Does.shows (h : Does D name now record s m key seq expires result meant)
    (hs : Shows D name since (documentNamed t o s.pending name) m) (hk : Legible key)
    {m' : KeyValueMap} {answer : KeyValueWritten} (hmeant : meant = .ok (m', answer)) :
    ∃ s' d, result = .ok s' ∧ currentAt o s'.pending seq = some d ∧ answer = .entry (entryOf d) ∧
      Shows D name since (documentNamed t o s'.pending name) m' ∧
      KeyValueMap.expiry D now expires = .ok d.expiresAt ∧ ∀ id, documentNamed t o s'.pending name id =
        if id = key then some d else documentNamed t o s.pending name id := by
  obtain ⟨s', d, hresult, hpending, rfl, hc, hexpiry, rfl, rfl⟩ := h.2 m' answer hmeant
  have hnamed : ∀ id, documentNamed t o s'.pending name id =
      if id = d.id then some d else documentNamed t o s.pending name id := fun id => by
    rw [hpending, documentNamed_remember hc]
  refine ⟨s', d, hresult, ?_, rfl, hs.insert hc hk hnamed, hexpiry, hnamed⟩
  rw [hpending]
  unfold currentAt remember changed
  dsimp only
  rw [if_pos rfl]

def KeyValueWrite.leavesExpired (D : Dates) (now : ℤ) (expires : Expires) : KeyValueWrite → Bool
  | .set .. => (KeyValueMap.expiry D now expires).toOption.any fun moment => isExpired D now moment
  | .remove .. => false

/-- A change of the store meets nothing expired: it does what the change of the map does. -/
def Follows (host : Host) (t : TenantId) (o : Objects Record) (D : Dates) (name : Utf16) (now : ℤ)
    (s : Staged) (w : KeyValueWrite) (expires : Expires) (op : DocumentWrite)
    (meant : Except DocError (KeyValueMap × KeyValueWritten)) : Prop :=
  (∀ fault, meant = .error fault →
    applyWrite host t o (D.clock now).now s op = .error fault) ∧
  ∀ m' answer, meant = .ok (m', answer) → ∃ s' written,
    applyWrite host t o (D.clock now).now s op = .ok s' ∧
    op.written t o s.pending s'.pending = some written ∧ writtenOf written = answer ∧
    Shows D name (fun _ => now) (documentNamed t o s'.pending name) m' ∧
    ∀ id d, documentNamed t o s'.pending name id = some d → isExpired D now d.expiresAt = true →
      if id = w.key then w.leavesExpired D now expires = true
      else documentNamed t o s.pending name id = some d

lemma leavesExpired_of_expiry {value' : JsonObject} (hw : w = .set key value' expectedVersion ifAbsent e)
    (h : KeyValueMap.expiry D now expires = .ok d.expiresAt)
    (hexpired : isExpired D now d.expiresAt = true) : w.leavesExpired D now expires = true := by
  subst hw
  unfold KeyValueWrite.leavesExpired
  rw [h]
  exact hexpired

lemma follows_of_does (record : StoredCollection) (seq : Seq)
    {op : DocumentWrite} (hw : w = .set key value expectedVersion ifAbsent e)
    (hs : Shows D name (fun _ => now) (documentNamed t o s.pending name) m) (hk : Legible key)
    (h : Does D name now record s m key seq expires (applyWrite host t o (D.clock now).now s op) meant)
    (hwritten : ∀ p d, currentAt o p seq = some d → ∃ written, op.written t o s.pending p = some written ∧
        writtenOf written = .entry (entryOf d)) : Follows host t o D name now s w expires op meant := by
  refine ⟨h.1, fun m' answer hmeant => ?_⟩
  obtain ⟨s', d, hresult, hcurrent, rfl, hshows, hexpiry, hnamed⟩ := h.shows hs hk hmeant
  obtain ⟨written, hwritten, hanswer⟩ := hwritten s'.pending d hcurrent
  refine ⟨s', written, hresult, hwritten, hanswer, hshows, fun id d' hd' hexpired => ?_⟩
  have hkey : w.key = key := by rw [hw]; rfl
  rw [hnamed, ← hkey] at hd'
  split_ifs at hd' ⊢ with hid
  · cases hd'
    exact leavesExpired_of_expiry hw hexpiry hexpired
  · exact hd'

lemma currentNamed_of_documentNamed (h : documentNamed t o p name key = some d) :
    ∃ q, currentNamed t o p name key = some (q, some d) := by
  obtain ⟨⟨q, found⟩, hnamed, hfound⟩ := bind_eq_some_iff.1 h
  cases hfound
  exact ⟨q, hnamed⟩

lemma currentNamed_of_none (h : documentNamed t o p name key = none) :
    currentNamed t o p name key = none ∨ ∃ q, currentNamed t o p name key = some (q, none) := by
  cases hcurrent : currentNamed t o p name key with
  | none => exact Or.inl rfl
  | some named =>
    rw [documentNamed, hcurrent, bind_some] at h
    exact Or.inr ⟨named.1, congrArg some (Prod.ext rfl h)⟩

lemma takes_put (rules : KeyValueRules) (previous : Option KeyValueEntry) :
    (do rules.takes value; m.put rules D now key value expires previous) =
      m.put rules D now key value expires previous := by
  unfold KeyValueMap.put
  cases rules.takes value with
  | error | ok => rfl

section

variable (hr : Standalone record) (hload : loadCollection t o name = some record)
  (hs : Shows D name (fun _ => now) (documentNamed t o s.pending name) m) (hk : Legible key)
  (hfresh : ∀ d, documentNamed t o s.pending name key = some d → isExpired D now d.expiresAt = false)

include hr hload hs hk hfresh

lemma follows_setIfAbsent (expectedVersion : Option ℕ) (e : Expires) (seq : Seq) :
    Follows host t o D name now s (.set key value expectedVersion true e) expires
      (.insert name key value (expires.expiry D now true) seq)
      (m.setIfAbsent (rulesOf host t name record) D name now key value expires) := by
  have hfind := hs.find_eq hk le_rfl hfresh
  unfold KeyValueMap.setIfAbsent
  rw [hfind]
  cases hnamed : documentNamed t o s.pending name key with
  | none =>
    rw [map_none, if_neg (by decide)]
    rw [takes_put]
    refine follows_of_does record seq rfl hs hk (does_insert hr hload hnamed true seq) fun p d hcurrent => ?_
    exact ⟨.inserted d, by rw [DocumentWrite.written, hcurrent]; rfl, rfl⟩
  | some d =>
    obtain ⟨q, hcurrent⟩ := currentNamed_of_documentNamed hnamed
    have hrefused : applyWrite host t o (D.clock now).now s
        (.insert name key value (expires.expiry D now true) seq) =
        ((rulesOf host t name record).takes value >>= fun _ =>
          .error (.documentConflict name key .taken)) := by
      unfold applyWrite applyInsert rulesOf
      dsimp only
      rw [hload, hcurrent]
      cases validateDocumentData name value with
      | error fault => rfl
      | ok u =>
        split_ifs
        · rfl
        · rfl
    have htaken : ((some d).map entryOf).isSome = true := rfl
    refine ⟨fun fault h => ?_, fun m' answer h => ?_⟩
    · rw [hrefused]
      cases htakes : (rulesOf host t name record).takes value with
      | error | ok =>
        rw [htakes] at h
        cases h
        rfl
    · obtain ⟨u, -, h⟩ := bind_eq_ok_iff.1 h
      cases h

lemma follows_set (expectedVersion : Option ℕ) (e : Expires) (seq : Seq) :
    Follows host t o D name now s (.set key value expectedVersion false e) expires
      (.upsert name key value expectedVersion (expires.expiry D now false) seq)
      (m.setOver (rulesOf host t name record) D name now key value expectedVersion expires) := by
  have hfind := hs.find_eq hk le_rfl hfresh
  unfold KeyValueMap.setOver
  rw [hfind]
  cases hnamed : documentNamed t o s.pending name key with
  | none =>
    have hstuck : ∀ expected, applyWrite host t o (D.clock now).now s
        (.upsert name key value (some expected) (expires.expiry D now false) seq) =
        .error (.documentConflict name key (.version expected 0)) := by
      intro expected
      unfold applyWrite
      dsimp only
      obtain hcurrent | ⟨q, hcurrent⟩ := currentNamed_of_none hnamed
      · rw [hcurrent]
      · rw [hcurrent]
    have hinserted : applyWrite host t o (D.clock now).now s
        (.upsert name key value none (expires.expiry D now false) seq) =
        applyInsert host t o (D.clock now).now name key value
          (expires.expiry D now false) seq s := by
      unfold applyWrite
      dsimp only
      obtain hcurrent | ⟨q, hcurrent⟩ := currentNamed_of_none hnamed
      · rw [hcurrent]
      · rw [hcurrent]
    cases expectedVersion with
    | some expected =>
      refine ⟨fun fault h => ?_, fun m' answer h => ?_⟩
      · cases h
        exact hstuck expected
      · cases h
    | none =>
      refine follows_of_does record seq rfl hs hk ?_ fun p d hcurrent => ?_
      · rw [hinserted]
        exact does_insert hr hload hnamed false seq
      · refine ⟨.inserted d, ?_, rfl⟩
        rw [DocumentWrite.written, hnamed, if_neg (by decide), hcurrent]
        rfl
  | some d =>
    obtain ⟨q, hcurrent⟩ := currentNamed_of_documentNamed hnamed
    obtain ⟨hid, hc, -⟩ := hs.own key d hnamed
    refine follows_of_does record q rfl hs hk ?_ fun p d' hcurrent' => ?_
    · have happly : applyWrite host t o (D.clock now).now s
          (.upsert name key value expectedVersion (expires.expiry D now false) seq) =
          applyUpdate host t o (D.clock now).now name key value .replace expectedVersion []
            (expires.expiry D now false) s := by
        unfold applyWrite
        dsimp only
        rw [hcurrent]
      rw [happly]
      exact does_update hr hload hcurrent hid hc expectedVersion
    · refine ⟨.updated d', ?_, rfl⟩
      have hthere : (some d).isSome = true := rfl
      rw [DocumentWrite.written, hnamed, if_pos hthere]
      unfold updatedAnswer
      rw [hcurrent, bind_some, hcurrent']
      rfl

lemma follows_remove (expectedVersion : Option ℕ) :
    Follows host t o D name now s (.remove key expectedVersion) expires (.delete name key expectedVersion [])
      (m.remove D name now key expectedVersion) := by
  have hfind := hs.find_eq hk le_rfl hfresh
  unfold KeyValueMap.remove
  rw [hfind]
  cases hnamed : documentNamed t o s.pending name key with
  | none =>
    have happly : applyWrite host t o (D.clock now).now s (.delete name key expectedVersion []) = .ok s := by
      unfold applyWrite applyDelete
      dsimp only
      obtain hcurrent | ⟨q, hcurrent⟩ := currentNamed_of_none hnamed
      · rw [hcurrent]
      · rw [hcurrent]
    refine ⟨fun fault h => ?_, fun m' answer h => ?_⟩
    · cases h
    · cases h
      refine ⟨s, .deleted name key false, happly, ?_, rfl, hs, fun id d hd hexpired => ?_⟩
      · rw [DocumentWrite.written, hnamed]
        rfl
      · split_ifs with hid
        · have hid : id = key := hid
          rw [hid, hnamed] at hd
          cases hd
        · exact hd
  | some d =>
    obtain ⟨q, hcurrent⟩ := currentNamed_of_documentNamed hnamed
    obtain ⟨hid, hc, -⟩ := hs.own key d hnamed
    have hexpect : expect name d expectedVersion [] =
        KeyValueMap.expectVersion name (entryOf d) expectedVersion := by
      cases expectedVersion <;> rfl
    have happly : applyWrite host t o (D.clock now).now s (.delete name key expectedVersion []) =
        (KeyValueMap.expectVersion name (entryOf d) expectedVersion >>= fun _ => .ok
          { pending := forget (forget s.pending d q) d q, writes := s.writes ++ [.retract q] }) := by
      unfold applyWrite applyDelete
      dsimp only
      rw [hcurrent]
      dsimp only
      rw [hexpect, releaseReferences_standalone hr (by rw [hc, hload])]
      rfl
    rw [map_some]
    dsimp only
    unfold Follows
    rw [happly]
    cases KeyValueMap.expectVersion name (entryOf d) expectedVersion with
    | error fault =>
      refine ⟨fun fault' h => ?_, fun m' answer h => ?_⟩
      · cases h
        rfl
      · cases h
    | ok u =>
      refine ⟨fun fault h => ?_, fun m' answer h => ?_⟩
      · cases h
      · cases h
        have hgone : ∀ id, documentNamed t o (forget (forget s.pending d q) d q) name id =
            if id = key then none else documentNamed t o s.pending name id := by
          intro id
          rw [documentNamed_forget hc, documentNamed_forget hc, hid]
          split_ifs <;> rfl
        refine ⟨_, .deleted name key true, rfl, ?_, rfl, hs.erase hk hgone, fun id d' hd' hexpired => ?_⟩
        · rw [DocumentWrite.written, hnamed]
          rfl
        · have hd' := (hgone id).symm.trans hd'
          have hkey : (KeyValueWrite.remove key expectedVersion).key = key := rfl
          rw [hkey]
          split_ifs at hd' ⊢ with hid'
          exact hd'

end

lemma applyWrite_follows (expires : Expires) (hr : Standalone record) (hload : loadCollection t o name = some record)
    (hs : Shows D name (fun _ => now) (documentNamed t o s.pending name) m)
    (hk : Legible w.key) (hfresh : ∀ d, documentNamed t o s.pending name w.key = some d →
      isExpired D now d.expiresAt = false) (seq : Seq) : Follows host t o D name now s w expires
      ((w.operation name expires).change (D.clock now) w.key seq)
      (m.change (rulesOf host t name record) D name now expires w) := by
  cases w with
  | set key value expectedVersion ifAbsent e =>
    cases ifAbsent with
    | true => exact follows_setIfAbsent hr hload hs hk hfresh expectedVersion e seq
    | false => exact follows_set hr hload hs hk hfresh expectedVersion e seq
  | remove key expectedVersion => exact follows_remove hr hload hs hk hfresh expectedVersion

end

end Zelavis.Db
