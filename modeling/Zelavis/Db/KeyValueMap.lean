import Zelavis.Db.KeyValue

/-!
# A map with expiry

What a key-value namespace is for, apart from how it is stored: entries by key, in key order, of
which those at or past their expiry are absent.
-/

namespace Zelavis.Db

open Lib

/-- What a collection asks of a value. -/
structure KeyValueRules where
  valid : JsonObject → Except DocError Unit
  takes : JsonObject → Except DocError Unit
  admits : Utf16 → JsonObject → Option DocError

/-- The entries of a namespace, by the bytes of their keys. -/
abbrev KeyValueMap := OrderedMap Bytes KeyValueEntry

variable {m : KeyValueMap}

namespace KeyValueMap

def Keyed (m : KeyValueMap) : Prop := ∀ k e, m.get k = some e → utf8 e.key = k

section

variable (rules : KeyValueRules) (D : Dates) (name : Utf16)

def find (now : ℤ) (m : KeyValueMap) (key : Utf16) : Option KeyValueEntry :=
  (m.get (utf8 key)).filter fun e => !isExpired D now e.expiresAt

def expiry (now : ℤ) (expires : Expires) : Except DocError (Option Utf16) :=
  match expires.ttlMs with
  | none => .ok expires.expiresAt
  | some ttl =>
    match (D.clock now).ttl ttl with
    | none => .error .defect
    | some moment => .ok (some moment)

def put (now : ℤ) (m : KeyValueMap) (key : Utf16) (value : JsonObject) (expires : Expires)
    (previous : Option KeyValueEntry) : Except DocError (KeyValueMap × KeyValueWritten) := do
  rules.takes value
  let expiresAt ← expiry D now expires
  let entry : KeyValueEntry := {
    key, value, version := previous.elim 0 KeyValueEntry.version + 1
    createdAt := previous.elim (D.clock now).now KeyValueEntry.createdAt
    updatedAt := (D.clock now).now, expiresAt }
  match rules.admits key value with
  | some fault => .error fault
  | none => .ok (m.insert (utf8 key) entry, .entry entry)

def expectVersion (e : KeyValueEntry) : Option ℕ → Except DocError Unit
  | none => .ok ()
  | some expected =>
    if expected ≠ e.version then
      .error (.documentConflict name e.key (.version expected e.version))
    else .ok ()

def setIfAbsent (now : ℤ) (m : KeyValueMap) (key : Utf16) (value : JsonObject)
    (expires : Expires) : Except DocError (KeyValueMap × KeyValueWritten) := do
  rules.takes value
  if (m.find D now key).isSome then .error (.documentConflict name key .taken)
  put rules D now m key value expires none

def setOver (now : ℤ) (m : KeyValueMap) (key : Utf16) (value : JsonObject)
    (expectedVersion : Option ℕ) (expires : Expires) :
    Except DocError (KeyValueMap × KeyValueWritten) :=
  match m.find D now key with
  | some e => do
    expectVersion name e expectedVersion
    put rules D now m key value expires (some e)
  | none =>
    match expectedVersion with
    | some expected => .error (.documentConflict name key (.version expected 0))
    | none => put rules D now m key value expires none

def remove (now : ℤ) (m : KeyValueMap) (key : Utf16) (expectedVersion : Option ℕ) :
    Except DocError (KeyValueMap × KeyValueWritten) :=
  match m.find D now key with
  | none => .ok (m, .deleted key false)
  | some e => do
    expectVersion name e expectedVersion
    return (m.erase (utf8 key), .deleted key true)

def change (now : ℤ) (m : KeyValueMap) (expires : Expires) :
    KeyValueWrite → Except DocError (KeyValueMap × KeyValueWritten)
  | .set key value expectedVersion ifAbsent _ =>
    if ifAbsent then setIfAbsent rules D name now m key value expires
    else setOver rules D name now m key value expectedVersion expires
  | .remove key expectedVersion => remove D name now m key expectedVersion

def changes (now : ℤ) : KeyValueMap → List (KeyValueWrite × Expires) →
    Except DocError (KeyValueMap × List KeyValueWritten)
  | m, [] => .ok (m, [])
  | m, w :: ws => do
    let after ← change rules D name now m w.2 w.1
    let rest ← changes now after.1 ws
    return (rest.1, after.2 :: rest.2)

def validate (rules : KeyValueRules) : KeyValueWrite → Except DocError Unit
  | .set _ value .. => rules.valid value
  | .remove .. => .ok ()

/-- A batch of 1 to `MAX_BATCH` changes. -/
def write (now : ℤ) (m : KeyValueMap) (operations : List KeyValueWrite) :
    Except KeyValueError (KeyValueMap × List KeyValueWritten) :=
  match operations.mapM fun w => (w.expires D).map fun expires => (w, expires) with
  | .error fault => .error fault
  | .ok ws =>
    Except.mapError .refused do
      if ws.length = 0 ∨ MAX_BATCH < ws.length then .error .defect
      ws.forM fun w => validate rules w.1
      changes rules D name now m ws

/-! ## Reading in order -/

def covers (options : KeyValueScanOptions) (e : KeyValueEntry) : Bool :=
  (options.pre.all fun p => (utf8 p).isPrefixOf (utf8 e.key)) &&
    (options.lower.all fun l => utf8 l ≤ utf8 e.key) &&
    options.upper.all fun u => utf8 e.key < utf8 u

def inRange (options : KeyValueScanOptions) (m : KeyValueMap) : List KeyValueEntry :=
  (m.entries.map Prod.snd).filter (covers options)

def lively (visits : Utf16 → ℤ) (e : KeyValueEntry) : Bool := !isExpired D (visits e.key) e.expiresAt

def upKey (e : KeyValueEntry) : Bytes := utf8 e.key

def downKey (e : KeyValueEntry) : Bytesᵒᵈ := OrderDual.toDual (utf8 e.key)

/-- A page of the entries in a range, and the last of it if there are more. -/
def pageOf (visits : Utf16 → ℤ) (options : KeyValueScanOptions) (limit : ℕ)
    (after : Option Utf16) (m : KeyValueMap) : List KeyValueEntry × Option KeyValueEntry :=
  if options.desc then
    Paging.page downKey (lively D visits) limit (after.map fun k => OrderDual.toDual (utf8 k))
      (inRange options m).reverse
  else
    Paging.page upKey (lively D visits) limit (after.map utf8) (inRange options m)

def scan (visits : Utf16 → ℤ) (options : KeyValueScanOptions) (m : KeyValueMap) :
    Except KeyValueError (List KeyValueEntry × Option CursorPayload) :=
  match pageLimit options.limit with
  | .error fault => .error fault
  | .ok limit =>
    if (options.after.any fun cursor => !sameScan cursor name options) = true then
      .error (.cursorMismatch (utf16 "the cursor belongs to a different namespace or range"))
    else
      let page := pageOf D visits options limit (options.after.map CursorPayload.key) m
      .ok (page.1, page.2.map fun e => options.cursor name e.key)

def size (visits : ℕ → Utf16 → ℤ) (m : KeyValueMap) : ℕ :=
  ((Paging.follow upKey (inRange {} m) 1000 none
    ((List.range (m.entries.length + 1)).map fun place => lively D (visits place))).getD []).length

/-- What a call does to the map, and what it answers; one that fails does nothing. -/
def run (moments : Moments) (m : KeyValueMap) :
    KeyValueCall → KeyValueMap × Except KeyValueError KeyValueAnswer
  | .get key => (m, .ok (.entry (m.find D moments.now key)))
  | .has key => (m, .ok (.flag (m.find D moments.now key).isSome))
  | .set key value expectedVersion ifAbsent expires =>
    match m.write rules D name moments.now [.set key value expectedVersion ifAbsent expires] with
    | .error fault => (m, .error fault)
    | .ok (after, results) =>
      match results.head? with
      | some (.entry entry) => (after, .ok (.written entry))
      | _ => (after, .error (.refused .defect))
  | .remove key expectedVersion =>
    match m.remove D name moments.now key expectedVersion with
    | .error fault => (m, .error (.refused fault))
    | .ok (after, .deleted _ found) => (after, .ok (.flag found))
    | .ok (after, _) => (after, .error (.refused .defect))
  | .write operations =>
    match m.write rules D name moments.now operations with
    | .error fault => (m, .error fault)
    | .ok (after, results) => (after, .ok (.writes results))
  | .scan options => (m, (m.scan D name (moments.visits 0) options).map fun p => .page p.1 p.2)
  | .size => (m, .ok (.count (m.size D moments.visits)))

end

lemma changes_remove (rules : KeyValueRules) (D : Dates) (name : Utf16) (now : ℤ) (m : KeyValueMap)
    (key : Utf16) (expectedVersion : Option ℕ) (expires : Expires) :
    m.changes rules D name now [(.remove key expectedVersion, expires)] =
      (m.remove D name now key expectedVersion).map fun after => (after.1, [after.2]) := by
  unfold changes change
  dsimp only
  cases m.remove D name now key expectedVersion <;> rfl

/-! ## In order -/

lemma inRange_sorted (hm : m.Keyed) (options : KeyValueScanOptions) :
    Paging.Sorted upKey (inRange options m) := by
  refine Paging.Sorted.filter ?_ _
  refine List.pairwise_map.2 (m.sorted.imp_of_mem fun {a b} ha hb hlt => ?_)
  have hkey : ∀ e ∈ m.entries, upKey e.2 = e.1 := fun e he => hm e.1 e.2 (OrderedMap.mem_entries.1 he)
  rw [hkey a ha, hkey b hb]
  exact hlt

lemma inRange_reverse_sorted (hm : m.Keyed) (options : KeyValueScanOptions) :
    Paging.Sorted downKey (inRange options m).reverse :=
  List.pairwise_reverse.2 (inRange_sorted hm options)

lemma mem_inRange (hm : m.Keyed) {options : KeyValueScanOptions} {e : KeyValueEntry} :
    e ∈ inRange options m ↔ m.get (utf8 e.key) = some e ∧ covers options e = true := by
  rw [inRange, List.mem_filter, List.mem_map]
  refine and_congr_left fun _ => ⟨?_, fun h => ⟨(_, e), OrderedMap.mem_entries.2 h, rfl⟩⟩
  rintro ⟨⟨k, e'⟩, hmem, rfl⟩
  have hget := OrderedMap.mem_entries.1 hmem
  rw [hm k e' hget]
  exact hget

end KeyValueMap

end Zelavis.Db
