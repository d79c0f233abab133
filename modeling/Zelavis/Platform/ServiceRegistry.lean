import Zelavis.Db.Validation
import Zelavis.Platform.SystemStore

/-!
# The service registry

`settings.ts` `mutateServiceRegistry` over the System Store and over file storage: a call reads the stored
document, applies its mutation to the entries, reads the document again, and writes it back with what it did
not know of it, where it is still the one that was read; where it is not, the call starts over. Any number of
calls go on beside each other.
-/

namespace Zelavis.Platform.ServiceRegistry

open Lib Turns Edge Db

/-! ## Documents -/

/-- Source: `shared.ts` `readBodyObject`. -/
def readBodyObject : Json → JsonObject
  | .object members => members
  | _ => []

def isOneOf (input : JsonObject) (name : String) (texts : List String) : Bool :=
  (ownMember input (utf16 name)).all fun v => v.asString?.any (· ∈ texts.map utf16)

/-- Whether a member is a whole number that is not negative, where there is one. -/
def isOrder (input : JsonObject) : Bool :=
  (ownMember input (utf16 "order")).all fun v => match v with
    | .scalar (.number n) => n.isIntegerFrom 0
    | _ => false

/-- The entry of a service; nothing where it throws. Source: `parseStoredServiceRegistryStateEntry`. -/
def parseStoredServiceRegistryStateEntry (value : Json) : Option JsonObject :=
  let input := readBodyObject value
  let name := trim (((ownMember input (utf16 "name")).bind Json.asString?).getD [])
  let entry := setMember input (utf16 "name") (.string name)
  let specifier := ownMember input (utf16 "specifier")
  if name = [] then none
  else if specifier.any fun v => v.asString?.all (trim · = []) then none
  else if !isOneOf input "status" ["installed", "available"] then none
  else if !isOneOf input "source" ["official", "community"] then none
  else if !isOrder input then none
  else some ((specifier.bind Json.asString?).elim entry fun s =>
    setMember entry (utf16 "specifier") (.string (trim s)))

/-- The entries of a document; nothing where it throws. Source: `parseStoredServiceRegistryState`. -/
def parseStoredServiceRegistryState (value : Json) : Option (List JsonObject) :=
  match ownMember (readBodyObject value) (utf16 "services") with
  | some (.array items) => (items.mapM parseStoredServiceRegistryStateEntry).filter fun entries =>
      (entries.map (ownMember · (utf16 "name"))).Nodup
  | _ => none

/-- A document with its entries, and what it held besides; nothing where it throws. Source: `registryDocument`. -/
def registryDocument (value : Option Json) (entries : List JsonObject) (nonce : Utf16) : Option JsonObject :=
  (parseStoredServiceRegistryState (.object [(utf16 "services", .array (entries.map .object))])).map
    fun services =>
      let held := value.elim [] readBodyObject
      let held := setMember held (utf16 "kind") (.string (utf16 "service-registry"))
      let held := setMember held (utf16 "revision") (.string nonce)
      setMember held (utf16 "services") (.array (services.map .object))

/-! ## What is stored -/

/-- What a step finds outside: whether its call of the store is answered, a reading of the clock (or what else
an etag is made of), and the number that is drawn. -/
structure Event where
  available : Bool
  now : ℕ
  nonce : Utf16

/-- What a conditional write comes to. -/
inductive Written (F : Type) where
  | threw
  | refused
  | stored (new : F)
  | unknown (new : F)

/-- How a document is stored: its revision, the value that is read of it, if it can be, whether it is checked
again before it is replaced, and its conditional write over what was read. -/
structure Backend (F R : Type) where
  revision : F → R
  decode : F → Option Json
  rechecks : Bool
  put : Event → Option F → Option F → JsonObject → Written F

/-- A value that JSON leaves as it is. Source: `shared.ts` `toSystemStoreValue`. -/
abbrev StoredValue := { value : Json // reread value = value }

/-- Source: `shared.ts` `toSystemStoreValue`, its `JSON.parse` of what `JSON.stringify` writes. -/
def toSystemStoreValue (doc : JsonObject) : StoredValue := ⟨reread (.object doc), reread_reread _⟩

/-- The revision is the moment of the record and its value. Source: `createSystemStoreServiceRegistryStore`. -/
def systemStore : Backend (Versioned StoredValue) (ℕ × StoredValue) where
  revision record := (record.updatedAt, record.value)
  decode record := some record.value
  rechecks := false
  put e stored current doc :=
    if isJsonValue (some (toSystemStoreValue doc).val) then
      (match current with
        | none => setIfAbsent e.now stored (toSystemStoreValue doc)
        | some record => SystemStore.compareAndSetRecord e.now stored record.updatedAt (toSystemStoreValue doc)
            (some record.value)).elim .refused .stored
    else .threw

/-- A file: what its text is read as, where it is JSON, and what else its etag is made of. Source:
`storage-types.ts` `ZelavisFileStorageObject`. -/
structure File where
  body : Option Json
  version : ℕ
  deriving DecidableEq

variable {E : Type} [DecidableEq E]

/-- The revision is the etag. Source: `createFileStorageServiceRegistryStore`. -/
def fileStorage (etag : Option Json → ℕ → E) : Backend File E where
  revision file := etag file.body file.version
  decode := File.body
  rechecks := true
  put e stored current doc :=
    let new : File := ⟨some (reread (.object doc)), e.now⟩
    if (stored.map fun file => etag file.body file.version) = current.map fun file => etag file.body file.version then
      if current.any fun file => etag file.body file.version = etag new.body new.version then .unknown new
      else .stored new
    else .refused

variable {F R : Type}

/-- The entries of what is stored; nothing where it throws. Source: `readSnapshot`. -/
def Backend.entries (b : Backend F R) (stored : Option F) : Option (List JsonObject) :=
  stored.elim (some []) fun file => (b.decode file).bind parseStoredServiceRegistryState

/-- What is stored, and the numbers that were drawn. -/
structure Shared (F : Type) where
  stored : Option F
  drawn : List Utf16

/-! ## The steps of a call -/

/-- Source: `REGISTRY_MUTATION_ATTEMPTS`. -/
def registryMutationAttempts : ℕ := 8

/-- Where a call is. -/
inductive Phase (F R : Type) where
  | reading (attempt : ℕ)
  | applying (attempt : ℕ) (revision : Option R) (entries : List JsonObject)
  | comparing (attempt : ℕ) (revision : Option R) (entries : List JsonObject)
  | writing (attempt : ℕ) (current : Option F) (doc : JsonObject) (entries : List JsonObject)
  | accepted (entries : List JsonObject)
  | contended
  | unavailable

/-- A call, with its mutation, which may throw. -/
structure Call (F R : Type) where
  mutation : List JsonObject → Option (List JsonObject)
  phase : Phase F R

/-- Somebody else was first. Source: `mutateServiceRegistryEffect`, its `Effect.retry`. -/
def Phase.again (attempt : ℕ) : Phase F R :=
  if attempt + 1 < registryMutationAttempts then .reading (attempt + 1) else .contended

variable [DecidableEq R] (b : Backend F R)

def Backend.checks (stored : Option F) : Bool :=
  stored.all fun file => (b.decode file).any fun value =>
    !b.rechecks || (parseStoredServiceRegistryState value).isSome

/-- The next step of a call; no number is drawn twice. Source: `mutateServiceRegistryEffect`,
and the `readSnapshot` and `compareAndSet` of the two stores. -/
def advance (e : Event) (s : Shared F) (c : Call F R) : Option (Shared F × Call F R) :=
  match c.phase with
  | .reading attempt =>
    if !e.available then some (s, { c with phase := .unavailable })
    else match b.entries s.stored with
      | none => some (s, { c with phase := .unavailable })
      | some entries => some (s, { c with phase := .applying attempt (s.stored.map b.revision) entries })
  | .applying attempt revision entries =>
    match c.mutation entries with
      | none => some (s, { c with phase := .unavailable })
      | some entries => some (s, { c with phase := .comparing attempt revision entries })
  | .comparing attempt revision entries =>
    if !e.available then some (s, { c with phase := .unavailable })
    else if s.stored.map b.revision ≠ revision then some (s, { c with phase := .again attempt })
    else if !b.checks s.stored then some (s, { c with phase := .unavailable })
    else match registryDocument (s.stored.bind b.decode) entries e.nonce with
      | none => some (s, { c with phase := .unavailable })
      | some doc =>
        if e.nonce ∈ s.drawn then none
        else some ({ s with drawn := e.nonce :: s.drawn }, { c with phase := .writing attempt s.stored doc entries })
  | .writing attempt current doc entries =>
    if !e.available then some (s, { c with phase := .unavailable })
    else some (match b.put e s.stored current doc with
      | .threw => (s, { c with phase := .unavailable })
      | .refused => (s, { c with phase := .again attempt })
      | .stored new => ({ s with stored := some new }, { c with phase := .accepted entries })
      | .unknown new => ({ s with stored := some new }, { c with phase := .unavailable }))
  | .accepted _ => none
  | .contended => none
  | .unavailable => none

def Call.isStart (c : Call F R) : Bool := match c.phase with
  | .reading attempt => attempt = 0
  | _ => false

def mutations : Rules (Shared F) (Call F R) Event Empty where
  begins := Call.isStart
  moves := advance b
  passes event _ := event.elim

def Backend.field (stored : Option F) (name : Utf16) : Option Json :=
  (stored.bind b.decode).bind fun value => ownMember (readBodyObject value) name

end Zelavis.Platform.ServiceRegistry
