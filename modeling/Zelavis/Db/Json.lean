import Zelavis.Db.Model

/-!
# Document data

`json.ts`, and the reading and writing of dotted paths in `documents.ts`.
-/

namespace Zelavis.Db

open Lib

/-- Source: `json.ts` `Json`. -/
inductive Json where
  | scalar (v : OrderedScalar)
  | array (items : List Json)
  | object (members : List (Utf16 × Json))

/-- Source: `json.ts` `JsonObject`. -/
abbrev JsonObject := List (Utf16 × Json)

namespace Json

/-- A string value. -/
abbrev string (s : Utf16) : Json := .scalar (.string s)

/-- `null`. -/
abbrev null : Json := .scalar .null

def asString? : Json → Option Utf16
  | .scalar (.string s) => some s
  | _ => none

def isNull : Json → Bool
  | .scalar .null => true
  | _ => false

end Json

/-! ## Whether values are the same -/

mutual

def Json.same : Json → Json → Bool
  | .scalar v, .scalar w => v = w
  | .array items, .array items' => Json.sameItems items items'
  | .object members, .object members' => Json.sameMembers members members'
  | _, _ => false

def Json.sameItems : List Json → List Json → Bool
  | [], [] => true
  | v :: rest, w :: rest' => Json.same v w && Json.sameItems rest rest'
  | _, _ => false

def Json.sameMembers : List (Utf16 × Json) → List (Utf16 × Json) → Bool
  | [], [] => true
  | (k, v) :: rest, (k', w) :: rest' => k = k' && Json.same v w && Json.sameMembers rest rest'
  | _, _ => false

end

mutual

lemma Json.same_iff : ∀ v w : Json, Json.same v w = true ↔ v = w
  | .scalar v, .scalar w => by simp [Json.same]
  | .array items, .array items' => by simp [Json.same, Json.sameItems_iff items items']
  | .object members, .object members' => by simp [Json.same, Json.sameMembers_iff members members']
  | .scalar _, .array _ => by simp [Json.same]
  | .scalar _, .object _ => by simp [Json.same]
  | .array _, .scalar _ => by simp [Json.same]
  | .array _, .object _ => by simp [Json.same]
  | .object _, .scalar _ => by simp [Json.same]
  | .object _, .array _ => by simp [Json.same]

lemma Json.sameItems_iff : ∀ items items' : List Json, Json.sameItems items items' = true ↔ items = items'
  | [], [] => by simp [Json.sameItems]
  | [], _ :: _ => by simp [Json.sameItems]
  | _ :: _, [] => by simp [Json.sameItems]
  | v :: rest, w :: rest' => by
    simp [Json.sameItems, Json.same_iff v w, Json.sameItems_iff rest rest']

lemma Json.sameMembers_iff : ∀ members members' : List (Utf16 × Json),
    Json.sameMembers members members' = true ↔ members = members'
  | [], [] => by simp [Json.sameMembers]
  | [], _ :: _ => by simp [Json.sameMembers]
  | _ :: _, [] => by simp [Json.sameMembers]
  | (k, v) :: rest, (k', w) :: rest' => by
    simp [Json.sameMembers, Json.same_iff v w, Json.sameMembers_iff rest rest', and_assoc]

end

instance instDecidableEqJson : DecidableEq Json := fun v w => decidable_of_iff _ (Json.same_iff v w)

/-! ## Members -/

def ownMember : JsonObject → Utf16 → Option Json
  | [], _ => none
  | (k, v) :: rest, name => if k = name then some v else ownMember rest name

def setMember : JsonObject → Utf16 → Json → JsonObject
  | [], name, value => [(name, value)]
  | (k, v) :: rest, name, value =>
    if k = name then (k, value) :: rest else (k, v) :: setMember rest name value

/-- `{ ...a, ...b }`. -/
def spread (a b : JsonObject) : JsonObject := b.foldl (fun data m => setMember data m.1 m.2) a

lemma ownMember_setMember (data : JsonObject) (name name' : Utf16) (value : Json) :
    ownMember (setMember data name value) name' =
      if name = name' then some value else ownMember data name' := by
  induction data with
  | nil => simp [setMember, ownMember]
  | cons m data ih =>
    obtain ⟨k, v⟩ := m
    unfold setMember
    split_ifs with hk hname hname
    · simp [ownMember, hk, hname]
    · simp [ownMember, hk, hname]
    · subst hname
      simp [ownMember, hk, ih]
    · simp [ownMember, ih, hname]

/-! ## Paths -/

def DOT : CodeUnit := 0x2E

/-- The names `Object.prototype` has a function under. -/
def prototypeMethods : List Utf16 :=
  ["constructor", "__defineGetter__", "__defineSetter__", "hasOwnProperty", "__lookupGetter__",
    "__lookupSetter__", "isPrototypeOf", "propertyIsEnumerable", "toString", "valueOf",
    "toLocaleString"].map utf16

/-- Where a path has arrived. -/
inductive Cursor where
  | value (v : Json)
  /-- `Object.prototype` itself. -/
  | prototype
  | method

def inherited (name : Utf16) : Option Cursor :=
  if name = utf16 "__proto__" then some .prototype
  else if name ∈ prototypeMethods then some .method
  else none

def Cursor.step : Cursor → Utf16 → Option Cursor
  | .value (.object members), name =>
    match ownMember members name with
    | some v => some (.value v)
    | none => inherited name
  | .prototype, name =>
    if name = utf16 "__proto__" then some (.value .null)
    else if name ∈ prototypeMethods then some .method
    else none
  | _, _ => none

/-- What a path arrived at, as a value: what is inherited is neither a scalar nor an array. -/
def Cursor.toJson : Cursor → Json
  | .value v => v
  | .prototype => .object []
  | .method => .object []

/-- The value at a dotted path. Source: `documents.ts` `readPath`. -/
def readPath (data : JsonObject) (path : Utf16) : Option Json :=
  ((path.splitOn DOT).foldlM Cursor.step (.value (.object data))).map Cursor.toJson

def innerOf (data : JsonObject) (name : Utf16) : JsonObject :=
  match ownMember data name with
  | some (.object members) => members
  | _ => []

def setSegments (data : JsonObject) : List Utf16 → Json → JsonObject
  | [], _ => data
  | [head], value => setMember data head value
  | head :: rest, value => setMember data head (.object (setSegments (innerOf data head) rest value))

/-- The data with one dotted path set. Source: `documents.ts` `setPath`. -/
def setPath (data : JsonObject) (path : Utf16) (value : Json) : JsonObject :=
  setSegments data (path.splitOn DOT) value

/-! ## Values -/

/-- A value as the ordered lens sees it. Source: `documents.ts` `orderable`. -/
def orderable : Option Json → Option OrderedScalar
  | some (.scalar v) => some v
  | _ => none

/-- Whether a field has a value: not null, absent, an object or an array. Source: `documents.ts`
`hasValue`. -/
def hasValue (value : Option Json) : Bool :=
  match orderable value with
  | some .null => false
  | some _ => true
  | none => false

/-! ## Whole numbers -/

namespace JsNumber

def exponent (n : JsNumber) : ℕ := n.bits.val / 0x10000000000000 % 0x800

/-- The fraction with its leading bit, as a whole number of units in the last place. -/
def significand (n : JsNumber) : ℕ :=
  n.bits.val % 0x10000000000000 + if n.exponent = 0 then 0 else 0x10000000000000

/-- The magnitude, if it is a whole number: `significand * 2 ^ (exponent - 1075)`. -/
def magnitude? (n : JsNumber) : Option ℕ :=
  if n.isFinite = false then none
  else if 1075 ≤ n.exponent then some (n.significand * 2 ^ (n.exponent - 1075))
  else if n.significand = 0 then some 0
  else if n.exponent = 0 then none
  else if n.significand % 2 ^ (1075 - n.exponent) = 0 then
    some (n.significand / 2 ^ (1075 - n.exponent))
  else none

def integer? (n : JsNumber) : Option ℤ :=
  n.magnitude?.map fun m => if n.bits.val < 0x8000000000000000 then m else -m

/-- Source: `Number.isInteger`. -/
def isInteger (n : JsNumber) : Bool := n.integer?.isSome

def isIntegerFrom (n : JsNumber) (low : ℤ) : Bool := n.integer?.any fun z => low ≤ z

/-- Source: `Number.isSafeInteger`. -/
def isSafeInteger (n : JsNumber) : Bool := n.integer?.any fun z => z.natAbs ≤ 9007199254740991

end JsNumber

end Zelavis.Db
