import Zelavis.Db.JsonText

/-!
# Checking JSON values

`json-validation.ts`: the checks a stored record passes when it is read back.
-/

namespace Zelavis.Db

open Lib

/-! ## Validators -/

/-- Source: `JsonValidator`. -/
abbrev Validator := Option Json → Bool

def isRecord : Validator
  | some (.object _) => true
  | _ => false

def isString : Validator
  | some (.scalar (.string _)) => true
  | _ => false

def isBoolean : Validator
  | some (.scalar (.boolean _)) => true
  | _ => false

def isNumberWhere (p : JsNumber → Bool) : Validator
  | some (.scalar (.number n)) => p n
  | _ => false

def isFiniteNumber : Validator := isNumberWhere JsNumber.isFinite

def isPositiveInteger : Validator := isNumberWhere fun n =>
  n.isSafeInteger && n.integer?.any fun z => 0 < z

def isNonNegativeInteger : Validator := isNumberWhere fun n =>
  n.isSafeInteger && n.integer?.any fun z => 0 ≤ z

/-- A string that `Date.parse` reads. Source: `isTimestamp`. -/
def isTimestamp (isDate : Utf16 → Bool) : Validator
  | some (.scalar (.string s)) => isDate s
  | _ => false

def isUnknown : Validator := fun _ => true

def optional (check : Validator) : Validator
  | none => true
  | some v => check (some v)

def arrayOf (check : Validator) : Validator
  | some (.array items) => items.all fun v => check (some v)
  | _ => false

def recordOf (check : Validator) : Validator
  | some (.object members) => members.all fun m => check (some m.2)
  | _ => false

/-- One of some strings. Source: `literal`. -/
def literal (values : List Utf16) : Validator
  | some (.scalar (.string s)) => values.contains s
  | _ => false

/-- All declared fields pass their checks; others survive. Source: `objectFields`. -/
def objectFields (checks : List (Utf16 × Validator)) : Validator
  | some (.object members) => checks.all fun c => c.2 (ownMember members c.1)
  | _ => false

/-! ## Any JSON value -/

/-- How many values `isJsonValue` visits at most. -/
def MAX_VISITED : ℕ := 1000000

/-- `Object.values`. -/
def objectValues (members : JsonObject) : List Json := members.map Prod.snd

def pushed (children pending : List Json) : List Json := children.reverse ++ pending

@[simp] lemma sizeItems_pushed (children pending : List Json) :
    Json.sizeItems (pushed children pending) = Json.sizeItems children + Json.sizeItems pending := by
  rw [pushed, Json.sizeItems_append, Json.sizeItems_reverse]

/-- The loop of `isJsonValue`: what was visited, and what is pending, the last pushed first. -/
def isJsonLoop (visited : ℕ) : List Json → Bool
  | [] => true
  | current :: pending =>
    if MAX_VISITED < visited + 1 then false
    else
      match current with
      | .scalar (.number n) => n.isFinite && isJsonLoop (visited + 1) pending
      | .scalar _ => isJsonLoop (visited + 1) pending
      | .array items =>
        if MAX_VISITED < items.length + (visited + 1) + pending.length then false
        else isJsonLoop (visited + 1) (pushed items pending)
      | .object members =>
        if MAX_VISITED < members.length + (visited + 1) + pending.length then false
        else isJsonLoop (visited + 1) (pushed (objectValues members) pending)
termination_by stack => Json.sizeItems stack
decreasing_by
  · simp [Json.sizeItems, Json.size]
  · simp [Json.sizeItems, Json.size]
  · simp only [Json.sizeItems, Json.size, sizeItems_pushed]
    omega
  · simp only [Json.sizeItems, Json.size, sizeItems_pushed, Json.sizeMembers_eq, objectValues]
    omega

def isJsonValue : Validator
  | none => false
  | some v => isJsonLoop 0 [v]

def isJsonObject : Validator := fun v => isRecord v && isJsonValue v

/-! ## Objects by their fields -/

def objectOf (fields : List (Utf16 × Option Json)) : JsonObject :=
  fields.filterMap fun f => f.2.map fun v => (f.1, v)

variable {fields : List (Utf16 × Option Json)} {name : Utf16}

lemma ownMember_objectOf_of_notMem
    (h : name ∉ fields.map Prod.fst) : ownMember (objectOf fields) name = none := by
  induction fields with
  | nil => rfl
  | cons f rest ih =>
    obtain ⟨k, v⟩ := f
    rw [List.map_cons, List.mem_cons, not_or] at h
    cases v with
    | none => exact ih h.2
    | some v =>
      show (if k = name then some v else ownMember (objectOf rest) name) = none
      rw [if_neg (Ne.symm h.1)]
      exact ih h.2

lemma ownMember_objectOf (hnodup : (fields.map Prod.fst).Nodup) {v : Option Json}
    (h : (name, v) ∈ fields) : ownMember (objectOf fields) name = v := by
  induction fields with
  | nil => exact absurd h List.not_mem_nil
  | cons f rest ih =>
    obtain ⟨k, x⟩ := f
    rw [List.map_cons, List.nodup_cons] at hnodup
    rcases List.mem_cons.1 h with heq | hmem
    · obtain ⟨rfl, rfl⟩ := Prod.mk.inj heq
      cases v with
      | none =>
        show ownMember (objectOf rest) name = none
        exact ownMember_objectOf_of_notMem hnodup.1
      | some v => exact if_pos rfl
    · have hne : k ≠ name := by
        rintro rfl
        exact hnodup.1 (List.mem_map.2 ⟨(k, v), hmem, rfl⟩)
      cases x with
      | none => exact ih hnodup.2 hmem
      | some x =>
        show (if k = name then some x else ownMember (objectOf rest) name) = v
        rw [if_neg hne]
        exact ih hnodup.2 hmem

/-! ## Text written and read back -/

def DECODE_LIMIT : ℕ := 64 * 1024 * 1024

/-- Whether a value written as text is read back under a check. Source: `parseJson`, of `JSON.stringify`. -/
def readsBack (digits : JsNumber → Utf16) (check : Validator) (v : Json) : Bool :=
  (stringify digits v).length ≤ DECODE_LIMIT && check (some (reread v))

end Zelavis.Db
