import Zelavis.Lib.Ascending
import Zelavis.Lib.Decoding
import Zelavis.Lib.OrderedMap
import Zelavis.Db.Query

/-!
# A store as the layers above it read it

`store.ts` `ObjectStoreApi`: objects under dense identifiers, each found by the identity it was
given or by a query over its manifest. What an object's bytes decode to is the type parameter.
-/

namespace Zelavis.Db

open Lib

/-! ## Queries, computed -/

instance OrderedScalar.decidableSame : DecidableRel OrderedScalar.same
  | .number a, .number b => inferInstanceAs (Decidable (a.normal = b.normal))
  | .number a, .null => inferInstanceAs (Decidable (OrderedScalar.number a = .null))
  | .number a, .boolean b => inferInstanceAs (Decidable (OrderedScalar.number a = .boolean b))
  | .number a, .string b => inferInstanceAs (Decidable (OrderedScalar.number a = .string b))
  | .null, b => inferInstanceAs (Decidable (OrderedScalar.null = b))
  | .boolean a, b => inferInstanceAs (Decidable (OrderedScalar.boolean a = b))
  | .string a, b => inferInstanceAs (Decidable (OrderedScalar.string a = b))

instance RangeBound.decidableBelow (bound : RangeBound) (value : OrderedScalar) :
    Decidable (bound.below value) := by
  unfold RangeBound.below
  infer_instance

instance RangeBound.decidableAbove (bound : RangeBound) (value : OrderedScalar) :
    Decidable (bound.above value) := by
  unfold RangeBound.above
  infer_instance

instance decidableInRange (lower upper : Option RangeBound) (value : OrderedScalar) :
    Decidable (inRange lower upper value) := by
  unfold inRange
  infer_instance

variable {q : Query} {qs : List Query}

namespace Query

variable (M : Manifests) (id : Seq)

def leafHolds : Query → Bool
  | .term field name => (M id).any fun man => (field, name) ∈ man.terms
  | .termPrefix field pre =>
    (M id).any fun man => man.terms.any fun t => t.1 = field && pre.isPrefixOf t.2
  | .equals column value =>
    (M id).any fun man => man.columns.any fun c => c.1 = column && value.same c.2
  | .edge edgeType src .outbound => (M src).any fun man => (edgeType, id) ∈ man.edges
  | .edge edgeType src .inbound => (M id).any fun man => (edgeType, src) ∈ man.edges
  | .range column lower upper =>
    (M id).any fun man => man.columns.any fun c => c.1 = column && inRange lower upper c.2
  | .and _ => false
  | .or _ => false

mutual

def holds : Query → Bool
  | .and of => !of.isEmpty && allHold of
  | .or of => someHolds of
  | q => q.leafHolds M id

def allHold : List Query → Bool
  | [] => true
  | q :: qs => q.holds && allHold qs

def someHolds : List Query → Bool
  | [] => false
  | q :: qs => q.holds || someHolds qs

end

lemma allHold_iff : allHold M id qs = true ↔ ∀ q ∈ qs, q.holds M id = true := by
  induction qs with
  | nil => simp [allHold]
  | cons q qs ih => simp [allHold, ih]

lemma someHolds_iff : someHolds M id qs = true ↔ ∃ q ∈ qs, q.holds M id = true := by
  induction qs with
  | nil => simp [someHolds]
  | cons q qs ih => simp [someHolds, ih]

lemma leafHolds_iff (h : q.isLeaf = true) : q.leafHolds M id = true ↔ q.Satisfies M id := by
  cases q with
  | term | termPrefix | equals => simp [leafHolds, Satisfies, Option.any_eq_true]
  | edge edgeType src direction => cases direction <;> simp [leafHolds, Satisfies, Option.any_eq_true]
  | range column lower upper => simp [leafHolds, Satisfies, Option.any_eq_true]
  | and | or => exact absurd h (by simp [isLeaf])

lemma holds_of_isLeaf (h : q.isLeaf = true) : q.holds M id = q.leafHolds M id := by
  cases q with
  | and | or => exact absurd h (by simp [isLeaf])
  | _ => simp only [holds]

lemma holds_iff (q : Query) : q.holds M id = true ↔ q.Satisfies M id := by
  refine q.induction (P := fun q => q.holds M id = true ↔ q.Satisfies M id) ?_ ?_ ?_
  · intro leaf hleaf _
    rw [holds_of_isLeaf M id hleaf, leafHolds_iff M id hleaf]
  · intro qs hqs
    rw [holds, Bool.and_eq_true, allHold_iff, satisfies_and]
    apply and_congr
    · simp
    · exact forall₂_congr hqs
  · intro qs hqs
    rw [holds, someHolds_iff, satisfies_or]
    exact exists_congr fun q => and_congr_right (hqs q)

instance decidableSatisfies (q : Query) : Decidable (q.Satisfies M id) :=
  decidable_of_iff _ (holds_iff M id q)

end Query

/-! ## Objects -/

/-- An object: who it is, how often it was written, what its bytes decode to and what it
contributed to the lenses. Source: `model.ts` `DbObject`. -/
structure Held (α : Type) where
  identity : Option ObjectIdentity
  version : ℕ
  body : α
  manifest : IndexManifest

/-- A store. Source: `ObjectStoreApi`. -/
structure Objects (α : Type) where
  held : OrderedMap Seq (Held α)
  named : ObjectIdentity → Option Seq
  lastSeq : Seq

namespace Objects

variable {α : Type}

def empty : Objects α := ⟨.empty, fun _ => none, 0⟩

/-- Source: `ObjectStoreApi.lookup`. -/
def lookup (o : Objects α) (ns key : Utf16) : Option Seq := o.named ⟨ns, key⟩

/-- What an identifier holds. Source: `ObjectStoreApi.read`. -/
def read (o : Objects α) (seq : Seq) : Option α := (o.held.get seq).map Held.body

def manifests (o : Objects α) : Manifests := fun seq => (o.held.get seq).map Held.manifest

/-- The identifiers a query answers, ascending. Source: `ObjectStoreApi.resolve`. -/
def resolve (o : Objects α) (q : Query) : List Seq :=
  (o.held.entries.map Prod.fst).filter fun seq => q.Satisfies o.manifests seq

/-- The next identifier, and the store that has handed it out. Source: `ObjectStoreApi.nextSeq`. -/
def nextSeq (o : Objects α) : Seq × Objects α := (o.lastSeq + 1, { o with lastSeq := o.lastSeq + 1 })

/-- One write of a transaction. Source: `Txn`. -/
inductive Write (α : Type) where
  | put (seq : Seq) (body : α) (manifest : IndexManifest) (identity : Option ObjectIdentity)
  | retract (seq : Seq)

def unnamed (o : Objects α) (seq : Seq) : ObjectIdentity → Option Seq := fun identity =>
  if (o.held.get seq).bind Held.identity = some identity then none else o.named identity

/-- What a write leaves. Source: `Txn.put`, `Txn.retract`. -/
def write (o : Objects α) : Write α → Objects α
  | .put seq body manifest identity =>
    { o with
      held := o.held.insert seq
        ⟨identity, ((o.held.get seq).elim 0 Held.version) + 1, body, manifest⟩
      named := fun i => if identity = some i then some seq else o.unnamed seq i }
  | .retract seq => { o with held := o.held.erase seq, named := o.unnamed seq }

/-- What a transaction leaves: its writes, in the order it stages them. Source: `ObjectStoreApi.transact`. -/
def commit (o : Objects α) (ws : List (Write α)) : Objects α := ws.foldl write o

/-! ## Small facts -/

lemma mem_resolve {o : Objects α} {seq : Seq} :
    seq ∈ o.resolve q ↔ (∃ h, o.held.get seq = some h) ∧ q.Satisfies o.manifests seq := by
  unfold resolve
  simp [OrderedMap.mem_entries]

lemma resolve_ascending (o : Objects α) (q : Query) : Ascending (o.resolve q) :=
  Ascending.filter (List.pairwise_map.2 o.held.sorted) _

end Objects

end Zelavis.Db
