import Zelavis.Db.KeyOrder

/-!
# Queries

`query.ts`: a query is data. What a query asks is stated here over the manifests alone, with no
lens, tier or posting in sight; `evaluate` has to give the same answer.
-/

namespace Zelavis.Db

open Lib

/-- Which way an edge is followed. Source: `EdgeDirection`. -/
inductive EdgeDirection where
  | outbound
  | inbound
  deriving DecidableEq

/-- One end of a range. Source: `RangeBound`. -/
structure RangeBound where
  value : OrderedScalar
  inclusive : Bool
  deriving DecidableEq

/-- A query, as data. Source: `Query`. -/
inductive Query where
  | term (field name : Utf16)
  | termPrefix (field pre : Utf16)
  | equals (column : Utf16) (value : OrderedScalar)
  | edge (edgeType : Utf16) (src : Seq) (direction : EdgeDirection)
  | range (column : Utf16) (lower upper : Option RangeBound)
  | and (of : List Query)
  | or (of : List Query)

/-! ## What a query asks -/

/-- Typed equality: a negative zero is zero, and otherwise only a value is the same as itself. -/
def OrderedScalar.same : OrderedScalar → OrderedScalar → Prop
  | .number a, .number b => a.normal = b.normal
  | a, b => a = b

def RangeBound.below (bound : RangeBound) (value : OrderedScalar) : Prop :=
  bound.value.lt value ∨ bound.inclusive = true ∧ bound.value.same value

def RangeBound.above (bound : RangeBound) (value : OrderedScalar) : Prop :=
  value.lt bound.value ∨ bound.inclusive = true ∧ bound.value.same value

/-- Within a range: on the right side of each bound, and of the kind of a bound that stands alone. -/
def inRange (lower upper : Option RangeBound) (value : OrderedScalar) : Prop :=
  (∀ b ∈ lower, b.below value ∧ (upper = none → value.kind = b.value.kind)) ∧
    ∀ b ∈ upper, b.above value ∧ (lower = none → value.kind = b.value.kind)

/-- The manifests of a store, by identifier. -/
abbrev Manifests := Seq → Option IndexManifest

mutual

def Query.Satisfies (M : Manifests) (id : Seq) : Query → Prop
  | .term field name => ∃ man ∈ M id, (field, name) ∈ man.terms
  | .termPrefix field pre => ∃ man ∈ M id, ∃ name, (field, name) ∈ man.terms ∧ pre <+: name
  | .equals column value => ∃ man ∈ M id, ∃ v, (column, v) ∈ man.columns ∧ value.same v
  | .edge edgeType src .outbound => ∃ man ∈ M src, (edgeType, id) ∈ man.edges
  | .edge edgeType src .inbound => ∃ man ∈ M id, (edgeType, src) ∈ man.edges
  | .range column lower upper =>
    ∃ man ∈ M id, ∃ v, (column, v) ∈ man.columns ∧ inRange lower upper v
  | .and of => of ≠ [] ∧ Query.SatisfiesAll M id of
  | .or of => Query.SatisfiesSome M id of

def Query.SatisfiesAll (M : Manifests) (id : Seq) : List Query → Prop
  | [] => True
  | q :: qs => q.Satisfies M id ∧ Query.SatisfiesAll M id qs

def Query.SatisfiesSome (M : Manifests) (id : Seq) : List Query → Prop
  | [] => False
  | q :: qs => q.Satisfies M id ∨ Query.SatisfiesSome M id qs

end

mutual

def Query.leaves : Query → List Query
  | .and of => Query.leavesOf of
  | .or of => Query.leavesOf of
  | .term field name => [.term field name]
  | .termPrefix field pre => [.termPrefix field pre]
  | .equals column value => [.equals column value]
  | .edge edgeType src direction => [.edge edgeType src direction]
  | .range column lower upper => [.range column lower upper]

def Query.leavesOf : List Query → List Query
  | [] => []
  | q :: qs => q.leaves ++ Query.leavesOf qs

end

def OrderedScalar.strings : OrderedScalar → List Utf16
  | .string s => [s]
  | _ => []

/-- Whether a scalar can be a key of the ordered lens: every one but a number that is not finite. -/
def OrderedScalar.isOrdered : OrderedScalar → Bool
  | .number n => n.isFinite
  | _ => true

def IndexManifest.strings (man : IndexManifest) : List Utf16 :=
  man.terms.flatMap (fun t => [t.1, t.2]) ++
    man.columns.flatMap (fun c => c.1 :: c.2.strings) ++ man.edges.map Prod.fst

variable {qs : List Query} {M : Manifests} {leaf : Query} {id : Seq} {P : Query → Prop}

namespace Query

def strings : Query → List Utf16
  | .term field name => [field, name]
  | .termPrefix field _ => [field]
  | .equals column value => column :: value.strings
  | .edge edgeType _ _ => [edgeType]
  | .range column lower upper =>
    column :: (lower.toList ++ upper.toList).flatMap fun b => b.value.strings
  | .and _ => []
  | .or _ => []

def isLeaf : Query → Bool
  | .and _ => false
  | .or _ => false
  | _ => true

/-- What the wire form of a leaf checks, and identifiers of four bytes. Source: `Query`. -/
def isWire : Query → Bool
  | .equals _ value => value.isOrdered
  | .edge _ src _ => src < 2 ^ 32
  | .range _ lower upper => (lower.toList ++ upper.toList).all fun b => b.value.isOrdered
  | _ => true

def Wire (q : Query) : Prop := ∀ leaf ∈ q.leaves, leaf.isWire = true

/-- The strings of a query and those of the manifests are different exactly when their encodings
are. -/
def ToldApart (M : Manifests) (q : Query) : Prop :=
  ∀ leaf ∈ q.leaves, ∀ s ∈ leaf.strings, ∀ id, ∀ man ∈ M id, ∀ t ∈ man.strings, utf8 s = utf8 t → s = t

/-! ## Combinations -/

lemma satisfiesAll_iff : SatisfiesAll M id qs ↔ ∀ q ∈ qs, q.Satisfies M id := by
  induction qs with
  | nil => simp [SatisfiesAll]
  | cons q qs ih => simp [SatisfiesAll, ih]

lemma satisfiesSome_iff : SatisfiesSome M id qs ↔ ∃ q ∈ qs, q.Satisfies M id := by
  induction qs with
  | nil => simp [SatisfiesSome]
  | cons q qs ih => simp [SatisfiesSome, ih]

lemma satisfies_and : (Query.and qs).Satisfies M id ↔ qs ≠ [] ∧ ∀ q ∈ qs, q.Satisfies M id := by
  rw [Satisfies, satisfiesAll_iff]

lemma satisfies_or : (Query.or qs).Satisfies M id ↔ ∃ q ∈ qs, q.Satisfies M id := by
  rw [Satisfies, satisfiesSome_iff]

lemma mem_leavesOf : leaf ∈ leavesOf qs ↔ ∃ q ∈ qs, leaf ∈ q.leaves := by
  induction qs with
  | nil => simp [leavesOf]
  | cons q qs ih => simp [leavesOf, ih]

lemma mem_leaves_and : leaf ∈ (Query.and qs).leaves ↔ ∃ q ∈ qs, leaf ∈ q.leaves := by
  rw [leaves, mem_leavesOf]

lemma mem_leaves_or : leaf ∈ (Query.or qs).leaves ↔ ∃ q ∈ qs, leaf ∈ q.leaves := by
  rw [leaves, mem_leavesOf]

mutual

/-- Induction over a query: what its leaves have and every combination takes from its parts, the
query has. -/
theorem induction (q : Query) (hleaf : ∀ leaf, leaf.isLeaf = true → leaf ∈ q.leaves → P leaf)
    (hand : ∀ qs, (∀ q ∈ qs, P q) → P (.and qs)) (hor : ∀ qs, (∀ q ∈ qs, P q) → P (.or qs)) : P q :=
  match q with
  | .and qs => hand qs (inductionOf qs (fun leaf hl hm => hleaf leaf hl (by rwa [leaves])) hand hor)
  | .or qs => hor qs (inductionOf qs (fun leaf hl hm => hleaf leaf hl (by rwa [leaves])) hand hor)
  | .term .. => hleaf _ rfl (by rw [leaves]; exact List.mem_singleton_self _)
  | .termPrefix .. => hleaf _ rfl (by rw [leaves]; exact List.mem_singleton_self _)
  | .equals .. => hleaf _ rfl (by rw [leaves]; exact List.mem_singleton_self _)
  | .edge .. => hleaf _ rfl (by rw [leaves]; exact List.mem_singleton_self _)
  | .range .. => hleaf _ rfl (by rw [leaves]; exact List.mem_singleton_self _)

lemma inductionOf (qs : List Query) (hleaf : ∀ leaf, leaf.isLeaf = true → leaf ∈ leavesOf qs → P leaf)
    (hand : ∀ qs, (∀ q ∈ qs, P q) → P (.and qs)) (hor : ∀ qs, (∀ q ∈ qs, P q) → P (.or qs)) : ∀ q ∈ qs, P q :=
  match qs with
  | [] => by simp
  | q :: qs => by
    rw [List.forall_mem_cons]
    exact ⟨induction q (fun leaf hl hm => hleaf leaf hl (by rw [leavesOf]; simp [hm])) hand hor,
      inductionOf qs (fun leaf hl hm => hleaf leaf hl (by rw [leavesOf]; simp [hm])) hand hor⟩

end

lemma leaves_of_isLeaf (h : leaf.isLeaf = true) : leaf.leaves = [leaf] := by
  cases leaf with
  | and | or => exact absurd h (by simp [isLeaf])
  | _ => rw [leaves]

lemma isLeaf_of_mem_leaves (q : Query) : ∀ leaf ∈ q.leaves, leaf.isLeaf = true := by
  refine q.induction (P := fun q => ∀ leaf ∈ q.leaves, leaf.isLeaf = true) ?_ ?_ ?_
  · intro leaf hleaf _ l hl
    rw [leaves_of_isLeaf hleaf, List.mem_singleton] at hl
    rwa [hl]
  · intro qs hqs leaf hleaf
    obtain ⟨q, hq, hl⟩ := mem_leaves_and.1 hleaf
    exact hqs q hq leaf hl
  · intro qs hqs leaf hleaf
    obtain ⟨q, hq, hl⟩ := mem_leaves_or.1 hleaf
    exact hqs q hq leaf hl

end Query

end Zelavis.Db
