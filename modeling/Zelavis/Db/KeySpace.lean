import Zelavis.Db.OrderedCodec

/-!
# Which keys a prefix selects

`keys.ts`: all lenses share one space of byte keys, and a scan reads the range of a prefix.
-/

namespace Zelavis.Db.KeySpace

open Lib List Option

/-! ## Builders -/

/-- What the live prefix of a sealable lens is built of. -/
inductive LivePrefix where
  | term (field term : Utf16)
  | ordered (column : Utf16) (value : OrderedValue)
  | edge (edgeType : Utf16) (src : ℕ)
  | reverseEdge (edgeType : Utf16) (dst : ℕ)

variable {l : LivePrefix}

namespace LivePrefix

/-- `termPrefix`, `orderedValuePrefix`, `edgePrefix` or `reverseEdgePrefix`. -/
def build : LivePrefix → Option Key
  | term f t => some (termPrefix f t)
  | ordered c v => orderedValuePrefix c v
  | edge e n => some (edgePrefix e n)
  | reverseEdge e n => some (reverseEdgePrefix e n)

/-- `termKey`, `orderedKey`, `edgeKey` or `reverseEdgeKey`. -/
def key (last : ℕ) : LivePrefix → Option Key
  | term f t => some (termKey f t last)
  | ordered c v => orderedKey c v last
  | edge e n => some (edgeKey e n last)
  | reverseEdge e n => some (reverseEdgeKey e n last)

lemma key_eq (l : LivePrefix) (last : ℕ) : l.key last = l.build.map (· ++ writeU32 last) := by
  cases l <;> rfl

lemma mem_lensCode {w : Key} (h : l.build = some w) : w ∈ lensCode := by
  cases l with
  | term f t => exact some.inj h ▸ termPrefix_mem_lensCode f t
  | ordered c v => exact orderedValuePrefix_mem_lensCode h
  | edge e n => exact some.inj h ▸ edgePrefix_mem_lensCode e n
  | reverseEdge e n => exact some.inj h ▸ reverseEdgePrefix_mem_lensCode e n

end LivePrefix

/-- What a key of the store is built of. -/
inductive BuiltKey where
  | posting (live : LivePrefix) (last : ℕ)
  | measure (column : Utf16) (seq : ℕ)
  | identity (ns key : Utf16)
  | segment (live : LivePrefix) (index : ℕ)
  | tombstone (live : LivePrefix) (last : ℕ)
  | dirty (live : LivePrefix) (segment : ℕ)
  | event (position : ℕ)
  | snapshot (seq : ℕ)
  | payload (seq : ℕ)
  | manifest (seq : ℕ)
  | identityBySeq (seq : ℕ)
  | named (name : Utf16)

def BuiltKey.build : BuiltKey → Option Key
  | posting live last => live.key last
  | measure column seq => some (measureKey column seq)
  | identity ns key => some (identityKey ns key)
  | segment live index => live.build.map (segmentKey · index)
  | tombstone live last => (live.key last).map tombstoneKey
  | dirty live index => live.build.map (dirtyKey · index)
  | event position => some (eventKey position)
  | snapshot seq => some (snapshotKey seq)
  | payload seq => some (payloadKey seq)
  | manifest seq => some (manifestKey seq)
  | identityBySeq seq => some (identityBySeqKey seq)
  | named name => some (metaKey name)

/-- What a prefix of the sealable lenses is built of. -/
inductive LensPrefix where
  | live (live : LivePrefix)
  /-- `termPrefixKey`: the terms of a field that start with a string. -/
  | terms (field start : Utf16)
  /-- `orderedColumnPrefix`. -/
  | column (column : Utf16)

def LensPrefix.build : LensPrefix → Option Key
  | live l => l.build
  | terms f start => some (termPrefixKey f start)
  | column c => some (orderedColumnPrefix c)

/-- What a prefix of a scan is built of. -/
inductive BuiltPrefix where
  | lens (scan : LensPrefix)
  | measure (column : Utf16)
  | identity (ns : Utf16)
  /-- `identityNamePrefix`: the names of a namespace that start with a string. -/
  | identityName (ns start : Utf16)
  | segment (scan : LensPrefix)
  | tombstone (scan : LensPrefix)
  | event
  | snapshot
  | every (tag : Byte)

def BuiltPrefix.build : BuiltPrefix → Option Key
  | lens scan => scan.build
  | measure column => some (measurePrefix column)
  | identity ns => some (identityPrefix ns)
  | identityName ns start => some (identityNamePrefix ns start)
  | segment scan => scan.build.map segmentPrefix
  | tombstone scan => scan.build.map tombstonePrefix
  | event => some eventPrefix
  | snapshot => some snapshotPrefix
  | every tag => some [tag]

/-! ## Kinds -/

def LivePrefix.tag : LivePrefix → Byte
  | term .. => Tag.term
  | ordered .. => Tag.ordered
  | edge .. => Tag.edge
  | reverseEdge .. => Tag.edgeReverse

def BuiltKey.tag : BuiltKey → Byte
  | posting live _ => live.tag
  | measure .. => Tag.measure
  | identity .. => Tag.identity
  | segment .. => Tag.segment
  | tombstone .. => Tag.tombstone
  | dirty .. => Tag.dirty
  | event .. => Tag.event
  | snapshot .. => Tag.snapshot
  | payload .. => Tag.payload
  | manifest .. => Tag.manifest
  | identityBySeq .. => Tag.identityBySeq
  | named .. => Tag.meta

def LensPrefix.tag : LensPrefix → Byte
  | live l => l.tag
  | terms .. => Tag.term
  | column .. => Tag.ordered

def BuiltPrefix.tag : BuiltPrefix → Byte
  | lens scan => scan.tag
  | measure .. => Tag.measure
  | identity .. => Tag.identity
  | identityName .. => Tag.identity
  | segment .. => Tag.segment
  | tombstone .. => Tag.tombstone
  | event => Tag.event
  | snapshot => Tag.snapshot
  | every tag => tag

/-! ## Selection -/

/-- When a component counts as the same as another, and when a string as starting another. -/
structure Reading where
  text : Utf16 → Utf16 → Prop
  starts : Utf16 → Utf16 → Prop
  value : OrderedValue → OrderedValue → Prop
  number : ℕ → ℕ → Prop

def Reading.exact : Reading where
  text s t := s = t
  starts s t := s <+: t
  value v w := v.normal = w.normal
  number m n := m = n

def Reading.encoded : Reading where
  text s t := utf8 s = utf8 t
  starts s t := utf8 s <+: utf8 t
  value v w := writeOrderedValue v = writeOrderedValue w
  number m n := m % 2 ^ 32 = n % 2 ^ 32

/-- The components of a prefix of a lens are the leading ones of a live prefix. -/
def LensPrefix.Selects (R : Reading) : LensPrefix → LivePrefix → Prop
  | live (.term f t), .term f' t' => R.text f f' ∧ R.text t t'
  | live (.ordered c v), .ordered c' v' => R.text c c' ∧ R.value v v'
  | live (.edge e n), .edge e' n' => R.text e e' ∧ R.number n n'
  | live (.reverseEdge e n), .reverseEdge e' n' => R.text e e' ∧ R.number n n'
  | terms f start, .term f' t => R.text f f' ∧ R.starts start t
  | column c, .ordered c' _ => R.text c c'
  | _, _ => False

/-- The key is of the prefix's kind, and the components of the prefix are the leading ones of the key. -/
def BuiltPrefix.Selects (R : Reading) : BuiltPrefix → BuiltKey → Prop
  | lens scan, .posting live _ => scan.Selects R live
  | measure column, .measure column' _ => R.text column column'
  | identity ns, .identity ns' _ => R.text ns ns'
  | identityName ns start, .identity ns' key => R.text ns ns' ∧ R.starts start key
  | segment scan, .segment live _ => scan.Selects R live
  | tombstone scan, .tombstone live _ => scan.Selects R live
  | event, .event _ => True
  | snapshot, .snapshot _ => True
  | every tag, key => key.tag = tag
  | _, _ => False

/-! ## Ranges select by encoding -/

variable {R : Reading}

lemma LivePrefix.head_build {w : Key} (h : l.build = some w) : ∃ body, w = l.tag :: body := by
  cases l with
  | term f t => exact ⟨_, (some.inj h).symm⟩
  | ordered c value =>
    obtain ⟨v, -, rfl⟩ := map_eq_some_iff.1 h
    exact ⟨_, rfl⟩
  | edge | reverseEdge => exact ⟨_, (some.inj h).symm⟩

variable {p : LensPrefix}

lemma LensPrefix.head_build {u : Key} (h : p.build = some u) : ∃ body, u = p.tag :: body := by
  cases p with
  | live l => exact LivePrefix.head_build h
  | terms | column => exact ⟨_, (some.inj h).symm⟩

variable {key : BuiltKey}

lemma BuiltKey.head_build {k : Key} (h : key.build = some k) : ∃ body, k = key.tag :: body := by
  cases key with
  | posting live last =>
    rw [build, LivePrefix.key_eq] at h
    obtain ⟨w, hw, rfl⟩ := map_eq_some_iff.1 h
    obtain ⟨body, rfl⟩ := LivePrefix.head_build hw
    exact ⟨_, cons_append⟩
  | segment live index =>
    obtain ⟨w, -, rfl⟩ := map_eq_some_iff.1 h
    exact ⟨_, cons_append⟩
  | tombstone | dirty =>
    obtain ⟨w, -, rfl⟩ := map_eq_some_iff.1 h
    exact ⟨_, rfl⟩
  | measure | identity | event | snapshot | payload | manifest | identityBySeq | named =>
    exact ⟨_, (some.inj h).symm⟩

variable {pre : BuiltPrefix}

lemma BuiltPrefix.head_build {p : Key} (h : pre.build = some p) : ∃ body, p = pre.tag :: body := by
  cases pre with
  | lens scan => exact LensPrefix.head_build h
  | segment | tombstone =>
    obtain ⟨w, -, rfl⟩ := map_eq_some_iff.1 h
    exact ⟨_, rfl⟩
  | measure | identity | identityName | event | snapshot | every =>
    exact ⟨_, (some.inj h).symm⟩

lemma LensPrefix.tag_eq_of_selects (h : p.Selects R l) : p.tag = l.tag := by
  cases p with
  | live l' => cases l' <;> cases l <;> first | rfl | exact h.elim
  | terms | column => cases l <;> first | rfl | exact h.elim

lemma BuiltPrefix.tag_eq_of_selects (h : pre.Selects R key) : pre.tag = key.tag := by
  cases pre with
  | every tag => exact Eq.symm h
  | lens scan => cases key <;> first | exact LensPrefix.tag_eq_of_selects h | exact h.elim
  | measure | identity | identityName | segment | tombstone | event | snapshot =>
    cases key <;> first | rfl | exact h.elim

def lensTags : List Byte := [Tag.term, Tag.ordered, Tag.edge, Tag.edgeReverse]

lemma LivePrefix.tag_mem (l : LivePrefix) : l.tag ∈ lensTags := by
  cases l <;> simp [tag, lensTags]

lemma LensPrefix.tag_mem (p : LensPrefix) : p.tag ∈ lensTags := by
  cases p with
  | live l => exact l.tag_mem
  | terms | column => simp [tag, lensTags]

lemma LivePrefix.of_tag (l : LivePrefix) :
    (Tag.term = l.tag → ∃ f t, l = .term f t) ∧ (Tag.ordered = l.tag → ∃ c v, l = .ordered c v) ∧
      (Tag.edge = l.tag → ∃ e n, l = .edge e n) ∧
      (Tag.edgeReverse = l.tag → ∃ e n, l = .reverseEdge e n) := by
  cases l <;> simp +decide [tag]

lemma BuiltKey.of_tag (key : BuiltKey) : (key.tag ∈ lensTags → ∃ live last, key = .posting live last) ∧
      (Tag.measure = key.tag → ∃ c n, key = .measure c n) ∧
      (Tag.identity = key.tag → ∃ ns name, key = .identity ns name) ∧
      (Tag.segment = key.tag → ∃ live n, key = .segment live n) ∧
      (Tag.tombstone = key.tag → ∃ live n, key = .tombstone live n) ∧
      (Tag.event = key.tag → ∃ n, key = .event n) ∧ (Tag.snapshot = key.tag → ∃ n, key = .snapshot n) := by
  cases key with
  | posting live last => cases live <;> simp +decide [tag, LivePrefix.tag]
  | measure | identity | segment | tombstone | dirty | event | snapshot | payload | manifest
    | identityBySeq | named => simp +decide [tag, lensTags]

variable {u w : Key}

lemma LivePrefix.build_eq_iff {l l' : LivePrefix} (hu : l.build = some u)
    (hw : l'.build = some w) : u = w ↔ (LensPrefix.live l).Selects .encoded l' := by
  by_cases htag : l.tag = l'.tag
  · cases l with
    | term f t =>
      obtain ⟨f', t', rfl⟩ := l'.of_tag.1 htag
      obtain rfl := some.inj hu
      obtain rfl := some.inj hw
      exact termPrefix_inj
    | ordered c v =>
      obtain ⟨c', v', rfl⟩ := l'.of_tag.2.1 htag
      obtain ⟨x, hx, rfl⟩ := orderedValuePrefix_eq_some.1 hu
      obtain ⟨y, hy, rfl⟩ := orderedValuePrefix_eq_some.1 hw
      rw [orderedColumnPrefix_append_inj]
      simp [LensPrefix.Selects, Reading.encoded, hx, hy]
    | edge e n =>
      obtain ⟨e', n', rfl⟩ := l'.of_tag.2.2.1 htag
      obtain rfl := some.inj hu
      obtain rfl := some.inj hw
      exact edgePrefix_inj
    | reverseEdge e n =>
      obtain ⟨e', n', rfl⟩ := l'.of_tag.2.2.2 htag
      obtain rfl := some.inj hu
      obtain rfl := some.inj hw
      exact reverseEdgePrefix_inj
  · refine iff_of_false (fun heq => htag ?_) fun h => htag (LensPrefix.tag_eq_of_selects h)
    obtain ⟨body, rfl⟩ := LivePrefix.head_build hu
    obtain ⟨body', rfl⟩ := LivePrefix.head_build hw
    exact (List.cons.inj heq).1

variable {x : Bytes}

lemma orderedColumnPrefix_isPrefix_iff {c c' : Utf16} :
    orderedColumnPrefix c <+: orderedColumnPrefix c' ++ x ↔ utf8 c = utf8 c' := by
  constructor
  · rintro ⟨y, hy⟩
    exact (orderedColumnPrefix_append_inj.1 hy).1
  · exact fun h => ⟨x, orderedColumnPrefix_append_inj.2 ⟨h, rfl⟩⟩

lemma LensPrefix.isPrefix_iff {u w x : Key}
    (hu : p.build = some u) (hw : l.build = some w) : u <+: w ++ x ↔ p.Selects .encoded l := by
  by_cases htag : p.tag = l.tag
  · cases p with
    | live l' =>
      rw [lens_prefix_iff (LivePrefix.mem_lensCode hu) (LivePrefix.mem_lensCode hw),
        LivePrefix.build_eq_iff hu hw]
    | terms f start =>
      obtain ⟨f', t, rfl⟩ := l.of_tag.1 htag
      obtain rfl := some.inj hu
      obtain rfl := some.inj hw
      exact termPrefixKey_prefix_iff ..
    | column c =>
      obtain ⟨c', v, rfl⟩ := l.of_tag.2.1 htag
      obtain rfl := some.inj hu
      obtain ⟨v, -, rfl⟩ := orderedValuePrefix_eq_some.1 hw
      rw [append_assoc]
      exact orderedColumnPrefix_isPrefix_iff
  · refine iff_of_false (fun h => htag ?_) fun h => htag (LensPrefix.tag_eq_of_selects h)
    obtain ⟨body, rfl⟩ := LensPrefix.head_build hu
    obtain ⟨body', rfl⟩ := LivePrefix.head_build hw
    exact (cons_prefix_cons.1 h).1

lemma cons_writeString_isPrefix_iff {tag : Byte} {s t : Utf16} :
    tag :: writeString s <+: tag :: (writeString t ++ x) ↔ utf8 s = utf8 t := by
  rw [prefix_cons_inj]
  constructor
  · rintro ⟨y, hy⟩
    exact (writeString_append_inj.1 hy).1
  · exact fun h => ⟨x, writeString_append_inj.2 ⟨h, rfl⟩⟩

lemma identityNamePrefix_isPrefix_iff {ns start ns' key : Utf16} :
    identityNamePrefix ns start <+: identityKey ns' key ↔ utf8 ns = utf8 ns' ∧ utf8 start <+: utf8 key := by
  have hterm : identityNamePrefix ns start <+: identityKey ns' key ↔
      termPrefixKey ns start <+: termPrefix ns' key ++ [] := by
    rw [identityNamePrefix, identityKey, termPrefixKey, termPrefix, append_nil,
      prefix_cons_inj, prefix_cons_inj]
  rw [hterm, termPrefixKey_prefix_iff]

/-- A built key is in the range of a built prefix exactly where the prefix selects it by its encodings. -/
theorem inPrefixRange_iff_selects {k p : Key} (hk : key.build = some k) (hp : pre.build = some p) :
    inPrefixRange k p ↔ pre.Selects .encoded key := by
  rw [inPrefixRange_iff]
  by_cases htag : pre.tag = key.tag
  · cases pre with
    | lens scan =>
      obtain ⟨live, last, rfl⟩ := key.of_tag.1 (htag ▸ scan.tag_mem)
      rw [BuiltKey.build, LivePrefix.key_eq] at hk
      obtain ⟨w, hw, rfl⟩ := map_eq_some_iff.1 hk
      exact LensPrefix.isPrefix_iff hp hw
    | measure c =>
      obtain ⟨c', n, rfl⟩ := key.of_tag.2.1 htag
      obtain rfl := some.inj hk
      obtain rfl := some.inj hp
      exact cons_writeString_isPrefix_iff
    | identity ns =>
      obtain ⟨ns', name, rfl⟩ := key.of_tag.2.2.1 htag
      obtain rfl := some.inj hk
      obtain rfl := some.inj hp
      exact cons_writeString_isPrefix_iff
    | identityName ns start =>
      obtain ⟨ns', name, rfl⟩ := key.of_tag.2.2.1 htag
      obtain rfl := some.inj hk
      obtain rfl := some.inj hp
      exact identityNamePrefix_isPrefix_iff
    | segment scan =>
      obtain ⟨live, n, rfl⟩ := key.of_tag.2.2.2.1 htag
      obtain ⟨w, hw, rfl⟩ := map_eq_some_iff.1 hk
      obtain ⟨u, hu, rfl⟩ := map_eq_some_iff.1 hp
      rw [segmentPrefix, segmentKey, under, under, cons_append, prefix_cons_inj]
      exact LensPrefix.isPrefix_iff hu hw
    | tombstone scan =>
      obtain ⟨live, n, rfl⟩ := key.of_tag.2.2.2.2.1 htag
      rw [BuiltKey.build, LivePrefix.key_eq, Option.map_map] at hk
      obtain ⟨w, hw, rfl⟩ := map_eq_some_iff.1 hk
      obtain ⟨u, hu, rfl⟩ := map_eq_some_iff.1 hp
      rw [Function.comp_apply, tombstonePrefix, tombstoneKey, under, under, prefix_cons_inj]
      exact LensPrefix.isPrefix_iff hu hw
    | event =>
      obtain ⟨n, rfl⟩ := key.of_tag.2.2.2.2.2.1 htag
      obtain rfl := some.inj hk
      obtain rfl := some.inj hp
      exact iff_of_true ⟨_, rfl⟩ trivial
    | snapshot =>
      obtain ⟨n, rfl⟩ := key.of_tag.2.2.2.2.2.2 htag
      obtain rfl := some.inj hk
      obtain rfl := some.inj hp
      exact iff_of_true ⟨_, rfl⟩ trivial
    | every tag =>
      obtain ⟨body, rfl⟩ := BuiltKey.head_build hk
      obtain rfl := some.inj hp
      exact iff_of_true ⟨body, by rw [← htag]; rfl⟩ htag.symm
  · refine iff_of_false (fun h => htag ?_) fun h => htag (BuiltPrefix.tag_eq_of_selects h)
    obtain ⟨body, rfl⟩ := BuiltKey.head_build hk
    obtain ⟨body', rfl⟩ := BuiltPrefix.head_build hp
    exact (cons_prefix_cons.1 h).1

/-! ## Encodings that tell components apart -/

def LivePrefix.WellFormed : LivePrefix → Prop
  | term f t => wellFormed f ∧ wellFormed t
  | ordered c v => wellFormed c ∧ v.WellFormed
  | edge e n => wellFormed e ∧ n < 2 ^ 32
  | reverseEdge e n => wellFormed e ∧ n < 2 ^ 32

/-- No string has a lone surrogate, and what can be compared with a prefix has 32 bits. -/
def BuiltKey.WellFormed : BuiltKey → Prop
  | posting live _ => live.WellFormed
  | measure c _ => wellFormed c
  | identity ns name => wellFormed ns ∧ wellFormed name
  | segment live _ => live.WellFormed
  | tombstone live _ => live.WellFormed
  | _ => True

def LensPrefix.WellFormed : LensPrefix → Prop
  | live l => l.WellFormed
  | terms f start => wellFormed f ∧ wellFormed start
  | column c => wellFormed c

def BuiltPrefix.WellFormed : BuiltPrefix → Prop
  | lens scan => scan.WellFormed
  | measure c => wellFormed c
  | identity ns => wellFormed ns
  | identityName ns start => wellFormed ns ∧ wellFormed start
  | segment scan => scan.WellFormed
  | tombstone scan => scan.WellFormed
  | _ => True

lemma mod_eq_iff {m n : ℕ} (hm : m < 2 ^ 32) (hn : n < 2 ^ 32) :
    m % 2 ^ 32 = n % 2 ^ 32 ↔ m = n := by rw [Nat.mod_eq_of_lt hm, Nat.mod_eq_of_lt hn]

lemma LensPrefix.encoded_iff_exact
    (hu : p.build = some u) (hw : l.build = some w) (hp : p.WellFormed) (hl : l.WellFormed) :
    p.Selects .encoded l ↔ p.Selects .exact l := by
  cases p with
  | live l' =>
    cases l' with
    | term f t =>
      cases l with
      | term f' t' => exact and_congr (utf8_inj hp.1 hl.1) (utf8_inj hp.2 hl.2)
      | ordered | edge | reverseEdge => exact Iff.rfl
    | ordered c v =>
      cases l with
      | ordered c' v' =>
        obtain ⟨x, hx, -⟩ := orderedValuePrefix_eq_some.1 hu
        obtain ⟨y, hy, -⟩ := orderedValuePrefix_eq_some.1 hw
        have hvalue : writeOrderedValue v = writeOrderedValue v' ↔ v.normal = v'.normal := by
          rw [hx, hy, some_inj, writeOrderedValue_eq_iff hx hy hp.2 hl.2]
        exact and_congr (utf8_inj hp.1 hl.1) hvalue
      | term | edge | reverseEdge => exact Iff.rfl
    | edge e n =>
      cases l with
      | edge e' n' => exact and_congr (utf8_inj hp.1 hl.1) (mod_eq_iff hp.2 hl.2)
      | term | ordered | reverseEdge => exact Iff.rfl
    | reverseEdge e n =>
      cases l with
      | reverseEdge e' n' => exact and_congr (utf8_inj hp.1 hl.1) (mod_eq_iff hp.2 hl.2)
      | term | ordered | edge => exact Iff.rfl
  | terms f start =>
    cases l with
    | term f' t => exact and_congr (utf8_inj hp.1 hl.1) (utf8_prefix_iff hp.2 hl.2)
    | ordered | edge | reverseEdge => exact Iff.rfl
  | column c =>
    cases l with
    | ordered c' v => exact utf8_inj hp hl.1
    | term | edge | reverseEdge => exact Iff.rfl

/-- With no lone surrogate and 32 bits, components are the same exactly where their encodings are. -/
theorem encoded_iff_exact {k p : Key}
    (hk : key.build = some k) (hp : pre.build = some p) (hkey : key.WellFormed)
    (hpre : pre.WellFormed) : pre.Selects .encoded key ↔ pre.Selects .exact key := by
  cases pre with
  | lens scan =>
    cases key with
    | posting live last =>
      rw [BuiltKey.build, LivePrefix.key_eq] at hk
      obtain ⟨w, hw, -⟩ := map_eq_some_iff.1 hk
      exact LensPrefix.encoded_iff_exact hp hw hpre hkey
    | _ => exact Iff.rfl
  | measure c =>
    cases key with
    | measure c' n => exact utf8_inj hpre hkey
    | _ => exact Iff.rfl
  | identity ns =>
    cases key with
    | identity ns' name => exact utf8_inj hpre hkey.1
    | _ => exact Iff.rfl
  | identityName ns start =>
    cases key with
    | identity ns' name => exact and_congr (utf8_inj hpre.1 hkey.1) (utf8_prefix_iff hpre.2 hkey.2)
    | _ => exact Iff.rfl
  | segment scan =>
    cases key with
    | segment live n =>
      obtain ⟨w, hw, -⟩ := map_eq_some_iff.1 hk
      obtain ⟨u, hu, -⟩ := map_eq_some_iff.1 hp
      exact LensPrefix.encoded_iff_exact hu hw hpre hkey
    | _ => exact Iff.rfl
  | tombstone scan =>
    cases key with
    | tombstone live last =>
      rw [BuiltKey.build, LivePrefix.key_eq, Option.map_map] at hk
      obtain ⟨w, hw, -⟩ := map_eq_some_iff.1 hk
      obtain ⟨u, hu, -⟩ := map_eq_some_iff.1 hp
      exact LensPrefix.encoded_iff_exact hu hw hpre hkey
    | _ => exact Iff.rfl
  | event | snapshot => cases key <;> exact Iff.rfl
  | every tag => exact Iff.rfl

/-- A built key is in the range of a built prefix exactly where the prefix is of its kind and has its
leading components, if and only if the components of the two are the same where their encodings are;
and so it is where no string has a lone surrogate and identifiers have 32 bits. -/
theorem range_iff {key : BuiltKey} {pre : BuiltPrefix} {k p : Key} (hk : key.build = some k)
    (hp : pre.build = some p) : ((inPrefixRange k p ↔ pre.Selects .exact key) ↔
        (pre.Selects .encoded key ↔ pre.Selects .exact key)) ∧
      (key.WellFormed → pre.WellFormed → (inPrefixRange k p ↔ pre.Selects .exact key)) := by
  refine ⟨?_, fun hkey hpre => ?_⟩
  · rw [inPrefixRange_iff_selects hk hp]
  · rw [inPrefixRange_iff_selects hk hp, encoded_iff_exact hk hp hkey hpre]

/-- A string with the terminator in it, and the terms that start with it. -/
theorem range_iff_zero : inPrefixRange (termKey [0] [0, 1, 2] 7) (termPrefixKey [0] [0, 1]) ↔
      (BuiltPrefix.lens (.terms [0] [0, 1])).Selects .exact (.posting (.term [0] [0, 1, 2]) 7) :=
  (@range_iff (.posting (.term [0] [0, 1, 2]) 7) (.lens (.terms [0] [0, 1])) _ _ rfl rfl).2
    ⟨rfl, rfl⟩ ⟨rfl, rfl⟩

/-- The postings of a lone surrogate are in the range of the replacement character. -/
theorem not_range :
    ¬ ∀ (key : BuiltKey) (pre : BuiltPrefix) (k p : Key), key.build = some k → pre.build = some p →
      (inPrefixRange k p ↔ pre.Selects .exact key) := by
  intro h
  have hrange := h (.posting (.term [0xD800] [0x74]) 0) (.lens (.live (.term [0xFFFD] [0x74]))) _ _ rfl rfl
  have hselects := hrange.1 ((@inPrefixRange_iff_selects (.posting (.term [0xD800] [0x74]) 0)
    (.lens (.live (.term [0xFFFD] [0x74]))) _ _ rfl rfl).2
    ⟨show utf8 [0xFFFD] = utf8 [0xD800] by decide +kernel, rfl⟩)
  exact absurd hselects.1 (show ([0xFFFD] : Utf16) ≠ [0xD800] by decide)

end Zelavis.Db.KeySpace
