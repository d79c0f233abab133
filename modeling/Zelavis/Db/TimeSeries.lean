import Zelavis.Db.Ranges
import Zelavis.Db.Topology
import Zelavis.Db.Validation

/-!
# Windows of a time series

`time-series.ts`: points of a series are objects under the columns of its own, and a window of it is a query
over them.
-/

namespace Zelavis.Db.TimeSeries

open Lib List Option

/-! ## Points -/

structure TimeSeriesPoint where
  timestamp : JsNumber
  value : JsNumber
  tags : Option (List (Utf16 × Utf16)) := none
  fields : Option JsonObject := none

namespace TimeSeriesPoint

def json (p : TimeSeriesPoint) : Json :=
  .object (objectOf [(utf16 "timestamp", some (.scalar (.number p.timestamp))),
    (utf16 "value", some (.scalar (.number p.value))),
    (utf16 "tags", p.tags.map fun tags => .object (tags.map fun t => (t.1, .string t.2))),
    (utf16 "fields", p.fields.map .object)])

/-- The checks of a point. Source: `pointsMatching`. -/
def record : List (Utf16 × Validator) :=
  [(utf16 "timestamp", isFiniteNumber), (utf16 "value", isFiniteNumber),
    (utf16 "tags", optional (recordOf isString)), (utf16 "fields", optional isJsonObject)]

def Reads (digits : JsNumber → Utf16) (p : TimeSeriesPoint) : Bool :=
  readsBack digits (objectFields record) p.json

def reread (p : TimeSeriesPoint) : TimeSeriesPoint where
  timestamp := p.timestamp.normal
  value := p.value.normal
  tags := p.tags
  fields := p.fields.map rereadMembers

end TimeSeriesPoint

def SERIES_COLUMN : Utf16 := utf16 "zv.timeseries"

def seriesKey (tenant : TenantId) (series : Utf16) : Utf16 := tenant ++ utf16 "/" ++ series

def instantColumn (series : Utf16) : Utf16 := series ++ utf16 "@at"

def tagColumn (series tag : Utf16) : Utf16 := series ++ utf16 "#" ++ tag

/-- The postings of a point of a series. Source: `writePoint`. -/
def manifestOf (key : Utf16) (p : TimeSeriesPoint) : IndexManifest where
  columns := (SERIES_COLUMN, .string key) :: (instantColumn key, .number p.timestamp) ::
    (p.tags.getD []).map fun t => (tagColumn key t.1, .string t.2)
  measures := [(key, p.value)]

/-- One more point of a series; none where its time has no key. Source: `writePoint`. -/
def writePoint (tenant : TenantId) (series : Utf16) (p : TimeSeriesPoint) (o : Objects TimeSeriesPoint) :
    Option (Objects TimeSeriesPoint) :=
  if p.timestamp.isFinite then
    some (o.nextSeq.2.commit [.put o.nextSeq.1 p (manifestOf (seriesKey tenant series) p) none])
  else none

/-- A store of points: each is under the columns of a series. -/
structure Points where
  store : Objects TimeSeriesPoint
  kept : ∀ {q h}, store.held.get q = some h →
    h.body.timestamp.isFinite = true ∧ ∃ tenant series, h.manifest = manifestOf (seriesKey tenant series) h.body

namespace Points

def empty : Points := ⟨.empty, fun h => by cases h⟩

def write (o : Points) (tenant : TenantId) (series : Utf16) (p : TimeSeriesPoint)
    (hfinite : p.timestamp.isFinite = true) : Points where
  store := o.store.nextSeq.2.commit
    [.put o.store.nextSeq.1 p (manifestOf (seriesKey tenant series) p) none]
  kept {q h} hheld := by
    replace hheld : (o.store.held.insert (o.store.lastSeq + 1) _).get q = some h := hheld
    rw [OrderedMap.get_insert] at hheld
    split_ifs at hheld with hq
    · obtain rfl := Option.some.inj hheld
      exact ⟨hfinite, tenant, series, rfl⟩
    · exact o.kept hheld

lemma writePoint_eq (o : Points) (tenant : TenantId) (series : Utf16) {p : TimeSeriesPoint}
    (hfinite : p.timestamp.isFinite = true) :
    writePoint tenant series p o.store = some (o.write tenant series p hfinite).store := if_pos hfinite

def ofSeries (o : Points) (key : Utf16) : List TimeSeriesPoint :=
  (o.store.held.entries.filter fun e => e.2.manifest = manifestOf key e.2.body).map fun e => e.2.body

end Points

/-! ## Queries -/

/-- A time to begin or end at. Source: `Timestamp`. -/
inductive Timestamp where
  | number (n : JsNumber)
  /-- A date, by its `getTime`. -/
  | date (time : JsNumber)
  | text (s : Utf16)

/-- Tags asked for, each with the values one of which a point is to have; one value alone is a list of
one. Source: `TagFilter`. -/
abbrev TagFilter := List (Utf16 × List Utf16)

/-- Source: `Number.isNaN`. -/
def isNaN (n : JsNumber) : Bool := !n.isFinite && n.bits.val % 0x10000000000000 ≠ 0

/-- `a < b` of numbers. -/
def lessThan (a b : JsNumber) : Bool := !isNaN a && !isNaN b && a.toInt < b.toInt

/-- `a <= b` of numbers. -/
def atMost (a b : JsNumber) : Bool := !isNaN a && !isNaN b && a.toInt ≤ b.toInt

def bound (n : JsNumber) : RangeBound := ⟨.number n, true⟩

def planWindow (key : Utf16) (start stop : Option JsNumber) : Query :=
  let all := Query.equals SERIES_COLUMN (.string key)
  let column := instantColumn key
  match start, stop with
  | some start, some stop =>
    if lessThan stop start then all else .range column (some (bound start)) (some (bound stop))
  | some start, none => .and [all, .range column (some (bound start)) none]
  | none, some stop => .and [all, .range column none (some (bound stop))]
  | none, none => all

def tagClause (key : Utf16) (entry : Utf16 × List Utf16) : Query :=
  match entry.2 with
  | [value] => .equals (tagColumn key entry.1) (.string value)
  | values => .or (values.map fun v => .equals (tagColumn key entry.1) (.string v))

def planRange (key : Utf16) (start stop : Option JsNumber) (tags : TagFilter) : Query :=
  match tags with
  | [] => planWindow key start stop
  | tags => .and (planWindow key start stop :: tags.map (tagClause key))

section

-- The text of a number, and `Date.parse`.
variable (digits : JsNumber → Utf16) (parse : Utf16 → Option JsNumber)

/-- The points a query finds, in the order they were written; none where a value of the query has no key, or a
point is not read back. Source: `pointsMatching`. -/
def pointsMatching (o : Objects TimeSeriesPoint) (q : Query) : Option (List TimeSeriesPoint) :=
  if q.leaves.all Query.isWire then
    let points := (o.resolve q).filterMap o.read
    if points.all (TimeSeriesPoint.Reads digits) then some (points.map TimeSeriesPoint.reread) else none
  else none

/-- Source: `toEpoch`; none where it throws. -/
def toEpoch : Timestamp → Option JsNumber
  | .number n => some n
  | .date time => some time
  | .text s => parse s

def epoch : Option Timestamp → Option (Option JsNumber)
  | none => some none
  | some t => (toEpoch parse t).map some

def collect (o : Objects TimeSeriesPoint) (key : Utf16) (start stop : Option Timestamp) (tags : TagFilter) :
    Option (List TimeSeriesPoint) := do
  let first ← epoch parse start
  let last ← epoch parse stop
  pointsMatching digits o (planRange key first last tags)

def inOrder (desc : Bool) (a b : TimeSeriesPoint) : Prop :=
  if desc = true then b.timestamp.toInt ≤ a.timestamp.toInt else a.timestamp.toInt ≤ b.timestamp.toInt

instance (desc : Bool) : DecidableRel (inOrder desc) := fun _ _ =>
  inferInstanceAs (Decidable (if desc = true then _ else _))

/-- `slice(0, limit)`: a limit below zero counts from the end. -/
def slice {α : Type} (limit : ℤ) (l : List α) : List α :=
  if limit < 0 then l.take (l.length - limit.natAbs) else l.take limit.toNat

/-- Source: `TimeSeriesHandle.range`. -/
def range (o : Objects TimeSeriesPoint) (key : Utf16) (start stop : Option Timestamp) (tags : TagFilter)
    (desc : Bool) (limit : Option ℤ) : Option (List TimeSeriesPoint) :=
  (collect digits parse o key start stop tags).map fun points =>
    let ordered := points.insertionSort (inOrder desc)
    limit.elim ordered fun limit => slice limit ordered

end

/-! ## Aggregates -/

inductive AggregateOperation where
  | avg
  | sum
  | min
  | max
  | count
  | quantile
  | first
  | last
  | delta
  | rate

/-- The arithmetic of numbers. -/
structure Arithmetic where
  add : JsNumber → JsNumber → JsNumber
  sub : JsNumber → JsNumber → JsNumber
  mul : JsNumber → JsNumber → JsNumber
  div : JsNumber → JsNumber → JsNumber
  floor : JsNumber → JsNumber
  ceil : JsNumber → JsNumber

section

variable (N : Arithmetic)

def entryAt (l : List JsNumber) (n : JsNumber) : JsNumber :=
  (n.integer?.bind fun z => if z < 0 then none else l[z.toNat]?).getD ⟨0x7ff8000000000000⟩

def quantileOf (values : List JsNumber) (p : JsNumber) : JsNumber :=
  let sorted := values.insertionSort fun a b => a.toInt ≤ b.toInt
  let place := N.mul p (.ofNat (sorted.length - 1))
  let low := N.floor place
  let high := N.ceil place
  if low.normal = high.normal then entryAt sorted low
  else N.add (entryAt sorted low)
    (N.mul (N.sub place low) (N.sub (entryAt sorted high) (entryAt sorted low)))

def overTime (op : AggregateOperation) (points : List TimeSeriesPoint) (first : TimeSeriesPoint) : JsNumber :=
  let ordered := points.insertionSort (inOrder false)
  let first := ordered.headD first
  let last := ordered.getLastD first
  match op with
  | .first => first.value
  | .last => last.value
  | .delta => N.sub last.value first.value
  | _ =>
    let seconds := N.div (N.sub last.timestamp first.timestamp) (.ofNat 1000)
    if seconds.isZero then .zero else N.div (N.sub last.value first.value) seconds

/-- The least of some values, or the greatest. Source: `Math.min`, `Math.max`. -/
def extreme (greatest : Bool) (value : JsNumber) (values : List JsNumber) : JsNumber :=
  values.foldl (fun best v =>
    if (if greatest then best.toInt < v.toInt else v.toInt < best.toInt) then v else best) value

def computeAggregate (op : AggregateOperation) (points : List TimeSeriesPoint) (p : Option JsNumber) :
    JsNumber :=
  match op, points with
  | .count, points => .ofNat points.length
  | _, [] => .zero
  | op, first :: rest =>
    let values := (first :: rest).map TimeSeriesPoint.value
    match op with
    | .sum => values.foldl N.add .zero
    | .avg => N.div (values.foldl N.add .zero) (.ofNat values.length)
    | .min => extreme false first.value (rest.map TimeSeriesPoint.value)
    | .max => extreme true first.value (rest.map TimeSeriesPoint.value)
    | .quantile => quantileOf N values (p.getD .zero)
    | op => overTime N op (first :: rest) first

/-- A quantile is asked for with a fraction from 0 to 1. Source: `validateQuantile`. -/
def validQuantile (op : AggregateOperation) (p : Option JsNumber) : Bool :=
  match op with
  | .quantile => p.any fun p => p.isFinite && atMost .zero p && atMost p (.ofNat 1)
  | _ => true

/-- Source: `TimeSeriesHandle.aggregate`. -/
def aggregate (digits : JsNumber → Utf16) (parse : Utf16 → Option JsNumber) (o : Objects TimeSeriesPoint)
    (key : Utf16) (start stop : Option Timestamp) (tags : TagFilter) (op : AggregateOperation)
    (p : Option JsNumber) : Option JsNumber :=
  if validQuantile op p then
    (collect digits parse o key start stop tags).map fun points => computeAggregate N op points p
  else none

end

/-! ## What a window is asked for -/

def inWindow (start stop : Option JsNumber) (t : JsNumber) : Bool :=
  (start.all fun a => atMost a t) && stop.all fun b => atMost t b

def carries (tags : TagFilter) (p : TimeSeriesPoint) : Bool :=
  tags.all fun entry => entry.2.any fun value => (entry.1, value) ∈ p.tags.getD []

def seen (o : Points) (key : Utf16) (start stop : Option JsNumber) (tags : TagFilter) : List TimeSeriesPoint :=
  (o.ofSeries key).filter fun p => inWindow start stop p.timestamp && carries tags p

/-- A window answers as it is asked: a range is the first of the points seen, in the order of their times, and
an aggregate is one of exactly the points seen. -/
def Answers (N : Arithmetic) (digits : JsNumber → Utf16) (parse : Utf16 → Option JsNumber) (o : Points)
    (key : Utf16) (start stop : Option Timestamp) (tags : TagFilter) : Prop :=
  ∃ first last, epoch parse start = some first ∧ epoch parse stop = some last ∧
    (∀ (desc : Bool) (limit : Option ℕ), ∃ l : List TimeSeriesPoint,
      l.Perm ((seen o key first last tags).map TimeSeriesPoint.reread) ∧ l.Pairwise (inOrder desc) ∧
        range digits parse o.store key start stop tags desc (limit.map Int.ofNat) =
          some (limit.elim l l.take)) ∧
    ∀ op p, validQuantile op p = true → ∃ l : List TimeSeriesPoint,
      l.Perm ((seen o key first last tags).map TimeSeriesPoint.reread) ∧
        aggregate N digits parse o.store key start stop tags op p = some (computeAggregate N op l p)

def reversed (start stop : Option JsNumber) : Bool := start.any fun a => stop.any fun b => lessThan b a

/-- A window that is answered: its ends are times, all points seen in it are read back, and it does not end
before it begins unless no point of the series has the tags; one that does not has finite ends. -/
def Regular (digits : JsNumber → Utf16) (parse : Utf16 → Option JsNumber) (o : Points) (key : Utf16)
    (start stop : Option Timestamp) (tags : TagFilter) : Prop :=
  ∃ first last, epoch parse start = some first ∧ epoch parse stop = some last ∧
    (∀ p ∈ seen o key first last tags, p.Reads digits = true) ∧
    if reversed first last = true then ∀ p ∈ o.ofSeries key, carries tags p = false
    else (∀ a ∈ first, a.isFinite = true) ∧ ∀ b ∈ last, b.isFinite = true

/-! ## Which points a query finds -/

lemma isNaN_of_isFinite {n : JsNumber} (h : n.isFinite = true) : isNaN n = false := by
  simp [isNaN, h]

lemma atMost_iff {a b : JsNumber} (ha : a.isFinite = true) (hb : b.isFinite = true) :
    atMost a b = true ↔ a.toInt ≤ b.toInt := by
  simp [atMost, isNaN_of_isFinite ha, isNaN_of_isFinite hb]

lemma below_bound {a t : JsNumber} : (bound a).below (.number t) ↔ a.toInt ≤ t.toInt := by
  have heq : (OrderedScalar.number a).same (.number t) ↔ a.toInt = t.toInt :=
    JsNumber.toInt_eq_iff.symm
  show (a.toInt < t.toInt ∨ true = true ∧ (OrderedScalar.number a).same (.number t)) ↔ _
  rw [heq, and_iff_right rfl, le_iff_lt_or_eq]

lemma above_bound {b t : JsNumber} : (bound b).above (.number t) ↔ t.toInt ≤ b.toInt := by
  have heq : (OrderedScalar.number b).same (.number t) ↔ b.toInt = t.toInt :=
    JsNumber.toInt_eq_iff.symm
  show (t.toInt < b.toInt ∨ true = true ∧ (OrderedScalar.number b).same (.number t)) ↔ _
  rw [heq, and_iff_right rfl, le_iff_lt_or_eq, eq_comm]

lemma inRange_string (s : Utf16) {start stop : Option JsNumber} (h : start.isSome ∨ stop.isSome) :
    ¬inRange (start.map bound) (stop.map bound) (.string s) := by
  rintro ⟨hlower, hupper⟩
  cases stop with
  | some b =>
    have habove := (hupper (bound b) rfl).1
    simp [RangeBound.above, bound, OrderedScalar.lt, OrderedScalar.kind, OrderedScalar.same] at habove
  | none =>
    obtain ⟨a, rfl⟩ := isSome_iff_exists.1 (h.resolve_right (by simp))
    have hkind := (hlower (bound a) rfl).2 rfl
    simp [bound, OrderedScalar.kind] at hkind

lemma inRange_number {t : JsNumber} (ht : t.isFinite = true) {start stop : Option JsNumber}
    (hstart : ∀ a ∈ start, a.isFinite = true) (hstop : ∀ b ∈ stop, b.isFinite = true) :
    inRange (start.map bound) (stop.map bound) (.number t) ↔ inWindow start stop t = true := by
  unfold inRange inWindow
  rw [Bool.and_eq_true]
  refine and_congr ?_ ?_
  · cases start with
    | none => simp
    | some a =>
      simp only [map_some, mem_some_iff, forall_eq', below_bound, all_some,
        atMost_iff (hstart a rfl) ht, and_iff_left_iff_imp]
      exact fun _ _ => rfl
  · cases stop with
    | none => simp
    | some b =>
      simp only [map_some, mem_some_iff, forall_eq', above_bound, all_some,
        atMost_iff ht (hstop b rfl), and_iff_left_iff_imp]
      exact fun _ _ => rfl

lemma slash_mem_seriesKey (tenant : TenantId) (series : Utf16) : 0x2F ∈ seriesKey tenant series := by
  simp [seriesKey, utf16]

lemma series_ne {key rest : Utf16} (h : 0x2F ∈ key) : SERIES_COLUMN ≠ key ++ rest := by
  intro heq
  have hmem : (0x2F : CodeUnit) ∈ SERIES_COLUMN := by
    rw [heq]
    exact mem_append_left _ h
  revert hmem
  decide

section

variable {key key' : Utf16} {p : TimeSeriesPoint} {v : OrderedScalar}

lemma mem_seriesColumn (hkey' : 0x2F ∈ key') :
    (SERIES_COLUMN, v) ∈ (manifestOf key' p).columns ↔ v = .string key' := by
  have hinstant : SERIES_COLUMN ≠ instantColumn key' := series_ne hkey'
  have htag : ∀ tag, tagColumn key' tag ≠ SERIES_COLUMN := by
    intro tag heq
    rw [tagColumn, append_assoc] at heq
    exact series_ne hkey' heq.symm
  simp [manifestOf, hinstant, htag]

lemma mem_instantColumn (hkey : 0x2F ∈ key) (hv : ∀ s, v ≠ .string s) :
    (instantColumn key, v) ∈ (manifestOf key' p).columns ↔ key' = key ∧ v = .number p.timestamp := by
  have hinstant : instantColumn key ≠ SERIES_COLUMN := (series_ne hkey).symm
  have htag : ∀ s, ¬OrderedScalar.string s = v := fun s h => hv s h.symm
  have hinj : instantColumn key = instantColumn key' ↔ key' = key := by
    unfold instantColumn
    rw [append_left_inj, eq_comm]
  simp [manifestOf, hinstant, htag, hinj]

lemma mem_tagColumn (hkey : 0x2F ∈ key) {tag value : Utf16} :
    (tagColumn key tag, .string value) ∈ (manifestOf key p).columns ↔ (tag, value) ∈ p.tags.getD [] := by
  have hseries : tagColumn key tag ≠ SERIES_COLUMN := by
    unfold tagColumn
    rw [append_assoc]
    exact (series_ne hkey).symm
  have hinj : ∀ tag', tagColumn key tag' = tagColumn key tag ↔ tag' = tag := by
    intro tag'
    unfold tagColumn
    rw [append_right_inj]
  simp only [manifestOf, mem_cons, Prod.mk.injEq, hseries, false_and, reduceCtorEq, and_false,
    false_or, List.mem_map, hinj, OrderedScalar.string.injEq]
  constructor
  · rintro ⟨⟨tag', value'⟩, hmem, rfl, rfl⟩
    exact hmem
  · exact fun hmem => ⟨(tag, value), hmem, rfl, rfl⟩

variable {M : Manifests} {q : Seq} {start stop : Option JsNumber} {tags : TagFilter}

lemma satisfies_series (hM : M q = some (manifestOf key' p)) (hkey' : 0x2F ∈ key') :
    (Query.equals SERIES_COLUMN (.string key)).Satisfies M q ↔ key' = key := by
  simp only [Query.Satisfies, hM, mem_some_iff, exists_eq_left', mem_seriesColumn hkey',
    exists_eq_left]
  exact ⟨fun h => (OrderedScalar.string.inj h).symm, fun h => congrArg OrderedScalar.string h.symm⟩

lemma satisfies_instants (hM : M q = some (manifestOf key' p)) (hkey : 0x2F ∈ key)
    (ht : p.timestamp.isFinite = true) (hstart : ∀ a ∈ start, a.isFinite = true)
    (hstop : ∀ b ∈ stop, b.isFinite = true) (hsome : start.isSome ∨ stop.isSome) :
    (Query.range (instantColumn key) (start.map bound) (stop.map bound)).Satisfies M q ↔
      key' = key ∧ inWindow start stop p.timestamp = true := by
  simp only [Query.Satisfies, hM, mem_some_iff, exists_eq_left']
  constructor
  · rintro ⟨v, hmem, hrange⟩
    have hv : ∀ s, v ≠ .string s := by
      rintro s rfl
      exact inRange_string s hsome hrange
    obtain ⟨hkeys, rfl⟩ := (mem_instantColumn hkey hv).1 hmem
    exact ⟨hkeys, (inRange_number ht hstart hstop).1 hrange⟩
  · rintro ⟨hkeys, hwindow⟩
    exact ⟨.number p.timestamp, (mem_instantColumn hkey (by simp)).2 ⟨hkeys, rfl⟩,
      (inRange_number ht hstart hstop).2 hwindow⟩

def Bounded (start stop : Option JsNumber) : Prop :=
  reversed start stop = true ∨ (∀ a ∈ start, a.isFinite = true) ∧ ∀ b ∈ stop, b.isFinite = true

/-- The query of a window finds the points of the series in it, and where it ends before it begins all points
of the series. -/
theorem satisfies_planWindow (hM : M q = some (manifestOf key' p)) (hkey : 0x2F ∈ key)
    (hkey' : 0x2F ∈ key') (ht : p.timestamp.isFinite = true) (hbounded : Bounded start stop) :
    (planWindow key start stop).Satisfies M q ↔
      key' = key ∧ (reversed start stop || inWindow start stop p.timestamp) = true := by
  have hfinite : reversed start stop = false →
      (∀ a ∈ start, a.isFinite = true) ∧ ∀ b ∈ stop, b.isFinite = true := fun h =>
    hbounded.resolve_left (by rw [h]; exact Bool.false_ne_true)
  have hseries := @satisfies_series key _ _ _ _ hM hkey'
  unfold planWindow
  cases start with
  | none =>
    cases stop with
    | none => simp [hseries, reversed, inWindow]
    | some b =>
      obtain ⟨hstart, hstop⟩ := hfinite rfl
      have hrange := @satisfies_instants key _ _ _ _ none (some b) hM hkey ht hstart hstop (by simp)
      rw [Query.satisfies_and]
      simp only [forall_mem_cons, hseries]
      rw [show Query.range (instantColumn key) none (some (bound b)) = Query.range (instantColumn key)
        ((none : Option JsNumber).map bound) ((some b).map bound) from rfl, hrange]
      simp [reversed]
  | some a =>
    cases stop with
    | none =>
      obtain ⟨hstart, hstop⟩ := hfinite rfl
      have hrange := @satisfies_instants key _ _ _ _ (some a) none hM hkey ht hstart hstop (by simp)
      rw [Query.satisfies_and]
      simp only [forall_mem_cons, hseries]
      rw [show Query.range (instantColumn key) (some (bound a)) none = Query.range (instantColumn key)
        ((some a).map bound) ((none : Option JsNumber).map bound) from rfl, hrange]
      simp [reversed]
    | some b =>
      have hreversed : reversed (some a) (some b) = lessThan b a := rfl
      dsimp only
      rw [hreversed]
      cases hless : lessThan b a with
      | true => simp [hseries]
      | false =>
        obtain ⟨hstart, hstop⟩ := hfinite (hreversed.trans hless)
        exact @satisfies_instants key _ _ _ _ (some a) (some b) hM hkey ht hstart hstop (by simp)

lemma satisfies_tagClause (hM : M q = some (manifestOf key p)) (hkey : 0x2F ∈ key)
    (entry : Utf16 × List Utf16) : (tagClause key entry).Satisfies M q ↔
      ∃ value ∈ entry.2, (entry.1, value) ∈ p.tags.getD [] := by
  have hequals : ∀ value, (Query.equals (tagColumn key entry.1) (.string value)).Satisfies M q ↔
      (entry.1, value) ∈ p.tags.getD [] := by
    intro value
    have hsame : ∀ v, (OrderedScalar.string value).same v ↔ v = .string value := by
      intro v
      cases v <;> simp [OrderedScalar.same, eq_comm]
    simp [Query.Satisfies, hM, hsame, mem_tagColumn hkey]
  obtain ⟨tag, values⟩ := entry
  unfold tagClause
  rcases values with _ | ⟨value, _ | ⟨value', values⟩⟩
  · simp [Query.satisfies_or]
  · simp [hequals]
  · dsimp only
    rw [Query.satisfies_or]
    simp only [List.mem_map, exists_exists_and_eq_and, hequals]

/-- The query of a window and its tags finds the points of the series in it that have the tags. -/
theorem satisfies_planRange (hM : M q = some (manifestOf key' p)) (hkey : 0x2F ∈ key)
    (hkey' : 0x2F ∈ key') (ht : p.timestamp.isFinite = true) (hbounded : Bounded start stop) :
    (planRange key start stop tags).Satisfies M q ↔
      key' = key ∧ (reversed start stop || inWindow start stop p.timestamp) = true ∧
        carries tags p = true := by
  have hwindow := satisfies_planWindow hM hkey hkey' ht hbounded
  have htags : ∀ tags : TagFilter, key' = key →
      ((∀ c ∈ tags.map (tagClause key), c.Satisfies M q) ↔ carries tags p = true) := by
    rintro tags rfl
    simp only [List.forall_mem_map, satisfies_tagClause hM hkey, carries, List.all_eq_true,
      List.any_eq_true, decide_eq_true_eq]
  unfold planRange
  cases tags with
  | nil => simp [hwindow, carries]
  | cons entry tags =>
    rw [Query.satisfies_and, forall_mem_cons, hwindow, and_iff_right (cons_ne_nil _ _), and_assoc]
    refine and_congr_right fun hkeys => and_congr_right fun _ => htags _ hkeys

end

/-! ## What is read -/

lemma wire_and {qs : List Query} : (Query.and qs).Wire ↔ ∀ q ∈ qs, q.Wire := by
  simp only [Query.Wire, Query.mem_leaves_and]
  exact ⟨fun h q hq leaf hl => h leaf ⟨q, hq, hl⟩, fun h leaf ⟨q, hq, hl⟩ => h q hq leaf hl⟩

lemma wire_equals (column value : Utf16) : (Query.equals column (.string value)).Wire := by
  simp [Query.Wire, Query.leaves, Query.isWire, OrderedScalar.isOrdered]

lemma wire_tagClause (key : Utf16) (entry : Utf16 × List Utf16) : (tagClause key entry).Wire := by
  obtain ⟨tag, values⟩ := entry
  unfold tagClause
  rcases values with _ | ⟨value, _ | ⟨value', values⟩⟩
  · intro leaf hleaf
    simp [Query.mem_leaves_or] at hleaf
  · exact wire_equals _ _
  · intro leaf hleaf
    obtain ⟨q, hq, hl⟩ := Query.mem_leaves_or.1 hleaf
    obtain ⟨value, -, rfl⟩ := List.mem_map.1 hq
    exact wire_equals _ _ leaf hl

lemma wire_range {column : Utf16} {start stop : Option JsNumber} :
    (Query.range column (start.map bound) (stop.map bound)).Wire ↔
      (∀ a ∈ start, a.isFinite = true) ∧ ∀ b ∈ stop, b.isFinite = true := by
  cases start <;> cases stop <;>
    simp [Query.Wire, Query.leaves, Query.isWire, OrderedScalar.isOrdered, bound]

lemma wire_planWindow {key : Utf16} {start stop : Option JsNumber} :
    (planWindow key start stop).Wire ↔ Bounded start stop := by
  have hrange := @wire_range (instantColumn key) start stop
  have hseries : (Query.equals SERIES_COLUMN (.string key)).Wire := wire_equals _ _
  unfold planWindow Bounded
  cases start with
  | none =>
    cases stop with
    | none => simp [hseries]
    | some b =>
      rw [wire_and, forall_mem_cons, forall_mem_singleton, and_iff_right hseries]
      exact hrange.trans (by simp [reversed])
  | some a =>
    cases stop with
    | none =>
      rw [wire_and, forall_mem_cons, forall_mem_singleton, and_iff_right hseries]
      exact hrange.trans (by simp [reversed])
    | some b =>
      dsimp only
      rw [show reversed (some a) (some b) = lessThan b a from rfl]
      cases hless : lessThan b a with
      | true => simp [hseries]
      | false =>
        rw [if_neg Bool.false_ne_true, or_iff_right Bool.false_ne_true]
        exact hrange

lemma wire_planRange {key : Utf16} {start stop : Option JsNumber} {tags : TagFilter} :
    (planRange key start stop tags).leaves.all Query.isWire = true ↔ Bounded start stop := by
  rw [List.all_eq_true, ← @wire_planWindow key]
  cases tags with
  | nil => exact Iff.rfl
  | cons entry tags =>
    show (Query.and _).Wire ↔ _
    rw [wire_and, forall_mem_cons]
    refine and_iff_left fun c hc => ?_
    obtain ⟨entry', -, rfl⟩ := List.mem_map.1 hc
    exact wire_tagClause key entry'

lemma filterMap_read {α : Type} (o : Objects α) (q : Query) : (o.resolve q).filterMap o.read =
      (o.held.entries.filter fun e => q.Satisfies o.manifests e.1).map fun e => e.2.body := by
  unfold Objects.resolve
  rw [List.filter_map, filterMap_map]
  rw [← filterMap_eq_map]
  refine filterMap_congr fun e he => ?_
  have hheld : o.held.get e.1 = some e.2 := OrderedMap.mem_entries.1 (mem_of_mem_filter he)
  show (o.held.get e.1).map Held.body = some e.2.body
  rw [hheld]
  rfl

variable {first last : Option JsNumber}

section

variable {digits : JsNumber → Utf16} {parse : Utf16 → Option JsNumber} {o : Points} {tenant : TenantId}
  {series : Utf16} {tags : TagFilter}

def found (o : Points) (key : Utf16) (start stop : Option JsNumber) (tags : TagFilter) :
    List TimeSeriesPoint :=
  (o.ofSeries key).filter fun p =>
    (reversed start stop || inWindow start stop p.timestamp) && carries tags p

lemma read_planRange {start stop : Option JsNumber} (hbounded : Bounded start stop) :
    (o.store.resolve (planRange (seriesKey tenant series) start stop tags)).filterMap o.store.read =
      found o (seriesKey tenant series) start stop tags := by
  unfold found Points.ofSeries
  rw [filterMap_read, List.filter_map, List.filter_filter]
  refine congrArg _ (filter_congr fun e he => ?_)
  have hheld : o.store.held.get e.1 = some e.2 := OrderedMap.mem_entries.1 he
  obtain ⟨ht, tenant', series', hmanifest⟩ := o.kept hheld
  have hM : o.store.manifests e.1 = some (manifestOf (seriesKey tenant' series') e.2.body) := by
    rw [← hmanifest]
    exact congrArg (Option.map Held.manifest) hheld
  have hkey : seriesKey tenant' series' = seriesKey tenant series ↔
      e.2.manifest = manifestOf (seriesKey tenant series) e.2.body := by
    rw [hmanifest]
    refine ⟨fun h => by rw [h], fun h => ?_⟩
    have hcolumns := congrArg IndexManifest.columns h
    exact OrderedScalar.string.inj (Prod.mk.inj (List.cons.inj hcolumns).1).2
  rw [Bool.eq_iff_iff, decide_eq_true_eq, satisfies_planRange hM (slash_mem_seriesKey _ _)
    (slash_mem_seriesKey _ _) ht hbounded, hkey]
  simp only [Function.comp_apply, Bool.and_eq_true, decide_eq_true_eq]
  tauto

/-- A window reads the points found, where its ends are bounded and every one of them is read back. -/
theorem collect_eq {start stop : Option Timestamp}
    (hstart : epoch parse start = some first) (hstop : epoch parse stop = some last)
    {l : List TimeSeriesPoint} :
    collect digits parse o.store (seriesKey tenant series) start stop tags = some l ↔ Bounded first last ∧
        (∀ p ∈ found o (seriesKey tenant series) first last tags, p.Reads digits = true) ∧
        l = (found o (seriesKey tenant series) first last tags).map TimeSeriesPoint.reread := by
  have hcollect : collect digits parse o.store (seriesKey tenant series) start stop tags =
      pointsMatching digits o.store (planRange (seriesKey tenant series) first last tags) := by
    unfold collect
    rw [hstart, hstop]
    rfl
  rw [hcollect]
  unfold pointsMatching
  by_cases hbounded : Bounded first last
  · rw [if_pos (wire_planRange.2 hbounded), read_planRange hbounded]
    dsimp only
    rw [and_iff_right hbounded]
    split_ifs with hreads
    · rw [Option.some.injEq, eq_comm, and_iff_right (List.all_eq_true.1 hreads)]
    · refine iff_of_false (by simp) fun h => hreads (List.all_eq_true.2 h.1)
  · rw [if_neg fun h => hbounded (wire_planRange.1 h)]
    exact iff_of_false (by simp) fun h => hbounded h.1

variable {key : Utf16}

lemma found_of_not_reversed
    (h : reversed first last = false) : found o key first last tags = seen o key first last tags := by
  unfold found seen
  rw [h]
  simp

lemma seen_of_reversed (h : reversed first last = true) : seen o key first last tags = [] := by
  refine filter_eq_nil_iff.2 fun p _ hp => ?_
  obtain ⟨a, ha, hrest⟩ := (Option.any_eq_true _ _).1 h
  obtain ⟨b, hb, hless⟩ := (Option.any_eq_true _ _).1 hrest
  rw [Bool.and_eq_true, inWindow, Bool.and_eq_true] at hp
  obtain ⟨⟨hstart, hstop⟩, -⟩ := hp
  subst ha hb
  simp only [all_some, atMost, lessThan, Bool.and_eq_true, decide_eq_true_eq] at hstart hstop hless
  omega

instance (desc : Bool) : Std.Total (inOrder desc) := ⟨fun a b => by
  unfold inOrder
  split_ifs
  · exact le_total _ _
  · exact le_total _ _⟩

instance (desc : Bool) : IsTrans TimeSeriesPoint (inOrder desc) := ⟨fun a b c => by
  unfold inOrder
  split_ifs
  · exact fun h h' => h'.trans h
  · exact fun h h' => h.trans h'⟩

variable (N : Arithmetic) {start stop : Option Timestamp}

lemma answers_of_regular (h : Regular digits parse o (seriesKey tenant series) start stop tags) :
    Answers N digits parse o (seriesKey tenant series) start stop tags := by
  obtain ⟨first, last, hstart, hstop, hreads, hcond⟩ := h
  have hfound : found o (seriesKey tenant series) first last tags =
      seen o (seriesKey tenant series) first last tags := by
    cases hreversed : reversed first last with
    | false => exact found_of_not_reversed hreversed
    | true =>
      rw [if_pos hreversed] at hcond
      rw [seen_of_reversed hreversed]
      refine filter_eq_nil_iff.2 fun p hp => ?_
      rw [hcond p hp, Bool.and_false]
      exact Bool.false_ne_true
  have hbounded : Bounded first last := by
    cases hreversed : reversed first last with
    | true => exact .inl hreversed
    | false => exact .inr (by rwa [hreversed, if_neg Bool.false_ne_true] at hcond)
  have hcollect : collect digits parse o.store (seriesKey tenant series) start stop tags =
      some ((seen o (seriesKey tenant series) first last tags).map TimeSeriesPoint.reread) :=
    (collect_eq hstart hstop).2 ⟨hbounded, hfound ▸ hreads, by rw [hfound]⟩
  refine ⟨first, last, hstart, hstop, fun desc limit => ?_, fun op p hp => ?_⟩
  · refine ⟨_, perm_insertionSort (inOrder desc) _, pairwise_insertionSort (inOrder desc) _, ?_⟩
    unfold range
    rw [hcollect]
    cases limit with
    | none => rfl
    | some limit =>
      show some (slice (Int.ofNat limit) _) = _
      unfold slice
      rfl
  · refine ⟨_, List.Perm.refl _, ?_⟩
    unfold aggregate
    rw [if_pos hp, hcollect]
    rfl

/-- Where both answers are of the points seen the window is regular: a range without a limit shows what is
read. -/
theorem regular_of_answers (h : Answers N digits parse o (seriesKey tenant series) start stop tags) :
    Regular digits parse o (seriesKey tenant series) start stop tags := by
  obtain ⟨first, last, hstart, hstop, hrange, -⟩ := h
  obtain ⟨l, hperm, -, hl⟩ := hrange false none
  obtain ⟨points, hpoints, hsorted⟩ := map_eq_some_iff.1 hl
  obtain ⟨hbounded, hreads, rfl⟩ := (collect_eq hstart hstop).1 hpoints
  have hsame : ((found o (seriesKey tenant series) first last tags).map TimeSeriesPoint.reread).Perm
      ((seen o (seriesKey tenant series) first last tags).map TimeSeriesPoint.reread) := by
    refine List.Perm.trans ?_ hperm
    replace hsorted : List.insertionSort (inOrder false) _ = l := hsorted
    rw [← hsorted]
    exact (perm_insertionSort (inOrder false) _).symm
  refine ⟨first, last, hstart, hstop, ?_, ?_⟩
  · cases hreversed : reversed first last with
    | true => simp [seen_of_reversed hreversed]
    | false => rwa [found_of_not_reversed hreversed] at hreads
  · split_ifs with hreversed
    · intro p hp
      rw [seen_of_reversed hreversed, map_nil, perm_nil, map_eq_nil_iff] at hsame
      have hnot := filter_eq_nil_iff.1 hsame p hp
      rwa [hreversed, Bool.true_or, Bool.true_and, Bool.not_eq_true] at hnot
    · exact hbounded.resolve_left hreversed

end

/-- A range of a series is the first points of a window in the order of their times, and an aggregate is one of
exactly the points of the window, whatever order, limit, operation and fraction are asked for, exactly where
the window is regular. -/
theorem timeSeries_iff (N : Arithmetic) (digits : JsNumber → Utf16) (parse : Utf16 → Option JsNumber)
    (o : Points) (tenant : TenantId) (series : Utf16) (start stop : Option Timestamp) (tags : TagFilter) :
    Answers N digits parse o (seriesKey tenant series) start stop tags ↔
      Regular digits parse o (seriesKey tenant series) start stop tags :=
  ⟨regular_of_answers N, answers_of_regular N⟩

/-- A window that ends before it begins reads the whole series. -/
theorem not_timeSeries : ¬∀ N digits parse o tenant series start stop tags,
    Answers N digits parse o (seriesKey tenant series) start stop tags := by
  intro h
  let N : Arithmetic := ⟨fun a _ => a, fun a _ => a, fun a _ => a, fun a _ => a, id, id⟩
  let o := Points.empty.write (utf16 "t") (utf16 "s") ⟨.ofNat 3, .ofNat 5, none, none⟩ (by decide +kernel)
  obtain ⟨first, last, hfirst, hlast, hrange, -⟩ := h N (fun _ => []) (fun _ => none) o (utf16 "t") (utf16 "s")
    (some (.number (.ofNat 2))) (some (.number (.ofNat 1))) []
  cases hfirst
  cases hlast
  obtain ⟨l, hperm, -, hl⟩ := hrange false none
  rw [seen_of_reversed (by decide +kernel), List.map_nil, List.perm_nil] at hperm
  subst hperm
  have hlength := congrArg (Option.map List.length) hl
  exact absurd hlength (by decide +kernel)

end Zelavis.Db.TimeSeries
