import Zelavis.Db.OrderedReads
import Zelavis.Db.TupleOrder

/-!
# Scans of the engines

`memory-kv.ts`, `sqlite-kv.ts` and `rocksdb-js.ts` `scan`: one range, asked of a sorted array, of a table of a
SQLite database and of an iterator of RocksDB. A limit is a whole number.
-/

namespace Zelavis.Db.Engines

open Lib OrderedMap List
open OrderedReads (directed)
open IndexTuples (hexOf_lt_iff)

abbrev Entry := Key × Bytes

/-- Source: `kv.ts` `KvScanOptions`. -/
structure KvScanOptions where
  lower : Option Key := none
  upper : Option Key := none
  reverse : Bool := false
  limit : Option ℤ := none

/-- Source: `kv.ts` `scanRange`, its `empty`. -/
def isEmpty (range : Key × Option Key) : Bool := range.2.any fun hi => 0 ≤ compareKeys range.1 hi

/-- At most so many entries, and none for a limit below zero. -/
def limited (limit : Option ℤ) (entries : List Entry) : List Entry :=
  limit.elim entries fun n => entries.take n.toNat

/-- The entries under the prefix and within the bounds, in the direction asked for and cut to the limit. -/
def reference (m : OrderedMap Key Bytes) (pre : Key) (options : KvScanOptions) : List Entry :=
  limited options.limit (directed options.reverse (m.entries.filter fun e =>
    pre.isPrefixOf e.1 ∧ (∀ l ∈ options.lower, l ≤ e.1) ∧ ∀ u ∈ options.upper, e.1 < u))

/-! ## In memory -/

/-- The loop of a binary search, as often as it goes round; `hi` is one more than the source's.
Source: `memory-kv.ts` `indexOf`. -/
def indexOfFrom (entries : List Entry) (key : Key) : ℕ → ℕ → ℕ → ℤ
  | 0, lo, _ => -lo - 1
  | fuel + 1, lo, hi =>
    if lo < hi then
      let mid := (lo + (hi - 1)) / 2
      let cmp := compareKeys (entries.getD mid default).1 key
      if cmp = 0 then mid
      else if cmp < 0 then indexOfFrom entries key fuel (mid + 1) hi
      else indexOfFrom entries key fuel lo mid
    else -lo - 1

def indexOf (entries : List Entry) (key : Key) : ℤ := indexOfFrom entries key entries.length 0 entries.length

/-- Where a key is, or where it would go. -/
def position (entries : List Entry) (key : Key) : ℕ :=
  let found := indexOf entries key
  (if found < 0 then -found - 1 else found).toNat

def slice (entries : List Entry) (start stop : ℕ) : List Entry := (entries.take stop).drop start

/-- Source: `memory-kv.ts` `memoryKvEngine.scan`. -/
def memoryScan (entries : List Entry) (pre : Key) (options : KvScanOptions) : List Entry :=
  let range := scanRange pre options.lower options.upper
  if isEmpty range then []
  else
    let start := position entries range.1
    let stop := range.2.elim entries.length (position entries)
    let count := (max 0 (options.limit.elim (stop - start : ℤ) (min (stop - start)))).toNat
    if options.reverse then (slice entries (stop - count) stop).reverse else slice entries start (start + count)

/-! ## In SQLite -/

section

variable {C : Type} [LinearOrder C]

/-- Keys as values of a column. Source: `sqlite-kv.ts` `toKey`, `fromKey`. -/
structure KeyEncoding (C : Type) [LinearOrder C] where
  toKey : Key → C
  fromKey : C → Key
  toKey_lt_iff : ∀ a b, toKey a < toKey b ↔ a < b
  fromKey_toKey : ∀ a, fromKey (toKey a) = a

def blob : KeyEncoding Bytes := ⟨id, id, fun _ _ => Iff.rfl, fun _ => rfl⟩

def hex : KeyEncoding Utf16 := ⟨hexOf, ofHex, hexOf_lt_iff, ofHex_hexOf⟩

/-- The statements of a scan and what is bound to them, but for the limit. Source: `sqlite-kv.ts`. -/
inductive Statement (C : Type) where
  | SCAN_TO (lo hi : C)
  | SCAN_FROM (lo : C)
  | SCAN_TO_DESC (lo hi : C)
  | SCAN_FROM_DESC (lo : C)

/-- Source: `sqlite-kv.ts` `sqliteKvEngineOver.scan`. -/
def sqliteScan (encoding : KeyEncoding C) (iterate : Statement C → ℤ → List (C × Bytes)) (pre : Key)
    (options : KvScanOptions) : List Entry :=
  let range := scanRange pre options.lower options.upper
  if isEmpty range then []
  else
    let limit := options.limit.getD (-1)
    let lo := encoding.toKey range.1
    let rows := match range.2 with
      | none => iterate (if options.reverse then .SCAN_FROM_DESC lo else .SCAN_FROM lo) limit
      | some hi =>
        let hi := encoding.toKey hi
        iterate (if options.reverse then .SCAN_TO_DESC lo hi else .SCAN_TO lo hi) limit
    rows.map fun row => (encoding.fromKey row.1, row.2)

/-- The rows that a statement selects of a table, in their order. -/
def Statement.rows (table : OrderedMap C Bytes) : Statement C → List (C × Bytes)
  | SCAN_TO lo hi => table.between lo (some hi)
  | SCAN_FROM lo => table.between lo none
  | SCAN_TO_DESC lo hi => (table.between lo (some hi)).reverse
  | SCAN_FROM_DESC lo => (table.between lo none).reverse

/-- The database has the entries in a table, and reads a negative limit as none. -/
def Tabulates (encoding : KeyEncoding C) (m : OrderedMap Key Bytes)
    (iterate : Statement C → ℤ → List (C × Bytes)) : Prop :=
  ∃ table : OrderedMap C Bytes, (∀ e, e ∈ table.entries ↔ e ∈ m.entries.map fun e => (encoding.toKey e.1, e.2)) ∧
    ∀ statement limit, iterate statement limit =
      if limit < 0 then statement.rows table else (statement.rows table).take limit.toNat

end

/-! ## In RocksDB -/

/-- Entries per step of a scan. Source: `rocksdb-js.ts`. -/
def SCAN_BATCH : ℕ := 1024

section

variable (range : Key × Option Key) (reverse : Bool)

/-- What is pulled until a batch is full: the batch, whether it is the last, and what is left of the limit and
of the iterator. Source: `rocksdb-js.ts` `makeRocksdbJsEngine.scan`, its inner loop. -/
def nextBatch : ℕ → Option ℤ → List Entry → List Entry × Bool × Option ℤ × List Entry
  | 0, left, rest => ([], false, left, rest)
  | _ + 1, left, [] => ([], true, left, [])
  | room + 1, left, entry :: rest =>
    if reverse ∧ range.2.any (0 ≤ compareKeys entry.1 ·) then nextBatch (room + 1) left rest
    else if reverse ∧ compareKeys entry.1 range.1 < 0 then ([], true, left, rest)
    else
      let left := left.map (· - 1)
      if left.any (· ≤ 0) then ([entry], true, left, rest)
      else
        let batch := nextBatch room left rest
        (entry :: batch.1, batch.2)

/-- The batches one after the other, as often as the outer loop goes round. -/
def batches : ℕ → Option ℤ → List Entry → List (List Entry)
  | 0, _, _ => []
  | fuel + 1, left, entries =>
    let pulled := nextBatch range reverse SCAN_BATCH left entries
    pulled.1 :: if pulled.2.1 then [] else batches fuel pulled.2.2.1 pulled.2.2.2

end

/-- Source: `rocksdb-js.ts` `makeRocksdbJsEngine.scan`; `getRange` is given a start, an end and a direction. -/
def rocksdbScan (getRange : Option Key → Option Key → Bool → List Entry) (pre : Key) (options : KvScanOptions) :
    List Entry :=
  let range := scanRange pre options.lower options.upper
  if isEmpty range ∨ options.limit.any (· ≤ 0) then []
  else
    let entries :=
      if options.reverse then getRange (range.2.filter (· ≠ [])) none true
      else getRange ((some range.1).filter (· ≠ [])) (range.2.filter (· ≠ [])) false
    (batches range options.reverse (entries.length + 1) options.limit entries).flatten

/-- The iterator of a database with these entries, by bounds that are not empty: half-open forwards, and backwards
from the start, which is included. -/
def Ranges (m : OrderedMap Key Bytes) (getRange : Option Key → Option Key → Bool → List Entry) : Prop :=
  (∀ start stop : Option Key, start ≠ some [] → stop ≠ some [] → getRange start stop false =
    m.entries.filter fun e => (∀ s ∈ start, s ≤ e.1) ∧ ∀ s ∈ stop, e.1 < s) ∧
  ∀ start : Option Key, start ≠ some [] → getRange start none true =
    (m.entries.filter fun e => ∀ s ∈ start, e.1 ≤ s).reverse

/-! ## The range -/

variable {m : OrderedMap Key Bytes} {pre key lo : Key} {options : KvScanOptions} {range : Key × Option Key}
  {entries : List Entry}

lemma between_scanRange (options : KvScanOptions) : m.between (scanRange pre options.lower options.upper).1
    (scanRange pre options.lower options.upper).2 = m.entries.filter fun e =>
      pre.isPrefixOf e.1 ∧ (∀ l ∈ options.lower, l ≤ e.1) ∧ ∀ u ∈ options.upper, e.1 < u := by
  refine filter_congr fun e _ => ?_
  have hupper : (∀ h ∈ (scanRange pre options.lower options.upper).2, e.1 < h) ↔
      (∀ u ∈ options.upper, e.1 < u) ∧ ∀ h ∈ prefixEnd pre, e.1 < h := lt_lowerEnd_iff
  have hlower : (scanRange pre options.lower options.upper).1 ≤ e.1 ↔ pre ≤ e.1 ∧ ∀ l ∈ options.lower, l ≤ e.1 :=
    le_scanRange_iff
  have hprefix := prefixEnd_range pre e.1
  rw [Bool.eq_iff_iff]
  simp only [Bool.and_eq_true, decide_eq_true_eq, List.isPrefixOf_iff_prefix, Option.all_eq_true, hlower]
  exact (and_congr_right' hupper).trans (by tauto)

lemma isEmpty_iff : isEmpty range = true ↔ ∃ hi ∈ range.2, hi ≤ range.1 := by
  simp [isEmpty, Option.any_eq_true, ← not_lt, compareKeys_neg_iff]

lemma between_of_isEmpty (h : isEmpty range = true) : m.between range.1 range.2 = [] := by
  obtain ⟨hi, hhi, hle⟩ := isEmpty_iff.1 h
  refine eq_nil_iff_forall_not_mem.2 fun e he => ?_
  obtain ⟨-, hlo, hlt⟩ := mem_between.1 he
  exact absurd (hle.trans hlo) (not_le.2 (hlt hi hhi))

@[simp]
lemma limited_nil {limit : Option ℤ} : limited limit [] = [] := by
  cases limit <;> simp [limited]

@[simp]
lemma directed_nil {reverse : Bool} : directed reverse ([] : List Entry) = [] := by simp [directed]

/-! ## In memory -/

/-- Where the keys below one end. -/
def Cut (entries : List Entry) (key : Key) (n : ℕ) : Prop :=
  n ≤ entries.length ∧ ∀ i (hi : i < entries.length), entries[i].1 < key ↔ i < n

lemma exists_cut (key : Key) (hsorted : entries.Pairwise fun a b => a.1 < b.1) : ∃ n, Cut entries key n := by
  induction entries with
  | nil => exact ⟨0, by simp [Cut]⟩
  | cons e entries ih =>
    obtain ⟨hfirst, hrest⟩ := pairwise_cons.1 hsorted
    by_cases he : e.1 < key
    · obtain ⟨n, hn, hcut⟩ := ih hrest
      refine ⟨n + 1, by simpa using hn, fun i hi => ?_⟩
      cases i with
      | zero => simp [he]
      | succ i => simpa using hcut i (by simpa using hi)
    · refine ⟨0, by simp, fun i hi => ?_⟩
      cases i with
      | zero => simp [he]
      | succ i =>
        have hi : i < entries.length := by simpa using hi
        simpa using (not_lt.1 he).trans (hfirst _ (entries.getElem_mem hi)).le

lemma indexOfFrom_cut (hsorted : entries.Pairwise fun a b => a.1 < b.1) {n : ℕ} (h : Cut entries key n)
    {fuel lo hi : ℕ} (hfuel : hi - lo ≤ fuel) (hlo : lo ≤ n) (hhi : n ≤ hi) (hle : hi ≤ entries.length) :
    (if indexOfFrom entries key fuel lo hi < 0 then -indexOfFrom entries key fuel lo hi - 1
      else indexOfFrom entries key fuel lo hi) = n := by
  induction fuel generalizing lo hi with
  | zero =>
    rw [indexOfFrom, if_pos (by omega)]
    omega
  | succ fuel ih =>
    rw [indexOfFrom]
    by_cases hlt : lo < hi
    · rw [if_pos hlt]
      have hmid : (lo + (hi - 1)) / 2 < entries.length := by omega
      have hget : entries.getD ((lo + (hi - 1)) / 2) default = entries[(lo + (hi - 1)) / 2] := by simp [hmid]
      have hcut := h.2 _ hmid
      simp only [hget]
      rcases lt_trichotomy entries[(lo + (hi - 1)) / 2].1 key with hkey | hkey | hkey
      · have hneg := (compareKeys_neg_iff _ _).2 hkey
        rw [if_neg hneg.ne, if_pos hneg]
        exact ih (by omega) (hcut.1 hkey) hhi hle
      · have hzero : compareKeys entries[(lo + (hi - 1)) / 2].1 key = 0 := by
          have := compareKeys_neg_iff entries[(lo + (hi - 1)) / 2].1 key
          have := compareKeys_pos_iff entries[(lo + (hi - 1)) / 2].1 key
          simp only [hkey, lt_self_iff_false, iff_false] at *
          omega
        have hge : n ≤ (lo + (hi - 1)) / 2 := not_lt.1 fun hlt => hkey.not_lt (hcut.2 hlt)
        have hle : (lo + (hi - 1)) / 2 ≤ n := not_lt.1 fun hlt => lt_irrefl n ((h.2 n (by omega)).1
          ((pairwise_iff_getElem.1 hsorted _ _ _ _ hlt).trans_eq hkey))
        split <;> omega
      · have hpos := (compareKeys_pos_iff _ _).2 hkey
        rw [if_neg hpos.ne', if_neg hpos.not_gt]
        exact ih (by omega) hlo (not_lt.1 fun hlt => hkey.not_gt (hcut.2 hlt)) (by omega)
    · rw [if_neg hlt, if_pos (by omega)]
      omega

/-- The binary search parts the entries at the key. -/
theorem position_spec (key : Key) (hsorted : entries.Pairwise fun a b => a.1 < b.1) : position entries key ≤ entries.length ∧
    (∀ e ∈ entries.take (position entries key), e.1 < key) ∧ ∀ e ∈ entries.drop (position entries key), key ≤ e.1 := by
  obtain ⟨n, hn, hcut⟩ := exists_cut key hsorted
  have hposition : position entries key = n := by
    have hfound := indexOfFrom_cut hsorted ⟨hn, hcut⟩ (Nat.sub_le entries.length 0) (Nat.zero_le n) hn le_rfl
    exact (congrArg Int.toNat hfound).trans (Int.toNat_natCast n)
  rw [hposition]
  refine ⟨hn, fun e he => ?_, fun e he => ?_⟩
  · obtain ⟨i, hi, rfl⟩ := mem_take_iff_getElem.1 he
    exact (hcut i (by omega)).2 (by omega)
  · obtain ⟨i, hi, rfl⟩ := mem_drop_iff_getElem.1 he
    exact not_lt.1 fun hlt => absurd ((hcut _ (by omega)).1 hlt) (by omega)

lemma slice_eq_filter {start stop : ℕ} {p : Entry → Bool} (hle : start ≤ stop)
    (hbelow : ∀ e ∈ entries.take start, e.1 < lo) (habove : ∀ e ∈ entries.drop start, lo ≤ e.1)
    (hin : ∀ e ∈ entries.take stop, p e = true) (hout : ∀ e ∈ entries.drop stop, p e = false) :
    slice entries start stop = entries.filter fun e => decide (lo ≤ e.1) && p e := by
  have htake : entries.filter p = entries.take stop := by
    conv_lhs => rw [← take_append_drop stop entries]
    rw [filter_append, filter_eq_self.2 hin, filter_eq_nil_iff.2 (by simpa using hout), append_nil]
  rw [← List.filter_filter, htake, slice]
  conv_rhs => rw [← take_append_drop start (entries.take stop)]
  rw [filter_append, take_take, min_eq_left hle, filter_eq_nil_iff.2, nil_append,
    filter_eq_self.2]
  · intro e he
    rw [drop_take] at he
    simpa using habove e (mem_of_mem_take he)
  · intro e he
    simpa using hbelow e he

lemma memoryScan_eq : memoryScan m.entries pre options = reference m pre options := by
  rw [reference, ← between_scanRange, memoryScan]
  generalize scanRange pre options.lower options.upper = range
  by_cases hempty : isEmpty range = true
  · simp [hempty, between_of_isEmpty hempty]
  · rw [if_neg hempty]
    obtain ⟨hstart, hbelow, habove⟩ := position_spec range.1 m.sorted
    have hstop : range.2.elim m.entries.length (position m.entries) ≤ m.entries.length ∧
        (∀ e ∈ m.entries.take (range.2.elim m.entries.length (position m.entries)), ∀ h ∈ range.2, e.1 < h) ∧
        ∀ e ∈ m.entries.drop (range.2.elim m.entries.length (position m.entries)), ∃ h ∈ range.2, h ≤ e.1 := by
      cases range.2 with
      | none => simp
      | some hi => simpa using position_spec hi m.sorted
    generalize range.2.elim m.entries.length (position m.entries) = stop at hstop
    generalize position m.entries range.1 = start at hstart hbelow habove
    obtain ⟨hstop, hin, hout⟩ := hstop
    have hle : start ≤ stop := by
      by_contra hlt
      obtain ⟨e, he⟩ := exists_mem_of_ne_nil (List.drop stop (m.entries.take start)) fun hnil => by
        have := congrArg List.length hnil
        simp at this
        omega
      rw [drop_take] at he
      obtain ⟨hi, hhi, hle⟩ := hout e (mem_of_mem_take he)
      rw [← drop_take] at he
      exact hempty (isEmpty_iff.2 ⟨hi, hhi, hle.trans (hbelow e (mem_of_mem_drop he)).le⟩)
    have hslice : m.between range.1 range.2 = (m.entries.drop start).take (stop - start) := by
      rw [← drop_take]
      refine (slice_eq_filter hle hbelow habove (fun e he => ?_) fun e he => ?_).symm
      · simpa [Option.all_eq_true] using hin e he
      · obtain ⟨h, hh, hle⟩ := hout e he
        simp [Option.mem_def.1 hh, hle]
    have hcount : (max 0 (options.limit.elim (stop - start : ℤ) (min (stop - start)))).toNat =
        options.limit.elim (stop - start) fun n => min n.toNat (stop - start) := by
      cases options.limit with
      | none => simp; omega
      | some n => simp; omega
    simp only [hcount, slice]
    have hreverse : ∀ n ≤ stop - start, ((m.entries.take stop).drop (stop - n)).reverse =
        (m.entries.take stop).reverse.take n := by
      intro n hn
      rw [reverse_drop, length_take, min_eq_left hstop, Nat.sub_sub_self (by omega)]
    have hdirected : directed options.reverse (m.between range.1 range.2) =
        if options.reverse then (m.entries.take stop).reverse.take (stop - start)
        else (m.entries.drop start).take (stop - start) := by
      rw [directed, hslice, ← hreverse _ le_rfl, Nat.sub_sub_self hle, drop_take]
    rw [hdirected]
    cases hlimit : options.limit with
    | none =>
      split
      · exact hreverse _ le_rfl
      · rw [drop_take]
        simp [limited]
    | some n =>
      split
      · simp [limited, hreverse _ (min_le_right _ _), take_take]
      · rw [drop_take]
        simp [limited, take_take]

/-! ## In SQLite -/

section

variable {C : Type} [LinearOrder C] {encoding : KeyEncoding C} {iterate : Statement C → ℤ → List (C × Bytes)}

lemma KeyEncoding.toKey_le_iff (a b : Key) : encoding.toKey a ≤ encoding.toKey b ↔ a ≤ b := by
  rw [← not_lt, encoding.toKey_lt_iff, not_lt]

lemma between_table (range : Key × Option Key) {table : OrderedMap C Bytes}
    (h : ∀ e, e ∈ table.entries ↔ e ∈ m.entries.map fun e => (encoding.toKey e.1, e.2)) :
    (table.between (encoding.toKey range.1) (range.2.map encoding.toKey)).map
      (fun row => (encoding.fromKey row.1, row.2)) = m.between range.1 range.2 := by
  have hentries : table.entries = m.entries.map fun e => (encoding.toKey e.1, e.2) :=
    entries_ext table.sorted (pairwise_map.2 (m.sorted.imp fun h => (encoding.toKey_lt_iff _ _).2 h)) h
  rw [between, hentries, List.filter_map, List.map_map, between]
  refine (map_congr_left fun e _ => ?_).trans ((List.map_id _).trans (filter_congr fun e _ => ?_))
  · simp [encoding.fromKey_toKey]
  · rw [Bool.eq_iff_iff]
    cases range.2 <;> simp [KeyEncoding.toKey_le_iff, encoding.toKey_lt_iff]

lemma sqliteScan_eq (h : Tabulates encoding m iterate) : sqliteScan encoding iterate pre options =
    if options.limit.getD (-1) < 0 then reference m pre { options with limit := none }
    else reference m pre options := by
  obtain ⟨table, htable, hiterate⟩ := h
  have hrows := between_table (scanRange pre options.lower options.upper) htable
  simp only [reference, ← between_scanRange options, sqliteScan]
  generalize scanRange pre options.lower options.upper = range at *
  by_cases hempty : isEmpty range = true
  · simp [hempty, between_of_isEmpty hempty]
  · rw [if_neg hempty]
    have hselect : ∀ statement : Statement C, (statement.rows table).map (fun row => (encoding.fromKey row.1, row.2)) =
        directed options.reverse (m.between range.1 range.2) → (iterate statement (options.limit.getD (-1))).map
          (fun row => (encoding.fromKey row.1, row.2)) = if options.limit.getD (-1) < 0 then
            directed options.reverse (m.between range.1 range.2)
          else limited options.limit (directed options.reverse (m.between range.1 range.2)) := by
      intro statement hstatement
      rw [hiterate]
      cases hlimit : options.limit with
      | none => simpa using hstatement
      | some n =>
        by_cases hn : n < 0
        · simpa [hn] using hstatement
        · simp [hn, limited, map_take, hstatement]
    cases hhi : range.2 <;> cases hreverse : options.reverse <;> rw [hhi] at hrows hselect <;>
      rw [hreverse] at hselect <;> refine hselect _ ?_ <;> simp [Statement.rows, directed, ← hrows]

end

/-! ## In RocksDB -/

variable {rest : List Entry} {e : Entry}

section

variable {reverse : Bool} {left : Option ℤ}

/-- What a scan keeps of the entries an iterator has left: backwards those in the range. -/
def kept (range : Key × Option Key) (reverse : Bool) (left : Option ℤ) (entries : List Entry) : List Entry :=
  limited left (if reverse then entries.filter fun e => range.1 ≤ e.1 ∧ ∀ h ∈ range.2, e.1 < h else entries)

def Descends (reverse : Bool) (entries : List Entry) : Prop :=
  reverse = true → entries.Pairwise fun a b => b.1 < a.1

lemma limited_cons (hleft : ∀ n ∈ left, 0 < n) :
    limited left (e :: rest) = e :: limited (left.map (· - 1)) rest := by
  cases left with
  | none => rfl
  | some n =>
    have hn : n.toNat = (n - 1).toNat + 1 := by
      have := hleft n rfl
      omega
    rw [limited, Option.elim_some, hn, take_succ_cons]
    rfl

lemma kept_skip (h : ∃ hi ∈ range.2, hi ≤ e.1) :
    kept range true left (e :: rest) = kept range true left rest := by
  obtain ⟨hi, hhi, hle⟩ := h
  rw [kept, kept, if_pos rfl, if_pos rfl, filter_cons_of_neg (by simpa using fun _ => ⟨hi, hhi, hle⟩)]

lemma kept_stop (hdown : entries.Pairwise fun a b => b.1 < a.1) (hlow : ∀ e ∈ entries.head?, e.1 < range.1) :
    kept range true left entries = [] := by
  rw [kept, if_pos rfl, filter_eq_nil_iff.2, limited_nil]
  cases entries with
  | nil => simp
  | cons e rest =>
    intro x hx
    have hx : x.1 < range.1 := by
      obtain rfl | hx := mem_cons.1 hx
      · exact hlow x rfl
      · exact ((pairwise_cons.1 hdown).1 x hx).trans (hlow e rfl)
    simp [hx]

lemma kept_cons (rest : List Entry) (hleft : ∀ n ∈ left, 0 < n)
    (h : reverse = true → range.1 ≤ e.1 ∧ ∀ hi ∈ range.2, e.1 < hi) :
    kept range reverse left (e :: rest) = e :: kept range reverse (left.map (· - 1)) rest := by
  cases reverse with
  | false => exact limited_cons hleft
  | true =>
    rw [kept, if_pos rfl, filter_cons_of_pos (by simpa using h rfl), limited_cons hleft]
    rfl

/-- A batch with what is kept of the rest is what is kept, and a batch that is not the last one is full. -/
def Pulls (range : Key × Option Key) (reverse : Bool) (room : ℕ) (left : Option ℤ) (entries : List Entry)
    (pulled : List Entry × Bool × Option ℤ × List Entry) : Prop :=
  kept range reverse left entries =
    pulled.1 ++ (if pulled.2.1 then [] else kept range reverse pulled.2.2.1 pulled.2.2.2) ∧
  (pulled.2.1 = false → (∀ n ∈ pulled.2.2.1, 0 < n) ∧ Descends reverse pulled.2.2.2 ∧
    pulled.2.2.2.length + room ≤ entries.length)

lemma nextBatch_pulls (range : Key × Option Key) (room : ℕ) (hleft : ∀ n ∈ left, 0 < n) (hdown : Descends reverse entries) :
    Pulls range reverse room left entries (nextBatch range reverse room left entries) := by
  induction entries generalizing room left with
  | nil =>
    cases room with
    | zero => exact ⟨rfl, fun _ => ⟨hleft, hdown, le_rfl⟩⟩
    | succ room => exact ⟨by simp [nextBatch, kept], fun h => absurd h (by simp [nextBatch])⟩
  | cons e rest ih =>
    cases room with
    | zero => exact ⟨rfl, fun _ => ⟨hleft, hdown, le_rfl⟩⟩
    | succ room =>
      have hrest : Descends reverse rest := fun h => (pairwise_cons.1 (hdown h)).2
      have hskips : range.2.any (0 ≤ compareKeys e.1 ·) = true ↔ ∃ hi ∈ range.2, hi ≤ e.1 := by
        cases range.2 <;> simp [← not_lt, compareKeys_neg_iff]
      rw [nextBatch]
      split_ifs with hskip hstop
      · obtain ⟨rfl, hskip⟩ := hskip
        obtain ⟨hkept, hmore⟩ := @ih left (room + 1) hleft hrest
        exact ⟨(kept_skip (hskips.1 hskip)).trans hkept, fun h =>
          (hmore h).imp_right fun h => ⟨h.1, h.2.trans (Nat.le_succ _)⟩⟩
      · obtain ⟨rfl, hlow⟩ := hstop
        exact ⟨kept_stop (hdown rfl) (by simpa using (compareKeys_neg_iff _ _).1 hlow), fun h => by cases h⟩
      · have hin : reverse = true → range.1 ≤ e.1 ∧ ∀ hi ∈ range.2, e.1 < hi := fun hr =>
          ⟨not_lt.1 fun hlt => hstop ⟨hr, (compareKeys_neg_iff _ _).2 hlt⟩, fun hi hhi =>
            not_le.1 fun hle => hskip ⟨hr, hskips.2 ⟨hi, hhi, hle⟩⟩⟩
        have hcons := kept_cons rest hleft hin
        dsimp only
        split
        case isTrue hlast =>
          obtain ⟨n, hn, hle⟩ := (Option.any_eq_true _ _).1 hlast
          refine ⟨hcons.trans ?_, fun h => by cases h⟩
          simp only [decide_eq_true_eq] at hle
          simp [hn, kept, limited, hle]
        case isFalse hlast =>
          have hmore : ∀ n ∈ left.map (· - 1), 0 < n := fun n hn =>
            not_le.1 fun hle => hlast ((Option.any_eq_true _ _).2 ⟨n, hn, by simpa using hle⟩)
          obtain ⟨hkept, hfull⟩ := @ih _ room hmore hrest
          refine ⟨hcons.trans (congrArg (e :: ·) hkept), fun h => (hfull h).imp_right fun h => ⟨h.1, ?_⟩⟩
          simpa [← add_assoc] using h.2

lemma batches_flatten {fuel : ℕ} (hfuel : entries.length < fuel) (hleft : ∀ n ∈ left, 0 < n)
    (hdown : Descends reverse entries) :
    (batches range reverse fuel left entries).flatten = kept range reverse left entries := by
  induction fuel generalizing left entries with
  | zero => exact absurd hfuel (Nat.not_lt_zero _)
  | succ fuel ih =>
    obtain ⟨hkept, hmore⟩ := nextBatch_pulls range SCAN_BATCH hleft hdown
    rw [batches, hkept, flatten_cons]
    split
    · rfl
    · next hfinished =>
      obtain ⟨hleft', hdown', hlength⟩ := hmore (by simpa using hfinished)
      have : 0 < SCAN_BATCH := by decide
      rw [ih (by omega) hleft' hdown']

end

variable {getRange : Option Key → Option Key → Bool → List Entry}

lemma rocksdbScan_eq (h : Ranges m getRange) :
    rocksdbScan getRange pre options = reference m pre options := by
  rw [reference, ← between_scanRange, rocksdbScan]
  generalize scanRange pre options.lower options.upper = range
  by_cases hempty : isEmpty range = true
  · simp [hempty, between_of_isEmpty hempty]
  by_cases hlimit : options.limit.any (· ≤ 0) = true
  · obtain ⟨n, hn, hle⟩ := (Option.any_eq_true _ _).1 hlimit
    simp only [decide_eq_true_eq] at hle
    simp [hn, limited, hle]
  · have hleft : ∀ n ∈ options.limit, 0 < n := fun n hn =>
      not_le.1 fun hle => hlimit ((Option.any_eq_true _ _).2 ⟨n, hn, by simpa using hle⟩)
    rw [if_neg (by simp [hempty, hlimit])]
    have hupper : range.2.filter (· ≠ []) = range.2 := by
      cases hhi : range.2 with
      | none => rfl
      | some hi =>
        have : hi ≠ [] := fun hnil => hempty (isEmpty_iff.2 ⟨hi, hhi, hnil ▸ nil_le_list _⟩)
        simp [this]
    have hne : range.2 ≠ some [] := fun hnil => by simp [hnil] at hupper
    have hbetween : m.between range.1 range.2 = m.entries.filter fun e =>
        range.1 ≤ e.1 ∧ ∀ h ∈ range.2, e.1 < h := by
      refine filter_congr fun e _ => ?_
      rw [Bool.eq_iff_iff]
      simp [Option.all_eq_true]
    rw [hbetween]
    cases options.reverse with
    | false =>
      have hdown : ∀ entries, Descends false entries := fun _ h => by cases h
      rw [batches_flatten (Nat.lt_succ_self _) hleft (hdown _), kept, hupper, h.1 _ _ (by simp [Option.filter]) hne]
      refine congrArg (limited options.limit) (filter_congr fun e _ => ?_)
      by_cases hnil : range.1 = [] <;> simp [hnil, nil_le_list]
    | true =>
      have hdown : Descends true (m.entries.filter fun e => ∀ s ∈ range.2, e.1 ≤ s).reverse := fun _ =>
        pairwise_reverse.2 (m.sorted.filter _)
      simp only [if_true]
      rw [hupper, h.2 _ hne, batches_flatten (Nat.lt_succ_self _) hleft hdown, kept, if_pos rfl, filter_reverse,
        List.filter_filter]
      refine congrArg (limited options.limit ∘ List.reverse) (filter_congr fun e _ => ?_)
      cases range.2 <;> simp
      exact fun _ h => h.le

/-! ## All of them -/

/-- The scans of the three engines are that of the reference, if and only if no negative limit is asked of a range
with entries in it. -/
theorem scans_iff {C : Type} [LinearOrder C] (encoding : KeyEncoding C)
    {iterate : Statement C → ℤ → List (C × Bytes)}
    (pre : Key) (options : KvScanOptions) (hsqlite : Tabulates encoding m iterate) (hrocksdb : Ranges m getRange) :
    (memoryScan m.entries pre options = reference m pre options ∧
      sqliteScan encoding iterate pre options = reference m pre options ∧
      rocksdbScan getRange pre options = reference m pre options) ↔
      (∀ n ∈ options.limit, 0 ≤ n) ∨ reference m pre { options with limit := none } = [] := by
  rw [memoryScan_eq, rocksdbScan_eq hrocksdb, sqliteScan_eq hsqlite]
  cases hlimit : options.limit with
  | none => simp [reference, hlimit]
  | some n =>
    by_cases hn : n < 0
    · have hnil : reference m pre options = [] := by simp [reference, hlimit, limited, hn.le]
      simp [hn, hnil]
    · simp [hn, not_lt.1 hn]

/-- A table of keys as they are. -/
def tableOf (m : OrderedMap Key Bytes) (statement : Statement Bytes) (limit : ℤ) : List (Bytes × Bytes) :=
  if limit < 0 then statement.rows m else (statement.rows m).take limit.toNat

def rangeOf (m : OrderedMap Key Bytes) (start stop : Option Key) (reverse : Bool) : List Entry :=
  if reverse then (m.entries.filter fun e => (∀ s ∈ start, e.1 ≤ s) ∧ ∀ s ∈ stop, s < e.1).reverse
  else m.entries.filter fun e => (∀ s ∈ start, s ≤ e.1) ∧ ∀ s ∈ stop, e.1 < s

lemma tabulates_tableOf : Tabulates blob m (tableOf m) :=
  ⟨m, by simp [blob], fun _ _ => rfl⟩

lemma ranges_rangeOf : Ranges m (rangeOf m) :=
  ⟨fun _ _ _ _ => rfl, fun _ _ => by simp [rangeOf]⟩

def oneEntry : OrderedMap Key Bytes := ⟨[([1], [])], List.pairwise_singleton _ _⟩

theorem scans_iff_oneEntry : memoryScan oneEntry.entries [1] { reverse := true } = reference oneEntry [1] { reverse := true } ∧
    sqliteScan blob (tableOf oneEntry) [1] { reverse := true } = reference oneEntry [1] { reverse := true } ∧
    rocksdbScan (rangeOf oneEntry) [1] { reverse := true } = reference oneEntry [1] { reverse := true } :=
  (scans_iff blob [1] { reverse := true } tabulates_tableOf ranges_rangeOf).2 (.inl (by simp))

/-- Asked for fewer than no entries SQLite gives them all. -/
theorem not_scans_negative : ¬∀ (m : OrderedMap Key Bytes) pre options,
    sqliteScan blob (tableOf m) pre options = memoryScan m.entries pre options := by
  intro h
  exact absurd (h oneEntry [] { limit := some (-1) }) (by decide +kernel)

end Zelavis.Db.Engines
