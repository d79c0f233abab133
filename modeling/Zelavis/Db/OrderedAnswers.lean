import Zelavis.Db.OrderedPages
import Zelavis.Db.SameAnswers

/-!
# What a page of an ordered read holds

The rows of a page are the first of the column's postings that the manifests hold, so two stores with
the same manifests answer the same pages.
-/

namespace Zelavis.Db.OrderedReads

open Lib OrderedMap SameAnswers List

variable {W : Seq → IndexManifest → Prop} {m m' : Store} {span : Span} {column : Utf16}

/-! ## The keys of the blobs -/

def Within (lo hi : Option Key) (k : Key) : Prop := (∀ l ∈ lo, l ≤ k) ∧ ∀ u ∈ hi, k < u

variable {P : Key} {lo hi : Option Key}

lemma mem_expandBlob {Q : Key} (hQ : IsPosting Q) {v : Stored} (hv : m.get (blobKeyOf Q) = some v) :
    P ∈ expandBlob (blobKeyOf Q, v) lo hi ↔ IsPosting P ∧ livePrefixOf P = livePrefixOf Q ∧
      blobKeyOf P = blobKeyOf Q ∧ blobHas m.get P ∧ Within lo hi P := by
  have hstarts : blobPrefixOf (blobKeyOf Q) = livePrefixOf Q := livePrefixOf_append _ _
  have hbounds : ((lo.all fun l => ¬ compareKeys P l < 0) && hi.all fun h => compareKeys P h < 0) = true ↔
      Within lo hi P := by
    cases lo <;> cases hi <;> simp [Within, compareKeys_neg_iff]
  rw [expandBlob, mem_filter, hbounds, hstarts, ← and_assoc, ← and_assoc, ← and_assoc]
  refine and_congr_left fun _ => ?_
  rw [List.mem_map]
  constructor
  · rintro ⟨id, hid, rfl⟩
    obtain ⟨P, hP, hl, hkey, rfl, hblob⟩ := (mem_blob hQ hv).1 hid
    have he : livePrefixOf Q ++ writeU32 (seqOf P) = P := by rw [← hl, ← hP.eq]
    rw [he]
    exact ⟨⟨⟨hP, hl⟩, hkey⟩, hblob⟩
  · rintro ⟨⟨⟨hP, hl⟩, hkey⟩, hblob⟩
    exact ⟨seqOf P, (mem_blob hQ hv).2 ⟨P, hP, hl, hkey, rfl, hblob⟩, by rw [← hl, ← hP.eq]⟩

def sealedKeys (m : Store) (span : Span) (lo hi : Option Key) : List Key :=
  (scan m (segmentPrefix span.pre) lo hi).flatMap fun blob => expandBlob blob span.lo span.hi

lemma flatMap_directed {α β : Type} (reverse : Bool) (l : List α) (f : α → List β) :
    (directed reverse l).flatMap (fun a => directed reverse (f a)) = directed reverse (l.flatMap f) := by
  cases reverse with
  | false => rfl
  | true => exact reverse_flatMap.symm

lemma sealedLeft_eq (m : Store) (span : Span) (lo hi : Option Key) :
    sealedLeft m span { lo, hi } = directed span.reverse (sealedKeys m span lo hi) :=
  flatMap_directed ..

lemma sealedKeys_sorted (h : Tiers W m.get) (lo hi : Option Key) :
    (sealedKeys m span lo hi).Pairwise (· < ·) := by
  have hblob : ∀ e ∈ scan m (segmentPrefix span.pre) lo hi,
      ∃ Q, IsPosting Q ∧ e.1 = blobKeyOf Q ∧ m.get (blobKeyOf Q) = some e.2 ∧
        Ascending (blobOffsets (some e.2)) := by
    rintro ⟨k, v⟩ he
    obtain ⟨hget, hp, -⟩ := mem_scan.1 he
    obtain ⟨Q, hQ, rfl, hasc⟩ := h.blob_shape k v (tagOf_of_isPrefix hp) hget
    exact ⟨Q, hQ, rfl, hget, hasc⟩
  refine pairwise_flatMap.2 ⟨fun e he => ?_, ?_⟩
  · obtain ⟨Q, hQ, -, -, hasc⟩ := hblob e he
    refine List.Pairwise.filter _ (pairwise_map.2 ?_)
    -- the identifiers of a blob are ascending and of four bytes
    have hids : (decodeSegment (blobBytes e.2) (segmentIndexOf e.1 * SEGMENT_SPAN)).Pairwise
        (· < ·) := by
      rw [decodeSegment_base]
      exact Ascending.map hasc fun a b hab => Nat.add_lt_add_left hab _
    refine hids.imp_of_mem fun {a b} ha hb hab => (append_lt_append_left_iff _ _ _).2 ?_
    have hfour : ∀ id ∈ decodeSegment (blobBytes e.2) (segmentIndexOf e.1 * SEGMENT_SPAN), id < 2 ^ 32 := by
      intro id hid
      obtain ⟨Q', hQ', hkey, hget, -⟩ := hblob e he
      rw [hkey] at hid
      obtain ⟨P, hP, -, -, rfl, -⟩ := (mem_blob hQ' hget).1 hid
      exact hP.seqOf_lt
    exact (writeU32_lt_iff (hfour a ha) (hfour b hb)).2 hab
  · refine (scan_sorted m (segmentPrefix span.pre) lo hi).imp_of_mem
      fun {a b} ha hb hab x hx y hy => ?_
    obtain ⟨Q, hQ, hka, hgeta, -⟩ := hblob a ha
    obtain ⟨R, hR, hkb, hgetb, -⟩ := hblob b hb
    have hx' : x ∈ expandBlob (blobKeyOf Q, a.2) span.lo span.hi := hka ▸ hx
    have hy' : y ∈ expandBlob (blobKeyOf R, b.2) span.lo span.hi := hkb ▸ hy
    obtain ⟨hPx, -, hkx, -⟩ := (mem_expandBlob hQ hgeta).1 hx'
    obtain ⟨hPy, -, hky, -⟩ := (mem_expandBlob hR hgetb).1 hy'
    rw [hka, hkb, ← hkx, ← hky] at hab
    rcases lt_trichotomy x y with hlt | rfl | hlt
    · exact hlt
    · exact absurd hab (lt_irrefl _)
    · exact absurd hab (not_lt.2 (blobKeyOf_le hPy hPx hlt))

lemma mem_sealedKeys (h : Tiers W m.get) (hpre : span.pre = orderedColumnPrefix column) :
    P ∈ sealedKeys m span lo hi ↔ IsPosting P ∧ orderedColumnPrefix column <+: P ∧
      blobHas m.get P ∧ Within span.lo span.hi P ∧ Within lo hi (blobKeyOf P) := by
  have hcuts := cuts_column column
  rw [sealedKeys, mem_flatMap, hpre]
  constructor
  · rintro ⟨⟨k, v⟩, he, hP⟩
    obtain ⟨hget, hp, hbetween⟩ := mem_scan.1 he
    obtain ⟨Q, hQ, rfl, -⟩ := h.blob_shape k v (tagOf_of_isPrefix hp) hget
    obtain ⟨hP, hl, hkey, hblob, hwithin⟩ := (mem_expandBlob hQ hget).1 hP
    refine ⟨hP, ?_, hblob, hwithin, hkey ▸ hbetween⟩
    have hpl : orderedColumnPrefix column <+: livePrefixOf P := by
      rw [hl]
      exact (hcuts.prefix_iff hQ.prefix_mem).1 (cons_prefix_cons.1 hp).2
    rw [hP.eq]
    exact hpl.trans (prefix_append _ _)
  · rintro ⟨hP, hp, hblob, hwithin, hbetween⟩
    obtain ⟨v, hv⟩ := exists_blob hblob
    refine ⟨(blobKeyOf P, v), mem_scan.2 ⟨hv, ?_, hbetween⟩,
      (mem_expandBlob hP hv).2 ⟨hP, rfl, rfl, hblob, hwithin⟩⟩
    rw [hP.eq, hcuts.prefix_iff hP.prefix_mem] at hp
    exact cons_prefix_cons.2 ⟨rfl, hp.trans (prefix_append _ _)⟩

lemma mem_liveKeys (h : Tiers W m.get) : P ∈ (scan m (orderedColumnPrefix column) lo hi).map Prod.fst ↔
      IsPosting P ∧ orderedColumnPrefix column <+: P ∧ m.get P ≠ none ∧ Within lo hi P := by
  rw [List.mem_map]
  constructor
  · rintro ⟨⟨P, v⟩, he, rfl⟩
    obtain ⟨hget, hp, hbetween⟩ := mem_scan.1 he
    have hlive : m.get P ≠ none := by simp [hget]
    exact ⟨h.posting_shape P ((cuts_column column).tag_of_isPrefix hp) hlive, hp, hlive, hbetween⟩
  · rintro ⟨-, hp, hlive, hbetween⟩
    obtain ⟨v, hv⟩ := Option.ne_none_iff_exists'.1 hlive
    exact ⟨(P, v), mem_scan.2 ⟨hv, hp, hbetween⟩, rfl⟩

/-! ## The bounds of the blobs -/

lemma append_lt_of_lt {x y k : Key} (hlt : x < k) (hnot : ¬x <+: k) : x ++ y < k := by
  by_contra hle
  refine hnot ((prefixEnd_range x k).1 ⟨hlt.le, fun e he => ?_⟩)
  exact (not_lt.1 hle).trans_lt (lt_prefixEnd_of_isPrefix he (prefix_append x y))

lemma isPrefix_of_between {l x s t : Key} (hlo : l ++ s ≤ x) (hhi : x < l ++ t) : l <+: x := by
  refine (prefixEnd_range l x).1 ⟨?_, fun e he => ?_⟩
  · exact ((prefixEnd_range l (l ++ s)).2 (prefix_append l s)).1.trans hlo
  · exact hhi.trans (lt_prefixEnd_of_isPrefix he (prefix_append l t))

/-- Where a cursor goes on to the end of a value it stops there, as the keys a read gives do. -/
def SoundCursor (direction : Direction) (cursor : OrderedCursor) : Prop :=
  direction = .asc → ∀ l ∈ lensCode, l <+: livePrefixOf cursor.key → l = livePrefixOf cursor.key

variable {cursor : OrderedCursor} {direction : Direction}

lemma segmentOf_le (n : ℕ) : segmentOf n ≤ n := Nat.div_le_self _ _

lemma le_blobKeyOf {P last : Key} (hP : IsPosting P) (hlt : last < P)
    (hsound : ∀ l ∈ lensCode, l <+: livePrefixOf last → l = livePrefixOf last) :
    segmentPrefix (livePrefixOf last) ≤ blobKeyOf P := by
  refine not_lt.1 fun hbefore => ?_
  have hbefore : livePrefixOf P ++ writeU32 (segmentOf (seqOf P)) < livePrefixOf last :=
    cons_lt_cons_left_iff.1 hbefore
  have hle : livePrefixOf last ≤ last :=
    ((prefixEnd_range (livePrefixOf last) last).2 (List.take_prefix _ _)).1
  rw [hP.eq] at hlt
  have hpre := isPrefix_of_between hbefore.le (hle.trans_lt hlt)
  rw [← hsound _ hP.prefix_mem hpre] at hbefore
  exact absurd ((prefixEnd_range (livePrefixOf P)
    (livePrefixOf P ++ writeU32 (segmentOf (seqOf P)))).2 (prefix_append _ _)).1
      (not_le.2 hbefore)

lemma blobKeyOf_lt {P last e : Key} (hP : IsPosting P) (hlt : P < last)
    (he : prefixEnd (segmentPrefix (livePrefixOf last)) = some e) : blobKeyOf P < e := by
  refine not_le.1 fun hpast => ?_
  obtain ⟨hafter, hnot⟩ := (prefixEnd_le_iff he).1 hpast
  have hafter : livePrefixOf last < livePrefixOf P ++ writeU32 (segmentOf (seqOf P)) :=
    cons_lt_cons_left_iff.1 hafter
  have hnot : ¬livePrefixOf last <+: livePrefixOf P ++ writeU32 (segmentOf (seqOf P)) :=
    fun hpre => hnot (cons_prefix_cons.2 ⟨rfl, hpre⟩)
  have hlast : last < livePrefixOf P ++ writeU32 (segmentOf (seqOf P)) := by
    have hcut : last = livePrefixOf last ++ last.drop (last.length - 4) :=
      (take_append_drop _ _).symm
    rw [hcut]
    exact append_lt_of_lt hafter hnot
  have hless : livePrefixOf P ++ writeU32 (segmentOf (seqOf P)) ≤ P := by
    refine not_lt.1 fun hlt => ?_
    have hlt : livePrefixOf P ++ writeU32 (seqOf P)
        < livePrefixOf P ++ writeU32 (segmentOf (seqOf P)) := by
      rw [← hP.eq]
      exact hlt
    rw [append_lt_append_left_iff, writeU32_lt_iff hP.seqOf_lt
      ((segmentOf_lt hP.seqOf_lt).trans (by norm_num))] at hlt
    exact absurd (segmentOf_le (seqOf P)) (not_le.2 hlt)
  exact absurd (hlast.trans_le hless) (not_lt.2 hlt.le)

variable {lower upper : Option RangeBound}

lemma covers_range {bounds : KeyBounds}
    (hb : rangeBounds column lower upper = some bounds) (hP : IsPosting P)
    (hwritten : Written W P) (hp : orderedColumnPrefix column <+: P)
    (hwithin : Within bounds.lo bounds.hi P) :
    Within (bounds.lo.map segmentPrefix) (bounds.hi.map segmentPrefix) (blobKeyOf P) := by
  have hbetween : bounds.Between (livePrefixOf P ++ writeU32 (segmentOf (seqOf P))) := by
    have hkey : bounds.Between (livePrefixOf P ++ writeU32 (seqOf P)) := by
      rw [← hP.eq]
      exact hwithin
    exact (between_congr hb hwritten hp _ _).1 hkey
  exact between_under.2 hbetween

lemma within_continued (range : KeyBounds) (direction : Direction) (last : Key) :
    Within ((KeyBounds.forRead range).continued direction last).lo ((KeyBounds.forRead range).continued direction last).hi
        P ↔ Within range.lo range.hi P ∧ Before (direction = .desc) last P := by
  cases direction with
  | asc =>
    show _ ↔ _ ∧ last < P
    rw [ReadBounds.continued]
    split_ifs with hpast <;> rw [Option.all_eq_true] at hpast
    · refine ⟨fun ⟨hlo, hhi⟩ => ?_, fun ⟨⟨_, hhi⟩, hlt⟩ => ⟨fun l hl => ?_, hhi⟩⟩
      · refine ⟨⟨fun l hl => ?_, hhi⟩, successorOf_le_iff.1 (hlo _ rfl)⟩
        exact ((compareKeys_pos_iff _ _).1 (of_decide_eq_true (hpast l hl))).le.trans (hlo _ rfl)
      · cases hl
        exact successorOf_le_iff.2 hlt
    · refine ⟨fun h => ⟨h, ?_⟩, And.left⟩
      obtain ⟨l, hl, hle⟩ : ∃ l ∈ range.lo, l ≥ successorOf last := by
        simpa [KeyBounds.forRead, compareKeys_pos_iff] using hpast
      exact successorOf_le_iff.1 (hle.trans (h.1 l hl))
  | desc =>
    show _ ↔ _ ∧ P < last
    rw [ReadBounds.continued]
    split_ifs with hpast <;> rw [Option.all_eq_true] at hpast
    · refine ⟨fun ⟨hlo, hhi⟩ => ⟨⟨hlo, fun u hu => ?_⟩, hhi _ rfl⟩, fun ⟨⟨hlo, _⟩, hlt⟩ => ⟨hlo, fun u hu => ?_⟩⟩
      · exact (hhi _ rfl).trans ((compareKeys_neg_iff _ _).1 (of_decide_eq_true (hpast u hu)))
      · cases hu
        exact hlt
    · refine ⟨fun h => ⟨h, ?_⟩, And.left⟩
      obtain ⟨u, hu, hle⟩ : ∃ u ∈ range.hi, u ≤ last := by
        simpa [KeyBounds.forRead, compareKeys_neg_iff] using hpast
      exact (h.2 u hu).trans_le hle

lemma covers_continued {bounds : KeyBounds} (hb : rangeBounds column lower upper = some bounds)
    (hsound : SoundCursor direction cursor) (hP : IsPosting P)
    (hwritten : Written W P) (hp : orderedColumnPrefix column <+: P)
    (hwithin : Within ((KeyBounds.forRead bounds).continued direction cursor.key).lo
      ((KeyBounds.forRead bounds).continued direction cursor.key).hi P) :
    Within ((KeyBounds.forRead bounds).continued direction cursor.key).sealedLo
      ((KeyBounds.forRead bounds).continued direction cursor.key).sealedHi (blobKeyOf P) := by
  obtain ⟨hrange, hlast⟩ := (within_continued bounds direction cursor.key).1 hwithin
  have hcovered := covers_range hb hP hwritten hp hrange
  cases direction with
  | asc =>
    rw [ReadBounds.continued]
    split_ifs
    · refine ⟨fun l hl => ?_, hcovered.2⟩
      obtain rfl := Option.some.inj hl
      exact le_blobKeyOf hP hlast (hsound rfl)
    · exact hcovered
  | desc =>
    rw [ReadBounds.continued]
    split_ifs
    · exact ⟨hcovered.1, fun u hu => blobKeyOf_lt hP hlast hu⟩
    · exact hcovered

variable {input : OrderedReadInput} {partition : Utf16} {bounds : ReadBounds}

lemma bounds_eq_ok (hb : input.bounds partition = .ok bounds) : 0 < input.limit ∧
    ∃ range, rangeBounds input.column input.lower input.upper = some range ∧ bounds =
      match input.after with
      | none => KeyBounds.forRead range
      | some cursor => (KeyBounds.forRead range).continued input.direction cursor.key := by
  rw [OrderedReadInput.bounds] at hb
  split_ifs at hb with hlimit
  refine ⟨not_lt.1 hlimit, ?_⟩
  cases hrange : rangeBounds input.column input.lower input.upper with
  | none => simp [hrange] at hb
  | some range =>
    refine ⟨range, rfl, ?_⟩
    cases hafter : input.after with
    | none => simpa [hrange, hafter, eq_comm] using hb
    | some cursor =>
      simp only [hrange, hafter, decodeOrderedCursor] at hb
      split_ifs at hb
      · cases hb
      · cases hb
      · cases hb
      · exact (Except.ok.inj hb).symm

lemma covers (hb : input.bounds partition = .ok bounds)
    (hsound : ∀ cursor ∈ input.after, SoundCursor input.direction cursor)
    (hP : IsPosting P) (hwritten : Written W P) (hp : orderedColumnPrefix input.column <+: P)
    (hwithin : Within bounds.lo bounds.hi P) : Within bounds.sealedLo bounds.sealedHi (blobKeyOf P) := by
  obtain ⟨-, range, hrange, rfl⟩ := bounds_eq_ok hb
  cases hafter : input.after with
  | none =>
    rw [hafter] at hwithin
    exact covers_range hrange hP hwritten hp hwithin
  | some cursor =>
    rw [hafter] at hwithin
    exact covers_continued hrange (hsound cursor hafter) hP hwritten hp hwithin

/-! ## Both tiers -/

def foundKeys (m : Store) (span : Span) (sealedLo sealedHi : Option Key) : List Key :=
  (mergeRuns (Before span.reverse)
    ((directed span.reverse (scan m span.pre span.lo span.hi)).map Prod.fst)
    (sealedLeft m span { lo := sealedLo, hi := sealedHi })).filter fun key =>
      key ∉ tombstonesIn m ⟨span.pre, span.lo, span.hi⟩

lemma foundKeys_sorted (h : Tiers W m.get) (sealedLo sealedHi : Option Key) :
    (foundKeys m span sealedLo sealedHi).Pairwise (Before span.reverse) := by
  refine List.Pairwise.filter _ (pairwise_mergeRuns ?_ ?_)
  · rw [map_directed]
    exact pairwise_directed (pairwise_map.2 (scan_sorted ..))
  · rw [sealedLeft_eq]
    exact pairwise_directed (sealedKeys_sorted h ..)

variable {sealedLo sealedHi : Option Key}

/-- Where the blobs that are scanned are those of the keys that are read, the postings found are
those the manifests hold. -/
theorem mem_foundKeys (h : Tiers W m.get) (hpre : span.pre = orderedColumnPrefix column)
    (hcovers : ∀ P, IsPosting P → Written W P → orderedColumnPrefix column <+: P →
      Within span.lo span.hi P → Within sealedLo sealedHi (blobKeyOf P)) :
    P ∈ foundKeys m span sealedLo sealedHi ↔ IsPosting P ∧ orderedColumnPrefix column <+: P ∧
      Within span.lo span.hi P ∧ Holds m.get P := by
  rw [foundKeys, mem_filter, mem_mergeRuns, map_directed, mem_directed, sealedLeft_eq,
    mem_directed, mem_sealedKeys h hpre, hpre, mem_liveKeys h, decide_eq_true_eq,
    mem_tombstonesIn h]
  constructor
  · rintro ⟨⟨hP, hp, hlive, hwithin⟩ | ⟨hP, hp, hblob, hwithin, -⟩, hno⟩
    · refine ⟨hP, hp, hwithin, (h.answer P hP).1 ⟨.inl hlive, h.live P hP hlive⟩⟩
    · refine ⟨hP, hp, hwithin, (h.answer P hP).1 ⟨.inr hblob, by_contra fun htomb => ?_⟩⟩
      exact hno ⟨htomb, hp, hwithin⟩
  · rintro ⟨hP, hp, hwithin, hholds⟩
    obtain ⟨htier, htomb⟩ := (h.answer P hP).2 hholds
    refine ⟨?_, fun hin => hin.1 htomb⟩
    rcases htier with hlive | hblob
    · exact .inl ⟨hP, hp, hlive, hwithin⟩
    · exact .inr ⟨hP, hp, hblob, hwithin, hcovers P hP (h.written_of_tier hP (.inr hblob)) hp hwithin⟩

lemma foundKeys_congr (h : Tiers W m.get) (h' : Tiers W m'.get)
    (hsame : ∀ P, Holds m.get P ↔ Holds m'.get P) (hpre : span.pre = orderedColumnPrefix column)
    (hcovers : ∀ P, IsPosting P → Written W P → orderedColumnPrefix column <+: P →
      Within span.lo span.hi P → Within sealedLo sealedHi (blobKeyOf P)) :
    foundKeys m' span sealedLo sealedHi = foundKeys m span sealedLo sealedHi := by
  refine List.Pairwise.eq_of_mem_iff (foundKeys_sorted h' ..) (foundKeys_sorted h ..) fun P => ?_
  rw [mem_foundKeys h' hpre hcovers, mem_foundKeys h hpre hcovers, hsame]

/-! ## A page -/

lemma firstRows_found (m : Store) (span : Span) (filter : Option Postings) (limit : ℕ)
    (sealedLo sealedHi : Option Key) :
    firstRows (rowOf (tombstonesIn m ⟨span.pre, span.lo, span.hi⟩) filter) limit
        (mergeRuns (Before span.reverse)
          ((directed span.reverse (scan m span.pre span.lo span.hi)).map Prod.fst)
          (sealedLeft m span { lo := sealedLo, hi := sealedHi }))
      = firstRows (rowOf [] filter) limit (foundKeys m span sealedLo sealedHi) := by
  rw [← firstRows_filter fun key => decide (key ∉ tombstonesIn m ⟨span.pre, span.lo, span.hi⟩)]
  · refine firstRows_congr (fun key hkey => ?_) limit
    have hnot := of_decide_eq_true (mem_filter.1 hkey).2
    rw [rowOf, rowOf, if_neg fun hin => hnot hin.2, if_neg fun hin => not_mem_nil hin.2]
  · intro key _ hkey
    have hin := not_not.1 (of_decide_eq_false hkey)
    rw [rowOf, if_pos ⟨length_pos_iff.2 (ne_nil_of_mem hin) |>.ne', hin⟩]

lemma rowOf_congr {filter filter' : Option Postings}
    (h : ∀ id, (filter.any fun run => !run.has id) = filter'.any fun run => !run.has id) (key : Key) :
    rowOf [] filter' key = rowOf [] filter key := by
  rw [rowOf, rowOf]
  simp only [h]

lemma filterOf_congr {query : Option Query} (h : ∀ q ∈ query, Agree m m' q) :
    (filterOf m query = .error .thrown ∧ filterOf m' query = .error .thrown) ∨
      ∃ filter filter', filterOf m query = .ok filter ∧ filterOf m' query = .ok filter' ∧
        ∀ id, (filter.any fun run => !run.has id) = filter'.any fun run => !run.has id := by
  cases query with
  | none => exact .inr ⟨none, none, rfl, rfl, fun _ => rfl⟩
  | some q =>
    rcases h q rfl with ⟨hnone, hnone'⟩ | ⟨run, run', hrun, hrun', hvalid, hvalid', hmem⟩
    · exact .inl ⟨by rw [filterOf, hnone], by rw [filterOf, hnone']⟩
    · refine .inr ⟨some run, some run', by rw [filterOf, hrun], by rw [filterOf, hrun'], fun id => ?_⟩
      have hhas : run.has id = run'.has id := by
        rw [Bool.eq_iff_iff, hvalid.has_iff, hvalid'.has_iff, hmem]
      simp [hhas]

def IsPage (partition : Utf16) (m : Store) (input : OrderedReadInput)
    (page : Except ReadFault OrderedPage) : Prop :=
  ∃ least, ∀ fuel ≥ least, readOrdered partition m input fuel = some page

lemma isPage_of_bounds {filter : Option Postings} (hb : input.bounds partition = .ok bounds)
    (hfilter : filterOf m input.query = .ok filter) :
    IsPage partition m input ((firstRows (rowOf [] filter) (input.limit.toNat + 1)
      (foundKeys m ⟨orderedColumnPrefix input.column, bounds.lo, bounds.hi, input.direction = .desc⟩
        bounds.sealedLo bounds.sealedHi)).map (pageOf partition input)) := by
  obtain ⟨least, hleast⟩ := mergeOrdered_eq m
    ⟨orderedColumnPrefix input.column, bounds.lo, bounds.hi, input.direction = .desc⟩ filter
    bounds.sealedLo bounds.sealedHi (Nat.succ_pos input.limit.toNat)
  refine ⟨least, fun fuel hfuel => ?_⟩
  have hmerged := hleast fuel hfuel
  rw [firstRows_found] at hmerged
  rw [readOrdered, hb, hfilter]
  exact congrArg (Option.map (Except.map (pageOf partition input))) hmerged

lemma page_congr (h : Tiers W m.get) (h' : Tiers W m'.get) (hW : Below W)
    (hsame : ∀ P, Holds m.get P ↔ Holds m'.get P) (partition : Utf16)
    (hsound : ∀ cursor ∈ input.after, SoundCursor input.direction cursor)
    (hquery : ∀ q ∈ input.query, Steady m q ∧ Steady m' q) :
    ∃ page, IsPage partition m input page ∧ IsPage partition m' input page := by
  have hagree : ∀ q ∈ input.query, Agree m m' q := fun q hq =>
    agree h h' hW hsame (hquery q hq).1 (hquery q hq).2
  cases hb : input.bounds partition with
  | error fault =>
    refine ⟨.error fault, ⟨0, fun fuel _ => ?_⟩, ⟨0, fun fuel _ => ?_⟩⟩
    · rw [readOrdered, hb]
    · rw [readOrdered, hb]
  | ok bounds =>
    rcases filterOf_congr hagree with ⟨hthrown, hthrown'⟩ | ⟨filter, filter', hf, hf', halike⟩
    · refine ⟨.error .thrown, ⟨0, fun fuel _ => ?_⟩, ⟨0, fun fuel _ => ?_⟩⟩
      · rw [readOrdered, hb, hthrown]
      · rw [readOrdered, hb, hthrown']
    · refine ⟨_, isPage_of_bounds hb hf, ?_⟩
      have hpage := isPage_of_bounds hb hf'
      rw [foundKeys_congr h h' hsame rfl fun P hP hwritten hp hwithin =>
        covers hb hsound hP hwritten hp hwithin,
        firstRows_congr fun key _ => rowOf_congr halike key] at hpage
      exact hpage

end Zelavis.Db.OrderedReads
