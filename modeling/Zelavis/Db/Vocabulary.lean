import Mathlib.Data.List.Dedup
import Zelavis.Db.Resolve

/-!
# The vocabulary of a field

`terms` against the answers of term queries. A live key of the term lens reads back as its field
and its term; a blob's key reads back with the tag of the lens it wraps in front of the field, so a
term is listed exactly when a live posting of it is left.
-/

namespace Zelavis.Db

open Lib OrderedMap List

/-- A string that comes back from its encoding as it was, and shares it with no other: it has
neither a lone surrogate nor a replacement character, and no leading byte order mark. -/
def Plain (s : Utf16) : Prop := replacement ∉ codePoints s ∧ s.head? ≠ some 0xFEFF

instance (s : Utf16) : Decidable (Plain s) := inferInstanceAs (Decidable (_ ∧ _))

variable {s : Utf16}

lemma Plain.wellFormed (h : Plain s) : Lib.wellFormed s :=
  wellFormed_of_replacement_notMem h.1

lemma Plain.eq_of_utf8 {s t : Utf16} (h : Plain s) (heq : utf8 s = utf8 t) : s = t :=
  eq_of_utf8_eq h.1 heq

lemma Plain.decodeText (h : Plain s) : Lib.decodeText (utf8 s) = s := by
  rw [decodeText_utf8 h.wellFormed, dropBom, if_neg h.2]

lemma Plain.readString (h : Plain s) (rest : Bytes) : readString (writeString s ++ rest) = (s, rest) := by
  rw [Db.readString, writeString, readEscaped_writeEscaped]
  exact congrArg (·, rest) h.decodeText

/-! ## What the keys read back as -/

variable {W : Seq → IndexManifest → Prop} {m : Store} {field pre t : Utf16}

lemma readTermKey_termKey (hf : Plain field) (ht : Plain t) (id : ℕ) :
    readTermKey (termKey field t id) = some (field, t) := by
  have hread : readString ((termKey field t id).drop 1) = (field, writeString t ++ writeU32 id) := by
    rw [termKey, termPrefix, cons_append, drop_one, tail_cons, append_assoc,
      hf.readString]
  have hlen : ¬ (termKey field t id).length < 2 := by
    simp only [termKey, termPrefix, length_append, length_cons, writeU32_length]
    omega
  rw [readTermKey, if_neg hlen, if_neg (by simp [termKey, termPrefix]), hread]
  simp only [ht.readString]

lemma termOf_termKey (hf : Plain field) (ht : Plain t) (hpre : pre <+: t) (id : ℕ) :
    termOf field pre (termKey field t id) = some t := by
  rw [termOf, readTermKey_termKey hf ht]
  simp [hpre]

/-- A blob's key never reads back as one of the field: the lens tag it wraps is read as the first
character. -/
theorem termOf_segmentKey {f : Utf16} (hf : Plain field) (hfield : utf8 f = utf8 field)
    (x : Bytes) : termOf field pre (Tag.segment :: Tag.term :: (writeString f ++ x)) = none := by
  have hkey : Tag.term :: (writeString f ++ x) = writeEscaped (Tag.term :: utf8 field) ++ x := by
    rw [writeString, hfield]
    rfl
  have hread : (readString (Tag.term :: (writeString f ++ x))).1 = 0x03 :: field := by
    rw [hkey, readString, readEscaped_writeEscaped]
    exact decodeText_cons_utf8 hf.wellFormed (by decide)
  rw [termOf, readTermKey, if_neg (by simp), if_neg (by simp)]
  simp only [drop_one, tail_cons, hread]
  simp

/-! ## What is listed, and what is answered -/

def FieldPlain (m : Store) (field : Utf16) : Prop :=
  ∀ id, ∀ man ∈ manifestAt m id, ∀ p ∈ man.terms, p.1 = field → Plain p.2

lemma live_term (h : Tiers W m.get) (hf : Plain field) {P : Key}
    (hp : termPrefixKey field pre <+: P) (hlive : m.get P ≠ none) :
    ∃ id, ∃ man ∈ manifestAt m id, ∃ name, (field, name) ∈ man.terms ∧
      utf8 pre <+: utf8 name ∧ P = termKey field name id := by
  have hP := h.posting_shape P ((cuts_termPrefixKey field pre).tag_of_isPrefix hp) hlive
  have hholds := (h.answer P hP).1 ⟨Or.inl hlive, h.live P hP hlive⟩
  obtain ⟨id, man, hman, hmem⟩ := holds_iff.1 hholds
  rcases mem_postingKeys.1 hmem with ⟨q, hq, rfl⟩ | ⟨c, -, hc⟩ | ⟨e, -, rfl | rfl⟩
  · obtain ⟨hfield, hterm⟩ := (termPrefixKey_prefix_iff ..).1 hp
    obtain rfl := hf.eq_of_utf8 hfield
    exact ⟨id, man, hman, q.2, hq, hterm, rfl⟩
  · obtain ⟨l, hl, rfl⟩ := orderedKey_eq_some.1 hc
    obtain ⟨w, -, rfl⟩ := orderedValuePrefix_eq_some.1 hl
    exact absurd (cons_prefix_cons.1 hp).1 (by decide)
  · exact absurd (cons_prefix_cons.1 hp).1 (by decide)
  · exact absurd (cons_prefix_cons.1 hp).1 (by decide)

/-- A term is listed exactly when it starts with the prefix and a live posting of it is left. -/
theorem mem_terms_iff (h : Tiers W m.get) (hf : Plain field) (hpre : Lib.wellFormed pre)
    (hstored : FieldPlain m field) :
    t ∈ terms m field pre ↔ pre <+: t ∧ Plain t ∧ ∃ id, m.get (termKey field t id) ≠ none := by
  have hsealed : ∀ e ∈ scan m (segmentPrefix (termPrefixKey field pre)) none none,
      termOf field pre e.1 = none := by
    rintro ⟨k, v⟩ he
    obtain ⟨hget, hp, -⟩ := mem_scan.1 he
    obtain ⟨Q, hQ, rfl, -⟩ := h.blob_shape k v (tagOf_of_isPrefix hp) hget
    have hl := (cons_prefix_cons.1 hp).2
    obtain ⟨tag, body, hbody, hlQ⟩ := hQ.prefix_mem
    rw [hlQ] at hl
    have htag := (cons_prefix_cons.1 hl).1
    rw [← htag, lensBody, if_pos rfl] at hbody
    obtain ⟨_, ⟨f, rfl⟩, _, ⟨g, rfl⟩, rfl⟩ := hbody
    rw [← htag] at hl
    obtain ⟨hfield, -⟩ := (termPrefixKey_prefix_iff field pre f g _).1 hl
    have hkey : blobKeyOf Q = Tag.segment :: Tag.term ::
        (writeString f ++ (writeString g ++ writeU32 (segmentOf (seqOf Q)))) := by
      rw [blobKeyOf, segmentKey, hlQ, ← htag, under, cons_append, cons_append, append_assoc]
    rw [hkey]
    exact termOf_segmentKey hf hfield.symm _
  rw [terms, mem_insertionSort, mem_dedup, mem_append, mem_filterMap, mem_filterMap]
  constructor
  · rintro (⟨⟨P, v⟩, he, ht⟩ | ⟨e, he, ht⟩)
    · obtain ⟨hget, hp, -⟩ := mem_scan.1 he
      have hlive : m.get P ≠ none := by simp [hget]
      obtain ⟨id, man, hman, name, hname, -, rfl⟩ := live_term h hf hp hlive
      have hplain := hstored id man hman _ hname rfl
      rw [termOf, readTermKey_termKey hf hplain] at ht
      by_cases hstarts : pre <+: name
      · obtain rfl : name = t := by simpa [hstarts] using ht
        exact ⟨hstarts, hplain, id, hlive⟩
      · simp [hstarts] at ht
    · rw [hsealed e he] at ht
      cases ht
  · rintro ⟨hstarts, hplain, id, hlive⟩
    obtain ⟨v, hv⟩ := Option.ne_none_iff_exists'.1 hlive
    have hp := (utf8_prefix_iff hpre hplain.wellFormed).2 hstarts
    exact Or.inl ⟨(_, v), mem_scan.2 ⟨hv, (termPrefixKey_prefix_iff ..).2 ⟨rfl, hp⟩, by simp,
      by simp⟩, termOf_termKey hf hplain hstarts id⟩

lemma resolve_term_ne_nil (h : Tiers W m.get) (hW : Below W) (hf : Plain field)
    (hstored : FieldPlain m field) : (∃ out, resolve m (.term field t) = some out ∧ out ≠ []) ↔
      Plain t ∧ ∃ id, ∃ man ∈ manifestAt m id, (field, t) ∈ man.terms := by
  obtain ⟨hvalid, hmem⟩ := postingsUnder_lens h hW (termPrefix_mem_lensCode field t)
  obtain ⟨-, hout⟩ := hvalid.iterate_enumerates
  have heval : resolve m (.term field t) = some (postingsUnder m (termPrefix field t)).iterate := by
    rfl
  simp only [heval, Option.some.injEq, exists_eq_left']
  constructor
  · intro hne
    obtain ⟨z, rest, hz⟩ := exists_cons_of_ne_nil hne
    obtain ⟨id, hid, -⟩ := (hout z).1 (by rw [hz]; exact mem_cons_self ..)
    obtain ⟨n, man, hman, hposting⟩ := holds_iff.1 ((hmem id).1 hid).2
    obtain ⟨⟨p, hp, hpf, hpt⟩, -⟩ := mem_postingKeys_term.1 hposting
    have hfield : p.1 = field := (hf.eq_of_utf8 hpf.symm).symm
    have hplain := hstored n man hman p hp hfield
    obtain rfl := hplain.eq_of_utf8 hpt
    exact ⟨hplain, n, man, hman, by rw [← hfield]; exact hp⟩
  · rintro ⟨-, id, man, hman, hp⟩ hnil
    have hid := (manifestAt_eq_some.1 hman).1
    have := (hout id).2 ⟨id, (hmem id).2 ⟨hid, holds_iff.2 ⟨id, man, hman,
      mem_postingKeys_term.2 ⟨⟨_, hp, rfl, rfl⟩, rfl⟩⟩⟩, rfl⟩
    rw [hnil] at this
    exact absurd this not_mem_nil

lemma terms_ascending (m : Store) (field pre : Utf16) : Ascending (terms m field pre) := by
  have hnodup : (terms m field pre).Nodup :=
    (perm_insertionSort _ _).nodup_iff.2 (nodup_dedup _)
  exact (pairwise_insertionSort _ _).imp₂ (fun _ _ hle hne => lt_of_le_of_ne hle hne) hnodup

/-! ## Every run -/

/-- The vocabulary agrees with the answers: it lists, in order and each once, exactly the terms with
the prefix whose query has an answer. -/
def Agrees (m : Store) (field pre : Utf16) : Prop :=
  Ascending (terms m field pre) ∧ ∀ t, t ∈ terms m field pre ↔
    pre <+: t ∧ ∃ out, resolve m (.term field t) = some out ∧ out ≠ []

/-- In every store a run reaches that writes no identifier from `2 ^ 31` on, where the strings come
back from their encodings, the vocabulary agrees with the answers exactly when every term held has
a live posting. -/
theorem agrees_iff (h : Reachable idsBelow m) (hf : Plain field) (hpre : Plain pre)
    (hstored : FieldPlain m field) :
    Agrees m field pre ↔ ∀ id, ∀ man ∈ manifestAt m id, ∀ t, (field, t) ∈ man.terms → pre <+: t →
      ∃ holder, m.get (termKey field t holder) ≠ none := by
  have hterms := fun t => mem_terms_iff (t := t) h.tiers hf hpre.wellFormed hstored
  have hanswer := fun t => resolve_term_ne_nil (t := t) h.tiers below_idsBelow hf hstored
  constructor
  · rintro ⟨-, hagree⟩ id man hman t ht hstarts
    have hplain := hstored id man hman _ ht rfl
    have hlisted := (hagree t).2 ⟨hstarts, (hanswer t).2 ⟨hplain, id, man, hman, ht⟩⟩
    exact ((hterms t).1 hlisted).2.2
  · intro hlive
    refine ⟨terms_ascending m field pre, fun t => ?_⟩
    rw [hterms, hanswer]
    refine and_congr_right fun hstarts => and_congr_right fun hplain => ⟨?_, ?_⟩
    · rintro ⟨id, hget⟩
      have hp := (utf8_prefix_iff hpre.wellFormed hplain.wellFormed).2 hstarts
      have hkeyp : termPrefixKey field pre <+: termKey field t id :=
        (termPrefixKey_prefix_iff ..).2 ⟨rfl, hp⟩
      obtain ⟨n, man, hman, name, hname, -, hkey⟩ := live_term h.tiers hf hkeyp hget
      have hname' : utf8 t = utf8 name := (termPrefix_inj.1 (posting_inj.1 hkey).1).2
      rw [hplain.eq_of_utf8 hname']
      exact ⟨n, man, hman, hname⟩
    · rintro ⟨id, man, hman, ht⟩
      exact hlive id man hman t ht hstarts

/-- A term with a leading byte order mark is listed without it, and no query finds what is listed. -/
theorem not_agrees : ¬ ∀ m, Reachable {} m → ∀ field pre : Utf16, Agrees m field pre := by
  intro h
  obtain ⟨-, hagree⟩ := h _ (reachable_ranFrom [.transact [putTerms 1 [[0xFEFF, 0x61]]]])
    (utf16 "f") []
  have hterms : [0x61] ∈ terms (ranFrom [.transact [putTerms 1 [[0xFEFF, 0x61]]]])
      (utf16 "f") [] := by decide +kernel
  have hanswer : resolve (ranFrom [.transact [putTerms 1 [[0xFEFF, 0x61]]]])
      (.term (utf16 "f") [0x61]) = some [] := by decide +kernel
  obtain ⟨-, out, hout, hne⟩ := (hagree [0x61]).1 hterms
  exact hne (Option.some.inj (hout.symm.trans hanswer))

theorem agrees_iff_fixed :
    let m := ranFrom [.transact [putTerms 1 [utf16 "ab", utf16 "ac"], putTerms 2 [utf16 "ac"]],
      .sealPostings, .transact [.retract 0 2]]
    Agrees m (utf16 "f") (utf16 "a") ↔ ∀ id, ∀ man ∈ manifestAt m id, ∀ t,
      (utf16 "f", t) ∈ man.terms → utf16 "a" <+: t →
        ∃ holder, m.get (termKey (utf16 "f") t holder) ≠ none := by
  intro m
  refine agrees_iff (reachable_of_isLow (by decide)) (by decide) (by decide) fun id man hman p hp _ => ?_
  have hplain : ∀ e ∈ m.entries, ∀ t ∈ e.2.strings, Plain t := by decide +kernel
  exact hplain _ (mem_entries.2 (manifestAt_eq_some.1 hman).2) _
    (IndexManifest.mem_strings_term hp).2

end Zelavis.Db
