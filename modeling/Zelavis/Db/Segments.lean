import Zelavis.Lib.Ascending
import Zelavis.Lib.Bits
import Zelavis.Lib.Bytes

/-!
# Segment blobs

`segments.ts`: the identifiers of one value over a span of 65536, as one blob.
-/

namespace Zelavis.Db

open Lib List

/-- `SEGMENT_SPAN`. -/
def SEGMENT_SPAN : ℕ := 65536

/-- `DENSE_BYTES`. -/
def DENSE_BYTES : ℕ := 8192

/-- `SPARSE`. -/
abbrev SPARSE : Byte := 0x00

/-- `DENSE`. -/
abbrev DENSE : Byte := 0x01

def preferDense (count : ℕ) : Bool := DENSE_BYTES ≤ count * 2

def segmentOf (id : ℕ) : ℕ := id / SEGMENT_SPAN

/-! ## Bitmaps -/

def setBit (bits : List (BitVec 8)) (offset : ℕ) : List (BitVec 8) :=
  bits.modify (offset / 8) (· ||| BitVec.twoPow 8 (offset % 8))

def clearBit (bits : List (BitVec 8)) (offset : ℕ) : List (BitVec 8) :=
  bits.modify (offset / 8) (· &&& ~~~ BitVec.twoPow 8 (offset % 8))

def bitSet (bits : List (BitVec 8)) (offset : ℕ) : Bool :=
  (bits.getD (offset / 8) 0).getLsbD (offset % 8)

/-- The set bits of a bitmap whose first byte stands at `byte`, in ascending order. -/
def bitmapOffsets : ℕ → List (BitVec 8) → List ℕ
  | _, [] => []
  | byte, b :: rest => (setBits b).map (byte * 8 + ·) ++ bitmapOffsets (byte + 1) rest

/-! ## Blobs -/

/-- The identifiers of one segment as a blob. Source: `encodeSegment`. -/
def encodeSegment (ids : List ℕ) (base : ℕ) : Bytes :=
  if preferDense ids.length then
    DENSE :: (ids.foldl (fun bits id => setBit bits (id - base))
      (List.replicate DENSE_BYTES 0)).map BitVec.toFin
  else
    SPARSE :: ids.flatMap fun id =>
      [Fin.ofNat 256 ((id - base) % SEGMENT_SPAN), Fin.ofNat 256 ((id - base) % SEGMENT_SPAN / 256)]

/-- Pairs of bytes as little-endian numbers; an odd byte at the end is dropped. -/
def readPairs : Bytes → List ℕ
  | lo :: hi :: rest => (lo.val + hi.val * 256) :: readPairs rest
  | _ => []

/-- The identifiers of a blob in the order they are handed out. Source: `decodeSegment`. -/
def decodeSegment (bytes : Bytes) (base : ℕ) : List ℕ :=
  match bytes with
  | [] => []
  | b :: rest =>
    if b = DENSE then
      (bitmapOffsets 0 ((rest.take DENSE_BYTES).map BitVec.ofFin)).map (base + ·)
    else (readPairs rest).map (base + ·)

/-! ## The working buffer -/

/-- One segment's identifiers as a bitmap with their number.
Source: `SegmentBuffer`. -/
structure SegmentBuffer where
  bits : List (BitVec 8)
  count : ℕ
  length_bits : bits.length = DENSE_BYTES
  count_eq : count = (bitmapOffsets 0 bits).length

/-! ## Bitmap facts -/

variable {bits : List (BitVec 8)}

lemma mem_bitmapOffsets {offset byte : ℕ} : offset ∈ bitmapOffsets byte bits ↔
      byte * 8 ≤ offset ∧ bitSet bits (offset - byte * 8) := by
  induction bits generalizing byte with
  | nil => simp [bitmapOffsets, bitSet]
  | cons b bits ih =>
    rw [bitmapOffsets, mem_append, ih, List.mem_map]
    simp only [mem_setBits, bitSet]
    constructor
    · rintro (⟨i, hi, rfl⟩ | ⟨hle, hset⟩)
      · have := BitVec.lt_of_getLsbD hi
        rw [Nat.add_sub_cancel_left, Nat.div_eq_of_lt this, Nat.mod_eq_of_lt this]
        exact ⟨by omega, by simpa using hi⟩
      · obtain ⟨k, rfl⟩ : ∃ k, offset = (byte + 1) * 8 + k :=
          ⟨offset - (byte + 1) * 8, by omega⟩
        rw [show (byte + 1) * 8 + k - byte * 8 = k + 8 by omega, Nat.add_div_right _ (by norm_num),
          Nat.add_mod_right]
        exact ⟨by omega, by simpa using hset⟩
    · rintro ⟨hle, hset⟩
      obtain ⟨k, rfl⟩ : ∃ k, offset = byte * 8 + k := ⟨offset - byte * 8, by omega⟩
      rw [Nat.add_sub_cancel_left] at hset
      rcases lt_or_ge k 8 with hk | hk
      · rw [Nat.div_eq_of_lt hk, Nat.mod_eq_of_lt hk] at hset
        exact Or.inl ⟨k, by simpa using hset, rfl⟩
      · obtain ⟨j, rfl⟩ : ∃ j, k = j + 8 := ⟨k - 8, by omega⟩
        refine Or.inr ⟨by omega, ?_⟩
        rw [show byte * 8 + (j + 8) - (byte + 1) * 8 = j by omega]
        simpa using hset

lemma bitmapOffsets_sorted (byte : ℕ) (bits : List (BitVec 8)) : Ascending (bitmapOffsets byte bits) := by
  induction bits generalizing byte with
  | nil => exact List.Pairwise.nil
  | cons b bits ih =>
    refine pairwise_append.2 ⟨?_, ih (byte + 1), ?_⟩
    · exact (setBits_sorted b).map _ fun i j hij => by simpa using hij
    · intro i hi j hj
      obtain ⟨k, hk, rfl⟩ := List.mem_map.1 hi
      have := BitVec.lt_of_getLsbD (mem_setBits.1 hk)
      have := (mem_bitmapOffsets.1 hj).1
      omega

variable {offset : ℕ}

lemma bitSet_lt (h : bitSet bits offset) : offset < bits.length * 8 := by
  by_contra hge
  have hnone : bits.getD (offset / 8) 0 = 0 := by
    rw [getD_eq_getElem?_getD, List.getElem?_eq_none (by omega)]
    rfl
  rw [bitSet, hnone] at h
  simp at h

lemma bitSet_setBit {i : ℕ} (h : offset < bits.length * 8) :
    bitSet (setBit bits offset) i = (decide (i = offset) || bitSet bits i) := bitOf_set h

lemma bitSet_clearBit {i : ℕ} (h : offset < bits.length * 8) :
    bitSet (clearBit bits offset) i = (decide (i ≠ offset) && bitSet bits i) := bitOf_clear h

@[simp] lemma setBit_length (bits : List (BitVec 8)) (offset : ℕ) :
    (setBit bits offset).length = bits.length := by simp [setBit]

@[simp] lemma clearBit_length (bits : List (BitVec 8)) (offset : ℕ) :
    (clearBit bits offset).length = bits.length := by simp [clearBit]

/-! ## The buffer's operations -/

variable {buffer : SegmentBuffer} {base id : ℕ}

namespace SegmentBuffer

/-- Source: `SegmentBuffer.reset`, and a new buffer. -/
def reset : SegmentBuffer where
  bits := List.replicate DENSE_BYTES 0
  count := 0
  length_bits := List.length_replicate
  count_eq := by
    have hnone : ∀ n byte, bitmapOffsets byte (List.replicate n 0) = [] := by
      intro n
      induction n with
      | zero => exact fun _ => rfl
      | succ n ih =>
        intro byte
        rw [List.replicate_succ, bitmapOffsets, ih, setBits_eq]
        simp
    rw [hnone, List.length_nil]

def holds (buffer : SegmentBuffer) (offset : ℕ) : Bool := bitSet buffer.bits offset

lemma lt_of_holds (h : buffer.holds offset) : offset < SEGMENT_SPAN := by
  have := bitSet_lt h
  rw [buffer.length_bits] at this
  exact this

lemma length_setBit (h : offset < bits.length * 8) (hnot : bitSet bits offset = false) :
    (bitmapOffsets 0 (setBit bits offset)).length = (bitmapOffsets 0 bits).length + 1 := by
  have hperm : (bitmapOffsets 0 (setBit bits offset)).Perm (offset :: bitmapOffsets 0 bits) := by
    refine (perm_ext_iff_of_nodup (bitmapOffsets_sorted 0 _).nodup ?_).2 fun i => ?_
    · refine nodup_cons.2 ⟨fun hmem => ?_, (bitmapOffsets_sorted 0 _).nodup⟩
      have := (mem_bitmapOffsets.1 hmem).2
      rw [Nat.zero_mul, Nat.sub_zero, hnot] at this
      exact Bool.noConfusion this
    · simp [mem_bitmapOffsets, bitSet_setBit h]
  rw [hperm.length_eq, length_cons]

lemma length_clearBit (hset : bitSet bits offset = true) :
    (bitmapOffsets 0 (clearBit bits offset)).length = (bitmapOffsets 0 bits).length - 1 := by
  have h := bitSet_lt hset
  have hperm : (bitmapOffsets 0 bits).Perm (offset :: bitmapOffsets 0 (clearBit bits offset)) := by
    refine (perm_ext_iff_of_nodup (bitmapOffsets_sorted 0 _).nodup ?_).2 fun i => ?_
    · refine nodup_cons.2 ⟨fun hmem => ?_, (bitmapOffsets_sorted 0 _).nodup⟩
      have := (mem_bitmapOffsets.1 hmem).2
      simp [bitSet_clearBit h] at this
    · rcases eq_or_ne i offset with rfl | hne
      · simp [mem_bitmapOffsets, hset]
      · simp [mem_bitmapOffsets, bitSet_clearBit h, hne]
  rw [hperm.length_eq, length_cons, Nat.add_sub_cancel]

/-- An offset of the segment added; callers pass no other. Source: `SegmentBuffer.add`. -/
def add (buffer : SegmentBuffer) (offset : ℕ) : SegmentBuffer :=
  if h : offset < SEGMENT_SPAN ∧ bitSet buffer.bits offset = false then
    { bits := setBit buffer.bits offset
      count := buffer.count + 1
      length_bits := by rw [setBit_length, buffer.length_bits]
      count_eq := by rw [length_setBit (by rw [buffer.length_bits]; exact h.1) h.2, buffer.count_eq] }
  else buffer

/-- Source: `SegmentBuffer.remove`. -/
def remove (buffer : SegmentBuffer) (offset : ℕ) : SegmentBuffer :=
  if h : bitSet buffer.bits offset = true then
    { bits := clearBit buffer.bits offset
      count := buffer.count - 1
      length_bits := by rw [clearBit_length, buffer.length_bits]
      count_eq := by rw [length_clearBit h, buffer.count_eq] }
  else buffer

/-- Source: `SegmentBuffer.size`. -/
def size (buffer : SegmentBuffer) : ℕ := buffer.count

/-- The identifiers held, ascending. Source: `SegmentBuffer.ids`. -/
def ids (buffer : SegmentBuffer) (base : ℕ) : List ℕ :=
  (bitmapOffsets 0 buffer.bits).map (base + ·)

@[simp] lemma holds_reset (i : ℕ) : reset.holds i = false := by
  rw [holds, bitSet, reset, getD_eq_getElem?_getD, List.getElem?_replicate]
  split_ifs <;> simp

lemma holds_add (buffer : SegmentBuffer) (h : offset < SEGMENT_SPAN) (i : ℕ) :
    (buffer.add offset).holds i = (decide (i = offset) || buffer.holds i) := by
  rw [add]
  split_ifs with hc
  · exact bitSet_setBit (by rw [buffer.length_bits]; exact h)
  · have hset : buffer.holds offset = true := by simpa [h, holds] using hc
    rcases eq_or_ne i offset with rfl | hne
    · simp [hset]
    · simp [hne]

lemma holds_remove (buffer : SegmentBuffer) (offset i : ℕ) :
    (buffer.remove offset).holds i = (decide (i ≠ offset) && buffer.holds i) := by
  rw [remove]
  split_ifs with hc
  · exact bitSet_clearBit (bitSet_lt hc)
  · rcases eq_or_ne i offset with rfl | hne
    · simpa [holds] using hc
    · simp [hne]

lemma mem_ids : id ∈ buffer.ids base ↔ base ≤ id ∧ buffer.holds (id - base) := by
  rw [ids, List.mem_map]
  simp only [mem_bitmapOffsets, Nat.zero_mul, Nat.zero_le, Nat.sub_zero, true_and]
  constructor
  · rintro ⟨i, hi, rfl⟩
    simpa [holds] using hi
  · rintro ⟨hle, hi⟩
    exact ⟨id - base, hi, by omega⟩

lemma ids_sorted (buffer : SegmentBuffer) (base : ℕ) : Ascending (buffer.ids base) :=
  (bitmapOffsets_sorted 0 buffer.bits).map fun i j hij => by simpa using hij

lemma size_eq_zero_iff : buffer.size = 0 ↔ ∀ i, buffer.holds i = false := by
  rw [size, buffer.count_eq, length_eq_zero_iff, eq_nil_iff_forall_not_mem]
  simp [mem_bitmapOffsets, holds]

end SegmentBuffer

/-! ## A blob is read back as it was written -/

variable {ids : List ℕ}

lemma readPairs_flatMap {base : ℕ} (h : ∀ id ∈ ids, base ≤ id ∧ id < base + SEGMENT_SPAN) :
    (readPairs (ids.flatMap fun id => [Fin.ofNat 256 ((id - base) % SEGMENT_SPAN),
      Fin.ofNat 256 ((id - base) % SEGMENT_SPAN / 256)])).map (base + ·) = ids := by
  induction ids with
  | nil => rfl
  | cons id ids ih =>
    obtain ⟨hle, hlt⟩ := h id (by simp)
    rw [flatMap_cons, cons_append, cons_append, nil_append, readPairs,
      map_cons, ih fun id hid => h id (by simp [hid])]
    congr 1
    simp only [Fin.val_ofNat, SEGMENT_SPAN] at *
    omega

lemma foldl_setBit_length (ids : List ℕ) (f : ℕ → ℕ) (bits : List (BitVec 8)) :
    (ids.foldl (fun bits id => setBit bits (f id)) bits).length = bits.length := by
  induction ids generalizing bits with
  | nil => rfl
  | cons id ids ih => rw [foldl_cons, ih, setBit_length]

lemma bitSet_foldl {f : ℕ → ℕ} (h : ∀ id ∈ ids, f id < bits.length * 8) (i : ℕ) :
    bitSet (ids.foldl (fun bits id => setBit bits (f id)) bits) i =
      (decide (i ∈ ids.map f) || bitSet bits i) := by
  induction ids generalizing bits with
  | nil => simp
  | cons id ids ih =>
    rw [foldl_cons, ih (by simpa using fun id hid => h id (by simp [hid])),
      bitSet_setBit (h id (by simp)), map_cons, ← Bool.or_assoc, ← Bool.decide_or]
    congr 1
    exact decide_eq_decide.2 (by rw [mem_cons, or_comm])

lemma decodeSegment_encodeSegment {base : ℕ} (hsorted : Ascending ids)
    (h : ∀ id ∈ ids, base ≤ id ∧ id < base + SEGMENT_SPAN) :
    decodeSegment (encodeSegment ids base) base = ids := by
  rw [encodeSegment]
  split_ifs
  · set bits := ids.foldl (fun bits id => setBit bits (id - base))
      (List.replicate DENSE_BYTES 0) with hbits
    have hlen : bits.length = DENSE_BYTES := by
      rw [hbits, foldl_setBit_length ids (· - base), length_replicate]
    have hback : ((bits.map BitVec.toFin).take DENSE_BYTES).map BitVec.ofFin = bits := by
      rw [← hlen, ← length_map (f := BitVec.toFin), take_length, List.map_map]
      exact List.map_id _
    have hset : ∀ i, bitSet bits i = decide (i ∈ ids.map (· - base)) := by
      intro i
      rw [hbits, bitSet_foldl]
      · have := SegmentBuffer.holds_reset i
        rw [SegmentBuffer.holds, SegmentBuffer.reset] at this
        rw [this, Bool.or_false]
      · intro id hid
        rw [length_replicate]
        have := h id hid
        simp only [SEGMENT_SPAN, DENSE_BYTES] at *
        omega
    rw [decodeSegment, if_pos rfl, hback]
    refine Ascending.ext ((bitmapOffsets_sorted 0 bits).map fun i j hij => by simpa using hij)
      hsorted fun i => ?_
    simp only [List.mem_map, mem_bitmapOffsets, hset, Nat.zero_mul, Nat.zero_le, Nat.sub_zero,
      true_and, decide_eq_true_eq]
    constructor
    · rintro ⟨_, ⟨id, hid, rfl⟩, rfl⟩
      rwa [Nat.add_sub_cancel' (h id hid).1]
    · exact fun hi => ⟨i - base, ⟨i, hi, rfl⟩, Nat.add_sub_cancel' (h i hi).1⟩
  · rw [decodeSegment, if_neg (by decide)]
    exact readPairs_flatMap h

lemma mem_decodeSegment_lt {bytes : Bytes} (h : id ∈ decodeSegment bytes base) :
    base ≤ id ∧ id < base + SEGMENT_SPAN := by
  cases bytes with
  | nil => simp [decodeSegment] at h
  | cons b rest =>
    rw [decodeSegment] at h
    split_ifs at h
    · obtain ⟨i, hi, rfl⟩ := List.mem_map.1 h
      have hlt := bitSet_lt (mem_bitmapOffsets.1 hi).2
      have hlen := length_take_le DENSE_BYTES rest
      rw [length_map] at hlt
      simp only [SEGMENT_SPAN, DENSE_BYTES] at *
      omega
    · obtain ⟨i, hi, rfl⟩ := List.mem_map.1 h
      have hpair : ∀ l : Bytes, ∀ i ∈ readPairs l, i < SEGMENT_SPAN := by
        intro l
        induction l using readPairs.induct with
        | case1 lo hi rest ih =>
          intro i hmem
          rcases mem_cons.1 hmem with rfl | hmem
          · have := lo.isLt
            rw [SEGMENT_SPAN]
            omega
          · exact ih i hmem
        | case2 l hl => simp [readPairs]
      have := hpair rest i hi
      omega

lemma decodeSegment_base (bytes : Bytes) (base : ℕ) :
    decodeSegment bytes base = (decodeSegment bytes 0).map (base + ·) := by
  cases bytes with
  | nil => rfl
  | cons b rest =>
    rw [decodeSegment, decodeSegment]
    split_ifs <;> simp

/-! ## Sequences of calls -/

namespace SegmentBuffer

/-- A call on a buffer. An offset is one of the segment's. -/
inductive Call where
  /-- `reset()`. -/
  | reset
  /-- `add(offset)`. -/
  | add (offset : Fin SEGMENT_SPAN)
  /-- `remove(offset)`. -/
  | remove (offset : Fin SEGMENT_SPAN)
  deriving DecidableEq

def call (buffer : SegmentBuffer) : Call → SegmentBuffer
  | .reset => reset
  | .add offset => buffer.add offset
  | .remove offset => buffer.remove offset

def run (calls : List Call) : SegmentBuffer := calls.foldl call reset

def Added (calls : List Call) (offset : Fin SEGMENT_SPAN) : Prop :=
  ∃ before after, calls = before ++ .add offset :: after ∧ .remove offset ∉ after ∧ .reset ∉ after

lemma added_append {calls : List Call} {last : Call} {offset : Fin SEGMENT_SPAN} :
    Added (calls ++ [last]) offset ↔
      last = .add offset ∨ last ≠ .remove offset ∧ last ≠ .reset ∧ Added calls offset := by
  constructor
  · rintro ⟨before, after, heq, hremove, hreset⟩
    rcases eq_nil_or_concat after with rfl | ⟨after, c, rfl⟩
    · exact Or.inl (append_inj' heq rfl).2 |>.imp_left fun h => by simpa using h
    · rw [concat_eq_append] at *
      rw [← cons_append, ← append_assoc] at heq
      obtain ⟨hcalls, hlast⟩ := append_inj' heq rfl
      obtain rfl : last = c := by simpa using hlast
      simp only [mem_append, mem_singleton, not_or] at hremove hreset
      exact Or.inr ⟨fun h => hremove.2 h.symm, fun h => hreset.2 h.symm, before, after, hcalls,
        hremove.1, hreset.1⟩
  · rintro (rfl | ⟨hremove, hreset, before, after, rfl, hremove', hreset'⟩)
    · exact ⟨calls, [], rfl, by simp, by simp⟩
    · refine ⟨before, after ++ [last], by simp, ?_, ?_⟩
      · simpa using ⟨hremove', hremove.symm⟩
      · simpa using ⟨hreset', hreset.symm⟩

lemma holds_run (calls : List Call) (offset : Fin SEGMENT_SPAN) :
    (run calls).holds offset ↔ Added calls offset := by
  induction calls using List.reverseRecOn with
  | nil => simp [run, Added]
  | append_singleton calls last ih =>
    rw [added_append, ← ih, run, foldl_append, foldl_cons, foldl_nil, ← run]
    cases last with
    | reset => simp [call]
    | add added =>
      rw [call, holds_add _ added.isLt, Bool.or_eq_true, decide_eq_true_eq, Fin.val_inj]
      simp [Call.add.injEq, @eq_comm _ added offset]
    | remove removed =>
      rw [call, holds_remove, Bool.and_eq_true, decide_eq_true_eq, ne_eq, Fin.val_inj]
      simp [Call.remove.injEq, @eq_comm _ removed offset]

/-- The offsets held are those added and not since removed, in ascending order, as many as the size
says. -/
theorem ids_run (calls : List Call) (base : ℕ) : Ascending ((run calls).ids base) ∧
      (∀ id, id ∈ (run calls).ids base ↔
        ∃ offset : Fin SEGMENT_SPAN, id = base + offset ∧ Added calls offset) ∧
      (run calls).size = ((run calls).ids base).length := by
  refine ⟨ids_sorted _ base, fun id => ?_, ?_⟩
  · rw [mem_ids]
    constructor
    · rintro ⟨hle, hholds⟩
      have hlt := lt_of_holds hholds
      exact ⟨⟨id - base, hlt⟩, (Nat.add_sub_cancel' hle).symm, (holds_run calls ⟨_, hlt⟩).1 hholds⟩
    · rintro ⟨offset, rfl, hadded⟩
      rw [Nat.add_sub_cancel_left]
      exact ⟨Nat.le_add_right _ _, (holds_run calls offset).2 hadded⟩
  · rw [size, count_eq, ids, length_map]

end SegmentBuffer

/-- Segments are read back as they were written, and a buffer lists what was added to it. -/
theorem segments_keep_their_offsets : (∀ (ids : List ℕ) (base : ℕ), Ascending ids →
      (∀ id ∈ ids, base ≤ id ∧ id < base + SEGMENT_SPAN) →
        decodeSegment (encodeSegment ids base) base = ids) ∧ ∀ (calls : List SegmentBuffer.Call) (base : ℕ),
        Ascending ((SegmentBuffer.run calls).ids base) ∧ (∀ id, id ∈ (SegmentBuffer.run calls).ids base ↔
            ∃ offset : Fin SEGMENT_SPAN, id = base + offset ∧ SegmentBuffer.Added calls offset) ∧
          (SegmentBuffer.run calls).size = ((SegmentBuffer.run calls).ids base).length :=
  ⟨fun _ _ => decodeSegment_encodeSegment, SegmentBuffer.ids_run⟩

/-- The last offset of the second segment. -/
theorem segments_keep_their_offsets_last :
    decodeSegment (encodeSegment [65536, 131071] 65536) 65536 = [65536, 131071] :=
  segments_keep_their_offsets.1 [65536, 131071] 65536 (by decide) (by decide)

end Zelavis.Db
