import Zelavis.Db.Canonical
import Zelavis.Edge.RouteValidation

/-!
# Messages on an agent's socket

`_agent-ipc.ts` `messageReader` and `send`: a message is a line of JSON in UTF-8, and the reader decodes the
bytes as they arrive, each chunk by itself, and takes the lines off what it has kept.
-/

namespace Zelavis.Agent.Framing

open Lib Db Edge List

def NEWLINE : CodeUnit := 0x0A

/-! ## A message is one line -/

section

/-- A text without the end of a line in which every surrogate is half of a pair. -/
structure OneLine (s : Utf16) : Prop where
  newline : NEWLINE ∉ s
  paired : wellFormed s = true

variable {s t : Utf16}

lemma OneLine.append (hs : OneLine s) (ht : OneLine t) : OneLine (s ++ t) where
  newline hmem := (mem_append.1 hmem).elim hs.newline ht.newline
  paired := wellFormed_append hs.paired ht.paired

lemma oneLine_of_plain (h : ∀ u ∈ s, isSurrogate u = false ∧ u ≠ NEWLINE) : OneLine s :=
  ⟨fun hmem => (h _ hmem).2 rfl, wellFormed_of_forall fun u hu => (h u hu).1⟩

lemma oneLine_of_all (h : (s.all fun u => !isSurrogate u && u != NEWLINE) = true) : OneLine s :=
  oneLine_of_plain fun u hu => by simpa using List.all_eq_true.1 h u hu

lemma oneLine_unicodeEscape (u : CodeUnit) : OneLine (unicodeEscape u) := by
  have hhex : ∀ n < 16, isSurrogate (hexDigit n) = false ∧ hexDigit n ≠ NEWLINE := by decide +kernel
  refine (oneLine_of_all (by decide)).append (oneLine_of_plain fun v hv => ?_)
  simp only [mem_cons, not_mem_nil, or_false] at hv
  rcases hv with rfl | rfl | rfl | rfl
  · exact hhex _ (by omega)
  · exact hhex _ (by omega)
  · exact hhex _ (by omega)
  · exact hhex _ (by omega)

lemma oneLine_quoteUnit {u : CodeUnit} (h : ¬(isHighSurrogate u || isLowSurrogate u) = true) :
    OneLine (quoteUnit u) := by
  unfold quoteUnit
  split_ifs with h₁ h₂ h₃
  all_goals first
    | exact oneLine_of_all (by decide)
    | exact oneLine_unicodeEscape u
    | skip
  refine oneLine_of_plain fun v hv => ?_
  rw [mem_singleton.1 hv]
  refine ⟨?_, h₃⟩
  simp only [isHighSurrogate, isLowSurrogate, isSurrogate, Bool.or_eq_true, Bool.and_eq_true,
    Bool.and_eq_false_iff, decide_eq_true_eq, decide_eq_false_iff_not] at h ⊢
  omega

lemma oneLine_quoteUnits (s : Utf16) : OneLine (quoteUnits s) := by
  fun_induction quoteUnits s with
  | case1 => exact ⟨not_mem_nil, rfl⟩
  | case2 u hsurrogate => exact oneLine_unicodeEscape u
  | case3 u hplain => exact oneLine_quoteUnit hplain
  | case4 u v rest hpair ih =>
    constructor
    · intro hmem
      simp only [mem_cons] at hmem
      rcases hmem with rfl | rfl | hmem
      · exact absurd hpair (by simp [isHighSurrogate, NEWLINE])
      · exact absurd hpair (by simp [isLowSurrogate, NEWLINE])
      · exact ih.newline hmem
    · rw [wellFormed, if_pos hpair]
      exact ih.paired
  | case5 u v rest hpair ih =>
    refine OneLine.append ?_ ih
    split_ifs with hsurrogate
    · exact oneLine_unicodeEscape u
    · exact oneLine_quoteUnit hsurrogate

lemma oneLine_quote (s : Utf16) : OneLine (quote s) :=
  ((oneLine_of_all (by decide)).append (oneLine_quoteUnits s)).append (oneLine_of_all (by decide))

variable {digits : JsNumber → Utf16}

mutual

lemma oneLine_stringify (hdigits : Spelling digits) : ∀ v : Json, OneLine (stringify digits v)
  | .scalar .null => by
    rw [stringify]
    exact oneLine_of_all (by decide)
  | .scalar (.boolean true) => by
    rw [stringify]
    exact oneLine_of_all (by decide)
  | .scalar (.boolean false) => by
    rw [stringify]
    exact oneLine_of_all (by decide)
  | .scalar (.number n) => by
    rw [stringify_number]
    split_ifs with hfinite
    · have hparts : ((utf16 "0123456789" ++ utf16 "+-.e").all fun u => !isSurrogate u && u != NEWLINE) = true := by
        decide
      refine oneLine_of_plain fun u hu => ?_
      have hpart := hdigits.part n hfinite u hu
      simp only [isNumberPart, Bool.or_eq_true, decide_eq_true_eq] at hpart
      simpa using List.all_eq_true.1 hparts u (mem_append.2 hpart)
    · exact oneLine_of_all (by decide)
  | .scalar (.string s) => oneLine_quote s
  | .array items =>
    ((oneLine_of_all (by decide)).append (oneLine_items hdigits items)).append (oneLine_of_all (by decide))
  | .object members =>
    ((oneLine_of_all (by decide)).append (oneLine_members hdigits members)).append (oneLine_of_all (by decide))

lemma oneLine_items (hdigits : Spelling digits) : ∀ items : List Json, OneLine (stringifyItems digits items)
  | [] => oneLine_of_all rfl
  | [v] => oneLine_stringify hdigits v
  | v :: w :: rest =>
    ((oneLine_stringify hdigits v).append (oneLine_of_all (by decide))).append (oneLine_items hdigits (w :: rest))

lemma oneLine_members (hdigits : Spelling digits) :
    ∀ members : List (Utf16 × Json), OneLine (stringifyMembers digits members)
  | [] => oneLine_of_all rfl
  | [(k, v)] => ((oneLine_quote k).append (oneLine_of_all (by decide))).append (oneLine_stringify hdigits v)
  | (k, v) :: m :: rest =>
    ((((oneLine_quote k).append (oneLine_of_all (by decide))).append (oneLine_stringify hdigits v)).append
      (oneLine_of_all (by decide))).append (oneLine_members hdigits (m :: rest))

end

end

/-! ## Chunks -/

/-- Source: `Buffer.toString`, of a chunk by itself. -/
def toText (chunk : Bytes) : Utf16 := (utf8Decode chunk).flatMap pointUnits

lemma inside_decodeStart : Inside decodeStart := .inl rfl

lemma count_toText (chunk : Bytes) : (toText chunk).count NEWLINE = chunk.count 0x0A := by
  rw [toText, ← count_utf8DecodeFrom inside_decodeStart, utf8Decode]
  induction utf8DecodeFrom decodeStart chunk with
  | nil => rfl
  | cons c cs ih =>
    rw [flatMap_cons, count_append, ih, NEWLINE, count_pointUnits, count_singleton,
      count_cons, Nat.add_comm]

lemma toText_concat (chunk : Bytes) : ∃ text, toText (chunk ++ [0x0A]) = text ++ [NEWLINE] := by
  obtain ⟨points, hpoints⟩ := utf8DecodeFrom_concat inside_decodeStart chunk
  refine ⟨points.flatMap pointUnits, ?_⟩
  rw [toText, utf8Decode, hpoints, flatMap_append]
  rfl

lemma toText_utf8 {s : Utf16} (h : wellFormed s) : toText (utf8 s) = s := by
  rw [toText, utf8Decode_utf8, flatMap_pointUnits_codePoints h]

/-! ## Lines -/

/-- The lines of a text that have ended, and what comes after the last of them. -/
def cut : Utf16 → List Utf16 × Utf16
  | [] => ([], [])
  | u :: text =>
    if u = NEWLINE then ([] :: (cut text).1, (cut text).2)
    else match (cut text).1 with
      | [] => ([], u :: (cut text).2)
      | line :: lines => ((u :: line) :: lines, (cut text).2)

def joined (lines : List Utf16) (rest : Utf16) : Utf16 := lines.flatMap (· ++ [NEWLINE]) ++ rest

lemma cut_line {line : Utf16} (h : NEWLINE ∉ line) (text : Utf16) :
    cut (line ++ NEWLINE :: text) = (line :: (cut text).1, (cut text).2) := by
  induction line with
  | nil => rw [nil_append, cut, if_pos rfl]
  | cons u line ih =>
    rw [mem_cons, not_or] at h
    rw [cons_append, cut, if_neg (Ne.symm h.1), ih h.2]

lemma cut_cons_ne {u : CodeUnit} (h : u ≠ NEWLINE) (text : Utf16) : cut (u :: text) = match (cut text).1 with
      | [] => ([], u :: (cut text).2)
      | line :: lines => ((u :: line) :: lines, (cut text).2) := by
  rw [cut, if_neg h]

lemma cut_append (text more : Utf16) : cut (text ++ more) =
    ((cut text).1 ++ (cut ((cut text).2 ++ more)).1, (cut ((cut text).2 ++ more)).2) := by
  induction text with
  | nil => rfl
  | cons u text ih =>
    rw [cons_append]
    by_cases hu : u = NEWLINE
    · rw [cut, cut, if_pos hu, if_pos hu, ih]
      rfl
    · rw [cut_cons_ne hu, cut_cons_ne hu, ih]
      cases (cut text).1 with
      | nil => exact (cut_cons_ne hu _).symm
      | cons line lines => rfl

lemma joined_cut (text : Utf16) : joined (cut text).1 (cut text).2 = text := by
  induction text with
  | nil => rfl
  | cons u text ih =>
    by_cases hu : u = NEWLINE
    · rw [cut, if_pos hu, hu]
      exact congrArg (NEWLINE :: ·) ih
    · rw [cut_cons_ne hu]
      cases hlines : (cut text).1 with
      | nil =>
        rw [hlines] at ih
        exact congrArg (u :: ·) ih
      | cons line lines =>
        rw [hlines] at ih
        exact congrArg (u :: ·) ih

lemma length_cut (text : Utf16) : (cut text).1.length = text.count NEWLINE := by
  induction text with
  | nil => rfl
  | cons u text ih =>
    by_cases hu : u = NEWLINE
    · rw [cut, if_pos hu, hu, length_cons, ih, count_cons_self]
    · rw [cut_cons_ne hu, count_cons_of_ne hu, ← ih]
      cases (cut text).1 <;> rfl

lemma cut_rest (text : Utf16) : cut (cut text).2 = ([], (cut text).2) := by
  have hsame := cut_append text []
  rw [append_nil, append_nil] at hsame
  have hlines := congrArg Prod.fst hsame
  have hrest := congrArg Prod.snd hsame
  exact Prod.ext (self_eq_append_right.1 hlines) hrest.symm

lemma cut_concat (text : Utf16) : (cut (text ++ [NEWLINE])).2 = [] := by
  have hplain : NEWLINE ∉ (cut text).2 := by
    rw [← count_eq_zero, ← length_cut, cut_rest]
    rfl
  rw [cut_append, cut_line hplain]
  rfl

/-! ## The reader -/

/-- Source: `MAX_MESSAGE_LENGTH`. -/
def MAX_MESSAGE_LENGTH : ℕ := 1024 * 1024

/-- What a reader has told of so far, and what it keeps between two chunks. -/
structure Reader where
  buffer : Utf16 := []
  delivered : List JsonObject := []
  errors : List Utf16 := []

/-- `JSON.parse`, which throws where there is nothing. -/
abbrev Parse := Utf16 → Option Json

/-- The loop over the lines that have ended. Source: `messageReader`. -/
def handleLines (parse : Parse) (rest : Utf16) : List Utf16 → Reader → Reader
  | [], r => { r with buffer := rest }
  | line :: lines, r =>
    if trim line = [] then handleLines parse rest lines r
    else match parse line with
      | none => { r with
          buffer := joined lines rest, errors := r.errors ++ [utf16 "message was not valid JSON"] }
      | some (.object message) =>
        handleLines parse rest lines { r with delivered := r.delivered ++ [message] }
      | some _ => { r with
          buffer := joined lines rest, errors := r.errors ++ [utf16 "message was not an object"] }

/-- Source: `messageReader`, what it returns. -/
def receive (parse : Parse) (r : Reader) (chunk : Bytes) : Reader :=
  let buffer := r.buffer ++ toText chunk
  if MAX_MESSAGE_LENGTH < buffer.length then
    { r with buffer := [], errors := r.errors ++ [utf16 "message exceeded the size limit"] }
  else handleLines parse (cut buffer).2 (cut buffer).1 r

/-- A message as a line can hold it. -/
def Message := { message : JsonObject // reread (.object message) = .object message }

variable (digits : JsNumber → Utf16)

def lineOf (message : Message) : Utf16 := stringify digits (.object message.val)

/-- Source: `send`, the text it writes for one message after another. -/
def sent (messages : List Message) : Utf16 := messages.flatMap fun message => lineOf digits message ++ [NEWLINE]

/-- What is documented of `JSON.parse`: it reads back what `JSON.stringify` writes. -/
def ReadsBack (parse : Parse) : Prop :=
  ∀ message : Message, parse (lineOf digits message) = some (.object message.val)

/-! ## What a run reads -/

section

variable {parse : Parse} {r : Reader} {lines : List Utf16} {rest : Utf16} {ms : List JsonObject}

/-- The messages of the lines that are not blank. -/
inductive Tells (parse : Parse) : List Utf16 → List JsonObject → Prop
  | nil : Tells parse [] []
  | blank {line lines ms} (h : trim line = []) (hrest : Tells parse lines ms) : Tells parse (line :: lines) ms
  | message {line lines m ms} (h : trim line ≠ []) (hparse : parse line = some (.object m))
      (hrest : Tells parse lines ms) : Tells parse (line :: lines) (m :: ms)

lemma Tells.append {more : List Utf16} {ms' : List JsonObject} (h : Tells parse lines ms)
    (hmore : Tells parse more ms') : Tells parse (lines ++ more) (ms ++ ms') := by
  induction h with
  | nil => exact hmore
  | blank h _ ih => exact .blank h ih
  | message h hparse _ ih => exact .message h hparse ih

lemma Tells.of_append {more : List Utf16} (h : Tells parse (lines ++ more) ms) :
    ∃ ms₁ ms₂, ms = ms₁ ++ ms₂ ∧ Tells parse lines ms₁ ∧ Tells parse more ms₂ := by
  induction lines generalizing ms with
  | nil => exact ⟨[], ms, rfl, .nil, h⟩
  | cons line lines ih =>
    cases h with
    | blank hblank hrest =>
      obtain ⟨ms₁, ms₂, rfl, h₁, h₂⟩ := ih hrest
      exact ⟨ms₁, ms₂, rfl, .blank hblank h₁, h₂⟩
    | message hblank hparse hrest =>
      obtain ⟨ms₁, ms₂, rfl, h₁, h₂⟩ := ih hrest
      exact ⟨_ :: ms₁, ms₂, rfl, .message hblank hparse h₁, h₂⟩

lemma handleLines_of_tells (h : Tells parse lines ms) :
    handleLines parse rest lines r = { r with buffer := rest, delivered := r.delivered ++ ms } := by
  induction h generalizing r with
  | nil => rw [handleLines, append_nil]
  | blank h _ ih => rw [handleLines, if_pos h, ih]
  | message h hparse _ ih =>
    rw [handleLines, if_neg h, hparse]
    dsimp only
    rw [ih, append_assoc, singleton_append]

/-- Either every line is a message or blank, or the loop ends at an error and keeps what comes after it. -/
lemma handleLines_spec (rest : Utf16) (r : Reader) : (∃ ms, Tells parse lines ms) ∨
    ∃ error, (handleLines parse rest lines r).errors = r.errors ++ [error] ∧
      (handleLines parse rest lines r).buffer.length ≤ (joined lines rest).length := by
  induction lines generalizing r with
  | nil => exact .inl ⟨[], .nil⟩
  | cons line lines ih =>
    have hle : (joined lines rest).length ≤ (joined (line :: lines) rest).length := by
      simp only [joined, flatMap_cons, append_assoc, length_append]
      omega
    rw [handleLines]
    split_ifs with hblank
    · obtain ⟨ms, hms⟩ | ⟨error, herror, hlength⟩ := ih r
      · exact .inl ⟨ms, .blank hblank hms⟩
      · exact .inr ⟨error, herror, hlength.trans hle⟩
    · split
      · exact .inr ⟨_, rfl, hle⟩
      next message hparse =>
        obtain ⟨ms, hms⟩ | ⟨error, herror, hlength⟩ :=
          ih { r with delivered := r.delivered ++ [message] }
        · exact .inl ⟨_, .message hblank hparse hms⟩
        · exact .inr ⟨error, herror, hlength.trans hle⟩
      · exact .inr ⟨_, rfl, hle⟩

/-- What is kept between two chunks is within the limit, whatever came. -/
lemma length_receive (chunk : Bytes) : (receive parse r chunk).buffer.length ≤ MAX_MESSAGE_LENGTH := by
  rw [receive]
  split_ifs with hlong
  · exact Nat.zero_le _
  · have hjoined := congrArg List.length (joined_cut (r.buffer ++ toText chunk))
    obtain ⟨ms, hms⟩ | ⟨error, -, hlength⟩ := handleLines_spec (cut (r.buffer ++ toText chunk)).2 r
    · rw [handleLines_of_tells hms]
      rw [joined, length_append] at hjoined
      dsimp only
      omega
    · omega

variable {buffer : Utf16} {chunk : Bytes} {chunks : List Bytes}

/-- What is kept and each chunk, decoded by itself, are together within the limit. -/
def Fits : Utf16 → List Bytes → Prop
  | _, [] => True
  | buffer, chunk :: chunks => (buffer ++ toText chunk).length ≤ MAX_MESSAGE_LENGTH ∧
      Fits (cut (buffer ++ toText chunk)).2 chunks

lemma errors_foldl (h : (chunks.foldl (receive parse) r).errors = []) : r.errors = [] := by
  induction chunks generalizing r with
  | nil => exact h
  | cons chunk chunks ih =>
    have hnone := ih h
    rw [receive] at hnone
    split_ifs at hnone
    · exact (append_eq_nil_iff.1 hnone).1
    · obtain ⟨ms, hms⟩ | ⟨error, herror, -⟩ := handleLines_spec _ r
      · rwa [handleLines_of_tells hms] at hnone
      · exact (append_eq_nil_iff.1 (herror.symm.trans hnone)).1

lemma foldl_receive_of_tells (hbuffer : cut buffer = ([], buffer)) (hfits : Fits buffer chunks) {more : List JsonObject}
    (h : Tells parse (cut (buffer ++ chunks.flatMap toText)).1 more) :
    chunks.foldl (receive parse) ⟨buffer, ms, []⟩ =
      ⟨(cut (buffer ++ chunks.flatMap toText)).2, ms ++ more, []⟩ := by
  induction chunks generalizing buffer ms more with
  | nil =>
    rw [flatMap_nil, append_nil, hbuffer] at h ⊢
    cases h
    rw [append_nil]
    rfl
  | cons chunk chunks ih =>
    rw [flatMap_cons, ← append_assoc, cut_append] at h ⊢
    obtain ⟨ms₁, ms₂, rfl, h₁, h₂⟩ := h.of_append
    have hstep : receive parse ⟨buffer, ms, []⟩ chunk = ⟨(cut (buffer ++ toText chunk)).2, ms ++ ms₁, []⟩ := by
      rw [receive, if_neg (Nat.not_lt.2 hfits.1), handleLines_of_tells h₁]
    rw [foldl_cons, hstep, ih (cut_rest _) hfits.2 h₂, append_assoc]

lemma tells_of_foldl_receive (hbuffer : cut buffer = ([], buffer))
    (h : (chunks.foldl (receive parse) ⟨buffer, ms, []⟩).errors = []) :
    Fits buffer chunks ∧ ∃ more, Tells parse (cut (buffer ++ chunks.flatMap toText)).1 more := by
  induction chunks generalizing buffer ms with
  | nil =>
    rw [flatMap_nil, append_nil, hbuffer]
    exact ⟨trivial, [], .nil⟩
  | cons chunk chunks ih =>
    rw [foldl_cons] at h
    have hnone := errors_foldl h
    rw [receive] at h hnone
    split_ifs at h hnone with hlong
    · cases hnone
    · obtain ⟨ms₁, h₁⟩ | ⟨error, herror, -⟩ := handleLines_spec _ _
      · rw [handleLines_of_tells h₁] at h
        obtain ⟨hfits, more, hmore⟩ := ih (cut_rest _) h
        rw [flatMap_cons, ← append_assoc, cut_append]
        exact ⟨⟨Nat.le_of_not_lt hlong, hfits⟩, ms₁ ++ more, h₁.append hmore⟩
      · exact absurd (herror.symm.trans hnone) (cons_ne_nil _ _)

end

/-! ## What is sent is what is read -/

variable {messages : List Message} {chunks : List Bytes}

/-- The chunks, each decoded by itself, make up the text that was sent: no character is split. -/
def Whole (digits : JsNumber → Utf16) (messages : List Message) (chunks : List Bytes) : Prop :=
  chunks.flatMap toText = sent digits messages

/-- Every message is delivered, in order and as it was sent, without a protocol error; and whatever comes,
what is kept between two chunks is within the limit. -/
def Delivers (digits : JsNumber → Utf16) (messages : List Message) (chunks : List Bytes) : Prop :=
  (∀ parse, ReadsBack digits parse → (chunks.foldl (receive parse) {}).delivered = messages.map Subtype.val ∧
    (chunks.foldl (receive parse) {}).errors = []) ∧
  ∀ (parse : Parse) (stream : List Bytes), (stream.foldl (receive parse) {}).buffer.length ≤ MAX_MESSAGE_LENGTH

variable {digits : JsNumber → Utf16}

lemma trim_lineOf (message : Message) : trim (lineOf digits message) ≠ [] := by
  intro htrim
  rw [lineOf, ← append_nil (stringify _ _), stringify_object, trim, dropWhile_cons_of_neg (by decide),
    rdropWhile_eq_nil_iff] at htrim
  exact absurd (htrim _ mem_cons_self) (by decide)

lemma tells_sent {parse : Parse} (hparse : ReadsBack digits parse) (messages : List Message) :
    Tells parse (messages.map (lineOf digits)) (messages.map Subtype.val) := by
  induction messages with
  | nil => exact .nil
  | cons m messages ih => exact .message (trim_lineOf m) (hparse m) ih

lemma length_foldl_receive {parse : Parse} {r : Reader} (h : r.buffer.length ≤ MAX_MESSAGE_LENGTH)
    (stream : List Bytes) : (stream.foldl (receive parse) r).buffer.length ≤ MAX_MESSAGE_LENGTH := by
  induction stream generalizing r with
  | nil => exact h
  | cons chunk stream ih => exact ih (length_receive chunk)

open Classical in
/-- A parser that reads nothing but the lines of messages. -/
noncomputable def strictParse (digits : JsNumber → Utf16) : Parse := fun line =>
  if h : ∃ message : Message, lineOf digits message = line then some (.object h.choose.val) else none

lemma lines_of_tells {lines : List Utf16} {ms : List JsonObject} (h : Tells (strictParse digits) lines ms)
    (hms : ms = messages.map Subtype.val) :
    lines.filter (fun line => trim line ≠ []) = messages.map (lineOf digits) := by
  induction h generalizing messages with
  | nil =>
    rw [map_eq_nil_iff.1 hms.symm]
    rfl
  | blank hblank _ ih =>
    rw [filter_cons_of_neg (by simpa using hblank)]
    exact ih hms
  | @message line lines m ms hblank hparse _ ih =>
    cases messages with
    | nil => cases hms
    | cons message messages =>
      obtain ⟨hm, hms⟩ := List.cons.inj hms
      rw [strictParse] at hparse
      split_ifs at hparse with hthere
      have hval : hthere.choose.val = message.val := by
        rw [← hm]
        exact Json.object.inj (Option.some.inj hparse)
      rw [filter_cons_of_pos (by simpa using hblank), ih hms, map_cons, ← hthere.choose_spec,
        Subtype.ext hval]

lemma count_flatMap_toText (chunks : List Bytes) :
    (chunks.flatMap toText).count NEWLINE = chunks.flatten.count 0x0A := by
  induction chunks with
  | nil => rfl
  | cons chunk chunks ih =>
    rw [flatMap_cons, count_append, count_toText, ih, flatten_cons, count_append]

section

variable (hdigits : Spelling digits)

include hdigits

lemma oneLine_lineOf (message : Message) : OneLine (lineOf digits message) :=
  oneLine_stringify hdigits _

lemma lineOf_inj {m m' : Message} (h : lineOf digits m = lineOf digits m') :
    m.val = m'.val := by
  have hsame := stringify_inj hdigits h
  rw [m.property, m'.property] at hsame
  exact Json.object.inj hsame

lemma cut_sent :
    cut (sent digits messages) = (messages.map (lineOf digits), []) := by
  induction messages with
  | nil => rfl
  | cons m messages ih =>
    rw [sent, flatMap_cons, append_assoc, singleton_append,
      cut_line (oneLine_lineOf hdigits m).newline, ← sent, ih, map_cons]

lemma delivers_of_whole (hwhole : Whole digits messages chunks)
    (hfits : Fits [] chunks) : Delivers digits messages chunks := by
  refine ⟨fun parse hparse => ?_, fun parse stream => length_foldl_receive (Nat.zero_le _) stream⟩
  have hcut : cut (sent digits messages) = _ := cut_sent hdigits
  rw [← hwhole] at hcut
  have htells : Tells parse (cut ([] ++ chunks.flatMap toText)).1 (messages.map Subtype.val) := by
    rw [nil_append, hcut]
    exact tells_sent hparse messages
  have hrun : chunks.foldl (receive parse) ⟨[], [], []⟩ = _ := foldl_receive_of_tells rfl hfits htells
  exact ⟨by rw [hrun]; rfl, by rw [hrun]⟩

lemma readsBack_strictParse : ReadsBack digits (strictParse digits) := by
  intro message
  have hthere : ∃ m : Message, lineOf digits m = lineOf digits message := ⟨message, rfl⟩
  rw [strictParse, dif_pos hthere, lineOf_inj hdigits hthere.choose_spec]

lemma wellFormed_sent (messages : List Message) :
    wellFormed (sent digits messages) = true := by
  induction messages with
  | nil => rfl
  | cons m messages ih =>
    rw [sent, flatMap_cons]
    exact wellFormed_append (wellFormed_append (oneLine_lineOf hdigits m).paired rfl) ih

lemma length_lines (hsplit : chunks.flatten = utf8 (sent digits messages)) :
    (cut (chunks.flatMap toText)).1.length = messages.length := by
  rw [length_cut, count_flatMap_toText, hsplit, ← count_toText, toText_utf8 (wellFormed_sent hdigits messages),
    ← length_cut, cut_sent hdigits, length_map]

section

variable (hnonempty : [] ∉ chunks) (hsplit : chunks.flatten = utf8 (sent digits messages))
include hnonempty hsplit

lemma rest_eq_nil : (cut (chunks.flatMap toText)).2 = [] := by
  obtain rfl | ⟨init, last, rfl⟩ := eq_nil_or_concat' chunks
  · rfl
  obtain rfl | ⟨bytes, b, rfl⟩ := eq_nil_or_concat' last
  · exact absurd (mem_append_right _ mem_cons_self) hnonempty
  obtain rfl | ⟨before, m, rfl⟩ := eq_nil_or_concat' messages
  · have hnil : (init ++ [bytes ++ [b]]).flatten = [] := hsplit
    simp at hnil
  · have hends : sent digits (before ++ [m]) = (sent digits before ++ lineOf digits m) ++ [NEWLINE] := by
      simp [sent]
    have hbytes : utf8 (sent digits (before ++ [m])) = utf8 (sent digits before ++ lineOf digits m) ++ [0x0A] := by
      rw [hends, utf8, codePoints_append (wellFormed_append (wellFormed_sent hdigits before)
        (oneLine_lineOf hdigits m).paired), flatMap_append]
      rfl
    have hb : b = 0x0A := by
      have hlast := congrArg List.getLast? (hsplit.trans hbytes)
      simpa using hlast
    obtain ⟨text, htext⟩ := toText_concat bytes
    rw [flatMap_append, flatMap_singleton, hb, htext, ← append_assoc, cut_concat]

lemma whole_of_delivers (h : Delivers digits messages chunks) :
    Whole digits messages chunks ∧ Fits [] chunks := by
  obtain ⟨hdelivered, herrors⟩ := h.1 _ (readsBack_strictParse hdigits)
  have hnone : (chunks.foldl (receive (strictParse digits)) ⟨[], [], []⟩).errors = [] := herrors
  obtain ⟨hfits, more, htells⟩ := tells_of_foldl_receive rfl hnone
  have hrun : chunks.foldl (receive (strictParse digits)) ⟨[], [], []⟩ = _ :=
    foldl_receive_of_tells rfl hfits htells
  have hmore : more = messages.map Subtype.val := by
    rw [← hdelivered]
    exact (congrArg Reader.delivered hrun).symm
  have hlines := lines_of_tells htells hmore
  rw [nil_append] at hlines
  -- as many lines have ended as messages were sent, so none of them is blank
  have hall : (cut (chunks.flatMap toText)).1 = messages.map (lineOf digits) := by
    rw [← hlines, eq_comm, filter_eq_self, ← length_filter_eq_length_iff, hlines, length_map,
      length_lines hdigits hsplit]
  refine ⟨?_, hfits⟩
  rw [Whole, ← joined_cut (chunks.flatMap toText), hall, rest_eq_nil hdigits hnonempty hsplit,
    ← joined_cut (sent digits messages), cut_sent hdigits]

end

end

/-- For every sequence of messages and every way to split the bytes they are sent as: the reader delivers
them exactly where no character is split and everything it looks at is within the limit. -/
theorem delivers_iff (hdigits : Spelling digits) (hnonempty : [] ∉ chunks)
    (hsplit : chunks.flatten = utf8 (sent digits messages)) :
    Delivers digits messages chunks ↔ Whole digits messages chunks ∧ Fits [] chunks :=
  ⟨whole_of_delivers hdigits hnonempty hsplit, fun h => delivers_of_whole hdigits h.1 h.2⟩

def emptyMessage : Message := ⟨[], rfl⟩

theorem delivers_iff_empty : Delivers plainPlatform.digits [emptyMessage] [[0x7B, 0x7D], [0x0A]] ↔
    Whole plainPlatform.digits [emptyMessage] [[0x7B, 0x7D], [0x0A]] ∧ Fits [] [[0x7B, 0x7D], [0x0A]] :=
  delivers_iff plainPlatform_spelling (by decide) (by decide +kernel)

/-- A key of one letter that takes two bytes. -/
def umlautMessage : Message := ⟨[([0xE4], .scalar .null)], rfl⟩

/-- The two bytes of the letter come in two chunks. -/
def umlautChunks : List Bytes :=
  [[0x7B, 0x22, 0xC3], [0xA4, 0x22, 0x3A, 0x6E, 0x75, 0x6C, 0x6C, 0x7D, 0x0A]]

theorem not_delivers_umlaut : ¬ ∀ (digits : JsNumber → Utf16) (messages : List Message) (chunks : List Bytes),
    Spelling digits → [] ∉ chunks → chunks.flatten = utf8 (sent digits messages) →
    (∀ m ∈ messages, (lineOf digits m).length < MAX_MESSAGE_LENGTH) → Delivers digits messages chunks := by
  intro h
  have hsplit : umlautChunks.flatten = utf8 (sent plainPlatform.digits [umlautMessage]) := by decide +kernel
  have hshort : ∀ m ∈ [umlautMessage], (lineOf plainPlatform.digits m).length < MAX_MESSAGE_LENGTH := by
    decide +kernel
  have hwhole := whole_of_delivers plainPlatform_spelling (by decide) hsplit
    (h _ _ _ plainPlatform_spelling (by decide) hsplit hshort)
  exact absurd hwhole.1 (by unfold Whole; decide +kernel)

end Zelavis.Agent.Framing
