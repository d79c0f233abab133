import Zelavis.Lib.Unicode

/-!
# The rules of a reverse proxy

A rule is a text: matchers of a request's host and path under `&&`, `||`, `!` and parentheses. A
matcher's value stands between backticks and is read as Go reads a raw string: it ends at the next
backtick, carriage returns are dropped, and neither `U+0000` nor `U+FEFF` may occur. No other
matcher, no other literal and no line break outside a value is read here.
-/

namespace Zelavis.Lib.MatchRules

open List Option

variable {value : Utf16}

/-! ## Tokens -/

def backtick : CodeUnit := 0x60

def carriageReturn : CodeUnit := 0x0D

def slash : CodeUnit := 0x2F

def isRefused (c : CodeUnit) : Bool := c = 0 || c = 0xFEFF

def isLetter (c : CodeUnit) : Bool := 0x41 ≤ c && c ≤ 0x5A || 0x61 ≤ c && c ≤ 0x7A

/-- A token of a rule. -/
inductive Token where
  | name (word : Utf16)
  | text (value : Utf16)
  | opens
  | closes
  /-- `&&`. -/
  | both
  /-- `||`. -/
  | either
  /-- `!`. -/
  | negates
  deriving DecidableEq

/-- Where the reading of a text is. -/
inductive Reading where
  | between
  | word (units : Utf16)
  | text (units : Utf16)
  /-- After the first `&`. -/
  | ampersand
  /-- After the first `|`. -/
  | bar
  deriving DecidableEq

/-- A unit between two tokens: the token it makes, and where the reading is after it. -/
def start (c : CodeUnit) : Option (List Token × Reading) :=
  if c = backtick then some ([], .text [])
  else if isLetter c then some ([], .word [c])
  else if c = 0x20 || c = 0x09 then some ([], .between)
  else if c = 0x28 then some ([.opens], .between)
  else if c = 0x29 then some ([.closes], .between)
  else if c = 0x21 then some ([.negates], .between)
  else if c = 0x26 then some ([], .ampersand)
  else if c = 0x7C then some ([], .bar)
  else none

def next : Reading → CodeUnit → Option (List Token × Reading)
  | .between, c => start c
  | .word units, c =>
    if isLetter c then some ([], .word (units ++ [c]))
    else (start c).map fun begun => (.name units :: begun.1, begun.2)
  | .text units, c =>
    if c = backtick then some ([.text units], .between)
    else if isRefused c then none
    else if c = carriageReturn then some ([], .text units)
    else some ([], .text (units ++ [c]))
  | .ampersand, c => if c = 0x26 then some ([.both], .between) else none
  | .bar, c => if c = 0x7C then some ([.either], .between) else none

def scan : Reading → Utf16 → Option (List Token × Reading)
  | r, [] => some ([], r)
  | r, c :: s => (next r c).bind fun first =>
    (scan first.2 s).map fun later => (first.1 ++ later.1, later.2)

def finish : Reading → Option (List Token)
  | .between => some []
  | .word units => some [.name units]
  | _ => none

def tokens (s : Utf16) : Option (List Token) :=
  (scan .between s).bind fun read => (finish read.2).map fun last => read.1 ++ last

/-! ## Rules -/

/-- A rule. -/
inductive Rule where
  | host (value : Utf16)
  | path (value : Utf16)
  | pathPrefix (value : Utf16)
  | both (a b : Rule)
  | either (a b : Rule)
  | negation (a : Rule)
  deriving DecidableEq

def Rule.accepts (host path : Utf16) : Rule → Bool
  | .host value => host = value
  | .path value => path = value
  | .pathPrefix value => value.isPrefixOf path
  | .both a b => a.accepts host path && b.accepts host path
  | .either a b => a.accepts host path || b.accepts host path
  | .negation a => !a.accepts host path

def matcher (word value : Utf16) : Option Rule :=
  if word = utf16 "Host" then some (.host value)
  else if value.head? ≠ some slash then none
  else if word = utf16 "Path" then some (.path value)
  else if word = utf16 "PathPrefix" then some (.pathPrefix value)
  else none

/-- How tightly what is read binds. -/
inductive Level where
  | either
  /-- No `||` outside parentheses. -/
  | both
  /-- No `&&` either. -/
  | one
  deriving DecidableEq

def closed : Rule × List Token → Option (Rule × List Token)
  | (rule, .closes :: rest) => some (rule, rest)
  | _ => none

def joined (mark : Token) (join : Rule → Rule → Rule)
    (more : List Token → Option (Rule × List Token)) :
    Rule × List Token → Option (Rule × List Token)
  | (rule, []) => some (rule, [])
  | (rule, token :: rest) =>
    if token = mark then (more rest).map fun later => (join rule later.1, later.2)
    else some (rule, token :: rest)

def parse : ℕ → Level → List Token → Option (Rule × List Token)
  | 0, _, _ => none
  | n + 1, .either, ts =>
    (parse n .both ts).bind (joined .either .either fun rest => parse n .either rest)
  | n + 1, .both, ts => (parse n .one ts).bind (joined .both .both fun rest => parse n .both rest)
  | n + 1, .one, .negates :: rest =>
    (parse n .one rest).map fun read => (.negation read.1, read.2)
  | n + 1, .one, .opens :: rest => (parse n .either rest).bind closed
  | _ + 1, .one, .name word :: .opens :: .text value :: .closes :: rest =>
    (matcher word value).map fun rule => (rule, rest)
  | _ + 1, .one, _ => none

def whole : Rule × List Token → Option Rule
  | (rule, []) => some rule
  | _ => none

def read (s : Utf16) : Option Rule :=
  (tokens s).bind fun ts => (parse (3 * ts.length + 3) .either ts).bind whole

/-- Whether a text accepts a request; one that cannot be read accepts none. -/
def accepts (s host path : Utf16) : Bool := (read s).any (Rule.accepts host path)

/-! ## What a value stands for -/

def valueOf (s : Utf16) : Utf16 := s.filter (· ≠ carriageReturn)

lemma scan_append (r : Reading) (s t : Utf16) : scan r (s ++ t) = (scan r s).bind fun first =>
      (scan first.2 t).map fun later => (first.1 ++ later.1, later.2) := by
  induction s generalizing r with
  | nil =>
    rw [nil_append, scan, bind_some]
    cases scan r t <;> rfl
  | cons c s ih =>
    rw [cons_append, scan, scan]
    cases next r c with
    | none => rfl
    | some first =>
      simp only [bind_some]
      rw [ih]
      cases scan first.2 s with
      | none => rfl
      | some middle => simp [Function.comp_def]

variable {units value : Utf16}

lemma scan_value (hbacktick : backtick ∉ value) (hrefused : ∀ c ∈ value, isRefused c = false) :
    scan (.text units) (value ++ [backtick]) = some ([.text (units ++ valueOf value)], .between) := by
  induction value generalizing units with
  | nil => simp [scan, next, valueOf]
  | cons c value ih =>
    rw [mem_cons, not_or] at hbacktick
    have hrest : ∀ units, scan (.text units) (value ++ [backtick]) =
        some ([.text (units ++ valueOf value)], .between) := fun units =>
      ih hbacktick.2 fun d hd => hrefused d (mem_cons_of_mem _ hd)
    rw [cons_append, scan, next, if_neg (Ne.symm hbacktick.1),
      if_neg (by rw [hrefused c mem_cons_self]; decide)]
    by_cases hc : c = carriageReturn
    · rw [if_pos hc, bind_some, hrest]
      simp [valueOf, hc]
    · rw [if_neg hc, bind_some, hrest]
      simp [valueOf, hc]

lemma scan_refused (hbacktick : backtick ∉ value)
    (hrefused : ∃ c ∈ value, isRefused c = true) (rest : Utf16) :
    scan (.text units) (value ++ rest) = none := by
  induction value generalizing units with
  | nil =>
    obtain ⟨c, hc, -⟩ := hrefused
    exact absurd hc not_mem_nil
  | cons c value ih =>
    rw [mem_cons, not_or] at hbacktick
    rw [cons_append, scan, next, if_neg (Ne.symm hbacktick.1)]
    by_cases hc : isRefused c = true
    · rw [if_pos hc, bind_none]
    · have hrest : ∃ d ∈ value, isRefused d = true := by
        obtain ⟨d, hd, hrefused⟩ := hrefused
        rcases mem_cons.mp hd with rfl | hd
        · exact absurd hrefused hc
        · exact ⟨d, hd, hrefused⟩
      split_ifs <;> rw [bind_some, ih hbacktick.2 hrest, map_none]

lemma scan_value_append (hbacktick : backtick ∉ value)
    (hrefused : ∀ c ∈ value, isRefused c = false) (rest : Utf16) :
    scan (.text units) (value ++ backtick :: rest) = (scan .between rest).map fun later =>
      (.text (units ++ valueOf value) :: later.1, later.2) := by
  rw [← singleton_append, ← append_assoc, scan_append, scan_value hbacktick hrefused]
  rfl

variable {s : Utf16}

lemma length_valueOf_lt (h : carriageReturn ∈ s) : (valueOf s).length < s.length := by
  apply lt_of_le_of_ne (length_filter_le _ _)
  intro heq
  have := length_filter_eq_length_iff.mp heq carriageReturn h
  simp at this

lemma valueOf_eq_self (h : carriageReturn ∉ s) : valueOf s = s := by
  rw [valueOf, filter_eq_self]
  intro c hc
  rw [decide_eq_true_iff]
  rintro rfl
  exact h hc

/-! ## The rule of one matcher, or of two -/

lemma matcher_host (value : Utf16) : matcher (utf16 "Host") value = some (.host value) := by
  rw [matcher, if_pos rfl]

lemma matcher_path (h : value.head? = some slash) :
    matcher (utf16 "Path") value = some (.path value) := by
  rw [matcher, if_neg (by decide), if_neg (not_not_intro h), if_pos rfl]

lemma matcher_pathPrefix (h : value.head? = some slash) :
    matcher (utf16 "PathPrefix") value = some (.pathPrefix value) := by
  rw [matcher, if_neg (by decide), if_neg (not_not_intro h), if_neg (by decide), if_pos rfl]

variable {rule : Rule}

lemma read_one {s word : Utf16} (hs : tokens s = some [.name word, .opens, .text value, .closes])
    (hrule : matcher word value = some rule) : read s = some rule := by
  rw [read, hs, bind_some]
  simp [parse, joined, whole, hrule]

lemma read_both {s word word' value' : Utf16} {rule rule' : Rule}
    (hs : tokens s = some [.name word, .opens, .text value, .closes, .both,
      .name word', .opens, .text value', .closes])
    (hrule : matcher word value = some rule) (hrule' : matcher word' value' = some rule') :
    read s = some (.both rule rule') := by
  rw [read, hs, bind_some]
  simp [parse, joined, whole, hrule, hrule']

/-! ## What no rule can see -/

def Rule.paths : Rule → List Utf16
  | .host _ => []
  | .path value => [value]
  | .pathPrefix value => [value]
  | .both a b => a.paths ++ b.paths
  | .either a b => a.paths ++ b.paths
  | .negation a => a.paths

def Clean (ts : List Token) : Prop := ∀ value, .text value ∈ ts → backtick ∉ value

lemma clean_append {ts us : List Token} : Clean (ts ++ us) ↔ Clean ts ∧ Clean us := by
  constructor
  · intro h
    exact ⟨fun v hv => h v (mem_append_left _ hv), fun v hv => h v (mem_append_right _ hv)⟩
  · rintro ⟨hts, hus⟩ v hv
    rcases mem_append.mp hv with hv | hv
    · exact hts v hv
    · exact hus v hv

def Reading.Clean : Reading → Prop
  | .text units => backtick ∉ units
  | _ => True

variable {first : List Token × Reading} {c : CodeUnit}

lemma clean_start (h : start c = some first) : Clean first.1 ∧ first.2.Clean := by
  unfold start at h
  split_ifs at h <;> obtain rfl := some.inj h <;> simp [Clean, Reading.Clean]

variable {r : Reading}

lemma clean_next (hr : r.Clean) (h : next r c = some first) : Clean first.1 ∧ first.2.Clean := by
  cases r with
  | between => exact clean_start h
  | word units =>
    rw [next] at h
    split_ifs at h
    · obtain rfl := some.inj h
      simp [Clean, Reading.Clean]
    · obtain ⟨begun, hbegun, rfl⟩ := map_eq_some_iff.mp h
      have hstart := clean_start hbegun
      refine ⟨fun v hv => ?_, hstart.2⟩
      apply hstart.1 v
      simpa using hv
  | text units =>
    rw [next] at h
    split_ifs at h with hc
    · obtain rfl := some.inj h
      refine ⟨fun v hv => ?_, trivial⟩
      have hv : v = units := by simpa using hv
      exact hv ▸ hr
    · obtain rfl := some.inj h
      exact ⟨by simp [Clean], hr⟩
    · obtain rfl := some.inj h
      refine ⟨by simp [Clean], ?_⟩
      intro hmem
      rcases mem_append.mp hmem with hmem | hmem
      · exact hr hmem
      · exact hc (mem_singleton.mp hmem).symm
  | ampersand | bar =>
    rw [next] at h
    split_ifs at h
    obtain rfl := some.inj h
    simp [Clean, Reading.Clean]

lemma clean_scan {read : List Token × Reading} (hr : r.Clean)
    (h : scan r s = some read) : Clean read.1 ∧ read.2.Clean := by
  induction s generalizing r read with
  | nil =>
    obtain rfl := some.inj h
    exact ⟨by simp [Clean], hr⟩
  | cons c s ih =>
    obtain ⟨first, hfirst, h⟩ := bind_eq_some_iff.mp h
    obtain ⟨later, hlater, rfl⟩ := map_eq_some_iff.mp h
    have hnext := clean_next hr hfirst
    have hrest := ih hnext.2 hlater
    exact ⟨clean_append.mpr ⟨hnext.1, hrest.1⟩, hrest.2⟩

variable {ts : List Token}

lemma clean_tokens (h : tokens s = some ts) : Clean ts := by
  obtain ⟨read, hread, h⟩ := bind_eq_some_iff.mp h
  obtain ⟨last, hlast, rfl⟩ := map_eq_some_iff.mp h
  have hscan := clean_scan (r := .between) trivial hread
  refine clean_append.mpr ⟨hscan.1, ?_⟩
  rcases hr : read.2 with _ | units | units | _ | _ <;> rw [hr] at hlast <;>
    simp only [finish, Option.some.injEq, reduceCtorEq] at hlast <;> subst hlast <;> simp [Clean]

def Rule.Clean (rule : Rule) : Prop := ∀ value ∈ rule.paths, backtick ∉ value

def CleanRead (read : Rule × List Token) : Prop := read.1.Clean ∧ MatchRules.Clean read.2

variable {read last : Rule × List Token}

lemma clean_closed (hread : CleanRead read) (h : closed read = some last) : CleanRead last := by
  obtain ⟨rule, rest⟩ := read
  cases rest with
  | nil => simp [closed] at h
  | cons token rest =>
    cases token with
    | closes =>
      obtain rfl := some.inj h
      exact ⟨hread.1, fun v hv => hread.2 v (mem_cons_of_mem _ hv)⟩
    | _ => simp [closed] at h

lemma clean_joined {mark : Token} {join : Rule → Rule → Rule}
    {more : List Token → Option (Rule × List Token)} (hjoin : ∀ a b, (join a b).paths = a.paths ++ b.paths)
    (hmore : ∀ {ts later}, Clean ts → more ts = some later → CleanRead later)
    (hread : CleanRead read) (h : joined mark join more read = some last) : CleanRead last := by
  obtain ⟨rule, rest⟩ := read
  cases rest with
  | nil =>
    obtain rfl := some.inj h
    exact hread
  | cons token rest =>
    have hrest : Clean rest := fun v hv => hread.2 v (mem_cons_of_mem _ hv)
    rw [joined] at h
    split_ifs at h
    · obtain ⟨later, hlater, rfl⟩ := map_eq_some_iff.mp h
      have hclean := hmore hrest hlater
      refine ⟨fun v hv => ?_, hclean.2⟩
      rw [hjoin] at hv
      rcases mem_append.mp hv with hv | hv
      · exact hread.1 v hv
      · exact hclean.1 v hv
    · obtain rfl := some.inj h
      exact hread

lemma clean_matcher {word : Utf16} (hvalue : backtick ∉ value)
    (h : matcher word value = some rule) : rule.Clean := by
  unfold matcher at h
  split_ifs at h <;> obtain rfl := some.inj h <;> simp [Rule.Clean, Rule.paths, hvalue]

lemma clean_parse {n : ℕ} {level : Level} {read : Rule × List Token}
    (hts : Clean ts) (h : parse n level ts = some read) : CleanRead read := by
  induction n, level, ts using parse.induct generalizing read with
  | case1 => simp [parse] at h
  | case2 _ _ hone hmore | case3 _ _ hone hmore =>
    obtain ⟨first, hfirst, h⟩ := bind_eq_some_iff.mp h
    exact clean_joined (fun _ _ => rfl) (fun hts hlater => hmore _ hts hlater) (hone hts hfirst) h
  | case4 n rest ih =>
    obtain ⟨inner, hinner, rfl⟩ := map_eq_some_iff.mp h
    have hclean := ih (fun v hv => hts v (mem_cons_of_mem _ hv)) hinner
    exact ⟨hclean.1, hclean.2⟩
  | case5 n rest ih =>
    obtain ⟨inner, hinner, h⟩ := bind_eq_some_iff.mp h
    exact clean_closed (ih (fun v hv => hts v (mem_cons_of_mem _ hv)) hinner) h
  | case6 n word value rest =>
    obtain ⟨rule, hrule, rfl⟩ := map_eq_some_iff.mp h
    exact ⟨clean_matcher (hts value (by simp)) hrule, fun v hv => hts v (by simp [hv])⟩
  | case7 n ts hnegates hopens hname =>
    rw [parse] at h
    · simp at h
    · exact hnegates
    · exact hopens
    · exact hname

lemma prefix_past_backtick {u w : Utf16} (h : backtick ∉ value) :
    value <+: u ++ backtick :: w ↔ value <+: u := by
  constructor
  · intro hprefix
    by_contra hnot
    have hlt : u.length < value.length := by
      by_contra hle
      exact hnot (prefix_of_prefix_length_le hprefix (prefix_append _ _) (not_lt.mp hle))
    have hpre : u ++ [backtick] <+: value := by
      apply prefix_of_prefix_length_le _ hprefix
      · rw [length_append]
        exact hlt
      · exact ⟨w, by simp⟩
    exact h (hpre.subset (by simp))
  · intro hprefix
    exact hprefix.trans (prefix_append _ _)

lemma Rule.accepts_past_backtick (h : rule.Clean) (host u w w' : Utf16) :
    rule.accepts host (u ++ backtick :: w) = rule.accepts host (u ++ backtick :: w') := by
  induction rule with
  | host value => rfl
  | path value =>
    have hvalue := h value (by simp [Rule.paths])
    have hne : ∀ w, u ++ backtick :: w ≠ value := by
      rintro w rfl
      simp at hvalue
    simp [Rule.accepts, hne]
  | pathPrefix value =>
    have hvalue := h value (by simp [Rule.paths])
    rw [Rule.accepts, Rule.accepts, Bool.eq_iff_iff, List.isPrefixOf_iff_prefix,
      List.isPrefixOf_iff_prefix, prefix_past_backtick hvalue, prefix_past_backtick hvalue]
  | both _ _ iha ihb | either _ _ iha ihb =>
    rw [Rule.accepts, Rule.accepts, iha fun v hv => h v (mem_append_left _ hv),
      ihb fun v hv => h v (mem_append_right _ hv)]
  | negation a iha => rw [Rule.accepts, Rule.accepts, iha h]

lemma accepts_past_backtick (s host u w w' : Utf16) :
    accepts s host (u ++ backtick :: w) = accepts s host (u ++ backtick :: w') := by
  unfold accepts
  rcases hread : read s with _ | rule
  · rfl
  · obtain ⟨ts, hts, h⟩ := bind_eq_some_iff.mp hread
    obtain ⟨last, hlast, h⟩ := bind_eq_some_iff.mp h
    have hclean := clean_parse (clean_tokens hts) hlast
    obtain ⟨parsed, rest⟩ := last
    cases rest with
    | nil =>
      obtain rfl := some.inj h
      exact Rule.accepts_past_backtick hclean.1 host u w w'
    | cons token rest => simp [whole] at h

end Zelavis.Lib.MatchRules
