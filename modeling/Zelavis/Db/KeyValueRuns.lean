import Zelavis.Db.KeyValueCalls

/-!
# Runs of a namespace
-/

namespace Zelavis.Db

open Lib

/-- Calls one after the other: the store they leave, and what each answers. -/
def runCalls (host : Host) (t : TenantId) (D : Dates) (name : Utf16) :
    List (Moments × KeyValueCall) → Objects Record →
    Objects Record × List (Except KeyValueError KeyValueAnswer)
  | [], o => (o, [])
  | c :: calls, o =>
    let done := c.2.run host t D name c.1 o
    let rest := runCalls host t D name calls done.1
    (rest.1, done.2 :: rest.2)

def KeyValueMap.runCalls (rules : KeyValueRules) (D : Dates) (name : Utf16) :
    List (Moments × KeyValueCall) → KeyValueMap →
    KeyValueMap × List (Except KeyValueError KeyValueAnswer)
  | [], m => (m, [])
  | c :: calls, m =>
    let done := m.run rules D name c.1 c.2
    let rest := KeyValueMap.runCalls rules D name calls done.1
    (rest.1, done.2 :: rest.2)

def Chronological : ℤ → List (Moments × KeyValueCall) → Prop
  | _, [] => True
  | τ, c :: calls => c.1.From τ ∧ Chronological c.1.last calls

def lastMoment : ℤ → List (Moments × KeyValueCall) → ℤ
  | τ, [] => τ
  | _, c :: calls => lastMoment c.1.last calls

/-- A run whose calls are steady, each at the store the ones before it leave. -/
def SteadyRun (host : Host) (t : TenantId) (D : Dates) (name : Utf16) :
    List (Moments × KeyValueCall) → Objects Record → Prop
  | [], _ => True
  | c :: calls, o => c.2.Steady t D name c.1.now o ∧
      SteadyRun host t D name calls (c.2.run host t D name c.1 o).1

/-! ## Names that are read as they were written -/

variable {s : Utf16}

lemma ascii_of_all (h : (s.all fun u => decide (u.val < 0x80)) = true) :
    ∀ u ∈ s, u.val < 0x80 := fun u hu => of_decide_eq_true (List.all_eq_true.1 h u hu)

lemma plain_of_ascii (h : ∀ u ∈ s, u.val < 0x80) : Plain s := by
  constructor
  · intro hmem
    rw [codePoints_eq_map fun u hu => isSurrogate_of_lt (h u hu)] at hmem
    obtain ⟨u, hu, heq⟩ := List.mem_map.1 hmem
    have hlt := h u hu
    have hval : u.val % 0x110000 = 0xFFFD := congrArg Fin.val heq
    omega
  · intro hhead
    exact absurd (h _ (List.mem_of_head? hhead)) (by decide)

lemma ascii_of_isName {name : Utf16} (h : isName name = true) : ∀ u ∈ name, u.val < 0x80 := by
  have hpart : ∀ u : CodeUnit, isNamePart u = true → u.val < 0x80 := by
    intro u hu
    unfold isNamePart isNameStart at hu
    simp only [Bool.or_eq_true, Bool.and_eq_true, decide_eq_true_eq] at hu
    omega
  cases name with
  | nil => cases h
  | cons u rest =>
    unfold isName at h
    rw [Bool.and_eq_true] at h
    intro w hw
    rcases List.mem_cons.1 hw with rfl | hw
    · refine hpart w ?_
      unfold isNamePart
      rw [h.1]
      rfl
    · exact hpart w (List.all_eq_true.1 h.2 w hw)

lemma plain_documentNs {t : TenantId} {name : Utf16} (hascii : ∀ u ∈ t, u.val < 0x80)
    (hname : isName name = true) : Plain (documentNs t name) := by
  refine plain_of_ascii fun u hu => ?_
  unfold documentNs at hu
  simp only [List.append_assoc, List.mem_append] at hu
  rcases hu with hu | hu | hu | hu
  · exact ascii_of_all (by decide) u hu
  · exact hascii u hu
  · exact ascii_of_all (by decide) u hu
  · exact ascii_of_isName hname u hu

/-! ## Every run -/

section

variable {host : Host} {t : TenantId} {o : Objects Record} {name : Utf16}
  {record : StoredCollection} {D : Dates} {m : KeyValueMap}

lemma runCalls_does (ht : TenantOk t) (hname : isName name = true) (hr : Standalone record)
    (hns : Plain (documentNs t name)) {τ : ℤ} {calls : List (Moments × KeyValueCall)}
    (hchronological : Chronological τ calls) (hserves : Serves t name record o)
    (hs : Shows D name (fun _ => τ) (findById t o name) m) (hsteady : SteadyRun host t D name calls o) :
    (runCalls host t D name calls o).2 = (m.runCalls (rulesOf host t name record) D name calls).2 ∧
      Serves t name record (runCalls host t D name calls o).1 ∧
      Shows D name (fun _ => lastMoment τ calls) (findById t (runCalls host t D name calls o).1 name)
        (m.runCalls (rulesOf host t name record) D name calls).1 := by
  induction calls generalizing τ o m with
  | nil => exact ⟨rfl, hserves, hs⟩
  | cons c calls ih =>
    obtain ⟨hmoments, hchronological⟩ := hchronological
    obtain ⟨hsteady, hrest⟩ := hsteady
    obtain ⟨hanswer, hserves', hshows⟩ :=
      KeyValueCall.run_does host ht hname hr hns hmoments hserves hs hsteady
    obtain ⟨hanswers, hserves'', hshows'⟩ := ih hchronological hserves' hshows hrest
    refine ⟨?_, hserves'', hshows'⟩
    rw [Db.runCalls, KeyValueMap.runCalls, hanswer, hanswers]

/-- A run whose changes meet nothing expired answers, call by call, what a map with expiry does; and a
scan that is followed page by page from where the run ends reads the entries of the map in the order
asked for, each once: none that was expired whenever the scan came to it, and every one that never
was. -/
theorem runCalls_answers (host : Host) (t : TenantId) (D : Dates) (name : Utf16)
    (record : StoredCollection) (o : Objects Record) (τ : ℤ)
    (calls : List (Moments × KeyValueCall)) (ht : TenantOk t) (hascii : ∀ u ∈ t, u.val < 0x80)
    (hname : isName name = true) (hserves : Serves t name record o) (hr : Standalone record)
    (hplain : LegibleKeys t name o) (hchronological : Chronological τ calls)
    (hsteady : SteadyRun host t D name calls o) : (runCalls host t D name calls o).2 =
        ((mapOf t name o).runCalls (rulesOf host t name record) D name calls).2 ∧
      ∀ (options : KeyValueScanOptions) (limit : ℕ) (pages : List (Utf16 → ℤ)),
        pageLimit options.limit = .ok limit →
        List.IsChain (fun v v' => ∀ k, v k ≤ v' k) ((fun _ => lastMoment τ calls) :: pages) →
        (((mapOf t name o).runCalls (rulesOf host t name record) D name calls).1.entries.length <
            pages.length → (followPages host t D name options pages none
            (runCalls host t D name calls o).1).isSome = true) ∧
        ∀ all, followPages host t D name options pages none (runCalls host t D name calls o).1 = some all →
          all.Pairwise (fun a b => Precedes options.desc a.key b.key) ∧
          (∀ e ∈ all, ((mapOf t name o).runCalls (rulesOf host t name record) D name calls).1.get
                (utf8 e.key) = some e ∧ KeyValueMap.covers options e = true ∧
              ∃ visits ∈ pages, isExpired D (visits e.key) e.expiresAt = false) ∧
          ∀ e, ((mapOf t name o).runCalls (rulesOf host t name record) D name calls).1.get
                (utf8 e.key) = some e → KeyValueMap.covers options e = true →
            (∀ visits ∈ pages, isExpired D (visits e.key) e.expiresAt = false) → e ∈ all := by
  have hns := plain_documentNs hascii hname
  obtain ⟨hanswers, hserves', hshows⟩ := runCalls_does ht hname hr hns hchronological hserves
    (shows_mapOf hserves.kept ht hplain D fun _ => τ) hsteady
  refine ⟨hanswers, fun options limit pages hlimit hlater => ?_⟩
  have hnone : ∀ cursor ∈ (none : Option CursorPayload),
      sameScan cursor name options = true ∧ Legible cursor.key := fun cursor hc => by cases hc
  have hfollow := followPages_does host ht hname hr hns hlimit hnone hlater hserves' hshows
  rw [hfollow]
  exact ⟨KeyValueMap.pages_isSome hshows.keyed, fun all hall =>
    KeyValueMap.pages_sound hshows.keyed (pageLimit_pos hlimit) hall⟩

end

/-! ## An entry that is expired, and one set in its place -/

def epochDates : Dates where
  parse := fun text =>
    if text = utf16 "1970-01-01T00:00:00.000Z" then some 0
    else if text = utf16 "1970-01-01T00:00:00.001Z" then some 1
    else none
  iso := fun millis =>
    if millis = 0 then some (utf16 "1970-01-01T00:00:00.000Z")
    else if millis = 1 then some (utf16 "1970-01-01T00:00:00.001Z")
    else none

def instant (now : ℤ) : Moments := ⟨now, fun _ _ => now, now⟩

lemma instant_from {τ now : ℤ} (h : τ ≤ now) : (instant now).From τ :=
  ⟨h, fun _ => le_rfl, fun _ _ => le_rfl, fun _ _ => le_rfl⟩

def noteRecord : StoredCollection := { name := utf16 "a", createdAt := someMoment }

lemma noteRecord_standalone : Standalone noteRecord := ⟨by decide, rfl, rfl, rfl⟩

lemma empty_takes (i : ObjectIdentity) : Objects.empty.nextSeq.2.Takes (α := Record) 1 i :=
  ⟨fun _ h => absurd h (by simp [Objects.empty, Objects.nextSeq]),
    fun _ _ h => absurd h (by simp [Objects.empty, Objects.nextSeq])⟩

lemma noteStore_serves : Serves (utf16 "t") (utf16 "a") noteRecord noteStore where
  kept := by
    have hempty : Kept Objects.empty.nextSeq.2 :=
      ⟨Objects.empty_named, fun _ _ h => absurd h (by simp [Objects.empty, Objects.nextSeq]),
        fun _ _ h => absurd h (by simp [Objects.empty, Objects.nextSeq])⟩
    refine hempty.collectionPut (c := noteRecord) (empty_takes _) le_rfl (by decide) ⟨?_, ?_, ?_⟩
    · exact fun _ h => absurd h List.not_mem_nil
    · exact List.nodup_nil
    · exact fun _ h => absurd h List.not_mem_nil
  recorded := rfl
  still := rfl

lemma noteStore_legible : LegibleKeys (utf16 "t") (utf16 "a") noteStore := by
  intro id d hd
  obtain ⟨q, hdoc, -⟩ :=
    (findById_eq_some noteStore_serves.kept ⟨by decide, by decide⟩).1 hd
  have hnone : docAt (utf16 "t") noteStore q = none :=
    (sameDocuments_collectionPut (t := utf16 "t") (c := noteRecord) (empty_takes _)).docAt _ q
  rw [hnone] at hdoc
  cases hdoc

/-- Set a value that is expired at once, and a moment later another if there is none. -/
def setTwice : List (Moments × KeyValueCall) :=
  [(instant 0, .set (utf16 "k") [] none false { ttlMs := some (.ofNat 0) }),
    (instant 1, .set (utf16 "k") [] none true {})]

/-- The second value is refused, though the first is expired. -/
theorem not_runCalls_answers : ¬∀ (host : Host) (t : TenantId) (D : Dates) (name : Utf16)
    (record : StoredCollection) (o : Objects Record) (τ : ℤ) (calls : List (Moments × KeyValueCall)),
    TenantOk t → (∀ u ∈ t, u.val < 0x80) → isName name = true → Serves t name record o →
    Standalone record → LegibleKeys t name o → Chronological τ calls → (runCalls host t D name calls o).2 =
      ((mapOf t name o).runCalls (rulesOf host t name record) D name calls).2 := by
  intro hall
  have hchronological : Chronological 0 setTwice :=
    ⟨instant_from le_rfl, instant_from (by decide), trivial⟩
  have hanswers := hall plainHost (utf16 "t") epochDates (utf16 "a") noteRecord noteStore 0 setTwice
    ⟨by decide, by decide⟩ (ascii_of_all (by decide)) (by decide) noteStore_serves noteRecord_standalone
    noteStore_legible hchronological
  have hrefused : ((runCalls plainHost (utf16 "t") epochDates (utf16 "a") setTwice noteStore).2.map
      Except.isOk) = [true, false] := by decide +kernel
  have hset : (((mapOf (utf16 "t") (utf16 "a") noteStore).runCalls
      (rulesOf plainHost (utf16 "t") (utf16 "a") noteRecord) epochDates (utf16 "a") setTwice).2.map
      Except.isOk) = [true, true] := by decide +kernel
  rw [hanswers, hset] at hrefused
  cases hrefused

def setAgain : List (Moments × KeyValueCall) :=
  [(instant 0, .set (utf16 "k") [] none false { ttlMs := some (.ofNat 0) }),
    (instant 1, .get (utf16 "k")), (instant 1, .set (utf16 "k") [] none true {})]

theorem setAgain_answers : (runCalls plainHost (utf16 "t") epochDates (utf16 "a") setAgain noteStore).2 =
        ((mapOf (utf16 "t") (utf16 "a") noteStore).runCalls
          (rulesOf plainHost (utf16 "t") (utf16 "a") noteRecord) epochDates (utf16 "a") setAgain).2 ∧
      (followPages plainHost (utf16 "t") epochDates (utf16 "a") {} [fun _ => 1, fun _ => 1] none
        (runCalls plainHost (utf16 "t") epochDates (utf16 "a") setAgain noteStore).1).isSome = true := by
  have hk : Legible (utf16 "k") := ⟨by decide, by decide⟩
  have hsteady : SteadyRun plainHost (utf16 "t") epochDates (utf16 "a") setAgain noteStore :=
    ⟨⟨hk, by decide +kernel⟩, hk, ⟨hk, by decide +kernel⟩, trivial⟩
  obtain ⟨hanswers, hpages⟩ := runCalls_answers plainHost (utf16 "t") epochDates (utf16 "a")
    noteRecord noteStore 0 setAgain ⟨by decide, by decide⟩ (ascii_of_all (by decide)) (by decide)
    noteStore_serves noteRecord_standalone noteStore_legible
    ⟨instant_from le_rfl, instant_from (by decide), instant_from le_rfl, trivial⟩ hsteady
  refine ⟨hanswers, (hpages {} 100 [fun _ => 1, fun _ => 1] rfl ?_).1 (by decide +kernel)⟩
  exact .cons_cons (fun _ => le_rfl) (.cons_cons (fun _ => le_rfl) (.singleton _))

end Zelavis.Db
