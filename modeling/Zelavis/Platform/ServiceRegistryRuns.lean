import Zelavis.Platform.ServiceRegistry

/-!
# Registry mutations come one after another

Over every run of `Zelavis.Platform.ServiceRegistry`, with either store.
-/

namespace Zelavis.Platform.ServiceRegistry

open Lib Turns Edge Db List Option

/-! ## What a document keeps -/

def knownFields : List Utf16 := [utf16 "kind", utf16 "revision", utf16 "services"]

def trimmedFields : List Utf16 := [utf16 "name", utf16 "specifier"]

variable {entries : List JsonObject} {doc : JsonObject}

lemma ownMember_registryDocument {value : Option Json} {nonce : Utf16}
    (h : registryDocument value entries nonce = some doc) :
    ownMember doc (utf16 "revision") = some (.string nonce) ∧
      ∀ name ∉ knownFields, ownMember doc name = (value.bind fun value => ownMember (readBodyObject value) name) := by
  obtain ⟨services, -, rfl⟩ := map_eq_some_iff.1 h
  refine ⟨?_, fun name hname => ?_⟩
  · rw [ownMember_setMember, if_neg (by decide), ownMember_setMember, if_pos rfl]
  · simp only [knownFields, mem_cons, not_mem_nil, or_false, not_or] at hname
    rw [ownMember_setMember, if_neg (Ne.symm hname.2.2), ownMember_setMember, if_neg (Ne.symm hname.2.1),
      ownMember_setMember, if_neg (Ne.symm hname.1)]
    cases value <;> rfl

lemma ownMember_reread (members : JsonObject) (name : Utf16) :
    ownMember (rereadMembers members) name = (ownMember members name).map reread := by
  rw [rereadMembers_eq]
  induction members with
  | nil => rfl
  | cons m rest ih =>
    obtain ⟨k, v⟩ := m
    rw [map_cons, ownMember, ownMember]
    split_ifs
    · rfl
    · exact ih

def Keeps (item : Json) (entry : JsonObject) : Prop :=
  ∀ name ∉ trimmedFields, ownMember entry name = ownMember (readBodyObject item) name

lemma keeps_of_parse {item : Json} {entry : JsonObject}
    (h : parseStoredServiceRegistryStateEntry item = some entry) : Keeps item entry := by
  intro name hname
  simp only [trimmedFields, mem_cons, not_mem_nil, or_false, not_or] at hname
  simp only [parseStoredServiceRegistryStateEntry] at h
  split_ifs at h
  cases h
  cases (ownMember (readBodyObject item) (utf16 "specifier")).bind Json.asString? with
  | none => rw [elim_none, ownMember_setMember, if_neg (Ne.symm hname.1)]
  | some s =>
    rw [elim_some, ownMember_setMember, if_neg (Ne.symm hname.2), ownMember_setMember,
      if_neg (Ne.symm hname.1)]

/-! ## What is relied on of a store -/

variable {F R : Type} {b : Backend F R}

/-- Equal revisions are of equal documents, and what is written is written over the revision that was read. -/
structure Lawful (b : Backend F R) : Prop where
  decode_eq : ∀ {f g : F}, b.revision f = b.revision g → b.decode f = b.decode g
  put_stored : ∀ {e : Event} {stored current : Option F} {doc : JsonObject} {new : F},
    b.put e stored current doc = .stored new →
    stored.map b.revision = current.map b.revision ∧ b.decode new = some (reread (.object doc))
  put_unknown : ∀ {e : Event} {stored current : Option F} {doc : JsonObject} {new : F},
    b.put e stored current doc = .unknown new → stored.map b.revision = current.map b.revision ∧
    b.decode new = some (reread (.object doc)) ∧ ∃ f, current = some f ∧ b.decode f = b.decode new

lemma systemStore_lawful : Lawful systemStore := by
  have hput : ∀ {e : Event} {stored current : Option (Versioned StoredValue)} {doc : JsonObject}
      {written : Written (Versioned StoredValue)}, systemStore.put e stored current doc = written →
      written = .threw ∨ written = .refused ∨ ∃ new, written = .stored new ∧
        stored.map systemStore.revision = current.map systemStore.revision ∧
        systemStore.decode new = some (reread (.object doc)) := by
    intro e stored current doc written h
    simp only [systemStore] at h
    split_ifs at h
    · cases current with
      | none =>
        cases hset : setIfAbsent e.now stored (toSystemStoreValue doc) with
        | none =>
          rw [hset] at h
          exact .inr (.inl h.symm)
        | some new =>
          rw [hset] at h
          obtain ⟨rfl, hvalue⟩ := setIfAbsent_eq_some hset
          exact .inr (.inr ⟨new, h.symm, rfl, congrArg (fun value : StoredValue => some value.val) hvalue⟩)
      | some record =>
        dsimp only at h
        unfold SystemStore.compareAndSetRecord at h
        split_ifs at h with hexpected
        · refine .inr (.inr ⟨_, h.symm, ?_, rfl⟩)
          obtain ⟨r, hr⟩ := isSome_iff_exists.1 (isSome_of_any hexpected)
          rw [SystemStore.isExpected, hr, any_some, Bool.and_eq_true, all_some] at hexpected
          rw [hr, map_some, map_some]
          exact congrArg some (Prod.ext (of_decide_eq_true hexpected.1) (of_decide_eq_true hexpected.2))
        · exact .inr (.inl h.symm)
    · exact .inl h.symm
  refine ⟨fun h => congrArg (fun r : ℕ × StoredValue => some r.2.val) h, fun h => ?_, fun h => ?_⟩
  · obtain hw | hw | ⟨new, hw, hrest⟩ := hput h
    · cases hw
    · cases hw
    · cases hw
      exact hrest
  · obtain hw | hw | ⟨new, hw, -⟩ := hput h
    · cases hw
    · cases hw
    · cases hw

lemma fileStorage_lawful {E : Type} [DecidableEq E] {etag : Option Json → ℕ → E}
    (hetag : ∀ {body body' : Option Json} {n n' : ℕ}, etag body n = etag body' n' → body = body') :
    Lawful (fileStorage etag) := by
  refine ⟨fun h => hetag h, fun h => ?_, fun h => ?_⟩
  · simp only [fileStorage] at h
    split_ifs at h with hsame hrepeats
    cases h
    exact ⟨hsame, rfl⟩
  · simp only [fileStorage] at h
    split_ifs at h with hsame hrepeats
    cases h
    obtain ⟨f, hf⟩ := isSome_iff_exists.1 (isSome_of_any hrepeats)
    rw [hf, any_some] at hrepeats
    exact ⟨hsame, rfl, f, hf, hetag (of_decide_eq_true hrepeats)⟩

variable {stored current : Option F}

lemma Lawful.bind_decode (hb : Lawful b)
    (h : stored.map b.revision = current.map b.revision) : stored.bind b.decode = current.bind b.decode := by
  cases stored with
  | none =>
    cases current with
    | none => rfl
    | some g => cases h
  | some f =>
    cases current with
    | none => cases h
    | some g => exact hb.decode_eq (some.inj h)

lemma Lawful.entries_eq (hb : Lawful b)
    (h : stored.map b.revision = current.map b.revision) : b.entries stored = b.entries current := by
  cases stored with
  | none =>
    cases current with
    | none => rfl
    | some g => cases h
  | some f =>
    cases current with
    | none => cases h
    | some g => exact congrArg (Option.bind · parseStoredServiceRegistryState) (hb.decode_eq (some.inj h))

lemma field_of_decode {new : F} (h : b.decode new = some (reread (.object doc))) (name : Utf16) :
    b.field (some new) name = (ownMember doc name).map reread := by
  rw [Backend.field, bind_some, h, bind_some]
  exact ownMember_reread doc name

/-! ## One step -/

def Call.pending (c : Call F R) : Option Json := match c.phase with
  | .writing _ _ doc _ => ownMember doc (utf16 "revision")
  | _ => none

def Call.accepted (c : Call F R) : Bool := match c.phase with
  | .accepted _ => true
  | _ => false

def Call.Tracks (b : Backend F R) (c : Call F R) : Prop := match c.phase with
  | .applying _ revision entries => ∃ seen, revision = seen.map b.revision ∧ b.entries seen = some entries
  | .comparing _ revision entries => ∃ seen before, revision = seen.map b.revision ∧
      b.entries seen = some before ∧ c.mutation before = some entries
  | .writing _ current doc entries => ∃ before nonce, b.entries current = some before ∧
      c.mutation before = some entries ∧ registryDocument (current.bind b.decode) entries nonce = some doc
  | _ => True

variable {s s' : Shared F} {c c' : Call F R} {e : Event}

lemma again_moved (mutation : List JsonObject → Option (List JsonObject)) (attempt : ℕ) :
    Call.pending (⟨mutation, .again attempt⟩ : Call F R) = none ∧
      Call.accepted (⟨mutation, .again attempt⟩ : Call F R) = false ∧
      Call.Tracks b ⟨mutation, .again attempt⟩ := by
  unfold Phase.again
  split_ifs
  · exact ⟨rfl, rfl, trivial⟩
  · exact ⟨rfl, rfl, trivial⟩

variable [DecidableEq R]

lemma advance_moved (hb : Lawful b) (htracks : c.Tracks b) (h : advance b e s c = some (s', c')) :
    (s' = s ∧ c'.pending = none ∧ c'.accepted = false ∧ c'.Tracks b) ∨
    (s' = { s with drawn := e.nonce :: s.drawn } ∧ e.nonce ∉ s.drawn ∧
      c'.pending = some (.string e.nonce) ∧ c'.accepted = false ∧ c'.Tracks b) ∨
    ∃ attempt current doc entries new, c.phase = .writing attempt current doc entries ∧
      s' = { s with stored := some new } ∧ c'.pending = none ∧
      (b.put e s.stored current doc = .stored new ∧ c' = { c with phase := .accepted entries } ∨
        b.put e s.stored current doc = .unknown new ∧ c'.accepted = false ∧ c'.Tracks b) := by
  obtain ⟨mutation, phase⟩ := c
  cases phase with
  | reading attempt =>
    simp only [advance] at h
    split_ifs at h
    · cases h
      exact .inl ⟨rfl, rfl, rfl, trivial⟩
    · cases hentries : b.entries s.stored with
      | none =>
        rw [hentries] at h
        cases h
        exact .inl ⟨rfl, rfl, rfl, trivial⟩
      | some entries =>
        rw [hentries] at h
        cases h
        exact .inl ⟨rfl, rfl, rfl, s.stored, rfl, hentries⟩
  | applying attempt revision entries =>
    obtain ⟨seen, hrevision, hentries⟩ := htracks
    simp only [advance] at h
    cases hmutation : mutation entries with
    | none =>
      rw [hmutation] at h
      cases h
      exact .inl ⟨rfl, rfl, rfl, trivial⟩
    | some entries' =>
      rw [hmutation] at h
      cases h
      exact .inl ⟨rfl, rfl, rfl, seen, entries, hrevision, hentries, hmutation⟩
  | comparing attempt revision entries =>
    obtain ⟨seen, before, hrevision, hentries, hmutation⟩ := htracks
    simp only [advance] at h
    cases hdoc : registryDocument (s.stored.bind b.decode) entries e.nonce with
    | none =>
      rw [hdoc] at h
      dsimp only at h
      split_ifs at h
      · cases h
        exact .inl ⟨rfl, rfl, rfl, trivial⟩
      · cases h
        exact .inl ⟨rfl, again_moved mutation attempt⟩
      · cases h
        exact .inl ⟨rfl, rfl, rfl, trivial⟩
      · cases h
        exact .inl ⟨rfl, rfl, rfl, trivial⟩
    | some doc =>
      rw [hdoc] at h
      split_ifs at h with hnot hchanged hchecks hdrawn
      · cases h
        exact .inl ⟨rfl, rfl, rfl, trivial⟩
      · cases h
        exact .inl ⟨rfl, again_moved mutation attempt⟩
      · cases h
        exact .inl ⟨rfl, rfl, rfl, trivial⟩
      · cases h
        -- what is stored now is what was read first
        have hsame := hb.entries_eq ((not_not.1 hchanged).trans hrevision)
        exact .inr (.inl ⟨rfl, hdrawn, (ownMember_registryDocument hdoc).1, rfl, before, e.nonce,
          hsame.trans hentries, hmutation, hdoc⟩)
  | writing attempt current doc entries =>
    simp only [advance] at h
    split_ifs at h
    · cases h
      exact .inl ⟨rfl, rfl, rfl, trivial⟩
    · have h := some.inj h
      cases hput : b.put e s.stored current doc with
      | threw =>
        rw [hput] at h
        cases h
        exact .inl ⟨rfl, rfl, rfl, trivial⟩
      | refused =>
        rw [hput] at h
        cases h
        exact .inl ⟨rfl, again_moved mutation attempt⟩
      | stored new =>
        rw [hput] at h
        cases h
        exact .inr (.inr ⟨attempt, current, doc, entries, new, rfl, rfl, rfl, .inl ⟨hput, rfl⟩⟩)
      | unknown new =>
        rw [hput] at h
        cases h
        exact .inr (.inr ⟨attempt, current, doc, entries, new, rfl, rfl, rfl, .inr ⟨hput, rfl, trivial⟩⟩)
  | accepted | contended | unavailable => cases h

/-! ## One turn -/

/-- The number of the document that is stored. -/
abbrev Shared.number (b : Backend F R) (s : Shared F) : Option Json := b.field s.stored (utf16 "revision")

/-- What holds of a world. -/
structure Good (b : Backend F R) (w : World (Shared F) (Call F R)) : Prop where
  tracks : ∀ c ∈ w.parties, c.Tracks b
  pending : ∀ c ∈ w.parties, ∀ r, c.pending = some r → ∃ n, r = .string n ∧ n ∈ w.shared.drawn
  apart : ∀ {k k' : ℕ} {c c' : Call F R} {r : Json}, w.parties[k]? = some c → w.parties[k']? = some c' →
    c.pending = some r → c'.pending = some r → k = k'
  fresh : ∀ c ∈ w.parties, ∀ r, c.pending = some r → w.shared.number b ≠ some r
  known : ∀ n, w.shared.number b = some (.string n) → n ∈ w.shared.drawn

/-- A number that is not stored again. -/
structure Past (b : Backend F R) (r : Json) (w : World (Shared F) (Call F R)) : Prop where
  drawn : ∀ n, r = .string n → n ∈ w.shared.drawn
  pending : ∀ c ∈ w.parties, c.pending ≠ some r
  number : w.shared.number b ≠ some r

/-- What a document that is written is. -/
structure Wrote (b : Backend F R) (w : World (Shared F) (Call F R)) (s' : Shared F) (c c' : Call F R) : Prop where
  applied : ∃ before nonce doc entries new, b.entries w.shared.stored = some before ∧
    c.mutation before = some entries ∧ registryDocument (w.shared.stored.bind b.decode) entries nonce = some doc ∧
    s' = { w.shared with stored := some new } ∧ b.decode new = some (reread (.object doc)) ∧
    c' = { c with phase := .accepted entries }
  number : c.pending = s'.number b

lemma Good.wrote {w : World (Shared F) (Call F R)} (hb : Lawful b) (hw : Good b w) (hc : c ∈ w.parties)
    (h : advance b e w.shared c = some (s', c')) {attempt : ℕ} {current : Option F}
    {new : F} (hphase : c.phase = .writing attempt current doc entries)
    (hs : s' = { w.shared with stored := some new })
    (hput : b.put e w.shared.stored current doc = .stored new ∧ c' = { c with phase := .accepted entries } ∨
      b.put e w.shared.stored current doc = .unknown new ∧ c'.accepted = false ∧ c'.Tracks b) :
    Wrote b w s' c c' := by
  have htracks := hw.tracks c hc
  have hpending : c.pending = ownMember doc (utf16 "revision") := by rw [Call.pending, hphase]
  rw [Call.Tracks, hphase] at htracks
  obtain ⟨before, nonce, hbefore, hmutation, hdoc⟩ := htracks
  have hnonce := (ownMember_registryDocument hdoc).1
  obtain ⟨hput, rfl⟩ | ⟨hput, -⟩ := hput
  · obtain ⟨hsame, hdecode⟩ := hb.put_stored hput
    refine ⟨⟨before, nonce, doc, entries, new, (hb.entries_eq hsame).trans hbefore, hmutation, ?_, hs, hdecode,
      rfl⟩, ?_⟩
    · rw [hb.bind_decode hsame]
      exact hdoc
    · rw [hs, Shared.number, field_of_decode hdecode, hpending, hnonce]
      rfl
  · -- what was written had the number of what was stored
    obtain ⟨hsame, hdecode, f, rfl, hf⟩ := hb.put_unknown hput
    refine absurd ?_ (hw.fresh c hc (.string nonce) (hpending.trans hnonce))
    rw [Shared.number, Backend.field, hb.bind_decode hsame, bind_some, hf, hdecode]
    exact (ownMember_reread doc _).trans (by rw [hnonce]; rfl)
variable {w w' : World (Shared F) (Call F R)} {k : ℕ}

lemma Good.moved (hb : Lawful b) (hw : Good b w) (hc : c ∈ w.parties)
    (h : advance b e w.shared c = some (s', c')) :
    (s'.stored = w.shared.stored ∧ c'.accepted = false ∧ c'.Tracks b ∧
      (s'.drawn = w.shared.drawn ∧ c'.pending = none ∨
        s'.drawn = e.nonce :: w.shared.drawn ∧ e.nonce ∉ w.shared.drawn ∧
          c'.pending = some (.string e.nonce))) ∨ Wrote b w s' c c' := by
  obtain ⟨rfl, hpending, haccepted, htracks⟩ | ⟨rfl, hnew, hpending, haccepted, htracks⟩ |
    ⟨attempt, current, doc, entries, new, hphase, hs, -, hput⟩ := advance_moved hb (hw.tracks c hc) h
  · exact .inl ⟨rfl, haccepted, htracks, .inl ⟨rfl, hpending⟩⟩
  · exact .inl ⟨rfl, haccepted, htracks, .inr ⟨rfl, hnew, hpending⟩⟩
  · exact .inr (hw.wrote hb hc h hphase hs hput)

omit [DecidableEq R] in
lemma Wrote.over (h : Wrote b w s' c c') : s'.drawn = w.shared.drawn ∧ c'.pending = none ∧
    c'.accepted = true ∧ c'.Tracks b := by
  obtain ⟨before, nonce, doc, entries, new, -, -, -, rfl, -, rfl⟩ := h.applied
  exact ⟨rfl, rfl, rfl, trivial⟩

lemma Good.move (hb : Lawful b) (hw : Good b w) (hc : w.parties[k]? = some c)
    (h : advance b e w.shared c = some (s', c')) : Good b ⟨s', w.parties.set k c'⟩ := by
  have hmem := mem_of_getElem? hc
  have hmoved := hw.moved hb hmem h
  have hdrawn : ∀ n ∈ w.shared.drawn, n ∈ s'.drawn := by
    obtain ⟨-, -, -, ⟨hsame, -⟩ | ⟨hcons, -⟩⟩ | hwrote := hmoved
    · exact fun n hn => hsame ▸ hn
    · exact fun n hn => hcons ▸ mem_cons_of_mem _ hn
    · exact fun n hn => hwrote.over.1 ▸ hn
  have hnumber : s'.number b = w.shared.number b ∨ c.pending = s'.number b ∧ c'.pending = none := by
    obtain ⟨hstored, -⟩ | hwrote := hmoved
    · exact .inl (by rw [Shared.number, hstored])
    · exact .inr ⟨hwrote.number, hwrote.over.2.1⟩
  -- a number that the call is about to write now, it has just drawn
  have hnew : ∀ r, c'.pending = some r → r = .string e.nonce ∧ e.nonce ∉ w.shared.drawn ∧ e.nonce ∈ s'.drawn ∧
      s'.number b = w.shared.number b := by
    intro r hr
    obtain ⟨hstored, -, -, ⟨-, hnone⟩ | ⟨hcons, hnot, hpending⟩⟩ | hwrote := hmoved
    · rw [hnone] at hr
      cases hr
    · cases hpending.symm.trans hr
      exact ⟨rfl, hnot, hcons ▸ mem_cons_self, by rw [Shared.number, hstored]⟩
    · rw [hwrote.over.2.1] at hr
      cases hr
  have hold : ∀ (q : Call F R) (r : Json), q ∈ w.parties → q.pending = some r → c'.pending ≠ some r := by
    intro q r hq hr hr'
    obtain ⟨rfl, hnot, -⟩ := hnew r hr'
    obtain ⟨n, heq, hn⟩ := hw.pending q hq _ hr
    cases heq
    exact hnot hn
  refine ⟨fun q hq => ?_, fun q hq r hr => ?_, fun {j j' q q' r} hj hj' hr hr' => ?_, fun q hq r hr hsame => ?_,
    fun n hn => ?_⟩
  · obtain ⟨j, hj⟩ := mem_iff_getElem?.1 hq
    obtain ⟨-, rfl⟩ | ⟨-, hj⟩ := getElem?_set_cases hj
    · obtain ⟨-, -, htracks, -⟩ | hwrote := hmoved
      · exact htracks
      · exact hwrote.over.2.2.2
    · exact hw.tracks q (mem_of_getElem? hj)
  · obtain ⟨j, hj⟩ := mem_iff_getElem?.1 hq
    obtain ⟨-, rfl⟩ | ⟨-, hj⟩ := getElem?_set_cases hj
    · obtain ⟨rfl, -, hin, -⟩ := hnew r hr
      exact ⟨e.nonce, rfl, hin⟩
    · obtain ⟨n, rfl, hn⟩ := hw.pending q (mem_of_getElem? hj) r hr
      exact ⟨n, rfl, hdrawn n hn⟩
  · obtain ⟨hjk, rfl⟩ | ⟨-, hold₁⟩ := getElem?_set_cases hj
    · obtain ⟨hjk', -⟩ | ⟨-, hold₂⟩ := getElem?_set_cases hj'
      · exact hjk.trans hjk'.symm
      · exact absurd hr (hold q' r (mem_of_getElem? hold₂) hr')
    · obtain ⟨-, rfl⟩ | ⟨-, hold₂⟩ := getElem?_set_cases hj'
      · exact absurd hr' (hold q r (mem_of_getElem? hold₁) hr)
      · exact hw.apart hold₁ hold₂ hr hr'
  · obtain ⟨j, hj⟩ := mem_iff_getElem?.1 hq
    obtain ⟨-, rfl⟩ | ⟨hjk, hj⟩ := getElem?_set_cases hj
    · obtain ⟨rfl, hnot, -, hsame'⟩ := hnew r hr
      exact hnot (hw.known _ (hsame' ▸ hsame))
    · obtain hsame' | ⟨hpending, -⟩ := hnumber
      · exact hw.fresh q (mem_of_getElem? hj) r hr (hsame' ▸ hsame)
      · exact hjk (hw.apart hj hc hr (hpending.trans hsame))
  · obtain hsame | ⟨hpending, -⟩ := hnumber
    · exact hdrawn n (hw.known n (hsame ▸ hn))
    · obtain ⟨m, heq, hm⟩ := hw.pending c hmem _ (hpending.trans hn)
      cases heq
      exact hdrawn n hm

lemma Past.move {r : Json} (hb : Lawful b) (hw : Good b w) (hpast : Past b r w) (hc : w.parties[k]? = some c)
    (h : advance b e w.shared c = some (s', c')) : Past b r ⟨s', w.parties.set k c'⟩ := by
  have hmem := mem_of_getElem? hc
  obtain ⟨hstored, -, -, hdrawn⟩ | hwrote := hw.moved hb hmem h
  · refine ⟨fun n hn => ?_, fun q hq hr => ?_, ?_⟩
    · obtain ⟨hsame, -⟩ | ⟨hcons, -⟩ := hdrawn
      · exact hsame ▸ hpast.drawn n hn
      · exact hcons ▸ mem_cons_of_mem _ (hpast.drawn n hn)
    · obtain ⟨j, hj⟩ := mem_iff_getElem?.1 hq
      obtain ⟨-, rfl⟩ | ⟨-, hj⟩ := getElem?_set_cases hj
      · obtain ⟨-, hnone⟩ | ⟨-, hnot, hpending⟩ := hdrawn
        · rw [hnone] at hr
          cases hr
        · exact hnot (hpast.drawn _ (some.inj (hr.symm.trans hpending)))
      · exact hpast.pending q (mem_of_getElem? hj) hr
    · rw [Shared.number, hstored]
      exact hpast.number
  · obtain ⟨hdrawn, hnone, -⟩ := hwrote.over
    refine ⟨fun n hn => hdrawn ▸ hpast.drawn n hn, fun q hq hr => ?_, ?_⟩
    · obtain ⟨j, hj⟩ := mem_iff_getElem?.1 hq
      obtain ⟨-, rfl⟩ | ⟨-, hj⟩ := getElem?_set_cases hj
      · rw [hnone] at hr
        cases hr
      · exact hpast.pending q (mem_of_getElem? hj) hr
    · rw [← hwrote.number]
      exact hpast.pending c hmem

omit [DecidableEq R] in
lemma Wrote.past {r : Json} (hw : Good b w) (hc : w.parties[k]? = some c) (h : Wrote b w s' c c')
    (hr : w.shared.number b = some r) : Past b r ⟨s', w.parties.set k c'⟩ := by
  obtain ⟨hdrawn, hnone, -⟩ := h.over
  refine ⟨fun n hn => ?_, fun q hq hr' => ?_, fun hr' => ?_⟩
  · rw [hdrawn]
    exact hw.known n (hn ▸ hr)
  · obtain ⟨j, hj⟩ := mem_iff_getElem?.1 hq
    obtain ⟨-, rfl⟩ | ⟨-, hj⟩ := getElem?_set_cases hj
    · rw [hnone] at hr'
      cases hr'
    · exact hw.fresh q (mem_of_getElem? hj) r hr' hr
  · exact hw.fresh c (mem_of_getElem? hc) r (h.number.trans hr') hr

/-- What one turn does. -/
structure Turned (b : Backend F R) (w w' : World (Shared F) (Call F R)) (turn : Turn (Call F R) Event Empty) :
    Prop where
  good : Good b w'
  past : ∀ r, Past b r w → Past b r w'
  writes : w'.shared.stored = w.shared.stored ∧ (∀ k e c', turn = .move k e → w'.parties[k]? = some c' →
      c'.accepted = false) ∨
    ∃ k e c c', turn = .move k e ∧ w.parties[k]? = some c ∧ w'.parties[k]? = some c' ∧
      Wrote b w w'.shared c c' ∧ ∀ r, w.shared.number b = some r → Past b r w'

lemma good_play (hb : Lawful b) {turn : Turn (Call F R) Event Empty} (hw : Good b w)
    (hplay : (mutations b).play w turn = some w') : Turned b w w' turn := by
  obtain ⟨rfl, rfl⟩ | ⟨party, rfl, hbegin, rfl⟩ | ⟨k, e, c, s', c', rfl, hc, hmove, rfl⟩ | ⟨event, -⟩ :=
    Rules.play_cases hplay
  · exact ⟨hw, fun _ h => h, .inl ⟨rfl, nofun⟩⟩
  · have hstart : party.pending = none ∧ party.Tracks b := by
      obtain ⟨mutation, phase⟩ := party
      cases phase with
      | reading attempt => exact ⟨rfl, trivial⟩
      | _ => cases hbegin
    have hold : ∀ {j : ℕ} {q : Call F R} {r : Json}, (w.parties ++ [party])[j]? = some q → q.pending = some r →
        w.parties[j]? = some q := by
      intro j q r hj hr
      obtain hj | rfl := getElem?_append_cases hj
      · exact hj
      · rw [hstart.1] at hr
        cases hr
    have hmem : ∀ {q : Call F R} {r : Json}, q ∈ w.parties ++ [party] → q.pending = some r → q ∈ w.parties := by
      intro q r hq hr
      obtain ⟨j, hj⟩ := mem_iff_getElem?.1 hq
      exact mem_of_getElem? (hold hj hr)
    refine ⟨⟨fun q hq => ?_, fun q hq r hr => hw.pending q (hmem hq hr) r hr,
      fun hj hj' hr hr' => hw.apart (hold hj hr) (hold hj' hr') hr hr',
      fun q hq r hr => hw.fresh q (hmem hq hr) r hr, hw.known⟩,
      fun r hpast => ⟨hpast.drawn, fun q hq hr => hpast.pending q (hmem hq hr) hr, hpast.number⟩, .inl ⟨rfl, nofun⟩⟩
    obtain hq | hq := mem_append.1 hq
    · exact hw.tracks q hq
    · rw [mem_singleton.1 hq]
      exact hstart.2
  · have hself : (w.parties.set k c')[k]? = some c' :=
      List.getElem?_set_self (List.getElem?_eq_some_iff.1 hc).1
    refine ⟨hw.move hb hc hmove, fun r hpast => hpast.move hb hw hc hmove, ?_⟩
    obtain ⟨hstored, haccepted, -⟩ | hwrote := hw.moved hb (mem_of_getElem? hc) hmove
    · refine .inl ⟨hstored, fun k' e' c'' hturn hc'' => ?_⟩
      cases hturn
      cases hself.symm.trans hc''
      exact haccepted
    · exact .inr ⟨k, e, c, c', rfl, hc, hself, hwrote, fun r hr => hwrote.past hw hc hr⟩
  · exact event.elim

/-! ## Mutations come one after another -/

/-- What is stored at a moment. -/
abbrev storedAt (run : Run (mutations b)) (i : ℕ) : Option F := (run.world i).shared.stored

def Backend.services (b : Backend F R) (stored : Option F) : List Json :=
  match b.field stored (utf16 "services") with
  | some (.array items) => items
  | _ => []

/-- What holds of any number of calls, where `kept` is what becomes of a field that is kept. -/
structure Linearizable (b : Backend F R) (kept : Json → Json) (run : Run (mutations b)) : Prop where
  /-- A mutation that is accepted was applied to the entries that were stored at the turn it was accepted at,
  and its document is what that turn left. -/
  applied : ∀ {i k : ℕ} {e : Event} {c c' : Call F R} {entries : List JsonObject}, run.turn i = .move k e →
    (run.world i).parties[k]? = some c → (run.world (i + 1)).parties[k]? = some c' →
    c'.phase = .accepted entries → ∃ before nonce doc new, b.entries (storedAt run i) = some before ∧
      c.mutation before = some entries ∧
      registryDocument ((storedAt run i).bind b.decode) entries nonce = some doc ∧
      storedAt run (i + 1) = some new ∧ b.decode new = some (reread (.object doc))
  unchanged : ∀ {i : ℕ}, storedAt run (i + 1) ≠ storedAt run i → ∃ k e c' entries, run.turn i = .move k e ∧
    (run.world (i + 1)).parties[k]? = some c' ∧ c'.phase = .accepted entries
  fields : ∀ {i : ℕ} {name : Utf16}, name ∉ knownFields → storedAt run (i + 1) = storedAt run i ∨
    b.field (storedAt run (i + 1)) name = (b.field (storedAt run i) name).map kept
  entries : ∀ {i : ℕ} {before : List JsonObject}, b.entries (storedAt run i) = some before →
    List.Forall₂ Keeps (b.services (storedAt run i)) before
  revisions : ∀ {i m j : ℕ} {r : Json}, i ≤ m → m ≤ j → b.field (storedAt run i) (utf16 "revision") = some r →
    b.field (storedAt run j) (utf16 "revision") = some r → storedAt run m = storedAt run i

lemma items_of_parse {value : Json} (h : parseStoredServiceRegistryState value = some entries) :
    ∃ items, ownMember (readBodyObject value) (utf16 "services") = some (.array items) ∧
      items.mapM parseStoredServiceRegistryStateEntry = some entries := by
  unfold parseStoredServiceRegistryState at h
  split at h
  · next items hitems => exact ⟨items, hitems, (filter_eq_some_iff.1 h).1⟩
  · cases h

omit [DecidableEq R] in
lemma entries_keep {stored : Option F} {before : List JsonObject} (h : b.entries stored = some before) :
    List.Forall₂ Keeps (b.services stored) before := by
  cases stored with
  | none =>
    cases h
    exact .nil
  | some f =>
    obtain ⟨value, hvalue, hparse⟩ := bind_eq_some_iff.1 h
    obtain ⟨items, hitems, hmap⟩ := items_of_parse hparse
    have hservices : b.services (some f) = items := by
      rw [Backend.services, Backend.field, bind_some, hvalue, bind_some, hitems]
    rw [hservices]
    exact (mapM_eq_some_iff.1 hmap).imp fun item entry hentry => keeps_of_parse hentry

lemma linearizable (hb : Lawful b) (run : Run (mutations b)) (hstart : (run.world 0).parties = [])
    (hdrawn : ∀ n, (run.world 0).shared.number b = some (.string n) → n ∈ (run.world 0).shared.drawn) :
    Linearizable b reread run := by
  have hnone : ∀ c, c ∉ (run.world 0).parties := by
    intro c hc
    rw [hstart] at hc
    cases hc
  have hgood : ∀ i, Good b (run.world i) := by
    intro i
    exact run.kept (Q := Good b) (fun i h => (good_play hb h (run.plays i)).good)
      ⟨fun c hc => absurd hc (hnone c), fun c hc => absurd hc (hnone c),
        fun hc => absurd (mem_of_getElem? hc) (hnone _), fun c hc => absurd hc (hnone c), hdrawn⟩
      (Nat.zero_le i)
  have hturn : ∀ i, Turned b (run.world i) (run.world (i + 1)) (run.turn i) := fun i =>
    good_play hb (hgood i) (run.plays i)
  refine ⟨fun {i k e c c' entries} hmove hc hc' hphase => ?_, fun {i} hne => ?_, fun {i name} hname => ?_,
    fun h => entries_keep h, fun {i m j r} him hmj hr hr' => ?_⟩
  · obtain ⟨-, hnot⟩ | ⟨k₁, e₁, c₁, c₁', hmove₁, hc₁, hc₁', hwrote, -⟩ := (hturn i).writes
    · have := hnot k e c' hmove hc'
      rw [Call.accepted, hphase] at this
      cases this
    · cases hmove.symm.trans hmove₁
      cases hc.symm.trans hc₁
      cases hc'.symm.trans hc₁'
      obtain ⟨before, nonce, doc, entries', new, hbefore, hmutation, hdoc, hs, hdecode, rfl⟩ := hwrote.applied
      cases hphase
      exact ⟨before, nonce, doc, new, hbefore, hmutation, hdoc, by rw [storedAt, hs], hdecode⟩
  · obtain ⟨hsame, -⟩ | ⟨k, e, c, c', hmove, -, hc', hwrote, -⟩ := (hturn i).writes
    · exact absurd hsame hne
    · obtain ⟨-, -, -, entries, -, -, -, -, -, -, rfl⟩ := hwrote.applied
      exact ⟨k, e, _, entries, hmove, hc', rfl⟩
  · obtain ⟨hsame, -⟩ | ⟨k, e, c, c', -, -, -, hwrote, -⟩ := (hturn i).writes
    · exact .inl hsame
    · obtain ⟨before, nonce, doc, entries, new, -, -, hdoc, hs, hdecode, -⟩ := hwrote.applied
      right
      rw [storedAt, hs, field_of_decode hdecode, (ownMember_registryDocument hdoc).2 name hname]
      rfl
  · -- a document that was replaced has a number that is not stored again
    have hpast : ∀ n, i ≤ n → storedAt run n = storedAt run i ∨ Past b r (run.world n) := by
      intro n hn
      induction n, hn using Nat.le_induction with
      | base => exact .inl rfl
      | succ n _ ih =>
        obtain hsame | hpast := ih
        · obtain ⟨hstored, -⟩ | ⟨-, -, -, -, -, -, -, -, hpast⟩ := (hturn n).writes
          · exact .inl (hstored.trans hsame)
          · refine .inr (hpast r ?_)
            rw [Shared.number, show (run.world n).shared.stored = storedAt run i from hsame]
            exact hr
        · exact .inr ((hturn n).past r hpast)
    obtain hsame | hm := hpast m him
    · exact hsame
    · have hj := run.kept (Q := Past b r) (fun n h => (hturn n).past r h) hm hmj
      exact absurd hr' hj.number
lemma field_systemStore (stored : Option (Versioned StoredValue)) (name : Utf16) :
    (systemStore.field stored name).map reread = systemStore.field stored name := by
  cases stored with
  | none => rfl
  | some record =>
    obtain ⟨⟨value, hvalue⟩, updatedAt⟩ := record
    cases value with
    | scalar | array => rfl
    | object members =>
      have hmembers : rereadMembers members = members := Json.object.inj hvalue
      have hfield : systemStore.field (some ⟨⟨.object members, hvalue⟩, updatedAt⟩) name = ownMember members name :=
        rfl
      rw [hfield, ← ownMember_reread, hmembers]

lemma Linearizable.exact {run : Run (mutations systemStore)} (h : Linearizable systemStore reread run) :
    Linearizable systemStore id run := by
  refine ⟨h.applied, h.unchanged, fun {i name} hname => ?_, h.entries, h.revisions⟩
  rw [Option.map_id, id_eq, ← field_systemStore (storedAt run i)]
  exact h.fields hname

/-- Over a System Store and over file storage mutations come one after another, and a field that the registry
does not know is kept, in a file as JSON is written of what was read. -/
theorem registry_linearizable {E : Type} [DecidableEq E] {etag : Option Json → ℕ → E}
    (hetag : ∀ {body body' : Option Json} {n n' : ℕ}, etag body n = etag body' n' → body = body')
    (run : Run (mutations systemStore)) (run' : Run (mutations (fileStorage etag)))
    (hstart : (run.world 0).parties = []) (hstart' : (run'.world 0).parties = [])
    (hdrawn : ∀ n, (run.world 0).shared.number systemStore = some (.string n) → n ∈ (run.world 0).shared.drawn)
    (hdrawn' : ∀ n, (run'.world 0).shared.number (fileStorage etag) = some (.string n) →
      n ∈ (run'.world 0).shared.drawn) :
    Linearizable systemStore id run ∧ Linearizable (fileStorage etag) reread run' :=
  ⟨(linearizable systemStore_lawful run hstart hdrawn).exact,
    linearizable (fileStorage_lawful hetag) run' hstart' hdrawn'⟩

/-! ## Two calls, and a number that is too large -/

def adding (F R : Type) (name : String) : Turn (Call F R) Event Empty :=
  .begin ⟨fun entries => some (entries ++ [[(utf16 "name", .string (utf16 name))]]), .reading 0⟩

def given (F R : Type) (k : ℕ) (nonce : String) (n : ℕ) : List (Turn (Call F R) Event Empty) :=
  List.replicate n (.move k ⟨true, 0, utf16 nonce⟩)

def beside (F R : Type) : List (Turn (Call F R) Event Empty) :=
  [adding F R "a", adding F R "b"] ++ given F R 0 "one" 1 ++ given F R 1 "two" 1 ++ given F R 0 "one" 3 ++
    given F R 1 "two" 6

def alone (F R : Type) : List (Turn (Call F R) Event Empty) := [adding F R "a"] ++ given F R 0 "one" 4

def bytes : Option Json → ℕ → Option Json := fun body _ => body

def limited (limit : JsNumber) : File :=
  ⟨some (.object [(utf16 "services", .array []), (utf16 "limit", .scalar (.number limit))]), 0⟩

/-- What `1e999` is read as. -/
def infinity : JsNumber := ⟨0x7ff0000000000000⟩

def besideRun : Run (mutations systemStore) :=
  (mutations systemStore).replay ⟨⟨none, []⟩, []⟩ (beside _ _) (by decide +kernel)

def besideRun' : Run (mutations (fileStorage bytes)) :=
  (mutations (fileStorage bytes)).replay ⟨⟨none, []⟩, []⟩ (beside _ _) (by decide +kernel)

def limitedRun : Run (mutations (fileStorage bytes)) :=
  (mutations (fileStorage bytes)).replay ⟨⟨some (limited infinity), []⟩, []⟩ (alone _ _) (by decide +kernel)

theorem registry_linearizable_beside :
    Linearizable systemStore id besideRun ∧ Linearizable (fileStorage bytes) reread besideRun' :=
  registry_linearizable (fun h => h) besideRun besideRun' rfl rfl (fun _ h => by cases h) (fun _ h => by cases h)

/-- The field is written back as null. -/
theorem not_registry_linearizable : ¬∀ (E : Type) [DecidableEq E] (etag : Option Json → ℕ → E),
    (∀ {body body' : Option Json} {n n' : ℕ}, etag body n = etag body' n' → body = body') →
    ∀ (run : Run (mutations systemStore)) (run' : Run (mutations (fileStorage etag))),
    (run.world 0).parties = [] → (run'.world 0).parties = [] →
    (∀ n, (run.world 0).shared.number systemStore = some (.string n) → n ∈ (run.world 0).shared.drawn) →
    (∀ n, (run'.world 0).shared.number (fileStorage etag) = some (.string n) →
      n ∈ (run'.world 0).shared.drawn) →
    Linearizable systemStore id run ∧ Linearizable (fileStorage etag) id run' := by
  intro h
  have hlinearizable := (h (Option Json) bytes (fun h => h) besideRun limitedRun rfl rfl (fun _ h => by cases h)
    (fun _ h => by cases h)).2
  have hbefore : (fileStorage bytes).field (storedAt limitedRun 4) (utf16 "limit") =
      some (.scalar (.number infinity)) := by decide +kernel
  have hafter : (fileStorage bytes).field (storedAt limitedRun 5) (utf16 "limit") = some .null := by decide +kernel
  obtain hsame | hfield := @Linearizable.fields _ _ _ _ _ _ hlinearizable 4 (utf16 "limit") (by decide)
  · rw [hsame, hbefore] at hafter
    cases hafter
  · rw [hafter, hbefore] at hfield
    cases hfield

end Zelavis.Platform.ServiceRegistry
