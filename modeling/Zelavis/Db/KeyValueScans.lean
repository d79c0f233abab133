import Zelavis.Db.KeyValueNames

/-!
# Entries read, one by one and in order
-/

namespace Zelavis.Db

open Lib List Option

/-! ## The map of a store -/

def mapOf (t : TenantId) (name : Utf16) (o : Objects Record) : KeyValueMap :=
  .ofList (o.held.entries.filterMap fun e =>
    (docAt t o e.1).bind fun d => if d.collection = name then some (utf8 d.id, entryOf d) else none)

def Dates.never (D : Dates) (now : ℤ) : Dates := { D with parse := fun _ => some (now + 1) }

lemma isExpired_never (D : Dates) (now : ℤ) (expiresAt : Option Utf16) :
    isExpired (D.never now) now expiresAt = false := by
  cases expiresAt with
  | none => rfl
  | some moment =>
    unfold isExpired Dates.never
    simp

lemma entryOf_inj {d d' : Document} (hc : d.collection = d'.collection)
    (h : entryOf d = entryOf d') : d = d' := by
  obtain ⟨id, collection, data, createdAt, updatedAt, version, expiresAt⟩ := d
  obtain ⟨id', collection', data', createdAt', updatedAt', version', expiresAt'⟩ := d'
  obtain ⟨rfl, rfl, rfl, rfl, rfl, rfl⟩ := KeyValueEntry.mk.inj h
  cases hc
  rfl

variable {key : Utf16} {e : KeyValueEntry} {now : ℤ} {look : Utf16 → Option Document} {since : Utf16 → ℤ}

section

variable {host : Host} {t : TenantId} {o : Objects Record} {name : Utf16}
  {record : StoredCollection} {D : Dates} {m : KeyValueMap}

lemma mem_mapOf {k : Bytes} (h : (mapOf t name o).get k = some e) :
    ∃ q d, docAt t o q = some d ∧ d.collection = name ∧ k = utf8 d.id ∧ e = entryOf d := by
  obtain ⟨held, -, hbind⟩ := mem_filterMap.1 (OrderedMap.mem_of_get_ofList h)
  obtain ⟨d, hd, heq⟩ := bind_eq_some_iff.1 hbind
  split_ifs at heq with hc
  cases heq
  exact ⟨held.1, d, hd, hc, rfl, rfl⟩

lemma get_mapOf (ho : Kept o) (ht : TenantOk t) (hplain : LegibleKeys t name o) {id : Utf16}
    (hid : Legible id) : (mapOf t name o).get (utf8 id) = (findById t o name id).map entryOf := by
  have hback : ∀ e, (mapOf t name o).get (utf8 id) = some e →
      ∃ d, findById t o name id = some d ∧ e = entryOf d := by
    intro e he
    obtain ⟨q, d, hd, hc, hkey, rfl⟩ := mem_mapOf he
    have hfound : findById t o name d.id = some d := (findById_eq_some ho ht).2 ⟨q, hd, hc, rfl⟩
    have heq : id = d.id := hid.eq_of_utf8 (hplain d.id d hfound) hkey
    exact ⟨d, by rw [heq]; exact hfound, rfl⟩
  cases hfound : findById t o name id with
  | none =>
    cases hget : (mapOf t name o).get (utf8 id) with
    | none => rfl
    | some e =>
      obtain ⟨d, hd, -⟩ := hback e hget
      rw [hfound] at hd
      cases hd
  | some d =>
    obtain ⟨q, hd, hc, hid'⟩ := (findById_eq_some ho ht).1 hfound
    obtain ⟨held, hheld, -⟩ := docAt_eq_some.1 hd
    obtain ⟨e, he⟩ : ∃ e, (mapOf t name o).get (utf8 id) = some e := by
      refine OrderedMap.get_ofList_of_mem (mem_filterMap.2
        ⟨(q, held), OrderedMap.mem_entries.2 hheld, ?_⟩) (v := entryOf d)
      rw [hd, bind_some, if_pos hc, hid']
    obtain ⟨d', hd', rfl⟩ := hback e he
    rw [hfound] at hd'
    cases hd'
    exact he

lemma shows_mapOf (ho : Kept o) (ht : TenantOk t) (hplain : LegibleKeys t name o) (D : Dates)
    (since : Utf16 → ℤ) : Shows D name since (findById t o name) (mapOf t name o) where
  keyed := by
    intro k e he
    obtain ⟨q, d, -, -, rfl, rfl⟩ := mem_mapOf he
    rfl
  plain := by
    intro k e he
    obtain ⟨q, d, hd, hc, -, rfl⟩ := mem_mapOf he
    exact hplain d.id d ((findById_eq_some ho ht).2 ⟨q, hd, hc, rfl⟩)
  own := by
    intro key d hd
    obtain ⟨q, -, hc, hid⟩ := (findById_eq_some ho ht).1 hd
    exact ⟨hid, hc, hplain key d hd⟩
  agrees := by
    intro key hk
    unfold seenAt KeyValueMap.find
    rw [get_mapOf ho ht hplain hk]

lemma Shows.map_never (h : Shows (D.never now) name (fun _ => now) look m) (hk : Legible key) :
    (look key).map entryOf = m.get (utf8 key) := by
  have hagrees := h.agrees key hk
  unfold seenAt KeyValueMap.find at hagrees
  have hall : ∀ found : Option KeyValueEntry,
      found.filter (fun e => !isExpired (D.never now) now e.expiresAt) = found := by
    intro found
    cases found with
    | none => rfl
    | some e =>
      rw [filter_some, if_pos]
      rw [isExpired_never]
      rfl
  rwa [hall, hall] at hagrees

lemma eq_of_map_entryOf {found found' : Option Document}
    (hc : ∀ d, found = some d → d.collection = name) (hc' : ∀ d, found' = some d → d.collection = name)
    (h : found.map entryOf = found'.map entryOf) : found = found' := by
  cases found with
  | none =>
    cases found' with
    | none => rfl
    | some d' => cases h
  | some d =>
    cases found' with
    | none => cases h
    | some d' =>
      rw [entryOf_inj ((hc d rfl).trans (hc' d' rfl).symm) (some.inj h)]

/-! ## One entry -/

variable (host D) in
lemma writeRequest_delete (ht : TenantOk t) (hname : isName name = true) (hr : Standalone record)
    (hserves : Serves t name record o) (hplain : LegibleKeys t name o) {d : Document}
    (hd : findById t o name key = some d) (now : ℤ) :
    ∃ store written, writeRequest host t o (D.clock now) (.delete name key (some d.version) none) =
        (store, .ok written) ∧ Serves t name record store ∧
      ∀ id, findById t store name id = if id = key then none else findById t o name id := by
  have hkey : Legible key := hplain key d hd
  have hs := shows_mapOf hserves.kept ht hplain (D.never now) fun _ => now
  have hget : (mapOf t name o).get (utf8 key) = some (entryOf d) := by
    rw [get_mapOf hserves.kept ht hplain hkey, hd]
    rfl
  have hfresh : ∀ found : Option Document,
      (found.any fun d => isExpired (D.never now) now d.expiresAt) = false := by
    intro found
    cases found with
    | none => rfl
    | some d => exact isExpired_never D now d.expiresAt
  have hchanges : (mapOf t name o).changes (rulesOf host t name record) (D.never now) name now
      [(.remove key (some d.version), {})] =
      .ok ((mapOf t name o).erase (utf8 key), [.deleted key true]) := by
    have hfind : (mapOf t name o).find (D.never now) now key = some (entryOf d) := by
      unfold KeyValueMap.find
      rw [hget, filter_some, if_pos]
      rw [isExpired_never]
      rfl
    have hremove : (mapOf t name o).remove (D.never now) name now key (some d.version) =
        .ok ((mapOf t name o).erase (utf8 key), .deleted key true) := by
      unfold KeyValueMap.remove
      rw [hfind]
      dsimp only
      unfold KeyValueMap.expectVersion
      dsimp only
      rw [if_neg (by exact fun h => h rfl)]
      rfl
    rw [KeyValueMap.changes_remove, hremove]
    rfl
  obtain ⟨hserves', -, hdone⟩ := writeRequest_does (D := D.never now) host ht hname hr hserves
    [(.remove key (some d.version), {})] hs
    (by simp only [meetsNothing, hfresh]; rfl)
    (fun w hw => by rw [mem_singleton.1 hw]; exact hkey)
    (.delete name key (some d.version) none) rfl rfl
  obtain ⟨written, hwritten, -, hafter⟩ := hdone _ _ hchanges
  refine ⟨(writeRequest host t o (D.clock now) (.delete name key (some d.version) none)).1, written,
    Prod.ext rfl hwritten, hserves', fun id => ?_⟩
  have hshows : Shows (D.never now) name (fun _ => now) (findById t (writeRequest host t o
      (D.clock now) (.delete name key (some d.version) none)).1 name)
      ((mapOf t name o).erase (utf8 key)) := hafter
  by_cases hid : Legible id
  · have hmap := hshows.map_never hid
    rw [OrderedMap.get_erase] at hmap
    split_ifs with heq
    · rw [if_pos (by rw [heq])] at hmap
      exact map_eq_none_iff.1 hmap
    · rw [if_neg fun hbytes => heq (hid.eq_of_utf8 hkey hbytes), get_mapOf hserves.kept ht hplain hid] at hmap
      exact eq_of_map_entryOf (fun d hd => (hshows.own id d hd).2.1)
        (fun d hd => (hs.own id d hd).2.1) hmap
  · have hnone : ∀ {look : Utf16 → Option Document},
        (∀ key d, look key = some d → Legible key) → look id = none := by
      intro look hlook
      cases hl : look id with
      | none => rfl
      | some d => exact absurd (hlook id d hl) hid
    rw [hnone hplain, hnone fun key d hd => (hshows.own key d hd).2.2]
    split_ifs <;> rfl

variable (host) in
lemma getEntry_does (ht : TenantOk t) (hname : isName name = true) (hr : Standalone record)
    (hserves : Serves t name record o) (hs : Shows D name since (findById t o name) m) (hk : Legible key)
    (hnow : since key = now) (retries : ℕ) :
    ∃ store, getEntry host t D name now key (retries + 1) o = (store, .ok (m.find D now key)) ∧
      Serves t name record store ∧ Shows D name since (findById t store name) m ∧
      ∀ id d, findById t store name id = some d → findById t o name id = some d := by
  have hagrees := hs.agrees_at hk hnow.le
  unfold seenAt at hagrees
  rw [getEntry, ← hagrees]
  cases hd : findById t o name key with
  | none => exact ⟨o, rfl, hserves, hs, fun _ _ h => h⟩
  | some d =>
    dsimp only
    cases hexpired : isExpired D now d.expiresAt with
    | false =>
      rw [if_pos rfl]
      refine ⟨o, ?_, hserves, hs, fun _ _ h => h⟩
      rw [map_some, filter_some, if_pos]
      show (!isExpired D now d.expiresAt) = true
      rw [hexpired]
      rfl
    | true =>
      rw [if_neg (by decide)]
      have hplain : LegibleKeys t name o := fun id d hd => (hs.own id d hd).2.2
      obtain ⟨store, written, hwrite, hserves', hlook⟩ :=
        writeRequest_delete host D ht hname hr hserves hplain hd now
      rw [hwrite]
      refine ⟨store, ?_, hserves', hs.expire hnow (fun d' hd' => ?_) hlook, fun id d' hd' => ?_⟩
      · rw [map_some, filter_some, if_neg]
        show ¬(!isExpired D now d.expiresAt) = true
        rw [hexpired]
        decide
      · rw [hd] at hd'
        cases hd'
        exact hexpired
      · rw [hlook] at hd'
        split_ifs at hd' with hid
        exact hd'

end

/-! ## Entries in order -/

lemma KeyValueMap.find_eq_some {D : Dates} {m : KeyValueMap} : m.find D now key = some e ↔
      m.get (utf8 key) = some e ∧ isExpired D now e.expiresAt = false := by
  unfold KeyValueMap.find
  rw [filter_eq_some_iff, Bool.not_eq_true']

variable {found : List KeyValueEntry} {k : Utf16}

section

variable {host : Host} {t : TenantId} {o : Objects Record} {name : Utf16}
  {record : StoredCollection} {D : Dates} {m : KeyValueMap} {visits : Utf16 → ℤ}
  {options : KeyValueScanOptions} {after : Option Utf16}

lemma Shows.key_of_find
    (h : Shows D name since look m) (hk : Legible key) (he : m.find D now key = some e) : e.key = key := by
  obtain ⟨hget, -⟩ := KeyValueMap.find_eq_some.1 he
  exact (h.plain _ e hget).eq_of_utf8 hk (h.keyed _ e hget)

def storedNames (t : TenantId) (name : Utf16) (options : KeyValueScanOptions)
    (after : Option Utf16) (o : Objects Record) : List Utf16 :=
  (options.identities (documentNs t name) after 0).names o

section

variable (ho : Kept o) (ht : TenantOk t) (hns : Plain (documentNs t name)) (hplain : LegibleKeys t name o)
  (hfrom : ∀ a ∈ after, Legible a)
include ho ht hns hplain hfrom

lemma mem_storedNames :
    k ∈ storedNames t name options after o ↔
      ∃ d, findById t o name k = some d ∧ KeyValueMap.covers options (entryOf d) = true ∧
        ∀ a ∈ after, Precedes options.desc a k := by
  unfold storedNames
  rw [mem_names ho ht hns hplain rfl]
  constructor
  · rintro ⟨⟨d, hd⟩, hcovers⟩
    obtain ⟨q, -, -, rfl⟩ := (findById_eq_some ho ht).1 hd
    have hcovers := (covers_identities (e := entryOf d) (hplain d.id d hd) hfrom).1 hcovers
    exact ⟨d, hd, hcovers⟩
  · rintro ⟨d, hd, hcovers⟩
    obtain ⟨q, -, -, rfl⟩ := (findById_eq_some ho ht).1 hd
    exact ⟨⟨d, hd⟩, (covers_identities (e := entryOf d) (hplain d.id d hd) hfrom).2 hcovers⟩

lemma legible_of_mem
    (hk : k ∈ storedNames t name options after o) : Legible k := by
  obtain ⟨d, hd, -⟩ := (mem_storedNames ho ht hns hplain hfrom).1 hk
  exact hplain k d hd

end

variable (options after) in
lemma aliveIn_eq (ho : Kept o) (ht : TenantOk t) (hns : Plain (documentNs t name))
    (hs : Shows D name visits (findById t o name) m) (hfrom : ∀ a ∈ after, Legible a) :
    m.aliveIn D visits options after =
      (storedNames t name options after o).filterMap fun k => m.find D (visits k) k := by
  have hplain : LegibleKeys t name o := fun id d hd => (hs.own id d hd).2.2
  refine eq_of_precedes KeyValueEntry.key (KeyValueMap.aliveIn_pairwise hs.keyed) ?_ fun e => ?_
  · refine pairwise_filterMap.2 ((names_pairwise _ ho ht hns hplain rfl).imp_of_mem ?_)
    intro a b ha hb hab e he e' he'
    rw [hs.key_of_find (legible_of_mem ho ht hns hplain hfrom ha) he,
      hs.key_of_find (legible_of_mem ho ht hns hplain hfrom hb) he']
    exact hab
  · rw [KeyValueMap.mem_aliveIn hs.keyed, mem_filterMap]
    constructor
    · rintro ⟨hget, hcovers, hafter, hlive⟩
      have hkey : Legible e.key := hs.plain _ e hget
      have hfind : m.find D (visits e.key) e.key = some e := KeyValueMap.find_eq_some.2 ⟨hget, hlive⟩
      have hseen := hs.agrees e.key hkey
      rw [hfind] at hseen
      obtain ⟨hmap, -⟩ := filter_eq_some_iff.1 hseen
      obtain ⟨d, hd, hentry⟩ := map_eq_some_iff.1 hmap
      refine ⟨e.key, (mem_storedNames ho ht hns hplain hfrom).2 ⟨d, hd, ?_, hafter⟩, hfind⟩
      rw [hentry]
      exact hcovers
    · rintro ⟨k, hk, he⟩
      obtain ⟨d, hd, hcovers, hafter⟩ := (mem_storedNames ho ht hns hplain hfrom).1 hk
      have hkey := hs.key_of_find (hplain k d hd) he
      have hseen := hs.agrees k (hplain k d hd)
      rw [he] at hseen
      obtain ⟨hmap, -⟩ := filter_eq_some_iff.1 hseen
      rw [hd] at hmap
      cases hmap
      subst hkey
      obtain ⟨hget, hlive⟩ := KeyValueMap.find_eq_some.1 he
      exact ⟨hget, hcovers, hafter, hlive⟩

/-- What becomes of a store whose entries are read: it still shows the map, and nothing is new. -/
structure Reads (t : TenantId) (name : Utf16) (record : StoredCollection) (D : Dates)
    (since : Utf16 → ℤ) (m : KeyValueMap) (o store : Objects Record) : Prop where
  serves : Serves t name record store
  shows : Shows D name since (findById t store name) m
  fewer : ∀ id d, findById t store name id = some d → findById t o name id = some d

variable (host after) in
/-- Entries read under some names are what the map finds there, up to one more than a page takes. -/
theorem visitEntries_does (ht : TenantOk t) (hname : isName name = true) (hr : Standalone record)
    (limit : ℕ) (identities : List (Utf16 × Seq)) (hk : ∀ i ∈ identities, Legible i.1)
    (hserves : Serves t name record o) (hs : Shows D name visits (findById t o name) m)
    (hfound : found.length ≤ limit) :
    ∃ store found' after', visitEntries host t D name visits limit identities found after o =
        (store, .ok (found', after')) ∧ Reads t name record D visits m o store ∧
      (limit < found'.length ∧ found' = (found ++ identities.filterMap fun i =>
          m.find D (visits i.1) i.1).take (limit + 1) ∨
        found'.length ≤ limit ∧ (found' = found ++ identities.filterMap fun i =>
          m.find D (visits i.1) i.1) ∧ after' = (identities.getLast?.map Prod.fst).or after) := by
  induction identities generalizing o found after with
  | nil =>
    refine ⟨o, found, after, rfl, ⟨hserves, hs, fun _ _ h => h⟩, Or.inr ⟨hfound, ?_, rfl⟩⟩
    rw [filterMap_nil, append_nil]
  | cons i rest ih =>
    obtain ⟨store, hget, hserves', hs', hfewer⟩ := getEntry_does host ht hname hr hserves hs
      (hk i mem_cons_self) rfl 7
    rw [visitEntries, hget]
    dsimp only
    have hcons : found ++ (i :: rest).filterMap (fun i => m.find D (visits i.1) i.1) =
        (found ++ (m.find D (visits i.1) i.1).toList) ++
          rest.filterMap fun i => m.find D (visits i.1) i.1 := by
      rw [filterMap_cons, append_assoc]
      cases m.find D (visits i.1) i.1 <;> rfl
    rw [hcons]
    have hlength : (found ++ (m.find D (visits i.1) i.1).toList).length ≤ limit + 1 := by
      rw [length_append]
      cases m.find D (visits i.1) i.1 with
      | none => exact hfound.trans (Nat.le_succ _)
      | some e => exact Nat.succ_le_succ hfound
    split_ifs with hmore
    · refine ⟨store, _, _, rfl, ⟨hserves', hs', hfewer⟩, Or.inl ⟨hmore, ?_⟩⟩
      rw [take_append_of_le_length hmore, take_of_length_le hlength]
    · obtain ⟨store', found', after', hvisit, hreads, hcases⟩ := ih (some i.1)
        (fun i hi => hk i (mem_cons_of_mem _ hi)) hserves' hs' (not_lt.1 hmore)
      refine ⟨store', found', after', hvisit, ⟨hreads.serves, hreads.shows, fun id d hd =>
        hfewer id d (hreads.fewer id d hd)⟩, hcases.imp id fun h => ⟨h.1, h.2.1, ?_⟩⟩
      rw [h.2.2]
      cases hrest : rest.getLast? with
      | none =>
        rw [List.getLast?_eq_none_iff.1 hrest]
        rfl
      | some last =>
        rw [List.getLast?_cons, hrest]
        rfl

lemma storedNames_drop (ho : Kept o) (ht : TenantOk t) (hns : Plain (documentNs t name))
    (hplain : LegibleKeys t name o) (hfrom : ∀ a ∈ after, Legible a) {n : ℕ} {last : Utf16}
    (hlast : ((storedNames t name options after o).take n).getLast? = some last) :
    storedNames t name options (some last) o = (storedNames t name options after o).drop n := by
  have hsorted := names_pairwise (options.identities (documentNs t name) after 0)
    ho ht hns hplain rfl
  have hsplit := take_append_drop n (storedNames t name options after o)
  have hmem : last ∈ (storedNames t name options after o).take n := mem_of_getLast? hlast
  obtain ⟨front, hfront⟩ := List.getLast?_eq_some_iff.1 hlast
  have hsorted' : ((storedNames t name options after o).take n ++
      (storedNames t name options after o).drop n).Pairwise (Precedes options.desc) := by
    rw [hsplit]
    exact hsorted
  obtain ⟨hfirst, hrest, hacross⟩ := pairwise_append.1 hsorted'
  refine eq_of_precedes id
    (names_pairwise (options.identities (documentNs t name) (some last) 0)
      ho ht hns hplain rfl) hrest fun k => ?_
  obtain ⟨d₀, hd₀, -, hafter₀⟩ :=
    (mem_storedNames ho ht hns hplain hfrom).1 (mem_of_mem_take hmem)
  have hlegible : ∀ a ∈ some last, Legible a := by
    intro a ha
    cases ha
    exact hplain last d₀ hd₀
  rw [mem_storedNames ho ht hns hplain hlegible]
  constructor
  · rintro ⟨d, hd, hcovers, hlt⟩
    have hlt := hlt last rfl
    have hk : k ∈ storedNames t name options after o := (mem_storedNames ho ht hns hplain hfrom).2
      ⟨d, hd, hcovers, fun a ha => (hafter₀ a ha).trans hlt⟩
    rw [← hsplit] at hk
    rcases mem_append.1 hk with hk | hk
    · exfalso
      rw [hfront] at hk hfirst
      rcases mem_append.1 hk with hk | hk
      · exact Precedes.irrefl (hlt.trans ((pairwise_append.1 hfirst).2.2 k hk last mem_cons_self))
      · rw [mem_singleton.1 hk] at hlt
        exact Precedes.irrefl hlt
    · exact hk
  · intro hk
    obtain ⟨d, hd, hcovers, -⟩ := (mem_storedNames ho ht hns hplain hfrom).1 (mem_of_mem_drop hk)
    refine ⟨d, hd, hcovers, fun a ha => ?_⟩
    cases ha
    exact hacross last hmem k hk

variable (options after) in
lemma storedNames_fewer (ho : Kept o) (ht : TenantOk t) (hns : Plain (documentNs t name))
    (hplain : LegibleKeys t name o) (hfrom : ∀ a ∈ after, Legible a) {store : Objects Record} (hkept : Kept store)
    (hfewer : ∀ id d, findById t store name id = some d → findById t o name id = some d) :
    (storedNames t name options after store).length ≤ (storedNames t name options after o).length := by
  have hplain' : LegibleKeys t name store := fun id d hd => hplain id d (hfewer id d hd)
  refine List.Subperm.length_le (subperm_of_subset ?_ fun k hk => ?_)
  · refine List.Pairwise.imp ?_ (names_pairwise
      (options.identities (documentNs t name) after 0) hkept ht hns hplain' rfl)
    rintro a b hab rfl
    exact Precedes.irrefl hab
  · obtain ⟨d, hd, hcovers⟩ := (mem_storedNames hkept ht hns hplain' hfrom).1 hk
    exact (mem_storedNames ho ht hns hplain hfrom).2 ⟨d, hfewer k d hd, hcovers⟩

lemma length_storedNames (o : Objects Record) :
    (storedNames t name options after o).length ≤ o.held.entries.length := by
  unfold storedNames IdentityScan.names
  rw [length_map]
  refine (length_filter_le _ _).trans ?_
  rw [length_map]
  have hle : ((identityIndex o).between (options.identities (documentNs t name) after 0).range.1
      (options.identities (documentNs t name) after 0).range.2).length ≤ o.held.entries.length :=
    (length_filter_le _ _).trans
      ((OrderedMap.length_ofList _).trans (length_filterMap_le _ _))
  split_ifs
  · rw [length_reverse]
    exact hle
  · exact hle

lemma namesAtOnce_pos (limit found : ℕ) : 0 < namesAtOnce limit found := by
  unfold namesAtOnce
  omega

lemma namesAtOnce_anti {limit found found' : ℕ} (h : found ≤ found') :
    namesAtOnce limit found' ≤ namesAtOnce limit found := by
  unfold namesAtOnce
  omega

variable (host options after) in
lemma scanEntries_does (ht : TenantOk t) (hname : isName name = true) (hr : Standalone record)
    (hns : Plain (documentNs t name)) (limit : ℕ) (fuel : ℕ)
    (hserves : Serves t name record o) (hs : Shows D name visits (findById t o name) m)
    (hfrom : ∀ a ∈ after, Legible a) (hfuel : (storedNames t name options after o).length < fuel)
    (hfound : found.length ≤ limit) :
    ∃ store, scanEntries host t D name visits options limit fuel found after o =
        (store, .ok ((found ++ m.aliveIn D visits options after).take (limit + 1))) ∧
      Reads t name record D visits m o store := by
  induction fuel generalizing o found after with
  | zero => exact absurd hfuel (Nat.not_lt_zero _)
  | succ fuel ih =>
    have hplain : LegibleKeys t name o := fun id d hd => (hs.own id d hd).2.2
    have halive := aliveIn_eq options after hserves.kept ht hns hs hfrom
    have hpage : (scanIdentities o (options.identities (documentNs t name) after
        (namesAtOnce limit found.length))).map Prod.fst =
        (storedNames t name options after o).take (namesAtOnce limit found.length) :=
      map_scanIdentities hserves.kept ht hns hplain rfl (by
        show namesAtOnce limit found.length ≤ 1000
        exact min_le_left _ _)
    unfold scanEntries
    dsimp only
    have hasked : scanIdentities o {
        ns := documentNs t name, pre := options.pre, lower := options.lower,
        upper := options.upper, after, desc := options.desc,
        limit := namesAtOnce limit found.length } = scanIdentities o
          (options.identities (documentNs t name) after (namesAtOnce limit found.length)) := rfl
    rw [hasked]
    generalize scanIdentities o (options.identities (documentNs t name) after
      (namesAtOnce limit found.length)) = identities at hpage ⊢
    generalize hnames : storedNames t name options after o = names at hpage halive hfuel
    have hpos := namesAtOnce_pos limit found.length
    have hanti : ∀ {found' : List KeyValueEntry}, found.length ≤ found'.length →
        namesAtOnce limit found'.length ≤ namesAtOnce limit found.length := namesAtOnce_anti
    generalize namesAtOnce limit found.length = atOnce at hpage hpos hanti ⊢
    split_ifs with hnone
    · -- no names are left, so nothing is
      have hnil : names = [] := by
        rw [hnone, map_nil] at hpage
        rcases take_eq_nil_iff.1 hpage.symm with h | h
        · exact absurd h hpos.ne'
        · exact h
      refine ⟨o, ?_, hserves, hs, fun _ _ h => h⟩
      rw [halive, hnil, filterMap_nil, append_nil,
        take_of_length_le (hfound.trans (Nat.le_succ _))]
    · have hkeys : ∀ i ∈ identities, Legible i.1 := by
        intro i hi
        have hmem : i.1 ∈ names.take atOnce := hpage ▸ List.mem_map_of_mem hi
        rw [← hnames] at hmem
        exact legible_of_mem hserves.kept ht hns hplain hfrom (mem_of_mem_take hmem)
      obtain ⟨store, found', after', hvisit, hreads, hcases⟩ := visitEntries_does host
        after ht hname hr limit identities hkeys hserves hs hfound
      rw [hvisit]
      have hread : (identities.filterMap fun i => m.find D (visits i.1) i.1) =
          (names.take atOnce).filterMap fun k => m.find D (visits k) k := by
        rw [← hpage, filterMap_map]
        rfl
      have hsplit : m.aliveIn D visits options after =
          ((names.take atOnce).filterMap fun k => m.find D (visits k) k) ++
            (names.drop atOnce).filterMap fun k => m.find D (visits k) k := by
        rw [halive, ← filterMap_append, take_append_drop]
      rw [hread] at hcases
      dsimp only
      rcases hcases with ⟨hmore, htake⟩ | ⟨hless, hall, hlast⟩
      · rw [if_pos (Or.inl hmore)]
        refine ⟨store, ?_, hreads⟩
        rw [hsplit, ← append_assoc, take_append_of_le_length, htake]
        rw [htake] at hmore
        exact hmore.trans_le (length_take_le' _ _)
      · split_ifs with hshort
        · -- fewer names than asked for are all there were
          have hgrown : found.length ≤ found'.length := by
            rw [hall, length_append]
            exact Nat.le_add_right _ _
          have hend : identities.length < atOnce :=
            (hshort.resolve_left (not_lt.2 hless)).trans_le (hanti hgrown)
          have hdrop : names.drop atOnce = [] := by
            rw [← length_map (f := Prod.fst), hpage, length_take] at hend
            exact drop_eq_nil_iff.2 (by omega)
          refine ⟨store, ?_, hreads⟩
          rw [hsplit, hdrop, filterMap_nil, append_nil, ← hall,
            take_of_length_le (hless.trans (Nat.le_succ _))]
        · obtain ⟨last, hlast'⟩ : ∃ last, identities.getLast? = some last :=
            ⟨_, List.getLast?_eq_some_getLast hnone⟩
          have hafter : after' = some last.1 := by
            rw [hlast, hlast']
            rfl
          have hpageLast : ((storedNames t name options after o).take atOnce).getLast? = some last.1 := by
            rw [hnames, ← hpage, List.getLast?_map, hlast']
            rfl
          have hrest := storedNames_drop hserves.kept ht hns hplain hfrom hpageLast
          rw [hnames] at hrest
          have hlegible : ∀ a ∈ some last.1, Legible a := by
            intro a ha
            cases ha
            exact hkeys last (mem_of_getLast? hlast')
          have hfewer := storedNames_fewer options (some last.1) hserves.kept ht hns hplain hlegible
            hreads.serves.kept hreads.fewer
          rw [hrest, length_drop] at hfewer
          have hsome : 0 < names.length := by
            have hlength := congrArg List.length hpage
            have := length_pos_of_ne_nil hnone
            rw [length_map, length_take] at hlength
            omega
          subst hafter
          have hleft : (storedNames t name options (some last.1) store).length < fuel := by omega
          obtain ⟨store', hscan, hreads'⟩ := ih (some last.1) hreads.serves hreads.shows hlegible hleft
            hless
          refine ⟨store', ?_, hreads'.serves, hreads'.shows, fun id d hd =>
            hreads.fewer id d (hreads'.fewer id d hd)⟩
          rw [hscan, aliveIn_eq options (some last.1) hserves.kept ht hns hs hlegible, hrest, hall, hsplit,
            append_assoc]

end

end Zelavis.Db
