import Zelavis.Db.KeyValueScans

/-!
# Calls of a namespace, as calls of a map
-/

namespace Zelavis.Db

open Lib List

variable {options : KeyValueScanOptions} {after : Option Utf16}

/-! ## Pages -/

lemma pageLimit_pos {value : Option JsNumber} {limit : ℕ} (h : pageLimit value = .ok limit) :
    0 < limit := by
  unfold pageLimit at h
  cases value with
  | none =>
    cases h
    decide
  | some value =>
    dsimp only at h
    cases hint : value.integer? with
    | none =>
      rw [hint] at h
      cases h
    | some z =>
      rw [hint] at h
      dsimp only at h
      split_ifs at h with hrange
      cases h
      omega

variable {operations : List KeyValueWrite} {ws : List (KeyValueWrite × Expires)} {now : ℤ}
  {last : KeyValueEntry} {all : List KeyValueEntry} {since : Utf16 → ℤ} {fault : KeyValueError}

section

variable {host : Host} {t : TenantId} {o : Objects Record} {name : Utf16}
  {record : StoredCollection} {D : Dates} {m : KeyValueMap} {visits : Utf16 → ℤ}

lemma Reads.trans {since since' : Utf16 → ℤ} {store store' : Objects Record}
    (h : Reads t name record D since m o store) (h' : Reads t name record D since' m store store') :
    Reads t name record D since' m o store' where
  serves := h'.serves
  shows := h'.shows
  fewer := fun id d hd => h.fewer id d (h'.fewer id d hd)

variable (host) in
lemma scanPage_does (ht : TenantOk t) (hname : isName name = true) (hr : Standalone record)
    (hns : Plain (documentNs t name)) (options : KeyValueScanOptions)
    (hserves : Serves t name record o) (hs : Shows D name visits (findById t o name) m)
    (hfrom : ∀ cursor ∈ options.after, Legible cursor.key) :
    ∃ store, scanPage host t D name visits options o = (store, m.scan D name visits options) ∧
      Reads t name record D visits m o store := by
  unfold scanPage KeyValueMap.scan
  cases hlimit : pageLimit options.limit with
  | error fault => exact ⟨o, rfl, hserves, hs, fun _ _ h => h⟩
  | ok limit =>
    dsimp only
    split_ifs with hcursor
    · exact ⟨o, rfl, hserves, hs, fun _ _ h => h⟩
    · have hnone : ([] : List KeyValueEntry).length ≤ limit := Nat.zero_le limit
      have hkeys : ∀ a ∈ options.after.map CursorPayload.key, Legible a := by
        intro a ha
        obtain ⟨cursor, hcursor, rfl⟩ := Option.mem_map.1 ha
        exact hfrom cursor hcursor
      obtain ⟨store, hscan, hreads⟩ := scanEntries_does host options
        (options.after.map CursorPayload.key) ht hname hr hns limit (o.held.entries.length + 1)
        hserves hs hkeys (Nat.lt_succ_of_le (length_storedNames o)) hnone
      rw [hscan, KeyValueMap.pageOf_eq]
      refine ⟨store, ?_, hreads⟩
      dsimp only
      rw [nil_append]
      generalize m.aliveIn D visits options (options.after.map CursorPayload.key) = found
      have hpos := pageLimit_pos hlimit
      rw [take_take, Nat.min_eq_left (Nat.le_succ _), length_take]
      by_cases hmore : limit < found.length
      · have hlast : (found.take (limit + 1))[limit - 1]? = (found.take limit).getLast? := by
          rw [List.getLast?_eq_getElem?, length_take, Nat.min_eq_left hmore.le,
            List.getElem?_take_of_lt (by omega), List.getElem?_take_of_lt (by omega)]
        rw [if_pos (by omega), if_pos hmore, hlast]
      · rw [if_neg (by omega), if_neg hmore]
        rfl

/-! ## The pages of a scan -/

def followPages (host : Host) (t : TenantId) (D : Dates) (name : Utf16)
    (options : KeyValueScanOptions) :
    List (Utf16 → ℤ) → Option CursorPayload → Objects Record → Option (List KeyValueEntry)
  | [], _, _ => none
  | visits :: pages, after, o =>
    match scanPage host t D name visits { options with after } o with
    | (_, .error _) => none
    | (_, .ok (entries, none)) => some entries
    | (store, .ok (entries, some next)) =>
      (followPages host t D name options pages (some next) store).map (entries ++ ·)

def KeyValueMap.pages (D : Dates) (options : KeyValueScanOptions) (limit : ℕ)
    (visits : List (Utf16 → ℤ)) (after : Option Utf16) (m : KeyValueMap) :
    Option (List KeyValueEntry) :=
  if options.desc = true then
    Paging.follow downKey (inRange options m).reverse limit
      (after.map fun k => OrderDual.toDual (utf8 k)) (visits.map (lively D))
  else Paging.follow upKey (inRange options m) limit (after.map utf8) (visits.map (lively D))

namespace KeyValueMap

variable {options : KeyValueScanOptions} {limit : ℕ} {after : Option Utf16}
  {pages : List (Utf16 → ℤ)}

lemma pages_cons_last (h : (m.pageOf D visits options limit after).2 = none) :
    m.pages D options limit (visits :: pages) after = some (m.pageOf D visits options limit after).1 := by
  unfold KeyValueMap.pages
  unfold pageOf at h ⊢
  split_ifs at h ⊢
  · rw [map_cons, Paging.follow, h]
  · rw [map_cons, Paging.follow, h]

lemma pages_cons_next (h : (m.pageOf D visits options limit after).2 = some last) :
    m.pages D options limit (visits :: pages) after = (m.pages D options limit pages (some last.key)).map
        ((m.pageOf D visits options limit after).1 ++ ·) := by
  unfold KeyValueMap.pages
  unfold pageOf at h ⊢
  split_ifs at h ⊢
  · rw [map_cons, Paging.follow, h]
    rfl
  · rw [map_cons, Paging.follow, h]
    rfl

lemma mem_of_pageOf_next (h : (m.pageOf D visits options limit after).2 = some last) :
    last ∈ m.aliveIn D visits options after := by
  rw [pageOf_eq] at h
  split_ifs at h
  exact mem_of_mem_take (mem_of_getLast? h)

/-- The pages of a map: in the order of the scan, nothing that was expired whenever it was come to,
and everything that never was. -/
theorem pages_sound (hm : m.Keyed) (hlimit : 0 < limit) (h : m.pages D options limit pages none = some all) :
    all.Pairwise (fun a b => Precedes options.desc a.key b.key) ∧
      (∀ e ∈ all, m.get (utf8 e.key) = some e ∧ covers options e = true ∧
        ∃ visits ∈ pages, isExpired D (visits e.key) e.expiresAt = false) ∧
      ∀ e, m.get (utf8 e.key) = some e → covers options e = true →
        (∀ visits ∈ pages, isExpired D (visits e.key) e.expiresAt = false) → e ∈ all := by
  have hlively : ∀ (e : KeyValueEntry) (visits : Utf16 → ℤ),
      lively D visits e = true ↔ isExpired D (visits e.key) e.expiresAt = false := by
    intro e visits
    unfold lively
    rw [Bool.not_eq_true']
  unfold KeyValueMap.pages at h
  unfold Precedes
  split_ifs at h ⊢
  · obtain ⟨hsorted, hsound, hcomplete⟩ :=
      Paging.follow_sound (inRange_reverse_sorted hm options) hlimit h
    refine ⟨hsorted, fun e he => ?_, fun e he hcovers hnever => ?_⟩
    · obtain ⟨hmem, -, live, hlive, hseen⟩ := hsound e he
      obtain ⟨visits, hvisits, rfl⟩ := List.mem_map.1 hlive
      obtain ⟨hget, hcovers⟩ := (mem_inRange hm).1 (mem_reverse.1 hmem)
      exact ⟨hget, hcovers, visits, hvisits, (hlively e visits).1 hseen⟩
    · refine hcomplete e (mem_reverse.2 ((mem_inRange hm).2 ⟨he, hcovers⟩))
        (fun k hk => by cases hk) fun live hlive => ?_
      obtain ⟨visits, hvisits, rfl⟩ := List.mem_map.1 hlive
      exact (hlively e visits).2 (hnever visits hvisits)
  · obtain ⟨hsorted, hsound, hcomplete⟩ := Paging.follow_sound (inRange_sorted hm options) hlimit h
    refine ⟨hsorted, fun e he => ?_, fun e he hcovers hnever => ?_⟩
    · obtain ⟨hmem, -, live, hlive, hseen⟩ := hsound e he
      obtain ⟨visits, hvisits, rfl⟩ := List.mem_map.1 hlive
      obtain ⟨hget, hcovers⟩ := (mem_inRange hm).1 hmem
      exact ⟨hget, hcovers, visits, hvisits, (hlively e visits).1 hseen⟩
    · refine hcomplete e ((mem_inRange hm).2 ⟨he, hcovers⟩) (fun k hk => by cases hk)
        fun live hlive => ?_
      obtain ⟨visits, hvisits, rfl⟩ := List.mem_map.1 hlive
      exact (hlively e visits).2 (hnever visits hvisits)

lemma length_inRange_le (options : KeyValueScanOptions) (m : KeyValueMap) :
    (inRange options m).length ≤ m.entries.length := by
  refine (length_filter_le _ _).trans ?_
  rw [length_map]

lemma pages_isSome (hm : m.Keyed) (h : m.entries.length < pages.length) :
    (m.pages D options limit pages after).isSome = true := by
  have hle := length_inRange_le options m
  unfold KeyValueMap.pages
  split_ifs
  · refine Paging.follow_isSome (inRange_reverse_sorted hm options) ?_
    refine (length_filter_le _ _).trans_lt ?_
    rw [length_reverse, length_map]
    exact hle.trans_lt h
  · refine Paging.follow_isSome (inRange_sorted hm options) ?_
    refine (length_filter_le _ _).trans_lt ?_
    rw [length_map]
    exact hle.trans_lt h

end KeyValueMap

lemma Shows.legible_next {look : Utf16 → Option Document}
    (hs : Shows D name since look m) {limit : ℕ}
    (h : (m.pageOf D visits options limit after).2 = some last) : Legible last.key := by
  obtain ⟨hget, -⟩ :=
    (KeyValueMap.mem_aliveIn hs.keyed).1 (KeyValueMap.mem_of_pageOf_next h)
  exact hs.plain _ last hget

lemma sameScan_cursor (options : KeyValueScanOptions) (name key : Utf16) :
    sameScan (options.cursor name key) name options = true := by
  unfold sameScan KeyValueScanOptions.cursor
  simp

variable (host) in
lemma followPages_does (ht : TenantOk t) (hname : isName name = true) (hr : Standalone record)
    (hns : Plain (documentNs t name)) {limit : ℕ}
    (hlimit : pageLimit options.limit = .ok limit) {pages : List (Utf16 → ℤ)} {after : Option CursorPayload}
    (hafter : ∀ cursor ∈ after, sameScan cursor name options = true ∧ Legible cursor.key)
    (hlater : List.IsChain (fun v v' => ∀ k, v k ≤ v' k) (since :: pages))
    (hserves : Serves t name record o) (hs : Shows D name since (findById t o name) m) :
    followPages host t D name options pages after o =
      m.pages D options limit pages (after.map CursorPayload.key) := by
  induction pages generalizing o after since with
  | nil =>
    unfold KeyValueMap.pages
    split_ifs <;> rfl
  | cons visits pages ih =>
    obtain ⟨hle, hlater⟩ := isChain_cons_cons.1 hlater
    obtain ⟨store, hscan, hreads⟩ := scanPage_does host ht hname hr hns
      { options with after } hserves (hs.later hle) fun cursor hc => (hafter cursor hc).2
    have hpage : m.scan D name visits { options with after } =
        .ok ((m.pageOf D visits options limit (after.map CursorPayload.key)).1,
          (m.pageOf D visits options limit (after.map CursorPayload.key)).2.map
            fun e => options.cursor name e.key) := by
      unfold KeyValueMap.scan
      dsimp only
      rw [hlimit]
      dsimp only
      rw [if_neg]
      · rfl
      · cases after with
        | none => exact Bool.false_ne_true
        | some cursor =>
          have hsame : sameScan cursor name { options with after := some cursor } = true :=
            (hafter cursor rfl).1
          rw [Option.any_some, hsame]
          decide
    rw [followPages, hscan, hpage]
    cases hnext : (m.pageOf D visits options limit (after.map CursorPayload.key)).2 with
    | none => rw [KeyValueMap.pages_cons_last hnext]; rfl
    | some last =>
      rw [KeyValueMap.pages_cons_next hnext]
      have hsame : ∀ cursor ∈ some (options.cursor name last.key),
          sameScan cursor name options = true ∧ Legible cursor.key := by
        intro cursor hc
        cases hc
        exact ⟨sameScan_cursor options name last.key, hs.legible_next hnext⟩
      rw [Option.map_some]
      dsimp only
      rw [ih hsame hlater hreads.serves hreads.shows]
      rfl

/-! ## How many entries there are -/

lemma storedNames_next (ht : TenantOk t) (hns : Plain (documentNs t name)) (ho : Kept o)
    (hs : Shows D name visits (findById t o name) m) {store : Objects Record}
    (hreads : Reads t name record D visits m o store) {e : KeyValueEntry}
    (hfrom : ∀ a ∈ after, Legible a) (he : e ∈ m.aliveIn D visits options after) :
    (storedNames t name options (some e.key) store).length < (storedNames t name options after o).length := by
  have hplain : LegibleKeys t name o := fun id d hd => (hs.own id d hd).2.2
  have hplain' : LegibleKeys t name store := fun id d hd => (hreads.shows.own id d hd).2.2
  have hname : e.key ∈ storedNames t name options after o := by
    rw [aliveIn_eq options after ho ht hns hs hfrom] at he
    obtain ⟨k, hk, hfind⟩ := mem_filterMap.1 he
    rw [hs.key_of_find (legible_of_mem ho ht hns hplain hfrom hk) hfind]
    exact hk
  have hnext : ∀ a ∈ some e.key, Legible a := by
    intro a ha
    cases ha
    exact legible_of_mem ho ht hns hplain hfrom hname
  obtain ⟨-, -, -, hafter⟩ := (mem_storedNames ho ht hns hplain hfrom).1 hname
  -- the key of the entry is among the names before, and not among those past it
  have hcons : (e.key :: storedNames t name options (some e.key) store).Subperm
      (storedNames t name options after o) := by
    refine subperm_of_subset (nodup_cons.2 ⟨fun hself => ?_, ?_⟩) fun k hk => ?_
    · obtain ⟨-, -, -, hlt⟩ := (mem_storedNames hreads.serves.kept ht hns hplain' hnext).1 hself
      exact Precedes.irrefl (hlt e.key rfl)
    · refine List.Pairwise.imp ?_ (names_pairwise
        (options.identities (documentNs t name) (some e.key) 0) hreads.serves.kept ht hns hplain' rfl)
      rintro a b hab rfl
      exact Precedes.irrefl hab
    · rcases mem_cons.1 hk with rfl | hk
      · exact hname
      · obtain ⟨d, hd, hcovers, hlt⟩ := (mem_storedNames hreads.serves.kept ht hns hplain' hnext).1 hk
        exact (mem_storedNames ho ht hns hplain hfrom).2 ⟨d, hreads.fewer k d hd, hcovers,
          fun a ha => (hafter a ha).trans (hlt e.key rfl)⟩
  exact hcons.length_le

def pagesFrom (visits : ℕ → Utf16 → ℤ) (place fuel : ℕ) : List (Utf16 → ℤ) :=
  (List.range fuel).map fun i => visits (place + i)

lemma pagesFrom_succ (visits : ℕ → Utf16 → ℤ) (place fuel : ℕ) :
    pagesFrom visits place (fuel + 1) = visits place :: pagesFrom visits (place + 1) fuel := by
  unfold pagesFrom
  rw [range_succ_eq_map, map_cons, List.map_map]
  refine congrArg _ (map_congr_left fun i _ => ?_)
  rw [Function.comp_apply, Nat.add_assoc, Nat.add_comm 1 i]

variable (host) in
lemma countEntries_pages (ht : TenantOk t) (hname : isName name = true) (hr : Standalone record)
    (hns : Plain (documentNs t name)) {visits : ℕ → Utf16 → ℤ} {last : ℤ}
    (hmono : ∀ place k, visits place k ≤ visits (place + 1) k)
    (hlast : ∀ place k, visits place k ≤ last) (fuel place : ℕ) {after : Option CursorPayload}
    (hafter : ∀ cursor ∈ after, sameScan cursor name {} = true ∧ Legible cursor.key) (total : ℕ)
    (hserves : Serves t name record o) (hs : Shows D name (visits place) (findById t o name) m)
    (hfuel : (storedNames t name {} (after.map CursorPayload.key) o).length < fuel) :
    ∃ store all, countEntries host t D name visits fuel place after total o =
        (store, .ok (total + all.length)) ∧
      m.pages D {} 1000 (pagesFrom visits place fuel) (after.map CursorPayload.key) = some all ∧
      Reads t name record D (fun _ => last) m o store := by
  induction fuel generalizing o place after total with
  | zero => exact absurd hfuel (Nat.not_lt_zero _)
  | succ fuel ih =>
    obtain ⟨store, hscan, hreads⟩ := scanPage_does host ht hname hr hns
      { limit := some (.ofNat 1000), after } hserves hs fun cursor hc => (hafter cursor hc).2
    have hpage : m.scan D name (visits place) { limit := some (.ofNat 1000), after } =
        .ok ((m.pageOf D (visits place) {} 1000 (after.map CursorPayload.key)).1,
          (m.pageOf D (visits place) {} 1000 (after.map CursorPayload.key)).2.map
            fun e => KeyValueScanOptions.cursor {} name e.key) := by
      have hlimit : pageLimit (some (.ofNat 1000)) = .ok 1000 := rfl
      unfold KeyValueMap.scan
      dsimp only
      rw [hlimit]
      dsimp only
      rw [if_neg]
      · rfl
      · cases after with
        | none => exact Bool.false_ne_true
        | some cursor =>
          have hsame : sameScan cursor name { limit := some (.ofNat 1000), after := some cursor } =
            true := (hafter cursor rfl).1
          rw [Option.any_some, hsame]
          decide
    rw [countEntries, hscan, hpage, pagesFrom_succ]
    have hlater : ∀ {since : Utf16 → ℤ}, (∀ k, since k ≤ last) → ∀ {before after : Objects Record},
        Reads t name record D since m before after →
        Reads t name record D (fun _ => last) m before after :=
      fun hle _ _ h => ⟨h.serves, h.shows.later hle, h.fewer⟩
    cases hnext : (m.pageOf D (visits place) {} 1000 (after.map CursorPayload.key)).2 with
    | none =>
      refine ⟨store, _, rfl, KeyValueMap.pages_cons_last hnext, hlater (hlast place) hreads⟩
    | some entry =>
      have hsame : ∀ cursor ∈ some (KeyValueScanOptions.cursor {} name entry.key),
          sameScan cursor name {} = true ∧ Legible cursor.key := by
        intro cursor hc
        cases hc
        exact ⟨sameScan_cursor {} name entry.key, hs.legible_next hnext⟩
      have hkeys : ∀ a ∈ after.map CursorPayload.key, Legible a := by
        intro a ha
        obtain ⟨cursor, hcursor, rfl⟩ := Option.mem_map.1 ha
        exact (hafter cursor hcursor).2
      have hfewer := storedNames_next ht hns hserves.kept hs hreads hkeys
        (KeyValueMap.mem_of_pageOf_next hnext)
      obtain ⟨store', all, hcount, hall, hreads'⟩ := ih (place + 1) hsame
        (total + (m.pageOf D (visits place) {} 1000 (after.map CursorPayload.key)).1.length)
        hreads.serves (hreads.shows.later (hmono place)) (hfewer.trans_le (Nat.le_of_lt_succ hfuel))
      refine ⟨store', (m.pageOf D (visits place) {} 1000 (after.map CursorPayload.key)).1 ++ all,
        ?_, ?_, (hlater (hlast place) hreads).trans hreads'⟩
      · rw [length_append, ← Nat.add_assoc]
        exact hcount
      · rw [KeyValueMap.pages_cons_next hnext]
        rw [show some entry.key = (some (KeyValueScanOptions.cursor {} name entry.key)).map
          CursorPayload.key from rfl, hall]
        rfl

lemma pages_le {visits : ℕ → Utf16 → ℤ} {limit fuel fuel' : ℕ} (hle : fuel ≤ fuel')
    (h : m.pages D options limit (pagesFrom visits 0 fuel) after = some all) :
    m.pages D options limit (pagesFrom visits 0 fuel') after = some all := by
  have hfewer : pagesFrom visits 0 fuel <+: pagesFrom visits 0 fuel' := by
    refine List.IsPrefix.map _ (prefix_iff_eq_take.2 ?_)
    rw [length_range, take_range, Nat.min_eq_left hle]
  unfold KeyValueMap.pages at h ⊢
  split_ifs at h ⊢
  · exact Paging.follow_mono (hfewer.map _) h
  · exact Paging.follow_mono (hfewer.map _) h

variable (host) in
lemma countEntries_does (ht : TenantOk t) (hname : isName name = true) (hr : Standalone record)
    (hns : Plain (documentNs t name)) {visits : ℕ → Utf16 → ℤ} {last : ℤ}
    (hmono : ∀ place k, visits place k ≤ visits (place + 1) k) (hlast : ∀ place k, visits place k ≤ last)
    (hserves : Serves t name record o) (hs : Shows D name (visits 0) (findById t o name) m) :
    ∃ store, countEntries host t D name visits (o.held.entries.length + 1) 0 none 0 o =
        (store, .ok (m.size D visits)) ∧ Reads t name record D (fun _ => last) m o store := by
  have hnone : ∀ cursor ∈ (none : Option CursorPayload),
      sameScan cursor name {} = true ∧ Legible cursor.key := fun cursor hc => by cases hc
  obtain ⟨store, all, hcount, hall, hreads⟩ := countEntries_pages host ht hname hr hns hmono hlast
    (o.held.entries.length + 1) 0 hnone 0 hserves hs (Nat.lt_succ_of_le (length_storedNames o))
  refine ⟨store, ?_, hreads⟩
  have hsize : m.size D visits =
      ((m.pages D {} 1000 (pagesFrom visits 0 (m.entries.length + 1)) none).getD []).length := by
    unfold KeyValueMap.pages pagesFrom
    rw [if_neg Bool.false_ne_true, List.map_map]
    simp only [Nat.zero_add]
    rfl
  have hends : (m.pages D {} 1000 (pagesFrom visits 0 (m.entries.length + 1)) none).isSome = true := by
    refine KeyValueMap.pages_isSome hs.keyed ?_
    unfold pagesFrom
    rw [length_map, length_range]
    exact Nat.lt_succ_self _
  obtain ⟨counted, hcounted⟩ := Option.isSome_iff_exists.1 hends
  have heq : counted = all := by
    rcases Nat.le_total (m.entries.length + 1) (o.held.entries.length + 1) with hle | hle
    · exact Option.some.inj ((pages_le hle hcounted).symm.trans hall)
    · exact Option.some.inj (hcounted.symm.trans (pages_le hle hall))
  rw [hcount, hsize, hcounted, heq, Nat.zero_add]
  rfl

/-! ## Changes -/

def expirations (D : Dates) (operations : List KeyValueWrite) :
    Except KeyValueError (List (KeyValueWrite × Expires)) :=
  operations.mapM fun w => (w.expires D).map fun expires => (w, expires)

lemma mapM_operation (D : Dates) (name : Utf16) (operations : List KeyValueWrite) :
    (operations.mapM fun w => (w.expires D).map fun expires => w.operation name expires) =
      (expirations D operations).map (List.map fun w => w.1.operation name w.2) := by
  unfold expirations
  induction operations with
  | nil => rfl
  | cons w ws ih =>
    rw [mapM_cons, mapM_cons, ih]
    cases w.expires D with
    | error fault => rfl
    | ok expires =>
      cases ws.mapM fun w => (w.expires D).map fun expires => (w, expires) <;> rfl

lemma keys_expirations (h : expirations D operations = .ok ws) : ws.map Prod.fst = operations := by
  unfold expirations at h
  induction operations generalizing ws with
  | nil =>
    cases h
    rfl
  | cons w operations ih =>
    rw [mapM_cons] at h
    cases hw : w.expires D with
    | error fault =>
      rw [hw] at h
      cases h
    | ok expires =>
      rw [hw, Except.map, ok_bind] at h
      obtain ⟨rest, hrest, heq⟩ := bind_eq_ok_iff.1 h
      cases heq
      rw [map_cons, ih hrest]

lemma forM_validate (host : Host) (t : TenantId) (name : Utf16) (record : StoredCollection)
    (ws : List (KeyValueWrite × Expires)) :
    (ws.map fun w => w.1.operation name w.2).forM DocumentOperation.validate =
      ws.forM fun w => KeyValueMap.validate (rulesOf host t name record) w.1 := by
  induction ws with
  | nil => rfl
  | cons w ws ih =>
    have hone : (w.1.operation name w.2).validate =
        KeyValueMap.validate (rulesOf host t name record) w.1 := by
      obtain ⟨w, expires⟩ := w
      cases w with
      | set key value expectedVersion ifAbsent e => cases ifAbsent <;> rfl
      | remove key expectedVersion => rfl
    show ((w.1.operation name w.2).validate >>= fun _ =>
      (ws.map fun w => w.1.operation name w.2).forM DocumentOperation.validate) = _
    rw [hone, ih]
    rfl

def expiredIn (t : TenantId) (D : Dates) (name : Utf16) (now : ℤ) (o : Objects Record)
    (key : Utf16) : Bool := (findById t o name key).any fun d => isExpired D now d.expiresAt

def requestOf (name : Utf16) (ws : List (KeyValueWrite × Expires)) : KeyedRequest :=
  .write (ws.map fun w => w.1.operation name w.2)

lemma write_ok (h : expirations D operations = .ok ws) :
    m.write (rulesOf host t name record) D name now operations =
      Except.mapError .refused ((requestOf name ws).validate >>= fun _ =>
        m.changes (rulesOf host t name record) D name now ws) := by
  unfold KeyValueMap.write requestOf KeyedRequest.validate KeyedRequest.operations
  unfold expirations at h
  rw [h]
  dsimp only
  rw [length_map, forM_validate host t name record]
  split_ifs <;> rfl

lemma write_error (rules : KeyValueRules) (h : expirations D operations = .error fault) :
    m.write rules D name now operations = .error fault := by
  unfold KeyValueMap.write
  unfold expirations at h
  rw [h]

lemma writeEntries_ok (h : expirations D operations = .ok ws) :
    writeEntries host t D name now operations o =
      ((writeRequest host t o (D.clock now) (requestOf name ws)).1,
        (writeRequest host t o (D.clock now) (requestOf name ws)).2.mapError .refused) := by
  unfold writeEntries requestOf
  rw [mapM_operation, h]
  dsimp only [Except.map]
  generalize writeRequest host t o (D.clock now)
    (.write (ws.map fun w => w.1.operation name w.2)) = result
  obtain ⟨store, written⟩ := result
  cases written <;> rfl

lemma writeEntries_error (h : expirations D operations = .error fault) :
    writeEntries host t D name now operations o = (o, .error fault) := by
  unfold writeEntries
  rw [mapM_operation, h]
  rfl

variable (host) in
lemma writeEntries_does (ht : TenantOk t) (hname : isName name = true) (hr : Standalone record)
    (hserves : Serves t name record o) (hs : Shows D name (fun _ => now) (findById t o name) m)
    (hk : ∀ w ∈ operations, Legible w.key) (hmeets : ∀ ws, expirations D operations = .ok ws →
      meetsNothing D now (expiredIn t D name now o) ws = true) :
    Serves t name record (writeEntries host t D name now operations o).1 ∧
      (∀ fault, m.write (rulesOf host t name record) D name now operations = .error fault →
        (writeEntries host t D name now operations o).2 = .error fault ∧ Shows D name (fun _ => now)
          (findById t (writeEntries host t D name now operations o).1 name) m) ∧
      ∀ m' answers, m.write (rulesOf host t name record) D name now operations = .ok (m', answers) →
        ∃ written, (writeEntries host t D name now operations o).2 = .ok written ∧
          written.map writtenOf = answers ∧ Shows D name (fun _ => now)
            (findById t (writeEntries host t D name now operations o).1 name) m' := by
  cases hexpiries : expirations D operations with
  | error fault =>
    rw [write_error _ hexpiries, writeEntries_error hexpiries]
    refine ⟨hserves, fun fault' h => ?_, fun m' answers h => ?_⟩
    · cases h
      exact ⟨rfl, hs⟩
    · cases h
  | ok ws =>
    rw [write_ok hexpiries, writeEntries_ok hexpiries]
    cases hvalid : (requestOf name ws).validate with
    | error fault =>
      have hrequest : writeRequest host t o (D.clock now) (requestOf name ws) = (o, .error fault) := by
        unfold writeRequest
        rw [hvalid]
      rw [hrequest]
      refine ⟨hserves, fun fault' h => ?_, fun m' answers h => ?_⟩
      · cases h
        exact ⟨rfl, hs⟩
      · cases h
    | ok _ =>
      have hkeys : ∀ w ∈ ws, Legible w.1.key := by
        intro w hw
        refine hk w.1 ?_
        rw [← keys_expirations hexpiries]
        exact List.mem_map_of_mem hw
      obtain ⟨hserves', hrefused, hdone⟩ := writeRequest_does host ht hname hr hserves ws hs
        (hmeets ws hexpiries) hkeys (requestOf name ws) rfl hvalid
      rw [ok_bind]
      refine ⟨hserves', fun fault h => ?_, fun m' answers h => ?_⟩
      · cases hchanges : m.changes (rulesOf host t name record) D name now ws with
        | error fault' =>
          rw [hchanges] at h
          cases h
          obtain ⟨hresult, hshows⟩ := hrefused fault' hchanges
          exact ⟨by rw [hresult]; rfl, hshows⟩
        | ok after =>
          rw [hchanges] at h
          cases h
      · cases hchanges : m.changes (rulesOf host t name record) D name now ws with
        | error fault' =>
          rw [hchanges] at h
          cases h
        | ok after =>
          rw [hchanges] at h
          cases h
          obtain ⟨written, hresult, hanswers, hshows⟩ := hdone m' answers hchanges
          exact ⟨written, by rw [hresult]; rfl, hanswers, hshows⟩

/-! ## Calls -/

/-- A call that names keys which are read as they were written, and none of whose changes meets an
expired entry: neither one the store has, nor one a change before it in the batch left expired. -/
def KeyValueCall.Steady (t : TenantId) (D : Dates) (name : Utf16) (now : ℤ) (o : Objects Record) :
    KeyValueCall → Prop
  | .get key => Legible key
  | .has key => Legible key
  | .set key _ _ _ _ => Legible key ∧ expiredIn t D name now o key = false
  | .remove key _ => Legible key ∧ expiredIn t D name now o key = false
  | .write operations => (∀ w ∈ operations, Legible w.key) ∧ ∀ ws, expirations D operations = .ok ws →
      meetsNothing D now (expiredIn t D name now o) ws = true
  | .scan options => ∀ cursor ∈ options.after, Legible cursor.key
  | .size => True

lemma meetsNothing_single (w : KeyValueWrite) (h : expiredIn t D name now o w.key = false) :
    ∀ ws, expirations D [w] = .ok ws → meetsNothing D now (expiredIn t D name now o) ws = true := by
  intro ws hws
  have hkeys := keys_expirations hws
  obtain ⟨w', rfl, rfl⟩ := map_eq_singleton_iff.1 hkeys
  unfold meetsNothing
  rw [h]
  rfl

/-- The moments of a call, from one on: pages come to a key one after the other, and the call ends
after all of them. -/
structure Moments.From (τ : ℤ) (moments : Moments) : Prop where
  begins : τ ≤ moments.now
  visited : ∀ key, moments.now ≤ moments.visits 0 key
  later : ∀ page key, moments.visits page key ≤ moments.visits (page + 1) key
  ends : ∀ page key, moments.visits page key ≤ moments.last

variable (host) in
/-- A steady call answers what the map does, and leaves a store that shows the map it leaves. -/
theorem KeyValueCall.run_does (ht : TenantOk t) (hname : isName name = true)
    (hr : Standalone record) (hns : Plain (documentNs t name)) {τ : ℤ} {moments : Moments}
    (hmoments : moments.From τ) (hserves : Serves t name record o)
    (hs : Shows D name (fun _ => τ) (findById t o name) m) {call : KeyValueCall}
    (hsteady : call.Steady t D name moments.now o) : (call.run host t D name moments o).2 =
        (m.run (rulesOf host t name record) D name moments call).2 ∧
      Serves t name record (call.run host t D name moments o).1 ∧
      Shows D name (fun _ => moments.last) (findById t (call.run host t D name moments o).1 name)
        (m.run (rulesOf host t name record) D name moments call).1 := by
  have hnow : moments.now ≤ moments.last := (hmoments.visited []).trans (hmoments.ends 0 [])
  have hs' : Shows D name (fun _ => moments.now) (findById t o name) m :=
    hs.later fun _ => hmoments.begins
  cases call with
  | get | has =>
    obtain ⟨store, hget, hserves', hshows, -⟩ :=
      getEntry_does host ht hname hr hserves hs' hsteady rfl 7
    simp only [KeyValueCall.run, KeyValueMap.run, hget]
    exact ⟨rfl, hserves', hshows.later fun _ => hnow⟩
  | set key value expectedVersion ifAbsent expires =>
    obtain ⟨hk, hfresh⟩ := hsteady
    have hkeys : ∀ w ∈ [KeyValueWrite.set key value expectedVersion ifAbsent expires], Legible w.key :=
      forall_mem_singleton.2 hk
    obtain ⟨hserves', hrefused, hdone⟩ := writeEntries_does host ht hname hr hserves hs' hkeys
      (meetsNothing_single (.set key value expectedVersion ifAbsent expires) hfresh)
    simp only [KeyValueCall.run, KeyValueMap.run]
    generalize writeEntries host t D name moments.now
      [.set key value expectedVersion ifAbsent expires] o = result at hserves' hrefused hdone ⊢
    obtain ⟨store, result⟩ := result
    cases hwrite : m.write (rulesOf host t name record) D name moments.now
        [.set key value expectedVersion ifAbsent expires] with
    | error fault =>
      obtain ⟨rfl, hshows⟩ := hrefused fault hwrite
      exact ⟨rfl, hserves', hshows.later fun _ => hnow⟩
    | ok after =>
      obtain ⟨m', answers⟩ := after
      obtain ⟨written, rfl, rfl, hshows⟩ := hdone m' answers hwrite
      dsimp only
      cases written with
      | nil => exact ⟨rfl, hserves', hshows.later fun _ => hnow⟩
      | cons first rest => cases first <;> exact ⟨rfl, hserves', hshows.later fun _ => hnow⟩
  | remove key expectedVersion =>
    obtain ⟨hk, hfresh⟩ := hsteady
    obtain ⟨hserves', hrefused, hdone⟩ := writeRequest_does host ht hname hr hserves
      [(.remove key expectedVersion, {})] hs' (meetsNothing_single (.remove key expectedVersion) hfresh _ rfl)
      (forall_mem_singleton.2 hk) (.delete name key expectedVersion none) rfl rfl
    simp only [KeyValueCall.run, KeyValueMap.run]
    generalize writeRequest host t o (D.clock moments.now) (.delete name key expectedVersion none) =
      result at hserves' hrefused hdone ⊢
    obtain ⟨store, result⟩ := result
    cases hremove : m.remove D name moments.now key expectedVersion with
    | error fault =>
      have hchanges : m.changes (rulesOf host t name record) D name moments.now
          [(.remove key expectedVersion, {})] = .error fault := by
        rw [KeyValueMap.changes_remove, hremove]
        rfl
      obtain ⟨rfl, hshows⟩ := hrefused fault hchanges
      exact ⟨rfl, hserves', hshows.later fun _ => hnow⟩
    | ok after =>
      obtain ⟨m', answer⟩ := after
      have hchanges : m.changes (rulesOf host t name record) D name moments.now
          [(.remove key expectedVersion, {})] = .ok (m', [answer]) := by
        rw [KeyValueMap.changes_remove, hremove]
        rfl
      obtain ⟨written, rfl, hanswers, hshows⟩ := hdone m' [answer] hchanges
      obtain ⟨first, rfl, rfl⟩ := map_eq_singleton_iff.1 hanswers
      dsimp only
      cases first <;> exact ⟨rfl, hserves', hshows.later fun _ => hnow⟩
  | write operations =>
    obtain ⟨hk, hmeets⟩ := hsteady
    obtain ⟨hserves', hrefused, hdone⟩ :=
      writeEntries_does host ht hname hr hserves hs' hk hmeets
    simp only [KeyValueCall.run, KeyValueMap.run]
    generalize writeEntries host t D name moments.now operations o = result at hserves' hrefused hdone ⊢
    obtain ⟨store, result⟩ := result
    cases hwrite : m.write (rulesOf host t name record) D name moments.now operations with
    | error fault =>
      obtain ⟨rfl, hshows⟩ := hrefused fault hwrite
      exact ⟨rfl, hserves', hshows.later fun _ => hnow⟩
    | ok after =>
      obtain ⟨m', answers⟩ := after
      obtain ⟨written, rfl, rfl, hshows⟩ := hdone m' answers hwrite
      exact ⟨rfl, hserves', hshows.later fun _ => hnow⟩
  | scan options =>
    obtain ⟨store, hscan, hreads⟩ := scanPage_does host ht hname hr hns options hserves
      (hs'.later hmoments.visited) hsteady
    simp only [KeyValueCall.run, KeyValueMap.run, hscan]
    exact ⟨rfl, hreads.serves, hreads.shows.later (hmoments.ends 0)⟩
  | size =>
    obtain ⟨store, hcount, hreads⟩ := countEntries_does host ht hname hr hns hmoments.later
      hmoments.ends hserves (hs'.later hmoments.visited)
    simp only [KeyValueCall.run, KeyValueMap.run, hcount]
    exact ⟨rfl, hreads.serves, hreads.shows⟩

end

end Zelavis.Db
