import Zelavis.Platform.AppDataPlacement

/-!
# The record of reservations, over every run

Any number of requests from any projects, one step at a time.
-/

namespace Zelavis.Platform.AppDataPlacement

open Lib Turns Edge Checks Doubles SystemStore List Option

variable {localeCompare : Utf16 → Utf16 → ℤ} {p : Utf16} {l : Ledger} {granted : List Reservation}
  {r : Request} {a : Allocation} {existing : Existing} {e : Reservation}

/-! ## A record -/

def ofProject (p : Utf16) (granted : List Reservation) : List Reservation :=
  granted.filter (·.projectId = p)

lemma Ledger.isAccepted_iff : l.isAccepted p = true ↔ positiveInteger l.revision = true ∧
    (∀ id ∈ l.usedOperationIds, validId id = true) ∧ l.usedOperationIds.Nodup ∧
    (∀ e ∈ l.reservations, e.isDecoded = true ∧ e.projectId = p ∧ e.operationId ∈ l.usedOperationIds) ∧
    (l.reservations.map Reservation.shardId).Nodup ∧ (l.reservations.map Reservation.operationId).Nodup := by
  simp only [Ledger.isAccepted, Bool.and_eq_true, List.all_eq_true, decide_eq_true_eq, contains_iff_mem]
  constructor
  · rintro ⟨⟨⟨⟨⟨⟨⟨h₁, h₂⟩, h₃⟩, h₄⟩, h₅⟩, h₆⟩, h₇⟩, h₈⟩
    exact ⟨h₁, h₂, h₃, fun e he => ⟨h₄ e he, h₅ e he, h₆ e he⟩, h₇, h₈⟩
  · rintro ⟨h₁, h₂, h₃, h₄, h₅, h₆⟩
    exact ⟨⟨⟨⟨⟨⟨⟨h₁, h₂⟩, h₃⟩, fun e he => (h₄ e he).1⟩, fun e he => (h₄ e he).2.1⟩,
      fun e he => (h₄ e he).2.2⟩, h₅⟩, h₆⟩

/-- What holds of the record of a project, by what was written. -/
structure Kept (p : Utf16) (l : Ledger) (granted : List Reservation) : Prop where
  accepted : l.isAccepted p = true
  nonempty : l.reservations ≠ []
  ranges : l.reservations.Pairwise fun x y => x.virtualRanges.Disjoint y.virtualRanges
  used : l.usedOperationIds = (ofProject p granted).map Reservation.operationId
  revision : l.revision = l.usedOperationIds.length
  subset : ∀ e ∈ l.reservations, e ∈ granted

lemma Kept.eq_of_isAccepted (h : Kept p l granted) {p' : Utf16} (h' : l.isAccepted p' = true) : p = p' := by
  obtain ⟨e, he⟩ := exists_mem_of_ne_nil _ h.nonempty
  have hp := ((Ledger.isAccepted_iff.1 h.accepted).2.2.2.1 e he).2.1
  have hp' := ((Ledger.isAccepted_iff.1 h').2.2.2.1 e he).2.1
  exact hp.symm.trans hp'

lemma Kept.append (h : Kept p l granted) (he : e.projectId ≠ p) : Kept p l (granted ++ [e]) := by
  have hsame : ofProject p (granted ++ [e]) = ofProject p granted := by
    rw [ofProject, filter_append, filter_cons_of_neg (by simpa using he), filter_nil,
      append_nil, ofProject]
  exact ⟨h.accepted, h.nonempty, h.ranges, by rw [hsame]; exact h.used, h.revision,
    fun e he => mem_append_left _ (h.subset e he)⟩

/-- What a request has seen to before it asks for a node. -/
structure Free (r : Request) (a : Allocation) (existing : Existing) : Prop where
  valid : r.isValid = true
  accepted : ∀ v, existing = some v → v.value.isAccepted r.projectId = true
  fresh : r.operationId ∉ usedOf existing
  ranges : ∀ e ∈ othersOf existing r.shardId, e.virtualRanges.Disjoint r.virtualRanges
  fits : a.fits r (othersOf existing r.shardId) = true

lemma isValid_ids (h : r.isValid = true) :
    validId r.operationId = true ∧ validId r.projectId = true ∧ validId r.shardId = true := by
  simp only [Request.isValid, Bool.and_eq_true] at h
  exact ⟨h.1.1.1.1.1.1.1.1.1.1.1, h.1.1.1.1.1.1.1.1.1.1.2, h.1.1.1.1.1.1.1.1.1.2⟩

lemma mem_othersOf {shardId : Utf16} :
    e ∈ othersOf existing shardId ↔ e ∈ reservationsOf existing ∧ e.shardId ≠ shardId := by
  rw [othersOf, mem_filter, decide_eq_true_eq]

lemma nextLedger_perm (localeCompare : Utf16 → Utf16 → ℤ) (existing : Existing) (e : Reservation) :
    (nextLedger localeCompare existing e).reservations.Perm (othersOf existing e.shardId ++ [e]) :=
  perm_insertionSort _ _

lemma revision_lt_arrayLimit {n : ℕ} (h : n < arrayLimit) : positiveInteger (n + 1) = true := by
  have hle : n + 1 ≤ maxSafeInteger := le_trans h (by decide)
  rw [positiveInteger, nonnegativeInteger, Bool.and_eq_true]
  exact ⟨decide_eq_true hle, decide_eq_true (Nat.succ_pos n)⟩

def Was (p : Utf16) (existing : Existing) (granted : List Reservation) : Prop :=
  (∀ v, existing = some v → Kept p v.value granted) ∧ (existing = none → ofProject p granted = [])

lemma Kept.next (localeCompare : Utf16 → Utf16 → ℤ) (hfree : Free r a existing)
    (hwas : Was r.projectId existing granted) (node : Node) (hlength : (usedOf existing).length < arrayLimit) :
    Kept r.projectId (nextLedger localeCompare existing (reservationOn r a existing node))
      (granted ++ [reservationOn r a existing node]) := by
  set e := reservationOn r a existing node with he
  have hperm := nextLedger_perm localeCompare existing e
  obtain ⟨hvalidOp, hvalidProject, hvalidShard⟩ := isValid_ids hfree.valid
  -- the record that was read, or none
  have hold : usedOf existing = (ofProject r.projectId granted).map Reservation.operationId ∧
      revisionOf existing = (usedOf existing).length ∧ (∀ id ∈ usedOf existing, validId id = true) ∧
      (usedOf existing).Nodup ∧
      (∀ x ∈ reservationsOf existing, x.isDecoded = true ∧ x.projectId = r.projectId ∧
        x.operationId ∈ usedOf existing ∧ x ∈ granted) ∧
      ((reservationsOf existing).map Reservation.shardId).Nodup ∧
      ((reservationsOf existing).map Reservation.operationId).Nodup ∧
      (reservationsOf existing).Pairwise fun x y => x.virtualRanges.Disjoint y.virtualRanges := by
    cases hexisting : existing with
    | none =>
      refine ⟨?_, rfl, nofun, nodup_nil, nofun, nodup_nil, nodup_nil, List.Pairwise.nil⟩
      rw [hwas.2 hexisting]
      rfl
    | some v =>
      have hkept := hwas.1 v hexisting
      obtain ⟨-, hvalid, hnodup, hres, hshards, hops⟩ := Ledger.isAccepted_iff.1 hkept.accepted
      exact ⟨hkept.used, hkept.revision, hvalid, hnodup,
        fun x hx => ⟨(hres x hx).1, (hres x hx).2.1, (hres x hx).2.2, hkept.subset x hx⟩, hshards, hops,
        hkept.ranges⟩
  obtain ⟨hused, hrevision, hvalid, hnodup, hres, hshards, hops, hranges⟩ := hold
  have hsub : (othersOf existing e.shardId).Sublist (reservationsOf existing) := filter_sublist
  have hpositive : positiveInteger (revisionOf existing + 1) = true := by
    rw [hrevision]
    exact revision_lt_arrayLimit hlength
  refine ⟨Ledger.isAccepted_iff.2 ⟨hpositive, ?_, ?_, ?_, ?_, ?_⟩, ?_, ?_, ?_, ?_, ?_⟩
  · intro id hid
    obtain hid | hid := mem_append.1 hid
    · exact hvalid id hid
    · rw [mem_singleton.1 hid]
      exact hvalidOp
  · refine nodup_append.2 ⟨hnodup, nodup_singleton _, fun x hx y hy => ?_⟩
    rw [mem_singleton.1 hy]
    rintro rfl
    exact hfree.fresh hx
  · intro x hx
    obtain hx | hx := mem_append.1 (hperm.mem_iff.1 hx)
    · obtain ⟨hdecoded, hproject, hop, -⟩ := hres x (mem_othersOf.1 hx).1
      exact ⟨hdecoded, hproject, mem_append_left _ hop⟩
    · rw [mem_singleton.1 hx]
      refine ⟨?_, rfl, mem_append_right _ (mem_singleton_self _)⟩
      rw [Reservation.isDecoded, Bool.and_eq_true, Bool.and_eq_true]
      exact ⟨⟨hvalidProject, hvalidShard⟩, hpositive⟩
  · refine (hperm.map _).nodup_iff.2 ?_
    rw [map_append, nodup_append]
    refine ⟨hshards.sublist (hsub.map _), nodup_singleton _, fun x hx y hy => ?_⟩
    obtain ⟨x', hx', rfl⟩ := List.mem_map.1 hx
    rw [mem_singleton.1 hy]
    exact (mem_othersOf.1 hx').2
  · refine (hperm.map _).nodup_iff.2 ?_
    rw [map_append, nodup_append]
    refine ⟨hops.sublist (hsub.map _), nodup_singleton _, fun x hx y hy => ?_⟩
    obtain ⟨x', hx', rfl⟩ := List.mem_map.1 hx
    rw [mem_singleton.1 hy]
    intro heq
    have hop := (hres x' (mem_othersOf.1 hx').1).2.2.1
    rw [heq] at hop
    exact hfree.fresh hop
  · intro hnil
    have := hperm.length_eq
    rw [hnil, length_append] at this
    exact absurd this (by simp)
  · have hsymm : ∀ {x y : Reservation}, x.virtualRanges.Disjoint y.virtualRanges →
        y.virtualRanges.Disjoint x.virtualRanges := by
      intro x y hxy range hy hx
      exact hxy hx hy
    refine (hperm.pairwise_iff hsymm).2 ?_
    refine pairwise_append.2 ⟨hranges.sublist hsub, pairwise_singleton _ _, fun x hx y hy => ?_⟩
    rw [mem_singleton.1 hy]
    intro range hrange hrange'
    exact hfree.ranges x hx hrange (mem_insertionSort (· ≤ ·) |>.1 hrange')
  · show usedOf existing ++ [r.operationId] = _
    have hlast : ofProject r.projectId [e] = [e] := filter_cons_of_pos (decide_eq_true rfl)
    rw [hused, ofProject, ofProject, filter_append, map_append]
    exact congrArg _ (congrArg (List.map Reservation.operationId) hlast).symm
  · show revisionOf existing + 1 = (usedOf existing ++ [r.operationId]).length
    rw [hrevision, length_append, length_singleton]
  · intro x hx
    obtain hx | hx := mem_append.1 (hperm.mem_iff.1 hx)
    · exact mem_append_left _ (hres x (mem_othersOf.1 hx).1).2.2.2
    · exact mem_append_right _ hx

/-! ## Every record and every request -/

/-- What holds of every record, and of what was written. -/
structure Whole (s : Shared) : Prop where
  kept : ∀ id v, s.records id = some v → ∃ p, recordId NAMESPACE p = some id ∧ Kept p v.value s.granted
  counted : ∀ e ∈ s.granted, ∃ id v, recordId NAMESPACE e.projectId = some id ∧ s.records id = some v ∧
    Kept e.projectId v.value s.granted

def Own (c : Call) : Prop := c.caller = c.request.projectId ∧ c.request.isValid = true

def Seen (s : Shared) (existing : Existing) : Prop := ∀ e ∈ reservationsOf existing, e ∈ s.granted

/-- What is granted was written for the request. -/
structure Granted (s : Shared) (c : Call) (e : Reservation) : Prop where
  own : c.caller = c.request.projectId
  written : e ∈ s.granted
  projectId : e.projectId = c.request.projectId
  operationId : e.operationId = c.request.operationId
  fingerprint : e.requestFingerprint = fingerprint c.request

def Apt (localeCompare : Utf16 → Utf16 → ℤ) (s : Shared) (c : Call) : Prop :=
  match c.stage with
  | .asked | .threw | .answered (.refused _ _) => True
  | .permitted | .allocated _ | .lost _ => Own c
  | .observed _ existing => Own c ∧ Seen s existing
  | .placing a existing => Own c ∧ Free c.request a existing
  | .writing a existing e next => Own c ∧ Free c.request a existing ∧
      (usedOf existing).length < arrayLimit ∧ (∃ node, e = reservationOn c.request a existing node) ∧
      next = nextLedger localeCompare existing e
  | .answered (.granted e) => Granted s c e

def Later (s s' : Shared) : Prop := s.granted <+: s'.granted

variable {s s' : Shared} {c c' : Call} {event : Event}

lemma Apt.later (h : Apt localeCompare s c) (hlater : Later s s') : Apt localeCompare s' c := by
  unfold Apt at h ⊢
  cases hstage : c.stage with
  | observed a existing =>
    rw [hstage] at h
    exact ⟨h.1, fun e he => hlater.subset (h.2 e he)⟩
  | answered decision =>
    rw [hstage] at h
    cases decision with
    | granted e => exact { h with written := hlater.subset h.written }
    | refused reason revision => trivial
  | _ =>
    rw [hstage] at h
    exact h

lemma apt_assess (hown : Own c) (hseen : Seen s existing) :
    Apt localeCompare s { c with stage := assess c.request a existing } := by
  unfold assess
  by_cases hbad : (existing.any fun record => !record.value.isAccepted c.request.projectId) = true
  · rw [if_pos hbad]
    trivial
  rw [if_neg hbad]
  have haccepted : ∀ v, existing = some v → v.value.isAccepted c.request.projectId = true := by
    rintro v rfl
    rw [any_some, Bool.not_eq_true', Bool.not_eq_false] at hbad
    exact hbad
  dsimp only
  split
  · rename_i previous hprevious
    obtain ⟨hfind, hop⟩ := filter_eq_some_iff.1 hprevious
    have hmem := mem_of_find?_eq_some hfind
    split_ifs with hfingerprint hgeneration
    · trivial
    · trivial
    · refine ⟨hown.1, hseen previous hmem, ?_, of_decide_eq_true hop, not_not.1 hfingerprint⟩
      cases hexisting : existing with
      | none =>
        rw [hexisting] at hmem
        cases hmem
      | some v =>
        rw [hexisting] at hmem
        exact ((Ledger.isAccepted_iff.1 (haccepted v hexisting)).2.2.2.1 previous hmem).2.1
  · split_ifs with hused hrevision hranges hfits
    · trivial
    · trivial
    · trivial
    · trivial
    · refine ⟨hown, hown.2, haccepted, fun hmem => hused (contains_iff_mem.2 hmem), ?_, ?_⟩
      · intro e he range hrange hrange'
        refine hranges (List.any_eq_true.2 ⟨range, hrange', contains_iff_mem.2 ?_⟩)
        exact mem_flatMap.2 ⟨e, he, hrange⟩
      · simpa using hfits

lemma apt_reserve {nodes : List Node} (hown : Own c) (hfree : Free c.request a existing) :
    Apt localeCompare s { c with stage := reserve localeCompare c.request a existing nodes } := by
  unfold reserve
  split
  · trivial
  · rename_i node _
    split_ifs with hlength
    · exact ⟨hown, hfree, hlength, ⟨node, rfl⟩, rfl⟩
    · trivial

lemma apt_answerLatest (hown : Own c) (hseen : Seen s existing) :
    Apt localeCompare s { c with stage := answerLatest c.request a existing } := by
  unfold answerLatest
  by_cases hbad : (existing.any fun record => !record.value.isAccepted c.request.projectId) = true
  · rw [if_pos hbad]
    trivial
  rw [if_neg hbad]
  split
  · rename_i e hlatest
    obtain ⟨hfind, hsame⟩ := filter_eq_some_iff.1 hlatest
    have hmem := mem_of_find?_eq_some hfind
    obtain ⟨hop, hfingerprint, -⟩ := of_decide_eq_true hsame
    refine ⟨hown.1, hseen e hmem, ?_, hop, hfingerprint⟩
    cases hexisting : existing with
    | none =>
      rw [hexisting] at hmem
      cases hmem
    | some v =>
      rw [hexisting] at hmem hbad
      rw [any_some, Bool.not_eq_true', Bool.not_eq_false] at hbad
      exact ((Ledger.isAccepted_iff.1 hbad).2.2.2.1 e hmem).2.1
  · trivial

variable {record : Versioned Ledger} {next : Ledger}

lemma writeRecord_eq_some {now : ℕ} {stored : Existing}
    (h : writeRecord now stored existing next = some record) :
    record.value = next ∧ stored.map Versioned.value = existing.map Versioned.value := by
  unfold writeRecord at h
  cases existing with
  | none =>
    obtain ⟨rfl, hvalue⟩ := setIfAbsent_eq_some h
    exact ⟨hvalue, rfl⟩
  | some v =>
    dsimp only [compareAndSetRecord] at h
    split_ifs at h with hexpected
    cases h
    cases stored with
    | none => cases hexpected
    | some v' =>
      rw [isExpected, any_some, Bool.and_eq_true, all_some] at hexpected
      exact ⟨rfl, congrArg some (of_decide_eq_true hexpected.2)⟩

lemma Whole.write (h : Whole s) (hfree : Free r a existing) (hlength : (usedOf existing).length < arrayLimit)
    {node : Node} {id : Utf16} (hid : recordId NAMESPACE r.projectId = some id)
    (hvalue : record.value = nextLedger localeCompare existing (reservationOn r a existing node))
    (hsame : (s.records id).map Versioned.value = existing.map Versioned.value) :
    Whole { s with
      records := Function.update s.records id (some record)
      granted := s.granted ++ [reservationOn r a existing node] } := by
  -- whoever has a record under the same id is the same project
  have hproject : ∀ p v, recordId NAMESPACE p = some id → s.records id = some v →
      Kept p v.value s.granted → p = r.projectId := by
    intro p v hp hv hkept
    rw [hv] at hsame
    obtain ⟨v', hv', heq⟩ := map_eq_some_iff.1 hsame.symm
    exact hkept.eq_of_isAccepted (heq ▸ hfree.accepted v' hv')
  have hwas : Was r.projectId existing s.granted := by
    refine ⟨fun v hv => ?_, fun hnone => ?_⟩
    · rw [hv] at hsame
      obtain ⟨v', hv', heq⟩ := map_eq_some_iff.1 hsame
      obtain ⟨p, hp, hkept⟩ := h.kept id v' hv'
      rw [← heq, ← hproject p v' hp hv' hkept]
      exact hkept
    · rw [ofProject, filter_eq_nil_iff]
      intro e he hp
      obtain ⟨id', v, hid', hv, -⟩ := h.counted e he
      rw [of_decide_eq_true hp, hid] at hid'
      cases hid'
      rw [hv, hnone] at hsame
      cases hsame
  have hnext := Kept.next localeCompare hfree hwas node hlength
  rw [← hvalue] at hnext
  have hother : ∀ p v, recordId NAMESPACE p ≠ some id → Kept p v s.granted →
      Kept p v (s.granted ++ [reservationOn r a existing node]) := by
    intro p v hp hkept
    refine hkept.append fun heq => hp ?_
    rw [← heq]
    exact hid
  refine ⟨fun id' v hv => ?_, fun e he => ?_⟩
  · by_cases hsameId : id' = id
    · subst hsameId
      dsimp only at hv
      rw [Function.update_self] at hv
      cases hv
      exact ⟨r.projectId, hid, hnext⟩
    · dsimp only at hv
      rw [Function.update_of_ne hsameId] at hv
      obtain ⟨p, hp, hkept⟩ := h.kept id' v hv
      exact ⟨p, hp, hother p v.value (fun heq => hsameId (some.inj (hp.symm.trans heq))) hkept⟩
  · obtain he | he := mem_append.1 he
    · obtain ⟨id', v, hid', hv, hkept⟩ := h.counted e he
      by_cases hsameId : id' = id
      · subst hsameId
        rw [hproject e.projectId v hid' hv hkept]
        exact ⟨id', record, hid, Function.update_self _ _ _, hnext⟩
      · refine ⟨id', v, hid', (Function.update_of_ne hsameId _ _).trans hv, ?_⟩
        exact hother _ _ (fun heq => hsameId (some.inj (hid'.symm.trans heq))) hkept
    · rw [mem_singleton.1 he]
      exact ⟨id, record, hid, Function.update_self _ _ _, hnext⟩

lemma Whole.seen (h : Whole s) (id : Utf16) : Seen s (s.records id) := by
  intro e he
  cases hv : s.records id with
  | none =>
    rw [hv] at he
    cases he
  | some v =>
    rw [hv] at he
    obtain ⟨p, -, hkept⟩ := h.kept id v hv
    exact hkept.subset e he

/-- What a turn of the run leaves of the records: all, or one more reservation is written. -/
inductive Wrote (localeCompare : Utf16 → Utf16 → ℤ) (s s' : Shared) (c : Call) : Prop where
  | nothing (h : s' = s)
  | one (a : Allocation) (existing : Existing) (e : Reservation) (next : Ledger) (id : Utf16)
    (record : Versioned Ledger) (hstage : c.stage = .writing a existing e next)
    (hid : recordId NAMESPACE c.request.projectId = some id) (hvalue : record.value = next)
    (hsame : (s.records id).map Versioned.value = existing.map Versioned.value)
    (h : s' = { s with
      records := Function.update s.records id (some record), granted := s.granted ++ [e] })

lemma wrote_advance (h : advance localeCompare event s c = some (s', c')) : Wrote localeCompare s s' c := by
  unfold advance at h
  split at h
  · cases h
    exact .nothing rfl
  · cases h
    exact .nothing rfl
  · cases h
    exact .nothing rfl
  · cases h
    exact .nothing rfl
  · cases h
    exact .nothing rfl
  · rename_i reply a existing e next hstage
    split at h
    · cases h
      exact .nothing rfl
    · rename_i id hid
      split at h
      · rename_i record hrecord
        cases h
        obtain ⟨hvalue, hsame⟩ := writeRecord_eq_some (filter_eq_some_iff.1 hrecord).1
        exact .one a existing e next id record hstage hid hvalue hsame rfl
      · cases h
        exact .nothing rfl
  · cases h
    exact .nothing rfl
  · cases h

lemma Whole.advance (h : Whole s) (hc : Apt localeCompare s c)
    (hmove : advance localeCompare event s c = some (s', c')) : Whole s' ∧ Later s s' := by
  obtain rfl | ⟨a, existing, e, next, id, record, hstage, hid, hvalue, hsame, rfl⟩ := wrote_advance hmove
  · exact ⟨h, prefix_rfl⟩
  · unfold Apt at hc
    rw [hstage] at hc
    obtain ⟨-, hfree, hlength, ⟨node, rfl⟩, rfl⟩ := hc
    exact ⟨h.write hfree hlength hid hvalue hsame, prefix_append _ _⟩

lemma Apt.advance (h : Whole s) (hc : Apt localeCompare s c)
    (hmove : AppDataPlacement.advance localeCompare event s c = some (s', c')) : Apt localeCompare s' c' := by
  unfold AppDataPlacement.advance at hmove
  unfold Apt at hc
  split at hmove
  · cases hmove
    split_ifs with hbad hforeign
    · trivial
    · trivial
    · rw [Bool.or_eq_true, not_or, Bool.not_eq_true', Bool.not_eq_true', Bool.not_eq_false,
        Bool.not_eq_false] at hbad
      exact ⟨not_not.1 hforeign, hbad.2⟩
  · rename_i found hstage
    rw [hstage] at hc
    cases hmove
    cases found.filter fun a => a.projectId = c.caller ∧ positiveInteger a.generation = true with
    | none => trivial
    | some a => exact hc
  · rename_i reply a hstage
    rw [hstage] at hc
    cases hmove
    cases recordId NAMESPACE c.request.projectId with
    | none => trivial
    | some id =>
      split_ifs
      · exact ⟨hc, h.seen id⟩
      · trivial
  · rename_i a existing hstage
    rw [hstage] at hc
    cases hmove
    exact apt_assess hc.1 hc.2
  · rename_i nodes a existing hstage
    rw [hstage] at hc
    cases hmove
    exact apt_reserve hc.1 hc.2
  · rename_i reply a existing e next hstage
    rw [hstage] at hc
    obtain ⟨hown, hfree, hlength, ⟨node, rfl⟩, rfl⟩ := hc
    split at hmove
    · cases hmove
      trivial
    · split at hmove
      · cases hmove
        split_ifs
        · exact ⟨hown.1, mem_append_right _ (mem_singleton_self _), rfl, rfl, rfl⟩
        · trivial
      · cases hmove
        split_ifs
        · exact hown
        · trivial
  · rename_i reply a hstage
    rw [hstage] at hc
    cases hmove
    cases recordId NAMESPACE c.request.projectId with
    | none => trivial
    | some id =>
      split_ifs
      · exact apt_answerLatest hc (h.seen id)
      · trivial
  · cases hmove

lemma requests_keeps : (requests localeCompare).Keeps Whole (Apt localeCompare) Later where
  begins {s c} _ hb := by
    have hstage : c.stage = .asked := of_decide_eq_true hb
    unfold Apt
    rw [hstage]
    trivial
  moves h hc hmove :=
    ⟨(h.advance hc hmove).1, hc.advance h hmove, (h.advance hc hmove).2⟩
  passes {now s s'} h hpass := by
    simp only [requests] at hpass
    split_ifs at hpass
    cases hpass
    exact ⟨⟨h.kept, h.counted⟩, prefix_rfl⟩
  stable _ hlater hc := hc.later hlater
  refl _ := prefix_rfl

/-! ## Sums that are exact -/

def isExact (needed : ℕ) (reserved : List ℕ) (envelope : ℚ) : Bool :=
  envelope < (exactBound : ℚ) || needed + reserved.sum ≤ exactBound

lemma sum_le_of_withinEnvelope {needed : ℕ} {reserved : List ℕ} {envelope : ℚ}
    (h : withinEnvelope needed reserved envelope = true) (hexact : isExact needed reserved envelope = true) :
    ((needed + reserved.sum : ℕ) : ℚ) ≤ envelope := by
  have hle : (nearest (needed + sumFrom 0 reserved) : ℚ) ≤ envelope := of_decide_eq_true h
  rw [isExact, Bool.or_eq_true, decide_eq_true_eq, decide_eq_true_eq] at hexact
  obtain hbelow | hsum := hexact
  · have henvelope : 0 ≤ envelope := le_trans (Nat.cast_nonneg _) hle
    have hfloor : ⌊envelope⌋₊ < exactBound := (Nat.floor_lt henvelope).2 hbelow
    have := sum_le_of_nearest hfloor (Nat.le_floor hle)
    exact (Nat.cast_le.2 this).trans (Nat.floor_le henvelope)
  · rwa [nearest_sum_eq hsum] at hle

def Ledger.reserved (l : Ledger) (resource : Resources → ℕ) : ℕ :=
  (l.reservations.map fun e => resource e.resources).sum

/-- A record is within an allocation. -/
structure Ledger.Within (l : Ledger) (a : Allocation) : Prop where
  cpuCores : (l.reserved Resources.cpuCores : ℚ) ≤ a.cpuCores
  memoryBytes : (l.reserved Resources.memoryBytes : ℚ) ≤ a.memoryBytes
  diskBytes : (l.reserved Resources.diskBytes : ℚ) ≤ a.diskBytes

lemma reserved_nextLedger (resource : Resources → ℕ) :
    (nextLedger localeCompare existing e).reserved resource =
      resource e.resources + ((othersOf existing e.shardId).map fun x => resource x.resources).sum := by
  have hperm := (nextLedger_perm localeCompare existing e).map
    fun x => resource x.resources
  rw [Ledger.reserved, hperm.sum_eq, map_append, sum_append, map_singleton,
    sum_singleton, Nat.add_comm]

/-- At each write the sums of the resources are exact, or the envelopes are. -/
def exact (w : World Shared Call) : Turn Call Event ℕ → Bool
  | .move k _ =>
    match w.parties[k]?.map Call.stage with
    | some (.writing a existing e _) =>
      isExact e.resources.cpuCores ((othersOf existing e.shardId).map (·.resources.cpuCores)) a.cpuCores &&
        isExact e.resources.memoryBytes ((othersOf existing e.shardId).map (·.resources.memoryBytes))
          a.memoryBytes &&
        isExact e.resources.diskBytes ((othersOf existing e.shardId).map (·.resources.diskBytes)) a.diskBytes
    | _ => true
  | _ => true

/-! ## Over every run -/

section

variable (run : Run (requests localeCompare)) {i k k' : ℕ}

/-- What holds of the records of all projects. -/
structure Ledgers : Prop where
  shards : ∀ i id v, (run.world i).shared.records id = some v →
    (v.value.reservations.map Reservation.shardId).Nodup
  ranges : ∀ i id v, (run.world i).shared.records id = some v →
    v.value.reservations.Pairwise fun x y => x.virtualRanges.Disjoint y.virtualRanges
  envelope : ∀ i id v, (run.world (i + 1)).shared.records id = some v →
    (run.world i).shared.records id ≠ some v → ∃ k event, ∃ c : Call, ∃ a existing e, run.turn i = .move k event ∧
      (run.world i).parties[k]? = some c ∧ c.stage = .writing a existing e v.value ∧ v.value.Within a
  revision : ∀ i, ((run.world (i + 1)).shared.records = (run.world i).shared.records ∧
      (run.world (i + 1)).shared.granted = (run.world i).shared.granted) ∨
    ∃ id v e, (run.world (i + 1)).shared.records = Function.update (run.world i).shared.records id (some v) ∧
      (run.world (i + 1)).shared.granted = (run.world i).shared.granted ++ [e] ∧
      v.value.revision = revisionOf ((run.world i).shared.records id) + 1 ∧ e.revision = v.value.revision
  operation : ∀ (i k k' : ℕ) (c c' : Call) (e e' : Reservation), (run.world i).parties[k]? = some c →
    (run.world i).parties[k']? = some c' → c.stage = .answered (.granted e) →
    c'.stage = .answered (.granted e') → c.request.projectId = c'.request.projectId →
    c.request.operationId = c'.request.operationId →
    e = e' ∧ fingerprint c.request = fingerprint c'.request
  own : ∀ (i k : ℕ) (c : Call) (e : Reservation), (run.world i).parties[k]? = some c → c.stage = .answered (.granted e) →
    e.projectId = c.caller
  accepted : ∀ i id v, (run.world i).shared.records id = some v →
    ∃ p, recordId NAMESPACE p = some id ∧ v.value.isAccepted p = true

variable {run}

lemma wrote_play {w w' : World Shared Call} {turn : Turn Call Event ℕ}
    (h : (requests localeCompare).play w turn = some w') :
    (w'.shared.records = w.shared.records ∧ w'.shared.granted = w.shared.granted) ∨
    ∃ k event c, turn = .move k event ∧ w.parties[k]? = some c ∧
      Wrote localeCompare w.shared w'.shared c := by
  obtain ⟨-, rfl⟩ | ⟨party, -, -, rfl⟩ | ⟨k, event, c, s', c', rfl, hc, hmove, rfl⟩ |
    ⟨now, s', -, hpass, rfl⟩ := Rules.play_cases h
  · exact .inl ⟨rfl, rfl⟩
  · exact .inl ⟨rfl, rfl⟩
  · exact .inr ⟨k, event, c, rfl, hc, wrote_advance hmove⟩
  · simp only [requests] at hpass
    split_ifs at hpass
    cases hpass
    exact .inl ⟨rfl, rfl⟩

lemma within_of_exact {c : Call} {e : Reservation} {event : Event} {w : World Shared Call}
    (hc : w.parties[k]? = some c) (hapt : Apt localeCompare w.shared c)
    (hstage : c.stage = .writing a existing e next) (hexact : exact w (.move k event) = true) :
    next.Within a := by
  unfold Apt at hapt
  rw [hstage] at hapt
  obtain ⟨-, hfree, -, ⟨node, rfl⟩, rfl⟩ := hapt
  have hfits := hfree.fits
  simp only [Allocation.fits, Bool.and_eq_true] at hfits
  simp only [exact, hc, map_some, hstage, Bool.and_eq_true] at hexact
  refine ⟨?_, ?_, ?_⟩
  · rw [reserved_nextLedger]
    exact sum_le_of_withinEnvelope hfits.1.1 hexact.1.1
  · rw [reserved_nextLedger]
    exact sum_le_of_withinEnvelope hfits.1.2 hexact.1.2
  · rw [reserved_nextLedger]
    exact sum_le_of_withinEnvelope hfits.2 hexact.2

/-- Where every sum that is compared is exact, or its envelope is, the records are as they are to be. -/
theorem ledgers (hrecords : ∀ id, (run.world 0).shared.records id = none)
    (hgranted : (run.world 0).shared.granted = []) (hstart : (run.world 0).parties = [])
    (hexact : ∀ i, exact (run.world i) (run.turn i) = true) : Ledgers run := by
  have hheld₀ : Held Whole (Apt localeCompare) (run.world 0) := by
    refine ⟨⟨fun id v hv => ?_, fun e he => ?_⟩, fun c hc => ?_⟩
    · rw [hrecords] at hv
      cases hv
    · rw [hgranted] at he
      cases he
    · rw [hstart] at hc
      cases hc
  have hheld := run.held requests_keeps hheld₀
  have hkept : ∀ i id v, (run.world i).shared.records id = some v →
      ∃ p, recordId NAMESPACE p = some id ∧ Kept p v.value (run.world i).shared.granted :=
    fun i id v hv => (hheld i).1.kept id v hv
  have hgrant : ∀ (i k : ℕ) (c : Call) (e : Reservation), (run.world i).parties[k]? = some c → c.stage = .answered (.granted e) →
      Granted (run.world i).shared c e := by
    intro i k c e hc hstage
    have hapt := (hheld i).2 c (List.mem_of_getElem? hc)
    unfold Apt at hapt
    rwa [hstage] at hapt
  refine ⟨?_, ?_, ?_, ?_, ?_, ?_, ?_⟩
  · intro i id v hv
    obtain ⟨p, -, h⟩ := hkept i id v hv
    exact (Ledger.isAccepted_iff.1 h.accepted).2.2.2.2.1
  · intro i id v hv
    obtain ⟨p, -, h⟩ := hkept i id v hv
    exact h.ranges
  · intro i id v hv hne
    obtain ⟨hrecords, -⟩ | ⟨k, event, c, hturn, hc, hwrote⟩ := wrote_play (run.plays i)
    · rw [hrecords] at hv
      exact absurd hv hne
    · obtain hsame | ⟨a, existing, e, next, id', record, hstage, hid', rfl, hsame, hshared⟩ := hwrote
      · rw [hsame] at hv
        exact absurd hv hne
      · rw [hshared] at hv
        dsimp only at hv
        by_cases hid : id = id'
        · subst hid
          rw [Function.update_self] at hv
          cases hv
          refine ⟨k, event, c, a, existing, e, hturn, hc, hstage, ?_⟩
          exact within_of_exact hc ((hheld i).2 c (List.mem_of_getElem? hc)) hstage (hturn ▸ hexact i)
        · rw [Function.update_of_ne hid] at hv
          exact absurd hv hne
  · intro i
    obtain hsame | ⟨k, event, c, hturn, hc, hwrote⟩ := wrote_play (run.plays i)
    · exact .inl hsame
    · obtain hsame | ⟨a, existing, e, next, id, record, hstage, hid, rfl, hsame, hshared⟩ := hwrote
      · exact .inl ⟨by rw [hsame], by rw [hsame]⟩
      · have hapt := (hheld i).2 c (List.mem_of_getElem? hc)
        unfold Apt at hapt
        rw [hstage] at hapt
        obtain ⟨-, -, -, ⟨node, rfl⟩, hnext⟩ := hapt
        have hrevision : revisionOf existing = revisionOf ((run.world i).shared.records id) := by
          cases existing with
          | none =>
            rw [Option.map_eq_none_iff.1 hsame]
          | some v =>
            obtain ⟨v', hv', heq⟩ := Option.map_eq_some_iff.1 hsame
            rw [hv']
            exact congrArg Ledger.revision heq.symm
        refine .inr ⟨id, record, _, by rw [hshared], by rw [hshared], ?_, ?_⟩
        · rw [hnext, ← hrevision]
          rfl
        · rw [hnext]
          rfl
  · intro i k k' c c' e e' hc hc' hstage hstage' hproject hop
    have h := hgrant i k c e hc hstage
    have h' := hgrant i k' c' e' hc' hstage'
    obtain ⟨id, v, -, -, hkept⟩ := (hheld i).1.counted e h.written
    have hnodup := (Ledger.isAccepted_iff.1 hkept.accepted).2.2.1
    rw [hkept.used] at hnodup
    have hmem : e ∈ ofProject e.projectId (run.world i).shared.granted :=
      List.mem_filter.2 ⟨h.written, decide_eq_true rfl⟩
    have hmem' : e' ∈ ofProject e.projectId (run.world i).shared.granted :=
      List.mem_filter.2 ⟨h'.written, decide_eq_true (by rw [h'.projectId, h.projectId, hproject])⟩
    have heq : e = e' := List.inj_on_of_nodup_map hnodup hmem hmem'
      (by rw [h.operationId, h'.operationId, hop])
    refine ⟨heq, ?_⟩
    rw [← h.fingerprint, ← h'.fingerprint, heq]
  · intro i k c e hc hstage
    have h := hgrant i k c e hc hstage
    rw [h.projectId, h.own]
  · intro i id v hv
    obtain ⟨p, hp, h⟩ := hkept i id v hv
    exact ⟨p, hp, h.accepted⟩

end

/-! ## An envelope beyond what is exact -/

def byUnits (x y : Utf16) : ℤ := if x < y then -1 else if y < x then 1 else 0

def shopAllocation (memoryBytes : ℚ) : Allocation := ⟨utf16 "shop", 1, [utf16 "node"], 4, memoryBytes, 4⟩

def shopNode (memoryBytes : ℚ) : Node := ⟨utf16 "node", true, 4, memoryBytes, 4⟩

def shopRequest (operation shard : Utf16) (range revision memoryBytes : ℕ) : Request :=
  ⟨operation, utf16 "shop", shard, [range], 1, revision, ⟨1, memoryBytes, 1⟩⟩

def asks (k : ℕ) (r : Request) (memoryBytes : ℚ) : List (Turn Call Event ℕ) := [
  .begin ⟨utf16 "shop", r, .asked⟩, .move k .goOn, .move k (.allocation (some (shopAllocation memoryBytes))),
  .move k (.store .done), .move k .goOn, .move k (.nodes [shopNode memoryBytes]), .move k (.store .done)]

def twoShards (memoryBytes : ℚ) (first second : ℕ) : List (Turn Call Event ℕ) :=
  asks 0 (shopRequest (utf16 "a") (utf16 "x") 0 0 first) memoryBytes ++
    asks 1 (shopRequest (utf16 "b") (utf16 "y") 1 1 second) memoryBytes

def unreserved : World Shared Call := ⟨⟨0, fun _ => none, []⟩, []⟩

def modestRun : Run (requests byUnits) :=
  (requests byUnits).replay unreserved (twoShards 8 3 5) (by decide +kernel)

/-- The second makes the sum one more than the envelope, and what it is rounded to is in it. -/
def roundedRun : Run (requests byUnits) :=
  (requests byUnits).replay unreserved (twoShards (2 ^ 53) (2 ^ 53 - 1) 2) (by decide +kernel)

def shopId : Utf16 := (recordId NAMESPACE (utf16 "shop")).getD []

def roundedRecord : Versioned Ledger := ((roundedRun.world 14).shared.records shopId).getD ⟨⟨0, [], []⟩, 0⟩

theorem ledgers_modest : Ledgers modestRun :=
  ledgers (fun _ => rfl) rfl rfl (Rules.replay_all (fun _ => rfl) (by decide +kernel))

/-- More is reserved than is allocated. -/
theorem not_ledgers : ¬∀ (localeCompare : Utf16 → Utf16 → ℤ) (run : Run (requests localeCompare)),
    (∀ id, (run.world 0).shared.records id = none) → (run.world 0).shared.granted = [] →
    (run.world 0).parties = [] → Ledgers run := by
  intro h
  have hwritten : (roundedRun.world 14).shared.records shopId = some roundedRecord := by decide +kernel
  have hbefore : (roundedRun.world 13).shared.records shopId ≠ some roundedRecord := by decide +kernel
  obtain ⟨k, event, c, a, existing, e, hturn, hc, hstage, hwithin⟩ :=
    (h byUnits roundedRun (fun _ => rfl) rfl rfl).envelope 13 shopId roundedRecord hwritten hbefore
  have hk : roundedRun.turn 13 = .move 1 (.store .done) := rfl
  cases hk.symm.trans hturn
  have hallocation : ((roundedRun.world 13).parties[1]?).bind (·.stage.allocation) =
      some (shopAllocation (2 ^ 53)) := by decide +kernel
  rw [hc, Option.bind_some, hstage] at hallocation
  cases hallocation
  have hmemory := hwithin.memoryBytes
  have hreserved : roundedRecord.value.reserved Resources.memoryBytes = 2 ^ 53 + 1 := by decide +kernel
  rw [hreserved] at hmemory
  exact absurd hmemory (by decide +kernel)

end Zelavis.Platform.AppDataPlacement
