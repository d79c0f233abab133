import Zelavis.Platform.ProjectPlacementAuthority

/-!
# The placement authority, over every run

Any number of owners acquire, renew, release and validate, one step of the store at a time, with any
clock that does not go back.
-/

namespace Zelavis.Platform

open Lib Lib.Turns Edge Checks

variable {e : Event} {s s' : Shared} {p p' : Phase}
  {call : Call} {observed : Option Stored}
  {placement : Placement} {r : Stored} {t : Token}

/-! ## What a call has in hand -/

def Lands : Call → Option Stored → Placement → Prop
  | .acquire _, observed, placement => placement.epoch = epochOf observed + 1
  | .renew token _, observed, placement => ∃ o, observed = some o ∧
      o.value.matchesToken token = true ∧ o.value.state = .active ∧
      isSafeInteger placement.leaseExpiresAt = true ∧
      placement = { o.value with
        revision := o.value.revision + 1, leaseExpiresAt := placement.leaseExpiresAt }
  | .release token, observed, placement => ∃ o, observed = some o ∧
      o.value.matchesToken token = true ∧
      placement = { o.value with state := .released, revision := o.value.revision + 1 }
  | .validate _, _, _ => False

def Genuine (call : Call) (observed : Option Stored) : Prop :=
  ∀ o, observed = some o → o.value.wellFormed call.projectId = true

def Placed : Phase → Prop
  | .permitted call => call.isValid = true
  | .observed call observed => call.isValid = true ∧ Genuine call observed
  | .fencing request previous _ => (Call.acquire request).isValid = true ∧
      Genuine (.acquire request) (some previous)
  | .writing call observed placement => call.isValid = true ∧ Genuine call observed ∧
      Lands call observed placement
  | .asked _ | .contended _ | .answered _ _ => True

/-- What no turn undoes. -/
structure Later (s s' : Shared) : Prop where
  now : s.now ≤ s'.now
  epoch : epochOf s.slot ≤ epochOf s'.slot

lemma Later.refl (s : Shared) : Later s s := ⟨le_rfl, le_rfl⟩

lemma Later.trans {a b c : Shared} (h : Later a b) (h' : Later b c) : Later a c :=
  ⟨h.now.trans h'.now, h.epoch.trans h'.epoch⟩

variable {projectId : Utf16}

lemma genuine_of_read (h : readPlacement s projectId = some observed) :
    s.slot = observed ∧ ∀ o, observed = some o → o.value.wellFormed projectId = true := by
  unfold readPlacement at h
  cases hslot : s.slot with
  | none =>
    rw [hslot] at h
    cases h
    exact ⟨rfl, fun o ho => by cases ho⟩
  | some r =>
    rw [hslot] at h
    dsimp only at h
    split_ifs at h with hw
    cases h
    exact ⟨rfl, fun o ho => by cases ho; exact hw⟩

/-! ## What each call decides -/

variable {request : AcquireRequest} {instant : ℚ}

section

variable (hv : (Call.acquire request).isValid = true) (hg : Genuine (.acquire request) observed)
include hv hg

/-- Where an acquisition goes once nobody holds the project: its placement is in the epoch that comes
next. -/
theorem placed_placeOver :
    Placed (placeOver request observed instant) := by
  unfold placeOver
  split_ifs
  · trivial
  · exact ⟨hv, hg, rfl⟩

lemma placed_acquireFrom :
    Placed (acquireFrom request observed instant) := by
  unfold acquireFrom
  split_ifs
  · trivial
  · cases observed with
    | none => exact placed_placeOver hv hg
    | some previous =>
      dsimp only
      split_ifs
      · trivial
      · exact ⟨hv, hg⟩
      · exact placed_placeOver hv hg

end

variable {token : Token}

lemma placed_renewFrom {leaseMs instant : ℚ}
    (hv : (Call.renew token leaseMs).isValid = true) (hg : Genuine (.renew token leaseMs) observed) :
    Placed (renewFrom token leaseMs observed instant) := by
  cases observed with
  | none => trivial
  | some previous =>
    unfold renewFrom
    dsimp only
    split_ifs with hm hx hsafe
    · trivial
    · trivial
    · trivial
    · rw [not_or, Bool.not_eq_false, not_not] at hm
      rw [not_or, Bool.not_eq_false, Bool.not_eq_false] at hsafe
      refine ⟨hv, hg, previous, rfl, hm.1, hm.2, ?_, rfl⟩
      have hprevious : isSafeInteger previous.value.leaseExpiresAt = true := by
        have hw := hg previous rfl
        exact (Bool.and_eq_true_iff.1 hw).2
      have hnext : isSafeInteger (((instant + leaseMs).num : ℤ) : ℚ) = true := by
        rw [num_of_isSafeInteger hsafe.2]
        exact hsafe.2
      obtain h | h := max_choice previous.value.leaseExpiresAt (instant + leaseMs).num
      · rw [h]
        exact hprevious
      · rw [h]
        exact hnext

lemma placed_releaseFrom (hv : (Call.release token).isValid = true)
    (hg : Genuine (.release token) observed) : Placed (releaseFrom token observed) := by
  cases observed with
  | none => trivial
  | some previous =>
    unfold releaseFrom
    dsimp only
    split_ifs with hm hx
    · trivial
    · trivial
    · exact ⟨hv, hg, previous, rfl, eq_true_of_ne_false hm, rfl⟩

lemma placed_decideFrom (hv : call.isValid = true) (hg : Genuine call observed) :
    Placed (decideFrom call observed instant) := by
  cases call with
  | acquire request => exact placed_acquireFrom hv hg
  | renew token leaseMs => exact placed_renewFrom hv hg
  | release token => exact placed_releaseFrom hv hg
  | validate token => trivial

variable {answer : Bool}

lemma placed_begun : Placed (begun answer call) := by
  cases hv : call.isValid with
  | false =>
    unfold begun
    rw [hv]
    cases call <;> trivial
  | true =>
    unfold begun
    rw [hv]
    cases call with
    | acquire request =>
      cases answer with
      | false => trivial
      | true => exact hv
    | renew | release | validate => exact hv

/-! ## A move -/

lemma advance_cases (h : advance e s p = some (s', p')) :
    (∃ call, p = .asked call ∧ s' = s ∧ p' = begun e.answer call) ∨
    (∃ call, p = .permitted call ∧ s' = s ∧ (p' = .answered call .malformed ∨
      ∃ observed, readPlacement s call.projectId = some observed ∧ p' = .observed call observed)) ∨
    (∃ call observed, p = .observed call observed ∧ s' = s ∧ p' = decideFrom call observed s.now) ∨
    (∃ request previous instant, p = .fencing request previous instant ∧ s' = s ∧
      (p' = placeOver request (some previous) instant ∨ p' = .answered (.acquire request)
        (.refused .fencingUnavailable (some previous.value)))) ∨
    (∃ call observed placement record, p = .writing call observed placement ∧
      s.slot = observed ∧ record.value = placement ∧ s' = { s with slot := some record } ∧
      p' = .answered call (.granted placement)) ∨
    (∃ call observed placement, p = .writing call observed placement ∧ s' = s ∧ p' = .contended call) ∨
    (∃ call, p = .contended call ∧ s' = s ∧ (p' = .answered call .malformed ∨
      ∃ current, p' = .answered call (.refused .contended current))) := by
  cases p with
  | asked call =>
    cases h
    exact .inl ⟨call, rfl, rfl, rfl⟩
  | permitted call =>
    refine .inr (.inl ⟨call, rfl, ?_⟩)
    simp only [advance] at h
    cases hr : readPlacement s call.projectId with
    | none =>
      rw [hr] at h
      cases h
      exact ⟨rfl, .inl rfl⟩
    | some observed =>
      rw [hr] at h
      cases h
      exact ⟨rfl, .inr ⟨observed, rfl, rfl⟩⟩
  | observed call observed =>
    cases h
    exact .inr (.inr (.inl ⟨call, observed, rfl, rfl, rfl⟩))
  | fencing request previous instant =>
    refine .inr (.inr (.inr (.inl ⟨request, previous, instant, rfl, ?_⟩)))
    simp only [advance] at h
    split_ifs at h
    · cases h
      exact ⟨rfl, .inl rfl⟩
    · cases h
      exact ⟨rfl, .inr rfl⟩
  | writing call observed placement =>
    simp only [advance] at h
    cases hput : putAt e.written s.slot observed placement with
    | none =>
      rw [hput] at h
      cases h
      exact .inr (.inr (.inr (.inr (.inr (.inl ⟨call, observed, placement, rfl, rfl, rfl⟩)))))
    | some record =>
      rw [hput] at h
      cases h
      obtain ⟨hslot, hv, -⟩ := putAt_eq_some hput
      exact .inr (.inr (.inr (.inr (.inl
        ⟨call, observed, placement, record, rfl, hslot, hv, rfl, rfl⟩))))
  | contended call =>
    refine .inr (.inr (.inr (.inr (.inr (.inr ⟨call, rfl, ?_⟩)))))
    simp only [advance] at h
    cases hr : readPlacement s call.projectId with
    | none =>
      rw [hr] at h
      cases h
      exact ⟨rfl, .inl rfl⟩
    | some current =>
      rw [hr] at h
      cases h
      exact ⟨rfl, .inr ⟨_, rfl⟩⟩
  | answered call answer => cases h

/-- A move leaves what is shared as it is, or it writes what follows from the record as it stands. -/
theorem advance_shared (h : advance e s p = some (s', p')) :
    s' = s ∨ ∃ call observed placement record, p = .writing call observed placement ∧
      s.slot = observed ∧ record.value = placement ∧ s' = { s with slot := some record } := by
  obtain ⟨_, -, h, -⟩ | ⟨_, -, h, -⟩ | ⟨_, _, -, h, -⟩ | ⟨_, _, _, -, h, -⟩ |
    ⟨call, observed, placement, record, hp, hslot, hv, hs, -⟩ | ⟨_, _, _, -, h, -⟩ |
    ⟨_, -, h, -⟩ := advance_cases h
  · exact .inl h
  · exact .inl h
  · exact .inl h
  · exact .inl h
  · exact .inr ⟨call, observed, placement, record, hp, hslot, hv, hs⟩
  · exact .inl h
  · exact .inl h

lemma placed_advance (hp : Placed p) (h : advance e s p = some (s', p')) : Placed p' := by
  obtain ⟨call, rfl, -, rfl⟩ | ⟨call, rfl, -, rfl | ⟨observed, hr, rfl⟩⟩ |
    ⟨call, observed, rfl, -, rfl⟩ | ⟨request, previous, instant, rfl, -, rfl | rfl⟩ |
    ⟨call, observed, placement, record, rfl, -, -, -, rfl⟩ |
    ⟨call, observed, placement, rfl, -, rfl⟩ | ⟨call, rfl, -, rfl | ⟨current, rfl⟩⟩ :=
    advance_cases h
  · exact placed_begun
  · trivial
  · exact ⟨hp, (genuine_of_read hr).2⟩
  · exact placed_decideFrom hp.1 hp.2
  · exact placed_placeOver hp.1 hp.2
  · trivial
  · trivial
  · trivial
  · trivial
  · trivial

/-- A phase that is neither a project granted nor a token found good nor a record just read. -/
def Inert : Phase → Prop
  | .answered (.acquire _) (.granted _) => False
  | .answered (.validate _) (.valid true) => False
  | .observed _ _ => False
  | _ => True

lemma inert_begun : Inert (begun answer call) := by
  unfold begun
  cases hv : call.isValid with
  | false => cases call <;> trivial
  | true =>
    cases call with
    | acquire request => cases answer <;> trivial
    | renew | release | validate => trivial

lemma inert_placeOver : Inert (placeOver request observed instant) := by
  unfold placeOver
  split_ifs
  · trivial
  · trivial

lemma inert_acquireFrom : Inert (acquireFrom request observed instant) := by
  unfold acquireFrom
  split_ifs
  · trivial
  · cases observed with
    | none => exact inert_placeOver
    | some previous =>
      dsimp only
      split_ifs
      · trivial
      · trivial
      · exact inert_placeOver

lemma inert_renewFrom {leaseMs instant : ℚ} : Inert (renewFrom t leaseMs observed instant) := by
  cases observed with
  | none => trivial
  | some previous =>
    unfold renewFrom
    dsimp only
    split_ifs <;> trivial

lemma inert_releaseFrom : Inert (releaseFrom t observed) := by
  cases observed with
  | none => trivial
  | some previous =>
    unfold releaseFrom
    dsimp only
    split_ifs <;> trivial

lemma decideFrom_cases (call : Call) (observed : Option Stored) (instant : ℚ) :
    Inert (decideFrom call observed instant) ∨ ∃ token, call = .validate token ∧
      decideFrom call observed instant =
        .answered (.validate token) (.valid (validateFrom token observed instant)) := by
  cases call with
  | acquire request => exact .inl inert_acquireFrom
  | renew token leaseMs => exact .inl inert_renewFrom
  | release token => exact .inl inert_releaseFrom
  | validate token => exact .inr ⟨token, rfl, rfl⟩

/-- Where something is gained: a placement by the write that makes it, a record by reading it, and a
token is found good by what was read and the clock. -/
theorem advance_gains (h : advance e s p = some (s', p')) : Inert p' ∨
    (∃ call observed placement record, p = .writing call observed placement ∧
      s.slot = observed ∧ record.value = placement ∧ s' = { s with slot := some record } ∧
      p' = .answered call (.granted placement)) ∨
    (∃ call observed, p = .permitted call ∧ readPlacement s call.projectId = some observed ∧
      p' = .observed call observed) ∨ ∃ token observed, p = .observed (.validate token) observed ∧
      p' = .answered (.validate token) (.valid (validateFrom token observed s.now)) := by
  obtain ⟨call, -, -, rfl⟩ | ⟨call, rfl, -, rfl | ⟨observed, hr, rfl⟩⟩ |
    ⟨call, observed, rfl, -, rfl⟩ | ⟨request, previous, instant, -, -, rfl | rfl⟩ | hwrite |
    ⟨call, observed, _, -, -, rfl⟩ | ⟨call, -, -, rfl | ⟨current, rfl⟩⟩ := advance_cases h
  · exact .inl inert_begun
  · exact .inl (by cases call <;> trivial)
  · exact .inr (.inr (.inl ⟨call, observed, rfl, hr, rfl⟩))
  · obtain hinert | ⟨token, rfl, heq⟩ := decideFrom_cases call observed s.now
    · exact .inl hinert
    · exact .inr (.inr (.inr ⟨token, observed, rfl, heq⟩))
  · exact .inl inert_placeOver
  · exact .inl trivial
  · exact .inr (.inl hwrite)
  · exact .inl trivial
  · exact .inl (by cases call <;> trivial)
  · exact .inl (by cases call <;> trivial)

lemma advance_granted (h : advance e s p = some (s', .answered (.acquire request) (.granted placement))) :
    ∃ observed record, p = .writing (.acquire request) observed placement ∧ s.slot = observed ∧
      record.value = placement ∧ s' = { s with slot := some record } := by
  obtain h | ⟨call, observed, placement', record, rfl, hslot, hv, hs, hp⟩ | ⟨call, observed, -, -, hp⟩ |
    ⟨token, observed, -, hp⟩ := advance_gains h
  · exact h.elim
  · cases hp
    exact ⟨observed, record, rfl, hslot, hv, hs⟩
  · cases hp
  · cases hp

lemma advance_found (h : advance e s p = some (s', .answered (.validate t) (.valid true))) :
    ∃ observed, p = .observed (.validate t) observed ∧ validateFrom t observed s.now = true := by
  obtain h | ⟨call, observed, placement', record, -, -, -, -, hp⟩ | ⟨call, observed, -, -, hp⟩ |
    ⟨token, observed, rfl, hp⟩ := advance_gains h
  · exact h.elim
  · cases hp
  · cases hp
  · obtain ⟨hcall, hgood⟩ := Phase.answered.inj hp
    cases hcall
    exact ⟨observed, rfl, (Answer.valid.inj hgood).symm⟩

lemma advance_observed (h : advance e s p = some (s', .observed call observed)) :
    p = .permitted call ∧ readPlacement s call.projectId = some observed := by
  obtain h | ⟨call', observed', placement', record, -, -, -, -, hp⟩ | ⟨call', observed', hp', hr, hp⟩ |
    ⟨token, observed', -, hp⟩ := advance_gains h
  · exact h.elim
  · cases hp
  · cases hp
    exact ⟨hp', hr⟩
  · cases hp

lemma validateFrom_of_le {instant instant' : ℚ} (hle : instant ≤ instant')
    (h : validateFrom t observed instant' = true) : validateFrom t observed instant = true := by
  cases observed with
  | none => cases h
  | some r =>
    simp only [validateFrom, Option.any_some, Bool.and_eq_true, decide_eq_true_iff] at h ⊢
    exact ⟨⟨h.1.1, hle.trans_lt h.1.2⟩, h.2⟩

lemma epochOf_lands (h : Lands call observed placement) : epochOf observed ≤ placement.epoch := by
  cases call with
  | acquire request => exact h.symm ▸ Nat.le_succ _
  | renew token leaseMs =>
    obtain ⟨o, rfl, -, -, -, h⟩ := h
    rw [h]
    exact le_rfl
  | release token =>
    obtain ⟨o, rfl, -, h⟩ := h
    rw [h]
    exact le_rfl
  | validate token => exact h.elim

lemma authority_keeps : authority.Keeps (fun _ => True) (fun _ => Placed) Later where
  begins := by
    intro s p _ hb
    cases p with
    | asked call => trivial
    | permitted | observed | fencing | writing => cases hb
    | contended | answered => trivial
  moves := by
    intro e s p s' p' _ hL hmove
    refine ⟨trivial, placed_advance hL hmove, ?_⟩
    obtain rfl | ⟨call, observed, placement, record, rfl, hslot, rfl, rfl⟩ := advance_shared hmove
    · exact Later.refl s'
    · refine ⟨le_rfl, ?_⟩
      rw [hslot]
      exact epochOf_lands hL.2.2
  passes := by
    intro now s s' _ hpass
    simp only [authority] at hpass
    split_ifs at hpass with hnow
    cases hpass
    exact ⟨trivial, ⟨hnow, le_rfl⟩⟩
  stable _ _ h := h
  refl := Later.refl

/-! ## A token that is over -/

/-- A token is over: the project was placed again since, or the record it is of is released, or its
lease is out. -/
def Lapsed (s : Shared) (t : Token) : Prop := ∃ r, s.slot = some r ∧
  (t.epoch < r.value.epoch ∨ r.value.matchesToken t = true ∧
    (r.value.state = .released ∨ (r.value.leaseExpiresAt : ℚ) ≤ s.now))

lemma validates_iff : validates s t = true ↔ t.isValid = true ∧ ∃ r, s.slot = some r ∧
    r.value.wellFormed t.projectId = true ∧ r.value.state = .active ∧
    s.now < r.value.leaseExpiresAt ∧ r.value.matchesToken t = true := by
  unfold validates readPlacement validateFrom
  cases s.slot with
  | none => simp
  | some r =>
    by_cases hw : r.value.wellFormed t.projectId = true
    · simp [hw, and_assoc]
    · simp [hw]

lemma validates_of_lapsed (h : Lapsed s t) : validates s t = false := by
  obtain ⟨r, hr, h⟩ := h
  rw [← Bool.not_eq_true, validates_iff]
  rintro ⟨-, r', hr', -, hactive, hnow, hmatches⟩
  cases hr.symm.trans hr'
  obtain h | ⟨-, h | h⟩ := h
  · exact absurd (Placement.matchesToken_iff.1 hmatches).2.2.2 (ne_of_gt h)
  · exact absurd (hactive.symm.trans h) (by decide)
  · exact absurd hnow (not_lt.2 h)

lemma validates_unique {t' : Token} (h : validates s t = true) (h' : validates s t' = true) : t = t' := by
  obtain ⟨-, r, hr, -, -, -, hm⟩ := validates_iff.1 h
  obtain ⟨-, r', hr', -, -, -, hm'⟩ := validates_iff.1 h'
  cases hr.symm.trans hr'
  obtain ⟨hp, hn, ho, he⟩ := Placement.matchesToken_iff.1 hm
  obtain ⟨hp', hn', ho', he'⟩ := Placement.matchesToken_iff.1 hm'
  obtain ⟨p, n, o, e⟩ := t
  obtain ⟨p', n', o', e'⟩ := t'
  cases hp.symm.trans hp'
  cases hn.symm.trans hn'
  cases ho.symm.trans ho'
  cases he.symm.trans he'
  rfl

/-- A turn writes no renewal, or it writes it before the lease it renews is out, or the renewal gives
nothing: the lease it gives is out as well, or its revision is no number the record may have. -/
def inTime (w : World Shared Phase) : Turn Phase Event ℚ → Bool
  | .move k _ =>
    match w.parties[k]? with
    | some (.writing (.renew _ _) (some observed) placement) =>
      w.shared.slot != some observed || w.shared.now < observed.value.leaseExpiresAt ||
        (placement.leaseExpiresAt : ℚ) ≤ w.shared.now || maxSafeInteger < placement.revision
    | _ => true
  | _ => true

lemma inTime_eq_false {w : World Shared Phase} {turn : Turn Phase Event ℚ}
    (h : inTime w turn = false) : ∃ k e token leaseMs observed placement, turn = .move k e ∧
      w.parties[k]? = some (.writing (.renew token leaseMs) (some observed) placement) ∧
      w.shared.slot = some observed ∧ (observed.value.leaseExpiresAt : ℚ) ≤ w.shared.now ∧
      w.shared.now < placement.leaseExpiresAt ∧ placement.revision ≤ maxSafeInteger := by
  unfold inTime at h
  split at h
  · next k e =>
    split at h
    · next token leaseMs observed placement hp =>
      simp only [Bool.or_eq_false_iff, bne_eq_false_iff_eq, decide_eq_false_iff_not, not_lt, not_le] at h
      exact ⟨k, e, token, leaseMs, observed, placement, rfl, hp, h.1.1.1, h.1.1.2, h.1.2, h.2⟩
    · cases h
  · cases h

lemma lt_or_le_of_inTime {w : World Shared Phase} {k : ℕ} {leaseMs : ℚ}
    {observed : Stored} (h : inTime w (.move k e) = true)
    (hp : w.parties[k]? = some (.writing (.renew token leaseMs) (some observed) placement))
    (hslot : w.shared.slot = some observed) :
    w.shared.now < observed.value.leaseExpiresAt ∨ (placement.leaseExpiresAt : ℚ) ≤ w.shared.now ∨
      maxSafeInteger < placement.revision := by
  simp only [inTime, hp, hslot] at h
  simpa only [Bool.or_eq_true, bne_self_eq_false, Bool.false_or, decide_eq_true_iff, or_assoc] using h

/-- The revision of the record is no number it may have, and nobody can read it any more. -/
def Broken (s : Shared) : Prop := ∃ r, s.slot = some r ∧ maxSafeInteger < r.value.revision

lemma validEpoch_natCast {n : ℕ} : validEpoch n = true ↔ n ≤ maxSafeInteger := by
  unfold validEpoch
  rw [Bool.and_eq_true, isSafeInteger_iff, Rat.den_natCast, Rat.num_natCast, Int.natAbs_natCast,
    decide_eq_true_iff]
  exact ⟨fun h => h.1.2, fun h => ⟨⟨rfl, h⟩, Nat.cast_nonneg n⟩⟩

lemma wellFormed_iff {q : Placement} : q.wellFormed projectId = true ↔
    (q.projectId = projectId ∧ validId q.nodeId = true ∧ validId q.ownerSession = true ∧
      q.epoch ≤ maxSafeInteger ∧ q.epoch ≠ 0) ∧
      q.revision ≤ maxSafeInteger ∧ q.revision ≠ 0 ∧ isSafeInteger q.leaseExpiresAt = true := by
  unfold Placement.wellFormed
  simp only [Bool.and_eq_true, beq_iff_eq, bne_iff_ne, validEpoch_natCast]
  tauto

lemma validates_of_broken (h : Broken s) : validates s t = false := by
  obtain ⟨r, hr, h⟩ := h
  rw [← Bool.not_eq_true, validates_iff]
  rintro ⟨-, r', hr', hw, -⟩
  cases hr.symm.trans hr'
  exact absurd h (not_lt.2 (wellFormed_iff.1 hw).2.1)

variable {w w' : World Shared Phase} {turn : Turn Phase Event ℚ}

lemma over_play (hw : Held (fun _ => True) (fun _ => Placed) w) (htime : inTime w turn = true)
    (hplay : authority.play w turn = some w') (h : Lapsed w.shared t ∨ Broken w.shared) :
    Lapsed w'.shared t ∨ Broken w'.shared := by
  obtain ⟨-, rfl⟩ | ⟨call, -, -, rfl⟩ | ⟨k, e, p, s', p', rfl, hp, hmove, rfl⟩ |
    ⟨now, s', -, hpass, rfl⟩ := Rules.play_cases hplay
  · exact h
  · exact h
  · obtain rfl | ⟨call, observed, placement, record, rfl, hslot, rfl, rfl⟩ := advance_shared hmove
    · exact h
    · obtain ⟨-, hgenuine, hlands⟩ := hw.2 _ (List.mem_of_getElem? hp)
      obtain ⟨r, hr, h⟩ | ⟨r, hr, h⟩ := h
      · cases hslot.symm.trans hr
        cases call with
        | acquire request =>
          -- the epoch that comes next is past every token there is
          have hepoch : r.value.epoch < record.value.epoch := by
            rw [show record.value.epoch = r.value.epoch + 1 from hlands]
            exact Nat.lt_succ_self _
          refine .inl ⟨record, rfl, .inl ?_⟩
          obtain h | ⟨h, -⟩ := h
          · exact h.trans (Nat.cast_lt.2 hepoch)
          · rw [← (Placement.matchesToken_iff.1 h).2.2.2]
            exact Nat.cast_lt.2 hepoch
        | renew token leaseMs =>
          obtain ⟨o, ho, -, hactive, -, hnext⟩ := hlands
          cases ho
          have hsame : record.value.epoch = r.value.epoch ∧
              record.value.matchesToken t = r.value.matchesToken t := by
            rw [hnext]
            exact ⟨rfl, rfl⟩
          obtain h | ⟨hm, hreleased | hexpired⟩ := h
          · exact .inl ⟨record, rfl, .inl (by rw [hsame.1]; exact h)⟩
          · exact absurd (hreleased.symm.trans hactive) (by decide)
          · obtain ht | ht | ht := lt_or_le_of_inTime htime hp hr
            · exact absurd hexpired (not_le.2 ht)
            · exact .inl ⟨record, rfl, .inr ⟨by rw [hsame.2]; exact hm, .inr ht⟩⟩
            · exact .inr ⟨record, rfl, ht⟩
        | release token =>
          obtain ⟨o, ho, -, hnext⟩ := hlands
          cases ho
          have hsame : record.value.epoch = r.value.epoch ∧
              record.value.matchesToken t = r.value.matchesToken t ∧
              record.value.state = .released := by
            rw [hnext]
            exact ⟨rfl, rfl, rfl⟩
          obtain h | ⟨hm, -⟩ := h
          · exact .inl ⟨record, rfl, .inl (by rw [hsame.1]; exact h)⟩
          · exact .inl ⟨record, rfl, .inr ⟨by rw [hsame.2.1]; exact hm, .inl hsame.2.2⟩⟩
        | validate token => exact hlands.elim
      · cases hslot.symm.trans hr
        exact absurd h (not_lt.2 (wellFormed_iff.1 (hgenuine r rfl)).2.1)
  · simp only [authority] at hpass
    split_ifs at hpass with hnow
    cases hpass
    obtain ⟨r, hr, h | ⟨hm, hreleased | hexpired⟩⟩ | h := h
    · exact .inl ⟨r, hr, .inl h⟩
    · exact .inl ⟨r, hr, .inr ⟨hm, .inl hreleased⟩⟩
    · exact .inl ⟨r, hr, .inr ⟨hm, .inr (hexpired.trans hnow)⟩⟩
    · exact .inr h

lemma validates_again (hw : Held (fun _ => True) (fun _ => Placed) w) (hplay : authority.play w turn = some w')
    (h : inTime w turn = false) : ∃ t, Lapsed w.shared t ∧ validates w'.shared t = true := by
  obtain ⟨k, e, token, leaseMs, r, placement, rfl, hp, hr, hexpired, hnow, hrevision⟩ :=
    inTime_eq_false h
  obtain ⟨hvalid, hgenuine, o, ho, hm, hactive, hsafe, hnext⟩ := hw.2 _ (List.mem_of_getElem? hp)
  cases ho
  have hwell := hgenuine r rfl
  obtain ⟨k', e', p, s', p', hturn, hp', hmove, rfl⟩ : ∃ k' e' p s' p',
      (Turn.move k e : Turn Phase Event ℚ) = .move k' e' ∧ w.parties[k']? = some p ∧
        authority.moves e' w.shared p = some (s', p') ∧ w' = ⟨s', w.parties.set k' p'⟩ := by
    obtain ⟨hidle, -⟩ | ⟨call, hbegin, -⟩ | h | ⟨now, s', hpass, -⟩ := Rules.play_cases hplay
    · cases hidle
    · cases hbegin
    · exact h
    · cases hpass
  cases hturn
  cases hp.symm.trans hp'
  have hmove : advance e w.shared (.writing (.renew token leaseMs) (some r) placement) =
      some (s', p') := hmove
  simp only [advance, putAt, compareAndSet, hr, Option.bind_some, and_self, if_true] at hmove
  cases hmove
  refine ⟨token, ⟨r, hr, .inr ⟨hm, .inr hexpired⟩⟩, validates_iff.2 ⟨?_, _, rfl, ?_, ?_, hnow, ?_⟩⟩
  · exact (Bool.and_eq_true_iff.1 hvalid).1
  · obtain ⟨hids, -⟩ := wellFormed_iff.1 hwell
    have hpositive : placement.revision ≠ 0 := by
      rw [hnext]
      exact Nat.succ_ne_zero _
    refine wellFormed_iff.2 ⟨?_, hrevision, hpositive, hsafe⟩
    rw [hnext]
    exact hids
  · dsimp only
    rw [hnext]
    exact hactive
  · dsimp only
    rw [hnext]
    exact hm

/-! ## Runs -/

def Acquires (run : Run authority) (i : ℕ) (placement : Placement) : Prop :=
  ∃ (k : ℕ) (request : AcquireRequest),
    (run.world i).parties[k]? ≠ some (Phase.answered (.acquire request) (.granted placement)) ∧
    (run.world (i + 1)).parties[k]? = some (Phase.answered (.acquire request) (.granted placement))

/-- What the placement authority is for. -/
structure Safe (run : Run authority) : Prop where
  one : ∀ i t t', validates (run.world i).shared t = true → validates (run.world i).shared t' = true → t = t'
  mono : ∀ i j, i ≤ j → epochOf (run.world i).shared.slot ≤ epochOf (run.world j).shared.slot
  rises : ∀ i placement, Acquires run i placement → epochOf (run.world i).shared.slot < placement.epoch ∧
      epochOf (run.world (i + 1)).shared.slot = placement.epoch
  final : ∀ i j t, i ≤ j → Lapsed (run.world i).shared t → validates (run.world j).shared t = false
  refused : ∀ (i j k : ℕ) (t : Token), i ≤ j → Lapsed (run.world i).shared t → (run.world i).parties[k]? = none →
    (run.world j).parties[k]? ≠ some (Phase.answered (.validate t) (.valid true))

variable {i j : ℕ}

section

variable (run : Run authority)

section

variable (hstart : (run.world 0).parties = [])
include hstart

lemma placed_at (i : ℕ) :
    Held (fun _ => True) (fun _ => Placed) (run.world i) := by
  refine run.held authority_keeps ⟨trivial, fun p hp => ?_⟩ i
  rw [hstart] at hp
  cases hp

lemma later_at (hij : i ≤ j) :
    Later (run.world i).shared (run.world j).shared :=
  run.related authority_keeps.refl Later.trans
    (fun i => (authority_keeps.play (placed_at run hstart i) (run.plays i)).2) hij

lemma acquires_rises {i : ℕ} {placement : Placement}
    (h : Acquires run i placement) : epochOf (run.world i).shared.slot < placement.epoch ∧
      epochOf (run.world (i + 1)).shared.slot = placement.epoch := by
  obtain ⟨k, request, hbefore, hafter⟩ := h
  obtain hsame | ⟨-, hb⟩ | ⟨e, p, -, hp, hmove⟩ := run.stays_or_moves hafter
  · exact absurd hsame hbefore
  · cases hb
  · have hplaced := (placed_at run hstart i).2 p (List.mem_of_getElem? hp)
    obtain ⟨observed, record, rfl, hslot, rfl, hshared⟩ := advance_granted hmove
    have hnext : record.value.epoch = epochOf observed + 1 := hplaced.2.2
    rw [hshared, hslot, hnext]
    exact ⟨Nat.lt_succ_self _, hnext⟩

lemma validates_after
    (htime : ∀ i, inTime (run.world i) (run.turn i) = true) (hij : i ≤ j)
    (h : Lapsed (run.world i).shared t) : validates (run.world j).shared t = false := by
  have hover : Lapsed (run.world j).shared t ∨ Broken (run.world j).shared := by
    induction j, hij using Nat.le_induction with
    | base => exact .inl h
    | succ j _ ih => exact over_play (placed_at run hstart j) (htime j) (run.plays j) ih
  obtain h | h := hover
  · exact validates_of_lapsed h
  · exact validates_of_broken h

lemma validates_of_answered {j k : ℕ}
    (h : (run.world j).parties[k]? = some (Phase.answered (.validate t) (.valid true))) :
    ∃ i < j, validates (run.world i).shared t = true ∧
      (run.world i).parties[k]? = some (Phase.permitted (.validate t)) := by
  obtain ⟨i, hij, e, p, -, hp, hmove⟩ := run.entered hstart h rfl
  obtain ⟨observed, rfl, hgood⟩ := advance_found hmove
  obtain ⟨i', hi', e', p', -, hp', hmove'⟩ := run.entered hstart hp rfl
  obtain ⟨rfl, hread⟩ := advance_observed hmove'
  refine ⟨i', hi'.trans hij, ?_, hp'⟩
  have hvalid : (Call.validate t).isValid = true :=
    (placed_at run hstart i').2 _ (List.mem_of_getElem? hp')
  have hnow : (run.world i').shared.now ≤ (run.world i).shared.now :=
    (later_at run hstart hi'.le).now
  have hread : readPlacement (run.world i').shared t.projectId = some observed := hread
  unfold validates
  rw [hread, Option.any_some, validateFrom_of_le hnow hgood, Bool.and_true]
  exact hvalid

end

/-- The authority is safe in exactly the runs in which every renewal is written in time. -/
theorem authority_safe_iff (hstart : (run.world 0).parties = []) :
    Safe run ↔ ∀ i, inTime (run.world i) (run.turn i) = true := by
  refine ⟨fun h i => ?_, fun htime => ?_⟩
  · by_contra hlate
    obtain ⟨t, hover, hgood⟩ := validates_again (placed_at run hstart i) (run.plays i)
      (Bool.eq_false_iff.2 hlate)
    exact absurd hgood (by rw [h.final i (i + 1) t (Nat.le_succ i) hover]; decide)
  · have hfinal : ∀ i j t, i ≤ j → Lapsed (run.world i).shared t → validates (run.world j).shared t = false :=
      fun i j t hij h => validates_after run hstart htime hij h
    refine ⟨fun i t t' => validates_unique, fun i j hij => (later_at run hstart hij).epoch,
      fun i placement => acquires_rises run hstart, hfinal, fun i j k t _ hover hnone hgood => ?_⟩
    obtain ⟨i', -, hgood', hp⟩ := validates_of_answered run hstart hgood
    obtain hlt | hle := lt_or_ge i' i
    · obtain ⟨q, hq⟩ := run.some_of_some hp hlt.le
      rw [hnone] at hq
      cases hq
    · rw [hfinal i i' t hle hover] at hgood'
      cases hgood'

end

def shopToken : Token := ⟨utf16 "shop", utf16 "node", utf16 "session", 1⟩

/-- A project is acquired for ten milliseconds and its renewal decided at once, and then the clock
moves to a moment before the renewal is written. -/
def renewalAt (now : ℚ) : List (Turn Phase Event ℚ) := [
  .begin (.asked (.acquire ⟨utf16 "shop", utf16 "node", utf16 "session", 0, 10⟩)),
  .move 0 ⟨true, 0⟩, .move 0 ⟨true, 0⟩, .move 0 ⟨true, 0⟩, .move 0 ⟨true, 0⟩,
  .begin (.asked (.renew shopToken 100)),
  .move 1 ⟨true, 0⟩, .move 1 ⟨true, 0⟩, .move 1 ⟨true, 0⟩, .pass now, .move 1 ⟨true, 0⟩]

def unplaced : World Shared Phase := ⟨⟨none, 0⟩, []⟩

def renewedRun : Run authority :=
  authority.replay unplaced (renewalAt 9) (by decide +kernel)

def revivedRun : Run authority :=
  authority.replay unplaced (renewalAt 10) (by decide +kernel)

theorem authority_safe_renewed : Safe renewedRun ∧ validates (renewedRun.world 11).shared shopToken = true := by
  have htime : ∀ i, inTime (renewedRun.world i) (renewedRun.turn i) = true :=
    Rules.replay_all (fun _ => rfl) (by decide +kernel)
  exact ⟨(authority_safe_iff renewedRun rfl).2 htime, by decide +kernel⟩

/-- A token that has expired is good again. -/
theorem not_authority_safe : ¬∀ run : Run authority, (run.world 0).parties = [] → Safe run := by
  intro h
  have hover : Lapsed (revivedRun.world 10).shared shopToken :=
    ⟨⟨⟨utf16 "shop", utf16 "node", utf16 "session", 1, 1, 10, .active⟩, 0⟩, by decide +kernel,
      .inr ⟨by decide +kernel, .inr (by decide +kernel)⟩⟩
  have hgood : validates (revivedRun.world 11).shared shopToken = true := by decide +kernel
  exact absurd hgood (by rw [(h revivedRun rfl).final 10 11 shopToken (by decide) hover]; decide)

end Zelavis.Platform
