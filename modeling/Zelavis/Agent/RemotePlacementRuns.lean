import Zelavis.Agent.RemotePlacement

/-!
# The placements an agent has accepted, over every run

Any number of calls accept and release placements, one step of the store at a time.
-/

namespace Zelavis.Agent.RemotePlacement

open Lib Lib.Turns Edge Checks Platform

variable {o : Options} {e : Event} {slot slot' : Option Stored} {p p' : Phase}
  {next previous : Placement} {observed : Option Stored} {attempts : ℕ} {r : Stored}

/-! ## Which placement comes after which -/

/-- A placement may come after another: it is of a later epoch, or of the same epoch and owner and no
earlier revision, and not held if the other was released. -/
def Follows (previous next : Placement) : Prop :=
  previous.epoch < next.epoch ∨ (previous.epoch = next.epoch ∧ previous.revision ≤ next.revision ∧
    previous.nodeId = next.nodeId ∧ previous.ownerSession = next.ownerSession ∧
    (previous.state = .released → next.state = .released))

lemma Follows.refl (a : Placement) : Follows a a := .inr ⟨rfl, le_rfl, rfl, rfl, id⟩

lemma Follows.trans {a b c : Placement} (h : Follows a b) (h' : Follows b c) : Follows a c := by
  obtain h | ⟨he, hr, hn, ho, hs⟩ := h
  · obtain h' | ⟨he', -⟩ := h'
    · exact .inl (h.trans h')
    · exact .inl (he' ▸ h)
  · obtain h' | ⟨he', hr', hn', ho', hs'⟩ := h'
    · exact .inl (he ▸ h')
    · exact .inr ⟨he.trans he', hr.trans hr', hn.trans hn', ho.trans ho', fun h => hs' (hs h)⟩

/-- What is written without stopping anybody is a later epoch over a released one, or the same epoch
and owner. -/
theorem judge_write (h : judge next (some previous) = .write) :
    Follows previous next ∧ (previous.epoch = next.epoch ∨ previous.state = .released) := by
  unfold judge at h
  dsimp only at h
  split_ifs at h with hstale hepoch hconflict hrevision hlease hactive
  · rw [not_or, not_lt, not_and, not_lt] at hstale
    rw [not_or, not_or, not_or, not_not, not_not, not_not] at hconflict
    obtain ⟨howner, hnode, -, hactive⟩ := hconflict
    refine ⟨.inr ⟨hepoch.symm, hstale.2 hepoch, hnode.symm, howner.symm, fun hreleased => ?_⟩,
      .inl hepoch.symm⟩
    rw [hactive] at hreleased
    cases hreleased
  · rw [not_or, not_lt] at hstale
    refine ⟨.inl (lt_of_le_of_ne hstale.1 (Ne.symm hepoch)), .inr ?_⟩
    cases hstate : previous.state with
    | active => exact absurd hstate hactive
    | released => rfl

lemma judge_fence {before : Placement} (h : judge next (some previous) = .fence before) :
    before = previous ∧ previous.epoch < next.epoch := by
  unfold judge at h
  dsimp only at h
  split_ifs at h with hstale hepoch hconflict hrevision hlease hactive
  cases h
  rw [not_or, not_lt] at hstale
  exact ⟨rfl, lt_of_le_of_ne hstale.1 (Ne.symm hepoch)⟩

lemma judge_none : judge next none = .write := rfl

/-! ## What no turn undoes -/

def versionOf (slot : Option Stored) : ℕ := slot.elim 0 fun r => r.updatedAt + 1

/-- What no turn undoes. -/
structure Later (slot slot' : Option Stored) : Prop where
  follows : ∀ r, slot = some r → ∃ r', slot' = some r' ∧ Follows r.value r'.value
  version : slot' = slot ∨ versionOf slot < versionOf slot'

lemma Later.refl (slot : Option Stored) : Later slot slot :=
  ⟨fun r hr => ⟨r, hr, Follows.refl _⟩, .inl rfl⟩

lemma Later.le (h : Later slot slot') : versionOf slot ≤ versionOf slot' := by
  obtain h | h := h.version
  · rw [h]
  · exact h.le

lemma Later.trans {a b c : Option Stored} (h : Later a b) (h' : Later b c) : Later a c := by
  refine ⟨fun r hr => ?_, ?_⟩
  · obtain ⟨r', hr', hf⟩ := h.follows r hr
    obtain ⟨r'', hr'', hf'⟩ := h'.follows r' hr'
    exact ⟨r'', hr'', hf.trans hf'⟩
  · obtain hb | hb := h.version
    · rw [← hb]
      exact h'.version
    · exact .inr (hb.trans_le h'.le)

def Gone (slot observed : Option Stored) : Prop := versionOf observed < versionOf slot

lemma Gone.later (h : Gone slot observed) (hl : Later slot slot') : Gone slot' observed :=
  lt_of_lt_of_le h hl.le

lemma Gone.ne (h : Gone slot observed) : slot ≠ observed := by
  rintro rfl
  exact lt_irrefl _ h

/-- What holds of a call wherever it is: what it read is what is stored, or is gone; and what it would
write may come after what it read. -/
def Placed (slot : Option Stored) : Phase → Prop
  | .attempt next _ => validId next.projectId = true
  | .observed next _ observed => validId next.projectId = true ∧
      (slot = observed ∨ Gone slot observed)
  | .fencing next _ observed previous => validId next.projectId = true ∧ (Gone slot observed ∨
      ∃ r, observed = some r ∧ r.value = previous ∧ previous.epoch < next.epoch)
  | .writing next _ observed => validId next.projectId = true ∧ (Gone slot observed ∨
      ∀ r, observed = some r → Follows r.value next)
  | .held _ observed => slot = observed ∨ Gone slot observed
  | .freeing observed current => Gone slot (some observed) ∨ observed.value = current
  | .accepting _ | .releasing _ | .answered _ => True

lemma Placed.later (h : Placed slot p) (hl : Later slot slot') : Placed slot' p := by
  have hread : ∀ {observed}, slot = observed ∨ Gone slot observed →
      slot' = observed ∨ Gone slot' observed := by
    rintro observed (rfl | h)
    · exact hl.version
    · exact .inr (h.later hl)
  cases p with
  | accepting grant => trivial
  | attempt next attempts => exact h
  | observed next attempts observed => exact ⟨h.1, hread h.2⟩
  | fencing next attempts observed previous =>
    exact ⟨h.1, h.2.imp_left fun hgone => hgone.later hl⟩
  | writing next attempts observed => exact ⟨h.1, h.2.imp_left fun hgone => hgone.later hl⟩
  | releasing token => trivial
  | held token observed => exact hread h
  | freeing observed current => exact h.imp_left fun hgone => hgone.later hl
  | answered answer => trivial

lemma version_lt_of_putAt {written : ℕ} {record : Stored}
    (h : putAt written slot observed next = some record) : versionOf slot < versionOf (some record) := by
  obtain ⟨rfl, -, hlt⟩ := putAt_eq_some h
  cases slot with
  | none => exact Nat.succ_pos _
  | some r => exact Nat.succ_lt_succ (hlt r rfl)

lemma verifyGrant_eq_some {now : ℚ} {signed : Bool} {g : Grant}
    (h : verifyGrant o now signed g = some next) : validId next.projectId = true := by
  unfold verifyGrant at h
  dsimp only at h
  split_ifs at h with hall
  cases h
  simp only [Bool.and_eq_true] at hall
  tauto

variable {found : Option Placement} {projectId : Utf16}

lemma readLease_eq_some (hid : validId projectId = true) (h : readLease slot projectId = some found) :
    found = slot.map Versioned.value := by
  unfold readLease at h
  rw [if_pos hid] at h
  cases slot with
  | none =>
    cases h
    rfl
  | some r =>
    dsimp only at h
    split_ifs at h
    cases h
    rfl

lemma readLease_eq_some_some {found : Placement}
    (h : readLease slot projectId = some (some found)) : ∃ r, slot = some r ∧ r.value = found := by
  unfold readLease at h
  split_ifs at h
  · cases slot with
    | none => cases h
    | some r =>
      dsimp only at h
      split_ifs at h
      cases h
      exact ⟨r, rfl, rfl⟩
  · cases h

lemma placed_acceptFrom (hid : validId next.projectId = true)
    (hread : readLease slot next.projectId = some found) (h : slot = observed ∨ Gone slot observed) :
    Placed slot (acceptFrom next attempts observed found) := by
  cases readLease_eq_some hid hread
  have hobserved : ∀ {Q : Prop}, (slot = observed → Q) → Gone slot observed ∨ Q :=
    fun hq => h.symm.imp_right hq
  unfold acceptFrom
  cases hjudge : judge next (slot.map Versioned.value) with
  | refuse | same => trivial
  | fence previous =>
    refine ⟨hid, hobserved fun heq => ?_⟩
    subst heq
    cases slot with
    | none => cases hjudge
    | some r =>
      obtain ⟨rfl, hlt⟩ := judge_fence hjudge
      exact ⟨r, rfl, rfl, hlt⟩
  | write =>
    refine ⟨hid, hobserved fun heq r hr => ?_⟩
    subst heq
    cases hr
    exact (judge_write hjudge).1

lemma placed_releaseLease {token : Token}
    (hread : readLease slot projectId = some found) (h : slot = observed ∨ Gone slot observed) :
    Placed slot (releaseLease token observed found) := by
  cases observed with
  | none => cases found <;> trivial
  | some r =>
    cases found with
    | none => trivial
    | some current =>
      unfold releaseLease
      dsimp only
      split_ifs
      · trivial
      · trivial
      · obtain ⟨r', hr', rfl⟩ := readLease_eq_some_some hread
        obtain h | h := h
        · cases hr'.symm.trans h
          exact .inr rfl
        · exact .inl h

/-- A move leaves the record and where the call is follows from it, or it writes what may come after the
record as it stands and answers that it has. -/
theorem advance_cases (hp : Placed slot p) (h : advance o e slot p = some (slot', p')) :
    (slot' = slot ∧ Placed slot p') ∨
    (∃ next attempts record, p = .writing next attempts slot ∧ slot' = some record ∧
      record.value = next ∧ p' = .answered (.accepted next) ∧ Later slot slot') ∨
    (∃ observed record, p = .freeing observed observed.value ∧ slot = some observed ∧
      slot' = some record ∧ record.value = { observed.value with state := .released } ∧
      p' = .answered (.released true) ∧ Later slot slot') := by
  cases p with
  | accepting grant =>
    obtain ⟨rfl, rfl⟩ := Prod.ext_iff.1 (Option.some.inj h)
    refine .inl ⟨rfl, ?_⟩
    cases hverify : verifyGrant o e.now e.answer grant with
    | none => trivial
    | some next => exact verifyGrant_eq_some hverify
  | attempt next attempts =>
    simp only [advance] at h
    split_ifs at h
    · cases h
      exact .inl ⟨rfl, hp, .inl rfl⟩
    · cases h
      exact .inl ⟨rfl, trivial⟩
  | observed next attempts observed =>
    simp only [advance] at h
    cases hread : readLease slot next.projectId with
    | none =>
      rw [hread] at h
      cases h
      exact .inl ⟨rfl, trivial⟩
    | some found =>
      rw [hread] at h
      cases h
      exact .inl ⟨rfl, placed_acceptFrom hp.1 hread hp.2⟩
  | fencing next attempts observed previous =>
    simp only [advance] at h
    split_ifs at h
    · cases h
      refine .inl ⟨rfl, hp.1, hp.2.imp_right ?_⟩
      rintro ⟨r, rfl, rfl, hlt⟩ r' hr'
      cases hr'
      exact .inl hlt
    · cases h
      exact .inl ⟨rfl, trivial⟩
  | writing next attempts observed =>
    simp only [advance] at h
    cases hput : putAt e.written slot observed next with
    | none =>
      rw [hput] at h
      cases h
      exact .inl ⟨rfl, hp.1⟩
    | some record =>
      rw [hput] at h
      cases h
      have hversion := version_lt_of_putAt hput
      obtain ⟨rfl, hvalue, -⟩ := putAt_eq_some hput
      refine .inr (.inl ⟨next, attempts, record, rfl, rfl, hvalue, rfl, fun r hr => ?_, .inr hversion⟩)
      obtain hgone | hfollows := hp.2
      · exact absurd rfl hgone.ne
      · exact ⟨record, rfl, by rw [hvalue]; exact hfollows r hr⟩
  | releasing token =>
    cases h
    exact .inl ⟨rfl, .inl rfl⟩
  | held token observed =>
    simp only [advance] at h
    cases hread : readLease slot token.projectId with
    | none =>
      rw [hread] at h
      cases h
      exact .inl ⟨rfl, trivial⟩
    | some found =>
      rw [hread] at h
      cases h
      exact .inl ⟨rfl, placed_releaseLease hread hp⟩
  | freeing observed current =>
    simp only [advance] at h
    cases hput : compareAndSet e.written slot observed { current with state := .released } with
    | none =>
      rw [hput] at h
      cases h
      exact .inl ⟨rfl, trivial⟩
    | some record =>
      rw [hput] at h
      cases h
      have hput' : putAt e.written slot (some observed) { current with state := .released } =
        some record := hput
      have hversion := version_lt_of_putAt hput'
      obtain ⟨rfl, hvalue⟩ := compareAndSet_eq_some hput
      obtain hgone | rfl := hp
      · exact absurd rfl hgone.ne
      · refine .inr (.inr ⟨observed, record, rfl, rfl, rfl, hvalue, rfl, fun r hr => ?_, .inr hversion⟩)
        cases hr
        refine ⟨record, rfl, ?_⟩
        rw [hvalue]
        exact .inr ⟨rfl, le_rfl, rfl, rfl, fun _ => rfl⟩
  | answered answer => cases h

/-- How a call comes to write: what it read is gone, or its owner was stopped, or there is nobody to
stop. -/
theorem advance_writing (hp : Placed slot p)
    (h : advance o e slot p = some (slot', .writing next attempts (some r))) :
    Gone slot (some r) ∨ (p = .fencing next attempts (some r) r.value ∧ e.answer = true) ∨
      r.value.epoch = next.epoch ∨ r.value.state = .released := by
  cases p with
  | accepting grant =>
    obtain ⟨-, h⟩ := Prod.ext_iff.1 (Option.some.inj h)
    cases hverify : verifyGrant o e.now e.answer grant with
    | none | some =>
      rw [hverify] at h
      cases h
  | attempt next' attempts' =>
    simp only [advance] at h
    split_ifs at h <;> cases h
  | observed next' attempts' observed =>
    simp only [advance] at h
    cases hread : readLease slot next'.projectId with
    | none =>
      rw [hread] at h
      cases h
    | some found =>
      rw [hread] at h
      obtain ⟨-, h⟩ := Prod.ext_iff.1 (Option.some.inj h)
      dsimp only [acceptFrom] at h
      cases hjudge : judge next' found with
      | refuse | same | fence =>
        rw [hjudge] at h
        cases h
      | write =>
        rw [hjudge] at h
        cases h
        obtain ⟨hid, heq | hgone⟩ := hp
        · cases readLease_eq_some hid hread
          rw [heq] at hjudge
          exact .inr (.inr (judge_write hjudge).2)
        · exact .inl hgone
  | fencing next' attempts' observed previous =>
    simp only [advance] at h
    split_ifs at h with hanswer
    · cases h
      obtain ⟨-, hgone | ⟨r', hr', rfl, -⟩⟩ := hp
      · exact .inl hgone
      · cases hr'
        exact .inr (.inl ⟨rfl, hanswer⟩)
    · cases h
  | writing next' attempts' observed =>
    simp only [advance] at h
    cases hput : putAt e.written slot observed next' with
    | none | some =>
      rw [hput] at h
      cases h
  | releasing token => cases h
  | held token observed =>
    simp only [advance] at h
    cases hread : readLease slot token.projectId with
    | none =>
      rw [hread] at h
      cases h
    | some found =>
      rw [hread] at h
      obtain ⟨-, h⟩ := Prod.ext_iff.1 (Option.some.inj h)
      cases observed with
      | none => cases found <;> cases h
      | some r' =>
        cases found with
        | none => cases h
        | some current =>
          dsimp only [releaseLease] at h
          split_ifs at h
  | freeing observed current =>
    simp only [advance] at h
    cases hput : compareAndSet e.written slot observed { current with state := .released } with
    | none | some =>
      rw [hput] at h
      cases h
  | answered answer => cases h

lemma leaseStore_keeps : (leaseStore o).Keeps (fun _ => True) Placed Later where
  begins := by
    intro slot p _ hb
    cases p with
    | accepting grant => trivial
    | attempt | observed | fencing | writing => cases hb
    | releasing token => trivial
    | held | freeing => cases hb
    | answered answer => trivial
  moves := by
    intro e slot p slot' p' _ hp hmove
    obtain ⟨rfl, hp'⟩ | ⟨next, attempts, record, -, -, -, rfl, hlater⟩ |
      ⟨observed, record, -, -, -, -, rfl, hlater⟩ := advance_cases hp hmove
    · exact ⟨trivial, hp', Later.refl slot'⟩
    · exact ⟨trivial, trivial, hlater⟩
    · exact ⟨trivial, trivial, hlater⟩
  passes := by
    intro event
    exact event.elim
  stable _ hl hp := hp.later hl
  refl := Later.refl

/-! ## Runs -/

/-- What holds of a run of the lease store. -/
structure Steady (run : Run (leaseStore o)) : Prop where
  rises : ∀ i j r, i ≤ j → (run.world i).shared = some r → ∃ r', (run.world j).shared = some r' ∧
    (r.value.epoch < r'.value.epoch ∨ (r.value.epoch = r'.value.epoch ∧ r.value.revision ≤ r'.value.revision))
  owner : ∀ i j r r', (run.world i).shared = some r → (run.world j).shared = some r' →
    r.value.epoch = r'.value.epoch →
    r.value.nodeId = r'.value.nodeId ∧ r.value.ownerSession = r'.value.ownerSession
  ended : ∀ i j r r', i ≤ j → (run.world i).shared = some r → (run.world j).shared = some r' →
    r.value.epoch = r'.value.epoch → r.value.state = .released → r'.value.state = .released
  /-- A placement that is held gives way to a later epoch at the hands of a call for which its owner
  was confirmed to be stopped before. -/
  fenced : ∀ i r r', (run.world i).shared = some r → (run.world (i + 1)).shared = some r' →
    r.value.state = .active → r.value.epoch < r'.value.epoch →
    ∃ k e, run.turn i = .move k e ∧ ∃ i' < i, ∃ e' attempts, run.turn i' = .move k e' ∧ e'.answer = true ∧
      (run.world i').parties[k]? = some (.fencing r'.value attempts (some r) r.value)
  refused : ∀ (i j k : ℕ) e answer, i < j → run.turn i = .move k e →
    (run.world j).parties[k]? = some (Phase.answered answer) →
    (answer = .released false ∨ ∃ fault, answer = .failed fault) →
    (run.world (i + 1)).shared = (run.world i).shared

variable {i j : ℕ}

section

variable (run : Run (leaseStore o))

section

variable (hstart : (run.world 0).parties = [])
include hstart

lemma placed_at (i : ℕ) :
    Held (fun _ => True) Placed (run.world i) := by
  refine run.held leaseStore_keeps ⟨trivial, fun p hp => ?_⟩ i
  rw [hstart] at hp
  cases hp

lemma later_at (hij : i ≤ j) :
    Later (run.world i).shared (run.world j).shared :=
  run.related Later.refl Later.trans
    (fun i => (leaseStore_keeps.play (placed_at run hstart i) (run.plays i)).2) hij

lemma follows_at {r r' : Stored} (hij : i ≤ j)
    (hr : (run.world i).shared = some r) (hr' : (run.world j).shared = some r') :
    Follows r.value r'.value := by
  obtain ⟨r'', hr'', h⟩ := (later_at run hstart hij).follows r hr
  cases hr'.symm.trans hr''
  exact h

lemma fenced_of_writing {i k : ℕ}
    (hslot : (run.world i).shared = some r) (hactive : r.value.state = .active)
    (hepoch : r.value.epoch < next.epoch)
    (hp : (run.world i).parties[k]? = some (.writing next attempts (some r))) :
    ∃ i' < i, ∃ e', run.turn i' = .move k e' ∧ e'.answer = true ∧
      (run.world i').parties[k]? = some (.fencing next attempts (some r) r.value) := by
  obtain ⟨i', hi', e', p', hturn, hp', hmove⟩ := run.entered hstart hp rfl
  have hplaced := (placed_at run hstart i').2 p' (List.mem_of_getElem? hp')
  obtain hgone | ⟨rfl, hanswer⟩ | hsame | hreleased := advance_writing hplaced hmove
  · have hle := (later_at run hstart hi'.le).le
    rw [hslot] at hle
    exact absurd hgone (not_lt.2 hle)
  · exact ⟨i', hi', e', hturn, hanswer, hp'⟩
  · exact absurd hsame (ne_of_lt hepoch)
  · rw [hactive] at hreleased
    cases hreleased

end

/-- Every run of the lease store keeps epochs and revisions in order, gives an epoch one owner, keeps
what was released released, takes no placement over before its owner was stopped, and does nothing for
a call that is refused. -/
theorem leaseStore_steady (hstart : (run.world 0).parties = []) : Steady run where
  rises i j r hij hr := by
    obtain ⟨r', hr', hf⟩ := (later_at run hstart hij).follows r hr
    refine ⟨r', hr', ?_⟩
    obtain h | ⟨hepoch, hrevision, -⟩ := hf
    · exact .inl h
    · exact .inr ⟨hepoch, hrevision⟩
  owner i j r r' hr hr' hepoch := by
    obtain hij | hji := le_total i j
    · obtain h | ⟨-, -, hn, ho, -⟩ := follows_at run hstart hij hr hr'
      · exact absurd hepoch (ne_of_lt h)
      · exact ⟨hn, ho⟩
    · obtain h | ⟨-, -, hn, ho, -⟩ := follows_at run hstart hji hr' hr
      · exact absurd hepoch (ne_of_gt h)
      · exact ⟨hn.symm, ho.symm⟩
  ended i j r r' hij hr hr' hepoch hreleased := by
    obtain h | ⟨-, -, -, -, h⟩ := follows_at run hstart hij hr hr'
    · exact absurd hepoch (ne_of_lt h)
    · exact h hreleased
  fenced i r r' hr hr' hactive hepoch := by
    obtain ⟨-, h⟩ | ⟨p, -, -, h⟩ | ⟨k, e, p, slot', p', hturn, hp, hmove, h⟩ | ⟨event, -⟩ :=
      Rules.play_cases (run.plays i)
    · rw [h, hr] at hr'
      cases hr'
      exact absurd hepoch (lt_irrefl _)
    · rw [h] at hr'
      cases hr.symm.trans hr'
      exact absurd hepoch (lt_irrefl _)
    · have hslot' : slot' = some r' := by
        rw [h] at hr'
        exact hr'
      have hplaced := (placed_at run hstart i).2 p (List.mem_of_getElem? hp)
      obtain ⟨hsame, -⟩ | ⟨next, attempts, record, rfl, hrecord, rfl, -⟩ |
        ⟨observed, record, -, hobserved, hrecord, hvalue, -⟩ := advance_cases hplaced hmove
      · cases hslot'.symm.trans (hsame.trans hr)
        exact absurd hepoch (lt_irrefl _)
      · cases hslot'.symm.trans hrecord
        rw [hr] at hp
        obtain ⟨i', hi', e', hturn', hanswer, hp'⟩ :=
          fenced_of_writing run hstart hr hactive hepoch hp
        exact ⟨k, e, hturn, i', hi', e', attempts, hturn', hanswer, hp'⟩
      · cases hslot'.symm.trans hrecord
        cases hr.symm.trans hobserved
        rw [hvalue] at hepoch
        exact absurd hepoch (lt_irrefl _)
    · exact event.elim
  refused i j k e answer hij hturn hj hanswer := by
    obtain ⟨hidle, -⟩ | ⟨p, hbegin, -⟩ | ⟨k', e', p, slot', p', hturn', hp, hmove, h⟩ | ⟨event, -⟩ :=
      Rules.play_cases (run.plays i)
    · cases hturn.symm.trans hidle
    · cases hturn.symm.trans hbegin
    · cases hturn.symm.trans hturn'
      have hplaced := (placed_at run hstart i).2 p (List.mem_of_getElem? hp)
      -- a call that has written has answered, and that answer stands
      have hstands : ∀ answer', p' = .answered answer' → answer' = answer := by
        rintro answer' rfl
        have hlt : k < (run.world i).parties.length := (List.getElem?_eq_some_iff.1 hp).1
        have hnext : (run.world (i + 1)).parties[k]? = some (.answered answer') := by
          rw [h]
          exact List.getElem?_set_self hlt
        have hlast := run.stuck (fun _ _ => rfl) hnext (Nat.succ_le_of_lt hij)
        cases hlast.symm.trans hj
        rfl
      obtain ⟨hsame, -⟩ | ⟨next, attempts, record, -, -, -, hp', -⟩ |
        ⟨observed, record, -, -, -, -, hp', -⟩ := advance_cases hplaced hmove
      · rw [h]
        exact hsame
      · cases hstands _ hp'
        obtain hfailed | ⟨fault, hfailed⟩ := hanswer
        · cases hfailed
        · cases hfailed
      · cases hstands _ hp'
        obtain hfailed | ⟨fault, hfailed⟩ := hanswer
        · cases hfailed
        · cases hfailed
    · exact event.elim

end

def shopGrant (ownerSession : Utf16) (epoch : ℕ) : Grant where
  keyId := utf16 "key"
  agentId := utf16 "agent"
  placement := ⟨utf16 "shop", utf16 "node", ownerSession, epoch, epoch, 1000, .active⟩
  issuedAt := 0
  expiresAt := 1000

def takeoverRun : Run (leaseStore ⟨utf16 "agent", utf16 "node"⟩) :=
  Rules.replay _ ⟨none, []⟩
    [.begin (.accepting (shopGrant (utf16 "first") 1)),
      .move 0 ⟨1, true, 0⟩, .move 0 ⟨1, true, 0⟩, .move 0 ⟨1, true, 0⟩, .move 0 ⟨1, true, 0⟩,
      .begin (.accepting (shopGrant (utf16 "second") 2)),
      .move 1 ⟨1, true, 0⟩, .move 1 ⟨1, true, 0⟩, .move 1 ⟨1, true, 0⟩, .move 1 ⟨1, true, 0⟩,
      .move 1 ⟨1, true, 0⟩] (by decide +kernel)

theorem leaseStore_steady_takeover : Steady takeoverRun ∧ (takeoverRun.world 11).shared.map Versioned.value =
      some (shopGrant (utf16 "second") 2).placement :=
  ⟨leaseStore_steady takeoverRun rfl, by decide +kernel⟩

end Zelavis.Agent.RemotePlacement
