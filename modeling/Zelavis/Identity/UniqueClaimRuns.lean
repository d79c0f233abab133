import Zelavis.Identity.UniqueClaims

/-!
# Unique names

Over every run of `Zelavis.Identity.UniqueClaims` whose turns are clear.
-/

namespace Zelavis.Identity.UniqueClaims

open Lib Turns List Option

variable {α : Type} {names : Named α} {s s' : Store α} {p p' : Phase α} {key : Utf16} {id : ℕ}

/-! ## Claims that are stored -/

lemma owns_setClaim (s : Store α) (key key' : Utf16) (claim : Claim) (id : ℕ) :
    (s.setClaim key' (some claim)).owns key id =
      if key = key' then decide (claim.owner = id) else s.owns key id := by
  unfold Store.owns Store.setClaim
  dsimp only
  rw [Function.update_apply]
  split_ifs <;> rfl

lemma owns_unique {id id' : ℕ} (h : s.owns key id = true) (h' : s.owns key id' = true) : id = id' := by
  obtain ⟨claim, hclaim⟩ := isSome_iff_exists.1 (isSome_of_any h)
  unfold Store.owns at h h'
  rw [hclaim, any_some, decide_eq_true_eq] at h h'
  exact h.symm.trans h'

lemma owns_release (s : Store α) (key key' : Utf16) (id id' : ℕ) (h : s.owns key id = true)
    (hne : ¬(key = key' ∧ id = id')) : (s.release key' id').owns key id = true := by
  unfold Store.release
  split_ifs with howns
  · unfold Store.owns Store.setClaim
    dsimp only
    rw [Function.update_apply, if_neg]
    · exact h
    · rintro rfl
      apply hne
      exact ⟨rfl, owns_unique h howns⟩
  · exact h

/-! ## One step of claiming -/

def Undisturbed (names : Named α) (others : List (Phase α)) (s s' : Store α) : Prop :=
  ∀ key id, s.owns key id = true → s'.owns key id = true ∨ inUse names s others id key = false

lemma Undisturbed.refl (others : List (Phase α)) (s : Store α) : Undisturbed names others s s :=
  fun _ _ h => .inl h

def Claimed.Sound (s' : Store α) (owner : ℕ) (c : Claiming) : Claimed → Prop
  | .going next => (∀ u ∈ next.claimed, s'.owns u.key owner = true) ∧
    ∀ u, u ∈ c.claimed ∨ u ∈ c.todo → u ∈ next.claimed ∨ u ∈ next.todo
  | .all => c.todo = []
  | .refused _ => True

variable {others : List (Phase α)} {unique : UniqueKey}

lemma undisturbed_claim {owner now : ℕ}
    (h : ∀ id, s.owns unique.key id = true → id = owner ∨ inUse names s others id unique.key = false) :
    Undisturbed names others s (s.setClaim unique.key (some ⟨owner, now⟩)) := by
  intro key id howns
  rw [owns_setClaim]
  split_ifs with hkey
  · subst hkey
    obtain rfl | hunused := h id howns
    · exact .inl (decide_eq_true rfl)
    · exact .inr hunused
  · exact .inl howns

variable {c : Claiming} {owner : ℕ}

lemma claimed_sound {todo : List UniqueKey}
    (htodo : c.todo = unique :: todo) (hheld : ∀ u ∈ c.claimed, s.owns u.key owner = true)
    (hkept : ∀ key, s.owns key owner = true → s'.owns key owner = true)
    (howns : s'.owns unique.key owner = true) : (Claimed.going (c.advance unique todo)).Sound s' owner c := by
  refine ⟨fun u hu => ?_, fun u hu => ?_⟩
  · obtain hu | hu := mem_append.1 hu
    · exact hkept u.key (hheld u hu)
    · rw [mem_singleton.1 hu]
      exact howns
  · rw [htodo, mem_cons] at hu
    obtain hu | rfl | hu := hu
    · exact .inl (mem_append_left _ hu)
    · exact .inl (mem_append_right _ (mem_singleton_self u))
    · exact .inr hu

lemma Claiming.next_undisturbed (now : ℕ)
    (hclear : c.clear names s others = true) (hheld : ∀ u ∈ c.claimed, s.owns u.key owner = true) :
    (c.next owner now s).1.records = s.records ∧ Undisturbed names others s (c.next owner now s).1 ∧
      (∀ key, s.owns key owner = true → (c.next owner now s).1.owns key owner = true) ∧
      (c.next owner now s).2.Sound (c.next owner now s).1 owner c := by
  have hown : ∀ (key : Utf16) (unique : UniqueKey), s.owns key owner = true →
      (s.setClaim unique.key (some ⟨owner, now⟩)).owns key owner = true := by
    intro key unique howns
    rw [owns_setClaim]
    split_ifs
    · exact decide_eq_true rfl
    · exact howns
  have hself : ∀ unique : UniqueKey,
      (s.setClaim unique.key (some ⟨owner, now⟩)).owns unique.key owner = true := by
    intro unique
    rw [owns_setClaim, if_pos rfl]
    exact decide_eq_true rfl
  obtain ⟨claimed, todo, stage⟩ := c
  cases todo with
  | nil => exact ⟨rfl, Undisturbed.refl others s, fun _ h => h, rfl⟩
  | cons unique todo =>
    cases stage with
    | claim =>
      cases hclaim : s.claims unique.key with
      | none =>
        simp only [Claiming.next, hclaim]
        refine ⟨rfl, undisturbed_claim fun id howns => ?_, fun key => hown key unique,
          claimed_sound rfl hheld (fun key => hown key unique) (hself unique)⟩
        rw [Store.owns, hclaim] at howns
        cases howns
      | some claim =>
        simp only [Claiming.next, hclaim]
        split_ifs with howner hold
        · refine ⟨rfl, Undisturbed.refl others s, fun _ h => h, claimed_sound rfl hheld (fun _ h => h) ?_⟩
          rw [Store.owns, hclaim, any_some]
          exact decide_eq_true howner
        · exact ⟨rfl, Undisturbed.refl others s, fun _ h => h, hheld, fun _ hu => hu⟩
        · exact ⟨rfl, Undisturbed.refl others s, fun _ h => h, trivial⟩
    | orphan stale =>
      simp only [Claiming.next]
      split_ifs
      · exact ⟨rfl, Undisturbed.refl others s, fun _ h => h, trivial⟩
      · exact ⟨rfl, Undisturbed.refl others s, fun _ h => h, hheld, fun _ hu => hu⟩
    | takeover stale =>
      simp only [Claiming.next]
      split_ifs with howns
      · refine ⟨rfl, undisturbed_claim fun id hid => .inr ?_, fun key => hown key unique,
          claimed_sound rfl hheld (fun key => hown key unique) (hself unique)⟩
        simp only [Claiming.clear, howns, Bool.true_and, Bool.not_eq_true'] at hclear
        rw [owns_unique hid howns]
        exact hclear
      · exact ⟨rfl, Undisturbed.refl others s, fun _ h => h, trivial⟩

/-! ## One step of a call -/

def Phase.Whole (names : Named α) : Phase α → Prop
  | .creating record c => ∀ u ∈ names.keys record, u ∈ c.claimed ∨ u ∈ c.todo
  | .updating record before c => ∀ u ∈ names.added record before, u ∈ c.claimed ∨ u ∈ c.todo
  | _ => True

/-- What holds of a call: it has what it has claimed. -/
structure Phase.Sound (names : Named α) (s : Store α) (p : Phase α) : Prop where
  holds : ∀ u ∈ p.holds names, s.owns u.key (p.id names) = true
  whole : p.Whole names

def Store.Sound (names : Named α) (s : Store α) : Prop :=
  ∀ id v, s.records id = some v → ∀ u ∈ names.keys v.value, s.owns u.key id = true

/-- What a step does, to the claims, to the records and to the call. -/
structure Steps (names : Named α) (others : List (Phase α)) (s s' : Store α) (id : ℕ) (p' : Phase α) :
    Prop where
  undisturbed : Undisturbed names others s s'
  records : ∀ id' v, s'.records id' = some v → s.records id' = some v ∨
    id' = id ∧ ∀ u ∈ names.keys v.value, s'.owns u.key id = true
  elsewhere : ∀ id' ≠ id, s'.records id' = s.records id'
  sound : p'.Sound names s'
  id_eq : p'.id names = id

lemma Steps.same {p' : Phase α} (hsound : p'.Sound names s)
    (hid : p'.id names = id) : Steps names others s s id p' :=
  ⟨Undisturbed.refl others s, fun _ _ hv => .inl hv, fun _ _ => rfl, hsound, hid⟩

lemma Phase.sound_of_holds_nil (h : p.holds names = []) (hwhole : p.Whole names) : p.Sound names s := by
  refine ⟨fun u hu => ?_, hwhole⟩
  rw [h] at hu
  cases hu

lemma Steps.write {p' : Phase α} {record : Option (Versioned α)}
    (hrecord : ∀ v, record = some v → ∀ u ∈ names.keys v.value, s.owns u.key id = true)
    (hsound : p'.Sound names s) (hid : p'.id names = id) :
    Steps names others s (s.setRecord id record) id p' := by
  refine ⟨fun key id' h => .inl h, fun id' v hv => ?_, fun id' hne => Function.update_of_ne hne _ _,
    ⟨hsound.holds, hsound.whole⟩, hid⟩
  unfold Store.setRecord at hv
  dsimp only at hv
  rw [Function.update_apply] at hv
  split_ifs at hv with heq
  · exact .inr ⟨heq, hrecord v hv⟩
  · exact .inl hv

lemma owns_of_has (hstore : s.Sound names) (h : s.has names id key = true) : s.owns key id = true := by
  obtain ⟨v, hv⟩ := isSome_iff_exists.1 (isSome_of_any h)
  rw [Store.has, hv, any_some, List.any_eq_true] at h
  obtain ⟨u, hu, hkey⟩ := h
  rw [← of_decide_eq_true hkey]
  exact hstore id v hv u hu

variable {u : UniqueKey}

lemma mem_difference {keys without : List UniqueKey} :
    u ∈ difference keys without ↔ u ∈ keys ∧ without.all (·.key ≠ u.key) = true := by
  rw [difference, mem_filter]

lemma steps_claiming {now : ℕ} {going : Claiming → Phase α}
    {all : Phase α} (hclear : c.clear names s others = true) (hheld : ∀ u ∈ c.claimed, s.owns u.key id = true)
    (hgoing : ∀ s' next, (Claimed.going next).Sound s' id c → (going next).Sound names s' ∧
      (going next).id names = id)
    (hall : ∀ s', c.todo = [] → (∀ u ∈ c.claimed, s'.owns u.key id = true) → all.Sound names s' ∧
      all.id names = id) :
    Steps names others s (c.next id now s).1 id ((c.next id now s).2.phase id c going all) := by
  obtain ⟨hrecords, hundisturbed, hkept, hsound⟩ := Claiming.next_undisturbed now hclear hheld
  have hheld' : ∀ u ∈ c.claimed, (c.next id now s).1.owns u.key id = true := fun u hu =>
    hkept u.key (hheld u hu)
  have hparty : ((c.next id now s).2.phase id c going all).Sound names (c.next id now s).1 ∧
      ((c.next id now s).2.phase id c going all).id names = id := by
    cases hcame : (c.next id now s).2 with
    | going next =>
      rw [hcame] at hsound
      exact hgoing _ next hsound
    | all =>
      rw [hcame] at hsound
      exact hall _ hsound hheld'
    | refused error => exact ⟨Phase.sound_of_holds_nil rfl trivial, rfl⟩
  exact ⟨hundisturbed, fun id' v hv => .inl (hrecords ▸ hv), fun id' _ => congrFun hrecords id', hparty.1,
    hparty.2⟩

lemma undisturbed_release {key : Utf16} (h : s.owns key id = true → inUse names s others id key = false) :
    Undisturbed names others s (s.release key id) := by
  intro key' id' howns
  by_cases heq : key' = key ∧ id' = id
  · obtain ⟨rfl, rfl⟩ := heq
    exact .inr (h howns)
  · exact .inl (owns_release s key' key id' id howns heq)

lemma records_release (s : Store α) (key : Utf16) (id : ℕ) : (s.release key id).records = s.records := by
  unfold Store.release
  split_ifs <;> rfl

variable {v : Versioned α}

lemma stored_of_write {next : Option α} {read stored record : Option (Versioned α)}
    (h : write next read stored = .stored record) (hv : record = some v) :
    ∃ n, next = some n ∧ v.value = n ∧ read.map Versioned.version = stored.map Versioned.version := by
  cases next with
  | none =>
    have hnone : record = none := by
      cases read with
      | none =>
        cases stored with
        | none => exact (Written.stored.inj h).symm
        | some w => cases h
      | some r =>
        cases stored with
        | none => exact (Written.stored.inj h).symm
        | some w =>
          simp only [write] at h
          split_ifs at h
          exact (Written.stored.inj h).symm
    rw [hnone] at hv
    cases hv
  | some n =>
    refine ⟨n, rfl, ?_⟩
    cases read with
    | none =>
      cases stored with
      | none =>
        cases h
        cases hv
        exact ⟨rfl, rfl⟩
      | some w => cases h
    | some r =>
      cases stored with
      | none => cases h
      | some w =>
        simp only [write] at h
        split_ifs at h with hversion
        cases h
        cases hv
        exact ⟨rfl, congrArg some hversion⟩

lemma advance_steps {e : Event} (hstore : s.Sound names)
    (hsound : p.Sound names s) (hclear : p.clear names e s others = true)
    (h : advance names e s p = some (s', p')) : Steps names others s s' (p.id names) p' := by
  cases p with
  | creating record c =>
    cases h
    refine steps_claiming hclear hsound.holds (fun s' next hnext => ⟨⟨hnext.1, fun u hu => ?_⟩, rfl⟩)
      fun s' htodo hheld => ⟨⟨fun u hu => ?_, trivial⟩, rfl⟩
    · exact hnext.2 u (hsound.whole u hu)
    · obtain hu | hu := hsound.whole u hu
      · exact hheld u hu
      · rw [htodo] at hu
        cases hu
  | inserting record =>
    have heq := some.inj h
    cases hv : s.records (names.id record) with
    | none =>
      rw [hv] at heq
      cases heq
      refine Steps.write (fun v hv => ?_) (Phase.sound_of_holds_nil rfl trivial) rfl
      cases hv
      exact hsound.holds
    | some v =>
      rw [hv] at heq
      cases heq
      exact Steps.same (Phase.sound_of_holds_nil rfl trivial) rfl
  | reading record =>
    cases h
    exact Steps.same ⟨nofun, fun u hu => .inr hu⟩ rfl
  | updating record before c =>
    cases h
    refine steps_claiming hclear hsound.holds (fun s' next hnext => ⟨⟨hnext.1, fun u hu => ?_⟩, rfl⟩)
      fun s' htodo hheld => ⟨⟨fun u hu => ?_, trivial⟩, rfl⟩
    · exact hnext.2 u (hsound.whole u hu)
    · obtain hu | hu := hsound.whole u hu
      · exact hheld u hu
      · rw [htodo] at hu
        cases hu
  | setting record before =>
    cases h
    exact Steps.same ⟨hsound.holds, trivial⟩ rfl
  | writing record before stored =>
    have heq := some.inj h
    -- a name of the record is new, and claimed, or the record that is written over has it
    have howns : stored = (s.records (names.id record)).isSome → ∀ u ∈ names.keys record,
        s.owns u.key (names.id record) = true := by
      intro hstored u hu
      simp only [Phase.clear, hstored, ne_eq, not_true_eq_false, decide_false, Bool.false_or,
        List.all_eq_true] at hclear
      obtain hnew | hhas := Bool.or_eq_true_iff.1 (hclear u hu)
      · exact hsound.holds u (mem_difference.2 ⟨hu, by simpa using hnew⟩)
      · exact owns_of_has hstore hhas
    cases hv : s.records (names.id record) with
    | none =>
      rw [hv] at heq howns
      cases stored with
      | true =>
        cases heq
        exact Steps.same (Phase.sound_of_holds_nil rfl trivial) rfl
      | false =>
        cases heq
        refine Steps.write (fun v hv => ?_) (Phase.sound_of_holds_nil rfl trivial) rfl
        cases hv
        exact howns rfl
    | some v =>
      rw [hv] at heq howns
      cases stored with
      | true =>
        cases heq
        refine Steps.write (fun v hv => ?_) (Phase.sound_of_holds_nil rfl trivial) rfl
        cases hv
        exact howns rfl
      | false =>
        cases heq
        exact Steps.same (Phase.sound_of_holds_nil rfl trivial) rfl
  | mutating id mutation retry =>
    cases h
    split_ifs
    · exact Steps.same (Phase.sound_of_holds_nil rfl trivial) rfl
    · exact Steps.same (Phase.sound_of_holds_nil rfl trivial) rfl
    · exact Steps.same (Phase.sound_of_holds_nil rfl trivial) rfl
  | committing id mutation retry read next =>
    have heq := some.inj h
    cases hwrite : write next read (s.records id) with
    | stored record =>
      rw [hwrite] at heq
      cases heq
      refine Steps.write (fun v hv => ?_) (Phase.sound_of_holds_nil rfl trivial) rfl
      obtain ⟨n, rfl, hvalue, hversion⟩ := stored_of_write hwrite hv
      simp only [Phase.clear, hversion, ne_eq, not_true_eq_false, decide_false, Bool.false_or,
        List.all_eq_true] at hclear
      intro u hu
      exact owns_of_has hstore (hclear u (hvalue ▸ hu))
    | conflict =>
      rw [hwrite] at heq
      cases heq
      refine Steps.same ?_ ?_
      · split_ifs
        · exact Phase.sound_of_holds_nil rfl trivial
        · exact Phase.sound_of_holds_nil rfl trivial
      · split_ifs <;> rfl
    | notFound =>
      rw [hwrite] at heq
      cases heq
      exact Steps.same (Phase.sound_of_holds_nil rfl trivial) rfl
  | removing id =>
    cases h
    exact Steps.same (Phase.sound_of_holds_nil rfl trivial) rfl
  | deleting id before =>
    cases h
    exact Steps.write nofun (Phase.sound_of_holds_nil rfl trivial) rfl
  | releasing id keys outcome =>
    cases keys with
    | nil =>
      cases h
      exact Steps.same (Phase.sound_of_holds_nil rfl trivial) rfl
    | cons unique keys =>
      obtain ⟨u, hu, heq⟩ := map_eq_some_iff.1 h
      cases heq
      simp only [Phase.clear, hu, all_some, Bool.not_eq_true', Bool.and_eq_false_imp] at hclear
      have hrecords := records_release s u.key id
      exact ⟨undisturbed_release hclear, fun id' v hv => .inl (hrecords ▸ hv),
        fun id' _ => congrFun hrecords id', Phase.sound_of_holds_nil rfl trivial, rfl⟩
  | ended id outcome => cases h

/-! ## One turn -/

def Kept (names : Named α) (w : World (Store α) (Phase α)) : Prop :=
  w.shared.Sound names ∧ ∀ p ∈ w.parties, p.Sound names w.shared

lemma Phase.sound_of_isStart (h : p.isStart names = true) : p.Sound names s := by
  cases p with
  | creating record c =>
    rw [of_decide_eq_true h]
    exact ⟨nofun, fun u hu => .inr hu⟩
  | reading | mutating | removing => exact Phase.sound_of_holds_nil rfl trivial
  | _ => cases h

variable {parties : List (Phase α)}

lemma inUse_of_record
    (hv : s.records id = some v) (hu : u ∈ names.keys v.value) : inUse names s parties id u.key = true := by
  rw [inUse, Store.has, hv, any_some, Bool.or_eq_true]
  exact .inl (List.any_eq_true.2 ⟨u, hu, decide_eq_true rfl⟩)

variable {q : Phase α}

lemma inUse_of_holds (hq : q ∈ parties)
    (hu : u ∈ q.holds names) : inUse names s parties (q.id names) u.key = true := by
  rw [inUse, Bool.or_eq_true]
  refine .inr (List.any_eq_true.2 ⟨q, hq, ?_⟩)
  rw [decide_eq_true rfl, Bool.true_and]
  exact List.any_eq_true.2 ⟨u, hu, decide_eq_true rfl⟩

lemma Steps.store (hstore : s.Sound names) (h : Steps names others s s' id p') : s'.Sound names := by
  intro id' v hv u hu
  obtain hv | ⟨rfl, howns⟩ := h.records id' v hv
  · obtain howns | hunused := h.undisturbed u.key id' (hstore id' v hv u hu)
    · exact howns
    · rw [inUse_of_record hv hu] at hunused
      cases hunused
  · exact howns u hu

lemma Undisturbed.other (h : Undisturbed names others s s')
    (hother : q ∈ others) (hq : q.Sound names s) : q.Sound names s' := by
  refine ⟨fun u hu => ?_, hq.whole⟩
  obtain howns | hunused := h u.key (q.id names) (hq.holds u hu)
  · exact howns
  · rw [inUse_of_holds hother hu] at hunused
    cases hunused

lemma Steps.kept {w : World (Store α) (Phase α)} {k : ℕ} (hw : Kept names w)
    (h : Steps names (w.parties.eraseIdx k) w.shared s' id p') : Kept names ⟨s', w.parties.set k p'⟩ := by
  obtain ⟨hstore, hparties⟩ := hw
  refine ⟨h.store hstore, fun q hq => ?_⟩
  obtain ⟨j, hj⟩ := mem_iff_getElem?.1 hq
  rw [List.getElem?_set] at hj
  split_ifs at hj with hjk hlt
  · cases hj
    exact h.sound
  · exact h.undisturbed.other (mem_eraseIdx_iff_getElem?.2 ⟨j, fun h => hjk h.symm, hj⟩)
      (hparties q (mem_of_getElem? hj))

lemma kept_play {w w' : World (Store α) (Phase α)} {turn : Turn (Phase α) Event Empty}
    (hplay : (calls names).play w turn = some w') (hclear : clear names w turn = true)
    (hw : Kept names w) : Kept names w' := by
  obtain ⟨-, rfl⟩ | ⟨party, -, hb, rfl⟩ | ⟨k, e, p, s', p', rfl, hp, hmove, rfl⟩ | ⟨event, -⟩ :=
    Rules.play_cases hplay
  · exact hw
  · refine ⟨hw.1, fun q hq => ?_⟩
    obtain hq | hq := mem_append.1 hq
    · exact hw.2 q hq
    · rw [mem_singleton.1 hq]
      exact Phase.sound_of_isStart hb
  · rw [clear, hp, all_some] at hclear
    exact (advance_steps hw.1 (hw.2 p (mem_of_getElem? hp)) hclear hmove).kept hw
  · exact event.elim

/-! ## What names are claimed for -/

section

variable (run : Run (calls names)) {i j k : ℕ}

variable (names) in
/-- What holds of records with names that are claimed, at every moment. -/
structure Unique (run : Run (calls names)) : Prop where
  apart : ∀ {i id id' : ℕ} {v v' : Versioned α} {u u' : UniqueKey},
    (run.world i).shared.records id = some v → (run.world i).shared.records id' = some v' →
    u ∈ names.keys v.value → u' ∈ names.keys v'.value → u.key = u'.key → id = id'
  held : ∀ {i id : ℕ} {v : Versioned α} {u : UniqueKey}, (run.world i).shared.records id = some v →
    u ∈ names.keys v.value → (run.world i).shared.owns u.key id = true
  failed : ∀ {i j k : ℕ} {event : Event} {p : Phase α} {error : Error} {id : ℕ} {v : Versioned α}
    {u : UniqueKey}, run.turn i = .move k event → (run.world i).parties[k]? = some p →
    (run.world j).parties[k]? = some (.ended (p.id names) (.failed error)) → id ≠ p.id names →
    (run.world i).shared.records id = some v → u ∈ names.keys v.value →
    (run.world (i + 1)).shared.owns u.key id = true

lemma unique_of_clear (hstore : (run.world 0).shared.Sound names) (hstart : (run.world 0).parties = [])
    (hclear : ∀ i, clear names (run.world i) (run.turn i) = true) : Unique names run := by
  have hkept : ∀ i, Kept names (run.world i) := by
    intro i
    refine run.kept (Q := Kept names) (fun i h => kept_play (run.plays i) (hclear i) h)
      ⟨hstore, fun p hp => ?_⟩ (Nat.zero_le i)
    rw [hstart] at hp
    cases hp
  have hheld : ∀ {i id : ℕ} {v : Versioned α} {u : UniqueKey}, (run.world i).shared.records id = some v →
      u ∈ names.keys v.value → (run.world i).shared.owns u.key id = true :=
    fun hv hu => (hkept _).1 _ _ hv _ hu
  refine ⟨fun hv hv' hu hu' hkey => ?_, hheld, fun {i j k event p error id v u} hturn hp _ hne hv hu => ?_⟩
  · have howns := hheld hv hu
    rw [hkey] at howns
    exact owns_unique howns (hheld hv' hu')
  · refine hheld ?_ hu
    obtain ⟨hturn', -⟩ | ⟨party, hturn', -⟩ | ⟨k', e, p', s', q, hturn', hp', hmove, hw⟩ | ⟨e, -⟩ :=
      Rules.play_cases (run.plays i)
    · rw [hturn] at hturn'
      cases hturn'
    · rw [hturn] at hturn'
      cases hturn'
    · rw [hturn] at hturn'
      cases hturn'
      cases hp.symm.trans hp'
      have hthis := hclear i
      rw [hturn, clear, hp, all_some] at hthis
      have hsteps := advance_steps (hkept i).1 ((hkept i).2 p (mem_of_getElem? hp)) hthis hmove
      rw [hw]
      exact (hsteps.elsewhere id hne).trans hv
    · exact e.elim

end

/-- What holds of accounts: no two have an email or a username in common. -/
structure AccountsUnique (run : Run (calls accountNames)) : Prop where
  emails : ∀ {i id id' : ℕ} {v v' : Versioned Account} {email : Utf16},
    (run.world i).shared.records id = some v → (run.world i).shared.records id' = some v' →
    v.value.email = some email → v'.value.email = some email → email ≠ [] → id = id'
  usernames : ∀ {i id id' : ℕ} {v v' : Versioned Account} {username : Utf16},
    (run.world i).shared.records id = some v → (run.world i).shared.records id' = some v' →
    v.value.username = some username → v'.value.username = some username → username ≠ [] → id = id'
  unique : Unique accountNames run

/-- What holds of credentials: no two have a provider and an identifier in common. -/
structure CredentialsUnique (run : Run (calls credentialNames)) : Prop where
  identifiers : ∀ {i id id' : ℕ} {v v' : Versioned Credential},
    (run.world i).shared.records id = some v → (run.world i).shared.records id' = some v' →
    v.value.provider = v'.value.provider → v.value.identifier = v'.value.identifier → id = id'
  unique : Unique credentialNames run

variable {account : Account}

lemma mem_accountKeys_email {email : Utf16} (h : account.email = some email)
    (hne : email ≠ []) : emailKey email ∈ accountKeys account := by
  rw [accountKeys, h, filter_some, if_pos (decide_eq_true hne)]
  exact mem_append_left _ (mem_singleton_self _)

lemma mem_accountKeys_username {username : Utf16} (h : account.username = some username)
    (hne : username ≠ []) : usernameKey username ∈ accountKeys account := by
  rw [accountKeys, h, filter_some, if_pos (decide_eq_true hne)]
  exact mem_append_right _ (mem_singleton_self _)

/-- Where no name that is in use is released or taken over, and no record is written back over one that has
lost a name, the names of accounts and of credentials are unique. -/
theorem names_unique (run : Run (calls accountNames)) (run' : Run (calls credentialNames))
    (hstore : (run.world 0).shared.Sound accountNames) (hstart : (run.world 0).parties = [])
    (hclear : ∀ i, clear accountNames (run.world i) (run.turn i) = true)
    (hstore' : (run'.world 0).shared.Sound credentialNames) (hstart' : (run'.world 0).parties = [])
    (hclear' : ∀ i, clear credentialNames (run'.world i) (run'.turn i) = true) :
    AccountsUnique run ∧ CredentialsUnique run' := by
  have hunique := unique_of_clear run hstore hstart hclear
  have hunique' := unique_of_clear run' hstore' hstart' hclear'
  refine ⟨⟨fun hv hv' hemail hemail' hne => ?_, fun hv hv' husername husername' hne => ?_, hunique⟩,
    ⟨fun hv hv' hprovider hidentifier => ?_, hunique'⟩⟩
  · exact hunique.apart hv hv' (mem_accountKeys_email hemail hne) (mem_accountKeys_email hemail' hne) rfl
  · exact hunique.apart hv hv' (mem_accountKeys_username husername hne)
      (mem_accountKeys_username husername' hne) rfl
  · refine hunique'.apart hv hv' (List.mem_singleton_self _) (List.mem_singleton_self _) ?_
    rw [hprovider, hidentifier]

/-! ## A creation with the id of an account -/

def given {β : Type} (k n : ℕ) : List (Turn (Phase β) Event Empty) := List.replicate n (.move k ⟨0, 0⟩)

def withEmail (id : ℕ) (email : String) : Account := ⟨id, some (utf16 email), none, 0⟩

def creation (account : Account) : Turn (Phase Account) Event Empty :=
  .begin (.creating account (.start (accountKeys account)))

def nothing (β : Type) : World (Store β) (Phase β) := ⟨⟨fun _ => none, fun _ => none⟩, []⟩

/-- An account is created, another is refused its email, and the first changes it and is deleted. -/
def inTurn : List (Turn (Phase Account) Event Empty) :=
  [creation (withEmail 1 "a")] ++ given 0 3 ++ [creation (withEmail 2 "a")] ++ given 1 2 ++
    [.begin (.reading (withEmail 1 "b"))] ++ given 2 7 ++ [.begin (.removing 1)] ++ given 3 4

/-- An account is created again with its id and email, and then another with that email. -/
def again : List (Turn (Phase Account) Event Empty) :=
  [creation (withEmail 1 "a")] ++ given 0 3 ++ [creation (withEmail 1 "a")] ++ given 1 4 ++
    [creation (withEmail 2 "a")] ++ given 2 3

def enrolling : List (Turn (Phase Credential) Event Empty) :=
  [.begin (.creating ⟨1, [], utf16 "a", 0⟩ (.start (credentialKeys ⟨1, [], utf16 "a", 0⟩)))] ++ given 0 3

def inTurnRun : Run (calls accountNames) := (calls accountNames).replay (nothing _) inTurn (by decide +kernel)

def againRun : Run (calls accountNames) := (calls accountNames).replay (nothing _) again (by decide +kernel)

def enrollingRun : Run (calls credentialNames) :=
  (calls credentialNames).replay (nothing _) enrolling (by decide +kernel)

theorem names_unique_inTurn : AccountsUnique inTurnRun ∧ CredentialsUnique enrollingRun :=
  names_unique inTurnRun enrollingRun (fun _ _ hv => by cases hv) rfl
    (Rules.replay_all (fun _ => rfl) (by decide +kernel)) (fun _ _ hv => by cases hv) rfl
    (Rules.replay_all (fun _ => rfl) (by decide +kernel))

/-- The creation that is refused releases the email of the account that is stored. -/
theorem not_names_unique : ¬∀ (run : Run (calls accountNames)) (run' : Run (calls credentialNames)),
    (run.world 0).shared.Sound accountNames → (run.world 0).parties = [] →
    (run'.world 0).shared.Sound credentialNames → (run'.world 0).parties = [] →
    AccountsUnique run ∧ CredentialsUnique run' := by
  intro h
  have hone : (againRun.world 13).shared.records 1 = some ⟨1, withEmail 1 "a"⟩ := by decide +kernel
  have htwo : (againRun.world 13).shared.records 2 = some ⟨1, withEmail 2 "a"⟩ := by decide +kernel
  have hsame := (h againRun enrollingRun (fun _ _ hv => by cases hv) rfl (fun _ _ hv => by cases hv) rfl).1.emails
    hone htwo rfl rfl (by decide)
  exact absurd hsame (by decide)

end Zelavis.Identity.UniqueClaims
