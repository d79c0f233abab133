import Mathlib.Data.Nat.Bitwise
import Zelavis.Marketplace.AllowlistClient

/-!
# The allow-list over any calls

Whatever sources answer and however the calls of an installation overlap, a list that is held was fetched,
read and not yet expired, and the gate admits only what the list of the moment vouches for. That the list
does not move backwards takes more: a refresh reads what is held before it fetches, and writes what it
fetched without looking again.
-/

namespace Zelavis.Marketplace

open Lib Db Edge Tasks Fibers List

/-! ## Digests -/

lemma foldl_or_eq_zero {l : List ℕ} {n : ℕ} : l.foldl (· ||| ·) n = 0 ↔ n = 0 ∧ ∀ x ∈ l, x = 0 := by
  induction l generalizing n with
  | nil => simp
  | cons x l ih =>
    rw [foldl_cons, ih, Nat.or_eq_zero_iff, forall_mem_cons, and_assoc]

variable {left right : Utf16}

lemma differenceOf_eq_zero (h : left.length = right.length) :
    differenceOf left right = 0 ↔ left = right := by
  unfold differenceOf
  rw [foldl_or_eq_zero]
  induction left generalizing right with
  | nil =>
    cases right with
    | nil => simp
    | cons y right => cases h
  | cons x left ih =>
    cases right with
    | nil => cases h
    | cons y right =>
      have hrest := ih (Nat.succ.inj h)
      simp only [true_and] at hrest
      have hunit : x.val ^^^ y.val = 0 ↔ x = y :=
        (not_iff_not.1 Nat.xor_ne_zero_iff).trans Fin.val_inj
      simp [hrest, hunit]

lemma sameDigest_iff : sameDigest left right = true ↔ left = right := by
  unfold sameDigest
  rw [Bool.and_eq_true_iff, decide_eq_true_iff, decide_eq_true_iff]
  constructor
  · rintro ⟨hlength, hzero⟩
    exact (differenceOf_eq_zero hlength).1 hzero
  · rintro rfl
    exact ⟨rfl, (differenceOf_eq_zero rfl).2 rfl⟩

/-! ## What the cache holds -/

variable {v : CachedAllowlist} {l : Allowlist} {reply : Reply} {c : Call} {e : Happens}
  {view : Option AllowlistView} {name version : Utf16}

section Client

variable {D : Dates} {o : AllowlistOptions}

lemma goodAfter_mono {more moment moment' : ℤ} (h : goodAfter D l more moment' = true)
    (hle : moment ≤ moment') : goodAfter D l more moment = true := by
  obtain ⟨expires, hexpires, hlt⟩ := (Option.any_eq_true _ _).1 h
  exact (Option.any_eq_true _ _).2 ⟨expires, hexpires,
    decide_eq_true (lt_of_le_of_lt hle (of_decide_eq_true hlt))⟩

variable (D o)

/-- A list has not expired at a moment: it is good, or it is in its time of grace. -/
def Unexpired (l : Allowlist) (moment : ℤ) : Prop :=
  goodAfter D l 0 moment = true ∨ goodAfter D l o.graceMs moment = true

/-- What is written: a list that a source answered with, that was read, had not expired when it was fetched
and is not older than the bundled one. -/
structure Accepted (s : Shared) (v : CachedAllowlist) (l : Allowlist) : Prop where
  stored : v.allowlist = l.toJson
  newest : ∀ b, o.bundled = some b → b.sequence ≤ l.sequence
  fetched : ∃ body moment, (body, moment) ∈ s.fetched ∧ parseAllowlist D body = .ok l ∧ Unexpired D o l moment

/-- The cache holds what was accepted, and sources have answered before now. -/
structure Inv (s : Shared) : Prop where
  accepted : ∀ v, s.cache = some v → ∃ l, Accepted D o s v l
  past : ∀ x ∈ s.fetched, x.2 ≤ s.now

variable {D o}

/-- What others do: time passes, sources answer and the cache is read. -/
structure Later (s s' : Shared) : Prop where
  now : s.now ≤ s'.now
  fetched : s.fetched ⊆ s'.fetched
  readings : s.readings ⊆ s'.readings

lemma Later.refl (s : Shared) : Later s s :=
  ⟨le_refl _, fun _ h => h, fun _ h => h⟩

lemma Later.trans {s₁ s₂ s₃ : Shared} (h : Later s₁ s₂) (h' : Later s₂ s₃) : Later s₁ s₃ :=
  ⟨h.now.trans h'.now, fun _ hx => h'.fetched (h.fetched hx), fun _ hx => h'.readings (h.readings hx)⟩

variable {s s' : Shared}

lemma Accepted.mono (h : Accepted D o s v l) (hlater : Later s s') : Accepted D o s' v l where
  stored := h.stored
  newest := h.newest
  fetched := by
    obtain ⟨body, moment, hmem, hrest⟩ := h.fetched
    exact ⟨body, moment, hlater.fetched hmem, hrest⟩

lemma Accepted.cachedList (h : Accepted D o s v l) : cachedList D (some v) = some l := by
  obtain ⟨body, moment, -, hparse, -⟩ := h.fetched
  show (parseAllowlist D v.allowlist).toOption = some l
  rw [h.stored, parseAllowlist_toJson hparse]
  rfl

lemma Accepted.heldList (h : Accepted D o s v l) : heldList D o (some v) = some l := by
  unfold Marketplace.heldList
  rw [h.cachedList]
  cases hb : o.bundled with
  | none => rfl
  | some b => exact congrArg some (if_neg (not_lt.2 (h.newest b hb)))

lemma exec_sound {k : ℕ} {r : Except Fault (Answer c)}
    (hexec : exec k reply s c = some (s', r)) (hinv : Inv D o s)
    (hwrite : ∀ v, c = .write v → ∃ l, Accepted D o s v l) : Inv D o s' ∧ Later s s' := by
  have hsame : s' = s → Inv D o s' ∧ Later s s' := by
    rintro rfl
    exact ⟨hinv, Later.refl _⟩
  cases c with
  | read =>
    cases reply with
    | done =>
      cases hexec
      exact ⟨⟨fun v hv => (hinv.accepted v hv).imp fun l hl =>
        hl.mono ⟨le_refl _, fun _ h => h, subset_append_left _ _⟩, hinv.past⟩,
        ⟨le_refl _, fun _ h => h, subset_append_left _ _⟩⟩
    | fails message =>
      cases hexec
      exact hsame rfl
    | body | failsLate => cases hexec
  | write value =>
    have hkept : Inv D o { s with cache := some value } ∧ Later s { s with cache := some value } := by
      have hlater : Later s { s with cache := some value } := ⟨le_refl _, fun _ h => h, fun _ h => h⟩
      refine ⟨⟨fun v hv => ?_, hinv.past⟩, hlater⟩
      cases hv
      exact (hwrite value rfl).imp fun l hl => hl.mono hlater
    cases reply with
    | done =>
      cases hexec
      exact hkept
    | fails message =>
      cases hexec
      exact hsame rfl
    | failsLate message =>
      cases hexec
      exact hkept
    | body value => cases hexec
  | now =>
    cases reply with
    | done =>
      cases hexec
      exact hsame rfl
    | fails | body | failsLate => cases hexec
  | fetchList source =>
    cases reply with
    | body value =>
      cases hexec
      have hlater : Later s { s with fetched := s.fetched ++ [(value, s.now)] } :=
        ⟨le_refl _, subset_append_left _ _, fun _ h => h⟩
      refine ⟨⟨fun v hv => (hinv.accepted v hv).imp fun l hl => hl.mono hlater, fun x hx => ?_⟩, hlater⟩
      rcases mem_append.1 hx with hx | hx
      · exact hinv.past x hx
      · cases mem_singleton.1 hx
        exact le_refl _
    | fails message =>
      cases hexec
      exact hsame rfl
    | done | failsLate => cases hexec

/-! ## Programs -/

variable (D o) in
/-- What a program of a fiber leaves, where it does not fail. -/
abbrev Keeps (k : ℕ) {α : Type} (Post : α → Shared → Prop) (t : Program α) (s : Shared) : Prop :=
  (installation D o).Keeps (fun _ _ _ => True) (Inv D o) (fun _ => Later) (fun _ _ => True) k Post
    (fun _ _ => True) t s

variable {k : ℕ} {α : Type} {Post : α → Shared → Prop}

lemma keeps_perform {Post : Answer c → Shared → Prop}
    (hwrite : ∀ s₁, Later s s₁ → Inv D o s₁ → ∀ v, c = .write v → ∃ l, Accepted D o s₁ v l)
    (hPost : ∀ reply s₁ s' a, Inv D o s₁ → Later s s₁ → exec k reply s₁ c = some (s', .ok a) → Later s₁ s' →
      Post a s') : Keeps D o k Post (Task.perform c) s := by
  refine guarded_perform fun s₁ s' r hinv hrely hmakes => ?_
  obtain ⟨-, reply, hexec⟩ := hmakes
  obtain ⟨hinv', hlater⟩ := exec_sound hexec hinv (hwrite s₁ hrely hinv)
  refine ⟨hinv', ⟨trivial, fun _ _ => hlater⟩, fun a ha => ?_, fun _ _ => trivial⟩
  subst ha
  exact hPost reply s₁ s' a hinv hrely hexec hlater

lemma keeps_now {Post : ℤ → Shared → Prop}
    (hPost : ∀ s', Later s s' → Inv D o s' → Post s'.now s') : Keeps D o k Post (Task.perform Call.now) s := by
  refine keeps_perform (fun _ _ _ v hv => by cases hv) fun reply s₁ s' a hinv hrely hexec _ => ?_
  cases reply with
  | done =>
    cases hexec
    exact hPost s₁ hrely hinv
  | fails | body | failsLate => cases hexec

lemma keeps_done {a : α} (h : Post a s) : Keeps D o k Post (.done a) s := h

lemma keeps_statusOf {Post : Status → Shared → Prop}
    (hPost : ∀ status s', Later s s' → Inv D o s' → (status = .fresh → goodAfter D l 0 s.now = true) →
      (status ≠ .expired → Unexpired D o l s.now) → Post status s') :
    Keeps D o k Post (statusOf D o l) s := by
  refine guarded_bind (keeps_now fun s₁ hlater hinv => ?_)
  split_ifs with hfresh
  · have hgood := goodAfter_mono hfresh hlater.now
    exact keeps_done (hPost _ _ hlater hinv (fun _ => hgood) fun _ => .inl hgood)
  · refine guarded_bind (keeps_now fun s₂ hlater₂ hinv₂ => ?_)
    have hlater' := hlater.trans hlater₂
    split_ifs with hstale
    · exact keeps_done (hPost _ _ hlater' hinv₂ (fun h => by cases h)
        fun _ => .inr (goodAfter_mono hstale hlater'.now))
    · exact keeps_done (hPost _ _ hlater' hinv₂ (fun h => by cases h) fun h => absurd rfl h)

def Read (D : Dates) (k : ℕ) (list : Option CachedAllowlist → Option Allowlist)
    (view : Option AllowlistView) (s : Shared) : Prop :=
  ∃ r ∈ s.readings, r.fiber = k ∧ r.moment ≤ s.now ∧ view.map AllowlistView.allowlist = list r.cached ∧
    ∀ v, view = some v → v.status = .fresh → goodAfter D v.allowlist 0 r.moment = true

lemma Read.mono {list : Option CachedAllowlist → Option Allowlist}
    (h : Read D k list view s) (hlater : Later s s') : Read D k list view s' := by
  obtain ⟨r, hr, hfiber, hmoment, hview, hfresh⟩ := h
  exact ⟨r, hlater.readings hr, hfiber, hmoment.trans hlater.now, hview, hfresh⟩

lemma keeps_read {Post : Option CachedAllowlist → Shared → Prop}
    (hPost : ∀ s', Later s s' → Inv D o s' → ∀ cached moment, ⟨k, cached, moment⟩ ∈ s'.readings → moment ≤ s'.now →
      Post cached s') : Keeps D o k Post (Task.perform Call.read) s := by
  refine keeps_perform (fun _ _ _ v hv => by cases hv) fun reply s₁ s' a hinv hrely hexec hlater => ?_
  have hinv' := (exec_sound hexec hinv fun v hv => by cases hv).1
  cases reply with
  | done =>
    cases hexec
    exact hPost _ (hrely.trans hlater) hinv' _ s₁.now (mem_append_right _ mem_cons_self) (le_refl _)
  | fails | body | failsLate => cases hexec

lemma keeps_cached {Post : Option AllowlistView → Shared → Prop}
    (hPost : ∀ view s', Later s s' → Inv D o s' → (∃ r ∈ s'.readings, r.fiber = k ∧ r.moment ≤ s'.now ∧
        view.map AllowlistView.allowlist = cachedList D r.cached ∧
        ∀ v, view = some v → v.status = .fresh → goodAfter D v.allowlist 0 r.moment = true) → Post view s') :
    Keeps D o k Post (cached D o) s := by
  refine guarded_bind (keeps_read fun s₁ hlater hinv value moment hmem hmoment => ?_)
  cases value with
  | none =>
    exact keeps_done (hPost _ _ hlater hinv ⟨_, hmem, rfl, hmoment, rfl, fun v hv => by cases hv⟩)
  | some value =>
    dsimp only
    cases hparse : parseAllowlist D value.allowlist with
    | error message =>
      refine keeps_done (hPost _ _ hlater hinv ⟨_, hmem, rfl, hmoment, ?_, fun v hv => by cases hv⟩)
      show none = (parseAllowlist D value.allowlist).toOption
      rw [hparse]
      rfl
    | ok l =>
      refine guarded_bind (keeps_statusOf fun status s₂ hlater₂ hinv₂ hfresh _ => ?_)
      refine keeps_done (hPost _ _ (hlater.trans hlater₂) hinv₂
        ⟨_, hlater₂.readings hmem, rfl, hmoment.trans hlater₂.now, ?_, fun v hv hstatus => ?_⟩)
      · show some l = (parseAllowlist D value.allowlist).toOption
        rw [hparse]
        rfl
      · cases hv
        exact goodAfter_mono (hfresh hstatus) hmoment

lemma keeps_current {Post : Option AllowlistView → Shared → Prop}
    (hPost : ∀ view s', Later s s' → Inv D o s' → Read D k (heldList D o) view s' → Post view s') :
    Keeps D o k Post (current D o) s := by
  refine guarded_bind (keeps_cached fun fromCache s₁ hlater hinv hread => ?_)
  obtain ⟨r, hr, hfiber, hmoment, hview, hfresh⟩ := hread
  cases hb : o.bundled with
  | none =>
    have hheld : fromCache.map AllowlistView.allowlist = heldList D o r.cached := by
      unfold heldList
      rw [hview, hb]
      cases cachedList D r.cached with
      | none | some => rfl
    refine guarded_bind (keeps_done ?_)
    cases fromCache with
    | none | some => exact keeps_done (hPost _ _ hlater hinv ⟨r, hr, hfiber, hmoment, hheld, hfresh⟩)
  | some b =>
    refine guarded_bind (keeps_statusOf fun status s₂ hlater₂ hinv₂ hfreshb _ => guarded_bind (keeps_done ?_))
    have hlater' := hlater.trans hlater₂
    have hgood : status = .fresh → goodAfter D b 0 r.moment = true := fun h => goodAfter_mono (hfreshb h) hmoment
    cases fromCache with
    | none =>
      refine keeps_done (hPost _ _ hlater' hinv₂
        ⟨r, hlater₂.readings hr, hfiber, hmoment.trans hlater₂.now, ?_, fun v hv hstatus => ?_⟩)
      · unfold heldList
        rw [← hview, hb]
        rfl
      · cases hv
        exact hgood hstatus
    | some view =>
      refine keeps_done (hPost _ _ hlater' hinv₂
        ⟨r, hlater₂.readings hr, hfiber, hmoment.trans hlater₂.now, ?_, fun v hv hstatus => ?_⟩)
      · unfold heldList
        rw [← hview, hb]
        dsimp only [Option.map_some]
        split_ifs with hlt
        · rfl
        · rfl
      · cases hv
        split_ifs at hstatus ⊢ with hlt
        · exact hgood hstatus
        · exact hfresh view rfl hstatus

lemma bundled_le_floor (cache : Option CachedAllowlist) {b : Allowlist} (hb : o.bundled = some b) :
    b.sequence ≤ floor D o cache := by
  unfold floor heldList
  rw [hb]
  cases cachedList D cache with
  | none => exact le_refl _
  | some l =>
    show b.sequence ≤ (if l.sequence < b.sequence then b else l).sequence
    split_ifs with hlt
    · exact le_refl _
    · exact not_lt.1 hlt

lemma sequenceOf_eq {cache : Option CachedAllowlist}
    (h : view.map AllowlistView.allowlist = heldList D o cache) : sequenceOf view = floor D o cache := by
  unfold floor
  rw [← h]
  cases view with
  | none | some => rfl

lemma keeps_trySources {held : Option AllowlistView} {attempts : List AllowlistAttempt} {sources : List Utf16}
    (hheld : ∀ b, o.bundled = some b → b.sequence ≤ sequenceOf held) :
    Keeps D o k (fun _ _ => True) (trySources D o held attempts sources) s := by
  induction sources generalizing attempts s with
  | nil => exact keeps_done trivial
  | cons source rest ih =>
    refine guarded_bind (guarded_attempt (guarded_perform fun s₁ s' r hinv hrely hmakes => ?_))
    obtain ⟨-, reply, hexec⟩ := hmakes
    replace hexec : exec k reply s₁ (.fetchList source) = some (s', r) := hexec
    obtain ⟨hinv', hlater⟩ := exec_sound hexec hinv fun v hv => by cases hv
    refine ⟨hinv', ⟨trivial, fun _ _ => hlater⟩, fun body hbody => ?_, fun fault _ => ih⟩
    subst hbody
    -- The answer of the source is remembered with its moment.
    have hfetched : ∃ moment, (body, moment) ∈ s'.fetched ∧ moment ≤ s'.now := by
      cases reply with
      | body value =>
        cases hexec
        exact ⟨s₁.now, mem_append_right _ mem_cons_self, le_refl _⟩
      | done | fails | failsLate => cases hexec
    obtain ⟨moment, hmem, hmoment⟩ := hfetched
    dsimp only
    cases hparse : parseAllowlist D body with
    | error message => exact ih
    | ok l =>
      refine guarded_bind (keeps_statusOf fun status s₂ hlater₂ hinv₂ _ hunexpired => ?_)
      split_ifs with hexpired hstale
      · exact ih
      · exact ih
      · refine guarded_bind (guarded_bind (keeps_now fun s₃ hlater₃ hinv₃ => ?_))
        cases hiso : D.iso s₃.now with
        | none => exact trivial
        | some text =>
          refine keeps_done (guarded_bind (keeps_perform (fun s₄ hlater₄ hinv₄ v hv => ?_)
            fun reply s₄ s₅ a hinv₄ hlater₄ hexec₄ hlater₅ => ?_))
          · cases hv
            refine ⟨l, rfl, fun b hb => (hheld b hb).trans (not_lt.1 hstale), body, moment,
              hlater₄.fetched (hlater₃.fetched (hlater₂.fetched hmem)), hparse, ?_⟩
            rcases hunexpired hexpired with hgood | hgood
            · exact .inl (goodAfter_mono hgood hmoment)
            · exact .inr (goodAfter_mono hgood hmoment)
          · exact guarded_bind (keeps_current fun _ _ _ _ _ => keeps_done trivial)

lemma keeps_refresh : Keeps D o k (fun _ _ => True) (refresh D o) s := by
  refine guarded_bind (keeps_current fun view s₁ _ _ hread => keeps_trySources fun b hb => ?_)
  obtain ⟨r, -, -, -, hview, -⟩ := hread
  rw [sequenceOf_eq hview]
  exact bundled_le_floor r.cached hb

/-- A list there was when the cache was read, which was good, holds an entry of a package's version. -/
def Lists (D : Dates) (o : AllowlistOptions) (k : ℕ) (name version : Utf16)
    (found : AllowlistService × AllowlistVersion) (s : Shared) : Prop :=
  ∃ r ∈ s.readings, r.fiber = k ∧ ∃ l, heldList D o r.cached = some l ∧ goodAfter D l 0 r.moment = true ∧
    found.1 ∈ l.services ∧ found.1.name = name ∧ found.2 ∈ found.1.versions ∧ found.2.version = version

lemma Lists.mono {found : AllowlistService × AllowlistVersion}
    (h : Lists D o k name version found s) (hlater : Later s s') : Lists D o k name version found s' := by
  obtain ⟨r, hr, hrest⟩ := h
  exact ⟨r, hlater.readings hr, hrest⟩

lemma keeps_authorize :
    Keeps D o k (fun found => Lists D o k name version found) (authorize D o name version) s := by
  refine guarded_bind (keeps_current fun view s₁ _ _ hread => ?_)
  obtain ⟨r, hr, hfiber, -, hview, hfresh⟩ := hread
  cases view with
  | none => exact trivial
  | some view =>
    dsimp only
    by_cases hstatus : view.status = .fresh
    · rw [if_neg (not_not.2 hstatus)]
      cases hservice : view.allowlist.services.find? (·.name = name) with
      | none => exact trivial
      | some service =>
        dsimp only
        cases hentry : service.versions.find? (·.version = version) with
        | none => exact trivial
        | some entry =>
          have hname := List.find?_some hservice
          have hversion := List.find?_some hentry
          exact keeps_done ⟨r, hr, hfiber, view.allowlist, hview.symm, hfresh view rfl hstatus,
            mem_of_find?_eq_some hservice, of_decide_eq_true hname, mem_of_find?_eq_some hentry,
            of_decide_eq_true hversion⟩
    · rw [if_pos hstatus]
      exact trivial

/-- A list there was when the cache was read, which was good, vouches for a digest. -/
def Admits (D : Dates) (o : AllowlistOptions) (k : ℕ) (name version integrity : Utf16) (s : Shared) : Prop :=
  ∃ r ∈ s.readings, r.fiber = k ∧ ∃ l, heldList D o r.cached = some l ∧ goodAfter D l 0 r.moment = true ∧
    Vouches l name version integrity

lemma keeps_verifyAcquired {name version integrity : Utf16} :
    Keeps D o k (fun _ => Admits D o k name version integrity) (verifyAcquired D o name version integrity) s := by
  refine guarded_bind (keeps_authorize.mono (fun found s₁ hfound => ?_) fun _ _ h => h)
  obtain ⟨r, hr, hfiber, l, hheld, hgood, hservice, hname, hentry, hversion⟩ := hfound
  by_cases hdigest : sameDigest found.2.integrity integrity = true
  · show Keeps D o k _ (if sameDigest found.2.integrity integrity = true then _ else _) s₁
    rw [if_pos hdigest]
    exact keeps_done ⟨r, hr, hfiber, l, hheld, hgood, found.1, hservice, hname, found.2, hentry, hversion,
      sameDigest_iff.1 hdigest⟩
  · show Keeps D o k _ (if sameDigest found.2.integrity integrity = true then _ else _) s₁
    rw [if_neg hdigest]
    exact trivial

/-! ## Every call keeps to it -/

variable (D o) in
def Ends : Request → ℕ → Outcome → Shared → Prop
  | .current, k, .view view, s => Read D k (heldList D o) view s
  | .authorize name version, k, .entry service entry, s => Lists D o k name version (service, entry) s
  | .verifyAcquired name version integrity, k, .verified, s => Admits D o k name version integrity s
  | _, _, _, _ => True

lemma Ends.mono {q : Request} {a : Outcome} (h : Ends D o q k a s) (hlater : Later s s') :
    Ends D o q k a s' := by
  cases q with
  | current =>
    cases a with
    | view view => exact Read.mono h hlater
    | report | entry | verified => exact trivial
  | refresh => exact trivial
  | authorize name version =>
    cases a with
    | entry service entry => exact Lists.mono h hlater
    | report | view | verified => exact trivial
  | verifyAcquired name version integrity =>
    cases a with
    | verified =>
      obtain ⟨r, hr, hrest⟩ := h
      exact ⟨r, hlater.readings hr, hrest⟩
    | report | view | entry => exact trivial

lemma discipline (D : Dates) (o : AllowlistOptions) :
    Discipline (installation D o) (fun _ _ _ => True) (Inv D o) (fun _ => Later) (fun _ _ => True)
      (fun _ _ => True) (Ends D o) where
  refl _ := Later.refl
  trans := Later.trans
  fresh_stable _ _ := trivial
  leaves_refl _ := trivial
  ends_stable hlater h := h.mono hlater
  programs k q s _ _ := by
    cases q with
    | current => exact guarded_bind (keeps_current fun _ _ _ _ hread => keeps_done hread)
    | refresh => exact guarded_bind (keeps_refresh.mono (fun _ _ _ => keeps_done trivial) fun _ _ h => h)
    | authorize name version =>
      exact guarded_bind (keeps_authorize.mono (fun _ _ h => keeps_done h) fun _ _ h => h)
    | verifyAcquired name version integrity =>
      exact guarded_bind (keeps_verifyAcquired.mono (fun _ _ h => keeps_done h) fun _ _ h => h)
  passes {elapsed s s'} hinv hpasses := by
    cases hpasses
    have hlater : Later s { s with now := s.now + elapsed } :=
      ⟨le_add_of_nonneg_right (Int.natCast_nonneg _), fun _ h => h, fun _ h => h⟩
    exact ⟨⟨fun v hv => (hinv.accepted v hv).imp fun l hl => hl.mono hlater,
      fun x hx => (hinv.past x hx).trans hlater.now⟩, trivial, fun _ => hlater⟩
  crashes {event} := event.elim

/-! ## Over any calls -/

/-- A world of an installation. -/
abbrev Installed := World Shared (Job Request Call Answer Fault Outcome)

/-- What happens to an installation. -/
abbrev Happens := Event Request Reply ℕ Empty

def unfetched (now : ℤ) : Installed := ⟨{ now }, []⟩

def Reply.keeps : Reply → Bool
  | .done => true
  | .failsLate _ => true
  | _ => false

variable (D o) in
def NotOvertaken (w : Installed) (e : Happens) : Prop :=
  ∀ k reply v l, e = .moves k reply → reply.keeps = true →
    (installation D o).callAt w e = some (k, .write v) → parseAllowlist D v.allowlist = .ok l →
    floor D o w.shared.cache ≤ l.sequence

variable (D o) in
def MovesForward (w : Installed) (e : Happens) : Prop :=
  ∀ w', (installation D o).step w e = some w' → floor D o w.shared.cache ≤ floor D o w'.shared.cache

lemma callAt_of {w : Installed} {k : ℕ} {job : Job Request Call Answer Fault Outcome}
    {next : Except Fault (Answer c) → Program Outcome} (hjob : w.fibers[k]? = some job)
    (hrest : job.rest (program D o) = .call c next) :
    (installation D o).callAt w (.moves k reply) = some (k, c) := by
  show (w.fibers[k]?.bind fun job => (job.nextCall (program D o)).map fun c => (k, c)) = _
  rw [hjob, Option.bind_some, Job.nextCall, hrest]
  rfl

lemma cache_of_exec {k : ℕ} {r : Except Fault (Answer c)} (hexec : exec k reply s c = some (s', r)) :
    s'.cache = s.cache ∨ ∃ v, c = .write v ∧ s'.cache = some v ∧ reply.keeps = true := by
  cases c with
  | read =>
    cases reply with
    | done | fails =>
      cases hexec
      exact .inl rfl
    | body | failsLate => cases hexec
  | write value =>
    cases reply with
    | done =>
      cases hexec
      exact .inr ⟨value, rfl, rfl, rfl⟩
    | fails message =>
      cases hexec
      exact .inl rfl
    | failsLate message =>
      cases hexec
      exact .inr ⟨value, rfl, rfl, rfl⟩
    | body value => cases hexec
  | now =>
    cases reply with
    | done =>
      cases hexec
      exact .inl rfl
    | fails | body | failsLate => cases hexec
  | fetchList source =>
    cases reply with
    | body | fails =>
      cases hexec
      exact .inl rfl
    | done | failsLate => cases hexec

lemma exec_write {k : ℕ} (h : reply.keeps = true) :
    ∃ r, exec k reply s (.write v) = some ({ s with cache := some v }, r) := by
  cases reply with
  | done | failsLate => exact ⟨_, rfl⟩
  | body | fails => cases h

variable {w w' : Installed}

/-- What every run keeps to. -/
abbrev Kept (D : Dates) (o : AllowlistOptions) (w : Installed) : Prop :=
  Held (installation D o) (fun _ _ _ => True) (Inv D o) (fun _ => Later) (fun _ _ => True) (fun _ _ => True)
    (Ends D o) w

lemma kept_step (hw : Kept D o w) (hstep : (installation D o).step w e = some w') : Kept D o w' :=
  ((discipline D o).step hw (fun _ _ _ => trivial) hstep).1

lemma Accepted.floor (h : Accepted D o s v l) : floor D o (some v) = l.sequence := by
  unfold Marketplace.floor
  rw [h.heldList]
  rfl

lemma movesForward_of (hw : Kept D o w) (h : NotOvertaken D o w e) : MovesForward D o w e := by
  intro w' hstep
  have hw' := kept_step hw hstep
  obtain ⟨request, -, rfl⟩ | ⟨k, reply, job, c, next, s', r, rfl, hjob, hrest, hexec, rfl⟩ |
    ⟨elapsed, s', -, hpasses, rfl⟩ | ⟨event, -⟩ := Process.step_cases hstep
  · exact le_refl _
  · rcases cache_of_exec hexec with hsame | ⟨v, rfl, hcache, hkeeps⟩
    · exact le_of_eq (congrArg (floor D o) hsame.symm)
    · obtain ⟨l, hl⟩ := hw'.inv.accepted v hcache
      have hparse : parseAllowlist D v.allowlist = .ok l := by
        obtain ⟨body, moment, -, hparse, -⟩ := hl.fetched
        rw [hl.stored, parseAllowlist_toJson hparse]
      calc floor D o w.shared.cache ≤ l.sequence :=
            h k reply v l rfl hkeeps (callAt_of hjob hrest) hparse
        _ = floor D o s'.cache := by rw [hcache, hl.floor]
  · cases hpasses
    exact le_refl _
  · exact event.elim

lemma notOvertaken_of (hw : Kept D o w) (h : MovesForward D o w e) : NotOvertaken D o w e := by
  rintro k reply v l rfl hkeeps hcall hparse
  obtain ⟨job, hjob, hcall⟩ := Option.bind_eq_some_iff.1 hcall
  obtain ⟨c, hnext, hc⟩ := Option.map_eq_some_iff.1 hcall
  cases hc
  obtain ⟨next, hrest⟩ := Task.nextCall_eq_some hnext
  obtain ⟨r, hexec⟩ := @exec_write v reply w.shared k hkeeps
  have hstep : (installation D o).step w (.moves k reply) =
      some ⟨{ w.shared with cache := some v }, w.fibers.set k (.running job.request (next r))⟩ := by
    show (w.fibers[k]?.bind fun job => ((job.rest (program D o)).advance (exec k) reply w.shared).map _) = _
    replace hrest : job.rest (program D o) = .call (.write v) next := hrest
    rw [hjob, Option.bind_some, hrest, Task.advance, hexec]
    rfl
  obtain ⟨l', hl'⟩ := (kept_step hw hstep).inv.accepted v rfl
  have hsame : l' = l := by
    obtain ⟨body, moment, -, hbody, -⟩ := hl'.fetched
    rw [hl'.stored, parseAllowlist_toJson hbody] at hparse
    exact Except.ok.inj hparse
  calc floor D o w.shared.cache ≤ floor D o (some v) := h _ hstep
    _ = l.sequence := by rw [hl'.floor, hsame]

/-- The sequences that the readings of the cache found, and what is held now. -/
def Ascends (D : Dates) (o : AllowlistOptions) (s : Shared) : Prop :=
  (s.readings.map fun r => floor D o r.cached).Pairwise (· ≤ ·) ∧
    ∀ r ∈ s.readings, floor D o r.cached ≤ floor D o s.cache

lemma readings_of_exec {k : ℕ} {r : Except Fault (Answer c)} (hexec : exec k reply s c = some (s', r)) :
    s'.readings = s.readings ∨ s'.readings = s.readings ++ [⟨k, s.cache, s.now⟩] ∧ s'.cache = s.cache := by
  cases c with
  | read =>
    cases reply with
    | done =>
      cases hexec
      exact .inr ⟨rfl, rfl⟩
    | fails message =>
      cases hexec
      exact .inl rfl
    | body | failsLate => cases hexec
  | write value =>
    cases reply with
    | body value => cases hexec
    | done | fails | failsLate =>
      cases hexec
      exact .inl rfl
  | now =>
    cases reply with
    | done =>
      cases hexec
      exact .inl rfl
    | fails | body | failsLate => cases hexec
  | fetchList source =>
    cases reply with
    | body | fails =>
      cases hexec
      exact .inl rfl
    | done | failsLate => cases hexec

lemma Ascends.step (h : Ascends D o w.shared) (hforward : MovesForward D o w e)
    (hstep : (installation D o).step w e = some w') : Ascends D o w'.shared := by
  have hle := hforward w' hstep
  have hsame : w'.shared.readings = w.shared.readings → Ascends D o w'.shared := by
    intro hreadings
    unfold Ascends
    rw [hreadings]
    exact ⟨h.1, fun r hr => (h.2 r hr).trans hle⟩
  obtain ⟨request, -, rfl⟩ | ⟨k, reply, job, c, next, s', r, rfl, hjob, hrest, hexec, rfl⟩ |
    ⟨elapsed, s', -, hpasses, rfl⟩ | ⟨event, -⟩ := Process.step_cases hstep
  · exact h
  · rcases readings_of_exec hexec with hreadings | ⟨hreadings, hcache⟩
    · exact hsame hreadings
    · unfold Ascends
      rw [hreadings, hcache]
      constructor
      · rw [map_append, pairwise_append]
        refine ⟨h.1, pairwise_singleton _ _, fun n hn m hm => ?_⟩
        obtain ⟨r, hr, rfl⟩ := List.mem_map.1 hn
        cases mem_singleton.1 hm
        exact h.2 r hr
      · intro r hr
        rcases mem_append.1 hr with hr | hr
        · exact h.2 r hr
        · cases mem_singleton.1 hr
          exact le_refl _
  · cases hpasses
    exact hsame rfl
  · exact event.elim

lemma Ascends.after {events : List Happens} (h : Ascends D o w.shared)
    (hforward : (installation D o).Every (MovesForward D o) w events)
    (hafter : (installation D o).after w events = some w') : Ascends D o w'.shared := by
  induction events generalizing w with
  | nil =>
    cases Process.after_nil hafter
    exact h
  | cons e events ih =>
    obtain ⟨w₁, hstep, hafter⟩ := Process.after_cons hafter
    exact ih (h.step hforward.1 hstep) (hforward.2 w₁ hstep) hafter

/-- What holds of a run of an installation. -/
structure Trusted (D : Dates) (o : AllowlistOptions) (now : ℤ) (events : List Happens) (w : Installed) : Prop where
  forward : (installation D o).Every (MovesForward D o) (unfetched now) events ↔
    (installation D o).Every (NotOvertaken D o) (unfetched now) events
  ascends : (installation D o).Every (NotOvertaken D o) (unfetched now) events →
    (w.shared.readings.map fun r => floor D o r.cached).Pairwise (· ≤ ·)
  /-- The list that is held is the bundled one, or a source answered with it, and it was read and had not
  expired then. -/
  held : ∀ l, heldList D o w.shared.cache = some l → o.bundled = some l ∨
    ∃ body moment, (body, moment) ∈ w.shared.fetched ∧ parseAllowlist D body = .ok l ∧ Unexpired D o l moment
  /-- A call of `current` has answered with the list that was held when it read the cache. -/
  current : ∀ {k view}, w.fibers[k]? = some (.running .current (.done (.view view))) →
    ∃ r ∈ w.shared.readings, r.fiber = k ∧ view.map AllowlistView.allowlist = heldList D o r.cached
  admits : ∀ {k name version integrity},
    w.fibers[k]? = some (.running (.verifyAcquired name version integrity) (.done .verified)) →
    ∃ r ∈ w.shared.readings, r.fiber = k ∧ ∃ l, heldList D o r.cached = some l ∧
      goodAfter D l 0 r.moment = true ∧ Vouches l name version integrity

lemma kept_unfetched (now : ℤ) : Kept D o (unfetched now) :=
  held_start ⟨(fun v hv => by cases hv), fun x hx => absurd hx not_mem_nil⟩ fun _ => trivial

/-- However calls overlap, whatever sources answer and whenever the cache fails. -/
theorem allowlist_after {now : ℤ} {events : List Happens}
    (h : (installation D o).after (unfetched now) events = some w) : Trusted D o now events w := by
  have hkept : Kept D o w :=
    (discipline D o).after (kept_unfetched now) (Process.within_true _ _) h
  have hforward : (installation D o).Every (NotOvertaken D o) (unfetched now) events →
      (installation D o).Every (MovesForward D o) (unfetched now) events :=
    (discipline D o).every movesForward_of (kept_unfetched now) (Process.within_true _ _)
  refine ⟨⟨(discipline D o).every notOvertaken_of (kept_unfetched now) (Process.within_true _ _), hforward⟩,
    fun hcond => ?_, fun l hl => ?_, fun {k view} hjob => ?_, fun {k name version integrity} hjob => ?_⟩
  · have hstart : Ascends D o (unfetched now).shared :=
      ⟨List.Pairwise.nil, fun r hr => absurd hr List.not_mem_nil⟩
    exact (hstart.after (hforward hcond) h).1
  · cases hcache : w.shared.cache with
    | none =>
      rw [hcache] at hl
      refine .inl ?_
      exact hl
    | some v =>
      obtain ⟨l', hl'⟩ := hkept.inv.accepted v hcache
      rw [hcache, hl'.heldList] at hl
      cases hl
      exact .inr hl'.fetched
  · obtain ⟨r, hr, hfiber, -, hview, -⟩ : Read D k (heldList D o) view w.shared := hkept.fibers hjob
    exact ⟨r, hr, hfiber, hview⟩
  · exact show Admits D o k name version integrity w.shared from hkept.fibers hjob

end Client

/-! ## An older list over a newer one -/

def twoDates : Dates where
  parse text := if text = utf16 "2026-01-01T00:00:00.000Z" then some 0
    else if text = utf16 "2027-01-01T00:00:00.000Z" then some 31536000000 else none
  iso _ := some (utf16 "2026-01-01T00:00:00.000Z")

def emptyList (sequence : ℕ) : Allowlist :=
  ⟨sequence, utf16 "2026-01-01T00:00:00.000Z", utf16 "2027-01-01T00:00:00.000Z", []⟩

def oneSource : AllowlistOptions where
  sources := [utf16 "https://zelavis.com/allowlist.json"]
  bundled := none

/-- Two refreshes begin. One is answered with an old list, the other with a new one, which is written and
asked for; then the old one is written, and asked for. -/
def overtakenEvents : List Happens :=
  [.begins .refresh, .begins .refresh, .moves 0 .done, .moves 0 (.body (emptyList 1).toJson), .moves 1 .done,
    .moves 1 (.body (emptyList 2).toJson), .moves 1 .done, .moves 1 .done, .moves 1 .done,
    .begins .current, .moves 2 .done, .moves 2 .done, .moves 0 .done, .moves 0 .done, .moves 0 .done,
    .begins .current, .moves 3 .done, .moves 3 .done]

lemma overtaken_readings : ((installation twoDates oneSource).after (unfetched 0) overtakenEvents).map
    (fun w => w.shared.readings.map fun r => floor twoDates oneSource r.cached) = some [0, 0, 2, 1] := by
  decide +kernel

/-- The lists that calls find may move backwards. -/
theorem not_allowlist_forward :
    ¬ ∀ (D : Dates) (o : AllowlistOptions) (now : ℤ) (events : List Happens) (w : Installed),
      (installation D o).after (unfetched now) events = some w →
        (w.shared.readings.map fun r => floor D o r.cached).Pairwise (· ≤ ·) := by
  intro h
  obtain ⟨w, hw, hreadings⟩ := Option.map_eq_some_iff.1 overtaken_readings
  have hclaim := h twoDates oneSource 0 overtakenEvents w hw
  rw [hreadings] at hclaim
  exact absurd hclaim (by decide)

/-- A refresh, and then a call of `current`. -/
def refreshedEvents : List Happens :=
  [.begins .refresh, .moves 0 .done, .moves 0 (.body (emptyList 2).toJson), .moves 0 .done, .moves 0 .done,
    .moves 0 .done, .moves 0 .done, .moves 0 .done, .begins .current, .moves 1 .done, .moves 1 .done]

lemma refreshed_sequence : ((installation twoDates oneSource).after (unfetched 0) refreshedEvents).map
    (fun w => floor twoDates oneSource w.shared.cache) = some 2 := by
  decide +kernel

/-- The same run. -/
theorem allowlist_after_refreshed : ∃ w,
    (installation twoDates oneSource).after (unfetched 0) refreshedEvents = some w ∧
      Trusted twoDates oneSource 0 refreshedEvents w := by
  obtain ⟨w, hw, -⟩ := Option.map_eq_some_iff.1 refreshed_sequence
  exact ⟨w, hw, allowlist_after hw⟩

end Zelavis.Marketplace
