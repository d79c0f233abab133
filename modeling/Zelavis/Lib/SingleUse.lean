import Mathlib.Data.Option.Basic
import Mathlib.Order.Lattice
import Zelavis.Lib.Turns

/-!
# Envelopes that are good once

A verifier looks at an envelope at one moment and asks a tracker at another whether its nonce is new. The
tracker remembers a nonce until its envelope has expired, by the moment at which it is asked.
-/

namespace Zelavis.Lib.SingleUse

open Turns Option

/-- What a verifier goes by. -/
structure Verifier (Token Claims Request Nonce T : Type) where
  spells : Token → Option Claims
  authentic : Token → Claims → T → Bool
  admits : Claims → Request → T → Bool
  nonce : Claims → Nonce
  expiresAt : Claims → T
  signs : Claims → Bool

variable {Token Claims Request Nonce T : Type} [LinearOrder T]

/-- The nonces that are remembered, and until when. -/
abbrev Seen (Nonce T : Type) := Nonce → Option T

def swept (seen : Seen Nonce T) (now : T) : Seen Nonce T := fun nonce =>
  (seen nonce).filter fun expiry => now < expiry

def consume [DecidableEq Nonce] (seen : Seen Nonce T) (nonce : Nonce) (expiresAt now : T) : Seen Nonce T × Bool :=
  if (swept seen now nonce).isSome then (swept seen now, false)
  else (Function.update (swept seen now) nonce (some expiresAt), true)

/-- How far a presentation is. -/
inductive Phase (Claims T : Type) where
  | presented
  | checked (claims : Claims)
  | accepted (claims : Claims) (moment : T)
  | refused
  deriving DecidableEq

/-- An envelope presented for a request. -/
structure Presentation (Token Claims Request T : Type) where
  token : Token
  request : Request
  phase : Phase Claims T
  deriving DecidableEq

/-- The clock, what has been signed, and what the tracker remembers. -/
structure Shared (Claims Nonce T : Type) where
  now : T
  signed : List Claims
  seen : Seen Nonce T

/-- What happens beside the presentations. -/
inductive Event (Claims T : Type) where
  | sign (claims : Claims)
  | tick (now : T)

variable (v : Verifier Token Claims Request Nonce T)

def Verifier.check (token : Token) (request : Request) (now : T) : Option Claims :=
  (v.spells token).filter fun claims => v.authentic token claims now && v.admits claims request now

def advance [DecidableEq Nonce] (now : T) (s : Shared Claims Nonce T) (p : Presentation Token Claims Request T) :
    Option (Shared Claims Nonce T × Presentation Token Claims Request T) :=
  match p.phase with
  | .presented =>
    some ({ s with now }, { p with phase := (v.check p.token p.request now).elim .refused .checked })
  | .checked claims =>
    some ({ s with now, seen := (consume s.seen (v.nonce claims) (v.expiresAt claims) now).1 }, { p with
        phase := if (consume s.seen (v.nonce claims) (v.expiresAt claims) now).2
          then .accepted claims now else .refused })
  | .accepted _ _ | .refused => none

def happen (s : Shared Claims Nonce T) : Event Claims T → Option (Shared Claims Nonce T)
  | .sign claims => if v.signs claims then some { s with signed := s.signed ++ [claims] } else none
  | .tick now => if s.now ≤ now then some { s with now } else none

def presentations [DecidableEq Nonce] : Rules (Shared Claims Nonce T) (Presentation Token Claims Request T) T
    (Event Claims T) where
  begins p := match p.phase with
    | .presented => true
    | _ => false
  moves now s p := if s.now ≤ now then advance v now s p else none
  passes event s := happen v s event

/-- A nonce is asked for before its envelope has expired, or while it is remembered. -/
def inTime (w : World (Shared Claims Nonce T) (Presentation Token Claims Request T)) :
    Turn (Presentation Token Claims Request T) T (Event Claims T) → Bool
  | .move k now =>
    match w.parties[k]?.map Presentation.phase with
    | some (.checked claims) =>
      now < v.expiresAt claims || (w.shared.seen (v.nonce claims)).any (now < ·)
    | _ => true
  | _ => true

def unforged [DecidableEq Claims]
    (w : World (Shared Claims Nonce T) (Presentation Token Claims Request T)) :
    Turn (Presentation Token Claims Request T) T (Event Claims T) → Bool
  | .move k now => (w.parties[k]?).all fun p => (v.spells p.token).all fun claims =>
    !v.authentic p.token claims now || w.shared.signed.contains claims
  | _ => true

/-! ## What is accepted -/

variable {expiresAt : T}

section

variable {v} {w w' : World (Shared Claims Nonce T) (Presentation Token Claims Request T)} {k k' : ℕ}
  {c : Claims} {r r' : Request} {t t' now : T} {p : Presentation Token Claims Request T}
  {seen : Seen Nonce T} {nonce : Nonce}

lemma swept_eq {e : T} (h : seen nonce = some e) (hnow : now < e) : swept seen now nonce = some e := by
  rw [swept, h]
  exact filter_eq_some_iff.2 ⟨rfl, decide_eq_true hnow⟩

lemma exists_of_any (h : (seen nonce).any (now < ·) = true) : ∃ e, seen nonce = some e ∧ now < e := by
  cases hseen : seen nonce with
  | none =>
    rw [hseen] at h
    cases h
  | some e =>
    rw [hseen, any_some] at h
    exact ⟨e, rfl, of_decide_eq_true h⟩

lemma consume_keeps [DecidableEq Nonce] {e expiresAt : T} {nonce' : Nonce} (h : seen nonce = some e) (hnow : now < e) :
    (consume seen nonce' expiresAt now).1 nonce = some e := by
  have hswept := swept_eq h hnow
  unfold consume
  split_ifs with hseen
  · exact hswept
  · have hne : nonce ≠ nonce' := by
      rintro rfl
      rw [hswept] at hseen
      exact hseen rfl
    show Function.update (swept seen now) nonce' (some expiresAt) nonce = some e
    rw [Function.update_of_ne hne, hswept]

lemma consume_snd [DecidableEq Nonce] :
    (consume seen nonce expiresAt now).2 = (swept seen now nonce).isNone := by
  unfold consume
  cases swept seen now nonce with
  | none | some => rfl

lemma consume_fst [DecidableEq Nonce] (h : (consume seen nonce expiresAt now).2 = true) :
    (consume seen nonce expiresAt now).1 nonce = some expiresAt := by
  rw [consume_snd, isNone_iff_eq_none] at h
  rw [consume, h, if_neg (by simp)]
  exact Function.update_self _ _ _

/-- A presentation has been accepted, when the tracker was asked at a moment. -/
def Accepted (w : World (Shared Claims Nonce T) (Presentation Token Claims Request T)) (k : ℕ) (c : Claims)
    (r : Request) (t : T) : Prop :=
  ∃ p, w.parties[k]? = some p ∧ p.phase = .accepted c t ∧ p.request = r

variable (v) in
def Passed (s : Shared Claims Nonce T) (p : Presentation Token Claims Request T) : Prop :=
  ∀ c, (p.phase = .checked c ∨ ∃ t, p.phase = .accepted c t) →
    c ∈ s.signed ∧ ∃ t, v.check p.token p.request t = some c

variable (v) in
/-- What every accepted envelope leaves behind. -/
structure Remembers (w : World (Shared Claims Nonce T) (Presentation Token Claims Request T)) : Prop where
  passed : ∀ p ∈ w.parties, Passed v w.shared p
  fresh : ∀ k c r t, Accepted w k c r t → t < v.expiresAt c
  remembered : ∀ k c r t, Accepted w k c r t → w.shared.now < v.expiresAt c →
    ∃ e, w.shared.seen (v.nonce c) = some e ∧ v.expiresAt c ≤ e
  once : ∀ k k' c r r' t t', Accepted w k c r t → Accepted w k' c r' t' → k = k'

/-- Presentations that are not accepted change nothing of what holds, whatever the clock and the tracker
come to, so long as the tracker forgets nothing too early. -/
theorem Remembers.of_not_accepted (h : Remembers v w) (hpassed : ∀ p ∈ w'.parties, Passed v w'.shared p)
    (haccepted : ∀ k c r t, Accepted w' k c r t → Accepted w k c r t) (hnow : w.shared.now ≤ w'.shared.now)
    (hseen : ∀ nonce e, w.shared.seen nonce = some e → w'.shared.now < e →
      w'.shared.seen nonce = some e) : Remembers v w' := by
  refine ⟨hpassed, fun k c r t hk => h.fresh k c r t (haccepted k c r t hk), ?_, ?_⟩
  · intro k c r t hk hbefore
    obtain ⟨e, he, hle⟩ := h.remembered k c r t (haccepted k c r t hk) (lt_of_le_of_lt hnow hbefore)
    exact ⟨e, hseen _ e he (lt_of_lt_of_le hbefore hle), hle⟩
  · intro k k' c r r' t t' hk hk'
    exact h.once k k' c r r' t t' (haccepted k c r t hk) (haccepted k' c r' t' hk')

omit [LinearOrder T] in
lemma Accepted.of_set {s : Shared Claims Nonce T} (h : Accepted ⟨s, w.parties.set k p⟩ k' c r t)
    (hp : ∀ c t, p.phase ≠ .accepted c t) : Accepted w k' c r t := by
  obtain ⟨q, hq, hphase, hr⟩ := h
  by_cases hkk : k = k'
  · subst hkk
    obtain rfl : q = p := by
      dsimp only at hq
      rw [List.getElem?_set_self'] at hq
      obtain ⟨_, -, heq⟩ := map_eq_some_iff.1 hq
      exact heq.symm
    exact absurd hphase (hp c t)
  · exact ⟨q, by rwa [List.getElem?_set_ne hkk] at hq, hphase, hr⟩

omit [LinearOrder T] in
lemma Verifier.authentic_of_check {token : Token} (h : v.check token r t = some c) :
    v.spells token = some c ∧ v.authentic token c t = true ∧ v.admits c r t = true := by
  obtain ⟨hspells, hgood⟩ := filter_eq_some_iff.1 h
  rw [Bool.and_eq_true] at hgood
  exact ⟨hspells, hgood.1, hgood.2⟩

variable [DecidableEq Nonce]

lemma Remembers.accept (h : Remembers v w) (hp : w.parties[k]? = some p) (hphase : p.phase = .checked c)
    (hnow : w.shared.now ≤ now) (hbefore : now < v.expiresAt c)
    (hnew : (consume w.shared.seen (v.nonce c) (v.expiresAt c) now).2 = true) :
    Remembers v ⟨{ w.shared with
        now, seen := (consume w.shared.seen (v.nonce c) (v.expiresAt c) now).1 },
      w.parties.set k { p with phase := .accepted c now }⟩ := by
  set w' : World (Shared Claims Nonce T) (Presentation Token Claims Request T) := ⟨_, _⟩ with hw'
  have hself : ∀ q, w'.parties[k]? = some q → q = { p with phase := .accepted c now } := by
    intro q hq
    rw [hw'] at hq
    rw [List.getElem?_set_self'] at hq
    obtain ⟨_, -, heq⟩ := map_eq_some_iff.1 hq
    exact heq.symm
  have haccepted : ∀ k' c' r t, Accepted w' k' c' r t →
      (k' = k ∧ c' = c ∧ t = now) ∨ Accepted w k' c' r t := by
    rintro k' c' r t ⟨q, hq, hq', hr⟩
    by_cases hkk : k' = k
    · subst hkk
      cases hself q hq
      cases hq'
      exact .inl ⟨rfl, rfl, rfl⟩
    · refine .inr ⟨q, ?_, hq', hr⟩
      rw [hw'] at hq
      rwa [List.getElem?_set_ne (Ne.symm hkk)] at hq
  -- an envelope accepted before would still be remembered
  have hfirst : ∀ k' r t, ¬Accepted w k' c r t := by
    intro k' r t hk'
    obtain ⟨e, he, hle⟩ := h.remembered k' c r t hk' (lt_of_le_of_lt hnow hbefore)
    rw [consume_snd, swept_eq he (lt_of_lt_of_le hbefore hle)] at hnew
    cases hnew
  refine ⟨fun q hq => ?_, fun k' c' r t hk' => ?_, fun k' c' r t hk' hout => ?_, ?_⟩
  · obtain hq | rfl := List.mem_or_eq_of_mem_set hq
    · exact h.passed q hq
    · rintro c' (hc' | ⟨t, hc'⟩)
      · cases hc'
      · cases hc'
        exact h.passed p (List.mem_of_getElem? hp) c (.inl hphase)
  · obtain ⟨-, rfl, rfl⟩ | hold := haccepted k' c' r t hk'
    · exact hbefore
    · exact h.fresh k' c' r t hold
  · obtain ⟨-, rfl, rfl⟩ | hold := haccepted k' c' r t hk'
    · exact ⟨_, consume_fst hnew, le_rfl⟩
    · obtain ⟨e, he, hle⟩ := h.remembered k' c' r t hold (lt_of_le_of_lt hnow hout)
      exact ⟨e, consume_keeps he (lt_of_lt_of_le hout hle), hle⟩
  · intro k₁ k₂ c' r r' t t' hk₁ hk₂
    obtain ⟨rfl, rfl, -⟩ | hold₁ := haccepted k₁ c' r t hk₁
    · obtain ⟨rfl, -, -⟩ | hold₂ := haccepted k₂ c' r' t' hk₂
      · rfl
      · exact absurd hold₂ (hfirst k₂ r' t')
    · obtain ⟨-, rfl, -⟩ | hold₂ := haccepted k₂ c' r' t' hk₂
      · exact absurd hold₁ (hfirst k₁ r t)
      · exact h.once k₁ k₂ c' r r' t t' hold₁ hold₂

omit [LinearOrder T] [DecidableEq Nonce] in
lemma mem_signed [DecidableEq Claims] (h : unforged v w (.move k now) = true)
    (hp : w.parties[k]? = some p) (hspells : v.spells p.token = some c)
    (hauthentic : v.authentic p.token c now = true) : c ∈ w.shared.signed := by
  rw [unforged, hp, all_some, hspells, all_some, hauthentic, Bool.not_true, Bool.false_or] at h
  exact List.contains_iff_mem.1 h

lemma remembers_play [DecidableEq Claims]
    {turn : Turn (Presentation Token Claims Request T) T (Event Claims T)}
    (h : Remembers v w) (hplay : (presentations v).play w turn = some w') (hunforged : unforged v w turn = true)
    (htime : inTime v w turn = true) : Remembers v w' := by
  obtain ⟨-, rfl⟩ | ⟨party, rfl, hb, rfl⟩ | ⟨k, now, p, s', p', rfl, hp, hmove, rfl⟩ |
    ⟨event, s', rfl, hpass, rfl⟩ := Rules.play_cases hplay
  · exact h
  · have hpresented : party.phase = .presented := by
      cases hphase : party.phase with
      | presented => rfl
      | checked | accepted | refused => simp [presentations, hphase] at hb
    refine h.of_not_accepted (fun q hq => ?_) ?_ le_rfl (fun _ _ he _ => he)
    · obtain hq | hq := List.mem_append.1 hq
      · exact h.passed q hq
      · cases List.mem_singleton.1 hq
        rintro c (hc | ⟨t, hc⟩)
        · cases hpresented.symm.trans hc
        · cases hpresented.symm.trans hc
    · rintro k c r t ⟨q, hq, hphase, hr⟩
      refine ⟨q, ?_, hphase, hr⟩
      rw [List.getElem?_append] at hq
      split_ifs at hq with hk
      · exact hq
      · obtain rfl : q = party := List.mem_singleton.1 (List.mem_of_getElem? hq)
        cases hpresented.symm.trans hphase
  · simp only [presentations] at hmove
    split_ifs at hmove with hnow
    unfold advance at hmove
    cases hphase : p.phase with
    | presented =>
      rw [hphase] at hmove
      cases hmove
      refine h.of_not_accepted (fun q hq => ?_) (fun k' c r t hk' => hk'.of_set ?_) hnow
        (fun _ _ he _ => he)
      · obtain hq | rfl := List.mem_or_eq_of_mem_set hq
        · exact h.passed q hq
        · cases hcheck : v.check p.token p.request now with
          | none =>
            rintro c (hc | ⟨t, hc⟩)
            · cases hc
            · cases hc
          | some claims =>
            obtain ⟨hspells, hauthentic, -⟩ := Verifier.authentic_of_check hcheck
            rintro c (hc | ⟨t, hc⟩)
            · cases hc
              exact ⟨mem_signed (w := w) hunforged hp hspells hauthentic, now, hcheck⟩
            · cases hc
      · intro c t hc
        cases hcheck : v.check p.token p.request now with
        | none | some => simp [hcheck] at hc
    | checked claims =>
      rw [hphase] at hmove
      cases hmove
      cases hnew : (consume w.shared.seen (v.nonce claims) (v.expiresAt claims) now).2 with
      | true =>
        have hbefore : now < v.expiresAt claims := by
          simp only [inTime, hp, map_some, hphase, Bool.or_eq_true, decide_eq_true_eq] at htime
          obtain hbefore | hremembered := htime
          · exact hbefore
          · obtain ⟨e, he, hlt⟩ := exists_of_any hremembered
            rw [consume_snd, swept_eq he hlt] at hnew
            cases hnew
        exact h.accept hp hphase hnow hbefore hnew
      | false =>
        refine h.of_not_accepted (fun q hq => ?_) (fun k' c r t hk' => hk'.of_set ?_) hnow
          (fun nonce e he hlt => consume_keeps he hlt)
        · obtain hq | rfl := List.mem_or_eq_of_mem_set hq
          · exact h.passed q hq
          · rintro c (hc | ⟨t, hc⟩)
            · cases hc
            · cases hc
        · intro c t hc
          cases hc
    | accepted | refused =>
      rw [hphase] at hmove
      cases hmove
  · cases event with
    | sign claims =>
      simp only [presentations, happen] at hpass
      split_ifs at hpass
      cases hpass
      refine h.of_not_accepted (fun q hq c hc => ?_) (fun _ _ _ _ hk => hk) le_rfl (fun _ _ he _ => he)
      obtain ⟨hsigned, hcheck⟩ := h.passed q hq c hc
      exact ⟨List.mem_append_left _ hsigned, hcheck⟩
    | tick now =>
      simp only [presentations, happen] at hpass
      split_ifs at hpass with hnow
      cases hpass
      exact h.of_not_accepted h.passed (fun _ _ _ _ hk => hk) hnow (fun _ _ he _ => he)

end

/-! ## Over every run -/

section

variable {v} [DecidableEq Nonce] (meant : Claims → Request → Prop) (run : Run (presentations v))

/-- What an envelope is good for. -/
structure GoodOnce : Prop where
  once : ∀ i k k' c r r' t t', Accepted (run.world i) k c r t → Accepted (run.world i) k' c r' t' → k = k'
  signed : ∀ i k c r t, Accepted (run.world i) k c r t → c ∈ (run.world i).shared.signed
  meant : ∀ i k c r t, Accepted (run.world i) k c r t → meant c r
  fresh : ∀ i k c r t, Accepted (run.world i) k c r t → t < v.expiresAt c

variable {run} {i : ℕ}

lemma remembers_run [DecidableEq Claims] (hstart : (run.world 0).parties = [])
    (hunforged : ∀ i, unforged v (run.world i) (run.turn i) = true)
    (htime : ∀ i, inTime v (run.world i) (run.turn i) = true) (i : ℕ) : Remembers v (run.world i) := by
  induction i with
  | zero =>
    have hnone : ∀ k c r t, ¬Accepted (run.world 0) k c r t := by
      rintro k c r t ⟨p, hp, -⟩
      rw [hstart] at hp
      cases hp
    refine ⟨fun p hp => ?_, fun k c r t hk => absurd hk (hnone k c r t),
      fun k c r t hk => absurd hk (hnone k c r t),
      fun k k' c r r' t t' hk => absurd hk (hnone k c r t)⟩
    rw [hstart] at hp
    cases hp
  | succ i ih => exact remembers_play ih (run.plays i) (hunforged i) (htime i)

lemma inTime_of_goodOnce (h : GoodOnce meant run) (i : ℕ) : inTime v (run.world i) (run.turn i) = true := by
  cases hturn : run.turn i with
  | idle | begin | pass => rfl
  | move k now =>
    cases hp : (run.world i).parties[k]? with
    | none => simp [inTime, hp]
    | some p =>
      cases hphase : p.phase with
      | presented | accepted | refused => simp [inTime, hp, hphase]
      | checked c =>
        simp only [inTime, hp, map_some, hphase]
        by_contra hlate
        rw [Bool.or_eq_true, not_or, decide_eq_true_eq] at hlate
        have hnew : (consume (run.world i).shared.seen (v.nonce c) (v.expiresAt c) now).2 = true := by
          rw [consume_snd]
          cases hseen : (run.world i).shared.seen (v.nonce c) with
          | none => simp [swept, hseen]
          | some e =>
            rw [hseen, any_some] at hlate
            rw [swept, hseen, filter_some, if_neg hlate.2]
            rfl
        have hplay := run.plays i
        rw [hturn, Rules.play, hp] at hplay
        obtain ⟨⟨s', p'⟩, hmove, heq⟩ := map_eq_some_iff.1 hplay
        simp only [presentations] at hmove
        split_ifs at hmove
        rw [advance, hphase] at hmove
        simp only [hnew, if_true] at hmove
        cases hmove
        refine hlate.1 (h.fresh (i + 1) k c p.request now ⟨{ p with phase := .accepted c now }, ?_, rfl, rfl⟩)
        rw [← heq]
        exact List.getElem?_set_self (List.getElem?_eq_some_iff.1 hp).1

/-- Envelopes are good once, for what they were meant, until they expire, exactly where no nonce is asked
for when its envelope has expired and it is not remembered. -/
theorem inTime_iff_goodOnce [DecidableEq Claims] (hmeant : ∀ c r t, v.admits c r t = true → meant c r)
    (hstart : (run.world 0).parties = []) (hunforged : ∀ i, unforged v (run.world i) (run.turn i) = true) :
    (∀ i, inTime v (run.world i) (run.turn i) = true) ↔ GoodOnce meant run := by
  refine ⟨fun htime => ?_, inTime_of_goodOnce meant⟩
  have h := remembers_run hstart hunforged htime
  have hpassed : ∀ i k c r t, Accepted (run.world i) k c r t →
      c ∈ (run.world i).shared.signed ∧ ∃ token now, v.check token r now = some c := by
    rintro i k c r t ⟨p, hp, hphase, rfl⟩
    obtain ⟨hsigned, now, hcheck⟩ := (h i).passed p (List.mem_of_getElem? hp) c (.inr ⟨t, hphase⟩)
    exact ⟨hsigned, p.token, now, hcheck⟩
  refine ⟨fun i => (h i).once, fun i k c r t hk => (hpassed i k c r t hk).1, ?_, fun i => (h i).fresh⟩
  intro i k c r t hk
  obtain ⟨-, token, now, hcheck⟩ := hpassed i k c r t hk
  exact hmeant c r now (Verifier.authentic_of_check hcheck).2.2

end

end Zelavis.Lib.SingleUse
