import Zelavis.Identity.Recovery

/-!
# What password recovery ends

Over every run of `Zelavis.Identity.Recovery` in which no credential is written over another than was read.
-/

namespace Zelavis.Identity.Recovery

open Lib Turns Sessions Option

variable {H D : Type} [DecidableEq D] {secrets : Secrets H D} {ttlMs : ℕ} [DecidableEq H]
  {s s' : Shared H D} {p p' : Phase H D} {e : Event}

/-! ## The password that was replaced -/

variable {read : Credential H D} {password : Utf16} {hash : H} {stored : Credential H D}

section

variable (run : Run (recoveries secrets ttlMs)) {i j k r : ℕ}

def Replaces (b r : ℕ) (token : Utf16) (read : Credential H D) (hash : H) : Prop :=
  (run.world b).parties[r]? = some (.replacing token read hash) ∧
    (run.world (b + 1)).parties[r]? = some (.revoking token read.secretHash (.bumping none .start))

/-- A password that verifies with none of the hashes that recoveries write from a moment on. -/
def NotSetFrom (b : ℕ) (password : Utf16) : Prop :=
  ∀ m ≥ b, ∀ r token read hash, Replaces run m r token read hash → secrets.verify password hash = false

/-- What a turn does to the credential: nothing, or its password stays, or a recovery writes another. -/
theorem credential_succ (hclear : clear (run.world i) (run.turn i) = true)
    (hstored : (run.world (i + 1)).shared.credential = some stored) :
    (∃ before, (run.world i).shared.credential = some before ∧ stored.secretHash = before.secretHash) ∨
      ∃ r token read hash, Replaces run i r token read hash ∧ stored.secretHash = some hash := by
  obtain ⟨-, hw⟩ | ⟨party, -, -, hw⟩ | ⟨k, event, p, s', p', hturn, hp, hmove, hw⟩ | ⟨event, -⟩ :=
    Rules.play_cases (run.plays i)
  · rw [hw] at hstored
    exact .inl ⟨stored, hstored, rfl⟩
  · rw [hw] at hstored
    exact .inl ⟨stored, hstored, rfl⟩
  · rw [hturn, clear, hp, all_some] at hclear
    have hset : (run.world (i + 1)).parties[k]? = some p' := by
      rw [hw]
      exact List.getElem?_set_self (List.getElem?_eq_some_iff.1 hp).1
    rw [hw] at hstored
    cases advance_moves hmove with
    | delivered read recovery =>
      obtain ⟨before, hbefore, rfl⟩ := map_eq_some_iff.1 hstored
      rw [Phase.clear, hbefore, all_some, decide_eq_true_eq] at hclear
      exact .inl ⟨before, hbefore, hclear.symm⟩
    | replaced token read hash =>
      obtain ⟨before, hbefore, rfl⟩ := map_eq_some_iff.1 hstored
      exact .inr ⟨k, token, read, hash, ⟨hp, hset⟩, rfl⟩
    | _ => exact .inl ⟨stored, hstored, rfl⟩
  · exact event.elim

/-- A password that was replaced, and that no recovery sets again, does not verify with what is stored. -/
theorem verify_eq_false (hclear : ∀ i, clear (run.world i) (run.turn i) = true) {b : ℕ} {token : Utf16}
    (hreplaces : Replaces run b r token read hash) (hnot : NotSetFrom run b password) (hbi : b < i) {h : H}
    (hstored : (run.world i).shared.credential = some stored) (hsecret : stored.secretHash = some h) :
    secrets.verify password h = false := by
  induction i, hbi using Nat.le_induction generalizing stored h with
  | base =>
    obtain hlater | ⟨r', token', read', hash', hreplaces', hhash⟩ := credential_succ run (hclear b) hstored
    · -- the turn is that of the recovery
      obtain ⟨hp, hp'⟩ := hreplaces
      obtain hstays | ⟨event, q, hturn, hq, hmove⟩ := Rules.play_stays (run.plays b) hp
      · cases hstays.symm.trans hp'
      · have heq := hmove
        simp only [recoveries, advance, Option.some.injEq, Prod.mk.injEq] at heq
        rw [← heq.1] at hstored
        obtain ⟨before, -, rfl⟩ := map_eq_some_iff.1 hstored
        cases hsecret
        exact hnot b le_rfl r token read _ ⟨hp, hp'⟩
    · rw [hhash] at hsecret
      cases hsecret
      exact hnot b le_rfl r' token' read' _ hreplaces'
  | succ i hbi ih =>
    obtain ⟨before, hbefore, hsame⟩ | ⟨r', token', read', hash', hreplaces', hhash⟩ :=
      credential_succ run (hclear i) hstored
    · exact ih hbefore (hsame ▸ hsecret)
    · rw [hhash] at hsecret
      cases hsecret
      exact hnot i ((Nat.le_succ b).trans hbi) r' token' read' _ hreplaces'

def Phase.Refused (password : Utf16) (p : Phase H D) : Prop :=
  (∃ expiresAt, p = .authenticating password expiresAt) ∨ ∃ expiresAt, p = .unauthenticated expiresAt

omit [DecidableEq H] in
lemma Phase.Refused.next (hrefused : p.Refused password) (h : advance secrets ttlMs e s p = some (s', p'))
    (hverify : ∀ hash, s.credential.bind Credential.secretHash = some hash →
      secrets.verify password hash = false) : p'.Refused password := by
  obtain ⟨expiresAt, rfl⟩ | ⟨expiresAt, rfl⟩ := hrefused
  · cases advance_moves h with
    | verified password expiresAt hash hread hverified =>
      rw [hverify hash hread] at hverified
      cases hverified
    | unverified password expiresAt => exact .inr ⟨expiresAt, rfl⟩
  · cases h

/-- An attempt with a password that was replaced, and that no recovery sets again, is refused. -/
theorem refused_of_replaced (hclear : ∀ i, clear (run.world i) (run.turn i) = true) {b : ℕ} {token : Utf16}
    (hreplaces : Replaces run b r token read hash)
    (hnot : NotSetFrom run b password) (hbj : b < j) {expiresAt : ℕ}
    (hasked : (run.world j).parties[k]? = some (.authenticating password expiresAt)) {n : ℕ} (hjn : j ≤ n) :
    ∃ p, (run.world n).parties[k]? = some p ∧ p.Refused password := by
  induction n, hjn using Nat.le_induction with
  | base => exact ⟨_, hasked, .inl ⟨expiresAt, rfl⟩⟩
  | succ n hjn ih =>
    obtain ⟨p, hp, hrefused⟩ := ih
    obtain h | ⟨event, q, -, hq, hmove⟩ := Rules.play_stays (run.plays n) hp
    · exact ⟨p, h, hrefused⟩
    · refine ⟨q, hq, hrefused.next hmove fun hash hread => ?_⟩
      obtain ⟨stored, hstored, hsecret⟩ := bind_eq_some_iff.1 hread
      exact verify_eq_false run hclear hreplaces hnot (hbj.trans_le hjn) hstored hsecret

end

/-! ## A token that was used -/

def Phase.delivers : Phase H D → Option D
  | .delivering _ recovery => some recovery.tokenHash
  | _ => none

def Shared.token (s : Shared H D) : Option D :=
  (s.credential.bind Credential.recovery).map Begun.tokenHash

/-- What holds of the tokens that are stored, or about to be written: they were drawn, and each is in one
place. -/
structure Tokens (w : World (Shared H D) (Phase H D)) : Prop where
  stored : ∀ d, w.shared.token = some d → d ∈ w.shared.drawn
  drawn : ∀ (k : ℕ) (p : Phase H D) (d : D), w.parties[k]? = some p → p.delivers = some d → d ∈ w.shared.drawn
  apart : ∀ (k : ℕ) (p : Phase H D) (d : D), w.parties[k]? = some p → p.delivers = some d →
    w.shared.token ≠ some d
  once : ∀ (k k' : ℕ) (p p' : Phase H D) (d : D), w.parties[k]? = some p → w.parties[k']? = some p' →
    p.delivers = some d → p'.delivers = some d → k = k'

/-- A token that was drawn, and is neither stored nor about to be. -/
structure Spent (d : D) (w : World (Shared H D) (Phase H D)) : Prop where
  drawn : d ∈ w.shared.drawn
  stored : w.shared.token ≠ some d
  delivers : ∀ (k : ℕ) (p : Phase H D), w.parties[k]? = some p → p.delivers ≠ some d

omit [DecidableEq H] in
/-- What a step does to tokens: what is stored stays or is cleared, or one is drawn, or written. -/
theorem token_next (h : advance secrets ttlMs e s p = some (s', p')) :
    ((s'.token = s.token ∨ s'.token = none) ∧ s'.drawn = s.drawn ∧ p'.delivers = none) ∨
    (∃ d, d ∉ s.drawn ∧ s'.token = s.token ∧ s'.drawn = d :: s.drawn ∧ p'.delivers = some d) ∨
    ∃ d, p.delivers = some d ∧ s'.token = some d ∧ s'.drawn = s.drawn ∧ p'.delivers = none := by
  cases advance_moves h with
  | drew read expiresAt hread hfresh => exact .inr (.inl ⟨_, hfresh, rfl, rfl, rfl⟩)
  | delivered read recovery =>
    cases hcredential : s.credential with
    | none => exact .inl ⟨.inr rfl, rfl, rfl⟩
    | some before => exact .inr (.inr ⟨recovery.tokenHash, rfl, rfl, rfl, rfl⟩)
  | replaced token read hash =>
    refine .inl ⟨.inr ?_, rfl, rfl⟩
    cases hcredential : s.credential <;> rfl
  | _ => exact .inl ⟨.inl rfl, rfl, rfl⟩

omit [DecidableEq D] [DecidableEq H] in
lemma Phase.delivers_of_isStart (hb : p.isStart = true) : p.delivers = none := by
  cases p with
  | delivering read recovery => cases hb
  | _ => rfl

variable {w w' : World (Shared H D) (Phase H D)} {turn : Turn (Phase H D) Event Empty}

omit [DecidableEq H] in
/-- A party after a turn is one that was there, or delivers nothing, or is the one that has moved. -/
theorem delivers_party
    (hplay : (recoveries secrets ttlMs).play w turn = some w') {k : ℕ} {q : Phase H D} {d : D}
    (hq : w'.parties[k]? = some q) (hdelivers : q.delivers = some d) :
    w.parties[k]? = some q ∨ ∃ event p, turn = .move k event ∧ w.parties[k]? = some p ∧
      advance secrets ttlMs event w.shared p = some (w'.shared, q) := by
  obtain h | ⟨-, hb⟩ | h := Rules.play_party hplay hq
  · exact .inl h
  · rw [Phase.delivers_of_isStart hb] at hdelivers
    cases hdelivers
  · exact .inr h

omit [DecidableEq H] in
lemma token_play (hplay : (recoveries secrets ttlMs).play w turn = some w') :
    ((w'.shared.token = w.shared.token ∨ w'.shared.token = none) ∧ w'.shared.drawn = w.shared.drawn ∧
      ∀ (k : ℕ) (q : Phase H D) (d : D), w'.parties[k]? = some q → q.delivers = some d →
        w.parties[k]? = some q) ∨ (∃ (d : D) (k : ℕ), d ∉ w.shared.drawn ∧ w'.shared.token = w.shared.token ∧
      w'.shared.drawn = d :: w.shared.drawn ∧ ∀ (k' : ℕ) (q : Phase H D) (d' : D),
        w'.parties[k']? = some q → q.delivers = some d' → w.parties[k']? = some q ∨ (k' = k ∧ d' = d)) ∨
    ∃ (d : D) (k : ℕ) (p : Phase H D), w.parties[k]? = some p ∧ p.delivers = some d ∧
      w'.shared.token = some d ∧ w'.shared.drawn = w.shared.drawn ∧
      ∀ (k' : ℕ) (q : Phase H D) (d' : D), w'.parties[k']? = some q → q.delivers = some d' →
        w.parties[k']? = some q ∧ k' ≠ k := by
  obtain ⟨rfl, rfl⟩ | ⟨party, rfl, -, rfl⟩ | ⟨k, event, p, s', p', rfl, hp, hmove, hw⟩ | ⟨event, -⟩ :=
    Rules.play_cases hplay
  · exact .inl ⟨.inl rfl, rfl, fun _ _ _ hq _ => hq⟩
  · refine .inl ⟨.inl rfl, rfl, fun k q d hq hdelivers => ?_⟩
    obtain h | ⟨event, -, hturn, -⟩ := delivers_party hplay hq hdelivers
    · exact h
    · cases hturn
  · have hset : w'.parties[k]? = some p' := by
      rw [hw]
      exact List.getElem?_set_self (List.getElem?_eq_some_iff.1 hp).1
    have hother : ∀ (k' : ℕ) (q : Phase H D) (d' : D), w'.parties[k']? = some q →
        q.delivers = some d' → w.parties[k']? = some q ∨ (k' = k ∧ q = p') := by
      intro k' q d' hq hdelivers
      obtain h | ⟨event', p₀, hturn, -⟩ := delivers_party hplay hq hdelivers
      · exact .inl h
      · cases hturn
        exact .inr ⟨rfl, some.inj (hq.symm.trans hset)⟩
    have hshared : w'.shared = s' := by rw [hw]
    rw [← hshared] at hmove
    obtain ⟨htoken, hdrawn, hnone⟩ | ⟨d, hfresh, htoken, hdrawn, hsome⟩ |
      ⟨d, hsome, htoken, hdrawn, hnone⟩ := token_next hmove
    · refine .inl ⟨htoken, hdrawn, fun k' q d' hq hdelivers => ?_⟩
      obtain h | ⟨-, rfl⟩ := hother k' q d' hq hdelivers
      · exact h
      · rw [hnone] at hdelivers
        cases hdelivers
    · refine .inr (.inl ⟨d, k, hfresh, htoken, hdrawn, fun k' q d' hq hdelivers => ?_⟩)
      obtain h | ⟨rfl, rfl⟩ := hother k' q d' hq hdelivers
      · exact .inl h
      · exact .inr ⟨rfl, some.inj (hdelivers.symm.trans hsome)⟩
    · refine .inr (.inr ⟨d, k, p, hp, hsome, htoken, hdrawn, fun k' q d' hq hdelivers => ?_⟩)
      have hne : k' ≠ k := by
        rintro rfl
        cases hset.symm.trans hq
        rw [hnone] at hdelivers
        cases hdelivers
      obtain h | ⟨rfl, -⟩ := hother k' q d' hq hdelivers
      · exact ⟨h, hne⟩
      · exact absurd rfl hne
  · exact event.elim

omit [DecidableEq H] in
lemma tokens_play
    (hplay : (recoveries secrets ttlMs).play w turn = some w') (h : Tokens w) : Tokens w' := by
  obtain ⟨htoken, hdrawn, hold⟩ | ⟨d, k, hfresh, htoken, hdrawn, hold⟩ |
    ⟨d, k, p, hp, hdelivers, htoken, hdrawn, hold⟩ := token_play hplay
  · refine ⟨fun d hd => ?_, fun k q d hq hd => ?_, fun k q d hq hd hstored => ?_,
      fun k k' q q' d hq hq' hd hd' => h.once k k' q q' d (hold k q d hq hd) (hold k' q' d hq' hd') hd hd'⟩
    · rw [hdrawn]
      obtain htoken | htoken := htoken
      · exact h.stored d (htoken ▸ hd)
      · rw [htoken] at hd
        cases hd
    · rw [hdrawn]
      exact h.drawn k q d (hold k q d hq hd) hd
    · obtain htoken | htoken := htoken
      · exact h.apart k q d (hold k q d hq hd) hd (htoken ▸ hstored)
      · rw [htoken] at hstored
        cases hstored
  · refine ⟨fun d' hd' => ?_, fun k' q d' hq hd' => ?_, fun k' q d' hq hd' hstored => ?_,
      fun k₁ k₂ q₁ q₂ d' hq₁ hq₂ hd₁ hd₂ => ?_⟩
    · rw [hdrawn]
      exact List.mem_cons_of_mem _ (h.stored d' (htoken ▸ hd'))
    · rw [hdrawn]
      obtain hq | ⟨-, rfl⟩ := hold k' q d' hq hd'
      · exact List.mem_cons_of_mem _ (h.drawn k' q d' hq hd')
      · exact List.mem_cons_self
    · obtain hq | ⟨-, rfl⟩ := hold k' q d' hq hd'
      · exact h.apart k' q d' hq hd' (htoken ▸ hstored)
      · exact hfresh (h.stored d' (htoken ▸ hstored))
    · obtain hq₁ | ⟨rfl, rfl⟩ := hold k₁ q₁ d' hq₁ hd₁
      · obtain hq₂ | ⟨-, rfl⟩ := hold k₂ q₂ d' hq₂ hd₂
        · exact h.once k₁ k₂ q₁ q₂ d' hq₁ hq₂ hd₁ hd₂
        · exact absurd (h.drawn k₁ q₁ d' hq₁ hd₁) hfresh
      · obtain hq₂ | ⟨rfl, -⟩ := hold k₂ q₂ d' hq₂ hd₂
        · exact absurd (h.drawn k₂ q₂ d' hq₂ hd₂) hfresh
        · rfl
  · refine ⟨fun d' hd' => ?_, fun k' q d' hq hd' => ?_, fun k' q d' hq hd' hstored => ?_,
      fun k₁ k₂ q₁ q₂ d' hq₁ hq₂ hd₁ hd₂ => ?_⟩
    · rw [htoken] at hd'
      cases hd'
      rw [hdrawn]
      exact h.drawn k p d hp hdelivers
    · rw [hdrawn]
      exact h.drawn k' q d' (hold k' q d' hq hd').1 hd'
    · rw [htoken] at hstored
      cases hstored
      obtain ⟨hq', hne⟩ := hold k' q d hq hd'
      exact hne (h.once k' k q p d hq' hp hd' hdelivers)
    · exact h.once k₁ k₂ q₁ q₂ d' (hold k₁ q₁ d' hq₁ hd₁).1 (hold k₂ q₂ d' hq₂ hd₂).1 hd₁ hd₂

omit [DecidableEq H] in
lemma spent_play
    (hplay : (recoveries secrets ttlMs).play w turn = some w') {d : D} (h : Spent d w) : Spent d w' := by
  obtain ⟨htoken, hdrawn, hold⟩ | ⟨d', k, hfresh, htoken, hdrawn, hold⟩ |
    ⟨d', k, p, hp, hdelivers, htoken, hdrawn, hold⟩ := token_play hplay
  · refine ⟨hdrawn ▸ h.drawn, fun hstored => ?_, fun k q hq hd => h.delivers k q (hold k q d hq hd) hd⟩
    obtain htoken | htoken := htoken
    · exact h.stored (htoken ▸ hstored)
    · rw [htoken] at hstored
      cases hstored
  · refine ⟨?_, fun hstored => h.stored (htoken ▸ hstored), fun k' q hq hd => ?_⟩
    · rw [hdrawn]
      exact List.mem_cons_of_mem _ h.drawn
    · obtain hq | ⟨-, rfl⟩ := hold k' q d hq hd
      · exact h.delivers k' q hq hd
      · exact hfresh h.drawn
  · refine ⟨hdrawn ▸ h.drawn, fun hstored => ?_, fun k' q hq hd => h.delivers k' q (hold k' q d hq hd).1 hd⟩
    rw [htoken] at hstored
    cases hstored
    exact h.delivers k p hp hdelivers

section

variable (run : Run (recoveries secrets ttlMs)) {i j k k' : ℕ}

omit [DecidableEq H] in
lemma token_of_replacing (hstart : (run.world 0).parties = []) {token : Utf16}
    (hp : (run.world i).parties[k]? = some (.replacing token read hash)) :
    read.recovery.map Begun.tokenHash = some (secrets.digest token) := by
  obtain ⟨m, -, event, p, -, -, hmove⟩ := run.entered hstart hp rfl
  have hmoves := advance_moves hmove
  generalize (run.world (m + 1)).shared = s' at hmoves
  cases hmoves with
  | matched token password read recovery hread hrecovery hdigest =>
    rw [hrecovery, hdigest]
    rfl

omit [DecidableEq H] in
lemma replaces_of_revoking (hstart : (run.world 0).parties = []) {token : Utf16} {replaced : Option H}
    {r : RevokeAll} (hp : (run.world i).parties[k]? = some (.revoking token replaced r)) :
    ∃ b < i, (∃ event, run.turn b = .move k event) ∧ ∃ read hash, replaced = read.secretHash ∧
      Replaces run b k token read hash := by
  induction i generalizing r with
  | zero =>
    rw [hstart] at hp
    cases hp
  | succ i ih =>
    obtain hp' | ⟨-, hb⟩ | ⟨event, p₀, hturn, hp₀, hmove⟩ := run.stays_or_moves hp
    · obtain ⟨b, hb, hrest⟩ := ih hp'
      exact ⟨b, Nat.lt_succ_of_lt hb, hrest⟩
    · cases hb
    · obtain ⟨r₀, rfl, -⟩ | ⟨⟨read, hash, rfl, rfl⟩, rfl⟩ := revoking_next hmove
      · obtain ⟨b, hb, hrest⟩ := ih hp₀
        exact ⟨b, Nat.lt_succ_of_lt hb, hrest⟩
      · exact ⟨i, Nat.lt_succ_self i, ⟨event, hturn⟩, read, hash, rfl, hp₀, hp⟩

lemma spent_of_replaces (hstart : (run.world 0).parties = []) (htokens : Tokens (run.world i))
    (hclear : clear (run.world i) (run.turn i) = true) {token : Utf16}
    (hreplaces : Replaces run i k token read hash) : Spent (secrets.digest token) (run.world (i + 1)) ∧
      (run.world i).shared.token = some (secrets.digest token) := by
  obtain ⟨hp, hp'⟩ := hreplaces
  obtain hstays | ⟨event, q, hturn, hq, hmove⟩ := Rules.play_stays (run.plays i) hp
  · cases hstays.symm.trans hp'
  · rw [hturn, clear, hp, all_some, Phase.clear, decide_eq_true_eq] at hclear
    have htoken : (run.world i).shared.token = some (secrets.digest token) := by
      rw [Shared.token, hclear, bind_some]
      exact token_of_replacing run hstart hp
    have hcleared : (run.world (i + 1)).shared.token = none ∧
        (run.world (i + 1)).shared.drawn = (run.world i).shared.drawn := by
      have heq := hmove
      simp only [recoveries, advance, Option.some.injEq, Prod.mk.injEq] at heq
      rw [← heq.1, Shared.token, hclear]
      exact ⟨rfl, rfl⟩
    refine ⟨⟨?_, ?_, fun k' q' hq' hd => ?_⟩, htoken⟩
    · rw [hcleared.2]
      exact htokens.stored _ htoken
    · rw [hcleared.1]
      exact (some_ne_none _).symm
    · obtain h | ⟨event', p₀, hturn', hp₀, hmove'⟩ := delivers_party (run.plays i) hq' hd
      · exact htokens.apart k' q' _ h hd htoken
      · rw [hturn] at hturn'
        cases hturn'
        cases hp'.symm.trans hq'
        cases hd

lemma token_once (hstart : (run.world 0).parties = []) (htokens : Tokens (run.world 0))
    (hclear : ∀ i, clear (run.world i) (run.turn i) = true) {token : Utf16} {replaced replaced' : Option H}
    {r r' : RevokeAll} (hp : (run.world i).parties[k]? = some (.revoking token replaced r))
    (hp' : (run.world j).parties[k']? = some (.revoking token replaced' r')) : k = k' := by
  have htokens : ∀ n, Tokens (run.world n) := fun n =>
    run.kept (Q := Tokens) (fun n h => tokens_play (run.plays n) h) htokens (Nat.zero_le n)
  have hspent : ∀ {a b : ℕ} {k₁ k₂ : ℕ} {read₁ read₂ : Credential H D} {hash₁ hash₂ : H},
      Replaces run a k₁ token read₁ hash₁ → Replaces run b k₂ token read₂ hash₂ → ¬a < b := by
    intro a b k₁ k₂ read₁ read₂ hash₁ hash₂ ha hb hlt
    obtain ⟨hspent, -⟩ := spent_of_replaces run hstart (htokens a) (hclear a) ha
    obtain ⟨-, hstored⟩ := spent_of_replaces run hstart (htokens b) (hclear b) hb
    exact (run.kept (Q := Spent _) (fun n h => spent_play (run.plays n) h) hspent
      (Nat.succ_le_of_lt hlt)).stored hstored
  obtain ⟨a, -, ⟨event, hturn⟩, read, hash, -, ha⟩ := replaces_of_revoking run hstart hp
  obtain ⟨b, -, ⟨event', hturn'⟩, read', hash', -, hb⟩ := replaces_of_revoking run hstart hp'
  obtain rfl : a = b := le_antisymm (not_lt.1 (hspent hb ha)) (not_lt.1 (hspent ha hb))
  rw [hturn] at hturn'
  cases hturn'
  rfl

end

/-! ## What recovery is for -/

section

variable (run : Run (recoveries secrets ttlMs))

/-- What a recovery that is over has brought. -/
structure Recovers : Prop where
  password : ∀ {b r i j k : ℕ} {token : Utf16} {read : Credential H D} {hash replaced : H}
    {epoch : Option ℕ} {password : Utf16} {expiresAt : ℕ}, Replaces run b r token read hash →
    read.secretHash = some replaced → secrets.verify password replaced = true → NotSetFrom run b password →
    (run.world i).parties[r]? = some (.revoking token (some replaced) (.ended none epoch)) → i ≤ j →
    (run.world j).parties[k]? = some (.authenticating password expiresAt) →
    ∀ n ≥ j, ∃ p, (run.world n).parties[k]? = some p ∧ p.Refused password
  token : ∀ {i j k k' : ℕ} {token : Utf16} {replaced replaced' : Option H} {epoch epoch' : Option ℕ},
    (run.world i).parties[k]? = some (.revoking token replaced (.ended none epoch)) →
    (run.world j).parties[k']? = some (.revoking token replaced' (.ended none epoch')) → k = k'
  sessions : ∀ {i r i' k j k' id : ℕ} {token : Utf16} {replaced : H} {epoch : Option ℕ} {password : Utf16},
    (run.world i).parties[r]? = some (.revoking token (some replaced) (.ended none epoch)) →
    (run.world i').parties[k]? = some (.signing password replaced (.created id)) → i ≤ j →
    (run.world j).parties[k']? = some (.resolving (.asked id)) →
    ∀ j', (run.world j').parties[k']? ≠ some (.resolving (.resolved id))

/-- Where no credential is written over another password, or another recovery, than was read, and no
session is begun for a password that was replaced, recovery ends the old password. -/
theorem recovers (hstart : (run.world 0).parties = [])
    (htokens : ∀ d, (run.world 0).shared.token = some d → d ∈ (run.world 0).shared.drawn)
    (hclear : ∀ i, clear (run.world i) (run.turn i) = true) : Recovers run := by
  have hnone : ∀ (k : ℕ) (p : Phase H D), (run.world 0).parties[k]? ≠ some p := by
    intro k p hp
    rw [hstart] at hp
    cases hp
  refine ⟨?_, ?_, ?_⟩
  · intro b r i j k token read hash replaced epoch password expiresAt hreplaces _ _ hnot hended hij hasked n hn
    have hbi : b < i := by
      by_contra hle
      have hstuck := run.stuck (fun _ _ => rfl) hended (not_lt.1 hle)
      cases hreplaces.1.symm.trans hstuck
    exact refused_of_replaced run hclear hreplaces hnot (hbi.trans_le hij) hasked hn
  · intro i j k k' token replaced replaced' epoch epoch' hp hp'
    refine token_once run hstart ⟨htokens, fun k p d hp => absurd hp (hnone k p),
      fun k p d hp => absurd hp (hnone k p), fun k _ p _ d hp => absurd hp (hnone k p)⟩ hclear hp hp'
  · intro i r i' k j k' id token replaced epoch password hended hsigned hij hasked j'
    exact unresolved_of_replaced run hstart hclear hended hsigned hij hasked j'

end

/-! ## A recovery beside a sign-in -/

def plain : Secrets (Utf16 × ℕ) Utf16 := ⟨fun password salt => (password, salt), fun password hash =>
  password = hash.1, fun token => token⟩

def enrolled : World (Shared (Utf16 × ℕ) Utf16) (Phase (Utf16 × ℕ) Utf16) :=
  ⟨⟨some ⟨some (utf16 "old", 0), none⟩, [], ⟨some ⟨1, ⟨none, 0⟩⟩, []⟩⟩, []⟩

def given (k n : ℕ) : List (Turn (Phase (Utf16 × ℕ) Utf16) Event Empty) :=
  List.replicate n (.move k ⟨0, 1, utf16 "token"⟩)

def recovered (k n : ℕ) : List (Turn (Phase (Utf16 × ℕ) Utf16) Event Empty) :=
  [.begin .beginning] ++ given k 2 ++ [.begin (.completing (utf16 "token") (utf16 "new"))] ++ given (k + 1) n

/-- A sign-in is over before the recovery; the token, the old password and the session are tried after. -/
def inTurn : List (Turn (Phase (Utf16 × ℕ) Utf16) Event Empty) :=
  [.begin (.authenticating (utf16 "old") 100)] ++ given 0 4 ++ recovered 1 8 ++
    [.begin (.completing (utf16 "token") (utf16 "new"))] ++ given 3 1 ++
    [.begin (.authenticating (utf16 "old") 100)] ++ given 4 1 ++ [.begin (.resolving (.asked 0))] ++ given 5 1

/-- A sign-in has verified the old password before the recovery, and is over after it. -/
def overtaken : List (Turn (Phase (Utf16 × ℕ) Utf16) Event Empty) :=
  [.begin (.authenticating (utf16 "old") 100)] ++ given 0 1 ++ recovered 1 6 ++ given 0 3 ++
    [.begin (.resolving (.asked 0))] ++ given 3 2

def inTurnRun : Run (recoveries plain 10) := (recoveries plain 10).replay enrolled inTurn (by decide +kernel)

def overtakenRun : Run (recoveries plain 10) :=
  (recoveries plain 10).replay enrolled overtaken (by decide +kernel)

theorem recovers_inTurn : Recovers inTurnRun :=
  recovers inTurnRun rfl nofun (Rules.replay_all (fun _ => rfl) (by decide +kernel))

/-- The session of the old password is created after the recovery, and resolves. -/
theorem not_recovers : ¬∀ (secrets : Secrets (Utf16 × ℕ) Utf16) (ttlMs : ℕ)
    (run : Run (recoveries secrets ttlMs)), (run.world 0).parties = [] →
    (∀ d, (run.world 0).shared.token = some d → d ∈ (run.world 0).shared.drawn) → Recovers run := by
  intro h
  have hended : (overtakenRun.world 12).parties[2]? =
      some (.revoking (utf16 "token") (some (utf16 "old", 0)) (.ended none (some 1))) := by decide +kernel
  have hsigned : (overtakenRun.world 15).parties[0]? =
      some (.signing (utf16 "old") (utf16 "old", 0) (.created 0)) := by decide +kernel
  have hasked : (overtakenRun.world 16).parties[3]? = some (.resolving (.asked 0)) := by decide +kernel
  exact (h plain 10 overtakenRun rfl nofun).sessions hended hsigned (by decide)
    hasked 18 (by decide +kernel)

end Zelavis.Identity.Recovery
