import Mathlib.Data.List.Infix
import Zelavis.Identity.Sessions
import Zelavis.Lib.Turns

/-!
# What a revocation of all sessions ends

Any number of creations, resolutions, rotations and revocations of one account's sessions, and
replacements of its metadata, go on beside each other over `session-service.ts` and
`account-service.ts`.
-/

namespace Zelavis.Identity.Sessions

open Lib Turns List Option

variable {id : ℕ}

def calls : Rules Stored Phase ℕ Empty where
  begins := Phase.isStart
  moves := advance
  passes event _ := event.elim

/-! ## What is kept in every run -/

variable {s s' : Stored} {p p' : Phase} {w w' : World Stored Phase} {now : ℕ}

lemma Phase.sound_of_isStart (h : p.isStart = true) : p.Sound s := by
  cases p with
  | create | resolve => trivial
  | rotate r =>
    cases r with
    | asked id => trivial
    | _ => cases h
  | revoke id change =>
    rw [of_decide_eq_true h]
    exact Mutate.reads_start _
  | revokeAll r =>
    cases r with
    | bumping kept change =>
      rw [of_decide_eq_true h]
      exact Mutate.reads_start _
    | _ => cases h
  | describe | finished => trivial

lemma calls_keeps : calls.Keeps (fun _ => True) (fun s p => p.Sound s) Stored.Later where
  begins _ hb := Phase.sound_of_isStart hb
  moves _ hsound hmove := by
    obtain ⟨hstep, hsound'⟩ := advance_step hsound hmove
    exact ⟨trivial, hsound', hstep.later⟩
  passes := by
    intro e
    exact e.elim
  stable _ hlater hsound := hsound.later hlater
  refl := Stored.Later.refl

/-! ## What is asked of a run -/

/-- Whether a call may make its next step. Source of the first case: `account-service.ts` `setMetadata`,
which writes back the epoch that it read; of the second: `session-service.ts` `revokeAll`, which moves the
session it keeps whatever epoch that has. -/
def Phase.clear (s : Stored) (others : List Phase) : Phase → Bool
  | .describe (.writing account) => s.currentEpoch ≤ account.sessionEpoch.getD 0
  | .revokeAll (.keeping id epoch change) => s.sessions[id]?.all fun v =>
    change.writes (some v) = false || v.value.status ≠ .active || others.all fun p =>
      (p.ends id).all fun ended => ended ≤ v.value.epochOf || epoch < ended
  | _ => true

/-- No account is written back with an earlier epoch than it has, and no revocation of all keeps a session
that another has ended. -/
def clear (w : World Stored Phase) : Turn Phase ℕ Empty → Bool
  | .move k _ => w.parties[k]?.all fun p => p.clear w.shared (w.parties.eraseIdx k)
  | _ => true

/-! ## The epoch does not go back -/

lemma Step.account_none (h : Step s p p' s') (hnone : s.account = none) : s'.account = none := by
  cases h with
  | bumped _ hv | described _ _ _ hv =>
    rw [hnone] at hv
    cases hv
  | _ => exact hnone

lemma Step.currentEpoch_le (h : Step s p p' s') {others : List Phase} (hclear : p.clear s others = true) :
    s.currentEpoch ≤ s'.currentEpoch := by
  cases h with
  | quiet | issued | ended | kept => exact le_rfl
  | bumped v hv hbumped =>
    rw [Stored.currentEpoch, hv]
    exact Nat.le_succ _
  | described v account hp hv =>
    subst hp
    exact of_decide_eq_true hclear

/-! ## Where a creation and a rotation go -/

/-- The moves of a rotation. -/
inductive Rotate.Moves (s s' : Stored) : Rotate → Rotate → Prop where
  | read (id : ℕ) (session : Session) (now : ℕ) : Rotate.Moves s s' (.asked id) (.checking id session now)
  | checked (id : ℕ) (session : Session) (now : ℕ) (hepoch : session.epochOf = s.currentEpoch) :
      Rotate.Moves s s' (.checking id session now) (.consuming id session now .start)
  | again (id : ℕ) (session : Session) (now : ℕ) (change change' : Mutate Session) :
      Rotate.Moves s s' (.consuming id session now change) (.consuming id session now change')
  | took (id : ℕ) (session : Session) (now : ℕ) (change : Mutate Session) (v : Versioned Session)
      (hv : s.sessions[id]? = some v) (hactive : v.value.status = .active)
      (hs' : s' = s.putSession id v (revoked v.value)) :
      Rotate.Moves s s' (.consuming id session now change) (.issuing id session now)
  | issued (id : ℕ) (session : Session) (now : ℕ) (x : Session)
      (hepoch : x.epoch = some session.epochOf) (hs' : s' = s.issue x) :
      Rotate.Moves s s' (.issuing id session now) (.verifying id s.sessions.length session.epochOf)
  | undo (id next epoch : ℕ) : Rotate.Moves s s' (.verifying id next epoch) (.undoing next .start)
  | undone (next : ℕ) (change change' : Mutate Session) :
      Rotate.Moves s s' (.undoing next change) (.undoing next change')
  | rotated (id next epoch : ℕ) : Rotate.Moves s s' (.verifying id next epoch) (.rotated id next)
  | refused (r : Rotate) : Rotate.Moves s s' r .refused
  | failed (r : Rotate) : Rotate.Moves s s' r .failed

lemma Rotate.next_moves {r r' : Rotate} (hsound : (Phase.rotate r).Sound s)
    (h : r.next now s = some (s', r')) : Rotate.Moves s s' r r' := by
  cases r with
  | asked id =>
    cases h
    split
    · exact .refused _
    · split_ifs
      · exact .read id _ _
      · exact .refused _
  | checking id session at_ =>
    cases h
    split_ifs with hepoch
    · exact .refused _
    · exact .checked id session at_ (not_not.1 hepoch)
  | consuming id session at_ change =>
    cases h
    obtain ⟨hv, heq⟩ | ⟨change', hreads, heq⟩ | heq | ⟨v, hv, -, heq⟩ :=
      changeSession_cases (f := consumed at_) hsound
    · rw [heq]
      exact .refused _
    · rw [heq]
      exact .again id session at_ change change'
    · rw [heq]
      exact .failed _
    · rw [heq]
      dsimp only [any_some]
      by_cases hlive : v.value.live at_ = true
      · rw [if_pos hlive]
        refine .took id session at_ change v hv ?_ ?_
        · exact of_decide_eq_true (Bool.and_eq_true _ _ ▸ hlive).1
        · rw [consumed, if_pos hlive]
      · rw [if_neg hlive]
        exact .refused _
  | issuing id session at_ =>
    obtain ⟨rfl, rfl⟩ := Prod.mk.inj (some.inj h)
    unfold issue
    split_ifs
    · exact .failed _
    · exact .issued id session at_ _ rfl rfl
  | verifying id next epoch =>
    cases h
    split_ifs
    · exact .undo id next epoch
    · exact .rotated id next epoch
  | undoing id change =>
    cases h
    split
    · exact .undone id change _
    · exact .refused _
    · exact .failed _
  | rotated | refused | failed => cases h

/-- The moves of a creation. -/
inductive Create.Moves (s s' : Stored) : Create → Create → Prop where
  | read (expiresAt : ℕ) : Create.Moves s s' (.asked expiresAt) (.issuing expiresAt s.currentEpoch)
  | issued (expiresAt epoch : ℕ) (x : Session) (hepoch : x.epoch = some epoch) (hs' : s' = s.issue x) :
      Create.Moves s s' (.issuing expiresAt epoch) (.created s.sessions.length)
  | failed (c : Create) : Create.Moves s s' c .failed

lemma Create.next_moves {c c' : Create} (h : c.next now s = some (s', c')) : Create.Moves s s' c c' := by
  cases c with
  | asked expiresAt =>
    cases h
    exact .read expiresAt
  | issuing expiresAt epoch =>
    obtain ⟨rfl, rfl⟩ := Prod.mk.inj (some.inj h)
    unfold issue
    split_ifs
    · exact .failed _
    · exact .issued expiresAt epoch _ rfl rfl
  | created | failed => cases h

/-- The moves of a call. -/
inductive Phase.Moves (now : ℕ) (s s' : Stored) : Phase → Phase → Prop where
  | create {c c' : Create} (h : Create.Moves s s' c c') : Phase.Moves now s s' (.create c) (.create c')
  | rotate {r r' : Rotate} (h : Rotate.Moves s s' r r') : Phase.Moves now s s' (.rotate r) (.rotate r')
  | resolve (r r' : Resolve) : Phase.Moves now s s' (.resolve r) (.resolve r')
  | revokeAll {r r' : RevokeAll} (h : r.next s = some (s', r')) : Phase.Moves now s s' (.revokeAll r) (.revokeAll r')
  | describe (d d' : Describe) : Phase.Moves now s s' (.describe d) (.describe d')
  | revoke (id : ℕ) (change change' : Mutate Session) : Phase.Moves now s s' (.revoke id change) (.revoke id change')
  | finished (id : ℕ) (change : Mutate Session) : Phase.Moves now s s' (.revoke id change) .finished

section

variable (hsound : p.Sound s) (h : advance now s p = some (s', p'))
include hsound h

lemma advance_moves : Phase.Moves now s s' p p' := by
  cases p with
  | create c =>
    obtain ⟨⟨t, c'⟩, hnext, heq⟩ := map_eq_some_iff.1 h
    cases heq
    exact .create (Create.next_moves hnext)
  | resolve r =>
    obtain ⟨⟨t, r'⟩, -, heq⟩ := map_eq_some_iff.1 h
    cases heq
    exact .resolve r r'
  | rotate r =>
    obtain ⟨⟨t, r'⟩, hnext, heq⟩ := map_eq_some_iff.1 h
    cases heq
    exact .rotate (Rotate.next_moves hsound hnext)
  | revoke id change =>
    cases h
    split
    · exact .revoke id change _
    · exact .finished id change
  | revokeAll r =>
    obtain ⟨⟨t, r'⟩, hnext, heq⟩ := map_eq_some_iff.1 h
    cases heq
    exact .revokeAll hnext
  | describe d =>
    obtain ⟨⟨t, d'⟩, -, heq⟩ := map_eq_some_iff.1 h
    cases heq
    exact .describe d d'
  | finished => cases h

lemma stamp_next {epoch : ℕ}
    (hstamp : p'.stamp = some epoch) :
    p.stamp = some epoch ∨ (p.hasRead = false ∧ epoch = s.currentEpoch) := by
  cases advance_moves hsound h with
  | create hmoves =>
    cases hmoves with
    | read expiresAt => exact .inr ⟨rfl, (some.inj hstamp).symm⟩
    | _ => cases hstamp
  | rotate hmoves =>
    cases hmoves with
    | checked id session now hepoch => exact .inr ⟨rfl, (some.inj hstamp).symm.trans hepoch⟩
    | again | took => exact .inl hstamp
    | _ => cases hstamp
  | _ => cases hstamp

lemma hasRead_next (hread : p.hasRead = true) :
    p'.hasRead = true := by
  cases advance_moves hsound h with
  | create hmoves =>
    cases hmoves with
    | read expiresAt => cases hread
    | _ => rfl
  | rotate hmoves =>
    cases hmoves with
    | read | checked => cases hread
    | _ => rfl
  | _ => rfl

lemma issued_next
    (hissued : p'.issued = some id) : p.issued = some id ∨
      (id = s.sessions.length ∧ ∃ epoch x, p.stamp = some epoch ∧ x.epoch = some epoch ∧ s' = s.issue x) := by
  cases advance_moves hsound h with
  | create hmoves =>
    cases hmoves with
    | issued expiresAt epoch x hepoch hs' =>
      exact .inr ⟨(some.inj hissued).symm, epoch, x, rfl, hepoch, hs'⟩
    | _ => cases hissued
  | rotate hmoves =>
    cases hmoves with
    | issued id session now x hepoch hs' =>
      exact .inr ⟨(some.inj hissued).symm, _, x, rfl, hepoch, hs'⟩
    | undo | undone | rotated => exact .inl hissued
    | _ => cases hissued
  | _ => cases hissued

lemma consumes_next
    (hconsumes : p'.consumes = some id) : p.consumes = some id ∨
      ∃ v, s.sessions[id]? = some v ∧ v.value.status = .active ∧
        s' = s.putSession id v (revoked v.value) := by
  cases advance_moves hsound h with
  | rotate hmoves =>
    cases hmoves with
    | took id session now change v hv hactive hs' =>
      cases hconsumes
      exact .inr ⟨v, hv, hactive, hs'⟩
    | issued | rotated => exact .inl hconsumes
    | _ => cases hconsumes
  | _ => cases hconsumes

end

/-! ## Where a revocation of all goes -/

lemma bumpedTo_next {epoch : ℕ} (hsound : p.Sound s) (h : advance now s p = some (s', p'))
    (hbumped : p'.bumpedTo = some epoch) : p.bumpedTo = some epoch ∨
      (p.bumpedTo = none ∧ epoch = s.currentEpoch + 1 ∧ s'.currentEpoch = epoch) := by
  cases advance_moves hsound h with
  | @revokeAll r r' hnext =>
    cases r with
    | bumping kept change =>
      cases hnext
      obtain ⟨hv, heq⟩ | ⟨change', -, heq⟩ | heq | ⟨v, hv, -, heq⟩ :=
        Mutate.next_cases (f := Sessions.bumped) hsound
      · rw [heq] at hbumped
        cases kept <;> cases hbumped
      · rw [heq] at hbumped
        cases hbumped
      · rw [heq] at hbumped
        cases hbumped
      · rw [heq] at hbumped ⊢
        have hepoch : s.currentEpoch = v.value.sessionEpoch.getD 0 := by
          rw [Stored.currentEpoch, hv]
          rfl
        have heq : epoch = s.currentEpoch + 1 := by
          rw [hepoch]
          cases kept <;> exact (some.inj hbumped).symm
        exact .inr ⟨rfl, heq, heq ▸ hepoch ▸ rfl⟩
    | keeping id epoch' change =>
      cases hnext
      refine .inl ?_
      split at hbumped
      · exact hbumped
      · exact hbumped
      · cases hbumped
    | listing kept epoch' =>
      cases hnext
      exact .inl hbumped
    | ending kept epoch' remaining change =>
      cases remaining with
      | nil =>
        cases hnext
        exact .inl hbumped
      | cons id remaining =>
        cases hnext
        refine .inl ?_
        split at hbumped
        · exact hbumped
        · exact hbumped
        · cases hbumped
    | ended | failed => cases hnext
  | _ => cases hbumped

lemma ends_next {epoch : ℕ} (hsound : p.Sound s) (h : advance now s p = some (s', p'))
    (hends : p'.ends id = some epoch) : p.ends id = some epoch ∨
      ∀ v, s'.sessions[id]? = some v → v.value.status ≠ .active := by
  cases advance_moves hsound h with
  | @revokeAll r r' hnext =>
    cases r with
    | bumping kept change =>
      cases hnext
      dsimp only at hends
      split at hends
      · cases hends
      · split at hends <;> cases hends
      · cases hends
    | keeping id' epoch' change =>
      cases hnext
      split at hends <;> cases hends
    | listing kept epoch' =>
      cases hnext
      refine .inr fun v hv hactive => ?_
      rw [Phase.ends] at hends
      split_ifs at hends with hspared
      rw [not_or] at hspared
      apply hspared.2
      have hlt : id < s.sessions.length := (List.getElem?_eq_some_iff.1 hv).1
      refine mem_filter.2 ⟨mem_range.2 hlt, ?_⟩
      rw [hv, any_some, decide_eq_true hactive, Bool.true_and]
      exact decide_eq_true hspared.1
    | ending kept epoch' remaining change =>
      cases remaining with
      | nil =>
        cases hnext
        refine .inl ?_
        simpa [Phase.ends] using hends
      | cons id' remaining =>
        cases hnext
        obtain ⟨hv, heq⟩ | ⟨change', hreads, heq⟩ | heq | ⟨v, hv, -, heq⟩ :=
          changeSession_cases (f := revoked) hsound
        · rw [heq] at hends ⊢
          by_cases hid : id = id'
          · refine .inr fun v hv' => ?_
            rw [hid, hv] at hv'
            cases hv'
          · refine .inl ?_
            simpa [Phase.ends, hid] using hends
        · rw [heq] at hends
          exact .inl hends
        · rw [heq] at hends
          cases hends
        · rw [heq] at hends ⊢
          by_cases hid : id = id'
          · subst hid
            refine .inr fun w hw => ?_
            have hlt : id < s.sessions.length := (List.getElem?_eq_some_iff.1 hv).1
            cases (List.getElem?_set_self hlt).symm.trans hw
            exact nofun
          · refine .inl ?_
            simpa [Phase.ends, hid] using hends
    | ended | failed => cases hnext
  | _ => cases hends

lemma bumpedTo_of_ends {epoch : ℕ} (h : p.ends id = some epoch) : p.bumpedTo = some epoch := by
  unfold Phase.ends at h
  split at h
  · split_ifs at h
    exact h
  · split_ifs at h
    exact h
  · cases h

/-! ## Over every run -/

lemma Phase.stamp_of_isStart (h : p.isStart = true) : p.stamp = none := by
  unfold Phase.isStart at h
  split at h <;> first | rfl | cases h

lemma Phase.issued_of_isStart (h : p.isStart = true) : p.issued = none := by
  unfold Phase.isStart at h
  split at h <;> first | rfl | cases h

lemma Phase.consumes_of_isStart (h : p.isStart = true) : p.consumes = none := by
  unfold Phase.isStart at h
  split at h <;> first | rfl | cases h

lemma Phase.ends_of_isStart (h : p.isStart = true) : p.ends id = none := by
  unfold Phase.isStart at h
  split at h <;> first | rfl | cases h

section

variable (run : Run calls) {i j k c r id epoch : ℕ}

section

variable (hstart : (run.world 0).parties = [])
include hstart

lemma sound_world (hp : (run.world i).parties[k]? = some p) :
    p.Sound (run.world i).shared := by
  refine (run.held calls_keeps ⟨trivial, fun q hq => ?_⟩ i).2 p (mem_of_getElem? hp)
  rw [hstart] at hq
  cases hq

lemma later_world (hij : i ≤ j) :
    (run.world i).shared.Later (run.world j).shared := by
  refine run.related_of_keeps calls_keeps Stored.Later.trans ⟨trivial, fun q hq => ?_⟩ hij
  rw [hstart] at hq
  cases hq

lemma currentEpoch_le
    (hclear : ∀ i, clear (run.world i) (run.turn i) = true) (hij : i ≤ j) :
    (run.world i).shared.currentEpoch ≤ (run.world j).shared.currentEpoch := by
  refine run.related (T := fun s s' => s.currentEpoch ≤ s'.currentEpoch) (fun _ => le_rfl) le_trans
    (fun i => ?_) hij
  obtain ⟨-, hw⟩ | ⟨party, -, -, hw⟩ | ⟨k, event, p, s', p', hturn, hp, hmove, hw⟩ | ⟨event, -⟩ :=
    Rules.play_cases (run.plays i)
  · rw [hw]
  · rw [hw]
  · have hthis := hclear i
    rw [hturn, clear, hp, all_some] at hthis
    rw [hw]
    exact (advance_step (sound_world run hstart hp) hmove).1.currentEpoch_le hthis
  · exact event.elim

lemma stamp_le (hclear : ∀ i, clear (run.world i) (run.turn i) = true)
    (hp : (run.world i).parties[k]? = some p) (hstamp : p.stamp = some epoch) :
    epoch ≤ (run.world i).shared.currentEpoch := by
  induction i generalizing p with
  | zero =>
    rw [hstart] at hp
    cases hp
  | succ i ih =>
    have hle := currentEpoch_le run hstart hclear (Nat.le_succ i)
    obtain hp' | ⟨-, hb⟩ | ⟨event, q, -, hq, hmove⟩ := run.stays_or_moves hp
    · exact (ih hp' hstamp).trans hle
    · rw [Phase.stamp_of_isStart hb] at hstamp
      cases hstamp
    · obtain hq' | ⟨-, rfl⟩ := stamp_next (sound_world run hstart hq) hmove hstamp
      · exact (ih hq hq').trans hle
      · exact hle

lemma account_isSome (hij : i ≤ j) :
    (run.world j).shared.account.isSome = (run.world i).shared.account.isSome := by
  induction j, hij using Nat.le_induction with
  | base => rfl
  | succ j _ ih =>
    rw [← ih]
    obtain ⟨-, hw⟩ | ⟨party, -, -, hw⟩ | ⟨k, event, p, s', p', -, hp, hmove, hw⟩ | ⟨event, -⟩ :=
      Rules.play_cases (run.plays j)
    · rw [hw]
    · rw [hw]
    · rw [hw]
      obtain ⟨hstep, -⟩ := advance_step (sound_world run hstart hp) hmove
      cases haccount : (run.world j).shared.account with
      | none =>
        rw [hstep.account_none haccount]
      | some v =>
        obtain ⟨v', hv', -⟩ := hstep.later.account v haccount
        rw [hv', isSome_some, isSome_some]
    · exact event.elim

section

variable (hp : (run.world i).parties[c]? = some p)
include hp

lemma hasRead_world
    (hread : p.hasRead = true) (hij : i ≤ j) :
    ∃ q, (run.world j).parties[c]? = some q ∧ q.hasRead = true := by
  induction j, hij using Nat.le_induction with
  | base => exact ⟨p, hp, hread⟩
  | succ j _ ih =>
    obtain ⟨q, hq, hread⟩ := ih
    obtain h | ⟨event, q', -, hq', hmove⟩ := Rules.play_stays (run.plays j) hq
    · exact ⟨q, h, hread⟩
    · exact ⟨q', hq', hasRead_next (sound_world run hstart hq) hmove hread⟩

lemma stamp_back
    (hread : p.hasRead = true) (hij : i ≤ j) {q : Phase} (hq : (run.world j).parties[c]? = some q)
    (hstamp : q.stamp = some epoch) : p.stamp = some epoch := by
  induction j, hij using Nat.le_induction generalizing q with
  | base =>
    cases hp.symm.trans hq
    exact hstamp
  | succ j hij ih =>
    obtain hq' | ⟨hnone, -⟩ | ⟨event, q', -, hq', hmove⟩ := run.stays_or_moves hq
    · exact ih hq' hstamp
    · obtain ⟨q', hq'⟩ := run.some_of_some hp hij
      rw [hnone] at hq'
      cases hq'
    · obtain hstamp' | ⟨hunread, -⟩ := stamp_next (sound_world run hstart hq') hmove hstamp
      · exact ih hq' hstamp'
      · obtain ⟨q'', hq'', hread'⟩ := hasRead_world run hstart hp hread hij
        cases hq'.symm.trans hq''
        rw [hread'] at hunread
        cases hunread

lemma issued_world
    (hissued : p.issued = some id) :
    ∃ m < i, ∃ q epoch x, (run.world m).parties[c]? = some q ∧ q.stamp = some epoch ∧
      (run.world m).shared.sessions.length = id ∧ x.epoch = some epoch ∧
      (run.world (m + 1)).shared = (run.world m).shared.issue x := by
  induction i generalizing p with
  | zero =>
    rw [hstart] at hp
    cases hp
  | succ i ih =>
    obtain hp' | ⟨-, hb⟩ | ⟨event, q, -, hq, hmove⟩ := run.stays_or_moves hp
    · obtain ⟨m, hm, hrest⟩ := ih hp' hissued
      exact ⟨m, Nat.lt_succ_of_lt hm, hrest⟩
    · rw [Phase.issued_of_isStart hb] at hissued
      cases hissued
    · obtain hissued' | ⟨rfl, epoch, x, hstamp, hx, hs'⟩ :=
        issued_next (sound_world run hstart hq) hmove hissued
      · obtain ⟨m, hm, hrest⟩ := ih hq hissued'
        exact ⟨m, Nat.lt_succ_of_lt hm, hrest⟩
      · exact ⟨i, Nat.lt_succ_self i, q, epoch, x, hq, hstamp, rfl, hx, hs'⟩

end

lemma issue_unique {x y : Session}
    (hi : (run.world (i + 1)).shared = (run.world i).shared.issue x)
    (hj : (run.world (j + 1)).shared = (run.world j).shared.issue y)
    (heq : (run.world i).shared.sessions.length = (run.world j).shared.sessions.length) : i = j := by
  have hmono : ∀ {a b : ℕ}, a ≤ b →
      (run.world a).shared.sessions.length ≤ (run.world b).shared.sessions.length := by
    intro a b hab
    by_contra hlt
    have hsome := List.getElem?_eq_getElem (not_le.1 hlt)
    obtain ⟨w, hw, -⟩ := (later_world run hstart hab).sessions _ _ hsome
    exact absurd (List.getElem?_eq_some_iff.1 hw).1 (lt_irrefl _)
  have hlength : ∀ {a : ℕ} {z : Session}, (run.world (a + 1)).shared = (run.world a).shared.issue z →
      (run.world (a + 1)).shared.sessions.length = (run.world a).shared.sessions.length + 1 := by
    intro a z ha
    rw [ha, Stored.issue, length_append, length_singleton]
  have hi' := hlength hi
  have hj' := hlength hj
  obtain hlt | rfl | hlt := lt_trichotomy i j
  · have hle := hmono (Nat.succ_le_of_lt hlt)
    rw [Nat.succ_eq_add_one, hi', heq] at hle
    exact absurd hle (Nat.not_succ_le_self _)
  · rfl
  · have hle := hmono (Nat.succ_le_of_lt hlt)
    rw [Nat.succ_eq_add_one, hj', heq] at hle
    exact absurd hle (Nat.not_succ_le_self _)

end

end

/-! ## What is ended stays ended -/

/-- A session that a revocation of all ends, and that is still active, is below the epoch it bumped to. -/
def Doomed (id r epoch : ℕ) (w : World Stored Phase) : Prop :=
  ∀ (p : Phase) (v : Versioned Session), w.parties[r]? = some p → p.ends id = some epoch →
    w.shared.sessions[id]? = some v → v.value.status = .active → v.value.epochOf < epoch

lemma getElem?_putSession {id' : ℕ} {v v' : Versioned Session} {x : Session} (h : (s.putSession id v x).sessions[id']? = some v') :
    (id = id' ∧ v' = v.put x) ∨ s.sessions[id']? = some v' := by
  rw [Stored.putSession, List.getElem?_set] at h
  split_ifs at h with hid hlt
  · exact .inl ⟨hid, (some.inj h).symm⟩
  · exact .inr h

lemma doomed_play {r epoch : ℕ} {turn : Turn Phase ℕ Empty} (hplay : calls.play w turn = some w')
    (hsound : ∀ p ∈ w.parties, p.Sound w.shared) (hclear : clear w turn = true)
    (hissue : ∀ x, w.shared.sessions.length = id → w'.shared = w.shared.issue x → x.epochOf < epoch)
    (hdoomed : Doomed id r epoch w) : Doomed id r epoch w' := by
  obtain ⟨-, rfl⟩ | ⟨party, -, hb, rfl⟩ | ⟨k, event, p, s', p', rfl, hp, hmove, rfl⟩ | ⟨event, -⟩ :=
    Rules.play_cases hplay
  · exact hdoomed
  · intro q v hq hends
    dsimp only at hq
    rw [List.getElem?_append] at hq
    split_ifs at hq with hlt
    · exact hdoomed q v hq hends
    · cases mem_singleton.1 (mem_of_getElem? hq)
      rw [Phase.ends_of_isStart hb] at hends
      cases hends
  · intro q v' hq hends hv' hactive'
    dsimp only at hq hv' hissue
    have hpsound := hsound p (mem_of_getElem? hp)
    obtain ⟨hstep, -⟩ := advance_step hpsound hmove
    -- the call that ends the session did so before this turn
    obtain ⟨q₀, hq₀, hends₀⟩ : ∃ q₀, w.parties[r]? = some q₀ ∧ q₀.ends id = some epoch := by
      rw [List.getElem?_set] at hq
      split_ifs at hq with hkr hlt
      · cases hq
        subst hkr
        obtain hends₀ | hended := ends_next hpsound hmove hends
        · exact ⟨p, hp, hends₀⟩
        · exact absurd hactive' (hended v' hv')
      · exact ⟨q, hq, hends⟩
    cases hstep with
    | quiet => exact hdoomed q₀ v' hq₀ hends₀ hv' hactive'
    | issued x epoch' hstamp hepoch hissued =>
      rw [Stored.issue, List.getElem?_append] at hv'
      split_ifs at hv' with hlt
      · exact hdoomed q₀ v' hq₀ hends₀ hv' hactive'
      · have hlast := (List.getElem?_eq_some_iff.1 hv').1
        rw [length_singleton] at hlast
        cases mem_singleton.1 (mem_of_getElem? hv')
        exact hissue x (by omega) rfl
    | ended id' v x hv hx =>
      obtain ⟨rfl, rfl⟩ | hv' := getElem?_putSession hv'
      · obtain hx | rfl := hx
        · exact absurd hactive' hx
        · exact hdoomed q₀ v hq₀ hends₀ hv hactive'
      · exact hdoomed q₀ v' hq₀ hends₀ hv' hactive'
    | kept id' epoch' change v hkeeps hv hactive hwrites =>
      obtain ⟨rfl, rfl⟩ | hv' := getElem?_putSession hv'
      · subst hkeeps
        have hne : r ≠ k := by
          rintro rfl
          cases hp.symm.trans hq₀
          cases hends₀
        have hother : q₀ ∈ w.parties.eraseIdx k := mem_eraseIdx_iff_getElem?.2 ⟨r, hne, hq₀⟩
        rw [clear, hp, all_some, Phase.clear, hv, all_some, hwrites, hactive] at hclear
        simp only [Bool.true_eq_false, decide_false, ne_eq, not_true_eq_false, Bool.false_or,
          List.all_eq_true] at hclear
        have hspared := hclear q₀ hother
        rw [hends₀, all_some, Bool.or_eq_true, decide_eq_true_eq, decide_eq_true_eq] at hspared
        have hbelow := hdoomed q₀ v hq₀ hends₀ hv hactive
        obtain hspared | hspared := hspared
        · exact absurd hbelow (not_lt.2 hspared)
        · exact hspared
      · exact hdoomed q₀ v' hq₀ hends₀ hv' hactive'
    | bumped | described => exact hdoomed q₀ v' hq₀ hends₀ hv' hactive'
  · exact event.elim

/-! ## What a revocation of all sessions is for -/

section

variable (run : Run calls) {i j k r id epoch : ℕ}

/-- A session that is issued by a call that had read the account's epoch before a moment. -/
def IssuedFrom (b id : ℕ) : Prop :=
  ∃ (c : ℕ) (p : Phase), (run.world b).parties[c]? = some p ∧ p.hasRead = true ∧
    ∃ (i : ℕ) (q : Phase), (run.world i).parties[c]? = some q ∧ q.issued = some id

def BumpsAt (b r epoch : ℕ) : Prop :=
  (∃ p, (run.world b).parties[r]? = some p ∧ p.bumpedTo = none) ∧
    ∃ p, (run.world (b + 1)).parties[r]? = some p ∧ p.bumpedTo = some epoch

/-- What revocation is for. -/
structure Final : Prop where
  /-- Once a revocation of all is over, no session resolves whose issuer had read the epoch before it was
  bumped, other than the one that is kept. -/
  revoked : ∀ {b r epoch : ℕ} {kept : Option ℕ} {i id j k : ℕ}, BumpsAt run b r epoch →
    (run.world i).parties[r]? = some (.revokeAll (.ended kept (some epoch))) → IssuedFrom run b id →
    kept ≠ some id → i ≤ j → (run.world j).parties[k]? = some (.resolve (.asked id)) →
    ∀ j', (run.world j').parties[k]? ≠ some (.resolve (.resolved id))
  once : ∀ {i j k k' id next next' : ℕ}, (run.world i).parties[k]? = some (.rotate (.rotated id next)) →
    (run.world j).parties[k']? = some (.rotate (.rotated id next')) → k = k'

def Resolve.Ended (id epoch : ℕ) (r : Resolve) : Prop :=
  r = .asked id ∨ (∃ x, r = .comparing id x ∧ x.epochOf < epoch) ∨ (∃ x, r = .expiring id x) ∨ r = .unresolved

lemma Resolve.Ended.next {r r' : Resolve} (h : r.Ended id epoch) (hnext : r.next now s = some (s', r'))
    (hdoomed : ∀ v, s.sessions[id]? = some v → v.value.status = .active → v.value.epochOf < epoch)
    (hepoch : epoch ≤ s.currentEpoch) : r'.Ended id epoch := by
  obtain rfl | ⟨x, rfl, hx⟩ | ⟨x, rfl⟩ | rfl := h
  · cases hnext
    cases hv : s.sessions[id]? with
    | none => exact .inr (.inr (.inr rfl))
    | some v =>
      dsimp only
      split_ifs with hactive
      · exact .inr (.inr (.inr rfl))
      · exact .inr (.inr (.inl ⟨_, rfl⟩))
      · exact .inr (.inl ⟨_, rfl, hdoomed v hv (not_not.1 hactive)⟩)
  · cases hnext
    rw [if_pos (hx.trans_le hepoch).ne]
    exact .inr (.inr (.inr rfl))
  · cases hnext
    exact .inr (.inr (.inr rfl))
  · cases hnext

section

variable (hstart : (run.world 0).parties = []) (hp : (run.world i).parties[k]? = some p)
  (hconsumes : p.consumes = some id)
include hstart hp hconsumes

lemma consumed_world : ∃ m < i, (∃ event, run.turn m = .move k event) ∧
      (∃ v, (run.world m).shared.sessions[id]? = some v ∧ v.value.status = .active) ∧
      ∃ v, (run.world (m + 1)).shared.sessions[id]? = some v ∧ v.value.status ≠ .active := by
  induction i generalizing p with
  | zero =>
    rw [hstart] at hp
    cases hp
  | succ i ih =>
    obtain hp' | ⟨-, hb⟩ | ⟨event, q, hturn, hq, hmove⟩ := run.stays_or_moves hp
    · obtain ⟨m, hm, hrest⟩ := ih hp' hconsumes
      exact ⟨m, Nat.lt_succ_of_lt hm, hrest⟩
    · rw [Phase.consumes_of_isStart hb] at hconsumes
      cases hconsumes
    · obtain hconsumes' | ⟨v, hv, hactive, hs'⟩ :=
        consumes_next (sound_world run hstart hq) hmove hconsumes
      · obtain ⟨m, hm, hrest⟩ := ih hq hconsumes'
        exact ⟨m, Nat.lt_succ_of_lt hm, hrest⟩
      · refine ⟨i, Nat.lt_succ_self i, ⟨event, hturn⟩, ⟨v, hv, hactive⟩, v.put (Sessions.revoked v.value), ?_, nofun⟩
        rw [hs']
        exact List.getElem?_set_self (List.getElem?_eq_some_iff.1 hv).1

lemma consumed_unique {k' : ℕ} {p' : Phase}
    (hp' : (run.world j).parties[k']? = some p') (hconsumes' : p'.consumes = some id) : k = k' := by
  obtain ⟨m, -, ⟨event, hturn⟩, ⟨v, hv, hactive⟩, v', hv', hended⟩ := consumed_world run hstart hp hconsumes
  obtain ⟨n, -, ⟨event', hturn'⟩, ⟨u, hu, huactive⟩, u', hu', huended⟩ :=
    consumed_world run hstart hp' hconsumes'
  obtain hlt | rfl | hlt := lt_trichotomy m n
  · obtain ⟨x, hx, -, hback⟩ := (later_world run hstart (Nat.succ_le_of_lt hlt)).sessions id v' hv'
    cases hu.symm.trans hx
    exact absurd (hback huactive) hended
  · rw [hturn] at hturn'
    cases hturn'
    rfl
  · obtain ⟨x, hx, -, hback⟩ := (later_world run hstart (Nat.succ_le_of_lt hlt)).sessions id u' hu'
    cases hv.symm.trans hx
    exact absurd (hback hactive) huended

end

lemma currentEpoch_of_bumpsAt (hstart : (run.world 0).parties = []) {b : ℕ} (hbumps : BumpsAt run b r epoch) :
    epoch = (run.world b).shared.currentEpoch + 1 ∧ (run.world (b + 1)).shared.currentEpoch = epoch := by
  obtain ⟨⟨p, hp, hunbumped⟩, p', hp', hbumped⟩ := hbumps
  obtain hstays | ⟨event, p'', -, hp'', hmove⟩ := Rules.play_stays (run.plays b) hp
  · cases hstays.symm.trans hp'
    rw [hunbumped] at hbumped
    cases hbumped
  · cases hp''.symm.trans hp'
    obtain hbumped' | ⟨-, hepoch⟩ := bumpedTo_next (sound_world run hstart hp) hmove hbumped
    · rw [hunbumped] at hbumped'
      cases hbumped'
    · exact hepoch

/-- A session whose issuer had read the epoch before a revocation of all bumped it is below that epoch
where the revocation has ended it. -/
theorem doomed_world (hstart : (run.world 0).parties = [])
    (hclear : ∀ i, clear (run.world i) (run.turn i) = true) {b : ℕ} (hbumps : BumpsAt run b r epoch)
    (hissued : IssuedFrom run b id) (hij : b ≤ i) : Doomed id r epoch (run.world i) := by
  obtain ⟨⟨p, hp, hunbumped⟩, p', hp', hbumped⟩ := hbumps
  obtain ⟨c, q, hq, hread, m', q', hq', hid⟩ := hissued
  obtain ⟨hepoch, -⟩ := currentEpoch_of_bumpsAt run hstart ⟨⟨p, hp, hunbumped⟩, p', hp', hbumped⟩
  induction i, hij using Nat.le_induction with
  | base =>
    intro p₀ v hp₀ hends
    cases hp.symm.trans hp₀
    rw [bumpedTo_of_ends hends] at hunbumped
    cases hunbumped
  | succ i hbi ih =>
    refine doomed_play (run.plays i) (fun p hp => ?_) (hclear i) (fun x hlength hx => ?_) ih
    · obtain ⟨k, hk⟩ := mem_iff_getElem?.1 hp
      exact sound_world run hstart hk
    · -- it is the call's own session, stamped with what it had read
      obtain ⟨m, -, u, stamped, y, hu, hstamp, hlength', hy, hissue⟩ := issued_world run hstart hq' hid
      obtain rfl := issue_unique run hstart hx hissue (hlength.trans hlength'.symm)
      have hxy : x = y := by
        have heq := hx.symm.trans hissue
        simp only [Stored.issue, Stored.mk.injEq, append_cancel_left_eq, List.cons.injEq,
          Versioned.mk.injEq] at heq
        exact heq.2.1.2
      have hstamped := stamp_le run hstart hclear hq (stamp_back run hstart hq hread hbi hu hstamp)
      rw [hxy, Session.epochOf, hy, hepoch]
      exact Nat.lt_succ_of_le hstamped

/-- Where no account is written back with an earlier epoch and no session that a revocation of all has
ended is kept by another, a revocation of all is final; and a session is rotated once. -/
theorem revocations_final (hstart : (run.world 0).parties = [])
    (hclear : ∀ i, clear (run.world i) (run.turn i) = true) : Final run := by
  refine ⟨?_, fun hp hp' => consumed_unique run hstart hp rfl hp' rfl⟩
  intro b r epoch kept i id j k hbumps hended hissued hkept hij hasked j' hresolved
  have hafter : ∀ n, i ≤ n → (run.world n).parties[r]? = some (.revokeAll (.ended kept (some epoch))) :=
    fun n hn => run.stuck (fun _ _ => rfl) hended hn
  have hbi : b < i := by
    by_contra hle
    obtain ⟨⟨p, hp, hunbumped⟩, -⟩ := hbumps
    cases (hafter b (not_lt.1 hle)).symm.trans hp
    cases hunbumped
  have hepoch : ∀ n, i ≤ n → epoch ≤ (run.world n).shared.currentEpoch := by
    intro n hn
    obtain ⟨-, hbump⟩ := currentEpoch_of_bumpsAt run hstart hbumps
    exact hbump.ge.trans (currentEpoch_le run hstart hclear ((Nat.succ_le_of_lt hbi).trans hn))
  have hdoomed : ∀ n, i ≤ n → ∀ v, (run.world n).shared.sessions[id]? = some v →
      v.value.status = .active → v.value.epochOf < epoch := by
    intro n hn v hv
    refine doomed_world run hstart hclear hbumps hissued (hbi.le.trans hn) _ v (hafter n hn) ?_ hv
    exact if_neg hkept
  have hends : ∀ n, j ≤ n → ∃ q : Resolve, (run.world n).parties[k]? = some (.resolve q) ∧
      q.Ended id epoch := by
    intro n hn
    induction n, hn using Nat.le_induction with
    | base => exact ⟨_, hasked, .inl rfl⟩
    | succ n hn ih =>
      obtain ⟨q, hq, hended⟩ := ih
      obtain h | ⟨event, q', -, hq', hmove⟩ := Rules.play_stays (run.plays n) hq
      · exact ⟨q, h, hended⟩
      · obtain ⟨⟨t, q''⟩, hnext, heq⟩ := Option.map_eq_some_iff.1 hmove
        cases heq
        exact ⟨q'', hq', hended.next hnext (hdoomed n (hij.trans hn)) (hepoch n (hij.trans hn))⟩
  obtain hle | hle := le_total j j'
  · obtain ⟨q, hq, hended'⟩ := hends j' hle
    cases hresolved.symm.trans hq
    obtain h | ⟨x, h, -⟩ | ⟨x, h⟩ | h := hended' <;> cases h
  · have hstays := run.stuck (fun _ _ => rfl) hresolved hle
    cases hasked.symm.trans hstays

end

/-! ## A sign-in beside a revocation -/

def unrevoked : World Stored Phase := ⟨⟨some ⟨1, ⟨none, 0⟩⟩, []⟩, []⟩

def given (k n : ℕ) : List (Turn Phase ℕ Empty) := List.replicate n (.move k 0)

/-- A creation has read the epoch before a revocation of all and issues its session after, which is looked
up; another is issued, two rotations take turns at it, and the next one is kept by a second revocation of
all. -/
def kept : List (Turn Phase ℕ Empty) :=
  [.begin (.create (.asked 100)), .begin (.revokeAll (.bumping none .start))] ++ given 0 1 ++ given 1 4 ++
    given 0 1 ++ [.begin (.resolve (.asked 0))] ++ given 2 2 ++ [.begin (.create (.asked 100))] ++
    given 3 2 ++ [.begin (.rotate (.asked 1)), .begin (.rotate (.asked 1))] ++ given 4 3 ++ given 5 3 ++
    given 4 3 ++ given 5 3 ++ [.begin (.revokeAll (.bumping (some 2) .start))] ++ given 6 8

/-- The account's metadata are read, a creation and a revocation of all go on as before, the account is
written back, and the session is looked up. -/
def writtenBack : List (Turn Phase ℕ Empty) :=
  [.begin (.describe (.asked 7))] ++ given 0 1 ++ [.begin (.create (.asked 100))] ++ given 1 1 ++
    [.begin (.revokeAll (.bumping none .start))] ++ given 2 4 ++ given 1 1 ++ given 0 1 ++
    [.begin (.resolve (.asked 0))] ++ given 3 2

def keptRun : Run calls := calls.replay unrevoked kept (by decide +kernel)

def writtenBackRun : Run calls := calls.replay unrevoked writtenBack (by decide +kernel)

theorem revocations_final_kept : Final keptRun :=
  revocations_final keptRun rfl (Rules.replay_all (fun _ => rfl) (by decide +kernel))

/-- The epoch that is written back is that of the session. -/
theorem not_revocations_final : ¬∀ run : Run calls, (run.world 0).parties = [] → Final run := by
  intro h
  have hbumps : BumpsAt writtenBackRun 6 2 1 :=
    ⟨⟨.revokeAll (.bumping none ⟨0, some (some ⟨1, ⟨none, 0⟩⟩)⟩), by decide +kernel, rfl⟩,
      .revokeAll (.listing none (some 1)), by decide +kernel, rfl⟩
  have hissued : IssuedFrom writtenBackRun 6 0 :=
    ⟨1, .create (.issuing 100 0), by decide +kernel, rfl, 10, .create (.created 0), by decide +kernel, rfl⟩
  have hended : (writtenBackRun.world 9).parties[2]? = some (.revokeAll (.ended none (some 1))) := by
    decide +kernel
  have hasked : (writtenBackRun.world 12).parties[3]? = some (.resolve (.asked 0)) := by decide +kernel
  exact (h writtenBackRun rfl).revoked hbumps hended hissued nofun (by decide) hasked 14 (by decide +kernel)

end Zelavis.Identity.Sessions
