import Zelavis.Db.Ranges

/-!
# Followers

`kv-store.ts` `events.apply`, event after event: what a follower is left with that consumes again what
it has consumed.
-/

namespace Zelavis.Db.Followers

open Lib OrderedMap Option

variable {c c' d d' : Contents} {m m' m₁ m₂ : Store} {seq : Seq} {event : DbEvent} {es later : List DbEvent}
  {sealed : Bool} {pos : ℕ} {u : Bytes}

/-! ## Stores that differ in nothing a caller sees -/

def Alike (c c' : Contents) : Prop :=
  ∀ k, k ≠ metaKey META_REVISION → k ≠ metaKey META_NEXT_POSITION → c' k = c k

/-- They hold the same, and the next event is logged at the same position: only the revision of the last
write may differ. -/
structure Unchanged (c c' : Contents) : Prop where
  held : Alike c c'
  position : metaOf c' META_NEXT_POSITION = metaOf c META_NEXT_POSITION

lemma Alike.tag (h : Alike c c') {k : Key} (hk : tagOf k ≠ Tag.meta) : c' k = c k :=
  h k (ne_of_tag (by simpa using hk)) (ne_of_tag (by simpa using hk))

lemma Alike.after (h : Alike c c') (ws : List (Write Key Stored)) : Alike (after c ws) (after c' ws) :=
  fun k hrev hpos => after_congr (h k hrev hpos)

lemma Alike.forgetIdentity (h : Alike c c') (hd : forgetIdentity seq c = some d)
    (hd' : forgetIdentity seq c' = some d') : Alike d d' := by
  unfold Db.forgetIdentity at hd hd'
  rw [h.tag (by simp +decide)] at hd'
  cases hid : c (identityBySeqKey seq) with
  | none =>
    rw [hid] at hd hd'
    cases hd
    cases hd'
    exact h
  | some stored =>
    rw [hid] at hd hd'
    obtain ⟨i, hi, rfl⟩ := map_eq_some_iff.1 hd
    obtain ⟨i', hi', rfl⟩ := map_eq_some_iff.1 hd'
    cases hi.symm.trans hi'
    exact h.after _

lemma Alike.unproject (h : Alike c c') (hd : unprojectC seq sealed c = some d)
    (hd' : unprojectC seq sealed c' = some d') : Alike d d' := by
  have hman : c' (manifestKey seq) = c (manifestKey seq) := h.tag (by simp +decide)
  rcases unproject_cases hd with ⟨hnone, rfl⟩ | ⟨man, columns, hsome, -, hcol, hforget⟩ <;>
    rcases unproject_cases hd' with ⟨hnone', rfl⟩ | ⟨man', columns', hsome', -, hcol', hforget'⟩
  · exact h
  · cases (hsome'.symm.trans hman).trans hnone
  · cases (hnone'.symm.trans hman).trans hsome
  · cases (hsome'.symm.trans hman).trans hsome
    cases hcol.symm.trans hcol'
    exact (h.after _).forgetIdentity hforget hforget'

lemma Alike.replay {event : StoredEvent} (h : Alike c c') (hd : replayC sealed event c = some d)
    (hd' : replayC sealed event c' = some d') : Alike d d' := by
  unfold replayC at hd hd'
  cases hkind : event.kind with
  | put =>
    rw [hkind] at hd hd'
    obtain ⟨c₁, columns, h₁, hcol, rfl⟩ := project_cases hd
    obtain ⟨c₁', columns', h₁', hcol', rfl⟩ := project_cases hd'
    cases hcol.symm.trans hcol'
    cases event.identity with
    | none => exact (h.unproject h₁ h₁').after _
    | some i => exact ((h.unproject h₁ h₁').after _).after _
  | retract =>
    rw [hkind] at hd hd'
    obtain ⟨c₁, h₁, rfl⟩ := map_eq_some_iff.1 hd
    obtain ⟨c₁', h₁', rfl⟩ := map_eq_some_iff.1 hd'
    exact (h.unproject h₁ h₁').after _

lemma metaOf_committed (c : Contents) (pos : ℕ) (u : Bytes) :
    metaOf (committed c pos u) META_NEXT_POSITION = some (pos % 2 ^ 32) := by
  rw [metaOf, committed, revised_of_ne (by decide), ← metaOf, metaOf_after_put]

lemma Alike.committed (h : Alike c c') (pos : ℕ) (u u' : Bytes) :
    Unchanged (committed c pos u) (committed c' pos u') where
  held k hrev hpos := by
    rw [committed_of_ne hpos hrev, committed_of_ne hpos hrev, h k hrev hpos]
  position := by
    rw [metaOf_committed, metaOf_committed]

lemma alike_committed (c : Contents) (pos : ℕ) (u : Bytes) : Alike c (committed c pos u) :=
  fun _ hrev hpos => committed_of_ne hpos hrev

lemma Unchanged.trans {c₁ c₂ c₃ : Contents} (h : Unchanged c₁ c₂) (h' : Unchanged c₂ c₃) : Unchanged c₁ c₃ where
  held k hrev hpos := (h'.held k hrev hpos).trans (h.held k hrev hpos)
  position := h'.position.trans h.position

lemma Unchanged.version (h : Unchanged c c') (seq : Seq) : versionC seq c' = versionC seq c := by
  rw [versionC, versionC, h.held.tag (by simp +decide)]

/-! ## One event -/

/-- The event is applied under some claim, and the call returns. -/
def Applied (event : DbEvent) (m m' : Store) : Prop := ∃ claim, (applyEvent claim event).Returns m (.ok ()) m'

/-- The version an event leaves its object with, as a payload keeps it. -/
def left : DbEvent → ℕ
  | .objectPut _ _ _ version _ _ _ => version % 2 ^ 32
  | .objectRetracted .. => 0

/-- The version of an object once an event was applied, from the version before it. -/
def next (seq : Seq) (version : ℕ) (event : DbEvent) : ℕ :=
  if seq % 2 ^ 32 = event.seq % 2 ^ 32 ∧ version < event.version then left event else version

lemma recordU32_lt {stored : Stored} {n : ℕ} (h : recordU32 stored = some n) : n < 2 ^ 32 := by
  unfold recordU32 at h
  split at h
  · split_ifs at h with hlength
    cases h
    refine (readBigEndian_lt _).trans_le ?_
    rw [List.length_take_of_le (not_lt.1 hlength)]
    norm_num
  · cases h

lemma position_lt (h : metaOf c META_NEXT_POSITION = some pos) : pos < 2 ^ 32 := by
  unfold metaOf at h
  split at h
  · cases h
    norm_num
  · exact recordU32_lt h

/-- What applying an event does: nothing where the version is as new, else it is logged and carried out. -/
inductive Effect (event : DbEvent) (c : Contents) : Contents → Prop where
  | skipped {seen p : ℕ} (u : Bytes) (hseen : versionC event.seq c = some seen)
    (hp : metaOf c META_NEXT_POSITION = some p) (hle : event.version ≤ seen) : Effect event c (committed c p u)
  | logged {seen p n : ℕ} {d : Contents} (u : Bytes) (hseen : versionC event.seq c = some seen)
    (hp : metaOf c META_NEXT_POSITION = some p) (hlt : seen < event.version) (hn : metaOf c META_SEALED = some n)
    (hd : replayC (decide (0 < n)) event.stored (appendC event.stored (p + 1) c) = some d) :
    Effect event c (committed d (p + 1) u)

lemma Applied.effect (h : Applied event m m') : Effect event m.get m'.get := by
  obtain ⟨claim, hreturns⟩ := h
  refine Prog.safe_returns (I := fun _ => True) (R := fun _ m' => Effect event m.get m'.get)
    (applyEvent_safe fun n p c pos u m' hn hp hrun hm' => ⟨trivial, ?_⟩) hreturns
  simp only [applyC, bind_eq_bind, bind_eq_some_iff] at hrun
  obtain ⟨seen, hseen, hrun⟩ := hrun
  rw [hm']
  split_ifs at hrun with hle
  · cases hrun
    exact .skipped u hseen hp hle
  · obtain ⟨hreplay, hpos⟩ := log_cases hrun
    cases hpos
    exact .logged u hseen hp (not_le.1 hle) hn hreplay

lemma version_replay (hd : replayC sealed event.stored c = some d) (seq : Seq) :
    versionC seq d = if seq % 2 ^ 32 = event.seq % 2 ^ 32 then some (left event) else versionC seq c := by
  unfold versionC
  cases event with
  | objectPut generation writtenAt seq' version bytes manifest identity =>
    have hpayload : d (payloadKey seq) =
        if seq % 2 ^ 32 = seq' % 2 ^ 32 then some (encodePayload version bytes) else c (payloadKey seq) :=
      (project_objects hd seq).2
    rw [hpayload, DbEvent.seq]
    split_ifs
    · exact recordU32_encodePayload version bytes
    · rfl
  | objectRetracted generation writtenAt seq' version identity =>
    have hpayload : d (payloadKey seq) = if seq % 2 ^ 32 = seq' % 2 ^ 32 then none else c (payloadKey seq) :=
      (remove_objects hd seq).2
    rw [hpayload, DbEvent.seq]
    split_ifs
    · rfl
    · rfl

lemma Effect.version {version : ℕ} (h : Effect event c c') (hv : versionC seq c = some version) :
    versionC seq c' = some (next seq version event) := by
  have hframe : ∀ d pos u, versionC seq (committed d pos u) = versionC seq d := fun d pos u => by
    unfold versionC
    rw [(alike_committed d pos u).tag (by simp +decide)]
  have hsame : seq % 2 ^ 32 = event.seq % 2 ^ 32 → versionC event.seq c = some version := fun heq => by
    rw [← hv, versionC, versionC, payloadKey_inj.2 heq]
  unfold next
  cases h with
  | skipped u hseen hp hle =>
    rw [hframe, hv, if_neg]
    rintro ⟨heq, hlt⟩
    cases hseen.symm.trans (hsame heq)
    exact absurd hlt (not_lt.2 hle)
  | logged u hseen hp hlt hn hd =>
    rw [hframe, version_replay hd, versionC, append_of_ne (ne_of_tag (by simp +decide)), ← versionC]
    by_cases heq : seq % 2 ^ 32 = event.seq % 2 ^ 32
    · cases hseen.symm.trans (hsame heq)
      rw [if_pos heq, if_pos ⟨heq, hlt⟩]
    · rw [if_neg heq, if_neg fun h => heq h.1]
      exact hv

lemma Effect.unchanged {version : ℕ} (h : Effect event c c') (hv : versionC event.seq c = some version)
    (hle : event.version ≤ version) : Unchanged c c' := by
  cases h with
  | skipped u hseen hp =>
    refine ⟨alike_committed c _ u, ?_⟩
    rw [metaOf_committed, hp, Nat.mod_eq_of_lt (position_lt hp)]
  | logged u hseen hp hlt =>
    cases hseen.symm.trans hv
    exact absurd hlt (not_lt.2 hle)

/-- An event that is logged takes a position. -/
lemma Effect.position_ne {version : ℕ} (h : Effect event c c') (hv : versionC event.seq c = some version)
    (hlt : version < event.version) : metaOf c' META_NEXT_POSITION ≠ metaOf c META_NEXT_POSITION := by
  cases h with
  | skipped u hseen hp hle =>
    cases hseen.symm.trans hv
    exact absurd hlt (not_lt.2 hle)
  | @logged seen p n d u hseen hp =>
    rw [metaOf_committed, hp]
    have := position_lt hp
    rw [Ne, Option.some.injEq]
    omega

lemma Effect.congr (hc : Unchanged c c') (h : Effect event c d) (h' : Effect event c' d') : Unchanged d d' := by
  have hversion := hc.version event.seq
  have hsealed : metaOf c' META_SEALED = metaOf c META_SEALED := by
    rw [metaOf, metaOf, hc.held _ (by decide) (by decide)]
  cases h with
  | skipped u hseen hp hle =>
    cases h' with
    | skipped u' hseen' hp' =>
      cases (hp'.symm.trans hc.position).trans hp
      exact hc.held.committed _ u u'
    | logged u' hseen' hp' hlt' =>
      cases (hseen'.symm.trans hversion).trans hseen
      exact absurd hlt' (not_lt.2 hle)
  | logged u hseen hp hlt hn hd =>
    cases h' with
    | skipped u' hseen' hp' hle' =>
      cases (hseen'.symm.trans hversion).trans hseen
      exact absurd hlt (not_lt.2 hle')
    | logged u' hseen' hp' hlt' hn' hd' =>
      cases (hp'.symm.trans hc.position).trans hp
      cases (hn'.symm.trans hsealed).trans hn
      exact ((hc.held.after _).replay hd hd').committed _ u u'

/-! ## Events one after another -/

inductive Consumed : List DbEvent → Store → Store → Prop where
  | nil (m : Store) : Consumed [] m m
  | cons {event : DbEvent} {es : List DbEvent} {m m₁ m' : Store} (h : Applied event m m₁) (hes : Consumed es m₁ m') :
    Consumed (event :: es) m m'

/-- The version of an object in a follower that consumed the events and nothing before them. -/
def versionAfter (es : List DbEvent) (seq : Seq) : ℕ := es.foldl (next seq) 0

lemma Consumed.version (h : Consumed es m m') {version : ℕ} (hv : versionC seq m.get = some version) :
    versionC seq m'.get = some (es.foldl (next seq) version) := by
  induction h generalizing version with
  | nil m => exact hv
  | cons h hes ih => exact ih (h.effect.version hv)

lemma Consumed.append (h : Consumed (es ++ later) m m') : ∃ m₁, Consumed es m m₁ ∧ Consumed later m₁ m' := by
  induction es generalizing m with
  | nil => exact ⟨m, .nil m, h⟩
  | cons event es ih =>
    cases h with
    | cons happlied hes =>
      obtain ⟨m₁, hfirst, hlater⟩ := ih hes
      exact ⟨m₁, .cons happlied hfirst, hlater⟩

lemma Consumed.unchanged (h : Consumed es m m')
    (hes : ∀ e ∈ es, ∃ version, versionC e.seq m.get = some version ∧ e.version ≤ version) :
    Unchanged m.get m'.get := by
  induction h with
  | nil m => exact ⟨fun _ _ _ => rfl, rfl⟩
  | cons h _ ih =>
    obtain ⟨⟨version, hv, hle⟩, hrest⟩ := List.forall_mem_cons.1 hes
    have hfirst := h.effect.unchanged hv hle
    refine hfirst.trans (ih fun e he => ?_)
    rw [hfirst.version]
    exact hrest e he

lemma Consumed.congr (hc : Unchanged m₁.get m₂.get) {m₁' m₂' : Store} (h₁ : Consumed es m₁ m₁')
    (h₂ : Consumed es m₂ m₂') : Unchanged m₁'.get m₂'.get := by
  induction h₁ generalizing m₂ with
  | nil m =>
    cases h₂ with
    | nil => exact hc
  | cons h _ ih =>
    cases h₂ with
    | cons h' hes' => exact ih (h.effect.congr hc h'.effect) hes'

/-! ## Answers -/

lemma evaluateEach_congr {qs : List Query} (hqs : ∀ q ∈ qs, evaluate m' q = evaluate m q) :
    evaluateEach m' qs = evaluateEach m qs := by
  induction qs with
  | nil => rfl
  | cons q qs ih =>
    rw [List.forall_mem_cons] at hqs
    rw [evaluateEach, evaluateEach, hqs.1, ih hqs.2]

section

variable (h : Unchanged m.get m'.get)
include h

lemma scan_congr {t : Byte} {pre : Key} (ht : t ≠ Tag.meta) (lower upper : Option Key) :
    scan m' (t :: pre) lower upper = scan m (t :: pre) lower upper := by
  refine entries_ext (scan_sorted m' _ lower upper) (scan_sorted m _ lower upper) fun (k, v) => ?_
  rw [mem_scan, mem_scan]
  refine and_congr_left fun hk => ?_
  rw [h.held.tag (by rwa [tagOf_of_isPrefix hk.1])]

lemma postingsUnder_congr {t : Byte} (pre : Key) (ht : t ≠ Tag.meta) :
    postingsUnder m' (t :: pre) = postingsUnder m (t :: pre) := by
  unfold postingsUnder sealedIds liveIds removedIds segmentPrefix tombstonePrefix under
  rw [scan_congr h ht, scan_congr h (by decide), scan_congr h (by decide)]

lemma rangePostings_congr (column : Utf16) (lower upper : Option RangeBound) :
    rangePostings m' column lower upper = rangePostings m column lower upper := by
  unfold rangePostings
  cases hb : rangeBounds column lower upper with
  | none => rfl
  | some bounds =>
    unfold foundIn tombstonesIn segmentPrefix tombstonePrefix under
    rw [map_some, map_some, rangeBounds_pre hb, orderedColumnPrefix, scan_congr h (by decide), scan_congr h (by decide),
      scan_congr h (by decide)]

lemma evaluate_congr (q : Query) : evaluate m' q = evaluate m q := by
  refine Query.induction (P := fun q => evaluate m' q = evaluate m q) q (fun leaf hleaf _ => ?_) (fun qs hqs => ?_)
    fun qs hqs => ?_
  · cases leaf with
    | range column lower upper => exact rangePostings_congr h column lower upper
    | term field name => exact congrArg some (postingsUnder_congr h _ (by decide))
    | termPrefix field pre => exact congrArg some (postingsUnder_congr h _ (by decide))
    | equals column value =>
      rw [evaluate, evaluate, orderedValuePrefix]
      cases writeOrderedValue (.scalar value) with
      | none => rfl
      | some v => exact congrArg some (postingsUnder_congr h _ (by decide))
    | edge edgeType src direction =>
      cases direction with
      | inbound | outbound => exact congrArg some (postingsUnder_congr h _ (by decide))
    | and | or => cases hleaf
  · rw [evaluate, evaluate, evaluateEach_congr hqs]
  · rw [evaluate, evaluate, evaluateEach_congr hqs]

end

/-! ## Consuming again -/

/-- A follower applies an event again without a trace if and only if the events it consumed leave the object
at no earlier version; and where they do so for every event of a range, consuming the range again before
what comes later leads to the same payloads, versions, manifests, identities, log and answers. -/
theorem replay_safe_iff {m₀ : Store} (hstart : ∀ seq, m₀.get (payloadKey seq) = none) (h : Consumed es m₀ m) :
    (∀ event ∈ es, ∀ m', Applied event m m' →
      (Unchanged m.get m'.get ↔ event.version ≤ versionAfter es event.seq)) ∧
    ∀ range later, (∀ event ∈ range, event.version ≤ versionAfter es event.seq) →
      ∀ m₁ m₂, Consumed later m m₁ → Consumed (range ++ later) m m₂ →
        Unchanged m₁.get m₂.get ∧ ∀ q, resolve m₂ q = resolve m₁ q := by
  have hversion : ∀ seq, versionC seq m.get = some (versionAfter es seq) := fun seq => h.version (by
    rw [versionC, hstart seq])
  refine ⟨fun event _ m' happlied => ⟨fun hunchanged => not_lt.1 fun hlt => ?_, fun hle => ?_⟩, ?_⟩
  · exact happlied.effect.position_ne (hversion event.seq) hlt hunchanged.position
  · exact happlied.effect.unchanged (hversion event.seq) hle
  · intro range later hle m₁ m₂ h₁ h₂
    obtain ⟨m', hagain, hlater⟩ := h₂.append
    have hunchanged := hagain.unchanged fun e he => ⟨_, hversion e.seq, hle e he⟩
    have hsame := Consumed.congr hunchanged h₁ hlater
    exact ⟨hsame, fun q => congrArg (Option.map Postings.iterate) (evaluate_congr hsame q)⟩

/-! ### An object put and retracted -/

def putAt (version : ℕ) : DbEvent := .objectPut 1 0 1 version [] emptyManifest none

/-- A follower on fixed inputs. -/
def followed (es : List DbEvent) : Store := ranFrom (es.map .apply)

lemma applied_followed (es : List DbEvent) (event : DbEvent)
    (hok : ((applyEvent fixedClaim event).run [7] (followed es)).1 = .ok ()) :
    Applied event (followed es) (followed (es ++ [event])) := by
  have hruns := Prog.returns_run [7] (applyEvent fixedClaim event) (followed es)
  rw [hok] at hruns
  refine ⟨fixedClaim, ?_⟩
  unfold followed ranFrom runStoreOps at hruns ⊢
  rw [List.map_append, ← List.cons_append, List.foldl_append]
  exact hruns

lemma followed_start (seq : Seq) : (followed []).get (payloadKey seq) = none := by
  have hnone : ∀ e ∈ (followed []).entries, tagOf e.1 ≠ Tag.payload := by decide +kernel
  by_contra hsome
  obtain ⟨v, hv⟩ := ne_none_iff_exists'.1 hsome
  exact hnone _ (mem_entries.2 hv) (tagOf_payloadKey seq)

theorem replay_safe_iff_updated : Unchanged (followed [putAt 1, putAt 2]).get (followed [putAt 1, putAt 2, putAt 1]).get :=
  ((replay_safe_iff followed_start (.cons (applied_followed [] (putAt 1) (by decide +kernel))
    (.cons (applied_followed [putAt 1] (putAt 2) (by decide +kernel)) (.nil _)))).1 (putAt 1) (by simp) _
      (applied_followed [putAt 1, putAt 2] (putAt 1) (by decide +kernel))).2 (by decide)

/-- Once the object is gone there is no version to compare, and the put is carried out again. -/
theorem not_replay_safe : ¬∀ (es : List DbEvent) (m₀ m : Store), (∀ seq, m₀.get (payloadKey seq) = none) →
    Consumed es m₀ m → ∀ event ∈ es, ∀ m', Applied event m m' → Unchanged m.get m'.get := by
  intro hall
  have hsame := hall [putAt 1, .objectRetracted 1 0 1 2 none] _ _ followed_start
    (.cons (applied_followed [] (putAt 1) (by decide +kernel))
      (.cons (applied_followed [putAt 1] (.objectRetracted 1 0 1 2 none) (by decide +kernel)) (.nil _)))
    (putAt 1) List.mem_cons_self _ (applied_followed _ (putAt 1) (by decide +kernel))
  have hgone : (followed [putAt 1, .objectRetracted 1 0 1 2 none]).get (payloadKey 1) = none := by decide +kernel
  have hback : (followed [putAt 1, .objectRetracted 1 0 1 2 none, putAt 1]).get (payloadKey 1) ≠ none := by
    decide +kernel
  exact hback ((hsame.held.tag (by simp +decide)).trans hgone)

end Zelavis.Db.Followers
