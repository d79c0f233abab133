import Zelavis.Db.Declared

/-!
# Each event keeps what is declared
-/

namespace Zelavis.Db.Declarations

open Lib List

/-! ## Steps that no call makes -/

section

variable {t : TenantId} {n : Utf16} {w w' : World} {call : Call} {request : Request} {place : ℕ}

lemma World.Sound.store (h : w.Sound t n) {store : Objects Record} {reserved : List Seq}
    (hkept : Kept store) (hreserved : ∀ q ∈ reserved, q ≤ store.lastSeq ∧ store.held.get q = none)
    (hnamed : ∀ seq, w.store.named ⟨collectionNs t, n⟩ = some seq →
      store.named ⟨collectionNs t, n⟩ = some seq) (hspares : ∀ request, Spares t n w.store store request) :
    World.Sound t n { w with store, reserved } where
  kept := hkept
  reserved := hreserved
  inForce := h.inForce.spared (fun check _ => hspares (.addCheck check))
    (fun e _ => hspares (.embed e)) ⟨rfl, rfl⟩
  calls := fun call hcall => (h.calls call hcall).spared hnamed (fun _ => hspares call.request)
    (fun _ _ _ _ hother => .inl hother) fun _ _ _ => .inl rfl
  apart := h.apart

lemma World.Sound.reserve (h : w.Sound t n) : World.Sound t n { w with
      store := w.store.nextSeq.2, reserved := w.store.nextSeq.1 :: w.reserved } := by
  have hr : RecordsOnly w.store.lastSeq w.store w.store.nextSeq.2 := RecordsOnly.nextSeq h.kept
  have hspares : ∀ request, Spares t n w.store w.store.nextSeq.2 request := by
    intro request
    exact ⟨id, fun _ _ c hc other hother _ => .inr ⟨c, hc, hother⟩, fun _ _ _ hd _ => .inl hd⟩
  refine h.store hr.kept (fun q hq => ?_) (fun seq hseq => hseq) hspares
  rcases mem_cons.1 hq with rfl | hq
  · exact ⟨le_rfl, h.kept.held_nextSeq⟩
  · obtain ⟨hle, hnone⟩ := h.reserved q hq
    exact ⟨hle.trans hr.later, hr.free q hle hnone⟩

lemma World.Sound.write (h : w.Sound t n) (ht : TenantOk t) {host : Host} {now : Utf16}
    {ops : List DocumentWrite} {store : Objects Record} (hreserved : ∀ q ∈ seqsOf ops, q ∈ w.reserved)
    (hnodup : (seqsOf ops).Nodup) (hwrite : writeDocuments host t w.store now ops = .ok store) :
    World.Sound t n { w with store, reserved := w.reserved.filter fun q => q ∉ seqsOf ops } := by
  obtain ⟨s, hs, rfl⟩ := writeDocuments_eq_ok hwrite
  have hfresh : ∀ q ∈ seqsOf ops, q ≤ w.store.lastSeq ∧ w.store.held.get q = none :=
    fun q hq => h.reserved q (hreserved q hq)
  obtain ⟨hw, huses⟩ := foldlM_uses h.kept ht hfresh hnodup hs
  refine h.store (hw.kept_commit h.kept ht) (fun q hq => ?_) (fun seq hseq => ?_)
    fun request => spares_batch h.kept ht hfresh hnodup hs
  · obtain ⟨hmem, hnot⟩ := mem_filter.1 hq
    obtain ⟨hle, hnone⟩ := h.reserved q hmem
    exact ⟨by rwa [lastSeq_commit], hw.free_commit huses hnone (by simpa using hnot)⟩
  · rw [hw.named_commit h.kept fun c hns => documentNs_ne_collectionNs hns.symm]
    exact hseq

lemma World.Sound.called (h : w.Sound t n) (request : Request) : (w.called request).Sound t n := by
  have hchecks : ∀ check ∈ (w.called request).checks, check ∈ w.checks := by
    intro check hcheck
    cases request with
    | addCheck check' => exact hcheck
    | dropCheck name => exact mem_of_mem_filter hcheck
    | embed e => exact hcheck
  have hembedding : (w.called request).embedding = w.embedding ∨ (w.called request).embedding = none := by
    cases request with
    | addCheck | dropCheck => exact .inl rfl
    | embed e => exact .inr rfl
  refine ⟨h.kept, h.reserved, ⟨fun check hcheck => ?_, fun e he => ?_⟩, ?_, ?_⟩
  · exact h.inForce.checks check (hchecks check hcheck)
  · rcases hembedding with heq | hnone
    · exact h.inForce.embedding e (heq.symm.trans he)
    · rw [hnone] at he
      cases he
  · intro call hcall
    rcases mem_append.1 hcall with hcall | hcall
    · exact (h.calls call hcall).spared (fun _ => id) (fun _ => Spares.refl)
        (fun _ _ _ other hother => .inl (hchecks other hother)) fun _ _ _ => hembedding
    · rw [mem_singleton.1 hcall]
      refine Call.sound_of_closed rfl fun seq hseq => ?_
      cases hseq
  · -- the call that was made last is not open
    have hold : ∀ (i : ℕ) (a : Call), (w.called request).calls[i]? = some a → a.phase.isOpen = true →
        w.calls[i]? = some a := by
      intro i a ha hopen
      have ha : (w.calls ++ [(⟨request, .asked⟩ : Call)])[i]? = some a := ha
      rw [List.getElem?_append] at ha
      split_ifs at ha with hlt
      · exact ha
      · rw [mem_singleton.1 (mem_of_getElem? ha)] at hopen
        cases hopen
    intro i j a b ha hb hne haopen hbopen
    exact h.apart i j a b (hold i a ha haopen) (hold j b hb hbopen) hne haopen hbopen

end

/-! ## Steps of a call -/

variable {before : Option EmbeddingIndex} {seq : Seq} {embedding : Option EmbeddingIndex}
  {check : CheckConstraint} {documents : ℕ} {name : Utf16}

section

variable {t : TenantId} {n : Utf16} {w w' : World} {call moved : Call} {place : ℕ}
  {o store : Objects Record} {phase : Phase} {c c' : StoredCollection}

lemma Follows.refl (ho : Kept o) : Follows t n o o := ⟨ho, fun _ => id, fun _ hq hnone => ⟨hq, hnone⟩⟩

section

variable (h : w.Sound t n) (hcall : w.calls[place]? = some call)
include h hcall

lemma World.Sound.of_moved
    (hrequest : moved.request = call.request) (hcalls : w'.calls = w.calls.set place moved)
    (hreserved : w'.reserved = w.reserved) (hf : Follows t n w.store w'.store)
    (hinForce : w'.InForce t n) (hmoved : moved.Sound t n w')
    (hothers : ∀ (i : ℕ) (other : Call), w.calls[i]? = some other → i ≠ place → other.Sound t n w')
    (hapart : moved.phase.isOpen = true → ∀ (i : ℕ) (other : Call), w.calls[i]? = some other →
      i ≠ place → other.phase.isOpen = true → Apart moved.request other.request) : w'.Sound t n := by
  have hlt : place < w.calls.length := (List.getElem?_eq_some_iff.1 hcall).1
  -- the call at the place is the moved one, and any other is where it was
  have hat : ∀ (i : ℕ) (a : Call), w'.calls[i]? = some a →
      (i = place ∧ a = moved) ∨ (i ≠ place ∧ w.calls[i]? = some a) := by
    intro i a ha
    rw [hcalls] at ha
    by_cases hi : i = place
    · subst hi
      rw [List.getElem?_set_self hlt] at ha
      exact .inl ⟨rfl, (Option.some.inj ha).symm⟩
    · rw [List.getElem?_set_ne (Ne.symm hi)] at ha
      exact .inr ⟨hi, ha⟩
  refine ⟨hf.kept, fun q hq => ?_, hinForce, fun a ha => ?_, fun i j a b ha hb hne haopen hbopen => ?_⟩
  · rw [hreserved] at hq
    exact hf.free q (h.reserved q hq).1 (h.reserved q hq).2
  · obtain ⟨i, hi⟩ := mem_iff_getElem?.1 ha
    rcases hat i a hi with ⟨-, rfl⟩ | ⟨hne, hi⟩
    · exact hmoved
    · exact hothers i a hi hne
  · rcases hat i a ha with ⟨rfl, rfl⟩ | ⟨hi, ha⟩
    · rcases hat j b hb with ⟨rfl, -⟩ | ⟨hj, hb⟩
      · exact absurd rfl hne
      · exact hapart haopen j b hb hj hbopen
    · rcases hat j b hb with ⟨rfl, rfl⟩ | ⟨hj, hb⟩
      · exact (hapart hbopen i a ha hi haopen).symm
      · exact h.apart i j a b ha hb hne haopen hbopen

/-- A call that moves, where what comes of it spares what is in force and what the others declare. -/
theorem World.Sound.advanced_of_spares
    (hmade : call.advance t n w.store = (store, phase)) (hf : Follows t n w.store store)
    (hchecks : checksAfter w.checks call.request call.phase phase = w.checks)
    (hembedding : embeddingAfter w.embedding call.request call.phase phase = w.embedding)
    (hforce : ∀ check ∈ w.checks, Spares t n w.store store (.addCheck check))
    (hforce' : ∀ e, w.embedding = some e → Spares t n w.store store (.embed e))
    (hothers : ∀ (i : ℕ) (other : Call), w.calls[i]? = some other → i ≠ place →
      other.phase.isOpen = true → Spares t n w.store store other.request)
    (hmoved : ∀ w' : World, w'.store = store → w'.checks = w.checks → w'.embedding = w.embedding →
      Call.Sound t n w' { call with phase })
    (hapart : phase.isOpen = true → ∀ (i : ℕ) (other : Call), w.calls[i]? = some other →
      i ≠ place → other.phase.isOpen = true → Apart call.request other.request) :
    (w.advanced t n place call).Sound t n := by
  have hstore : (w.advanced t n place call).store = store := congrArg Prod.fst hmade
  have hphase : (call.advance t n w.store).2 = phase := congrArg Prod.snd hmade
  have hchecks' : (w.advanced t n place call).checks = w.checks := by
    show checksAfter w.checks call.request call.phase (call.advance t n w.store).2 = w.checks
    rw [hphase]
    exact hchecks
  have hembedding' : (w.advanced t n place call).embedding = w.embedding := by
    show embeddingAfter w.embedding call.request call.phase (call.advance t n w.store).2 = w.embedding
    rw [hphase]
    exact hembedding
  have hcalls : (w.advanced t n place call).calls = w.calls.set place { call with phase } := by
    show w.calls.set place { call with phase := (call.advance t n w.store).2 } = _
    rw [hphase]
  refine h.of_moved hcall (show ({ call with phase } : Call).request = call.request from rfl) hcalls rfl
    (by rw [hstore]; exact hf) ?_
    (hmoved _ hstore hchecks' hembedding') (fun i other hother hne => ?_) hapart
  · refine h.inForce.spared (fun check hcheck => ?_) (fun e he => ?_) ⟨hchecks', hembedding'⟩
    · rw [hstore]
      exact hforce check hcheck
    · rw [hstore]
      exact hforce' e he
  · refine (h.calls other (mem_of_getElem? hother)).spared (fun seq hseq => ?_) (fun hopen => ?_)
      (fun _ _ _ other' hother' => .inl (hchecks' ▸ hother')) fun _ _ _ => .inl hembedding'
    · rw [hstore]
      exact hf.named seq hseq
    · rw [hstore]
      exact hothers i other hother hne hopen

lemma World.Sound.advanced_of_same
    (hmade : call.advance t n w.store = (w.store, phase))
    (hchecks : checksAfter w.checks call.request call.phase phase = w.checks)
    (hembedding : embeddingAfter w.embedding call.request call.phase phase = w.embedding)
    (hopen : phase.isOpen = true → call.phase.isOpen = true)
    (hmoved : ∀ w' : World, w'.store = w.store → w'.checks = w.checks → w'.embedding = w.embedding →
      Call.Sound t n w' { call with phase }) : (w.advanced t n place call).Sound t n := by
  refine h.advanced_of_spares hcall hmade (Follows.refl h.kept) hchecks hembedding
    (fun _ _ => Spares.refl) (fun _ _ => Spares.refl) (fun _ _ _ _ _ => Spares.refl) hmoved ?_
  intro hopen' i other hother hne hother'
  exact h.apart place i call other hcall hother (Ne.symm hne) (hopen hopen') hother'

end

variable {request : Request}

lemma inForceAfter_eq {checks : List CheckConstraint} {before after : Phase}
    (h : (∀ seq b todo documents, before ≠ .reading seq b todo documents) ∨ ∀ r, after ≠ .done r) :
    checksAfter checks request before after = checks ∧
      embeddingAfter embedding request before after = embedding := by
  constructor
  · unfold checksAfter
    split
    · rcases h with h | h
      · exact absurd rfl (h _ _ _ _)
      · exact absurd rfl (h _)
    · rfl
  · unfold embeddingAfter
    split
    · rcases h with h | h
      · exact absurd rfl (h _ _ _ _)
      · exact absurd rfl (h _)
    · rfl

lemma World.Sound.advanced_of_closed (h : w.Sound t n) (hcall : w.calls[place]? = some call)
    (hmade : call.advance t n w.store = (w.store, phase)) (hbefore : call.phase.isOpen = false)
    (hafter : phase.isOpen = false)
    (hnamed : ∀ seq, phase.seq = some seq → w.store.named ⟨collectionNs t, n⟩ = some seq) :
    (w.advanced t n place call).Sound t n := by
  have hsame : checksAfter w.checks call.request call.phase phase = w.checks ∧
      embeddingAfter w.embedding call.request call.phase phase = w.embedding := by
    refine inForceAfter_eq (.inl fun seq b todo documents hphase => ?_)
    rw [hphase] at hbefore
    cases hbefore
  refine h.advanced_of_same hcall hmade hsame.1 hsame.2 (fun hopen => ?_) fun w' hstore _ _ => ?_
  · rw [hafter] at hopen
    cases hopen
  · refine Call.sound_of_closed hafter ?_
    rw [hstore]
    exact hnamed

lemma Call.Sound.stepped (h : call.Sound t n w) (hopen : call.phase.isOpen = true)
    (hseq : phase.seq = call.phase.seq)
    (hread : ∀ seq before todo documents, phase = .reading seq before todo documents →
      ∀ q d, docAt t w.store q = some d → d.collection = n → q ∈ todo ∨ call.request.fault n d = none)
    (hfailed : ∀ seq before fault, phase = .failing seq before fault →
      ∀ e, call.request = .embed e → before = none)
    (hstore : w'.store = w.store) (hchecks : w'.checks = w.checks)
    (hembedding : w'.embedding = w.embedding) : Call.Sound t n w' { call with phase } := by
  refine ⟨?_, fun _ => ?_, fun _ => ?_, fun _ => ?_, fun _ => ?_, ?_, hfailed⟩
  · rw [hstore]
    intro seq hphase
    exact h.named seq (hseq.symm.trans hphase)
  · rw [hstore]
    exact h.recorded hopen
  · rw [hstore]
    exact h.only hopen
  · rw [hchecks]
    exact h.fresh hopen
  · rw [hembedding]
    exact h.free hopen
  · rw [hstore]
    exact hread

/-! ### Recording -/

lemma Rewritten.spares_added (hr : Rewritten t n o store c { c with checks := c.checks ++ [check] })
    (hfree : ∀ other ∈ c.checks, other.name ≠ check.name) (hrecorded : request.RecordedIn c) :
    Spares t n o store request := by
  refine hr.spares (fun _ => ?_) ?_
  · cases request with
    | addCheck check' => exact mem_append_left _ hrecorded
    | dropCheck name => trivial
    | embed e => exact hrecorded
  · rintro check' rfl other hother hname
    rcases mem_append.1 hother with hother | hother
    · exact .inr hother
    · rw [mem_singleton.1 hother] at hname
      exact absurd hname.symm (hfree check' hrecorded)

lemma Rewritten.spares_dropped (hr : Rewritten t n o store c
      { c with checks := c.checks.filter fun check => check.name ≠ name })
    (hne : ∀ check, request = .addCheck check → check.name ≠ name) : Spares t n o store request := by
  refine hr.spares (fun hrecorded => ?_) fun _ _ other hother _ => .inr (mem_of_mem_filter hother)
  cases request with
  | addCheck check => exact mem_filter.2 ⟨hrecorded, decide_eq_true (hne check rfl)⟩
  | dropCheck name => trivial
  | embed e => exact hrecorded

lemma Rewritten.spares_embedded
    (hr : Rewritten t n o store c { c with embedding }) (hne : ∀ e, request ≠ .embed e) :
    Spares t n o store request := by
  refine hr.spares (fun hrecorded => ?_) fun _ _ other hother _ => .inr hother
  cases request with
  | addCheck check => exact hrecorded
  | dropCheck name => trivial
  | embed e => exact absurd rfl (hne e)

section

variable (h : w.Sound t n) (hcall : w.calls[place]? = some call)
include h hcall

lemma World.Sound.added
    (hrequest : call.request = .addCheck check) (hphase : call.phase = .found seq)
    (hmade : call.advance t n w.store = (store, .recorded seq before))
    (hr : Rewritten t n w.store store c { c with checks := c.checks ++ [check] })
    (hfree : ∀ other ∈ c.checks, other.name ≠ check.name) : (w.advanced t n place call).Sound t n := by
  have hsame := @inForceAfter_eq w.embedding call.request w.checks call.phase (.recorded seq before)
    (.inr fun r hdone => by cases hdone)
  -- what is in force, and what the others declare, is recorded
  have hforce : ∀ other ∈ w.checks, other ∈ c.checks := by
    intro other hother
    obtain ⟨c₀, hc₀, hmem⟩ := (h.inForce.checks other hother).1
    cases hr.load.symm.trans hc₀
    exact hmem
  have hothers : ∀ (i : ℕ) (other : Call), w.calls[i]? = some other → other.phase.isOpen = true →
      other.request.RecordedIn c := by
    intro i other hother hopen
    obtain ⟨c₀, hc₀, hmem⟩ := (h.calls other (mem_of_getElem? hother)).recorded hopen
    cases hr.load.symm.trans hc₀
    exact hmem
  refine h.advanced_of_spares hcall hmade hr.toFollows hsame.1 hsame.2
    (fun other hother => hr.spares_added hfree (hforce other hother)) (fun e he => ?_)
    (fun i other hother _ hopen => hr.spares_added hfree (hothers i other hother hopen)) ?_ ?_
  · obtain ⟨c₀, hc₀, hmem⟩ := (h.inForce.embedding e he).1
    cases hr.load.symm.trans hc₀
    exact hr.spares_added hfree hmem
  · intro w' hstore hchecks hembedding
    have hseq := (h.calls call (mem_of_getElem? hcall)).named seq (by rw [hphase]; rfl)
    refine ⟨?_, fun _ => ?_, fun _ => ?_, fun _ => ?_, fun _ => ?_, ?_, ?_⟩
    · rintro seq' ⟨⟩
      rw [hstore]
      exact hr.named seq hseq
    · rw [hstore]
      refine ⟨_, hr.load', ?_⟩
      rw [hrequest]
      exact mem_append_right _ (mem_singleton_self check)
    · intro check' hcheck' c₀ hc₀ other hother hname
      cases hrequest.symm.trans hcheck'
      rw [hstore] at hc₀
      cases hr.load'.symm.trans hc₀
      rcases mem_append.1 hother with hother | hother
      · exact absurd hname (hfree other hother)
      · exact mem_singleton.1 hother
    · intro check' hcheck' other hother
      cases hrequest.symm.trans hcheck'
      rw [hchecks] at hother
      exact hfree other (hforce other hother)
    · intro e he
      cases hrequest.symm.trans he
    · intro seq' before' todo documents hreading
      cases hreading
    · intro seq' before' fault hfailing
      cases hfailing
  · intro _ i other hother _ hopen
    have hin := hothers i other hother hopen
    rw [hrequest]
    refine ⟨fun check' d hcheck' hd => ?_, fun e e' he => by cases he⟩
    cases hcheck'
    rw [hd] at hin
    exact (hfree d hin).symm

lemma World.Sound.dropped
    {r : Except DocError Answer} (hphase : call.phase = .found seq)
    (hmade : call.advance t n w.store = (store, .done r)) (hr : Rewritten t n w.store store c
      { c with checks := c.checks.filter fun check => check.name ≠ name })
    (hforce : ∀ check ∈ w.checks, check.name ≠ name)
    (hothers : ∀ other ∈ w.calls, ∀ check, other.request = .addCheck check →
      other.phase.isOpen = true → check.name ≠ name) : (w.advanced t n place call).Sound t n := by
  have hsame : checksAfter w.checks call.request call.phase (.done r) = w.checks ∧
      embeddingAfter w.embedding call.request call.phase (.done r) = w.embedding := by
    rw [hphase]
    exact inForceAfter_eq (.inl fun seq' b todo documents hreading => by cases hreading)
  refine h.advanced_of_spares hcall hmade hr.toFollows hsame.1 hsame.2 ?_ ?_ ?_ ?_ ?_
  · intro other hother
    refine hr.spares_dropped fun check hcheck => ?_
    cases hcheck
    exact hforce other hother
  · intro e _
    exact hr.spares_dropped fun check hcheck => by cases hcheck
  · intro i other hother _ hopen
    exact hr.spares_dropped fun check hcheck =>
      hothers other (mem_of_getElem? hother) check hcheck hopen
  · intro w' _ _ _
    exact Call.sound_of_closed rfl fun seq' hseq' => by cases hseq'
  · intro hopen
    cases hopen

lemma World.Sound.embedded {e : EmbeddingIndex}
    (hrequest : call.request = .embed e) (hphase : call.phase = .found seq)
    (hmade : call.advance t n w.store = (store, .recorded seq before))
    (hr : Rewritten t n w.store store c { c with embedding := some e }) (hforce : w.embedding = none)
    (hothers : ∀ other ∈ w.calls, ∀ e', other.request = .embed e' → other.phase.isOpen = false) :
    (w.advanced t n place call).Sound t n := by
  have hsame := @inForceAfter_eq w.embedding call.request w.checks call.phase (.recorded seq before)
    (.inr fun r hdone => by cases hdone)
  have hopens : ∀ (i : ℕ) (other : Call), w.calls[i]? = some other → other.phase.isOpen = true →
      ∀ e', other.request ≠ .embed e' := by
    intro i other hother hopen e' he'
    rw [hothers other (mem_of_getElem? hother) e' he'] at hopen
    cases hopen
  refine h.advanced_of_spares hcall hmade hr.toFollows hsame.1 hsame.2 ?_ ?_ ?_ ?_ ?_
  · intro other _
    exact hr.spares_embedded fun e' he' => by cases he'
  · intro e' he'
    rw [hforce] at he'
    cases he'
  · intro i other hother _ hopen
    exact hr.spares_embedded (hopens i other hother hopen)
  · intro w' hstore hchecks hembedding
    have hseq := (h.calls call (mem_of_getElem? hcall)).named seq (by rw [hphase]; rfl)
    refine ⟨?_, fun _ => ?_, fun _ => ?_, fun _ => ?_, fun _ => ?_, ?_, ?_⟩
    · rintro seq' ⟨⟩
      rw [hstore]
      exact hr.named seq hseq
    · rw [hstore]
      refine ⟨_, hr.load', ?_⟩
      rw [hrequest]
      rfl
    · intro check hcheck
      cases hrequest.symm.trans hcheck
    · intro check hcheck
      cases hrequest.symm.trans hcheck
    · intro _ _
      exact hembedding.trans hforce
    · intro seq' before' todo documents hreading
      cases hreading
    · intro seq' before' fault hfailing
      cases hfailing
  · intro _ i other hother _ hopen
    rw [hrequest]
    exact ⟨fun check _ hcheck => (by cases hcheck), fun _ e' _ => hopens i other hother hopen e'⟩

lemma World.Sound.record
    (hphase : call.phase = .found seq) (hclear : Clear n w (.advance place)) :
    (w.advanced t n place call).Sound t n := by
  obtain ⟨hdrop, hembed, -⟩ := hclear call hcall
  have hseq : w.store.named ⟨collectionNs t, n⟩ = some seq :=
    (h.calls call (mem_of_getElem? hcall)).named seq (by rw [hphase]; rfl)
  obtain ⟨c, hc⟩ := h.kept.load_of_named hseq
  have hbefore : call.phase.isOpen = false := by
    rw [hphase]
    rfl
  have hmade : call.advance t n w.store = Declarations.record t n w.store seq call.request := by
    unfold Call.advance
    rw [hphase]
  have hdone : ∀ r : Except DocError Answer, ∀ seq', (Phase.done r).seq = some seq' →
      w.store.named ⟨collectionNs t, n⟩ = some seq' := by
    intro r seq' hseq'
    cases hseq'
  cases hrequest : call.request with
  | addCheck check =>
    rw [hrequest] at hmade
    unfold Declarations.record at hmade
    rw [hc] at hmade
    dsimp only at hmade
    split_ifs at hmade with hexists
    · exact h.advanced_of_closed hcall hmade hbefore rfl (hdone _)
    · have hr := rewritten_settings h.kept hseq hc
        ⟨c.checks ++ [check], c.analyzer, c.spatial, c.embedding⟩
      refine h.added hcall hrequest hphase hmade hr fun other hother hname => hexists ?_
      exact List.any_eq_true.2 ⟨other, hother, decide_eq_true hname⟩
  | dropCheck name =>
    rw [hrequest] at hmade
    unfold Declarations.record at hmade
    rw [hc] at hmade
    dsimp only at hmade
    obtain ⟨hforce, hothers⟩ := hdrop name seq hrequest hphase
    split_ifs at hmade with hexists
    · have hr := rewritten_settings h.kept hseq hc
        ⟨c.checks.filter fun check => check.name ≠ name, c.analyzer, c.spatial, c.embedding⟩
      exact h.dropped hcall hphase hmade hr hforce hothers
    · exact h.advanced_of_closed hcall hmade hbefore rfl (hdone _)
  | embed e =>
    rw [hrequest] at hmade
    unfold Declarations.record at hmade
    rw [hc] at hmade
    obtain ⟨hforce, hothers⟩ := hembed e seq hrequest hphase
    have hr := rewritten_settings h.kept hseq hc ⟨c.checks, c.analyzer, c.spatial, some e⟩
    exact h.embedded hcall hrequest hphase hmade hr hforce hothers

end

/-! ### Reading -/

lemma World.Sound.scanned (h : w.Sound t n) (ht : TenantOk t) (hcall : w.calls[place]? = some call)
    (hphase : call.phase = .recorded seq before) : (w.advanced t n place call).Sound t n := by
  have hsound := h.calls call (mem_of_getElem? hcall)
  have hopen : call.phase.isOpen = true := by
    rw [hphase]
    rfl
  have hmade : call.advance t n w.store = (w.store, .reading seq before (documentSeqs t w.store n) 0) := by
    unfold Call.advance
    rw [hphase]
  have hsame := @inForceAfter_eq w.embedding call.request w.checks call.phase
    (.reading seq before (documentSeqs t w.store n) 0) (.inr fun r hdone => by cases hdone)
  obtain ⟨c, hc, -⟩ := hsound.recorded hopen
  refine h.advanced_of_same hcall hmade hsame.1 hsame.2 (fun _ => hopen) fun w' hstore hchecks hemb =>
    hsound.stepped hopen (by rw [hphase]; rfl) ?_ (fun _ _ _ hfailing => by cases hfailing)
      hstore hchecks hemb
  rintro seq' before' todo documents ⟨⟩ q d hd hcol
  exact .inl ((mem_documentSeqs h.kept ht (h.kept.name_of_load hc).2).2 ⟨d, hd, hcol⟩)

lemma World.Sound.readNext (h : w.Sound t n) (hcall : w.calls[place]? = some call) {seq q : Seq}
    {todo : List Seq} (hphase : call.phase = .reading seq before (q :: todo) documents)
    (hclear : Clear n w (.advance place)) : (w.advanced t n place call).Sound t n := by
  have hsound := h.calls call (mem_of_getElem? hcall)
  have hopen : call.phase.isOpen = true := by
    rw [hphase]
    rfl
  obtain ⟨-, -, hfail⟩ := hclear call hcall
  -- the documents that are left meet it, but for those that are still to be read
  have hleft : (∀ d, readDocument w.store q = some d → call.request.fault n d = none) →
      ∀ q' d, docAt t w.store q' = some d → d.collection = n → q' ∈ todo ∨ call.request.fault n d = none := by
    intro hq q' d hd hcol
    rcases hsound.read seq before (q :: todo) documents hphase q' d hd hcol with hmem | hmeets
    · rcases mem_cons.1 hmem with rfl | hmem
      · exact .inr (hq d (readDocument_of_docAt hd))
      · exact .inl hmem
    · exact .inr hmeets
  have hgoes : ∀ phase, call.advance t n w.store = (w.store, phase) → phase.isOpen = true →
      phase.seq = call.phase.seq →
      (∀ seq before todo' documents, phase = .reading seq before todo' documents → todo' = todo ∧
        ∀ d, readDocument w.store q = some d → call.request.fault n d = none) →
      (∀ seq before fault, phase = .failing seq before fault →
        ∀ e, call.request = .embed e → before = none) → (w.advanced t n place call).Sound t n := by
    intro phase hmade hopen' hseq hread hfailed
    have hsame := @inForceAfter_eq w.embedding call.request w.checks call.phase phase
      (.inr fun r hdone => by rw [hdone] at hopen'; cases hopen')
    refine h.advanced_of_same hcall hmade hsame.1 hsame.2 (fun _ => hopen) fun w' hstore hchecks hemb =>
      hsound.stepped hopen hseq (fun seq' before' todo' documents' hreading => ?_) hfailed hstore
        hchecks hemb
    obtain ⟨rfl, hq⟩ := hread seq' before' todo' documents' hreading
    exact hleft hq
  have hmade : call.advance t n w.store =
      (w.store, Declarations.readNext n w.store seq before q todo documents call.request) := by
    unfold Call.advance
    rw [hphase]
  unfold Declarations.readNext at hmade
  cases hread : readDocument w.store q with
  | none =>
    rw [hread] at hmade
    refine hgoes _ hmade rfl (by rw [hphase]; rfl) ?_ fun _ _ _ hfailing => by cases hfailing
    rintro seq' before' todo' documents' ⟨⟩
    refine ⟨rfl, fun d hd => ?_⟩
    rw [hread] at hd
    cases hd
  | some doc =>
    rw [hread] at hmade
    dsimp only at hmade
    cases hfault : call.request.fault n doc with
    | none =>
      rw [hfault] at hmade
      refine hgoes _ hmade rfl (by rw [hphase]; rfl) ?_ fun _ _ _ hfailing => by cases hfailing
      rintro seq' before' todo' documents' ⟨⟩
      refine ⟨rfl, fun d hd => ?_⟩
      cases hread.symm.trans hd
      exact hfault
    | some fault =>
      rw [hfault] at hmade
      refine hgoes _ hmade rfl (by rw [hphase]; rfl) (fun _ _ _ _ hreading => by cases hreading) ?_
      rintro seq' before' fault' ⟨⟩ e he
      refine hfail e seq before q todo documents he hphase doc hread ?_
      rw [hfault]
      exact Option.some_ne_none fault

lemma World.Sound.returned (h : w.Sound t n) (hcall : w.calls[place]? = some call)
    (hphase : call.phase = .reading seq before [] documents) : (w.advanced t n place call).Sound t n := by
  have hsound := h.calls call (mem_of_getElem? hcall)
  have hopen : call.phase.isOpen = true := by
    rw [hphase]
    rfl
  have hholds : Holds t n w.store call.request := by
    refine ⟨hsound.recorded hopen, fun q d hd hcol => ?_⟩
    rcases hsound.read seq before [] documents hphase q d hd hcol with hmem | hmeets
    · cases hmem
    · exact hmeets
  have hmade : call.advance t n w.store = (w.store, .done (.ok (call.request.answer documents))) := by
    unfold Call.advance
    rw [hphase]
  have hchecks : (w.advanced t n place call).checks =
      checksAfter w.checks call.request (.reading seq before [] documents)
        (.done (.ok (call.request.answer documents))) := by
    show checksAfter w.checks call.request call.phase (call.advance t n w.store).2 = _
    rw [hmade, hphase]
  have hembedding : (w.advanced t n place call).embedding =
      embeddingAfter w.embedding call.request (.reading seq before [] documents)
        (.done (.ok (call.request.answer documents))) := by
    show embeddingAfter w.embedding call.request call.phase (call.advance t n w.store).2 = _
    rw [hmade, hphase]
  have hstore : (w.advanced t n place call).store = w.store := congrArg Prod.fst hmade
  have hcalls : (w.advanced t n place call).calls =
      w.calls.set place { call with phase := .done (.ok (call.request.answer documents)) } := by
    show w.calls.set place { call with phase := (call.advance t n w.store).2 } = _
    rw [hmade]
  have hapart : ∀ (i : ℕ) (other : Call), w.calls[i]? = some other → i ≠ place →
      other.phase.isOpen = true → Apart call.request other.request :=
    fun i other hother hne => h.apart place i call other hcall hother (Ne.symm hne) hopen
  have hspares : ∀ request, Spares t n w.store (w.advanced t n place call).store request := by
    intro request
    rw [hstore]
    exact Spares.refl
  refine h.of_moved hcall
    (show ({ call with phase := .done (.ok (call.request.answer documents)) } : Call).request =
      call.request from rfl) hcalls rfl (by rw [hstore]; exact Follows.refl h.kept) ?_
    (Call.sound_of_closed rfl fun seq' hseq' => by cases hseq') (fun i other hother hne => ?_)
    fun hdone => by cases hdone
  · refine ⟨fun check hcheck => ?_, fun e he => ?_⟩
    · rw [hstore]
      rw [hchecks] at hcheck
      cases hrequest : call.request with
      | addCheck added =>
        rw [hrequest] at hcheck hholds
        rcases mem_append.1 hcheck with hcheck | hcheck
        · exact h.inForce.checks check hcheck
        · rw [mem_singleton.1 hcheck]
          exact hholds
      | dropCheck | embed =>
        rw [hrequest] at hcheck
        exact h.inForce.checks check hcheck
    · rw [hstore]
      rw [hembedding] at he
      cases hrequest : call.request with
      | addCheck | dropCheck =>
        rw [hrequest] at he
        exact h.inForce.embedding e he
      | embed declared =>
        rw [hrequest] at he hholds
        cases he
        exact hholds
  · refine (h.calls other (mem_of_getElem? hother)).spared (fun seq' hseq' => ?_)
      (fun _ => hspares other.request) (fun hopen' check hcheck other' hother' => ?_)
      fun hopen' e he => ?_
    · rw [hstore]
      exact hseq'
    · rw [hchecks] at hother'
      cases hrequest : call.request with
      | addCheck added =>
        rw [hrequest] at hother'
        rcases mem_append.1 hother' with hother' | hother'
        · exact .inl hother'
        · rw [mem_singleton.1 hother']
          exact .inr ((hapart i other hother hne hopen').names added check hrequest hcheck)
      | dropCheck | embed =>
        rw [hrequest] at hother'
        exact .inl hother'
    · rw [hembedding]
      cases hrequest : call.request with
      | addCheck | dropCheck => exact .inl rfl
      | embed declared =>
        exact absurd he ((hapart i other hother hne hopen').embeddings declared e hrequest)

/-! ### Taking off -/

lemma World.Sound.withdrawn (h : w.Sound t n) (hcall : w.calls[place]? = some call) {fault : DocError}
    (hphase : call.phase = .failing seq before fault) : (w.advanced t n place call).Sound t n := by
  have hsound := h.calls call (mem_of_getElem? hcall)
  have hopen : call.phase.isOpen = true := by
    rw [hphase]
    rfl
  have hseq : w.store.named ⟨collectionNs t, n⟩ = some seq := hsound.named seq (by rw [hphase]; rfl)
  obtain ⟨c, hc, hrecorded⟩ := hsound.recorded hopen
  have hmade : call.advance t n w.store = (withdraw t n w.store seq call.request, .done (.error fault)) := by
    unfold Call.advance
    rw [hphase]
  have hsame := @inForceAfter_eq w.embedding call.request w.checks call.phase (.done (.error fault))
    (.inl fun seq' b todo documents hreading => by rw [hphase] at hreading; cases hreading)
  have hapart : ∀ (i : ℕ) (other : Call), w.calls[i]? = some other → i ≠ place →
      other.phase.isOpen = true → Apart call.request other.request :=
    fun i other hother hne => h.apart place i call other hcall hother (Ne.symm hne) hopen
  have hclosed : ∀ w' : World, w'.store = withdraw t n w.store seq call.request →
      w'.checks = w.checks → w'.embedding = w.embedding →
      Call.Sound t n w' { call with phase := .done (.error fault) } :=
    fun _ _ _ _ => Call.sound_of_closed rfl fun seq' hseq' => by cases hseq'
  cases hrequest : call.request with
  | addCheck check =>
    have hr := rewritten_settings h.kept hseq hc
      ⟨c.checks.filter fun other => other.name ≠ check.name, c.analyzer, c.spatial, c.embedding⟩
    have hstore : withdraw t n w.store seq call.request = w.store.commit [collectionPut t seq
        { c with checks := c.checks.filter fun other => other.name ≠ check.name }] := by
      rw [hrequest]
      unfold withdraw
      rw [hc]
    have hr : Rewritten t n w.store (withdraw t n w.store seq call.request) c
        { c with checks := c.checks.filter fun other => other.name ≠ check.name } := by
      rw [hstore]
      exact hr
    refine h.advanced_of_spares hcall hmade hr.toFollows hsame.1 hsame.2 (fun other hother => ?_)
      (fun e _ => ?_) (fun i other hother hne hopen' => ?_) hclosed fun hdone => by cases hdone
    · refine hr.spares_dropped fun check' hcheck' => ?_
      cases hcheck'
      exact hsound.fresh hopen check hrequest other hother
    · exact hr.spares_dropped fun check' hcheck' => by cases hcheck'
    · refine hr.spares_dropped fun check' hcheck' => ?_
      exact ((hapart i other hother hne hopen').names check check' hrequest hcheck').symm
  | dropCheck name =>
    have hstore : withdraw t n w.store seq call.request = w.store := by
      rw [hrequest]
      unfold withdraw
      rw [hc]
    rw [hstore] at hmade
    rw [hstore] at hclosed
    exact h.advanced_of_same hcall hmade hsame.1 hsame.2 (fun hdone => by cases hdone) hclosed
  | embed e =>
    have hr := rewritten_settings h.kept hseq hc ⟨c.checks, c.analyzer, c.spatial, none⟩
    have hstore : withdraw t n w.store seq call.request =
        w.store.commit [collectionPut t seq { c with embedding := none }] := by
      rw [hrequest]
      unfold withdraw
      rw [hc]
    have hr : Rewritten t n w.store (withdraw t n w.store seq call.request) c
        { c with embedding := none } := by
      rw [hstore]
      exact hr
    refine h.advanced_of_spares hcall hmade hr.toFollows hsame.1 hsame.2 (fun other _ => ?_)
      (fun e' he' => ?_) (fun i other hother hne hopen' => ?_) hclosed fun hdone => by cases hdone
    · exact hr.spares_embedded fun e' he' => by cases he'
    · rw [hsound.free hopen e hrequest] at he'
      cases he'
    · exact hr.spares_embedded fun e' =>
        (hapart i other hother hne hopen').embeddings e e' hrequest

lemma World.Sound.advance (h : w.Sound t n) (ht : TenantOk t) (hcall : w.calls[place]? = some call)
    (hclear : Clear n w (.advance place)) : (w.advanced t n place call).Sound t n := by
  have hnone : ∀ phase : Phase, phase.seq = none → ∀ seq, phase.seq = some seq →
      w.store.named ⟨collectionNs t, n⟩ = some seq := by
    intro phase hseq seq hseq'
    rw [hseq] at hseq'
    cases hseq'
  cases hphase : call.phase with
  | asked =>
    have hbefore : call.phase.isOpen = false := by
      rw [hphase]
      rfl
    have hmade : ∃ phase, call.advance t n w.store = (w.store, phase) ∧ phase.isOpen = false ∧
        phase.seq = none := by
      unfold Call.advance
      rw [hphase]
      dsimp only
      split
      · exact ⟨_, rfl, rfl, rfl⟩
      · exact ⟨_, rfl, rfl, rfl⟩
      · exact ⟨_, rfl, rfl, rfl⟩
    obtain ⟨phase, hmade, hafter, hseq⟩ := hmade
    exact h.advanced_of_closed hcall hmade hbefore hafter (hnone phase hseq)
  | looking =>
    have hbefore : call.phase.isOpen = false := by
      rw [hphase]
      rfl
    cases hlookup : w.store.lookup (collectionNs t) n with
    | none =>
      have hmade : call.advance t n w.store = (w.store, .done (.error (.collectionNotFound n))) := by
        unfold Call.advance
        rw [hphase]
        rw [hlookup]
      exact h.advanced_of_closed hcall hmade hbefore rfl (hnone _ rfl)
    | some seq =>
      have hmade : call.advance t n w.store = (w.store, .found seq) := by
        unfold Call.advance
        rw [hphase]
        rw [hlookup]
      refine h.advanced_of_closed hcall hmade hbefore rfl ?_
      rintro seq' ⟨⟩
      exact hlookup
  | found seq => exact h.record hcall hphase hclear
  | recorded seq before => exact h.scanned ht hcall hphase
  | reading seq before todo documents =>
    cases todo with
    | nil => exact h.returned hcall hphase
    | cons q todo => exact h.readNext hcall hphase hclear
  | failing seq before fault => exact h.withdrawn hcall hphase
  | done r =>
    have hmade : call.advance t n w.store = (w.store, .done r) := by
      unfold Call.advance
      rw [hphase]
    exact h.advanced_of_closed hcall hmade (by rw [hphase]; rfl) rfl (hnone _ rfl)

end

end Zelavis.Db.Declarations
