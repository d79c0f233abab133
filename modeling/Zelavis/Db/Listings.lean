import Zelavis.Db.Builds
import Zelavis.Db.Mirrors

/-!
# Every reference is listed where it points

A collection's record lists the references made to it. One that is listed may be of a collection
that is gone, but none that is declared is left out.
-/

namespace Zelavis.Db

open Lib List

/-! ## Catalogs -/

def Lists (K : Catalog) : Prop :=
  ∀ n a, K n = some a → ∀ r ∈ a.references, ∃ b, K r.collection = some b ∧ ⟨n, r.name⟩ ∈ b.referencedBy

/-- A change keeps every reference listed where those that are new are, and where a listing is taken
off only of references that are gone. -/
theorem Lists.of_changes {K K' : Catalog} (h : Lists K) (hrefs : ∀ n a', K' n = some a' → ∀ r ∈ a'.references,
      (∃ a, K n = some a ∧ r ∈ a.references) ∨
        ∃ b', K' r.collection = some b' ∧ ⟨n, r.name⟩ ∈ b'.referencedBy)
    (hbacks : ∀ m b back, K m = some b → back ∈ b.referencedBy →
      (∃ b', K' m = some b' ∧ back ∈ b'.referencedBy) ∨
        ∀ a', K' back.collection = some a' → ∀ r ∈ a'.references, r.name ≠ back.reference) : Lists K' := by
  intro n a' ha' r hr
  rcases hrefs n a' ha' r hr with ⟨a, ha, hold⟩ | hnew
  · obtain ⟨b, hb, hback⟩ := h n a ha r hold
    rcases hbacks _ b _ hb hback with hkept | hgone
    · exact hkept
    · exact absurd rfl (hgone a' ha' r hr)
  · exact hnew

lemma foldl_changed_cases (l : List (Seq × StoredCollection)) (K : Catalog) (n : Utf16) :
    ((∀ e ∈ l, e.2.name ≠ n) ∧ l.foldl (fun K e => changed K e.2.name (some e.2)) K n = K n) ∨
      ∃ e ∈ l, e.2.name = n ∧ l.foldl (fun K e => changed K e.2.name (some e.2)) K n = some e.2 := by
  induction l generalizing K with
  | nil => exact .inl ⟨by simp, rfl⟩
  | cons e l ih =>
    rcases ih (changed K e.2.name (some e.2)) with ⟨hnone, heq⟩ | ⟨e', he', hname, heq⟩
    · by_cases hn : e.2.name = n
      · refine .inr ⟨e, mem_cons_self, hn, heq.trans ?_⟩
        unfold changed
        rw [if_pos hn.symm]
      · refine .inl ⟨fun e' he' => ?_, heq.trans ?_⟩
        · rcases mem_cons.1 he' with rfl | he'
          · exact hn
          · exact hnone e' he'
        · unfold changed
          rw [if_neg (Ne.symm hn)]
    · exact .inr ⟨e', mem_cons_of_mem _ he', hname, heq⟩

/-! ## Stores -/

def AllLists (o : Objects Record) : Prop := ∀ t, Lists (loadCollection t o)

section

variable {o o' : Objects Record} {t : TenantId}

lemma AllLists.congr (h : AllLists o)
    (hload : ∀ t n, loadCollection t o' n = loadCollection t o n) : AllLists o' := by
  intro t
  rw [funext (hload t)]
  exact h t

lemma AllLists.puts (h : AllLists o) (ho : Kept o) {l : List (Seq × StoredCollection)}
    (hl : ∀ e ∈ l, o.named ⟨collectionNs t, e.2.name⟩ = some e.1) (hrefs : ∀ e ∈ l, ∀ r ∈ e.2.references,
      (∃ b, loadCollection t o e.2.name = some b ∧ r ∈ b.references) ∨
        (∃ e' ∈ l, e'.2.name = r.collection) ∧ ∀ e' ∈ l, e'.2.name = r.collection →
          ⟨e.2.name, r.name⟩ ∈ e'.2.referencedBy)
    (hbacks : ∀ e ∈ l, ∀ b, loadCollection t o e.2.name = some b → ∀ back ∈ b.referencedBy,
      back ∈ e.2.referencedBy ∨ (∃ e' ∈ l, e'.2.name = back.collection) ∧
        ∀ e' ∈ l, e'.2.name = back.collection → ∀ r ∈ e'.2.references, r.name ≠ back.reference) :
    AllLists (o.commit (l.map fun e => collectionPut t e.1 e.2)) := by
  obtain ⟨-, -, hsame, hother⟩ := puts_catalog ho.named hl
  intro t'
  by_cases ht' : t' = t
  · subst ht'
    rw [funext hsame]
    have hcases := foldl_changed_cases l (loadCollection t' o)
    -- what is under a name of which a record was written is one of those
    have hwritten : ∀ {n}, (∃ e ∈ l, e.2.name = n) → ∃ e ∈ l, e.2.name = n ∧
        l.foldl (fun K e => changed K e.2.name (some e.2)) (loadCollection t' o) n = some e.2 := by
      rintro n ⟨e, he, hn⟩
      rcases hcases n with ⟨hnone, -⟩ | hsome
      · exact absurd hn (hnone e he)
      · exact hsome
    refine (h t').of_changes (fun n a' ha' r hr => ?_) fun m b back hb hback => ?_
    · rcases hcases n with ⟨-, heq⟩ | ⟨e, he, hn, heq⟩
      · exact .inl ⟨a', heq.symm.trans ha', hr⟩
      · obtain rfl : e.2 = a' := Option.some.inj (heq.symm.trans ha')
        rcases hrefs e he r hr with hold | ⟨hin, hlisted⟩
        · rw [hn] at hold
          exact .inl hold
        · obtain ⟨e', he', hn', heq'⟩ := hwritten hin
          exact .inr ⟨e'.2, heq', hn ▸ hlisted e' he' hn'⟩
    · rcases hcases m with ⟨-, heq⟩ | ⟨e, he, hm, heq⟩
      · exact .inl ⟨b, heq.trans hb, hback⟩
      · rcases hbacks e he b (hm ▸ hb) back hback with hkept | ⟨hin, hgone⟩
        · exact .inl ⟨e.2, heq, hkept⟩
        · obtain ⟨e', he', hn', heq'⟩ := hwritten hin
          refine .inr fun a' ha' r hr => hgone e' he' hn' r ?_
          rwa [Option.some.inj (heq'.symm.trans ha')]
  · rw [funext (hother t' ht')]
    exact h t'

lemma AllLists.put (h : AllLists o) (ho : Kept o) {n : Utf16} {seq : Seq}
    {c c' : StoredCollection} (hseq : o.named ⟨collectionNs t, n⟩ = some seq)
    (hc : loadCollection t o n = some c) (hname : c'.name = c.name)
    (hrefs : c'.references = c.references) (hbacks : c'.referencedBy = c.referencedBy) :
    AllLists (o.commit [collectionPut t seq c']) := by
  have hn : c'.name = n := hname.trans (ho.name_of_load hc).1
  refine h.puts ho (l := [(seq, c')]) (fun e he => ?_) (fun e he r hr => ?_) fun e he b hb back hback => ?_
  · rw [mem_singleton.1 he, hn]
    exact hseq
  · rw [mem_singleton.1 he] at hr ⊢
    exact .inl ⟨c, hn ▸ hc, hrefs ▸ hr⟩
  · rw [mem_singleton.1 he] at hb ⊢
    rw [hn, hc] at hb
    cases hb
    exact .inl (hbacks ▸ hback)

lemma AllLists.putsIndexes (h : AllLists o) (ho : Kept o) {n : Utf16} {seq : Seq}
    (hseq : o.named ⟨collectionNs t, n⟩ = some seq) (hputs : PutsIndexes t o seq n o') : AllLists o' := by
  obtain rfl | ⟨c, indexes, hc, rfl⟩ := hputs
  · exact h
  · exact h.put ho hseq hc rfl rfl rfl

/-! ## The operations -/

section

variable (h : AllLists o) (ho : Kept o)
include h ho

lemma AllLists.createCollection (now : Utf16)
    (salt : Utf16 → Utf16) (input : CollectionInput) : AllLists (createCollection t o now salt input).2 := by
  obtain ⟨-, hsame | ⟨c, hc, hfresh, hwhole, hcatalog, hother⟩⟩ :=
    createCollection_cases ho t now salt input
  · exact h.congr hsame
  · obtain ⟨-, hempty, -⟩ := collectionFor_eq_ok hc
    intro t'
    by_cases ht' : t' = t
    · subst ht'
      rw [funext hcatalog]
      refine (h t').of_changes (fun n a' ha' r hr => ?_) fun m b back hb hback => .inl ?_
      · unfold Catalog.created at ha' ⊢
        split_ifs at ha' with hn
        · -- the new collection's references are listed as it is recorded
          cases ha'
          right
          rw [hn]
          by_cases hcol : r.collection = c.name
          · rw [if_pos hcol]
            refine ⟨_, rfl, mem_append_right _ (List.mem_map.2 ⟨r, ?_, rfl⟩)⟩
            exact mem_filter.2 ⟨hr, by simpa using hcol⟩
          · obtain ⟨b, hb⟩ := hwhole r hr hcol
            rw [if_neg hcol, hb]
            refine ⟨_, rfl, mem_append_right _ (List.mem_map.2 ⟨r, ?_, rfl⟩)⟩
            exact mem_filter.2 ⟨hr, by simp⟩
        · obtain ⟨a, ha, rfl⟩ := Option.map_eq_some_iff.1 ha'
          exact .inl ⟨a, ha, hr⟩
      · have hm : m ≠ c.name := by
          rintro rfl
          rw [hfresh] at hb
          cases hb
        unfold Catalog.created
        rw [if_neg hm, hb]
        exact ⟨_, rfl, mem_append_left _ hback⟩
    · rw [funext (hother t' ht')]
      exact h t'

lemma AllLists.unlinkReference (source name : Utf16) :
    AllLists (o.commit (unlinkReference t o source name)) := by
  obtain ⟨l, hl, hwrites, hsource⟩ := unlinkReference_writes (t := t) ho source name
  rw [hl]
  refine h.puts ho (fun e he => (hwrites e he).1.1) (fun e he r hr => ?_) fun e he b hb back hback => ?_
  · obtain ⟨⟨-, b, hb, -⟩, hrecorded, -⟩ := hwrites e he
    exact .inl ⟨b, hb, (hrecorded b hb).1 r hr⟩
  · by_cases hown : back = ⟨source, name⟩
    · rw [hown]
      exact .inr ⟨hsource (ne_nil_of_mem he), fun e' he' hn => (hwrites e' he').2.2 hn⟩
    · exact .inl (((hwrites e he).2.1 b hb).2 back hback hown)

lemma AllLists.addReference (source : Utf16)
    (reference : ReferenceConstraint) : AllLists (addReference t o source reference).2 := by
  unfold Db.addReference
  split
  · exact h
  · exact h
  · split
    next seq record hseq hrecord =>
      split_ifs
      · exact h
      · split
        · exact h
        next writes hwrites =>
          obtain ⟨l, rfl, hl, hlister⟩ := addWrites_eq_ok ho hseq hrecord hwrites
          have hadded : AllLists (o.commit (l.map fun e => collectionPut t e.1 e.2)) := by
            refine h.puts ho (fun e he => (hl e he).1.1) (fun e he r hr => ?_)
              fun e he b hb back hback => .inl (((hl e he).2.1 b hb).2 back hback)
            obtain ⟨⟨-, b, hb, -⟩, hrecorded, -⟩ := hl e he
            rcases (hrecorded b hb).1 r hr with hold | ⟨hn, rfl⟩
            · exact .inl ⟨b, hb, hold⟩
            · refine .inr ⟨hlister, fun e' he' hn' => ?_⟩
              rw [hn]
              exact (hl e' he').2.2 hn'
          have hkept := (RecordsOnly.puts_alike 0 ho fun e he => (hl e he).1).1.kept
          dsimp only
          split
          · exact hadded
          · exact hadded.unlinkReference hkept source _
    next => exact h

lemma AllLists.dropReference (collection name : Utf16) :
    AllLists (dropReference t o collection name).2 := by
  unfold Db.dropReference
  split
  · exact h
  · exact h
  · exact h.unlinkReference ho collection name

/-- A collection that none other references is taken off with the listings of its references. -/
theorem AllLists.dropWrites {c : StoredCollection} {name : Utf16}
    (hc : loadCollection t o name = some c) (hown : ∀ back ∈ c.referencedBy, back.collection = name) :
    AllLists (o.commit (dropWrites t o c)) := by
  have hname := (ho.name_of_load hc).1
  obtain ⟨l, hl, hwrites⟩ := unlinkReferences_writes (t := t) ho c.name
    (c.references.filter fun reference => reference.collection ≠ c.name)
  obtain ⟨-, hidentities, hsame, hother⟩ := puts_catalog ho.named fun e he => (hwrites e he).1.1
  obtain ⟨seq, hseq⟩ := exists_named_of_load hc
  have hkept := (RecordsOnly.puts_alike 0 ho fun e he => (hwrites e he).1).1.kept
  have hload : ∀ t' n, loadCollection t' (o.commit (Db.dropWrites t o c)) n =
      if t' = t ∧ n = name then none
      else loadCollection t' (o.commit (l.map fun e => collectionPut t e.1 e.2)) n := by
    intro t' n
    unfold Db.dropWrites
    rw [hl, Objects.commit_append, show o.lookup (collectionNs t) c.name = some seq by rw [hname]; exact hseq]
    exact loadCollection_retract_record hkept.named (hidentities ▸ hseq) t' n
  intro t'
  by_cases ht' : t' = t
  · subst ht'
    have hgone : loadCollection t' (o.commit (Db.dropWrites t' o c)) name = none := by
      rw [hload, if_pos ⟨rfl, rfl⟩]
    have hleft : ∀ n ≠ name, loadCollection t' (o.commit (Db.dropWrites t' o c)) n =
        l.foldl (fun K e => changed K e.2.name (some e.2)) (loadCollection t' o) n := fun n hn => by
      rw [hload, if_neg fun hboth => hn hboth.2, hsame]
    have hcases := foldl_changed_cases l (loadCollection t' o)
    refine (h t').of_changes (fun n a' ha' r hr => .inl ?_) fun m b back hb hback => ?_
    · have hn : n ≠ name := by
        rintro rfl
        rw [hgone] at ha'
        cases ha'
      rw [hleft n hn] at ha'
      rcases hcases n with ⟨-, heq⟩ | ⟨e, he, hn, heq⟩
      · exact ⟨a', heq.symm.trans ha', hr⟩
      · obtain rfl : e.2 = a' := Option.some.inj (heq.symm.trans ha')
        obtain ⟨⟨-, b, hb, -⟩, hrecorded⟩ := hwrites e he
        exact ⟨b, hn ▸ hb, (hrecorded b hb).1 r hr⟩
    · by_cases hsource : back.collection = name
      · right
        rw [hsource, hgone]
        intro a' ha'
        cases ha'
      · have hm : m ≠ name := by
          rintro rfl
          rw [hc] at hb
          cases hb
          exact hsource (hown back hback)
        left
        rw [hleft m hm]
        rcases hcases m with ⟨-, heq⟩ | ⟨e, he, hn, heq⟩
        · exact ⟨b, heq.trans hb, hback⟩
        · exact ⟨e.2, heq, ((hwrites e he).2 b (hn.symm ▸ hb)).2 back hback
            (by rw [hname]; exact hsource)⟩
  · have hsame' : ∀ n, loadCollection t' (o.commit (Db.dropWrites t o c)) n = loadCollection t' o n :=
      fun n => by rw [hload, if_neg fun hboth => ht' hboth.1, hother t' ht']
    rw [funext hsame']
    exact h t'

lemma AllLists.dropCollection (ht : TenantOk t) (host : Host)
    (now name : Utf16) : AllLists (dropCollection host t o now name).2 := by
  unfold Db.dropCollection
  split
  · exact h
  · exact h
  next c _ hc =>
    split
    · exact h
    next hown =>
      have hown : ∀ back ∈ c.referencedBy, back.collection = name := by
        simpa using List.find?_eq_none.1 hown
      -- batches of deletes write no record
      have hemptied := (emptied_induct host now ht
        (ho.name_of_load hc).2 (P := fun o' => Kept o' ∧
          ∀ t' n, loadCollection t' o' n = loadCollection t' o n) And.left ?_ ⟨ho, fun _ _ => rfl⟩
        (o.held.entries.length + 1)).1
      · split
        next fault o' heq =>
          rw [heq] at hemptied
          exact h.congr hemptied.2
        next o' heq =>
          rw [heq] at hemptied
          obtain ⟨hkept, hload⟩ := hemptied
          have hdropped := (h.congr hload).dropWrites hkept ((hload t name).trans hc) hown
          have hkept' : Kept (o'.commit (Db.dropWrites t o' c)) := by
            obtain ⟨o₁, hr, -, ⟨heq, -⟩ | ⟨seq, -, heq⟩⟩ := dropWrites_eq (t := t) hkept c
            · rw [heq]
              exact hr.kept
            · rw [heq]
              exact hr.kept.retract seq
          exact hdropped.congr (unmarkTenant_recordsOnly 0 hkept').2
      · rintro o₁ ops s hinserts hs ⟨hkept, hload⟩
        have hseqs := seqsOf_eq_nil hinserts
        obtain ⟨hw, -⟩ := foldlM_uses hkept ht (by rw [hseqs]; simp) (by rw [hseqs]; simp) hs
        exact ⟨hw.kept_commit hkept ht, fun t' n =>
          (hw.load_commit hkept t' n).trans (hload t' n)⟩

end

end

/-! ## Every run -/

section

variable {host : Host} {C : World → TenantId → Utf16 → List DocumentWrite → Prop} {w w' : World}

lemma World.Step.allLists (h : AllLists w.store) (hw : w.Sound) (hstep : w.Step host C w') :
    AllLists w'.store := by
  cases hstep with
  | reserve => exact h.congr fun _ _ => rfl
  | write ht hreserved hnodup _ hwrite =>
    obtain ⟨s, hs, rfl⟩ := writeDocuments_eq_ok hwrite
    obtain ⟨hwithin, -⟩ := foldlM_uses hw.kept ht
      (fun q hq => hw.reserved q (hreserved q hq)) hnodup hs
    exact h.congr (hwithin.load_commit hw.kept)
  | create => exact h.createCollection hw.kept _ _ _
  | addReference => exact h.addReference hw.kept _ _
  | dropReference => exact h.dropReference hw.kept _ _
  | dropCollection ht => exact h.dropCollection hw.kept ht host _ _
  | start => exact h
  | record hbuilds hphase hfresh hrecord hsame hbuilding =>
    have hseq := (hw.builds _ (World.Sound.mem_of_builds hbuilds)).seq
    exact h.putsIndexes hw.kept hseq (recordIndex_puts hrecord)
  | scan => exact h
  | rewrite hbuilds hphase hrewrite =>
    have hb := hw.builds _ (World.Sound.mem_of_builds hbuilds)
    obtain ⟨l, rfl, hl, -⟩ := rewriteChunk_eq_ok (hb.docAt_of_todo hphase) hrewrite
    obtain ⟨-, -, hload, -⟩ := PutBack.commit hw.kept hb.tenant fun e he => (hl e he).2
    exact h.congr hload
  | finish hbuilds hphase hfinish =>
    have hseq := (hw.builds _ (World.Sound.mem_of_builds hbuilds)).seq
    exact h.putsIndexes hw.kept hseq (finishIndex_puts hfinish)
  | abandon => exact h
  | configure ht hseq =>
    unfold recordSettings
    split
    · exact h
    next c hc => exact h.put hw.kept hseq hc rfl rfl rfl
  | reindex => exact h
  | drop ht hseq => exact h.putsIndexes hw.kept hseq (dropIndex_puts _)

lemma Reached.allLists (h : Reached host C w) : AllLists w.store := by
  induction h with
  | start =>
    intro t n a ha
    cases ha
  | step h hstep ih => exact World.Step.allLists ih h.sound hstep

end

end Zelavis.Db
