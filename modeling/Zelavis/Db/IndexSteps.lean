import Zelavis.Db.RecordSteps

/-!
# What putting documents back keeps

A rewrite writes documents back with what their collection's record now calls for: the same documents,
with other postings.
-/

namespace Zelavis.Db

open Lib List

/-! ## Putting documents back -/

def putBack (t : TenantId) (e : Seq × Document × IndexManifest) : Objects.Write Record :=
  .put e.1 (.document e.2.1) e.2.2 (some ⟨documentNs t e.2.1.collection, e.2.1.id⟩)

section

variable {host : Host} {t : TenantId} {o : Objects Record}
  {links : Document → Seq → List (Utf16 × Seq)}

def linksFor (t : TenantId) (o : Objects Record) (doc : Document) (seq : Seq) : List (Utf16 × Seq) :=
  ((loadCollection t o doc.collection).elim [] StoredCollection.edges).flatMap (linksAt t o doc seq)

/-- Documents put back over themselves, with what their collection's record calls for. -/
def PutBack (host : Host) (t : TenantId) (o : Objects Record)
    (links : Document → Seq → List (Utf16 × Seq)) (e : Seq × Document × IndexManifest) : Prop :=
  docAt t o e.1 = some e.2.1 ∧
    manifestFor host t e.2.1 (loadCollection t o e.2.1.collection) (links e.2.1 e.1) = some e.2.2

lemma PutBack.write (ho : Kept o) (ht : TenantOk t) {e : Seq × Document × IndexManifest}
    (he : PutBack host t o links e) : Kept (o.write (putBack t e)) ∧
      (∀ t' q, docAt t' (o.write (putBack t e)) q = docAt t' o q) ∧
      (∀ t' n, loadCollection t' (o.write (putBack t e)) n = loadCollection t' o n) ∧
      (∀ q, q ≠ e.1 → (o.write (putBack t e)).held.get q = o.held.get q) ∧
      (∀ i q, o.named i = some q → (o.write (putBack t e)).named i = some q) ∧
      ∃ held, (o.write (putBack t e)).held.get e.1 = some held ∧ held.manifest = e.2.2 := by
  obtain ⟨hd, hmanifest⟩ := he
  obtain ⟨held, hheld, hbody, hid⟩ := docAt_eq_some.1 hd
  have htakes : o.Takes e.1 ⟨documentNs t e.2.1.collection, e.2.1.id⟩ :=
    ho.named.takes_of_named ((ho.named _ _).2 ⟨held, hheld, hid⟩)
  have hself : (o.write (putBack t e)).held.get e.1 = some ⟨some ⟨documentNs t e.2.1.collection, e.2.1.id⟩,
        ((o.held.get e.1).elim 0 Held.version) + 1, .document e.2.1, e.2.2⟩ := by
    rw [putBack, Objects.held_put, OrderedMap.get_insert, if_pos rfl]
  have hother : ∀ q, q ≠ e.1 → (o.write (putBack t e)).held.get q = o.held.get q := by
    intro q hq
    rw [putBack, Objects.held_put, OrderedMap.get_insert, if_neg hq]
  refine ⟨?_, ?_, ?_, hother, fun _ _ hj => ho.named.named_put_of_named htakes hj, _, hself, rfl⟩
  · exact ho.put_of_shape htakes (ho.bounded _ held hheld) fun version =>
      shape_of_manifestFor ho ht (ho.isName_of_docAt hd) rfl rfl hmanifest
  · intro t' q
    by_cases hq : q = e.1
    · subst hq
      unfold docAt
      rw [hself, hheld, Option.bind_some, Option.bind_some, hbody, hid]
    · unfold docAt
      rw [hother q hq]
  · intro t' n
    refine loadCollection_congr ?_
    rw [putBack, ho.named.under_put htakes, if_neg]
    intro heq
    exact documentNs_ne_collectionNs (ObjectIdentity.mk.inj heq).1.symm

lemma PutBack.commit (ho : Kept o) (ht : TenantOk t) {l : List (Seq × Document × IndexManifest)}
    (hl : ∀ e ∈ l, PutBack host t o links e) : Kept (o.commit (l.map (putBack t))) ∧
      (∀ t' q, docAt t' (o.commit (l.map (putBack t))) q = docAt t' o q) ∧
      (∀ t' n, loadCollection t' (o.commit (l.map (putBack t))) n = loadCollection t' o n) ∧
      (∀ q, (∀ e ∈ l, e.1 ≠ q) → (o.commit (l.map (putBack t))).held.get q = o.held.get q) ∧
      (∀ i q, o.named i = some q → (o.commit (l.map (putBack t))).named i = some q) ∧
      ∀ e ∈ l, ∃ held, (o.commit (l.map (putBack t))).held.get e.1 = some held ∧
        manifestFor host t e.2.1 (loadCollection t o e.2.1.collection) (links e.2.1 e.1) =
          some held.manifest := by
  induction l generalizing o with
  | nil => exact ⟨ho, fun _ _ => rfl, fun _ _ => rfl, fun _ _ => rfl, fun _ _ h => h, by simp⟩
  | cons e l ih =>
    have he := hl e mem_cons_self
    obtain ⟨ho', hdoc, hload, hheld, hnames, held, hheld', hmanifest'⟩ := PutBack.write ho ht he
    obtain ⟨hkept, hdocs, hloads, hhelds, hnamed, hputs⟩ := ih ho' fun e' he' => by
      obtain ⟨hd, hmanifest⟩ := hl e' (mem_cons_of_mem _ he')
      exact ⟨by rw [hdoc]; exact hd, by rw [hload]; exact hmanifest⟩
    rw [map_cons, Objects.commit_cons]
    refine ⟨hkept, fun t' q => (hdocs t' q).trans (hdoc t' q),
      fun t' n => (hloads t' n).trans (hload t' n), fun q hq => ?_,
      fun i q hi => hnamed i q (hnames i q hi), fun e' he' => ?_⟩
    · rw [hhelds q fun e' he' => hq e' (mem_cons_of_mem _ he')]
      exact hheld q (Ne.symm (hq e mem_cons_self))
    · by_cases hmem : ∃ e'' ∈ l, e''.1 = e'.1
      · -- put back again later, with the same document
        obtain ⟨e'', he'', heq⟩ := hmem
        obtain ⟨held'', hheld'', hmanifest⟩ := hputs e'' he''
        have hd' := (hl e' he').1
        have hd'' := (hl e'' (mem_cons_of_mem _ he'')).1
        rw [heq, hd'] at hd''
        rw [hload, heq, ← Option.some.inj hd''] at hmanifest
        exact ⟨held'', by rw [← heq]; exact hheld'', hmanifest⟩
      · rcases mem_cons.1 he' with rfl | he''
        · refine ⟨held, ?_, by rw [hmanifest']; exact he.2⟩
          rw [hhelds _ fun e'' he'' heq => hmem ⟨e'', he'', heq⟩]
          exact hheld'
        · exact absurd ⟨e', he'', rfl⟩ hmem

lemma rewriteChunk_eq_ok {collection : Utf16} {seqs : List Seq} {o' : Objects Record}
    (hseqs : ∀ q ∈ seqs, ∀ d, readDocument o q = some d → docAt t o q = some d)
    (h : rewriteChunk host t o collection seqs = .ok o') :
    ∃ l : List (Seq × Document × IndexManifest), o' = o.commit (l.map (putBack t)) ∧
      (∀ e ∈ l, e.1 ∈ seqs ∧ PutBack host t o (linksFor t o) e) ∧
      ∀ q ∈ seqs, ∀ d, docAt t o q = some d → d.collection = collection → ∃ e ∈ l, e.1 = q := by
  unfold rewriteChunk at h
  cases hwrites : seqs.mapM (rewritten host t o collection) with
  | error fault =>
    rw [hwrites] at h
    cases h
  | ok writes =>
    rw [hwrites] at h
    cases h
    have hall := mapM_eq_ok_iff.1 hwrites
    clear hwrites
    suffices hlist : ∃ l : List (Seq × Document × IndexManifest),
        writes.flatten = l.map (putBack t) ∧ (∀ e ∈ l, e.1 ∈ seqs ∧ PutBack host t o (linksFor t o) e) ∧
        ∀ q ∈ seqs, ∀ d, docAt t o q = some d → d.collection = collection → ∃ e ∈ l, e.1 = q by
      obtain ⟨l, hl, hback, hcover⟩ := hlist
      exact ⟨l, congrArg o.commit hl, hback, hcover⟩
    induction hall with
    | nil => exact ⟨[], rfl, by simp, by simp⟩
    | @cons q ws seqs writes hq _ ih =>
      obtain ⟨l, hl, hback, hcover⟩ := ih fun q' hq' => hseqs q' (mem_cons_of_mem _ hq')
      have hback' : ∀ e ∈ l, e.1 ∈ q :: seqs ∧ PutBack host t o (linksFor t o) e := fun e he =>
        ⟨mem_cons_of_mem _ (hback e he).1, (hback e he).2⟩
      -- a document of another collection, or gone, is passed over
      have hskip : ws = [] → (∀ d, docAt t o q = some d → d.collection ≠ collection) →
          ∃ l : List (Seq × Document × IndexManifest), (ws :: writes).flatten = l.map (putBack t) ∧
            (∀ e ∈ l, e.1 ∈ q :: seqs ∧ PutBack host t o (linksFor t o) e) ∧
            ∀ q' ∈ q :: seqs, ∀ d, docAt t o q' = some d → d.collection = collection → ∃ e ∈ l, e.1 = q' := by
        rintro rfl hnot
        refine ⟨l, by rw [flatten_cons, nil_append, hl], hback', fun q' hq' d hd hcol => ?_⟩
        rcases mem_cons.1 hq' with rfl | hq'
        · exact absurd hcol (hnot d hd)
        · exact hcover q' hq' d hd hcol
      unfold rewritten at hq
      split at hq
      next hnone =>
        cases hq
        refine hskip rfl fun d hd => ?_
        rw [readDocument_of_docAt hd] at hnone
        cases hnone
      next doc hdoc =>
        have hdocAt := hseqs q mem_cons_self doc hdoc
        split_ifs at hq with hcol
        · cases hq
          refine hskip rfl fun d hd => ?_
          rw [hdocAt] at hd
          cases hd
          exact hcol
        · have hcol : doc.collection = collection := not_not.1 hcol
          dsimp only at hq
          split at hq
          · cases hq
          next manifest hmanifest =>
            cases hq
            refine ⟨(q, doc, manifest) :: l, ?_, fun e he => ?_, fun q' hq' d hd hcol' => ?_⟩
            · rw [flatten_cons, hl, map_cons, putBack, hcol]
              rfl
            · rcases mem_cons.1 he with rfl | he
              · refine ⟨mem_cons_self, hdocAt, ?_⟩
                unfold linksFor
                rw [hcol]
                exact hmanifest
              · exact hback' e he
            · rcases mem_cons.1 hq' with rfl | hq'
              · exact ⟨_, mem_cons_self, rfl⟩
              · obtain ⟨e, he, heq⟩ := hcover q' hq' d hd hcol'
                exact ⟨e, mem_cons_of_mem _ he, heq⟩

end

end Zelavis.Db
