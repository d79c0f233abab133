import Mathlib.Data.List.Chain
import Zelavis.Db.Builds

/-!
# Versions

What becomes of the documents of a tenant, whatever is done to its store. A document stays, is gone for
good, or is written over with a greater version; a name that is given to another document is given to
another identifier.
-/

namespace Zelavis.Db.Versions

open Lib List

/-- A write of a transaction that writes the object under an identity, or takes it off. -/
def Concerns (o : Objects Record) (i : ObjectIdentity) : Objects.Write Record → Prop
  | .put _ _ _ identity => identity = some i
  | .retract seq => o.named i = some seq

/-! ## Inside a transaction -/

/-- What a transaction has done to the documents that were there. -/
structure Moves (t : TenantId) (o : Objects Record) (s : Staged) : Prop where
  later : ∀ q d d', docAt t o q = some d → s.pending.bySeq q = some (some d') → d.version < d'.version
  apart : ∀ q d, docAt t o q = some d → s.pending.bySeq q = none → ∀ write ∈ s.writes,
    ¬Concerns o ⟨documentNs t d.collection, d.id⟩ write

variable {seq : Seq}

section

variable {host : Host} {t : TenantId} {o : Objects Record} {now : Utf16} {ops : List DocumentWrite}
  {s : Staged}

lemma Moves.start : Moves t o {} := by
  refine ⟨?_, fun _ _ _ _ _ hwrite => absurd hwrite not_mem_nil⟩
  intro q d d' _ hby
  cases hby

/-- A document that is there, as a transaction leaves it, is the one that was there, or has a greater
version. -/
theorem Moves.of_curr (h : Moves t o s) {q : Seq} {d d' : Document} (hd : docAt t o q = some d)
    (hcurr : curr t o s.pending q = some d') :
    (s.pending.bySeq q = none ∧ d' = d) ∨ d.version < d'.version := by
  cases hby : s.pending.bySeq q with
  | none =>
    rw [curr_of_none hby, hd] at hcurr
    exact .inl ⟨rfl, (Option.some.inj hcurr).symm⟩
  | some doc =>
    rw [curr_of_some hby] at hcurr
    rw [hcurr] at hby
    exact .inr (h.later q d d' hd hby)

variable {d : Document}

/-- What is written over a document has a greater version than the one that was there before the
transaction, though a document cleared twice keeps the version of the first time. -/
theorem Placed.later {op : DocumentWrite} {doc : Document}
    {loaded : Option StoredCollection} (hm : Moves t o s)
    (h : Placed host t o now op s.pending doc seq loaded) (hfresh : ∀ q ∈ seqsOf [op],
      o.held.get q = none) (hd : docAt t o seq = some d) : d.version < doc.version := by
  cases h with
  | inserted hop hrecord hvalid hschema hfree hexpiry =>
    obtain ⟨held, hheld, -⟩ := docAt_eq_some.1 hd
    rw [hfresh seq (by simp [seqsOf, hop])] at hheld
    cases hheld
  | @updated collection current seq mode data expiry expiresAt hop hcurr hvalid hexpiry =>
    rcases hm.of_curr hd hcurr with ⟨-, rfl⟩ | hlt
    · exact Nat.lt_succ_self _
    · exact hlt.trans (Nat.lt_succ_self _)
  | @cleared holder seq naming record hcurr hrecord hnaming =>
    show d.version < if (s.pending.bySeq seq).isSome then holder.version else holder.version + 1
    rcases hm.of_curr hd hcurr with ⟨hby, rfl⟩ | hlt
    · rw [hby]
      exact Nat.lt_succ_self _
    · split_ifs
      · exact hlt
      · exact hlt.trans (Nat.lt_succ_self _)

lemma Moves.forget (h : Moves t o s) {q : Seq} :
    Moves t o { s with pending := Db.forget s.pending d q } := by
  constructor
  · intro q' d₀ d' hd hby
    have hby : (if q' = q then some none else s.pending.bySeq q') = some (some d') := hby
    split_ifs at hby with hq
    · cases hby
    · exact h.later q' d₀ d' hd hby
  · intro q' d₀ hd hby
    have hby : (if q' = q then some none else s.pending.bySeq q') = none := hby
    split_ifs at hby with hq
    exact h.apart q' d₀ hd hby

lemma Moves.keeps (ho : Kept o) (ht : TenantOk t) (hfresh : ∀ q ∈ seqsOf ops, o.held.get q = none) :
    Keeps host t o now ops (fun _ _ => True) fun _ s => Moves t o s where
  put := by
    intro rest due s s' op doc seq loaded hop hw hplaced _ hput _ hm
    obtain ⟨edges, manifest, -, -, rfl⟩ := documentPut_eq_ok hplaced.record_eq hput
    have hfresh' : ∀ q ∈ seqsOf [op], o.held.get q = none := by
      intro q hq
      obtain ⟨op', hop', hseq⟩ := mem_filterMap.1 hq
      rw [mem_singleton.1 hop'] at hseq
      exact hfresh q (mem_filterMap.2 ⟨op, hop, hseq⟩)
    constructor
    · intro q d d' hd hby
      have hby : (if q = seq then some (some doc) else s.pending.bySeq q) = some (some d') := hby
      split_ifs at hby with hq
      · cases hby
        rw [hq] at hd
        exact Placed.later hm hplaced hfresh' hd
      · exact hm.later q d d' hd hby
    · intro q d hd hby write hwrite
      have hby : (if q = seq then some (some doc) else s.pending.bySeq q) = none := hby
      split_ifs at hby with hq
      rcases mem_append.1 hwrite with hwrite | hwrite
      · exact hm.apart q d hd hby write hwrite
      · -- the document written has another name, or it would be the one that is there
        rw [mem_singleton.1 hwrite]
        intro hconcerns
        obtain ⟨hns, hid⟩ := ObjectIdentity.mk.inj (Option.some.inj hconcerns)
        have hc := (documentNs_inj ht ht hns).2
        have hcurr : curr t o s.pending q = some d := (curr_of_none hby).trans hd
        have hname := ho.isName_of_docAt hd
        rcases hplaced.old_or_fresh ho with ⟨old, hold, hcol, hsame⟩ | ⟨-, -, hfree⟩
        · have heq := hw.curr_inj hname hcurr hold (hcol.symm.trans hc) (hsame.symm.trans hid)
          exact hq heq.symm
        · rw [hc, hid] at hfree
          exact hfree q d ((hw.names d.collection d.id hname q d).2 ⟨hcurr, rfl, rfl⟩)
  forget := fun _ _ _ hm => hm.forget
  forgetAgain := fun _ hm => hm.forget
  retract := by
    intro rest due s q d hw hm
    refine ⟨hm.later, fun q' d' hd hby write hwrite => ?_⟩
    rcases mem_append.1 hwrite with hwrite | hwrite
    · exact hm.apart q' d' hd hby write hwrite
    · rw [mem_singleton.1 hwrite]
      intro hconcerns
      obtain ⟨d'', hd'', hc, hid⟩ := (ho.named_iff ht).1 hconcerns
      have heq : q = q' := ho.docAt_inj ht hd'' hd hc hid
      rw [← heq, (hw.forgotten (q, d) mem_cons_self).1] at hby
      cases hby

/-- What holds after some of the changes of a batch. -/
structure During (host : Host) (t : TenantId) (o : Objects Record) (ops : List DocumentWrite)
    (s : Staged) : Prop where
  within : Within host t o [] [] s
  uses : Uses t o ops s
  moves : Moves t o s

lemma during (ho : Kept o) (ht : TenantOk t)
    (hfresh : ∀ q ∈ seqsOf ops, q ≤ o.lastSeq ∧ o.held.get q = none) (hnodup : (seqsOf ops).Nodup)
    (h : ops.foldlM (applyWrite host t o now) {} = .ok s) : During host t o ops s := by
  obtain ⟨hw, huses⟩ := foldlM_uses ho ht hfresh hnodup h
  refine ⟨hw, huses, ?_⟩
  exact (foldlM_induct ho ht (Moves.keeps ho ht fun q hq => (hfresh q hq).2)
    (fun q hq => (hfresh q hq).2) (fun q hq => (hfresh q hq).1) hnodup
    (fun _ _ _ _ _ _ => trivial) Moves.start h).2

end

/-! ## One step -/

/-- What a change of the store leaves of the documents, but for those under identifiers that are
taken. -/
structure Grows (taken : Seq → Prop) (o o' : Objects Record) : Prop where
  last : o.lastSeq ≤ o'.lastSeq
  later : ∀ t, TenantOk t → ∀ q d d', docAt t o q = some d → docAt t o' q = some d' →
    d' = d ∨ d.version < d'.version
  gone : ∀ t, TenantOk t → ∀ q, docAt t o q = none → ¬taken q → docAt t o' q = none

section

variable {taken : Seq → Prop} {o o' o'' : Objects Record}

lemma Grows.of_docAt (hlast : o.lastSeq ≤ o'.lastSeq) (h : ∀ t q, docAt t o' q = docAt t o q) :
    Grows taken o o' where
  last := hlast
  later t _ q d d' hd hd' := by
    rw [h, hd] at hd'
    exact .inl (Option.some.inj hd').symm
  gone t _ q hd _ := (h t q).trans hd

lemma Grows.refl (o : Objects Record) : Grows taken o o := .of_docAt le_rfl fun _ _ => rfl

lemma Grows.of_records (bound : Seq) (h : RecordsOnly bound o o') : Grows taken o o' :=
  .of_docAt h.later h.documents.docAt

lemma Grows.trans (h : Grows (fun _ => False) o o') (h' : Grows (fun _ => False) o' o'') :
    Grows taken o o'' where
  last := h.last.trans h'.last
  later t ht q d d'' hd hd'' := by
    cases hmid : docAt t o' q with
    | none =>
      rw [h'.gone t ht q hmid id] at hd''
      cases hd''
    | some d' =>
      rcases h.later t ht q d d' hd hmid with rfl | hlt
      · exact h'.later t ht q d' d'' hmid hd''
      · refine .inr ?_
        rcases h'.later t ht q d' d'' hmid hd'' with rfl | hlt'
        · exact hlt
        · exact hlt.trans hlt'
  gone t ht q hd _ := h'.gone t ht q (h.gone t ht q hd id) id

lemma Grows.mono {taken' : Seq → Prop} (h : Grows taken o o') (hsub : ∀ q, taken q → taken' q) :
    Grows taken' o o' where
  last := h.last
  later := h.later
  gone t ht q hd hq := h.gone t ht q hd fun htaken => hq (hsub q htaken)

variable {t : TenantId} {host : Host}

lemma During.grows {ops : List DocumentWrite} {s : Staged} (h : During host t o ops s) (ht : TenantOk t) :
    Grows (fun q => q ∈ seqsOf ops) o (o.commit s.writes) where
  last := (lastSeq_commit o s.writes).ge
  later t' ht' q d d' hd hd' := by
    by_cases heq : t' = t
    · rw [heq] at hd hd'
      rw [h.within.docAt_commit] at hd'
      rcases h.moves.of_curr hd hd' with ⟨-, hsame⟩ | hlt
      · exact .inl hsame
      · exact .inr hlt
    · rw [h.within.docAt_commit_of_ne ht ht' heq, hd] at hd'
      exact .inl (Option.some.inj hd').symm
  gone t' ht' q hd hq := by
    by_cases heq : t' = t
    · rw [heq] at hd ⊢
      rw [h.within.docAt_commit]
      cases hby : s.pending.bySeq q with
      | none => exact (curr_of_none hby).trans hd
      | some doc =>
        rcases h.uses q doc hby with hmem | ⟨d, hd'⟩
        · exact absurd hmem hq
        · rw [hd] at hd'
          cases hd'
    · exact (h.within.docAt_commit_of_ne ht ht' heq q).trans hd

lemma Grows.of_collectionPut (ho : Kept o) {n : Utf16}
    {c c' : StoredCollection} (hseq : o.named ⟨collectionNs t, n⟩ = some seq)
    (hc : loadCollection t o n = some c) (hname : c'.name = c.name) :
    Grows taken o (o.commit [collectionPut t seq c']) := by
  rw [Objects.commit_cons, Objects.commit_nil]
  have htakes : o.Takes seq ⟨collectionNs t, c'.name⟩ := by
    refine ho.named.takes_of_named ?_
    rw [hname, (ho.name_of_load hc).1]
    exact hseq
  exact .of_docAt (lastSeq_write o _).ge (sameDocuments_collectionPut htakes).docAt

lemma Grows.of_putsIndexes (ho : Kept o) {n : Utf16} (hseq : o.named ⟨collectionNs t, n⟩ = some seq)
    (hputs : PutsIndexes t o seq n o') : Grows taken o o' := by
  obtain rfl | ⟨c, indexes, hc, rfl⟩ := hputs
  · exact .refl _
  · exact .of_collectionPut ho hseq hc rfl

lemma Grows.of_dropCollection (ho : Kept o) (ht : TenantOk t)
    {now name : Utf16} : Grows taken o (dropCollection host t o now name).2 := by
  suffices h : Kept (dropCollection host t o now name).2 ∧
      Grows (fun _ => False) o (dropCollection host t o now name).2 from h.2.mono fun _ => False.elim
  refine dropCollection_induct (P := fun o' => Kept o' ∧ Grows (fun _ => False) o o') ht And.left
    ?_ ?_ ?_ ⟨ho, .refl o⟩
  · intro o' ops s hinserts hs h
    have hseqs := seqsOf_eq_nil hinserts
    have hduring : During host t o' ops s :=
      during h.1 ht (by rw [hseqs]; simp) (by rw [hseqs]; simp) hs
    refine ⟨hduring.within.kept_commit h.1 ht, h.2.trans ((hduring.grows ht).mono fun q hq => ?_)⟩
    rw [hseqs] at hq
    exact absurd hq not_mem_nil
  · intro o' o'' hr h
    exact ⟨hr.1.kept, h.2.trans (.of_records _ hr.1)⟩
  · intro o' seq hseq _ h
    obtain ⟨held, hheld, hid⟩ := (h.1.named _ _).1 hseq
    have hsame := sameDocuments_retract hheld hid fun _ _ hns => documentNs_ne_collectionNs hns.symm
    exact ⟨h.1.retract seq, h.2.trans (.of_docAt (lastSeq_write o' _).ge hsame.docAt)⟩

end

section

variable {host : Host} {C : World → TenantId → Utf16 → List DocumentWrite → Prop} {w w' : World}

lemma grows_step (hw : w.Sound) (h : w.Step host C w') :
    Grows (fun q => q ∈ w.reserved) w.store w'.store := by
  cases h with
  | reserve => exact .of_docAt (Nat.le_succ _) fun _ _ => rfl
  | write ht hreserved hnodup _ hwrite =>
    obtain ⟨s, hs, rfl⟩ := writeDocuments_eq_ok hwrite
    have hduring := during hw.kept ht (fun q hq => hw.reserved q (hreserved q hq)) hnodup hs
    exact (hduring.grows ht).mono hreserved
  | create => exact .of_records _ (createCollection_recordsOnly hw.kept _ _ _ _).1
  | @addReference t source reference =>
    exact .of_records 0 (addReference_recordsOnly hw.kept source reference).1
  | @dropReference t collection name =>
    exact .of_records 0 (dropReference_recordsOnly hw.kept collection name).1
  | dropCollection ht => exact .of_dropCollection hw.kept ht
  | start => exact .refl _
  | @record before after b definition salt recorded store hbuilds hphase hfresh hrecord =>
    have hb := hw.builds b (World.Sound.mem_of_builds hbuilds)
    exact .of_putsIndexes hw.kept hb.seq (recordIndex_puts hrecord)
  | scan => exact .refl _
  | @rewrite before after b index todo store hbuilds hphase hrewrite =>
    have hb := hw.builds b (World.Sound.mem_of_builds hbuilds)
    obtain ⟨l, rfl, hl, -⟩ := rewriteChunk_eq_ok (hb.docAt_of_todo hphase) hrewrite
    obtain ⟨-, hdocs, -⟩ := PutBack.commit hw.kept hb.tenant fun e he => (hl e he).2
    exact .of_docAt (lastSeq_commit _ _).ge hdocs
  | @finish before after b recorded outcome store hbuilds hphase hfinish =>
    have hb := hw.builds b (World.Sound.mem_of_builds hbuilds)
    exact .of_putsIndexes hw.kept hb.seq (finishIndex_puts hfinish)
  | abandon => exact .refl _
  | configure _ hseq => exact .of_records _ (recordSettings_recordsOnly hw.kept hseq _).1
  | reindex => exact .refl _
  | drop _ hseq => exact .of_putsIndexes hw.kept hseq (dropIndex_puts _)

lemma reserved_step (h : w.Step host C w') {q : Seq} (hle : q ≤ w.store.lastSeq)
    (hq : q ∉ w.reserved) : q ∉ w'.reserved := by
  cases h with
  | reserve =>
    intro hmem
    rcases mem_cons.1 hmem with heq | hmem
    · have hlt : w.store.lastSeq < q := heq ▸ Nat.lt_succ_self _
      exact absurd hle (Nat.not_le.2 hlt)
    · exact hq hmem
  | write => exact fun hmem => hq (mem_of_mem_filter hmem)
  | _ => exact hq

end

/-! ## Runs -/

/-- Whatever a batch changes. -/
abbrev Any : World → TenantId → Utf16 → List DocumentWrite → Prop := fun _ _ _ _ => True

/-- A run from one state to another, and the states it passes, both of them included. -/
inductive Runs (host : Host) (w : World) : List World → World → Prop where
  | here : Runs host w [w] w
  | step {ws : List World} {w' w'' : World} (h : Runs host w ws w') (hstep : w'.Step host Any w'') :
      Runs host w (ws ++ [w'']) w''

/-- A batch that is accepted, with identifiers allocated for it. -/
structure Accepts (host : Host) (w : World) (t : TenantId) (now : Utf16) (ops : List DocumentWrite)
    (store : Objects Record) : Prop where
  reserved : ∀ q ∈ seqsOf ops, q ∈ w.reserved
  nodup : (seqsOf ops).Nodup
  written : writeDocuments host t w.store now ops = .ok store

/-- A batch that takes one state to another writes the document under a name, deletes it or creates
it. -/
def Touches (host : Host) (t : TenantId) (c id : Utf16) (w w' : World) : Prop :=
  ∃ now ops s, Accepts host w t now ops w'.store ∧ ops.foldlM (applyWrite host t w.store now) {} = .ok s ∧
    ∃ write ∈ s.writes, Concerns w.store ⟨documentNs t c, id⟩ write

/-- In all states of a run a name addresses one document, under one identifier and with one content,
and no batch wrote it, deleted it or created it. -/
structure Untouched (host : Host) (t : TenantId) (c id : Utf16) (d : Document) (q : Seq)
    (ws : List World) : Prop where
  stands : ∀ w ∈ ws, w.store.lookup (documentNs t c) id = some q ∧ readDocument w.store q = some d
  batches : ws.IsChain fun w w' => ¬Touches host t c id w w'

section

variable {host : Host} {t : TenantId} {w w' : World} {ws : List World} {c id : Utf16} {d : Document}
  {q : Seq}

lemma Runs.getLast? (h : Runs host w ws w') : ws.getLast? = some w' := by
  cases h with
  | here => rfl
  | step => exact List.getLast?_concat

lemma Accepts.during {now : Utf16} {ops : List DocumentWrite} {store : Objects Record}
    (h : Accepts host w t now ops store) (hw : w.Sound) (ht : TenantOk t) {s : Staged}
    (hs : ops.foldlM (applyWrite host t w.store now) {} = .ok s) :
    During host t w.store ops s ∧ store = w.store.commit s.writes := by
  obtain ⟨s', hs', hstore⟩ := writeDocuments_eq_ok h.written
  rw [hs] at hs'
  cases hs'
  exact ⟨Versions.during hw.kept ht (fun q hq => hw.reserved q (h.reserved q hq)) h.nodup hs, hstore⟩

lemma not_touches (hw : w.Sound) (ht : TenantOk t) (hd : docAt t w.store q = some d)
    (hd' : docAt t w'.store q = some d) : ¬Touches host t d.collection d.id w w' := by
  rintro ⟨now, ops, s, haccepts, hs, write, hwrite, hconcerns⟩
  obtain ⟨hduring, hstore⟩ := haccepts.during hw ht hs
  rw [hstore, hduring.within.docAt_commit] at hd'
  rcases hduring.moves.of_curr hd hd' with ⟨hby, -⟩ | hlt
  · exact hduring.moves.apart q d hd hby write hwrite hconcerns
  · exact lt_irrefl _ hlt

lemma stands_of_docAt (hw : Kept w.store) (ht : TenantOk t) (hd : docAt t w.store q = some d) :
    w.store.lookup (documentNs t d.collection) d.id = some q ∧ readDocument w.store q = some d :=
  ⟨(hw.named_iff ht).2 ⟨d, hd, rfl, rfl⟩, readDocument_of_docAt hd⟩

/-- A document that is there when a run begins is untouched when it ends, or what is under its
identifier, if anything, has a greater version. -/
theorem runs_moved (hw : w.Sound) (ht : TenantOk t) (hd : docAt t w.store q = some d)
    (h : Runs host w ws w') : w'.Sound ∧ q ≤ w'.store.lastSeq ∧ q ∉ w'.reserved ∧
      ((docAt t w'.store q = some d ∧ Untouched host t d.collection d.id d q ws) ∨
        ∀ d', docAt t w'.store q = some d' → d.version < d'.version) := by
  induction h with
  | here =>
    obtain ⟨held, hheld, -⟩ := docAt_eq_some.1 hd
    refine ⟨hw, hw.kept.bounded q held hheld, fun hmem => ?_, .inl ⟨hd, ?_, .singleton _⟩⟩
    · rw [(hw.reserved q hmem).2] at hheld
      cases hheld
    · intro w' hmem
      rw [mem_singleton.1 hmem]
      exact stands_of_docAt hw.kept ht hd
  | @step ws w' w'' h hstep ih =>
    obtain ⟨hw', hle, hq, hcases⟩ := ih
    have hw'' := hw'.step hstep
    have hgrows := grows_step hw' hstep
    refine ⟨hw'', hle.trans hgrows.last, reserved_step hstep hle hq, ?_⟩
    cases hd'' : docAt t w''.store q with
    | none => exact .inr fun d' hd' => by cases hd'
    | some d'' =>
      rcases hcases with ⟨hd', huntouched⟩ | hmoved
      · rcases hgrows.later t ht q d d'' hd' hd'' with rfl | hlt
        · refine .inl ⟨rfl, ?_, ?_⟩
          · intro v hv
            rcases mem_append.1 hv with hv | hv
            · exact huntouched.stands v hv
            · rw [mem_singleton.1 hv]
              exact stands_of_docAt hw''.kept ht hd''
          · refine huntouched.batches.append (.singleton _) ?_
            intro v hv v' hv'
            rw [h.getLast?] at hv
            cases hv
            cases hv'
            exact not_touches hw' ht hd' hd''
        · refine .inr fun d' heq => ?_
          cases heq
          exact hlt
      · refine .inr fun d' heq => ?_
        cases heq
        cases hd' : docAt t w'.store q with
        | none =>
          rw [hgrows.gone t ht q hd' hq] at hd''
          cases hd''
        | some d' =>
          rcases hgrows.later t ht q d' d'' hd' hd'' with rfl | hlt
          · exact hmoved d'' hd'
          · exact (hmoved d' hd').trans hlt

end

end Zelavis.Db.Versions
