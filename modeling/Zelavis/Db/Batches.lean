import Zelavis.Db.RecordSteps

/-!
# What a batch leaves alone
-/

namespace Zelavis.Db

open Lib

lemma writeDocuments_eq_ok {host : Host} {t : TenantId} {o store : Objects Record} {now : Utf16}
    {ops : List DocumentWrite} (h : writeDocuments host t o now ops = .ok store) :
    ∃ s, ops.foldlM (applyWrite host t o now) {} = .ok s ∧ store = o.commit s.writes := by
  unfold writeDocuments at h
  split_ifs at h with hlength
  · cases h
  · simp only [bind_eq_ok_iff] at h
    obtain ⟨⟨⟩, -, s, hs, hstore⟩ := h
    cases hstore
    obtain ⟨⟨⟩, -, hs⟩ := bind_eq_ok_iff.1 hs
    exact ⟨s, hs, rfl⟩

variable {q : Seq} {i : ObjectIdentity} {d : Document}

section

variable {host : Host} {t : TenantId} {o : Objects Record} {now : Utf16} {ops : List DocumentWrite}
  {s : Staged}

def Uses (t : TenantId) (o : Objects Record) (ops : List DocumentWrite) (s : Staged) : Prop :=
  ∀ q doc, s.pending.bySeq q = some doc → q ∈ seqsOf ops ∨ ∃ d, docAt t o q = some d

lemma Uses.of_curr (h : Uses t o ops s)
    (hq : curr t o s.pending q = some d) : q ∈ seqsOf ops ∨ ∃ d, docAt t o q = some d := by
  cases hby : s.pending.bySeq q with
  | none => exact Or.inr ⟨d, by rwa [curr_of_none hby] at hq⟩
  | some doc => exact h q doc hby

lemma Uses.keeps (ho : Kept o) : Keeps host t o now ops (fun _ _ => True) fun _ s => Uses t o ops s where
  put := by
    intro rest due s s' op doc seq loaded hop _ hplaced _ hput _ h q written hby
    obtain ⟨edges, manifest, -, -, rfl⟩ := documentPut_eq_ok hplaced.record_eq hput
    have hby : (if q = seq then some (some doc) else s.pending.bySeq q) = some written := hby
    split_ifs at hby with hq
    · rw [hq]
      rcases hplaced.old_or_fresh ho with ⟨old, hold, -⟩ | ⟨hmem, -⟩
      · exact h.of_curr hold
      · obtain ⟨op', hop', hseq⟩ := List.mem_filterMap.1 hmem
        rw [List.mem_singleton.1 hop'] at hseq
        exact Or.inl (List.mem_filterMap.2 ⟨op, hop, hseq⟩)
    · exact h q written hby
  forget := by
    intro rest due s q d _ hcurr _ h q' written hby
    have hby : (if q' = q then some none else s.pending.bySeq q') = some written := hby
    split_ifs at hby with hq
    · rw [hq]
      exact h.of_curr hcurr
    · exact h q' written hby
  forgetAgain := by
    intro rest due s q d hw h q' written hby
    have hby : (if q' = q then some none else s.pending.bySeq q') = some written := hby
    split_ifs at hby with hq
    · rw [hq]
      exact h q none (hw.forgotten (q, d) List.mem_cons_self).1
    · exact h q' written hby
  retract := fun _ h => h

section

variable (ho : Kept o) (ht : TenantOk t) (hfresh : ∀ q ∈ seqsOf ops, q ≤ o.lastSeq ∧ o.held.get q = none)
  (hnodup : (seqsOf ops).Nodup)
include ho ht hfresh hnodup

lemma foldlM_uses
    (h : ops.foldlM (applyWrite host t o now) {} = .ok s) : Within host t o [] [] s ∧ Uses t o ops s :=
  foldlM_induct ho ht (Uses.keeps ho) (fun q hq => (hfresh q hq).2) (fun q hq => (hfresh q hq).1)
    hnodup (fun _ _ _ _ _ _ => trivial) (fun _ _ hby => by cases hby) h

lemma writeDocuments_kept {store : Objects Record}
    (h : writeDocuments host t o now ops = .ok store) : Kept store := by
  obtain ⟨s, hfold, rfl⟩ := writeDocuments_eq_ok h
  exact (foldlM_uses ho ht hfresh hnodup hfold).1.kept_commit ho ht

end

lemma Within.free_commit (hw : Within host t o [] [] s) (h : Uses t o ops s)
    (hnone : o.held.get q = none) (hq : q ∉ seqsOf ops) : (o.commit s.writes).held.get q = none := by
  cases hby : s.pending.bySeq q with
  | none => exact (hw.kept q hby).trans hnone
  | some doc =>
    rcases h q doc hby with hmem | ⟨d, hd⟩
    · exact absurd hmem hq
    · obtain ⟨held, hheld, -⟩ := docAt_eq_some.1 hd
      rw [hnone] at hheld
      cases hheld

lemma applyUpdate_eq_ok {collection id : Utf16} {data : JsonObject} {mode : UpdateMode}
    {expectedVersion : Option ℕ} {precondition : List DocumentFilter} {expiry : Expiry} {s s' : Staged}
    (hnamed : currentNamed t o s.pending collection id = some (q, some d))
    (h : applyUpdate host t o now collection id data mode expectedVersion precondition expiry s = .ok s') :
    ∃ expiresAt, documentPut host t o
      { d with data := updatedData mode d.data data, updatedAt := now, version := d.version + 1,
               expiresAt } q none s = .ok s' := by
  unfold applyUpdate at h
  rw [hnamed] at h
  dsimp only at h
  obtain ⟨⟨⟩, -, h⟩ := bind_eq_ok_iff.1 h
  obtain ⟨⟨⟩, -, h⟩ := bind_eq_ok_iff.1 h
  split_ifs at h with hschema
  · cases h
  · obtain ⟨expiresAt, -, hput⟩ := bind_eq_ok_iff.1 h
    exact ⟨expiresAt, hput⟩

lemma seqsOf_deletes (name : Utf16) (page : List Document) :
    seqsOf (page.map fun d => DocumentWrite.delete name d.id none []) = [] := by
  refine List.filterMap_eq_nil_iff.2 fun op hop => ?_
  obtain ⟨d, -, rfl⟩ := List.mem_map.1 hop
  rfl

end

end Zelavis.Db
