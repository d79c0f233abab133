import Zelavis.Db.Sealing

/-!
# What a finished seal leaves to do

A removal leaves a tombstone and a change leaves a mark on its group, and a seal deletes what it has
dealt with in the batch that carries the group's writes. A seal that finishes has dealt with all of
them.
-/

namespace Zelavis.Db.SealMarks

open Lib OrderedMap List
open Prog hiding pure bind bind_assoc get scan

def IsMark (k : Key) : Prop := tagOf k = Tag.tombstone ∨ tagOf k = Tag.dirty

variable {tag : Byte}

lemma mem_scan_of_tag {m : Store} (htag : tag ≠ 0) {k : Key} (hk : tagOf k = tag)
    (hheld : m.get k ≠ none) : k ∈ (scan m [tag] none none).map Prod.fst := by
  obtain ⟨v, hv⟩ := Option.ne_none_iff_exists'.1 hheld
  refine List.mem_map.2 ⟨(k, v), mem_scan.2 ⟨hv, ?_, by simp, by simp⟩, rfl⟩
  cases k with
  | nil => exact absurd hk.symm htag
  | cons b rest =>
    have hk : b = tag := hk
    rw [hk]
    exact cons_prefix_cons.2 ⟨rfl, List.nil_prefix⟩

/-- What is left to do between two steps of a seal. -/
structure Clearing (A : Key → Prop) (s : SealState) (m : Store) : Prop where
  puts : ∀ k v, Write.put k v ∈ s.batch → ¬IsMark k
  left : ∀ k, IsMark k → m.get k ≠ none → Write.delete k ∈ s.batch ∨ A k

section

variable {A A' : Key → Prop} {s s' : SealState} {m : Store} {claim : WriterClaim} {key : Key}

section

variable (h : Clearing A s m)
include h

lemma Clearing.mono (hA : ∀ k, m.get k ≠ none → A k → A' k) : Clearing A' s m where
  puts := h.puts
  left := fun k hk hheld => (h.left k hk hheld).imp_right (hA k hheld)

lemma Clearing.append (writes : List (Write Key Stored))
    (hbatch : s'.batch = s.batch ++ writes) (hputs : ∀ k v, Write.put k v ∈ writes → ¬IsMark k)
    (hA : ∀ k, A k → Write.delete k ∈ writes ∨ A' k) : Clearing A' s' m := by
  constructor
  · intro k v hput
    rw [hbatch] at hput
    rcases mem_append.1 hput with hput | hput
    · exact h.puts k v hput
    · exact hputs k v hput
  · intro k hk hheld
    rw [hbatch]
    rcases h.left k hk hheld with hdelete | hA'
    · exact .inl (mem_append_left _ hdelete)
    · exact (hA k hA').imp_left fun hdelete => mem_append_right _ hdelete

lemma Clearing.of_batch (hbatch : s'.batch = s.batch) : Clearing A s' m :=
  h.append [] (hbatch.trans (append_nil _).symm)
    (fun _ _ hput => absurd hput not_mem_nil) fun _ => .inr

lemma Clearing.flush : Clearing A s.flush m := by
  unfold SealState.flush
  split
  · exact h
  next pre segment hopened =>
    have hlive : ∀ k v, Write.put k v ∉ s.gathered.map fun live => (.delete live : Write Key Stored) := by
      intro k v hput
      obtain ⟨live, -, heq⟩ := List.mem_map.1 hput
      cases heq
    have hsegment : ¬IsMark (segmentKey pre segment) := by
      unfold IsMark
      rw [tagOf_segmentKey]
      decide
    split_ifs
    · exact h.of_batch rfl
    · refine h.append ((s.gathered.map fun live => .delete live) ++
        [.delete (segmentKey pre segment)]) (append_assoc ..) (fun k v hput => ?_) fun _ => .inr
      rcases mem_append.1 hput with hput | hput
      · exact absurd hput (hlive k v)
      · cases mem_singleton.1 hput
    · refine h.append ((s.gathered.map fun live => .delete live) ++ [.put
        (segmentKey pre segment) (.raw (encodeSegment (s.buffer.ids (segment * SEGMENT_SPAN))
          (segment * SEGMENT_SPAN)))]) (append_assoc ..) (fun k v hput => ?_) fun _ => .inr
      rcases mem_append.1 hput with hput | hput
      · exact absurd hput (hlive k v)
      · cases mem_singleton.1 hput
        exact hsegment

lemma Clearing.of_wrote {u : Bytes} {k : Key} (hk : IsMark k)
    (hheld : (wrote m s.batch u).get k ≠ none) : m.get k ≠ none ∧ A k := by
  have hmeta : k ≠ metaKey META_REVISION := by
    rintro rfl
    rcases hk with hk | hk
    · exact absurd hk (by decide)
    · exact absurd hk (by decide)
  rw [get_wrote, revised_of_ne hmeta] at hheld
  obtain ⟨v, hv⟩ := Option.ne_none_iff_exists'.1 hheld
  have hnot : Write.delete k ∉ s.batch := by
    intro hdelete
    have hnone : after m.get s.batch k = none := by
      refine after_of_exists ⟨_, hdelete, rfl⟩ fun w hw hkey => ?_
      cases w with
      | delete k' => rfl
      | put k' v' =>
        subst hkey
        exact absurd hk (h.puts k' v' hw)
    rw [hv] at hnone
    cases hnone
  rcases of_after_eq_some hv with hget | hput
  · have hget : m.get k ≠ none := by
      rw [hget]
      exact Option.some_ne_none v
    exact ⟨hget, (h.left k hk hget).resolve_left hnot⟩
  · exact absurd hk (h.puts k v hput)

lemma writeBatch_clearing :
    Prog.safeFrom (fun _ => True) (writeBatch claim) (fun _ s' m' => Clearing A s' m' ∧
      s'.batch = [] ∧ s'.opened = s.opened ∧ ∀ k, IsMark k → m'.get k ≠ none → m.get k ≠ none) s m := by
  refine safeFrom_bind (safeFrom_get (safeFrom_bind (safeFrom_lift
    (write_safe fun u => ⟨trivial, safeFrom_set ⟨⟨?_, ?_⟩, rfl, rfl, ?_⟩⟩))))
  · intro k v hput
    exact absurd hput not_mem_nil
  · intro k hk hheld
    exact .inr (h.of_wrote hk hheld).2
  · intro k hk hheld
    exact (h.of_wrote hk hheld).1

lemma openFor_clearing {id : ℕ} :
    Prog.safeFrom (fun _ => True) (openFor claim key id) (fun _ => Clearing A) s m := by
  unfold openFor
  refine safeFrom_bind (safeFrom_get (safeFrom_ite (fun _ => ?_) fun _ => ?_))
  · exact safeFrom_pure h
  · have hload : ∀ {s m}, Clearing A s m → Prog.safeFrom (fun _ => True) (do
        let existing ← StateT.lift (Prog.read (segmentKey (livePrefixOf key) (segmentOf id)))
        modify fun s => { s with
          opened := some (livePrefixOf key, segmentOf id)
          hadBlob := existing.isSome
          buffer := (decodeSegment (existing.elim [] blobBytes) 0).foldl SegmentBuffer.add .reset } :
            SealM PUnit) (fun _ => Clearing A) s m := by
      intro s m h
      exact safeFrom_bind (safeFrom_lift (safe_read.2
        (safeFrom_modify (h.of_batch rfl))))
    refine safeFrom_bind (safeFrom_modify (safeFrom_bind (safeFrom_get
      (safeFrom_ite (fun _ => ?_) fun _ => ?_))))
    · exact safeFrom_bind (safeFrom_mono (writeBatch_clearing h.flush)
        fun _ _ _ hwritten => hload hwritten.1)
    · exact hload h.flush

lemma take_clearing :
    Prog.safeFrom (fun _ => True) (take claim key) (fun _ => Clearing A) s m :=
  safeFrom_bind (safeFrom_mono (openFor_clearing h) fun _ _ _ h' =>
    safeFrom_modify (h'.of_batch rfl))

end

lemma clear_clearing (h : Clearing (fun k => k = key ∨ A k) s m) :
    Prog.safeFrom (fun _ => True) (clear claim key) (fun _ => Clearing A) s m := by
  refine safeFrom_bind (safeFrom_mono (openFor_clearing h) fun _ s' m' h' =>
    safeFrom_modify (h'.append [.delete key] rfl (fun k v hput => ?_)
      fun k hk => ?_))
  · cases mem_singleton.1 hput
  · rcases hk with rfl | hk
    · exact .inl (mem_singleton_self _)
    · exact .inr hk

lemma forM_take_clearing {l : List (Key × Stored)} (h : Clearing A s m) :
    Prog.safeFrom (fun _ => True) (l.forM fun entry => take claim entry.1) (fun _ => Clearing A) s m :=
  safeFrom_forM (fun _ => Clearing A) (fun _ _ _ _ => take_clearing) (fun _ _ => id) h

lemma sweepTag_clearing (h : Clearing A s m) :
    Prog.safeFrom (fun _ => True) (sweepTag claim tag) (fun _ => Clearing A) s m :=
  safeFrom_bind (safeFrom_lift (scanM_safe (safeFrom_bind
    (safeFrom_mono (forM_take_clearing h) fun _ _ _ h' => safeFrom_modify h'.flush))))

lemma takeMarked_clearing (h : Clearing (fun k => k = key ∨ A k) s m) :
    Prog.safeFrom (fun _ => True) (takeMarked claim key) (fun _ => Clearing A) s m := by
  refine safeFrom_bind (safeFrom_lift (scanM_safe (safeFrom_bind
    (safeFrom_mono (forM_take_clearing h) fun _ s' m' h' => safeFrom_modify
      (h'.append [.delete key] rfl (fun k v hput => ?_) fun k hk => ?_)))))
  · cases mem_singleton.1 hput
  · rcases hk with rfl | hk
    · exact .inl (mem_singleton_self _)
    · exact .inr hk

lemma scan_clearing (htag : tag ≠ 0) {f : Key × Stored → SealM PUnit} (hf : ∀ entry {A : Key → Prop} {s m},
      Clearing (fun k => k = entry.1 ∨ A k) s m →
      Prog.safeFrom (fun _ => True) (f entry) (fun _ => Clearing A) s m) (h : Clearing A s m) :
    Prog.safeFrom (fun _ => True) (do
      (← StateT.lift (scanM [tag] none none)).forM f
      modify SealState.flush) (fun _ => Clearing fun k => A k ∧ tagOf k ≠ tag) s m := by
  refine safeFrom_bind (safeFrom_lift (scanM_safe (safeFrom_bind
    (safeFrom_forM (fun rest => Clearing fun k => k ∈ rest.map Prod.fst ∨
      (A k ∧ tagOf k ≠ tag)) ?_ ?_ ?_))))
  · intro entry rest s m h
    refine hf entry (h.mono fun k _ hk => ?_)
    rw [map_cons, mem_cons, or_assoc] at hk
    exact hk
  · intro s m h
    refine safeFrom_modify (h.mono fun k _ hk => ?_).flush
    exact hk.resolve_left not_mem_nil
  · refine h.mono fun k hheld hk => ?_
    by_cases hdirty : tagOf k = tag
    · exact .inl (mem_scan_of_tag htag hdirty hheld)
    · exact .inr ⟨hk, hdirty⟩

lemma marks_clearing (claim : WriterClaim) (h : Clearing A s m) : Prog.safeFrom (fun _ => True) (do
      (← StateT.lift (scanM [Tag.dirty] none none)).forM fun mark => takeMarked claim mark.1
      modify SealState.flush) (fun _ => Clearing fun k => A k ∧ tagOf k ≠ Tag.dirty) s m :=
  scan_clearing (by decide) (fun _ => takeMarked_clearing) h

lemma tombstones_clearing (claim : WriterClaim) (h : Clearing A s m) : Prog.safeFrom (fun _ => True) (do
      (← StateT.lift (scanM [Tag.tombstone] none none)).forM fun entry => clear claim entry.1
      modify SealState.flush) (fun _ => Clearing fun k => A k ∧ tagOf k ≠ Tag.tombstone) s m :=
  scan_clearing (by decide) (fun _ => clear_clearing) h

lemma writeRest_clearing {k : SealM PUnit} {R : PUnit → SealState → Store → Prop}
    (h : Clearing A s m) (hk : ∀ s' m', Clearing A s' m' → s'.batch = [] →
      Prog.safeFrom (fun _ => True) k R s' m') :
    Prog.safeFrom (fun _ => True) (do
      if (← get).batch ≠ [] then writeBatch claim
      k) R s m := by
  refine safeFrom_bind (safeFrom_get (safeFrom_ite (fun _ => ?_) fun hempty => ?_))
  · exact safeFrom_bind (safeFrom_mono (writeBatch_clearing h)
      fun _ _ _ hwritten => hk _ _ hwritten.1 hwritten.2.1)
  · exact hk s m h (not_not.1 hempty)

lemma lastWrite_clearing (h : Clearing (fun _ => False) s m) : Prog.safeFrom (fun _ => True) (do
      if (← get).batch ≠ [] then writeBatch claim : SealM PUnit)
      (fun _ _ m' => ∀ k, IsMark k → m'.get k = none) s m := by
  have hdone : ∀ s m, Clearing (fun _ => False) s m → s.batch = [] → ∀ k, IsMark k → m.get k = none := by
    intro s m h hbatch k hk
    by_contra hheld
    rcases h.left k hk hheld with hdelete | hfalse
    · rw [hbatch] at hdelete
      cases hdelete
    · exact hfalse
  refine safeFrom_bind (safeFrom_get (safeFrom_ite (fun _ => ?_) fun hempty => ?_))
  · exact safeFrom_mono (writeBatch_clearing h) fun _ s' m' hwritten =>
      hdone s' m' hwritten.1 hwritten.2.1
  · exact safeFrom_pure (hdone s m h (not_not.1 hempty))

theorem rest_clearing (claim : WriterClaim) (first : Bool) (h : Clearing A s m)
    (hA : first = false → ∀ k, A k → tagOf k ≠ Tag.dirty) :
    Prog.safeFrom (fun _ => True) (afterFolding claim first) (fun _ _ m' => ∀ k, IsMark k → m'.get k = none) s m := by
  refine writeRest_clearing h fun s₁ m₁ h₁ _ => ?_
  have hlast : ∀ s m, Clearing (fun k => A k ∧ tagOf k ≠ Tag.tombstone) s m → Prog.safeFrom (fun _ => True)
      (lastWrites claim first) (fun _ _ m' => ∀ k, IsMark k → m'.get k = none) s m := by
    intro s m h
    refine safeFrom_ite (fun _ => ?_) fun hsecond => ?_
    · refine safeFrom_bind (safeFrom_lift (scanM_safe (safeFrom_bind
        (safeFrom_modify (lastWrite_clearing ?_)))))
      constructor
      · intro k v hput
        rcases mem_append.1 hput with hput | hput
        · rcases mem_append.1 hput with hput | hput
          · exact h.puts k v hput
          · obtain ⟨mark, -, heq⟩ := List.mem_map.1 hput
            cases heq
        · cases mem_singleton.1 hput
          unfold IsMark
          decide
      · intro k hk hheld
        refine .inl (mem_append_left _ ?_)
        rcases h.left k hk hheld with hdelete | ⟨-, htomb⟩
        · exact mem_append_left _ hdelete
        · refine mem_append_right _ ?_
          obtain ⟨entry, hentry, rfl⟩ := List.mem_map.1
            (mem_scan_of_tag (by decide) (hk.resolve_left htomb) hheld)
          exact List.mem_map.2 ⟨entry, hentry, rfl⟩
    · refine lastWrite_clearing ⟨h.puts, fun k hk hheld => .inl ?_⟩
      rcases h.left k hk hheld with hdelete | ⟨hA', htomb⟩
      · exact hdelete
      · exact absurd (hk.resolve_left htomb) (hA (Bool.eq_false_iff.2 hsecond) k hA')
  have hclear := safeFrom_bind (safeFrom_mono (tombstones_clearing claim h₁)
    fun _ s₂ m₂ h₂ => hlast s₂ m₂ h₂)
  simpa only [bind_assoc] using hclear

lemma sealPostings_marks (claim : WriterClaim) (m : Store) :
    (sealPostings claim).safe (fun _ => True) (fun _ m' => ∀ k, IsMark k → m'.get k = none) m := by
  refine exclusive_safe (safe_bind.2 (readMeta_safe fun swept _ => ?_))
  refine safe_bind.2 (write_safe fun u => ⟨trivial, safe_bind.2 ?_⟩)
  refine safe_mono (R := fun _ m' => ∀ k, IsMark k → m'.get k = none) ?_
    fun _ _ h => safe_pure.2 h
  have hstart : Clearing (fun _ => True) { revision := some (.raw u) }
      (wrote m [.put (metaKey META_SEALED) (.raw (writeU32 1))] u) :=
    ⟨fun _ _ hput => absurd hput not_mem_nil, fun _ _ _ => .inr trivial⟩
  change Prog.safeFrom (fun _ => True) _ (fun _ _ m' => ∀ k, IsMark k → m'.get k = none) _ _
  refine safeFrom_ite (fun hfirst => ?_) fun hsecond => ?_
  · have hsweep : Prog.safeFrom (fun _ => True) (SEALABLE_TAGS.forM (sweepTag claim))
        (fun _ => Clearing fun _ => True) _ _ :=
      safeFrom_forM (fun _ => Clearing fun _ => True) (fun _ _ _ _ h => sweepTag_clearing h)
        (fun _ _ h => h) hstart
    refine safeFrom_bind (safeFrom_mono hsweep fun _ s m h => ?_)
    exact rest_clearing claim _ h fun hnot => absurd (hfirst.symm.trans hnot) (by decide)
  · have hmarks := safeFrom_bind (safeFrom_mono (marks_clearing claim hstart)
      fun _ s₂ m₂ h₂ => rest_clearing claim (!decide (0 < swept)) h₂
        fun _ _ hk => hk.2)
    simpa only [afterFolding, lastWrites, bind_assoc] using hmarks

end

end Zelavis.Db.SealMarks
