import Zelavis.Db.OrderedAnswers
import Zelavis.Db.SealMarks

/-!
# A seal stopped on the way

A seal writes batch by batch, and none of its batches changes what the manifests say: a store in which
one was stopped answers as before, takes later writes, and is sealed again like any other.
-/

namespace Zelavis.Db

open Lib OrderedMap SameAnswers OrderedReads

/-- Two stores answer alike: every query whose term prefixes are answered by their postings in both,
and every page of an ordered read, filtered by such a query and continued where a read stopped. -/
def SameAnswers (m m' : Store) : Prop :=
  (∀ q, Steady m q → Steady m' q → resolve m' q = resolve m q) ∧
    ∀ partition input, (∀ cursor ∈ input.after, SoundCursor input.direction cursor) →
      (∀ q ∈ input.query, Steady m q ∧ Steady m' q) →
        ∃ page, IsPage partition m input page ∧ IsPage partition m' input page

variable {m m' : Store}

lemma sameAnswers_of_manifests {W : Seq → IndexManifest → Prop}
    (h : Tiers W m.get) (h' : Tiers W m'.get) (hW : Below W)
    (hman : manifestAt m' = manifestAt m) : SameAnswers m m' := by
  refine ⟨fun q hq hq' => (agree h h' hW (holds_congr hman) hq hq').resolve, ?_⟩
  intro partition input hsound hquery
  exact page_congr h h' hW (holds_congr hman) partition hsound hquery

def Onward (cond : Conditions) : Store → Store → Prop :=
  Relation.ReflTransGen fun m m' =>
    ∃ claim op, StoreOp.Meets cond claim m op ∧ (op.prog claim).Reaches m m'

variable {cond : Conditions}

lemma Reachable.onward (h : Reachable cond m) (hlater : Onward cond m m') : Reachable cond m' := by
  induction hlater with
  | refl => exact h
  | tail _ hstep ih =>
    obtain ⟨claim, op, hmeets, hreach⟩ := hstep
    exact ih.step claim op hmeets hreach

variable {claim : WriterClaim}

lemma onward_run {u : Bytes} {ops : List StoreOp}
    (m : Store) (hmeets : ∀ op ∈ ops, ∀ m, op.Meets cond claim m) :
    Onward cond m (runStoreOps claim u ops m) := by
  induction ops generalizing m with
  | nil => exact .refl
  | cons op ops ih =>
    refine .head ⟨claim, op, hmeets op (List.mem_cons_self ..) m,
      (Prog.returns_run u (op.prog claim) m).reaches⟩ ?_
    exact ih _ fun op hop => hmeets op (List.mem_cons_of_mem _ hop)

lemma sameAnswers_of_seal (h : Reachable idsBelow m)
    (hseal : (StoreOp.sealPostings.prog claim).Reaches m m') : SameAnswers m m' :=
  sameAnswers_of_manifests h.tiers (h.step claim .sealPostings trivial hseal).tiers below_idsBelow
    (manifestAt_of_seal h.tiers hseal)

lemma marks_of_seal (hseal : (StoreOp.sealPostings.prog claim).Returns m (.ok ()) m') :
    ∀ k, SealMarks.IsMark k → m'.get k = none := by
  have hsafe : (StoreOp.sealPostings.prog claim).safe (fun _ => True)
      (fun _ m' => ∀ k, SealMarks.IsMark k → m'.get k = none) m :=
    Prog.safe_bind.2 (Prog.safe_mono (SealMarks.sealPostings_marks claim m)
      fun _ _ h => Prog.safe_pure.2 h)
  exact Prog.safe_returns hsafe hseal

/-- In every run that writes no identifier from `2 ^ 31` on, a seal stopped anywhere changes no answer,
and after any later operations a seal that finishes again changes no answer and leaves neither
tombstones nor dirty marks. -/
theorem stopped_seal {m m₁ m₂ m₃ : Store} {claim claim' : WriterClaim} (h : Reachable idsBelow m)
    (hstop : (StoreOp.sealPostings.prog claim).Reaches m m₁) (hlater : Onward idsBelow m₁ m₂)
    (hseal : (StoreOp.sealPostings.prog claim').Returns m₂ (.ok ()) m₃) :
    SameAnswers m m₁ ∧ SameAnswers m₂ m₃ ∧ ∀ k, SealMarks.IsMark k → m₃.get k = none := by
  have h₁ : Reachable idsBelow m₁ := h.step claim .sealPostings trivial hstop
  exact ⟨sameAnswers_of_seal h hstop, sameAnswers_of_seal (h₁.onward hlater) hseal.reaches,
    marks_of_seal hseal⟩

/-- The store a run on fixed inputs leaves after an object with two terms was sealed and one of them
taken away. -/
def lostTerm : Store :=
  ranFrom [.transact [putTerms 1 [utf16 "ab", utf16 "ac"]], .sealPostings,
    .transact [putTerms 1 [utf16 "ac"]]]

def sealedFrom (m : Store) : Store := ((StoreOp.sealPostings.prog fixedClaim).run [7] m).2

lemma reaches_sealedFrom (m : Store) : (StoreOp.sealPostings.prog fixedClaim).Reaches m (sealedFrom m) :=
  (Prog.returns_run [7] (StoreOp.sealPostings.prog fixedClaim) m).reaches

lemma returns_sealedFrom {m : Store} (hok : ((StoreOp.sealPostings.prog fixedClaim).run [7] m).1 = .ok ()) :
    (StoreOp.sealPostings.prog fixedClaim).Returns m (.ok ()) (sealedFrom m) := by
  have hruns := Prog.returns_run [7] (StoreOp.sealPostings.prog fixedClaim) m
  rw [hok] at hruns
  exact hruns

/-- A seal takes off the tombstone of one term, and an object is found by another it kept. -/
theorem not_stopped_seal : ¬ ∀ m, Reachable {} m → ∀ claim m',
    (StoreOp.sealPostings.prog claim).Reaches m m' → ∀ q, resolve m' q = resolve m q := by
  intro h
  have hsame := h lostTerm (reachable_ranFrom _) fixedClaim _ (reaches_sealedFrom lostTerm)
    (.termPrefix (utf16 "f") (utf16 "a"))
  have hbefore : resolve lostTerm (.termPrefix (utf16 "f") (utf16 "a")) = some [] := by
    decide +kernel
  have hafter : resolve (sealedFrom lostTerm) (.termPrefix (utf16 "f") (utf16 "a")) = some [1] := by
    decide +kernel
  rw [hbefore, hafter] at hsame
  exact absurd hsame (by decide)

def twoObjects : Store :=
  ranFrom [.transact [putTerms 1 [utf16 "a", utf16 "b"], putTerms 2 [utf16 "a"]]]

def writtenAgain : Store :=
  runStoreOps fixedClaim [7] [.transact [putTerms 1 [utf16 "a"]]] (sealedFrom twoObjects)

lemma onward_writtenAgain : Onward idsBelow (sealedFrom twoObjects) writtenAgain := by
  refine onward_run _ fun op hop m => ?_
  obtain rfl := List.mem_singleton.1 hop
  exact StoreOp.meets_of_isLow (by decide) fixedClaim m

theorem stopped_seal_fixed : SameAnswers twoObjects (sealedFrom twoObjects) ∧
      SameAnswers writtenAgain (sealedFrom writtenAgain) ∧
        ∀ k, SealMarks.IsMark k → (sealedFrom writtenAgain).get k = none :=
  stopped_seal (reachable_of_isLow (by decide)) (reaches_sealedFrom twoObjects) onward_writtenAgain
    (returns_sealedFrom (by decide +kernel))

end Zelavis.Db
