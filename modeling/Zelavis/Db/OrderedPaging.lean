import Zelavis.Db.OrderedAnswers
import Zelavis.Db.TierRuns

/-!
# Ordered reads page by page

A read that goes on from the cursor of its last page gives the postings that the manifests hold in its
range, each once and in its direction.
-/

namespace Zelavis.Db.OrderedReads

open Lib OrderedMap List

variable {W : Seq → IndexManifest → Prop} {m : Store} {partition : Utf16} {input : OrderedReadInput}
  {filter : Option Postings} {page : OrderedPage} {rows : List Row} {range : KeyBounds}

/-- A posting in the range of a read that the manifests hold, past the read's cursor. -/
structure Due (m : Store) (range : KeyBounds) (input : OrderedReadInput) (P : Key) : Prop where
  posting : IsPosting P
  column : orderedColumnPrefix input.column <+: P
  within : Within range.lo range.hi P
  holds : Holds m.get P
  past : ∀ cursor ∈ input.after, Before (input.direction = .desc) cursor.key P

/-- The rows of some keys, without those that the filter refuses. -/
def rowsOf (filter : Option Postings) (keys : List Key) : List Row :=
  keys.filterMap fun key => (rowOf [] filter key).toOption.join

/-- The keys due, and how a page's rows come from the first of them. -/
lemma IsPage.rows_eq (h : Tiers W m.get) (hpage : IsPage partition m input (.ok page))
    (hrange : rangeBounds input.column input.lower input.upper = some range)
    (hf : filterOf m input.query = .ok filter)
    (hsound : ∀ cursor ∈ input.after, SoundCursor input.direction cursor) :
    ∃ front back, (front ++ back).Pairwise (Before (input.direction = .desc)) ∧
      (∀ P, P ∈ front ++ back ↔ Due m range input P) ∧ page = pageOf partition input (rowsOf filter front) ∧
      0 < input.limit.toNat ∧ ((rowsOf filter front).length ≤ input.limit.toNat → back = []) := by
  obtain ⟨least, hleast⟩ := hpage
  have hread := hleast least le_rfl
  rw [readOrdered, hf] at hread
  cases hb : input.bounds partition with
  | error fault => simp [hb] at hread
  | ok bounds =>
    obtain ⟨hlimit, range', hrange', hbounds⟩ := bounds_eq_ok hb
    cases hrange.symm.trans hrange'
    obtain ⟨least', hleast'⟩ := isPage_of_bounds hb hf
    have heq := Option.some.inj ((hleast (max least least') (le_max_left ..)).symm.trans
      (hleast' (max least least') (le_max_right ..)))
    have hsorted := @foundKeys_sorted W m ⟨orderedColumnPrefix input.column, bounds.lo, bounds.hi,
      input.direction = .desc⟩ h bounds.sealedLo bounds.sealedHi
    have hwithin : ∀ P, Within bounds.lo bounds.hi P ↔ Within range.lo range.hi P ∧
        ∀ cursor ∈ input.after, Before (input.direction = .desc) cursor.key P := by
      intro P
      rw [hbounds]
      cases input.after with
      | none => simp [KeyBounds.forRead]
      | some cursor => simpa using within_continued range input.direction cursor.key
    have hmem := fun P => @mem_foundKeys W m ⟨orderedColumnPrefix input.column, bounds.lo, bounds.hi,
      input.direction = .desc⟩ input.column P bounds.sealedLo bounds.sealedHi h rfl fun P hP hwritten hp hwithin =>
        covers hb hsound hP hwritten hp hwithin
    cases hrows : firstRows (rowOf [] filter) (input.limit.toNat + 1) (foundKeys m ⟨orderedColumnPrefix input.column,
        bounds.lo, bounds.hi, input.direction = .desc⟩ bounds.sealedLo bounds.sealedHi) with
    | error fault => simp [hrows, Except.map] at heq
    | ok rows =>
      simp only [hrows, Except.map, Except.ok.injEq] at heq
      obtain ⟨front, back, hkeys, rfl, -, hback⟩ := firstRows_eq_ok hrows
      rw [hkeys] at hsorted hmem
      refine ⟨front, back, hsorted, fun P => ?_, heq, Int.lt_toNat.2 hlimit, fun hle => hback (Nat.lt_succ_of_le hle)⟩
      rw [hmem, hwithin]
      constructor
      · rintro ⟨hP, hp, hw, hh⟩
        exact ⟨hP, hp, hw.1, hh, hw.2⟩
      · intro hdue
        exact ⟨hdue.posting, hdue.column, ⟨hdue.within, hdue.past⟩, hdue.holds⟩

end Zelavis.Db.OrderedReads
