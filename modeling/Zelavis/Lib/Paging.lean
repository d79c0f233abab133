import Mathlib.Data.List.Perm.Subperm
import Mathlib.Data.List.Sort
import Mathlib.Order.Basic

/-!
# Following a list page by page

A reader of a list in ascending key order takes a page of what is alive past a key, and goes on from
the last entry of the page. What is alive may change from one page to the next.
-/

namespace Zelavis.Lib.Paging

open List

variable {E K : Type} [LinearOrder K] (key : E → K)

def beyond (after : Option K) (l : List E) : List E := l.filter fun e => after.all fun k => k < key e

def alive (live : E → Bool) (after : Option K) (l : List E) : List E := (beyond key after l).filter live

/-- The first so many of those, and the one to go on from if there are more. -/
def page (live : E → Bool) (limit : ℕ) (after : Option K) (l : List E) : List E × Option E :=
  ((alive key live after l).take limit,
    if limit < (alive key live after l).length then ((alive key live after l).take limit).getLast?
    else none)

/-- The pages one after the other, until there is no more; none where they run out before. -/
def follow (l : List E) (limit : ℕ) : Option K → List (E → Bool) → Option (List E)
  | _, [] => none
  | after, live :: lives =>
    match (page key live limit after l).2 with
    | none => some (page key live limit after l).1
    | some last =>
      (follow l limit (some (key last)) lives).map ((page key live limit after l).1 ++ ·)

def Sorted (l : List E) : Prop := l.Pairwise fun a b => key a < key b

variable {key} {l : List E} {live : E → Bool} {after : Option K} {limit : ℕ}

lemma Sorted.nodup (h : Sorted key l) : l.Nodup :=
  h.imp fun hab heq => absurd (heq ▸ hab) (lt_irrefl _)

lemma Sorted.filter (h : Sorted key l) (p : E → Bool) : Sorted key (l.filter p) :=
  List.Pairwise.filter p h

/-! ## One page -/

variable {e : E}

lemma mem_beyond : e ∈ beyond key after l ↔ e ∈ l ∧ ∀ k ∈ after, k < key e := by
  rw [beyond, mem_filter]
  cases after with
  | none | some => simp

lemma mem_alive : e ∈ alive key live after l ↔ e ∈ l ∧ (∀ k ∈ after, k < key e) ∧ live e = true := by
  rw [alive, mem_filter, mem_beyond, and_assoc]

lemma alive_sorted (hl : Sorted key l) : Sorted key (alive key live after l) :=
  (hl.filter _).filter _

lemma mem_of_mem_page (h : e ∈ (page key live limit after l).1) :
    e ∈ alive key live after l := mem_of_mem_take h

variable {last : E}

lemma page_next (h : (page key live limit after l).2 = some last) :
    ∃ front, (page key live limit after l).1 = front ++ [last] := by
  unfold page at h ⊢
  split_ifs at h with hmore
  exact List.getLast?_eq_some_iff.1 h

lemma mem_page_next (h : (page key live limit after l).2 = some last) :
    last ∈ (page key live limit after l).1 := by
  obtain ⟨front, hfront⟩ := page_next h
  rw [hfront]
  exact mem_append_right _ mem_cons_self

lemma le_page_next (hl : Sorted key l) {last e : E} (h : (page key live limit after l).2 = some last)
    (he : e ∈ (page key live limit after l).1) : key e ≤ key last := by
  obtain ⟨front, hfront⟩ := page_next h
  have hpage : Sorted key (page key live limit after l).1 :=
    List.Pairwise.sublist (take_sublist ..) (alive_sorted hl)
  rw [hfront] at he hpage
  rcases mem_append.1 he with he | he
  · exact ((pairwise_append.1 hpage).2.2 e he last mem_cons_self).le
  · rw [mem_singleton.1 he]

lemma lt_of_notMem_page (hl : Sorted key l) {last e : E}
    (h : (page key live limit after l).2 = some last) (he : e ∈ alive key live after l)
    (hpage : e ∉ (page key live limit after l).1) : key last < key e := by
  have hsplit := take_append_drop limit (alive key live after l)
  have hsorted : Sorted key (alive key live after l) := alive_sorted hl
  rw [← hsplit] at he hsorted
  rcases mem_append.1 he with he | he
  · exact absurd he hpage
  · exact (pairwise_append.1 hsorted).2.2 last (mem_page_next h) e he

lemma page_of_last (hlimit : 0 < limit) (h : (page key live limit after l).2 = none) :
    (page key live limit after l).1 = alive key live after l := by
  unfold page at h ⊢
  split_ifs at h with hmore
  · rw [List.getLast?_eq_none_iff, take_eq_nil_iff] at h
    rcases h with hzero | hnil
    · exact absurd hzero hlimit.ne'
    · rw [hnil, take_nil]
  · exact take_of_length_le (not_lt.1 hmore)

lemma length_beyond_next (hl : Sorted key l) (h : (page key live limit after l).2 = some last) :
    (beyond key (some (key last)) l).length < (beyond key after l).length := by
  have hlast := mem_of_mem_page (mem_page_next h)
  obtain ⟨hmem, hafter, -⟩ := mem_alive.1 hlast
  -- the last of the page is past the key, and not past itself
  have hcons : (last :: beyond key (some (key last)) l).Subperm (beyond key after l) := by
    apply subperm_of_subset
    · refine nodup_cons.2 ⟨fun hself => ?_, (hl.filter _).nodup⟩
      exact lt_irrefl _ ((mem_beyond.1 hself).2 (key last) rfl)
    · intro e he
      rcases mem_cons.1 he with rfl | he
      · exact mem_beyond.2 ⟨hmem, hafter⟩
      · obtain ⟨hel, hlt⟩ := mem_beyond.1 he
        exact mem_beyond.2 ⟨hel, fun k hk => (hafter k hk).trans (hlt (key last) rfl)⟩
  exact hcons.length_le

/-! ## All the pages -/

variable {lives : List (E → Bool)} {all : List E}

/-- The pages together: in order, so each entry once; nothing that was never alive, and everything
that always was. -/
theorem follow_sound (hl : Sorted key l) (hlimit : 0 < limit)
    (h : follow key l limit after lives = some all) : Sorted key all ∧
      (∀ e ∈ all, e ∈ l ∧ (∀ k ∈ after, k < key e) ∧ ∃ live ∈ lives, live e = true) ∧
      ∀ e ∈ l, (∀ k ∈ after, k < key e) → (∀ live ∈ lives, live e = true) → e ∈ all := by
  induction lives generalizing after all with
  | nil => cases h
  | cons live lives ih =>
    rw [follow] at h
    cases hnext : (page key live limit after l).2 with
    | none =>
      rw [hnext] at h
      cases h
      rw [page_of_last hlimit hnext]
      refine ⟨alive_sorted hl, fun e he => ?_, fun e he hafter hlive => ?_⟩
      · obtain ⟨hmem, hafter, hlive⟩ := mem_alive.1 he
        exact ⟨hmem, hafter, live, mem_cons_self, hlive⟩
      · exact mem_alive.2 ⟨he, hafter, hlive live mem_cons_self⟩
    | some last =>
      rw [hnext] at h
      obtain ⟨rest, hrest, rfl⟩ := Option.map_eq_some_iff.1 h
      obtain ⟨hsorted, hsound, hcomplete⟩ := ih hrest
      have hpage : Sorted key (page key live limit after l).1 :=
        List.Pairwise.sublist (take_sublist ..) (alive_sorted hl)
      refine ⟨pairwise_append.2 ⟨hpage, hsorted, fun a ha b hb => ?_⟩, fun e he => ?_,
        fun e he hafter hlive => ?_⟩
      · exact (le_page_next hl hnext ha).trans_lt ((hsound b hb).2.1 _ rfl)
      · rcases mem_append.1 he with he | he
        · obtain ⟨hmem, hafter, hlive⟩ := mem_alive.1 (mem_of_mem_page he)
          exact ⟨hmem, hafter, live, mem_cons_self, hlive⟩
        · obtain ⟨hmem, hlt, live', hlive', hlive⟩ := hsound e he
          refine ⟨hmem, fun k hk => ?_, live', mem_cons_of_mem _ hlive', hlive⟩
          have hk := (mem_alive.1 (mem_of_mem_page (mem_page_next hnext))).2.1 k hk
          exact hk.trans (hlt _ rfl)
      · by_cases hmem : e ∈ (page key live limit after l).1
        · exact mem_append_left _ hmem
        · have halive : e ∈ alive key live after l :=
            mem_alive.2 ⟨he, hafter, hlive live mem_cons_self⟩
          apply mem_append_right
          refine hcomplete e he (fun k hk => ?_) fun live' hlive' =>
            hlive live' (mem_cons_of_mem _ hlive')
          cases hk
          exact lt_of_notMem_page hl hnext halive hmem

lemma follow_mono {lives lives' : List (E → Bool)} (hle : lives <+: lives')
    (h : follow key l limit after lives = some all) : follow key l limit after lives' = some all := by
  induction lives generalizing lives' after all with
  | nil => cases h
  | cons live lives ih =>
    obtain ⟨more, rfl⟩ := hle
    rw [cons_append]
    rw [follow] at h ⊢
    cases hnext : (page key live limit after l).2 with
    | none =>
      rw [hnext] at h
      exact h
    | some last =>
      rw [hnext] at h
      obtain ⟨rest, hrest, rfl⟩ := Option.map_eq_some_iff.1 h
      dsimp only
      rw [ih (prefix_append lives more) hrest]
      rfl

lemma follow_isSome (hl : Sorted key l)
    (h : (beyond key after l).length < lives.length) : (follow key l limit after lives).isSome = true := by
  induction lives generalizing after with
  | nil => exact absurd h (Nat.not_lt_zero _)
  | cons live lives ih =>
    rw [follow]
    cases hnext : (page key live limit after l).2 with
    | none => rfl
    | some last =>
      rw [Option.isSome_map]
      apply ih
      have hless := length_beyond_next hl hnext
      rw [length_cons] at h
      omega

end Zelavis.Lib.Paging
