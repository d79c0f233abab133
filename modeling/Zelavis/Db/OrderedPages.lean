import Zelavis.Db.OrderedReads
import Zelavis.Db.Ranges
import Zelavis.Lib.Merge

/-!
# What an ordered read pulls

Chunks and blobs are pulled as the merge runs dry, so what has been pulled and what is left together
are always the whole of a tier in the direction of the read.
-/

namespace Zelavis.Db.OrderedReads

open Lib OrderedMap List

/-! ## Directions -/

def Before (reverse : Bool) (a b : Key) : Prop := if reverse then b < a else a < b

instance (reverse : Bool) : DecidableRel (Before reverse) := fun a b =>
  inferInstanceAs (Decidable (if reverse then b < a else a < b))

instance (reverse : Bool) : IsStrictTotalOrder Key (Before reverse) := by
  cases reverse with
  | false => exact inferInstanceAs (IsStrictTotalOrder Key (· < ·))
  | true => exact inferInstanceAs (IsStrictTotalOrder Key (· > ·))

variable {a b : Key}

lemma first_iff {reverse : Bool} : first reverse a b = true ↔ Before reverse a b := by
  cases reverse with
  | false => exact decide_eq_true_iff.trans (compareKeys_neg_iff a b)
  | true => exact decide_eq_true_iff.trans (compareKeys_pos_iff a b)

section

variable {α β : Type} {reverse : Bool} {l : List α}

@[simp] lemma mem_directed {a : α} : a ∈ directed reverse l ↔ a ∈ l := by
  cases reverse with
  | false => exact Iff.rfl
  | true => exact mem_reverse

lemma map_directed (f : α → β) : (directed reverse l).map f = directed reverse (l.map f) := by
  cases reverse with
  | false => rfl
  | true => exact map_reverse

lemma pairwise_directed {keys : List Key} (h : keys.Pairwise (· < ·)) :
    (directed reverse keys).Pairwise (Before reverse) := by
  cases reverse with
  | false => exact h
  | true => exact pairwise_reverse.2 h

end

/-! ## Scans -/

lemma successorOf_le_iff : successorOf a ≤ b ↔ a < b := by
  rw [← not_lt]
  induction a generalizing b with
  | nil =>
    cases b with
    | nil => simp [successorOf]
    | cons b bs =>
      have hzero : ¬b < (0 : Byte) := not_lt.2 (Fin.zero_le b)
      simp [successorOf, cons_lt_cons_iff, hzero]
  | cons x a ih =>
    cases b with
    | nil => simp [successorOf]
    | cons b bs =>
      have hcons : successorOf (x :: a) = x :: successorOf a := rfl
      rw [hcons, cons_lt_cons_iff, cons_lt_cons_iff, not_or, not_and, not_lt]
      constructor
      · rintro ⟨hle, hrest⟩
        rcases hle.lt_or_eq with hlt | rfl
        · exact Or.inl hlt
        · exact Or.inr ⟨rfl, ih.1 (hrest rfl)⟩
      · rintro (hlt | ⟨rfl, hlt⟩)
        · exact ⟨hlt.le, fun heq => absurd heq.symm hlt.ne⟩
        · exact ⟨le_rfl, fun _ => ih.2 hlt⟩

section

variable {m : Store} {pre : Key} {lo hi : Option Key} {front back : List (Key × Stored)}
  {entry : Key × Stored}

lemma mem_of_scan_eq {entries : List (Key × Stored)} (h : scan m pre lo hi = entries) (e : Key × Stored) :
    e ∈ entries ↔ m.get e.1 = some e.2 ∧ pre <+: e.1 ∧ (∀ l ∈ lo, l ≤ e.1) ∧ ∀ u ∈ hi, e.1 < u := by
  rw [← h]
  exact mem_scan

lemma scan_after (h : scan m pre lo hi = front ++ entry :: back) :
    scan m pre (some (successorOf entry.1)) hi = back := by
  have hsorted := scan_sorted m pre lo hi
  rw [h] at hsorted
  obtain ⟨-, hback, hfront⟩ := pairwise_append.1 hsorted
  obtain ⟨hafter, hback⟩ := pairwise_cons.1 hback
  refine OrderedMap.entries_ext (scan_sorted ..) hback fun e => ?_
  have hmem := mem_of_scan_eq h
  constructor
  · intro he
    obtain ⟨hget, hpre, hlo, hhi⟩ := mem_scan.1 (show (e.1, e.2) ∈ _ from he)
    have hlt : entry.1 < e.1 := successorOf_le_iff.1 (hlo _ rfl)
    have hold : e ∈ front ++ entry :: back := by
      refine (hmem e).2 ⟨hget, hpre, fun l hl => ?_, hhi⟩
      have hentry := (hmem entry).1 (mem_append_right _ mem_cons_self)
      exact (hentry.2.2.1 l hl).trans hlt.le
    rcases mem_append.1 hold with hold | hold
    · exact absurd (hfront e hold entry mem_cons_self) (not_lt.2 hlt.le)
    · rcases mem_cons.1 hold with rfl | hold
      · exact absurd hlt (lt_irrefl _)
      · exact hold
  · intro he
    obtain ⟨hget, hpre, -, hhi⟩ :=
      (hmem e).1 (mem_append_right _ (mem_cons_of_mem _ he))
    refine mem_scan.2 ⟨hget, hpre, fun l hl => ?_, hhi⟩
    rw [← Option.some.inj hl]
    exact successorOf_le_iff.2 (hafter e he)

lemma scan_before (h : scan m pre lo hi = front ++ entry :: back) :
    scan m pre lo (some entry.1) = front := by
  have hsorted := scan_sorted m pre lo hi
  rw [h] at hsorted
  obtain ⟨hfront, hback, hbefore⟩ := pairwise_append.1 hsorted
  refine OrderedMap.entries_ext (scan_sorted ..) hfront fun e => ?_
  have hmem := mem_of_scan_eq h
  constructor
  · intro he
    obtain ⟨hget, hpre, hlo, hhi⟩ := mem_scan.1 (show (e.1, e.2) ∈ _ from he)
    have hlt : e.1 < entry.1 := hhi _ rfl
    have hold : e ∈ front ++ entry :: back := by
      refine (hmem e).2 ⟨hget, hpre, hlo, fun u hu => ?_⟩
      have hentry := (hmem entry).1 (mem_append_right _ mem_cons_self)
      exact hlt.trans (hentry.2.2.2 u hu)
    rcases mem_append.1 hold with hold | hold
    · exact hold
    · rcases mem_cons.1 hold with rfl | hold
      · exact absurd hlt (lt_irrefl _)
      · exact absurd ((pairwise_cons.1 hback).1 e hold) (not_lt.2 hlt.le)
  · intro he
    obtain ⟨hget, hpre, hlo, -⟩ := (hmem e).1 (mem_append_left _ he)
    refine mem_scan.2 ⟨hget, hpre, hlo, fun u hu => ?_⟩
    rw [← Option.some.inj hu]
    exact hbefore e he entry mem_cons_self

lemma directed_past {reverse : Bool} (h : directed reverse (scan m pre lo hi) = front ++ entry :: back) :
    directed reverse (if reverse then scan m pre lo (some entry.1)
      else scan m pre (some (successorOf entry.1)) hi) = back := by
  cases reverse with
  | false => exact scan_after h
  | true =>
    have hscan : scan m pre lo hi = back.reverse ++ entry :: front.reverse := by
      rw [← reverse_inj]
      refine (show (scan m pre lo hi).reverse = front ++ entry :: back from h).trans ?_
      simp
    show (scan m pre lo (some entry.1)).reverse = back
    rw [scan_before hscan, reverse_reverse]

end

/-! ## The live tier -/

variable {p : SealedPull}

section

variable {m : Store} {span : Span}

def liveLeft (m : Store) (span : Span) (p : LivePull) : List Key :=
  if p.done then [] else (directed span.reverse (scan m span.pre p.lo p.hi)).map Prod.fst

lemma pullLive_spec (m : Store) (span : Span) {p : LivePull} (hchunk : 0 < p.chunk) :
    (pullLive m span p).1 ++ liveLeft m span (pullLive m span p).2 = liveLeft m span p ∧
      ((pullLive m span p).1 = [] → liveLeft m span p = []) ∧ 0 < (pullLive m span p).2.chunk := by
  cases hdone : p.done with
  | true =>
    have hpull : pullLive m span p = ([], p) := by rw [pullLive, if_pos hdone]
    have hleft : liveLeft m span p = [] := by rw [liveLeft, if_pos hdone]
    rw [hpull]
    exact ⟨rfl, fun _ => hleft, hchunk⟩
  | false =>
    have hopen : ¬p.done = true := by simp [hdone]
    have hleft : liveLeft m span p
        = (directed span.reverse (scan m span.pre p.lo p.hi)).map Prod.fst := by
      rw [liveLeft, if_neg hopen]
    generalize hwhole : directed span.reverse (scan m span.pre p.lo p.hi) = whole at hleft
    have hscan : scanWith m span.pre p.lo p.hi span.reverse p.chunk = whole.take p.chunk := by
      rw [scanWith, hwhole]
    rw [hleft, pullLive, if_neg hopen, hscan]
    rcases eq_nil_or_concat (whole.take p.chunk) with hnil | ⟨front, entry, htake⟩
    · -- there is nothing left, and that is noted
      have hnone : whole = [] := (take_eq_nil_iff.1 hnil).resolve_left hchunk.ne'
      simp [hnone, liveLeft, hchunk, LIVE_CHUNK]
    · rw [htake]
      have hcut : whole = front ++ entry :: whole.drop p.chunk := by
        conv_lhs => rw [← take_append_drop p.chunk whole, htake]
        simp
      have hpast := directed_past (hwhole.trans hcut)
      have hlast : ((front.concat entry).map Prod.fst).getLast? = some entry.1 := by simp
      simp only [hlast]
      refine ⟨?_, fun h => by simp at h, ?_⟩
      · rcases lt_or_ge ((front.concat entry).map Prod.fst).length p.chunk with hshort | hfull
        · -- a short chunk is the last
          have hrest : whole.drop p.chunk = [] := by
            rw [length_map, ← htake, length_take] at hshort
            exact drop_eq_nil_of_le (by omega)
          rw [hrest] at hcut
          rw [decide_eq_true hshort, hcut]
          cases span.reverse <;> simp [liveLeft]
        · have hnot : decide (((front.concat entry).map Prod.fst).length < p.chunk) = false :=
            decide_eq_false (not_lt.2 hfull)
          conv_rhs => rw [hcut]
          rw [← hpast, hnot]
          cases hreverse : span.reverse <;> simp [liveLeft, hreverse]
      · cases span.reverse <;> simp [LIVE_CHUNK]

/-! ## The sealed tier -/

def blobsOf (m : Store) (span : Span) (p : SealedPull) : List (Key × Stored) :=
  directed span.reverse (scan m (segmentPrefix span.pre) p.lo p.hi)

def sealedLeft (m : Store) (span : Span) (p : SealedPull) : List Key :=
  if p.done then [] else (blobsOf m span p).flatMap (keysOf span)

/-- How many steps a pull can take: the blobs left, and finding that there are none. -/
def blobsLeft (m : Store) (span : Span) (p : SealedPull) : ℕ :=
  if p.done then 0 else (blobsOf m span p).length + 1

lemma blobsOf_past {blob : Key × Stored} {rest : List (Key × Stored)}
    (h : blobsOf m span p = blob :: rest) : blobsOf m span (p.past span.reverse blob.1) = rest := by
  have hpast := directed_past (show directed span.reverse
    (scan m (segmentPrefix span.pre) p.lo p.hi) = [] ++ blob :: rest from h)
  rw [blobsOf, SealedPull.past]
  cases hreverse : span.reverse with
  | false => simpa [hreverse] using hpast
  | true => simpa [hreverse] using hpast

@[simp] lemma done_past (p : SealedPull) (reverse : Bool) (key : Key) :
    (p.past reverse key).done = p.done := by
  cases reverse <;> rfl

/-- Of the blobs that were fetched the first are expanded, at least one, and the others only where
there are keys enough without them. -/
theorem expandBlobs_spec {blobs rest : List (Key × Stored)} (keys : List Key)
    (used : ℕ) (h : blobsOf m span p = blobs ++ rest) : ∃ front back left, blobs = front ++ back ∧
      expandBlobs span blobs p keys used = (keys ++ front.flatMap (keysOf span), left, used + front.length) ∧
      blobsOf m span left = back ++ rest ∧ left.done = p.done ∧ (blobs ≠ [] → front ≠ []) := by
  induction blobs generalizing p keys used with
  | nil => exact ⟨[], [], p, rfl, by simp [expandBlobs], h, rfl, fun h => absurd rfl h⟩
  | cons blob blobs ih =>
    have hpast := blobsOf_past (p := p) h
    rw [expandBlobs]
    by_cases henough : LIVE_CHUNK ≤ (keys ++ keysOf span blob).length
    · refine ⟨[blob], blobs, p.past span.reverse blob.1, rfl, ?_, hpast, done_past .., by simp⟩
      simp only [if_pos henough]
      simp
    · obtain ⟨front, back, left, hcut, hexpand, hleft, hdone, -⟩ :=
        ih (keys ++ keysOf span blob) (used + 1) hpast
      refine ⟨blob :: front, back, left, by rw [hcut, cons_append], ?_, hleft,
        hdone.trans (done_past ..), by simp⟩
      simp only [if_neg henough, hexpand]
      simp
      omega

/-- A pull comes to an end and takes the first of what is left, and something where anything is. -/
theorem pullSealed_spec {fuel : ℕ} (hfuel : blobsLeft m span p < fuel) :
    ∃ keys left, pullSealed m span fuel p = some (keys, left) ∧
      keys ++ sealedLeft m span left = sealedLeft m span p ∧
      (keys = [] → sealedLeft m span p = []) ∧ blobsLeft m span left ≤ blobsLeft m span p := by
  induction fuel generalizing p with
  | zero => exact absurd hfuel (Nat.not_lt_zero _)
  | succ fuel ih =>
    cases hdone : p.done with
    | true =>
      have hleft : sealedLeft m span p = [] := by rw [sealedLeft, if_pos hdone]
      exact ⟨[], p, by rw [pullSealed, if_pos hdone], rfl, fun _ => hleft, le_rfl⟩
    | false =>
      have hopen : ¬p.done = true := by simp [hdone]
      obtain ⟨front, back, left, hcut, hexpand, hblobs, -, hsome⟩ :=
        expandBlobs_spec [] 0 (take_append_drop BLOB_CHUNK (blobsOf m span p)).symm
      have hscan : scanWith m (segmentPrefix span.pre) p.lo p.hi span.reverse BLOB_CHUNK
          = (blobsOf m span p).take BLOB_CHUNK := rfl
      rw [nil_append, Nat.zero_add] at hexpand
      have hwhole : blobsOf m span p = front ++ (back ++ (blobsOf m span p).drop BLOB_CHUNK) := by
        conv_lhs => rw [← take_append_drop BLOB_CHUNK (blobsOf m span p), hcut]
        rw [append_assoc]
      set next : SealedPull := { left with
        done := decide (front.length = ((blobsOf m span p).take BLOB_CHUNK).length ∧
          ((blobsOf m span p).take BLOB_CHUNK).length < BLOB_CHUNK) } with hnext
      have hnextBlobs : blobsOf m span next = back ++ (blobsOf m span p).drop BLOB_CHUNK := hblobs
      -- where it is done after these, they were the last
      have hlast : next.done = true → back ++ (blobsOf m span p).drop BLOB_CHUNK = [] := by
        intro h
        obtain ⟨hall, hshort⟩ := of_decide_eq_true h
        rw [hcut, length_append] at hall
        rw [length_take] at hshort
        have hback : back = [] := length_eq_zero_iff.1 (by omega)
        rw [hback, nil_append]
        exact drop_eq_nil_of_le (by omega)
      have hleft : front.flatMap (keysOf span) ++ sealedLeft m span next = sealedLeft m span p := by
        rw [sealedLeft, sealedLeft, if_neg hopen, hnextBlobs]
        conv_rhs => rw [hwhole, flatMap_append]
        by_cases h : next.done = true
        · rw [if_pos h, hlast h, flatMap_nil]
        · rw [if_neg h]
      have hfewer : blobsLeft m span next < blobsLeft m span p := by
        rw [blobsLeft, blobsLeft, if_neg hopen, hnextBlobs]
        by_cases h : next.done = true
        · rw [if_pos h]
          omega
        · rw [if_neg h]
          have hfront : front ≠ [] := by
            refine hsome fun hnone => h (decide_eq_true ?_)
            rw [hnone] at hcut ⊢
            obtain ⟨hfront, -⟩ := append_eq_nil_iff.1 hcut.symm
            rw [hfront]
            exact ⟨rfl, by decide⟩
          have hlength := congrArg List.length hwhole
          rw [length_append] at hlength
          have := length_pos_iff.2 hfront
          omega
      rw [pullSealed, if_neg hopen, hscan]
      simp only [hexpand, ← hnext]
      by_cases hkeys : 0 < (front.flatMap (keysOf span)).length
      · refine ⟨_, next, if_pos hkeys, hleft, fun h => ?_, hfewer.le⟩
        exact absurd (length_eq_zero_iff.2 h) hkeys.ne'
      · obtain ⟨keys, final, hpull, hrest, hnone, hless⟩ := ih (p := next) (by omega)
        have hempty : front.flatMap (keysOf span) = [] := length_eq_zero_iff.1 (by omega)
        rw [hempty, nil_append] at hleft
        exact ⟨keys, final, (if_neg hkeys).trans hpull, hrest.trans hleft,
          fun h => hleft.symm.trans (hnone h), hless.trans hfewer.le⟩

/-! ## The merge -/

/-- A merge with the keys of both tiers still to come: those pulled, and those left to pull. -/
structure Merge.Stands (m : Store) (span : Span) (live sealed : List Key) (s : Merge) : Prop where
  liveKeys : s.live ++ liveLeft m span s.livePull = live
  sealedKeys : s.sealed ++ sealedLeft m span s.sealedPull = sealed
  chunk : 0 < s.livePull.chunk
  liveEmpty : s.liveEmpty = true → live = []
  sealedEmpty : s.sealedEmpty = true → sealed = []

namespace Merge

variable {s : Merge} {live sealed : List Key} {fuel : ℕ}

lemma Stands.refillLive (h : s.Stands m span live sealed) :
    (s.refillLive m span).Stands m span live sealed ∧ ((s.refillLive m span).live = [] → live = []) := by
  rw [Merge.refillLive]
  by_cases hdry : s.live = [] ∧ s.liveEmpty = false
  · rw [if_pos hdry]
    have hlive : liveLeft m span s.livePull = live := by
      have := h.liveKeys
      rwa [hdry.1, nil_append] at this
    obtain ⟨hkeys, hnone, hchunk⟩ := pullLive_spec m span h.chunk
    have hempty : (pullLive m span s.livePull).1 = [] → live = [] :=
      fun h => hlive.symm.trans (hnone h)
    exact ⟨⟨hkeys.trans hlive, h.sealedKeys, hchunk, fun h => hempty (List.isEmpty_iff.1 h),
      h.sealedEmpty⟩, hempty⟩
  · rw [if_neg hdry]
    refine ⟨h, fun hnone => h.liveEmpty ?_⟩
    exact Bool.of_not_eq_false fun hfalse => hdry ⟨hnone, hfalse⟩

@[simp] lemma refillLive_sealedPull : (s.refillLive m span).sealedPull = s.sealedPull := by
  rw [Merge.refillLive]
  split <;> rfl

@[simp] lemma refillLive_out : (s.refillLive m span).out = s.out := by
  rw [Merge.refillLive]
  split <;> rfl

lemma Stands.refillSealed (h : s.Stands m span live sealed) (hfuel : blobsLeft m span s.sealedPull < fuel) :
    ∃ next, s.refillSealed m span fuel = some next ∧ next.Stands m span live sealed ∧
      (next.sealed = [] → sealed = []) ∧ next.live = s.live ∧ next.out = s.out ∧
        blobsLeft m span next.sealedPull ≤ blobsLeft m span s.sealedPull := by
  rw [Merge.refillSealed]
  by_cases hdry : s.sealed = [] ∧ s.sealedEmpty = false
  · have hsealed : sealedLeft m span s.sealedPull = sealed := by
      have := h.sealedKeys
      rwa [hdry.1, nil_append] at this
    obtain ⟨keys, left, hpull, hkeys, hnone, hless⟩ := pullSealed_spec hfuel
    have hempty : keys = [] → sealed = [] := fun h => hsealed.symm.trans (hnone h)
    rw [if_pos hdry, hpull]
    exact ⟨_, rfl, ⟨h.liveKeys, hkeys.trans hsealed, h.chunk, h.liveEmpty,
      fun h => hempty (List.isEmpty_iff.1 h)⟩, hempty, rfl, rfl, hless⟩
  · rw [if_neg hdry]
    refine ⟨s, rfl, h, fun hnone => h.sealedEmpty ?_, rfl, rfl, le_rfl⟩
    exact Bool.of_not_eq_false fun hfalse => hdry ⟨hnone, hfalse⟩

lemma nothing_of_pop (hlive : s.live = [] → live = []) (hsealed : s.sealed = [] → sealed = [])
    (hpop : s.pop span.reverse = none) : live = [] ∧ sealed = [] := by
  rw [Merge.pop] at hpop
  cases hl : s.live with
  | nil =>
    cases hs : s.sealed with
    | nil => exact ⟨hlive hl, hsealed hs⟩
    | cons y ys => simp [hl, hs] at hpop
  | cons x xs =>
    cases hs : s.sealed with
    | nil => simp [hl, hs] at hpop
    | cons y ys =>
      simp only [hl, hs] at hpop
      split at hpop
      · cases hpop
      · split at hpop <;> cases hpop

lemma Stands.of_pop {key : Key} {next : Merge} (h : s.Stands m span live sealed)
    (hlive : s.live = [] → live = []) (hsealed : s.sealed = [] → sealed = [])
    (hpop : s.pop span.reverse = some (key, next)) : ∃ live' sealed', next.Stands m span live' sealed' ∧
      mergeRuns (Before span.reverse) live sealed = key :: mergeRuns (Before span.reverse) live' sealed' ∧
      live'.length + sealed'.length < live.length + sealed.length ∧
      next.out = s.out ∧ next.sealedPull = s.sealedPull := by
  obtain ⟨hwl, hws, hchunk, hle, hse⟩ := h
  rw [Merge.pop] at hpop
  cases hl : s.live with
  | nil =>
    cases hs : s.sealed with
    | nil => simp [hl, hs] at hpop
    | cons y ys =>
      simp only [hl, hs, Option.some.injEq, Prod.mk.injEq] at hpop
      obtain ⟨rfl, rfl⟩ := hpop
      obtain rfl := hlive hl
      rw [hs, cons_append] at hws
      subst hws
      exact ⟨[], _, ⟨hl ▸ hwl, rfl, hchunk, hle, fun h => absurd (hse h) (by simp)⟩, by simp,
        by simp, rfl, rfl⟩
  | cons x xs =>
    rw [hl, cons_append] at hwl
    subst hwl
    have hsome : s.liveEmpty = true → xs ++ liveLeft m span s.livePull = [] :=
      fun h => absurd (hle h) (by simp)
    cases hs : s.sealed with
    | nil =>
      simp only [hl, hs, Option.some.injEq, Prod.mk.injEq] at hpop
      obtain ⟨rfl, rfl⟩ := hpop
      obtain rfl := hsealed hs
      exact ⟨_, [], ⟨rfl, hs ▸ hws, hchunk, hsome, hse⟩, by simp, by simp, rfl, rfl⟩
    | cons y ys =>
      rw [hs, cons_append] at hws
      subst hws
      have hsome' : s.sealedEmpty = true → ys ++ sealedLeft m span s.sealedPull = [] :=
        fun h => absurd (hse h) (by simp)
      simp only [hl, hs] at hpop
      by_cases hxy : Before span.reverse x y
      · rw [if_pos (first_iff.2 hxy)] at hpop
        obtain ⟨rfl, rfl⟩ := hpop
        refine ⟨_, y :: (ys ++ sealedLeft m span s.sealedPull),
          ⟨rfl, by simp, hchunk, hsome, hse⟩, ?_, by simp, rfl, rfl⟩
        rw [mergeRuns, if_pos hxy]
      · rw [if_neg (mt first_iff.1 hxy)] at hpop
        by_cases hyx : Before span.reverse y x
        · rw [if_pos (first_iff.2 hyx)] at hpop
          obtain ⟨rfl, rfl⟩ := hpop
          refine ⟨x :: (xs ++ liveLeft m span s.livePull), _,
            ⟨by simp, rfl, hchunk, hle, hsome'⟩, ?_, by simp, rfl, rfl⟩
          rw [mergeRuns, if_neg hxy, if_pos hyx]
        · rw [if_neg (mt first_iff.1 hyx)] at hpop
          obtain ⟨rfl, rfl⟩ := hpop
          refine ⟨_, _, ⟨rfl, rfl, hchunk, hsome, hsome'⟩, ?_, by simp; omega, rfl, rfl⟩
          rw [mergeRuns, if_neg hxy, if_neg hyx]

end Merge

variable {removed : List Key} {filter : Option Postings} {limit : ℕ} {live sealed : List Key}

lemma mergeLoop_spec {fuel : ℕ} {s : Merge} (h : s.Stands m span live sealed)
    (hfuel : live.length + sealed.length + blobsLeft m span s.sealedPull + 1 < fuel) :
    mergeLoop m span removed filter limit fuel s
      = some ((firstRows (rowOf removed filter) (limit - s.out.length)
          (mergeRuns (Before span.reverse) live sealed)).map (s.out ++ ·)) := by
  induction fuel generalizing s live sealed with
  | zero => exact absurd hfuel (Nat.not_lt_zero _)
  | succ fuel ih =>
    rw [mergeLoop]
    by_cases hdone : limit ≤ s.out.length
    · rw [if_pos hdone, Nat.sub_eq_zero_of_le hdone, firstRows_zero]
      simp [Except.map]
    · rw [if_neg hdone]
      obtain ⟨hfull, hlive⟩ := h.refillLive
      obtain ⟨next, hnext, hstands, hsealed, hsame, hout, hless⟩ :=
        hfull.refillSealed (show blobsLeft m span (s.refillLive m span).sealedPull < fuel by
          rw [Merge.refillLive_sealedPull]
          omega)
      rw [Merge.refillLive_out] at hout
      rw [Merge.refillLive_sealedPull] at hless
      rw [hnext]
      rw [← hsame] at hlive
      cases hpop : next.pop span.reverse with
      | none =>
        obtain ⟨rfl, rfl⟩ := Merge.nothing_of_pop hlive hsealed hpop
        simp [Except.map, hpop, hout]
      | some popped =>
        obtain ⟨key, rest⟩ := popped
        obtain ⟨live', sealed', hrest, hmerged, hshorter, hout', hpull⟩ :=
          hstands.of_pop hlive hsealed hpop
        obtain ⟨room, hroom⟩ : ∃ room, limit - s.out.length = room + 1 :=
          Nat.exists_eq_add_one.2 (by omega)
        simp only [hpop]
        rw [hmerged, hroom, firstRows]
        cases hrow : rowOf removed filter key with
        | error fault => rfl
        | ok row =>
          cases row with
          | none =>
            have hloop := ih hrest (by rw [hpull]; omega)
            rw [hout', hout, hroom] at hloop
            exact hloop
          | some row =>
            have hloop := ih (s := { rest with out := rest.out ++ [row] })
              ⟨hrest.liveKeys, hrest.sealedKeys, hrest.chunk, hrest.liveEmpty, hrest.sealedEmpty⟩
              (by
                have : ({ rest with out := rest.out ++ [row] } : Merge).sealedPull
                  = next.sealedPull := hpull
                rw [this]
                omega)
            have hroom' : limit - (rest.out ++ [row]).length = room := by
              rw [length_append, length_singleton, hout', hout]
              omega
            rw [hroom', hout', hout] at hloop
            dsimp only
            rw [hout', hout, hloop]
            refine congrArg some ?_
            cases firstRows (rowOf removed filter) room (mergeRuns (Before span.reverse) live' sealed') with
            | error fault => rfl
            | ok rows => simp [Except.map]

lemma mergeOrdered_eq (m : Store) (span : Span) (filter : Option Postings)
    (sealedLo sealedHi : Option Key) (hlimit : 0 < limit) :
    ∃ least, ∀ fuel ≥ least, mergeOrdered m span filter limit sealedLo sealedHi fuel
      = some (firstRows (rowOf (tombstonesIn m ⟨span.pre, span.lo, span.hi⟩) filter) limit
          (mergeRuns (Before span.reverse)
            ((directed span.reverse (scan m span.pre span.lo span.hi)).map Prod.fst)
            (sealedLeft m span { lo := sealedLo, hi := sealedHi }))) := by
  let start : Merge := {
    livePull := { lo := span.lo, hi := span.hi, chunk := min LIVE_CHUNK limit }
    sealedPull := { lo := sealedLo, hi := sealedHi } }
  have hstart : start.Stands m span
      ((directed span.reverse (scan m span.pre span.lo span.hi)).map Prod.fst)
      (sealedLeft m span { lo := sealedLo, hi := sealedHi }) :=
    ⟨rfl, rfl, lt_min (by decide) hlimit, fun h => absurd h (by simp [start]),
      fun h => absurd h (by simp [start])⟩
  refine ⟨((directed span.reverse (scan m span.pre span.lo span.hi)).map Prod.fst).length
    + (sealedLeft m span { lo := sealedLo, hi := sealedHi }).length
    + blobsLeft m span start.sealedPull + 2, fun fuel hfuel => ?_⟩
  refine (mergeLoop_spec hstart (Nat.lt_of_succ_le hfuel)).trans (congrArg some ?_)
  cases firstRows (rowOf (tombstonesIn m ⟨span.pre, span.lo, span.hi⟩) filter) limit
    (mergeRuns (Before span.reverse)
      ((directed span.reverse (scan m span.pre span.lo span.hi)).map Prod.fst)
      (sealedLeft m span { lo := sealedLo, hi := sealedHi })) with
  | error fault => rfl
  | ok rows => rfl

end

end Zelavis.Db.OrderedReads
