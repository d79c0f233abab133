import Zelavis.Db.Topology

/-!
# Partition maps

`topology-store.ts` `validatePartitionMap` reports nothing exactly for a map that covers its ranges, and
`topology.ts` `partitionMapFor` builds such maps evenly.

A placement that holds no range of the map is reported too, although it covers nothing twice.
-/

namespace Zelavis.Db

open Lib List

/-! ## Coverage -/

def RangePlacement.covers (p : RangePlacement) (range : ℕ) : Bool := p.first ≤ range && range < p.upto

variable {p : RangePlacement} {range : ℕ}

@[simp] lemma RangePlacement.covers_iff :
    p.covers range ↔ p.first ≤ range ∧ range < p.upto := by simp [covers]

/-- Placements cut up the ranges from one on: each holds some of them and no other, and every range is in
exactly one. -/
structure CutsUp (cursor total : ℕ) (placements : List RangePlacement) : Prop where
  nonempty : ∀ p ∈ placements, p.first < p.upto
  within : ∀ p ∈ placements, cursor ≤ p.first ∧ p.upto ≤ total
  once : ∀ range, cursor ≤ range → range < total → placements.countP (·.covers range) = 1

def PlacesOnce (map : PartitionMap) : Prop :=
  0 < map.virtualRanges ∧ CutsUp 0 map.virtualRanges map.placements

variable {cursor total : ℕ}

lemma CutsUp.perm {ps qs : List RangePlacement} (h : CutsUp cursor total ps)
    (hperm : ps.Perm qs) : CutsUp cursor total qs where
  nonempty p hp := h.nonempty p (hperm.mem_iff.2 hp)
  within p hp := h.within p (hperm.mem_iff.2 hp)
  once range hlo hhi := by rw [← hperm.countP_eq, h.once range hlo hhi]

lemma CutsUp.cons_iff {rest : List RangePlacement}
    (hsorted : (p :: rest).Pairwise (·.first ≤ ·.first)) : CutsUp cursor total (p :: rest) ∧ cursor ≤ total ↔
      p.first < p.upto ∧ p.first = cursor ∧ p.upto ≤ total ∧ CutsUp p.upto total rest := by
  obtain ⟨hfirst, hrest⟩ := pairwise_cons.1 hsorted
  constructor
  · rintro ⟨h, hle⟩
    have hp := h.nonempty p mem_cons_self
    obtain ⟨hlo, hhi⟩ := h.within p mem_cons_self
    -- the placement that has the first range starts there, and none starts before this one
    have heq : p.first = cursor := by
      obtain ⟨q, hq, hcovers⟩ := countP_pos_iff.1
        (h.once cursor le_rfl (by omega) ▸ Nat.one_pos : 0 < (p :: rest).countP (·.covers cursor))
      rw [RangePlacement.covers_iff] at hcovers
      rcases mem_cons.1 hq with rfl | hq
      · omega
      · have := hfirst q hq
        omega
    -- a later placement that starts inside this one would have its first range twice
    have hlater : ∀ q ∈ rest, p.upto ≤ q.first := by
      intro q hq
      by_contra hlt
      have hq' := mem_cons_of_mem p hq
      have hwithin := h.within q hq'
      have hqne := h.nonempty q hq'
      have hone := h.once q.first hwithin.1 (by omega)
      have hpcovers : p.covers q.first :=
        RangePlacement.covers_iff.2 ⟨hfirst q hq, not_le.1 hlt⟩
      have hqcovers : 0 < rest.countP (·.covers q.first) :=
        countP_pos_iff.2 ⟨q, hq, RangePlacement.covers_iff.2 ⟨le_rfl, hqne⟩⟩
      rw [countP_cons_of_pos (p := fun x : RangePlacement => x.covers q.first) hpcovers] at hone
      omega
    refine ⟨hp, heq, hhi, ⟨fun q hq => h.nonempty q (mem_cons_of_mem p hq), fun q hq =>
      ⟨hlater q hq, (h.within q (mem_cons_of_mem p hq)).2⟩, fun range hlo' hhi' => ?_⟩⟩
    have hone := h.once range (by omega) hhi'
    rwa [countP_cons_of_neg (by simp; omega)] at hone
  · rintro ⟨hp, rfl, hhi, h⟩
    refine ⟨⟨?_, ?_, fun range hlo' hhi' => ?_⟩, by omega⟩
    · intro q hq
      rcases mem_cons.1 hq with rfl | hq
      · exact hp
      · exact h.nonempty q hq
    · intro q hq
      rcases mem_cons.1 hq with rfl | hq
      · exact ⟨le_rfl, hhi⟩
      · have := h.within q hq
        exact ⟨by omega, this.2⟩
    · rcases Nat.lt_or_ge range p.upto with hlt | hge
      · rw [countP_cons_of_pos (p := fun x : RangePlacement => x.covers range)
            (RangePlacement.covers_iff.2 ⟨hlo', hlt⟩),
          countP_eq_zero.2 fun q hq => ?_]
        have := h.within q hq
        simp
        omega
      · rw [countP_cons_of_neg (by simp; omega)]
        exact h.once range hge hhi'

lemma unplacedFrom_eq_none_iff {ps : List RangePlacement} (hsorted : ps.Pairwise (·.first ≤ ·.first)) :
    unplacedFrom cursor total ps = none ↔ CutsUp cursor total ps ∧ cursor ≤ total := by
  induction ps generalizing cursor with
  | nil =>
    rw [unplacedFrom, ite_eq_right_iff]
    constructor
    · intro h
      have heq : cursor = total := by
        by_contra hne
        exact absurd (h hne) (Option.some_ne_none _)
      exact ⟨⟨by simp, by simp, fun range hlo hhi => by omega⟩, heq.le⟩
    · rintro ⟨h, hle⟩ hne
      exact absurd (h.once cursor le_rfl (by omega)) (by simp)
  | cons p rest ih =>
    rw [CutsUp.cons_iff hsorted, unplacedFrom]
    split_ifs with h₁ h₂ h₃
    · exact iff_of_false not_false (by omega)
    · exact iff_of_false not_false (by omega)
    · exact iff_of_false not_false (by omega)
    · rw [ih (pairwise_cons.1 hsorted).2]
      constructor
      · exact fun h => ⟨by omega, not_not.1 h₃, h.2, h.1⟩
      · exact fun h => ⟨h.2.2.2, h.2.2.1⟩

instance : Std.Total (α := RangePlacement) (fun a b => a.first ≤ b.first) :=
  ⟨fun a b => Nat.le_total a.first b.first⟩

instance : IsTrans RangePlacement (fun a b => a.first ≤ b.first) := ⟨fun _ _ _ => Nat.le_trans⟩

lemma validatePartitionMap_eq_none_iff (map : PartitionMap) :
    validatePartitionMap map = none ↔ PlacesOnce map := by
  have hperm := perm_insertionSort (fun a b : RangePlacement => a.first ≤ b.first) map.placements
  rw [validatePartitionMap, PlacesOnce]
  split_ifs with hpos
  · exact iff_of_false not_false (by omega)
  · rw [Option.map_eq_none_iff, unplacedFrom_eq_none_iff (pairwise_insertionSort _ _)]
    constructor
    · exact fun h => ⟨by omega, h.1.perm hperm⟩
    · exact fun h => ⟨h.2.perm hperm.symm, Nat.zero_le _⟩

variable {map : PartitionMap}

lemma placedAt_of_placesOnce (h : PlacesOnce map) (hr : range < map.virtualRanges) :
    ∃ p, map.placements.filter (·.covers range) = [p] ∧ map.placedAt range = some p.shard := by
  have hone := h.2.once range (Nat.zero_le _) hr
  rw [countP_eq_length_filter] at hone
  obtain ⟨p, hp⟩ := length_eq_one_iff.1 hone
  refine ⟨p, hp, ?_⟩
  rw [PartitionMap.placedAt, ← List.head?_filter]
  have hfilter : (map.placements.filter fun p => p.first ≤ range && range < p.upto) = [p] := hp
  rw [hfilter]
  rfl

/-! ## Even placements -/

/-- Source: `topology.ts` `DEFAULT_VIRTUAL_RANGES`. -/
def DEFAULT_VIRTUAL_RANGES : ℕ := 256

/-- The placements of the shards that are left, from a range on. Source: `topology.ts` `partitionMapFor`,
the loop. -/
def spreadFrom (cursor virtualRanges : ℕ) : List ShardId → List RangePlacement
  | [] => []
  | shard :: rest =>
    let remaining := rest.length + 1
    let width := (virtualRanges - cursor + remaining - 1) / remaining
    ⟨cursor, cursor + width, shard⟩ :: spreadFrom (cursor + width) virtualRanges rest

/-- An even placement of every range across shards. Source: `topology.ts` `partitionMapFor`. -/
def partitionMapFor (shards : List ShardId) (version virtualRanges : Option ℕ) :
    Except String PartitionMap :=
  if shards.length = 0 then .error "A partition map needs at least one shard."
  else
    let ranges := virtualRanges.getD DEFAULT_VIRTUAL_RANGES
    if ranges < shards.length then
      .error s!"A partition map needs at least one virtual range per shard ({ranges} < {shards.length})."
    else .ok ⟨version.getD 1, ranges, spreadFrom 0 ranges shards⟩

def owned (map : PartitionMap) (shard : ShardId) : ℕ :=
  (List.range map.virtualRanges).countP fun range => map.placedAt range = some shard

@[simp] lemma map_shard_spreadFrom (cursor total : ℕ) (shards : List ShardId) :
    (spreadFrom cursor total shards).map RangePlacement.shard = shards := by
  induction shards generalizing cursor with
  | nil => rfl
  | cons shard rest ih => rw [spreadFrom, map_cons, ih]

/-- A share of what is left, rounded up, is the share or one more, and leaves as much for the others. -/
theorem ceil_between {share left others : ℕ} (hlo : share * (others + 1) ≤ left)
    (hhi : left ≤ (share + 1) * (others + 1)) :
    let width := (left + (others + 1) - 1) / (others + 1)
    (width = share ∨ width = share + 1) ∧ width ≤ left ∧
      share * others ≤ left - width ∧ left - width ≤ (share + 1) * others := by
  have h₁ : share * (others + 1) = share * others + share := by ring
  have h₂ : (share + 1) * (others + 1) = share * others + share + others + 1 := by ring
  have h₃ : (share + 1 + 1) * (others + 1) = share * others + share + 2 * (others + 1) := by ring
  have h₄ : (share + 1) * others = share * others + others := by ring
  rcases Nat.eq_or_lt_of_le hlo with heq | hlt
  · have hexact : (left + (others + 1) - 1) / (others + 1) = share :=
      Nat.div_eq_of_lt_le (by omega) (by omega)
    rw [hexact]
    exact ⟨Or.inl rfl, by omega, by omega, by omega⟩
  · have hmore : (left + (others + 1) - 1) / (others + 1) = share + 1 :=
      Nat.div_eq_of_lt_le (by omega) (by omega)
    rw [hmore]
    exact ⟨Or.inr rfl, by omega, by omega, by omega⟩

variable {shards : List ShardId}

/-- Each placement has the share or one range more, and together they are the ranges there are, where the
ranges left are between as many shares as shards are left and as many of one range more. -/
theorem spreadFrom_even {share cursor total : ℕ} (hshare : 0 < share)
    (hle : cursor ≤ total) (hlo : share * shards.length ≤ total - cursor)
    (hhi : total - cursor ≤ (share + 1) * shards.length) :
    (∀ p ∈ spreadFrom cursor total shards, p.upto = p.first + share ∨ p.upto = p.first + (share + 1)) ∧
      (∀ p ∈ spreadFrom cursor total shards, cursor ≤ p.first) ∧
      (spreadFrom cursor total shards).Pairwise (·.first ≤ ·.first) ∧
      unplacedFrom cursor total (spreadFrom cursor total shards) = none := by
  induction shards generalizing cursor with
  | nil =>
    have heq : cursor = total := by
      simp only [length_nil, Nat.mul_zero] at hhi
      omega
    simp [spreadFrom, unplacedFrom, heq]
  | cons shard rest ih =>
    rw [spreadFrom]
    set width := (total - cursor + (rest.length + 1) - 1) / (rest.length + 1) with hwidth
    obtain ⟨hw, hw', hlo', hhi'⟩ := @ceil_between share _ rest.length hlo hhi
    rw [Nat.sub_sub] at hlo' hhi'
    obtain ⟨hshares, hfirst, hsorted, hnone⟩ := ih (by omega) hlo' hhi'
    refine ⟨?_, ?_, ?_, ?_⟩
    · intro p hp
      rcases mem_cons.1 hp with rfl | hp
      · dsimp only
        omega
      · exact hshares p hp
    · intro p hp
      rcases mem_cons.1 hp with rfl | hp
      · exact le_rfl
      · have := hfirst p hp
        omega
    · refine pairwise_cons.2 ⟨fun p hp => ?_, hsorted⟩
      have := hfirst p hp
      dsimp only
      omega
    · rw [unplacedFrom, if_neg (by dsimp only; omega), if_neg (lt_irrefl _), if_neg (by simp)]
      exact hnone

lemma whole_spreadFrom {version ranges : ℕ} (hpos : 0 < shards.length)
    (hle : shards.length ≤ ranges) : PlacesOnce ⟨version, ranges, spreadFrom 0 ranges shards⟩ ∧
      ∀ p ∈ spreadFrom 0 ranges shards, p.upto = p.first + ranges / shards.length ∨
        p.upto = p.first + (ranges / shards.length + 1) := by
  obtain ⟨hshares, -, hsorted, hnone⟩ := @spreadFrom_even shards (ranges / shards.length) 0
    ranges (Nat.div_pos hle hpos) (Nat.zero_le ranges) (Nat.div_mul_le_self _ _) (by
      have := Nat.lt_div_mul_add (a := ranges) hpos
      rw [Nat.succ_mul]
      omega)
  exact ⟨⟨Nat.lt_of_lt_of_le hpos hle, ((unplacedFrom_eq_none_iff hsorted).1 hnone).1⟩, hshares⟩

lemma countP_range_between {lo hi n : ℕ} (hlo : lo ≤ hi) (hhi : hi ≤ n) :
    (List.range n).countP (fun range => lo ≤ range && range < hi) = hi - lo := by
  induction n generalizing hi with
  | zero => simp [Nat.le_zero.1 hhi]
  | succ n ih =>
    rw [range_succ, countP_append, countP_singleton]
    rcases Nat.eq_or_lt_of_le hhi with rfl | hlt
    · have hrest : (List.range n).countP (fun range => lo ≤ range && range < n + 1) =
          (List.range n).countP (fun range => lo ≤ range && range < n) := by
        refine countP_congr fun range hr => ?_
        have := mem_range.1 hr
        simp
        omega
      rw [hrest]
      rcases Nat.eq_or_lt_of_le hlo with rfl | hlo'
      · rw [countP_eq_zero.2 fun range hr => ?_]
        · simp
        · have := mem_range.1 hr
          simp
          omega
      · rw [ih (Nat.le_of_lt_succ hlo') le_rfl, if_pos (by simp; omega)]
        omega
    · rw [ih hlo (Nat.le_of_lt_succ hlt), if_neg (by simp; omega), Nat.add_zero]

lemma owned_of_mem (h : PlacesOnce map) (hnodup : (map.placements.map RangePlacement.shard).Nodup)
    (hp : p ∈ map.placements) : owned map p.shard = p.upto - p.first := by
  rw [owned, ← countP_range_between (h.2.nonempty p hp).le (h.2.within p hp).2]
  refine countP_congr fun range hr => ?_
  obtain ⟨q, hq, hplaced⟩ := placedAt_of_placesOnce h (mem_range.1 hr)
  have hmem : ∀ x, x ∈ map.placements ∧ x.covers range ↔ x = q := by
    intro x
    rw [← mem_singleton (a := x), ← hq, mem_filter]
  obtain ⟨hqmem, hqcovers⟩ := (hmem q).2 rfl
  rw [hplaced, decide_eq_true_eq, Option.some_inj]
  constructor
  · intro hshard
    rw [← inj_on_of_nodup_map hnodup hqmem hp hshard]
    exact hqcovers
  · intro hcovers
    rw [(hmem p).1 ⟨hp, hcovers⟩]

/-- An even placement with a range for every shard is a whole map, and no shard has two ranges more than
another. -/
theorem partitionMapFor_even {version virtualRanges : Option ℕ}
    (hnodup : shards.Nodup) (hpos : 0 < shards.length)
    (hle : shards.length ≤ virtualRanges.getD DEFAULT_VIRTUAL_RANGES) :
    ∃ map, partitionMapFor shards version virtualRanges = .ok map ∧ validatePartitionMap map = none ∧
      map.placements.map RangePlacement.shard = shards ∧
      ∀ s ∈ shards, ∀ t ∈ shards, owned map s ≤ owned map t + 1 := by
  obtain ⟨hwhole, hshares⟩ := @whole_spreadFrom shards (version.getD 1) _ hpos hle
  have howned : ∀ s ∈ shards, ∃ p ∈ spreadFrom 0 (virtualRanges.getD DEFAULT_VIRTUAL_RANGES) shards,
      p.shard = s := by
    intro s hs
    rw [← map_shard_spreadFrom 0 (virtualRanges.getD DEFAULT_VIRTUAL_RANGES) shards] at hs
    exact List.mem_map.1 hs
  refine ⟨_, ?_, (validatePartitionMap_eq_none_iff _).2 hwhole, map_shard_spreadFrom _ _ _, ?_⟩
  · rw [partitionMapFor, if_neg hpos.ne']
    rw [if_neg (not_lt.2 hle)]
  · intro s hs t ht
    obtain ⟨p, hp, rfl⟩ := howned s hs
    obtain ⟨q, hq, rfl⟩ := howned t ht
    have hdistinct : ((spreadFrom 0 (virtualRanges.getD DEFAULT_VIRTUAL_RANGES) shards).map
        RangePlacement.shard).Nodup := by rwa [map_shard_spreadFrom]
    rw [owned_of_mem hwhole hdistinct hp, owned_of_mem hwhole hdistinct hq]
    have := hshares p hp
    have := hshares q hq
    omega

/-- Partition maps: what is reported, where tenants are, and what an even placement is. -/
theorem partitionMaps_whole : (∀ map : PartitionMap, validatePartitionMap map = none ↔ 0 < map.virtualRanges ∧
        (∀ p ∈ map.placements, p.first < p.upto ∧ p.upto ≤ map.virtualRanges) ∧
        ∀ range < map.virtualRanges, map.placements.countP (·.covers range) = 1) ∧
      (∀ (map : PartitionMap) (tenant : TenantId), validatePartitionMap map = none →
        ∃ p, map.placements.filter (·.covers (virtualRangeFor map tenant)) = [p] ∧
          shardFor map tenant = some p.shard) ∧
      ∀ (shards : List ShardId) (version virtualRanges : Option ℕ), shards.Nodup →
        0 < shards.length → shards.length ≤ virtualRanges.getD DEFAULT_VIRTUAL_RANGES →
          ∃ map, partitionMapFor shards version virtualRanges = .ok map ∧ validatePartitionMap map = none ∧
            map.placements.map RangePlacement.shard = shards ∧
            ∀ s ∈ shards, ∀ t ∈ shards, owned map s ≤ owned map t + 1 := by
  refine ⟨fun map => ?_, fun map tenant h => ?_, fun shards version virtualRanges => ?_⟩
  · rw [validatePartitionMap_eq_none_iff]
    constructor
    · rintro ⟨hpos, hcuts⟩
      exact ⟨hpos, fun p hp => ⟨hcuts.nonempty p hp, (hcuts.within p hp).2⟩, fun range hr =>
        hcuts.once range (Nat.zero_le _) hr⟩
    · rintro ⟨hpos, hplacements, honce⟩
      exact ⟨hpos, fun p hp => (hplacements p hp).1, fun p hp =>
        ⟨Nat.zero_le _, (hplacements p hp).2⟩, fun range _ hr => honce range hr⟩
  · exact placedAt_of_placesOnce ((validatePartitionMap_eq_none_iff map).1 h) (virtualRangeFor_lt h tenant)
  · exact partitionMapFor_even

/-- Three ranges over two shards. -/
theorem partitionMaps_whole_two : ∃ map, partitionMapFor [utf16 "a", utf16 "b"] none (some 3) = .ok map ∧
      validatePartitionMap map = none ∧ map.placements.map RangePlacement.shard = [utf16 "a", utf16 "b"] ∧
      ∀ s ∈ [utf16 "a", utf16 "b"], ∀ t ∈ [utf16 "a", utf16 "b"], owned map s ≤ owned map t + 1 :=
  partitionMaps_whole.2.2 [utf16 "a", utf16 "b"] none (some 3) (by decide) (by decide) (by decide)

/-- Every range of this map is in exactly one placement that holds a range, and yet one that holds none is
reported; and there is no map for no shards. -/
theorem not_partitionMaps_whole :
    (∀ range < 2, (List.filter (fun p : RangePlacement => decide (p.first < p.upto) && p.covers range)
        [⟨0, 2, utf16 "a"⟩, ⟨2, 2, utf16 "b"⟩]).length = 1) ∧
      validatePartitionMap ⟨1, 2, [⟨0, 2, utf16 "a"⟩, ⟨2, 2, utf16 "b"⟩]⟩ ≠ none ∧
      partitionMapFor [] none none = .error "A partition map needs at least one shard." := by
  refine ⟨by decide, ?_, rfl⟩
  rw [ne_eq, validatePartitionMap_eq_none_iff]
  exact fun h => absurd (h.2.nonempty ⟨2, 2, utf16 "b"⟩ (by simp)) (lt_irrefl 2)

end Zelavis.Db
