import Mathlib.Data.List.Sort
import Mathlib.Data.Rat.Floor
import Mathlib.Tactic.Linarith

/-!
# Histograms and windows of points

`time-series.ts` `histogram`, `windows`: the values of the points of a series counted in buckets, and the points
themselves in windows of time. Values and times are rational numbers here.
-/

namespace Zelavis.Db.Histogram

open List

/-! ## Histograms -/

structure Point where
  timestamp : ℚ
  value : ℚ
  deriving DecidableEq

structure HistogramBucket where
  lower : ℚ
  upper : ℚ
  count : ℕ
  deriving DecidableEq

/-- Source: `histogram`, what it is asked for. -/
structure HistogramInput where
  boundaries : Option (List ℚ) := none
  step : Option ℚ := none
  bins : Option ℚ := none
  min : Option ℚ := none
  max : Option ℚ := none

/-- Source: `histogram`, what it answers. -/
structure HistogramResult where
  buckets : List HistogramBucket
  count : ℕ
  min : ℚ
  max : ℚ
  sum : ℚ
  avg : ℚ
  deriving DecidableEq

/-- The last bucket has its upper bound as well. -/
def inBucket (isLast : Bool) (lower upper v : ℚ) : Bool := lower ≤ v ∧ if isLast then v ≤ upper else v < upper

def bucket (values : List ℚ) (isLast : Bool) (lower upper : ℚ) : HistogramBucket :=
  ⟨lower, upper, values.countP (inBucket isLast lower upper)⟩

def boundaryBuckets (values : List ℚ) : List ℚ → List HistogramBucket
  | lower :: upper :: rest => bucket values (rest = []) lower upper :: boundaryBuckets values (upper :: rest)
  | _ => []

/-- The loop over a step, as often as it goes round. -/
def stepBuckets (values : List ℚ) (step upperBound : ℚ) : ℕ → ℚ → List HistogramBucket
  | 0, _ => []
  | fuel + 1, b =>
    if b < upperBound then
      bucket values (upperBound ≤ min (b + step) upperBound) b (min (b + step) upperBound) ::
        stepBuckets values step upperBound fuel (b + step)
    else []

def binBuckets (values : List ℚ) (numBins : ℕ) (lowerBound upperBound : ℚ) : List HistogramBucket :=
  let binWidth := (upperBound - lowerBound) / numBins
  (List.range numBins).map fun i =>
    bucket values (i = numBins - 1) (lowerBound + i * binWidth)
      (if i = numBins - 1 then upperBound else lowerBound + (i + 1 : ℕ) * binWidth)

def HistogramInput.lowerBound (input : HistogramInput) (values : List ℚ) : ℚ :=
  input.min.getD (values.min?.getD 0)

def HistogramInput.upperBound (input : HistogramInput) (values : List ℚ) : ℚ :=
  input.max.getD (values.max?.getD 0)

/-- Source: `histogram`, its buckets. -/
def HistogramInput.buckets (input : HistogramInput) (values : List ℚ) : Except String (List HistogramBucket) :=
  let lowerBound := input.lowerBound values
  let upperBound := input.upperBound values
  match input.boundaries, input.step with
  | some boundaries, _ =>
    if boundaries.length < 2 then .error "histogram boundaries must have at least 2 numbers."
    else .ok (boundaryBuckets values (boundaries.mergeSort (· ≤ ·)))
  | none, some step =>
    if step ≤ 0 then .error s!"histogram step must be > 0, got {step}."
    else if lowerBound = upperBound then .ok [⟨lowerBound, upperBound, values.length⟩]
    else .ok (stepBuckets values step upperBound ⌈(upperBound - lowerBound) / step⌉₊ lowerBound)
  | none, none =>
    let numBins := input.bins.getD 10
    if numBins.isInt = false ∨ numBins ≤ 0 ∨ 2 ^ 53 ≤ numBins then
      .error s!"histogram bins must be an integer > 0, got {numBins}."
    else if lowerBound = upperBound then .ok [⟨lowerBound, upperBound, values.length⟩]
    else .ok (binBuckets values numBins.num.toNat lowerBound upperBound)

def histogram (input : HistogramInput) (points : List Point) : Except String HistogramResult :=
  if points = [] then .ok ⟨[], 0, 0, 0, 0, 0⟩
  else
    let values := points.map Point.value
    (input.buckets values).map fun buckets =>
      ⟨buckets, values.length, values.min?.getD 0, values.max?.getD 0, values.sum, values.sum / values.length⟩

/-! ## Windows -/

structure RawBucket where
  timestamp : ℚ
  value : ℚ
  count : ℕ
  deriving DecidableEq

inductive Fill where
  | none
  | zero
  | previous
  | linear
  deriving DecidableEq

section

variable (aggregate : List Point → ℚ)

/-- The loop over the windows, as often as it goes round; what there is of no points is never looked at.
Source: `windows`. -/
def rawBuckets (sorted : List Point) (interval step stop : ℚ) : ℕ → ℚ → List RawBucket
  | 0, _ => []
  | fuel + 1, t =>
    if t ≤ stop then
      let windowPoints := sorted.filter fun pt => t ≤ pt.timestamp ∧ pt.timestamp < t + interval
      ⟨t, aggregate windowPoints, windowPoints.length⟩ :: rawBuckets sorted interval step stop fuel (t + step)
    else []

/-- The windows with the last value there was in the empty ones. -/
def fillPrevious : ℚ → List RawBucket → List RawBucket
  | _, [] => []
  | lastVal, b :: rest =>
    if 0 < b.count then b :: fillPrevious b.value rest else { b with value := lastVal } :: fillPrevious lastVal rest

/-- The windows with a value between the ones next to them in the empty ones. -/
def fillLinear : Option RawBucket → List RawBucket → List RawBucket
  | _, [] => []
  | prev, b :: rest =>
    if 0 < b.count then b :: fillLinear (some b) rest
    else
      let value := match prev, rest.find? (0 < ·.count) with
        | some prev, some next =>
          prev.value + (b.timestamp - prev.timestamp) / (next.timestamp - prev.timestamp) * (next.value - prev.value)
        | some one, none | none, some one => one.value
        | none, none => 0
      { b with value } :: fillLinear prev rest

def fillBuckets (buckets : List RawBucket) : Fill → List RawBucket
  | .none => buckets.filter (0 < ·.count)
  | .zero => buckets.map fun b => if 0 < b.count then b else { b with value := 0 }
  | .previous => fillPrevious 0 buckets
  | .linear => fillLinear none buckets

/-- Source: `windows`, of the points from `start` to `stop`. -/
def windows (points : List Point) (start stop : Option ℚ) (interval : ℚ) (step : Option ℚ) (fill : Fill) :
    Except String (List RawBucket) :=
  let step := step.getD interval
  if interval ≤ 0 then .error s!"interval must be greater than 0, got {interval}."
  else if step ≤ 0 then .error s!"step must be greater than 0, got {step}."
  else
    let sorted := points.mergeSort fun a b => a.timestamp ≤ b.timestamp
    match start.orElse fun _ => sorted.head?.map Point.timestamp,
      stop.orElse fun _ => sorted.getLast?.map Point.timestamp with
    | some first, some last =>
      if last < first then .ok []
      else .ok (fillBuckets (rawBuckets aggregate sorted interval step last (⌊(last - first) / step⌋₊ + 1) first) fill)
    | _, _ => .ok []

end

/-! ## Each value in one bucket -/

/-- The bucket each value is counted in: one that holds it, and of the values between the first bound and the last
each has one. -/
def Partitions (values : List ℚ) (buckets : List HistogramBucket) : Prop :=
  ∃ place : ℚ → Option ℕ, (∀ i b, buckets[i]? = some b → b.count = values.countP (place · = some i)) ∧
    (∀ v i, place v = some i → ∃ b, buckets[i]? = some b ∧ b.lower ≤ v ∧ v ≤ b.upper) ∧
    ∀ v ∈ values, (place v).isSome ↔
      ∃ first ∈ buckets.head?, ∃ last ∈ buckets.getLast?, first.lower ≤ v ∧ v ≤ last.upper

/-- Buckets from one bound to another, each of which begins where the one before it ends. -/
inductive Chained (values : List ℚ) (stop : ℚ) : ℚ → List HistogramBucket → Prop
  | last {lower} (le : lower ≤ stop) : Chained values stop lower [bucket values true lower stop]
  | next {lower upper rest} (le : lower ≤ upper) (tail : Chained values stop upper rest) :
      Chained values stop lower (bucket values false lower upper :: rest)

@[simp]
lemma inBucket_iff {isLast : Bool} {lower upper v : ℚ} : inBucket isLast lower upper v = true ↔
    lower ≤ v ∧ if isLast then v ≤ upper else v < upper := by simp [inBucket]

namespace Chained

variable {values : List ℚ} {start stop : ℚ} {buckets : List HistogramBucket}

section

variable (h : Chained values stop start buckets)
include h

lemma start_le : start ≤ stop := by
  induction h with
  | last le => exact le
  | next le _ ih => exact le.trans ih

lemma bounds :
    (∃ first, buckets.head? = some first ∧ first.lower = start) ∧
      ∃ last, buckets.getLast? = some last ∧ last.upper = stop := by
  induction h with
  | last => simp [bucket]
  | next _ _ ih =>
    obtain ⟨-, last, hlast, hstop⟩ := ih
    exact ⟨by simp [bucket], last, by simp [List.getLast?_cons, hlast], hstop⟩

lemma place : ∃ place : ℚ → Option ℕ,
    (∀ i b, buckets[i]? = some b → b.count = values.countP (place · = some i)) ∧
    (∀ v i, place v = some i → ∃ b, buckets[i]? = some b ∧ b.lower ≤ v ∧ v ≤ b.upper) ∧
    ∀ v, (place v).isSome ↔ start ≤ v ∧ v ≤ stop := by
  induction h with
  | @last lower =>
    refine ⟨fun v => if lower ≤ v ∧ v ≤ stop then some 0 else none, ?_, ?_, by simp⟩
    · rintro (_ | i) b hb
      · obtain rfl := Option.some.inj hb
        exact countP_congr fun v _ => by simp
      · simp at hb
    · intro v i hv
      obtain ⟨hin, rfl⟩ : (lower ≤ v ∧ v ≤ stop) ∧ 0 = i := by simpa using hv
      exact ⟨_, rfl, hin⟩
  | @next lower upper rest le tail ih =>
    obtain ⟨place, hcount, hbounds, hsome⟩ := ih
    have apart (v) : v < upper → place v = none := fun hv =>
      Option.not_isSome_iff_eq_none.1 fun h => absurd ((hsome v).1 h).1 (not_le.2 hv)
    refine ⟨fun v => if lower ≤ v ∧ v < upper then some 0 else (place v).map (· + 1), ?_, ?_, ?_⟩
    · rintro (_ | i) b hb
      · obtain rfl := Option.some.inj hb
        refine countP_congr fun v _ => ?_
        by_cases hin : lower ≤ v ∧ v < upper <;> simp [hin]
      · rw [hcount i b (by simpa using hb)]
        refine countP_congr fun v _ => ?_
        by_cases hin : lower ≤ v ∧ v < upper
        · simp [hin, apart v hin.2]
        · simp [hin]
    · intro v i hv
      by_cases hin : lower ≤ v ∧ v < upper
      · obtain rfl : 0 = i := by simpa [hin] using hv
        exact ⟨_, rfl, hin.1, hin.2.le⟩
      · obtain ⟨j, hj, rfl⟩ : ∃ j, place v = some j ∧ j + 1 = i := by simpa [hin] using hv
        simpa using hbounds v j hj
    · intro v
      have := tail.start_le
      by_cases hin : lower ≤ v ∧ v < upper
      · simpa [hin] using hin.2.le.trans this
      · simp only [hin, if_false, Option.isSome_map, hsome]
        constructor
        · exact fun h => ⟨le.trans h.1, h.2⟩
        · exact fun h => ⟨not_lt.1 fun hv => hin ⟨h.1, hv⟩, h.2⟩

lemma partitions : Partitions values buckets := by
  obtain ⟨place, hcount, hbounds, hsome⟩ := h.place
  obtain ⟨⟨first, hfirst, rfl⟩, last, hlast, rfl⟩ := h.bounds
  exact ⟨place, hcount, hbounds, fun v _ => by simp [hsome, hfirst, hlast]⟩

end

end Chained

section

variable {values : List ℚ} {step lowerBound upperBound : ℚ}

lemma chained_boundaries (values : List ℚ) {a b : ℚ} {rest : List ℚ} (h : (a :: b :: rest).Pairwise (· ≤ ·)) :
    ∃ stop, Chained values stop a (boundaryBuckets values (a :: b :: rest)) := by
  induction rest generalizing a b with
  | nil => exact ⟨b, by simpa [boundaryBuckets] using .last (rel_of_pairwise_cons h (by simp))⟩
  | cons c rest ih =>
    obtain ⟨stop, tail⟩ := ih (pairwise_cons.1 h).2
    exact ⟨stop, by simpa [boundaryBuckets] using .next (rel_of_pairwise_cons h (by simp)) tail⟩

lemma stepBuckets_eq_nil {fuel : ℕ} {b : ℚ} (h : upperBound ≤ b) :
    stepBuckets values step upperBound fuel b = [] := by
  cases fuel <;> simp [stepBuckets, h]

lemma chained_steps (hstep : 0 < step) {fuel : ℕ} {b : ℚ} (hb : b < upperBound)
    (hfuel : upperBound - b ≤ fuel * step) :
    Chained values upperBound b (stepBuckets values step upperBound fuel b) := by
  induction fuel generalizing b with
  | zero => simp at hfuel; linarith
  | succ fuel ih =>
    rw [stepBuckets, if_pos hb]
    push_cast at hfuel
    by_cases hlast : upperBound ≤ b + step
    · simpa [hlast, stepBuckets_eq_nil] using .last hb.le
    · have hnext : b + step < upperBound := not_le.1 hlast
      simpa [hnext.le, hlast] using .next (by linarith) (ih hnext (by linarith))

/-- The bins from one of them on, by induction on how many come after it. -/
theorem chained_bins {n : ℕ} (h : lowerBound < upperBound) : Chained values upperBound lowerBound
    (binBuckets values (n + 1) lowerBound upperBound) := by
  have hwidth : 0 < (upperBound - lowerBound) / (n + 1 : ℕ) := div_pos (by linarith) (by positivity)
  have hall : (n + 1 : ℕ) * ((upperBound - lowerBound) / (n + 1 : ℕ)) = upperBound - lowerBound :=
    mul_div_cancel₀ _ (by positivity)
  rw [binBuckets, range_eq_range']
  generalize (upperBound - lowerBound) / (n + 1 : ℕ) = width at hwidth hall
  suffices ∀ k i, i + k = n → Chained values upperBound (lowerBound + i * width)
      ((List.range' i (k + 1)).map fun i => bucket values (i = n) (lowerBound + i * width)
        (if i = n then upperBound else lowerBound + (i + 1 : ℕ) * width)) by
    simpa using this n 0 (by simp)
  intro k
  induction k with
  | zero =>
    rintro i rfl
    simpa using .last (by simp at hall; linarith)
  | succ k ih =>
    intro i hi
    have hne : i ≠ n := by omega
    rw [range'_succ, map_cons]
    have tail := ih (i + 1) (by omega)
    push_cast at tail
    simpa [hne] using .next (by linarith) tail

/-- Where the range is asked for the wrong way round nothing is counted. -/
theorem partitions_bins_of_lt {n : ℕ} (h : upperBound < lowerBound) :
    Partitions values (binBuckets values (n + 1) lowerBound upperBound) := by
  have hwidth : (upperBound - lowerBound) / (n + 1 : ℕ) < 0 := div_neg_of_neg_of_pos (by linarith) (by positivity)
  have hall : (n + 1 : ℕ) * ((upperBound - lowerBound) / (n + 1 : ℕ)) = upperBound - lowerBound :=
    mul_div_cancel₀ _ (by positivity)
  rw [binBuckets]
  generalize (upperBound - lowerBound) / (n + 1 : ℕ) = width at hwidth hall
  push_cast at hall
  refine ⟨fun _ => none, fun i b hb => ?_, by simp, fun v _ => ?_⟩
  · obtain ⟨hi, rfl⟩ := List.getElem?_eq_some_iff.1 hb
    by_cases hlast : i = n
    · subst hlast
      simp [bucket]
      intro v _ hv
      linarith
    · simp [bucket, hlast]
      intro v _ hv
      linarith
  · simp [List.head?_range, List.getLast?_range, bucket]
    intro hv
    linarith

/-- One bucket of everything is right only where everything is one number. -/
theorem partitions_singleton_iff {bound : ℚ} :
    Partitions values [⟨bound, bound, values.length⟩] ↔ ∀ v ∈ values, v = bound := by
  constructor
  · rintro ⟨place, hcount, hbounds, -⟩ v hv
    have hplace : values.countP (place · = some 0) = values.length := (hcount 0 _ rfl).symm
    obtain ⟨b, hb, hin⟩ := hbounds v 0 (of_decide_eq_true (countP_eq_length.1 hplace v hv))
    obtain rfl := Option.some.inj hb
    exact le_antisymm hin.2 hin.1
  · intro hall
    refine ⟨fun v => if v = bound then some 0 else none, ?_, ?_, fun v hv => by simp [hall v hv]⟩
    · rintro (_ | i) b hb
      · obtain rfl := Option.some.inj hb
        exact (countP_eq_length.2 fun v hv => by simp [hall v hv]).symm
      · simp at hb
    · intro v i hv
      obtain ⟨rfl, rfl⟩ : v = bound ∧ 0 = i := by simpa using hv
      exact ⟨_, rfl, le_rfl, le_rfl⟩

/-- One bucket for everything, or the buckets from one bound to the other. -/
theorem buckets_partition_iff {input : HistogramInput} {buckets : List HistogramBucket}
    (h : input.buckets values = .ok buckets) : Partitions values buckets ↔ input.boundaries.isSome ∨
      input.lowerBound values ≠ input.upperBound values ∨ ∀ v ∈ values, v = input.lowerBound values := by
  simp only [HistogramInput.buckets] at h
  cases hboundaries : input.boundaries with
  | some boundaries =>
    simp only [hboundaries] at h
    split_ifs at h with hlength
    obtain rfl := Except.ok.inj h
    have hsorted := pairwise_mergeSort' (· ≤ ·) boundaries
    have hlength : 2 ≤ (boundaries.mergeSort (· ≤ ·)).length := by
      rw [length_mergeSort]
      omega
    match boundaries.mergeSort (· ≤ ·), hlength, hsorted with
    | a :: b :: rest, _, hsorted =>
      obtain ⟨stop, hchained⟩ := chained_boundaries values hsorted
      simpa using hchained.partitions
  | none =>
    by_cases heq : input.lowerBound values = input.upperBound values
    · have hone : buckets = [⟨input.lowerBound values, input.lowerBound values, values.length⟩] := by
        cases hstep : input.step <;> simp only [hboundaries, hstep, heq] at h <;> split_ifs at h <;>
          simpa [heq] using h.symm
      simp [hone, partitions_singleton_iff, ← heq]
    · simp only [heq, ne_eq, not_false_eq_true, true_or, or_true, iff_true]
      cases hstep : input.step with
      | some step =>
        simp only [hboundaries, hstep, if_neg heq] at h
        split_ifs at h with hpos
        obtain rfl := Except.ok.inj h
        have hpos : 0 < step := not_le.1 hpos
        obtain hlt | hlt := lt_or_gt_of_ne heq
        · refine (chained_steps hpos hlt ?_).partitions
          exact (div_le_iff₀ hpos).1 (Nat.le_ceil _)
        · rw [stepBuckets_eq_nil hlt.le]
          exact ⟨fun _ => none, by simp⟩
      | none =>
        simp only [hboundaries, hstep, if_neg heq] at h
        split_ifs at h with hbins
        obtain rfl := Except.ok.inj h
        obtain ⟨n, hn⟩ : ∃ n, (input.bins.getD 10).num.toNat = n + 1 := Nat.exists_eq_succ_of_ne_zero (by
          have : 0 < (input.bins.getD 10).num := Rat.num_pos.2 (not_le.1 fun h => hbins (.inr (.inl h)))
          omega)
        rw [hn]
        obtain hlt | hlt := lt_or_gt_of_ne heq
        · exact (chained_bins hlt).partitions
        · exact partitions_bins_of_lt hlt

end

/-! ## Each point in one window -/

/-- Each window with the points in it, and each of the points from the start to the stop in one of them. -/
def Tumbles (points : List Point) (start stop : Option ℚ) (interval : ℚ) (buckets : List RawBucket) : Prop :=
  (∀ b ∈ buckets, b.count = points.countP fun pt => b.timestamp ≤ pt.timestamp ∧ pt.timestamp < b.timestamp + interval) ∧
    ∀ pt ∈ points, (∀ s ∈ start, s ≤ pt.timestamp) → (∀ e ∈ stop, pt.timestamp ≤ e) →
      buckets.countP (fun b => b.timestamp ≤ pt.timestamp ∧ pt.timestamp < b.timestamp + interval) = 1

section

variable {aggregate : List Point → ℚ} {sorted : List Point} {interval step stop : ℚ}

lemma count_rawBuckets {fuel : ℕ} {t : ℚ} {b : RawBucket}
    (hb : b ∈ rawBuckets aggregate sorted interval step stop fuel t) : b.count = sorted.countP fun pt =>
      b.timestamp ≤ pt.timestamp ∧ pt.timestamp < b.timestamp + interval := by
  induction fuel generalizing t with
  | zero => simp [rawBuckets] at hb
  | succ fuel ih =>
    rw [rawBuckets] at hb
    split_ifs at hb
    · obtain rfl | hb := mem_cons.1 hb
      · simp [countP_eq_length_filter]
      · exact ih hb
    · simp at hb

lemma le_of_mem_rawBuckets (hstep : 0 ≤ step) {fuel : ℕ} {t : ℚ} {b : RawBucket}
    (hb : b ∈ rawBuckets aggregate sorted interval step stop fuel t) : t ≤ b.timestamp := by
  induction fuel generalizing t with
  | zero => simp [rawBuckets] at hb
  | succ fuel ih =>
    rw [rawBuckets] at hb
    split_ifs at hb
    · obtain rfl | hb := mem_cons.1 hb
      · exact le_rfl
      · linarith [ih hb]
    · simp at hb

/-- Of the windows that are left a time is in the first, or in one of those after it. -/
theorem countP_rawBuckets (hinterval : 0 < interval) {fuel : ℕ} {t ts : ℚ} (ht : t ≤ ts) (hstop : ts ≤ stop)
    (hfuel : stop < t + fuel * interval) : (rawBuckets aggregate sorted interval interval stop fuel t).countP
      (fun b => b.timestamp ≤ ts ∧ ts < b.timestamp + interval) = 1 := by
  induction fuel generalizing t with
  | zero => simp at hfuel; linarith
  | succ fuel ih =>
    rw [rawBuckets, if_pos (ht.trans hstop)]
    by_cases hin : ts < t + interval
    · have hrest : (rawBuckets aggregate sorted interval interval stop fuel (t + interval)).countP
          (fun b => b.timestamp ≤ ts ∧ ts < b.timestamp + interval) = 0 := countP_eq_zero.2 fun b hb => by
        have := le_of_mem_rawBuckets hinterval.le hb
        simp; intro; linarith
      rw [countP_cons_of_pos (by simp [ht, hin]), hrest]
    · push_cast at hfuel
      rw [countP_cons_of_neg (by simp [hin])]
      exact ih (not_lt.1 hin) (by linarith)

/-- What a window is asked about, its time and its count. -/
def RawBucket.key (b : RawBucket) : ℚ × ℕ := (b.timestamp, b.count)

lemma map_key_fillPrevious {lastVal : ℚ} {buckets : List RawBucket} :
    (fillPrevious lastVal buckets).map RawBucket.key = buckets.map RawBucket.key := by
  induction buckets generalizing lastVal with
  | nil => rfl
  | cons b rest ih => by_cases hb : 0 < b.count <;> simp [fillPrevious, hb, ih, RawBucket.key]

lemma map_key_fillLinear {prev : Option RawBucket} {buckets : List RawBucket} :
    (fillLinear prev buckets).map RawBucket.key = buckets.map RawBucket.key := by
  induction buckets generalizing prev with
  | nil => rfl
  | cons b rest ih => by_cases hb : 0 < b.count <;> simp [fillLinear, hb, ih, RawBucket.key]

lemma map_key_fillBuckets (buckets : List RawBucket) {fill : Fill} (h : fill ≠ .none) :
    (fillBuckets buckets fill).map RawBucket.key = buckets.map RawBucket.key := by
  cases fill with
  | none => exact absurd rfl h
  | zero =>
    simp only [fillBuckets, List.map_map]
    refine map_congr_left fun b _ => ?_
    by_cases hb : 0 < b.count <;> simp [RawBucket.key, hb]
  | previous => exact map_key_fillPrevious
  | linear => exact map_key_fillLinear

/-- Only windows without a point go where the empty ones are left out. -/
theorem Tumbles.fill {points : List Point} {start stop : Option ℚ} {buckets : List RawBucket}
    (h : Tumbles points start stop interval buckets) {fill : Fill} :
    Tumbles points start stop interval (fillBuckets buckets fill) := by
  by_cases hfill : fill = .none
  · subst hfill
    refine ⟨fun b hb => h.1 b (mem_of_mem_filter hb), fun pt hpt hstart hstop => ?_⟩
    rw [← h.2 pt hpt hstart hstop, fillBuckets, countP_filter]
    refine countP_congr fun b hb => ?_
    simp only [Bool.and_eq_true, decide_eq_true_eq, and_iff_left_iff_imp, h.1 b hb, countP_pos_iff]
    exact fun hin => ⟨pt, hpt, by simpa using hin⟩
  · have hkeys := map_key_fillBuckets buckets hfill
    refine ⟨fun b hb => ?_, fun pt hpt hstart hstop => ?_⟩
    · have hmem : b.key ∈ buckets.map RawBucket.key := hkeys ▸ List.mem_map_of_mem hb
      obtain ⟨c, hc, hkey⟩ := List.mem_map.1 hmem
      obtain ⟨htimestamp, hcount⟩ := Prod.mk.inj hkey
      rw [← htimestamp, ← hcount]
      exact h.1 c hc
    · have hcount := congrArg (List.countP fun key : ℚ × ℕ => key.1 ≤ pt.timestamp ∧ pt.timestamp < key.1 + interval) hkeys
      rw [countP_map, countP_map] at hcount
      exact hcount.trans (h.2 pt hpt hstart hstop)

lemma tumbles_windows {points : List Point} {start stop step : Option ℚ} {fill : Fill} {buckets : List RawBucket}
    (h : windows aggregate points start stop interval step fill = .ok buckets) (hstep : step.getD interval = interval) :
    Tumbles points start stop interval buckets := by
  simp only [windows, hstep] at h
  split_ifs at h with hinterval
  have hinterval : 0 < interval := not_le.1 hinterval
  have hperm := points.mergeSort_perm fun a b => decide (a.timestamp ≤ b.timestamp)
  have hsorted : (points.mergeSort fun a b => a.timestamp ≤ b.timestamp).Pairwise
      fun a b => a.timestamp ≤ b.timestamp := by
    simpa using @pairwise_mergeSort _ (fun a b : Point => a.timestamp ≤ b.timestamp)
      (fun a b c => by simpa using le_trans) (fun a b => by simpa using le_total a.timestamp b.timestamp) points
  generalize (points.mergeSort fun a b => a.timestamp ≤ b.timestamp) = sorted at *
  have hfirst (pt) (hpt : pt ∈ points) (hstart : ∀ s ∈ start, s ≤ pt.timestamp) :
      ∀ first ∈ start.orElse fun _ => sorted.head?.map Point.timestamp, first ≤ pt.timestamp := by
    cases start with
    | some s => simpa using hstart s rfl
    | none =>
      cases sorted with
      | nil => simp
      | cons first rest =>
        obtain rfl | hpt := mem_cons.1 (hperm.mem_iff.2 hpt)
        · simp
        · simpa using rel_of_pairwise_cons hsorted hpt
  have hlast (pt) (hpt : pt ∈ points) (hstop : ∀ e ∈ stop, pt.timestamp ≤ e) :
      ∀ last ∈ stop.orElse fun _ => sorted.getLast?.map Point.timestamp, pt.timestamp ≤ last := by
    cases stop with
    | some e => simpa using hstop e rfl
    | none =>
      rintro last hlast
      obtain ⟨one, hone, rfl⟩ : ∃ one, sorted.getLast? = some one ∧ one.timestamp = last := by simpa using hlast
      obtain ⟨init, rfl⟩ := List.getLast?_eq_some_iff.1 hone
      obtain hpt | rfl := by simpa using hperm.mem_iff.2 hpt
      · exact (pairwise_append.1 hsorted).2.2 pt hpt one (by simp)
      · exact le_rfl
  split at h
  · next first last hbegin hend =>
    split_ifs at h with hlt
    · obtain rfl := Except.ok.inj h
      refine ⟨by simp, fun pt hpt hstart hstop => absurd hlt (not_lt.2 ?_)⟩
      exact (hfirst pt hpt hstart first hbegin).trans (hlast pt hpt hstop last hend)
    · obtain rfl := Except.ok.inj h
      refine Tumbles.fill ⟨fun b hb => ?_, fun pt hpt hstart hstop => ?_⟩
      · rw [count_rawBuckets hb, hperm.countP_eq]
      · refine countP_rawBuckets hinterval (hfirst pt hpt hstart first hbegin) (hlast pt hpt hstop last hend) ?_
        have := (div_lt_iff₀ hinterval).1 (Nat.lt_floor_add_one ((last - first) / interval))
        push_cast
        linarith
  · next hnone =>
    obtain rfl := Except.ok.inj h
    refine ⟨by simp, fun pt hpt _ _ => ?_⟩
    have hne : sorted ≠ [] := ne_nil_of_mem (hperm.mem_iff.2 hpt)
    have hbegin : (start.orElse fun _ => sorted.head?.map Point.timestamp).isSome := by cases start <;> simp [hne]
    have hend : (stop.orElse fun _ => sorted.getLast?.map Point.timestamp).isSome := by cases stop <;> simp [hne]
    exact absurd (Option.some_get hend).symm (hnone _ _ (Option.some_get hbegin).symm)

end

/-! ## Both -/

/-- A histogram counts each value between its bounds in one bucket and no other value, unless a range of one number
is asked for and there are values beside it; windows as far apart as they are long have each point once. -/
theorem partitions_iff (points : List Point) (input : HistogramInput) (result : HistogramResult)
    (aggregate : List Point → ℚ) (start stop : Option ℚ) (interval : ℚ) (step : Option ℚ) (fill : Fill)
    (buckets : List RawBucket) : (points ≠ [] → histogram input points = .ok result →
      (Partitions (points.map Point.value) result.buckets ↔ input.boundaries.isSome ∨
        input.lowerBound (points.map Point.value) ≠ input.upperBound (points.map Point.value) ∨
          ∀ v ∈ points.map Point.value, v = input.lowerBound (points.map Point.value))) ∧
    (windows aggregate points start stop interval step fill = .ok buckets → step.getD interval = interval →
      Tumbles points start stop interval buckets) := by
  refine ⟨fun hpoints h => ?_, tumbles_windows⟩
  rw [histogram, if_neg hpoints] at h
  cases hbuckets : input.buckets (points.map Point.value) with
  | error => simp [hbuckets, Except.map] at h
  | ok buckets =>
    simp only [hbuckets, Except.map, Except.ok.injEq] at h
    subst h
    exact buckets_partition_iff hbuckets

theorem partitions_iff_two : Partitions [1, 9] [⟨1, 5, 1⟩, ⟨5, 9, 1⟩] ∧
    Tumbles [⟨0, 1⟩, ⟨1, 9⟩] none none 1 [⟨0, 1, 1⟩, ⟨1, 9, 1⟩] :=
  ⟨((partitions_iff [⟨0, 1⟩, ⟨1, 9⟩] { bins := some 2 } ⟨[⟨1, 5, 1⟩, ⟨5, 9, 1⟩], 2, 1, 9, 10, 5⟩ (fun _ => 0) none none
      1 none .none []).1 (by simp) (by decide +kernel)).2 (.inr (.inl (by decide +kernel))),
    (partitions_iff [⟨0, 1⟩, ⟨1, 9⟩] {} ⟨[], 0, 0, 0, 0, 0⟩ (fun pts => (pts.map Point.value).sum) none none 1 none
      .none _).2 (by rw [windows, List.mergeSort_of_pairwise (by decide +kernel)]; decide +kernel) rfl⟩

/-- A range of the one number five, and neither one nor nine lies there: its bucket counts them both. -/
theorem not_partitions_five : histogram { min := some 5, max := some 5 } [⟨0, 1⟩, ⟨1, 9⟩] =
    .ok ⟨[⟨5, 5, 2⟩], 2, 1, 9, 10, 5⟩ ∧ ¬ Partitions [1, 9] [⟨5, 5, 2⟩] := by
  refine ⟨by decide +kernel, fun h => ?_⟩
  exact absurd ((partitions_singleton_iff.1 : Partitions [1, 9] _ → _) h 1 (by simp)) (by norm_num)

end Zelavis.Db.Histogram
