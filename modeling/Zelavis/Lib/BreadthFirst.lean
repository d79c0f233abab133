import Mathlib.Data.List.Basic
import Mathlib.Data.List.Nodup
import Mathlib.Data.Nat.Find

/-!
# Breadth-first search

A search with a queue, over a graph whose successors are asked for one node at a time and where the asking
may fail, within a depth and for as many nodes as a bound allows.
-/

namespace Zelavis.Lib.BreadthFirst

open List

variable {β γ κ ε : Type}

/-! ## Distances -/

section

variable (R : γ → γ → Prop) (a : γ)

/-- There is a walk of some length to a node. -/
inductive Walk : ℕ → γ → Prop where
  | start : Walk 0 a
  | step {n : ℕ} {u v : γ} (walk : Walk n u) (edge : R u v) : Walk (n + 1) v

def IsDist (n : ℕ) (v : γ) : Prop := Walk R a n v ∧ ∀ m, Walk R a m v → n ≤ m

end

variable {R : γ → γ → Prop} {a : γ} {v : γ}

lemma IsDist.unique {n m : ℕ} (h : IsDist R a n v) (h' : IsDist R a m v) : n = m :=
  Nat.le_antisymm (h.2 m h'.1) (h'.2 n h.1)

lemma isDist_start : IsDist R a 0 a := ⟨.start, fun _ _ => Nat.zero_le _⟩

lemma IsDist.eq_start (h : IsDist R a 0 v) : v = a := by
  cases h.1
  rfl

variable {n : ℕ}

lemma Walk.exists_isDist (h : Walk R a n v) : ∃ m ≤ n, IsDist R a m v := by
  classical
  have hex : ∃ m, Walk R a m v := ⟨n, h⟩
  exact ⟨Nat.find hex, Nat.find_min' hex h, Nat.find_spec hex, fun m hm => Nat.find_min' hex hm⟩

lemma IsDist.pred (h : IsDist R a (n + 1) v) : ∃ u, IsDist R a n u ∧ R u v := by
  obtain ⟨hwalk, hleast⟩ := h
  cases hwalk with
  | step walk edge =>
    refine ⟨_, ⟨walk, fun m hm => ?_⟩, edge⟩
    exact Nat.le_of_succ_le_succ (hleast (m + 1) (hm.step edge))

/-! ## The program -/

section

variable [DecidableEq κ] (node : β → γ) (key : γ → κ) (next : γ → Except ε (List β))
  (maxDepth maxVisits : ℕ)

/-- Where a search stands. -/
structure State (β γ κ : Type) where
  queue : List (γ × ℕ)
  visited : List κ
  steps : List (β × ℕ) := []
  deepest : ℕ := 0

def State.add (depth : ℕ) (x : β) (s : State β γ κ) : State β γ κ where
  queue := s.queue
  visited := key (node x) :: s.visited
  steps := s.steps ++ [(x, depth)]
  deepest := max s.deepest depth

def visit (depth : ℕ) : List β → State β γ κ → State β γ κ
  | [], s => s
  | x :: xs, s =>
    if key (node x) ∈ s.visited then visit depth xs s
    else if maxVisits ≤ (s.add node key depth x).steps.length then s.add node key depth x
    else if depth < maxDepth then
      visit depth xs { s.add node key depth x with queue := s.queue ++ [(node x, depth)] }
    else visit depth xs (s.add node key depth x)

def loop : ℕ → State β γ κ → Option (Except ε (State β γ κ))
  | 0, _ => none
  | fuel + 1, s =>
    match s.queue with
    | [] => some (.ok s)
    | (v, d) :: rest =>
      if maxVisits ≤ s.steps.length then some (.ok s)
      else if maxDepth ≤ d then loop fuel { s with queue := rest }
      else
        match next v with
        | .error fault => some (.error fault)
        | .ok found => loop fuel (visit node key maxDepth maxVisits (d + 1) found { s with queue := rest })

def State.first (key : γ → κ) (start : γ) : State β γ κ where
  queue := [(start, 0)]
  visited := [key start]

end

/-! ## What has been found -/

/-- What a search has found, with its distances: its first node, and what it stepped on. -/
def State.found (node : β → γ) (start : γ) (s : State β γ κ) : List (γ × ℕ) :=
  (start, 0) :: s.steps.map fun x => (node x.1, x.2)

section

variable (node : β → γ) (key : γ → κ) (next : γ → Except ε (List β)) (maxDepth maxVisits : ℕ)
  (start : γ)

def Succ (u v : γ) : Prop := ∃ found, next u = .ok found ∧ ∃ x ∈ found, node x = v

/-- A set of nodes a search stays in: none is taken for another, and each can be asked. -/
structure Closed (S : γ → Prop) : Prop where
  first : S start
  inj : ∀ u v, S u → S v → key u = key v → u = v
  asked : ∀ u, S u → ∃ found, next u = .ok found ∧ ∀ x ∈ found, S (node x)

/-- What holds of what has been found. -/
structure Sound (S : γ → Prop) (s : State β γ κ) : Prop where
  within : ∀ f ∈ s.found node start, S f.1
  visited : ∀ k, k ∈ s.visited ↔ ∃ f ∈ s.found node start, key f.1 = k
  nodup : ((s.found node start).map Prod.fst).Nodup
  dist : ∀ f ∈ s.found node start, IsDist (Succ node next) start f.2 f.1
  depth : ∀ f ∈ s.found node start, f.2 ≤ maxDepth
  answers : ∀ x ∈ s.steps, ∃ u found, S u ∧ next u = .ok found ∧ x.1 ∈ found
  bounded : s.steps.length ≤ maxVisits
  ordered : s.steps.Pairwise fun x y => x.2 ≤ y.2

/-- What the queue leads to, where the nodes of a list are about to be found. -/
structure Covers (due : List γ) (d : ℕ) (s : State β γ κ) : Prop where
  waiting : ∀ q ∈ s.queue, q ∈ s.found node start ∧ q.2 < maxDepth
  span : ∀ q ∈ s.queue, d ≤ q.2 ∧ q.2 ≤ d + 1
  sorted : s.queue.Pairwise fun p q => p.2 ≤ q.2
  below : ∀ x ∈ s.steps, x.2 ≤ d + 1
  done : ∀ f ∈ s.found node start, f.2 < maxDepth → f ∈ s.queue ∨
    ∀ v, Succ node next f.1 v → v ∈ due ∨ ∃ n, (v, n) ∈ s.found node start

end

variable {t : State β γ κ} {x : β} {f : γ × ℕ}

section

variable {node : β → γ} {key : γ → κ} {next : γ → Except ε (List β)} {maxDepth maxVisits : ℕ}
  {start : γ} {S : γ → Prop} {s : State β γ κ} {due : List γ} {d : ℕ}

lemma mem_found : f ∈ s.found node start ↔ f = (start, 0) ∨ ∃ x ∈ s.steps, (node x.1, x.2) = f := by
  rw [State.found, mem_cons, List.mem_map]

lemma start_mem_found : (start, 0) ∈ s.found node start := mem_cons_self

lemma Covers.level (h : Covers node next maxDepth start [] d s) {k : ℕ}
    (hk : ∀ q ∈ s.queue, k ≤ q.2) (hdepth : k ≤ maxDepth)
    (hs : Sound node key next maxDepth maxVisits start S s) :
    ∀ n ≤ k, ∀ u, IsDist (Succ node next) start n u → (u, n) ∈ s.found node start := by
  intro n
  induction n with
  | zero =>
    intro _ u hu
    rw [hu.eq_start]
    exact start_mem_found
  | succ n ih =>
    intro hn v hv
    obtain ⟨u, hu, hedge⟩ := hv.pred
    have hfound := ih (by omega) u hu
    -- the predecessor is nearer than all that waits, so it was asked for its successors
    rcases h.done _ hfound (by dsimp only; omega) with hwaits | hdone
    · have := hk _ hwaits
      omega
    · rcases hdone v hedge with hdue | ⟨m, hm⟩
      · exact absurd hdue not_mem_nil
      · rwa [← (hs.dist _ hm).unique hv]

/-! ## One node's successors -/

lemma found_push (hsteps : t.steps = s.steps ++ [(x, n)]) :
    t.found node start = s.found node start ++ [(node x, n)] := by
  rw [State.found, State.found, hsteps, map_append, map_singleton, cons_append]

lemma mem_found_push (hsteps : t.steps = s.steps ++ [(x, n)])
    : f ∈ t.found node start ↔ f ∈ s.found node start ∨ f = (node x, n) := by
  rw [found_push hsteps, mem_append, mem_singleton]

lemma Sound.push (hs : Sound node key next maxDepth maxVisits start S s)
    (hsteps : t.steps = s.steps ++ [(x, d + 1)]) (hvisited : t.visited = key (node x) :: s.visited)
    (hnew : key (node x) ∉ s.visited) (hx : S (node x))
    (hdist : IsDist (Succ node next) start (d + 1) (node x)) (hdepth : d + 1 ≤ maxDepth)
    (hanswer : ∃ u found, S u ∧ next u = .ok found ∧ x ∈ found) (hroom : s.steps.length < maxVisits)
    (hbelow : ∀ y ∈ s.steps, y.2 ≤ d + 1) : Sound node key next maxDepth maxVisits start S t where
  within f hf := by
    rcases (mem_found_push hsteps).1 hf with hf | rfl
    · exact hs.within f hf
    · exact hx
  visited k := by
    rw [hvisited, mem_cons, hs.visited]
    constructor
    · rintro (rfl | ⟨f, hf, hk⟩)
      · exact ⟨_, (mem_found_push hsteps).2 (.inr rfl), rfl⟩
      · exact ⟨f, (mem_found_push hsteps).2 (.inl hf), hk⟩
    · rintro ⟨f, hf, hk⟩
      rcases (mem_found_push hsteps).1 hf with hf | rfl
      · exact .inr ⟨f, hf, hk⟩
      · exact .inl hk.symm
  nodup := by
    rw [found_push hsteps, map_append, map_singleton, nodup_append]
    refine ⟨hs.nodup, nodup_singleton _, ?_⟩
    rintro u hu v hv rfl
    obtain ⟨f, hf, hfu⟩ := List.mem_map.1 hu
    rw [mem_singleton] at hv
    exact hnew ((hs.visited _).2 ⟨f, hf, by rw [hfu, hv]⟩)
  dist f hf := by
    rcases (mem_found_push hsteps).1 hf with hf | rfl
    · exact hs.dist f hf
    · exact hdist
  depth f hf := by
    rcases (mem_found_push hsteps).1 hf with hf | rfl
    · exact hs.depth f hf
    · exact hdepth
  answers y hy := by
    rw [hsteps, mem_append, mem_singleton] at hy
    rcases hy with hy | rfl
    · exact hs.answers y hy
    · exact hanswer
  bounded := by
    rw [hsteps, length_append, length_singleton]
    exact hroom
  ordered := by
    rw [hsteps, pairwise_append]
    refine ⟨hs.ordered, pairwise_singleton _ _, fun y hy z hz => ?_⟩
    rw [mem_singleton.1 hz]
    exact hbelow y hy

lemma Covers.push {u : γ} (hc : Covers node next maxDepth start (u :: due) d s)
    (hu : u = node x) (hsteps : t.steps = s.steps ++ [(x, d + 1)])
    (hqueue : t.queue = if d + 1 < maxDepth then s.queue ++ [(node x, d + 1)] else s.queue) :
    Covers node next maxDepth start due d t := by
  subst hu
  have hmem : ∀ q, q ∈ t.queue ↔ q ∈ s.queue ∨ d + 1 < maxDepth ∧ q = (node x, d + 1) := by
    intro q
    by_cases hdeep : d + 1 < maxDepth
    · simp [hqueue, hdeep]
    · simp [hqueue, hdeep]
  constructor
  case waiting =>
    intro q hq
    rcases (hmem q).1 hq with hq | ⟨hdeep, rfl⟩
    · exact ⟨(mem_found_push hsteps).2 (.inl (hc.waiting q hq).1), (hc.waiting q hq).2⟩
    · exact ⟨(mem_found_push hsteps).2 (.inr rfl), hdeep⟩
  case span =>
    intro q hq
    rcases (hmem q).1 hq with hq | ⟨-, rfl⟩
    · exact hc.span q hq
    · exact ⟨Nat.le_succ d, le_rfl⟩
  case sorted =>
    rw [hqueue]
    split_ifs
    · rw [pairwise_append]
      refine ⟨hc.sorted, pairwise_singleton _ _, fun p hp q hq => ?_⟩
      rw [mem_singleton.1 hq]
      exact (hc.span p hp).2
    · exact hc.sorted
  case below =>
    intro y hy
    rw [hsteps, mem_append, mem_singleton] at hy
    rcases hy with hy | rfl
    · exact hc.below y hy
    · exact le_rfl
  case done =>
    intro f hf hdeep
    rcases (mem_found_push hsteps).1 hf with hf | rfl
    · rcases hc.done f hf hdeep with hwaits | hdone
      · exact .inl ((hmem f).2 (.inl hwaits))
      · refine .inr fun v hv => ?_
        rcases hdone v hv with hdue | ⟨n, hn⟩
        · rcases mem_cons.1 hdue with rfl | hdue
          · exact .inr ⟨d + 1, (mem_found_push hsteps).2 (.inr rfl)⟩
          · exact .inl hdue
        · exact .inr ⟨n, (mem_found_push hsteps).2 (.inl hn)⟩
    · exact .inl ((hmem _).2 (.inr ⟨hdeep, rfl⟩))

lemma Covers.skip {u : γ} (hc : Covers node next maxDepth start (u :: due) d s)
    (hu : ∃ n, (u, n) ∈ s.found node start) : Covers node next maxDepth start due d s where
  waiting := hc.waiting
  span := hc.span
  sorted := hc.sorted
  below := hc.below
  done f hf hdeep := by
    refine (hc.done f hf hdeep).imp_right fun hdone v hv => ?_
    rcases hdone v hv with hdue | hfound
    · rcases mem_cons.1 hdue with rfl | hdue
      · exact .inr hu
      · exact .inl hdue
    · exact .inr hfound

/-- How much a search has left to do: what waits, and what may still be stepped on. -/
def State.left (maxVisits : ℕ) (s : State β γ κ) : ℕ := s.queue.length + (maxVisits - s.steps.length)

lemma left_add : (s.add node key d x).left maxVisits ≤ s.left maxVisits := by
  unfold State.left State.add
  simp only [length_append, length_singleton]
  omega

lemma left_add_wait {q : γ × ℕ} (hroom : s.steps.length < maxVisits) :
    { s.add node key d x with queue := s.queue ++ [q] }.left maxVisits ≤ s.left maxVisits := by
  unfold State.left State.add
  simp only [length_append, length_singleton]
  omega

variable [DecidableEq κ]

lemma visit_spec (hS : Closed node key next start S) (hd : d < maxDepth)
    (hv : IsDist (Succ node next) start d v) (hvS : S v) {found : List β} (hnext : next v = .ok found) :
    ∀ xs : List β, (∀ x ∈ xs, x ∈ found ∧ S (node x)) → ∀ s : State β γ κ,
      (∀ n ≤ d, ∀ u, IsDist (Succ node next) start n u → (u, n) ∈ s.found node start) →
      s.steps.length < maxVisits → Sound node key next maxDepth maxVisits start S s →
      Covers node next maxDepth start (xs.map node) d s →
      Sound node key next maxDepth maxVisits start S (visit node key maxDepth maxVisits (d + 1) xs s) ∧
        (maxVisits ≤ (visit node key maxDepth maxVisits (d + 1) xs s).steps.length ∨
          Covers node next maxDepth start [] d (visit node key maxDepth maxVisits (d + 1) xs s)) ∧
        (visit node key maxDepth maxVisits (d + 1) xs s).left maxVisits ≤ s.left maxVisits := by
  intro xs
  induction xs with
  | nil =>
    intro _ s _ _ hs hc
    exact ⟨hs, .inr hc, le_rfl⟩
  | cons x xs ih =>
    intro hxs s hlevel hroom hs hc
    have hxs' : ∀ y ∈ xs, y ∈ found ∧ S (node y) := fun y hy => hxs y (mem_cons_of_mem _ hy)
    obtain ⟨hmem, hx⟩ := hxs x mem_cons_self
    rw [visit]
    by_cases hseen : key (node x) ∈ s.visited
    · -- a node whose key was visited is the node that was found under it
      obtain ⟨f, hf, hkey⟩ := (hs.visited _).1 hseen
      have hsame := hS.inj _ _ (hs.within f hf) hx hkey
      rw [if_pos hseen]
      exact ih hxs' s hlevel hroom hs (hc.skip ⟨f.2, by rw [← hsame]; exact hf⟩)
    · rw [if_neg hseen]
      have hedge : Succ node next v (node x) := ⟨found, hnext, x, hmem, rfl⟩
      have hdist : IsDist (Succ node next) start (d + 1) (node x) := by
        refine ⟨hv.1.step hedge, fun m hm => ?_⟩
        by_contra hlt
        -- a node any nearer was found
        obtain ⟨k, hk, hdist⟩ := hm.exists_isDist
        exact hseen ((hs.visited _).2 ⟨_, hlevel k (by omega) _ hdist, rfl⟩)
      have hpush : ∀ t : State β γ κ, t.steps = s.steps ++ [(x, d + 1)] →
          t.visited = key (node x) :: s.visited → Sound node key next maxDepth maxVisits start S t :=
        fun t hsteps hvisited => hs.push hsteps hvisited hseen hx hdist hd
          ⟨v, found, hvS, hnext, hmem⟩ hroom hc.below
      have hlevel' : ∀ t : State β γ κ, t.steps = s.steps ++ [(x, d + 1)] →
          ∀ n ≤ d, ∀ u, IsDist (Succ node next) start n u → (u, n) ∈ t.found node start :=
        fun t hsteps n hn u hu => (mem_found_push hsteps).2 (.inl (hlevel n hn u hu))
      by_cases hfull : maxVisits ≤ (s.add node key (d + 1) x).steps.length
      · rw [if_pos hfull]
        exact ⟨hpush _ rfl rfl, .inl hfull, left_add⟩
      · rw [if_neg hfull]
        by_cases hdeep : d + 1 < maxDepth
        · rw [if_pos hdeep]
          obtain ⟨hsound, hcovers, hleft⟩ := ih hxs'
            { s.add node key (d + 1) x with queue := s.queue ++ [(node x, d + 1)] } (hlevel' _ rfl)
            (Nat.lt_of_not_le hfull) (hpush _ rfl rfl) (hc.push rfl rfl (by rw [if_pos hdeep]))
          exact ⟨hsound, hcovers, le_trans hleft (left_add_wait hroom)⟩
        · rw [if_neg hdeep]
          obtain ⟨hsound, hcovers, hleft⟩ := ih hxs' (s.add node key (d + 1) x) (hlevel' _ rfl)
            (Nat.lt_of_not_le hfull) (hpush _ rfl rfl) (hc.push rfl rfl (by rw [if_neg hdeep]; rfl))
          exact ⟨hsound, hcovers, le_trans hleft left_add⟩

/-! ## The loop -/

/-- What a search comes to. -/
structure Found (node : β → γ) (key : γ → κ) (next : γ → Except ε (List β))
    (maxDepth maxVisits : ℕ) (start : γ) (S : γ → Prop) (s : State β γ κ) : Prop extends
    Sound node key next maxDepth maxVisits start S s where
  whole : s.steps.length < maxVisits → ∀ n ≤ maxDepth, ∀ v, IsDist (Succ node next) start n v →
    (v, n) ∈ s.found node start

/-- The loop ends, from a state in which the search is under way or that is full, and with fuel for what
is left to do. -/
theorem loop_of_sound (hS : Closed node key next start S) : ∀ fuel (s : State β γ κ) (d : ℕ),
    Sound node key next maxDepth maxVisits start S s →
    maxVisits ≤ s.steps.length ∨ Covers node next maxDepth start [] d s →
    s.left maxVisits < fuel → ∃ s', loop node key next maxDepth maxVisits fuel s = some (.ok s') ∧
      Found node key next maxDepth maxVisits start S s' := by
  intro fuel
  induction fuel with
  | zero =>
    intro s d _ _ hfuel
    exact absurd hfuel (Nat.not_lt_zero _)
  | succ fuel ih =>
    intro s d hs hc hfuel
    rw [loop]
    cases hqueue : s.queue with
    | nil =>
      refine ⟨s, rfl, hs, fun hlt => ?_⟩
      have hc := hc.resolve_left (Nat.not_le_of_lt hlt)
      exact hc.level (by simp [hqueue]) le_rfl hs
    | cons q rest =>
      obtain ⟨v, e⟩ := q
      dsimp only
      by_cases hfull : maxVisits ≤ s.steps.length
      · rw [if_pos hfull]
        exact ⟨s, rfl, hs, fun hlt => absurd hfull (Nat.not_le_of_lt hlt)⟩
      · have hc := hc.resolve_left hfull
        have hwaits := hc.waiting (v, e) (by rw [hqueue]; exact mem_cons_self)
        have hspan := hc.span (v, e) (by rw [hqueue]; exact mem_cons_self)
        have hsorted := hc.sorted
        rw [hqueue, pairwise_cons] at hsorted
        dsimp only at hwaits hspan
        rw [if_neg hfull, if_neg (Nat.not_le_of_lt hwaits.2)]
        have hvS := hs.within _ hwaits.1
        obtain ⟨found, hnext, hfound⟩ := hS.asked v hvS
        rw [hnext]
        have hlevel := hc.level (k := e) (by
          intro q hq
          rw [hqueue] at hq
          rcases mem_cons.1 hq with rfl | hq
          · exact le_rfl
          · exact hsorted.1 q hq) (Nat.le_of_lt hwaits.2) hs
        -- the node that waited first is off the queue: its successors are due
        have hcovers : Covers node next maxDepth start (found.map node) e { s with queue := rest } := by
          constructor
          case waiting => exact fun q hq => hc.waiting q (by rw [hqueue]; exact mem_cons_of_mem _ hq)
          case span =>
            intro q hq
            have := hc.span q (by rw [hqueue]; exact mem_cons_of_mem _ hq)
            exact ⟨hsorted.1 q hq, by omega⟩
          case sorted => exact hsorted.2
          case below => exact fun x hx => le_trans (hc.below x hx) (by omega)
          case done =>
            intro f hf hdeep
            rcases hc.done f hf hdeep with hq | hdone
            · rw [hqueue] at hq
              rcases mem_cons.1 hq with rfl | hq
              · refine .inr fun w hw => .inl ?_
                obtain ⟨found', hnext', x, hx, rfl⟩ := hw
                rw [hnext] at hnext'
                cases hnext'
                exact List.mem_map_of_mem hx
              · exact .inl hq
            · refine .inr fun w hw => .inr ?_
              exact (hdone w hw).resolve_left not_mem_nil
        obtain ⟨hsound, hrest, hleft⟩ := visit_spec hS hwaits.2 (hs.dist _ hwaits.1) hvS hnext found
          (fun x hx => ⟨hx, hfound x hx⟩) { s with queue := rest } hlevel (Nat.lt_of_not_le hfull)
          { hs with } hcovers
        have hless : ({ s with queue := rest } : State β γ κ).left maxVisits < s.left maxVisits := by
          unfold State.left
          rw [hqueue, length_cons]
          dsimp only
          omega
        exact ih _ e hsound hrest (by omega)

lemma loop_spec (maxVisits : ℕ) (hS : Closed node key next start S) (hdepth : 0 < maxDepth) :
    ∃ s, loop node key next maxDepth maxVisits (maxVisits + 2) (.first key start) = some (.ok s) ∧
      Found node key next maxDepth maxVisits start S s := by
  have hfound : (State.first key start : State β γ κ).found node start = [(start, 0)] := rfl
  refine loop_of_sound hS _ _ 0 ?_ (.inr ?_) ?_
  · constructor
    case within =>
      intro f hf
      rw [hfound, mem_singleton] at hf
      rw [hf]
      exact hS.first
    case visited =>
      intro k
      rw [hfound]
      simp [State.first, eq_comm]
    case nodup => simp [hfound]
    case dist =>
      intro f hf
      rw [hfound, mem_singleton] at hf
      rw [hf]
      exact isDist_start
    case depth =>
      intro f hf
      rw [hfound, mem_singleton] at hf
      rw [hf]
      exact Nat.zero_le _
    case answers => simp [State.first]
    case bounded => exact Nat.zero_le _
    case ordered => exact List.Pairwise.nil
  · constructor
    case waiting =>
      intro q hq
      rw [State.first, mem_singleton] at hq
      rw [hq, hfound]
      exact ⟨mem_singleton_self _, hdepth⟩
    case span =>
      intro q hq
      rw [State.first, mem_singleton] at hq
      rw [hq]
      exact ⟨le_rfl, Nat.zero_le _⟩
    case sorted => exact pairwise_singleton _ _
    case below => simp [State.first]
    case done =>
      intro f hf _
      exact .inl hf
  · simp [State.left, State.first]
    omega

end

end Zelavis.Lib.BreadthFirst
