import Mathlib.Order.Nat
import Mathlib.Data.List.Basic

/-!
# Parties that take turns

Any number of parties share a state. At each turn one more party begins, one of them makes its next
move, the shared state changes without them, or nothing happens; a party that stops is one that is
given no further turn.
-/

namespace Zelavis.Lib.Turns

open List Option

/-- What the parties share, and where each of them is. -/
structure World (S P : Type*) where
  shared : S
  parties : List P

/-- How parties begin and move, and how what they share changes without them. An event says what a
move finds outside: the answer of another system, the moment. -/
structure Rules (S P E F : Type*) where
  begins : P → Bool
  moves : E → S → P → Option (S × P)
  passes : F → S → Option S

/-- A turn. -/
inductive Turn (P E F : Type*) where
  | idle
  | begin (party : P)
  | move (k : ℕ) (event : E)
  | pass (event : F)

variable {S P E F : Type*}

def Rules.play (R : Rules S P E F) (w : World S P) : Turn P E F → Option (World S P)
  | .idle => some w
  | .begin party => if R.begins party then some { w with parties := w.parties ++ [party] } else none
  | .move k event =>
    w.parties[k]?.bind fun p => (R.moves event w.shared p).map fun next =>
      ⟨next.1, w.parties.set k next.2⟩
  | .pass event => (R.passes event w.shared).map fun shared => { w with shared }

/-- A run: a world for every moment, and the turn that leads to the next. -/
structure Run (R : Rules S P E F) where
  world : ℕ → World S P
  turn : ℕ → Turn P E F
  plays : ∀ i, R.play (world i) (turn i) = some (world (i + 1))

variable {R : Rules S P E F} {w w' : World S P} {i j k : ℕ} {p q : P} {ps : List P}

lemma getElem?_set_cases {p' : P} (h : (ps.set k p')[j]? = some q) :
    j = k ∧ q = p' ∨ j ≠ k ∧ ps[j]? = some q := by
  rw [List.getElem?_set] at h
  split_ifs at h with hjk hlt
  · exact .inl ⟨hjk.symm, (some.inj h).symm⟩
  · exact .inr ⟨fun heq => hjk heq.symm, h⟩

lemma getElem?_append_cases {p : P} (h : (ps ++ [p])[j]? = some q) : ps[j]? = some q ∨ q = p := by
  rw [List.getElem?_append] at h
  split_ifs at h
  · exact .inl h
  · exact .inr (mem_singleton.1 (mem_of_getElem? h))

lemma Rules.play_cases {turn : Turn P E F} (h : R.play w turn = some w') : (turn = .idle ∧ w' = w) ∨
    (∃ party, turn = .begin party ∧ R.begins party = true ∧ w' = { w with parties := w.parties ++ [party] }) ∨
    (∃ k event p s' p', turn = .move k event ∧ w.parties[k]? = some p ∧
      R.moves event w.shared p = some (s', p') ∧ w' = ⟨s', w.parties.set k p'⟩) ∨
    ∃ event s', turn = .pass event ∧ R.passes event w.shared = some s' ∧ w' = { w with shared := s' } := by
  cases turn with
  | idle => exact .inl ⟨rfl, (some.inj h).symm⟩
  | begin party =>
    simp only [Rules.play] at h
    split_ifs at h with hb
    exact .inr (.inl ⟨party, rfl, hb, (some.inj h).symm⟩)
  | move k event =>
    obtain ⟨p, hp, h⟩ := bind_eq_some_iff.1 h
    obtain ⟨⟨s', p'⟩, hmove, rfl⟩ := map_eq_some_iff.1 h
    exact .inr (.inr (.inl ⟨k, event, p, s', p', rfl, hp, hmove, rfl⟩))
  | pass event =>
    obtain ⟨s', hs', rfl⟩ := map_eq_some_iff.1 h
    exact .inr (.inr (.inr ⟨event, s', rfl, hs', rfl⟩))

lemma Rules.play_party {turn : Turn P E F} (h : R.play w turn = some w') (hq : w'.parties[k]? = some q) :
    w.parties[k]? = some q ∨ (w.parties[k]? = none ∧ R.begins q = true) ∨
      ∃ event p, turn = .move k event ∧ w.parties[k]? = some p ∧
        R.moves event w.shared p = some (w'.shared, q) := by
  obtain ⟨-, rfl⟩ | ⟨party, -, hb, rfl⟩ | ⟨k', event, p, s', p', rfl, hp, hmove, rfl⟩ |
    ⟨event, s', -, -, rfl⟩ := Rules.play_cases h
  · exact .inl hq
  · dsimp only at hq
    rw [List.getElem?_append] at hq
    split_ifs at hq with hk
    · exact .inl hq
    · refine .inr (.inl ⟨List.getElem?_eq_none (not_lt.1 hk), ?_⟩)
      obtain rfl : q = party := by
        have := mem_of_getElem? hq
        exact mem_singleton.1 this
      exact hb
  · dsimp only at hq
    rw [List.getElem?_set] at hq
    split_ifs at hq with hkk hlt
    · cases hq
      subst hkk
      exact .inr (.inr ⟨event, p, rfl, hp, hmove⟩)
    · exact .inl hq
  · exact .inl hq

lemma Rules.play_stays {turn : Turn P E F} (h : R.play w turn = some w') (hp : w.parties[k]? = some p) :
    w'.parties[k]? = some p ∨ ∃ event q, turn = .move k event ∧ w'.parties[k]? = some q ∧
      R.moves event w.shared p = some (w'.shared, q) := by
  have hlt : k < w.parties.length := (List.getElem?_eq_some_iff.1 hp).1
  obtain ⟨-, rfl⟩ | ⟨party, -, -, rfl⟩ | ⟨k', event, p', s', q, rfl, hp', hmove, rfl⟩ |
    ⟨event, s', -, -, rfl⟩ := Rules.play_cases h
  · exact .inl hp
  · exact .inl (by rw [List.getElem?_append_left hlt, hp])
  · by_cases hkk : k' = k
    · subst hkk
      cases hp'.symm.trans hp
      exact .inr ⟨event, q, rfl, List.getElem?_set_self hlt, hmove⟩
    · exact .inl (by rw [List.getElem?_set_ne hkk, hp])
  · exact .inl hp

namespace Run

variable (run : Run R)

lemma stays_or_moves (hq : (run.world (i + 1)).parties[k]? = some q) : (run.world i).parties[k]? = some q ∨
      ((run.world i).parties[k]? = none ∧ R.begins q = true) ∨
      ∃ event p, run.turn i = .move k event ∧ (run.world i).parties[k]? = some p ∧
        R.moves event (run.world i).shared p = some ((run.world (i + 1)).shared, q) :=
  Rules.play_party (run.plays i) hq

lemma entered (hstart : (run.world 0).parties = []) (hq : (run.world j).parties[k]? = some q)
    (hb : R.begins q = false) :
    ∃ i < j, ∃ event p, run.turn i = .move k event ∧ (run.world i).parties[k]? = some p ∧
      R.moves event (run.world i).shared p = some ((run.world (i + 1)).shared, q) := by
  induction j with
  | zero =>
    rw [hstart] at hq
    cases hq
  | succ j ih =>
    obtain h | ⟨-, h⟩ | h := run.stays_or_moves hq
    · obtain ⟨i, hi, hrest⟩ := ih h
      exact ⟨i, Nat.lt_succ_of_lt hi, hrest⟩
    · exact absurd (h.symm.trans hb) (by decide)
    · exact ⟨j, Nat.lt_succ_self j, h⟩

lemma some_of_some (hp : (run.world i).parties[k]? = some p) (hij : i ≤ j) :
    ∃ q, (run.world j).parties[k]? = some q := by
  induction j, hij using Nat.le_induction with
  | base => exact ⟨p, hp⟩
  | succ j _ ih =>
    obtain ⟨q, hq⟩ := ih
    obtain h | ⟨event, q', -, h, -⟩ := Rules.play_stays (run.plays j) hq
    · exact ⟨q, h⟩
    · exact ⟨q', h⟩

lemma stuck (hmoves : ∀ e s, R.moves e s p = none) (hp : (run.world i).parties[k]? = some p)
    (hij : i ≤ j) : (run.world j).parties[k]? = some p := by
  induction j, hij using Nat.le_induction with
  | base => exact hp
  | succ j _ ih =>
    obtain h | ⟨event, q, -, -, hmove⟩ := Rules.play_stays (run.plays j) ih
    · exact h
    · rw [hmoves] at hmove
      cases hmove

lemma related {T : S → S → Prop} (hrefl : ∀ s, T s s) (htrans : ∀ {a b c}, T a b → T b c → T a c)
    (hstep : ∀ i, T (run.world i).shared (run.world (i + 1)).shared) (hij : i ≤ j) :
    T (run.world i).shared (run.world j).shared := by
  induction j, hij using Nat.le_induction with
  | base => exact hrefl _
  | succ j _ ih => exact htrans ih (hstep j)

/-- Where each party passes a point only while something holds, and leaves it impossible, one does. -/
theorem passed_once (passed : P → Bool) (Ready Gone : World S P → Prop)
    (hstart : (run.world 0).parties = []) (hbegin : ∀ q, R.begins q = true → passed q = false)
    (hpass : ∀ (i k : ℕ) (e : E) (p q : P), run.turn i = .move k e → (run.world i).parties[k]? = some p →
      R.moves e (run.world i).shared p = some ((run.world (i + 1)).shared, q) → passed p = false →
      passed q = true → Ready (run.world i) ∧ Gone (run.world (i + 1)))
    (hgone : ∀ i, Gone (run.world i) → Gone (run.world (i + 1))) (hapart : ∀ w, Ready w → ¬Gone w)
    {k' : ℕ} (hp : (run.world i).parties[k]? = some p) (hpassed : passed p = true)
    (hq : (run.world j).parties[k']? = some q) (hpassed' : passed q = true) : k = k' := by
  -- each passed at some moment, and it is gone ever since
  have hat : ∀ (n k : ℕ) (p : P), (run.world n).parties[k]? = some p → passed p = true →
      ∃ m, (∃ e, run.turn m = .move k e) ∧ Ready (run.world m) ∧ Gone (run.world (m + 1)) := by
    intro n
    induction n with
    | zero =>
      intro k p hp
      rw [hstart] at hp
      cases hp
    | succ n ih =>
      intro k p hp hpassed
      obtain hp' | ⟨-, hb⟩ | ⟨e, p₀, hturn, hp₀, hmove⟩ := run.stays_or_moves hp
      · exact ih k p hp' hpassed
      · rw [hbegin p hb] at hpassed
        cases hpassed
      · by_cases hpassed₀ : passed p₀ = true
        · exact ih k p₀ hp₀ hpassed₀
        · exact ⟨n, ⟨e, hturn⟩, hpass n k e p₀ p hturn hp₀ hmove ((Bool.not_eq_true _).mp hpassed₀) hpassed⟩
  have hkept : ∀ {m n : ℕ}, Gone (run.world m) → m ≤ n → Gone (run.world n) := by
    intro m n hm hmn
    induction n, hmn using Nat.le_induction with
    | base => exact hm
    | succ n _ ih => exact hgone n ih
  obtain ⟨m, ⟨e, hturn⟩, hready, hm⟩ := hat i k p hp hpassed
  obtain ⟨n, ⟨e', hturn'⟩, hready', hn⟩ := hat j k' q hq hpassed'
  obtain hlt | rfl | hlt := lt_trichotomy m n
  · exact absurd (hkept hm (Nat.succ_le_of_lt hlt)) (hapart _ hready')
  · rw [hturn] at hturn'
    cases hturn'
    rfl
  · exact absurd (hkept hn (Nat.succ_le_of_lt hlt)) (hapart _ hready)

lemma kept {Q : World S P → Prop} (hstep : ∀ i, Q (run.world i) → Q (run.world (i + 1)))
    (h : Q (run.world i)) (hij : i ≤ j) : Q (run.world j) := by
  induction j, hij using Nat.le_induction with
  | base => exact h
  | succ j _ ih => exact hstep j ih

end Run

/-! ## What parties cannot disturb -/

def Held (G : S → Prop) (L : S → P → Prop) (w : World S P) : Prop :=
  G w.shared ∧ ∀ p ∈ w.parties, L w.shared p

/-- Something that holds of the shared state, something that holds of each party, and a relation that
every turn leaves between the shared state before and after. A party's part is not disturbed by any
change that keeps to the relation. -/
structure Rules.Keeps (R : Rules S P E F) (G : S → Prop) (L : S → P → Prop) (T : S → S → Prop) :
    Prop where
  begins : ∀ {s p}, G s → R.begins p = true → L s p
  moves : ∀ {e s p s' p'}, G s → L s p → R.moves e s p = some (s', p') → G s' ∧ L s' p' ∧ T s s'
  passes : ∀ {e s s'}, G s → R.passes e s = some s' → G s' ∧ T s s'
  stable : ∀ {s s' p}, G s → T s s' → L s p → L s' p
  refl : ∀ s, T s s

variable {G : S → Prop} {L : S → P → Prop} {T : S → S → Prop}

lemma Rules.Keeps.play (h : R.Keeps G L T) {turn : Turn P E F} (hw : Held G L w)
    (hplay : R.play w turn = some w') : Held G L w' ∧ T w.shared w'.shared := by
  obtain ⟨hG, hL⟩ := hw
  obtain ⟨-, rfl⟩ | ⟨party, -, hb, rfl⟩ | ⟨k, event, p, s', p', -, hp, hmove, rfl⟩ |
    ⟨event, s', -, hpass, rfl⟩ := Rules.play_cases hplay
  · exact ⟨⟨hG, hL⟩, h.refl _⟩
  · refine ⟨⟨hG, fun q hq => ?_⟩, h.refl _⟩
    obtain hq | hq := mem_append.1 hq
    · exact hL q hq
    · cases mem_singleton.1 hq
      exact h.begins hG hb
  · have hpL : L w.shared p := hL p (mem_of_getElem? hp)
    obtain ⟨hG', hL', hT⟩ := h.moves hG hpL hmove
    refine ⟨⟨hG', fun q hq => ?_⟩, hT⟩
    obtain hq | rfl := mem_or_eq_of_mem_set hq
    · exact h.stable hG hT (hL q hq)
    · exact hL'
  · obtain ⟨hG', hT⟩ := h.passes hG hpass
    exact ⟨⟨hG', fun q hq => h.stable hG hT (hL q hq)⟩, hT⟩

namespace Run

variable (run : Run R)

lemma held (h : R.Keeps G L T) (hstart : Held G L (run.world 0)) (i : ℕ) : Held G L (run.world i) := by
  induction i with
  | zero => exact hstart
  | succ i ih => exact (h.play ih (run.plays i)).1

lemma related_of_keeps (h : R.Keeps G L T) (htrans : ∀ {a b c}, T a b → T b c → T a c)
    (hstart : Held G L (run.world 0)) (hij : i ≤ j) : T (run.world i).shared (run.world j).shared :=
  run.related h.refl htrans (fun i => (h.play (run.held h hstart i) (run.plays i)).2) hij

end Run

/-! ## The run of a list of turns -/

/-- Where a list of turns has led at a moment; after the last nothing happens. -/
def Rules.worldAt (R : Rules S P E F) : World S P → List (Turn P E F) → ℕ → World S P
  | w, _, 0 => w
  | w, [], _ + 1 => w
  | w, turn :: turns, i + 1 => Rules.worldAt R ((R.play w turn).getD w) turns i

lemma Rules.play_worldAt : ∀ (turns : List (Turn P E F)) (w : World S P) (i : ℕ),
    (turns.foldlM R.play w).isSome = true →
      R.play (R.worldAt w turns i) (turns.getD i .idle) = some (R.worldAt w turns (i + 1)) := by
  intro turns
  induction turns with
  | nil =>
    intro w i _
    cases i with
    | zero | succ => rfl
  | cons turn turns ih =>
    intro w i h
    obtain ⟨last, h⟩ := isSome_iff_exists.1 h
    obtain ⟨w', hw', h⟩ := bind_eq_some_iff.1 h
    have hget : (R.play w turn).getD w = w' := by rw [hw']; rfl
    cases i with
    | zero =>
      show R.play w turn = some (R.worldAt ((R.play w turn).getD w) turns 0)
      rw [hget, hw']
      cases turns with
      | nil | cons => rfl
    | succ i =>
      show R.play (R.worldAt ((R.play w turn).getD w) turns i) (turns.getD i .idle) =
        some (R.worldAt ((R.play w turn).getD w) turns (i + 1))
      rw [hget]
      exact ih w' i (isSome_iff_exists.2 ⟨last, h⟩)

def Rules.replay (R : Rules S P E F) (w : World S P) (turns : List (Turn P E F))
    (h : (turns.foldlM R.play w).isSome = true) : Run R where
  world := R.worldAt w turns
  turn i := turns.getD i .idle
  plays i := Rules.play_worldAt turns w i h

lemma Rules.replay_all {check : World S P → Turn P E F → Bool} (hidle : ∀ w, check w .idle = true)
    {turns : List (Turn P E F)} {h : (turns.foldlM R.play w).isSome = true}
    (hall : ((List.range turns.length).all fun i =>
      check ((R.replay w turns h).world i) ((R.replay w turns h).turn i)) = true) (i : ℕ) :
    check ((R.replay w turns h).world i) ((R.replay w turns h).turn i) = true := by
  by_cases hi : i < turns.length
  · exact List.all_eq_true.1 hall i (mem_range.2 hi)
  · have hturn : (R.replay w turns h).turn i = .idle := by
      show turns.getD i .idle = .idle
      rw [getD_eq_getElem?_getD, List.getElem?_eq_none (not_lt.1 hi), getD_none]
    rw [hturn]
    exact hidle _

/-! ## A run seen through a part of it -/

/-- What can be seen of the shared state and of the parties, so that a move is a move of what is seen, or
nothing is seen of it. -/
structure Rules.View {S' P' E' F' : Type*} (R : Rules S P E F) (R' : Rules S' P' E' F') where
  shared : S → S'
  party : P → P'
  event : E → P → Option E'
  begins : ∀ {p}, R.begins p = true → R'.begins (party p) = true
  moves : ∀ {e s p s' p' e'}, R.moves e s p = some (s', p') → event e p = some e' →
    R'.moves e' (shared s) (party p) = some (shared s', party p')
  unseen : ∀ {e s p s' p'}, R.moves e s p = some (s', p') → event e p = none →
    shared s' = shared s ∧ party p' = party p
  passes : ∀ {e s s'}, R.passes e s = some s' → shared s' = shared s

namespace Rules.View

variable {S' P' E' F' : Type*} {R' : Rules S' P' E' F'} (v : R.View R')

def world (w : World S P) : World S' P' := ⟨v.shared w.shared, w.parties.map v.party⟩

def turn (w : World S P) : Turn P E F → Turn P' E' F'
  | .idle => .idle
  | .begin party => .begin (v.party party)
  | .move k event => (w.parties[k]?.bind (v.event event)).elim .idle (.move k)
  | .pass _ => .idle

lemma getElem?_world {p : P} (hp : w.parties[k]? = some p) :
    (v.world w).parties[k]? = some (v.party p) := by
  rw [world, List.getElem?_map, hp]
  rfl

lemma plays {turn : Turn P E F} (h : R.play w turn = some w') :
    R'.play (v.world w) (v.turn w turn) = some (v.world w') := by
  obtain ⟨rfl, rfl⟩ | ⟨party, rfl, hb, rfl⟩ | ⟨k, event, p, s', p', rfl, hp, hmove, rfl⟩ |
    ⟨event, s', rfl, hpass, rfl⟩ := Rules.play_cases h
  · rfl
  · simp [View.turn, Rules.play, v.begins hb, world]
  · rw [View.turn, hp, bind_some]
    cases he : v.event event p with
    | none =>
      obtain ⟨hs, hparty⟩ := v.unseen hmove he
      obtain ⟨hlt, hget⟩ := List.getElem?_eq_some_iff.1 hp
      have hset : (w.parties.map v.party).set k (v.party p') = w.parties.map v.party := by
        rw [hparty, ← hget, ← getElem_map v.party (h := by rwa [length_map]), set_getElem_self]
      rw [elim_none, Rules.play, world, world, map_set, hset, hs]
    | some e' =>
      have hp' := v.getElem?_world hp
      rw [elim_some, Rules.play, hp', bind_some]
      dsimp only [world] at hp' ⊢
      rw [v.moves hmove he, map_some, map_set]
  · rw [View.turn, Rules.play, world, world, v.passes hpass]

def run (r : Run R) : Run R' where
  world i := v.world (r.world i)
  turn i := v.turn (r.world i) (r.turn i)
  plays i := v.plays (r.plays i)

end Rules.View

end Zelavis.Lib.Turns
