import Zelavis.Lib.Tasks

/-!
# Fibers of a process

Programs run side by side on what they share, one call at a time. A call knows the number of the fiber that
makes it, so that a permit can be one fiber's. A crash ends all of them.
-/

namespace Zelavis.Lib.Fibers

open Tasks

section Programs

variable {C : Type} {A : C → Type} {ε α β : Type}

def attempt (t : Task C A ε α) : Task C A ε (Except ε α) :=
  (t.bind fun a => .done (.ok a)).tryCatch fun e => .done (.error e)

def settle : Except ε α → Task C A ε α
  | .ok a => .done a
  | .error e => .fail e

/-- A program and a last step, which is taken whether the program ends or fails. -/
def ensuring (t : Task C A ε α) (last : Task C A ε β) : Task C A ε α :=
  (attempt t).bind fun r => last.bind fun _ => settle r

def onError (t : Task C A ε α) (step : ε → Task C A ε β) : Task C A ε α :=
  t.tryCatch fun e => (step e).bind fun _ => .fail e

end Programs

/-! ## Processes -/

/-- What fibers run, and what their calls come to. A fiber's number is its place among those that have
begun. -/
structure Process (S Q C : Type) (A : C → Type) (ε α E F B : Type) where
  program : Q → Task C A ε α
  exec : ℕ → E → S → (c : C) → Option (S × Except ε (A c))
  passes : F → S → Option S
  crashes : B → S → Option S

/-- What the fibers share, and what is left of each of them, in the order they began. -/
structure World (S J : Type) where
  shared : S
  fibers : List J

/-- What happens next. -/
inductive Event (Q E F B : Type) where
  | begins (request : Q)
  | moves (k : ℕ) (event : E)
  | passes (event : F)
  | crashes (event : B)

variable {S Q C : Type} {A : C → Type} {ε α E F B : Type}

namespace Process

variable (P : Process S Q C A ε α E F B)

def step (w : World S (Job Q C A ε α)) : Event Q E F B → Option (World S (Job Q C A ε α))
  | .begins request => some { w with fibers := w.fibers ++ [.asked request] }
  | .moves k event =>
    w.fibers[k]?.bind fun job =>
      ((job.rest P.program).advance (P.exec k) event w.shared).map fun next =>
        ⟨next.1, w.fibers.set k (.running job.request next.2)⟩
  | .passes event => (P.passes event w.shared).map fun shared => { w with shared }
  | .crashes event => (P.crashes event w.shared).map fun shared => ⟨shared, []⟩

def after (w : World S (Job Q C A ε α)) (events : List (Event Q E F B)) :
    Option (World S (Job Q C A ε α)) := events.foldlM P.step w

def callAt (w : World S (Job Q C A ε α)) : Event Q E F B → Option (ℕ × C)
  | .moves k _ => w.fibers[k]?.bind fun job => (job.nextCall P.program).map fun c => (k, c)
  | _ => none

/-- Every call that is made meets a condition on what is shared before it. -/
def Within (cond : ℕ → C → S → Prop) : World S (Job Q C A ε α) → List (Event Q E F B) → Prop
  | _, [] => True
  | w, e :: events =>
    (∀ k c, P.callAt w e = some (k, c) → cond k c w.shared) ∧
      ∀ w', P.step w e = some w' → Within cond w' events

def Every (cond : World S (Job Q C A ε α) → Event Q E F B → Prop) :
    World S (Job Q C A ε α) → List (Event Q E F B) → Prop
  | _, [] => True
  | w, e :: events => cond w e ∧ ∀ w', P.step w e = some w' → Every cond w' events

variable {P} {w w' : World S (Job Q C A ε α)}

lemma after_nil (h : P.after w [] = some w') : w' = w :=
  (Option.some.inj h).symm

variable {e : Event Q E F B}

lemma after_cons {events : List (Event Q E F B)}
    (h : P.after w (e :: events) = some w') : ∃ w₁, P.step w e = some w₁ ∧ P.after w₁ events = some w' :=
  Option.bind_eq_some_iff.1 h

variable {first events : List (Event Q E F B)}

lemma within_true (w : World S (Job Q C A ε α)) (events : List (Event Q E F B)) :
    P.Within (fun _ _ _ => True) w events := by
  induction events generalizing w with
  | nil => exact trivial
  | cons e events ih => exact ⟨fun _ _ _ => trivial, fun w' _ => ih w'⟩

lemma within_append {cond : ℕ → C → S → Prop}
    (h : P.Within cond w (first ++ events)) (hfirst : P.after w first = some w') :
    P.Within cond w first ∧ P.Within cond w' events := by
  induction first generalizing w with
  | nil =>
    cases after_nil hfirst
    exact ⟨trivial, h⟩
  | cons e first ih =>
    obtain ⟨w₁, hstep, hfirst⟩ := after_cons hfirst
    refine ⟨⟨h.1, fun w₂ hstep' => ?_⟩, (ih (h.2 w₁ hstep) hfirst).2⟩
    cases hstep.symm.trans hstep'
    exact (ih (h.2 w₁ hstep) hfirst).1

lemma step_cases (h : P.step w e = some w') :
    (∃ request, e = .begins request ∧ w' = { w with fibers := w.fibers ++ [.asked request] }) ∨
    (∃ k event job c next s' r, e = .moves k event ∧ w.fibers[k]? = some job ∧
      job.rest P.program = .call c next ∧ P.exec k event w.shared c = some (s', r) ∧
      w' = ⟨s', w.fibers.set k (.running job.request (next r))⟩) ∨
    (∃ event s', e = .passes event ∧ P.passes event w.shared = some s' ∧ w' = { w with shared := s' }) ∨
    ∃ event s', e = .crashes event ∧ P.crashes event w.shared = some s' ∧ w' = ⟨s', []⟩ := by
  cases e with
  | begins request => exact .inl ⟨request, rfl, (Option.some.inj h).symm⟩
  | moves k event =>
    obtain ⟨job, hjob, h⟩ := Option.bind_eq_some_iff.1 h
    obtain ⟨⟨s', t⟩, hadvance, rfl⟩ := Option.map_eq_some_iff.1 h
    cases hrest : job.rest P.program with
    | done | fail => rw [hrest] at hadvance; cases hadvance
    | call c next =>
      rw [hrest] at hadvance
      obtain ⟨⟨s₁, r⟩, hexec, hnext⟩ := Option.map_eq_some_iff.1 hadvance
      cases hnext
      exact .inr (.inl ⟨k, event, job, c, next, s₁, r, rfl, hjob, hrest, hexec, rfl⟩)
  | passes event =>
    obtain ⟨s', hs', rfl⟩ := Option.map_eq_some_iff.1 h
    exact .inr (.inr (.inl ⟨event, s', rfl, hs', rfl⟩))
  | crashes event =>
    obtain ⟨s', hs', rfl⟩ := Option.map_eq_some_iff.1 h
    exact .inr (.inr (.inr ⟨event, s', rfl, hs', rfl⟩))

end Process

/-! ## What a program leaves with each of its calls -/

section Guarded

variable (I : S → Prop) (rely : S → S → Prop) (makes : (c : C) → S → S → Except ε (A c) → Prop)
  (owes : S → S → Prop) {β : Type}

/-- Others change what is shared as `rely` says, then a call leads on as `makes` says. Each call then leaves
the invariant, and between the states before and after it what it owes. -/
def Guarded (Q : α → S → Prop) (F : ε → S → Prop) : Task C A ε α → S → Prop
  | .done a, s => Q a s
  | .fail e, s => F e s
  | .call c next, s => ∀ s₁ s' r, I s₁ → rely s s₁ → makes c s₁ s' r →
      I s' ∧ owes s₁ s' ∧ Guarded Q F (next r) s'

variable {I rely makes owes} {Q Q' : α → S → Prop} {R R' : ε → S → Prop} {s s' : S} {t : Task C A ε α}

lemma Guarded.mono (h : Guarded I rely makes owes Q R t s) (hQ : ∀ a s, Q a s → Q' a s)
    (hR : ∀ e s, R e s → R' e s) : Guarded I rely makes owes Q' R' t s := by
  induction t generalizing s with
  | done a => exact hQ a s h
  | fail e => exact hR e s h
  | call c next ih =>
    intro s₁ s' r hI hrely hmakes
    obtain ⟨hI', howes, hnext⟩ := h s₁ s' r hI hrely hmakes
    exact ⟨hI', howes, ih r hnext⟩

lemma guarded_bind {f : α → Task C A ε β} {Q : β → S → Prop}
    (h : Guarded I rely makes owes (fun a s => Guarded I rely makes owes Q R (f a) s) R t s) :
    Guarded I rely makes owes Q R (t.bind f) s := by
  induction t generalizing s with
  | done | fail => exact h
  | call c next ih =>
    intro s₁ s' r hI hrely hmakes
    obtain ⟨hI', howes, hnext⟩ := h s₁ s' r hI hrely hmakes
    exact ⟨hI', howes, ih r hnext⟩

lemma guarded_tryCatch {f : ε → Task C A ε α}
    (h : Guarded I rely makes owes Q (fun e s => Guarded I rely makes owes Q R (f e) s) t s) :
    Guarded I rely makes owes Q R (t.tryCatch f) s := by
  induction t generalizing s with
  | done | fail => exact h
  | call c next ih =>
    intro s₁ s' r hI hrely hmakes
    obtain ⟨hI', howes, hnext⟩ := h s₁ s' r hI hrely hmakes
    exact ⟨hI', howes, ih r hnext⟩

lemma guarded_attempt {Q : Except ε α → S → Prop}
    (h : Guarded I rely makes owes (fun a => Q (.ok a)) (fun e => Q (.error e)) t s) :
    Guarded I rely makes owes Q R (attempt t) s :=
  guarded_tryCatch (guarded_bind h)

lemma guarded_ensuring {last : Task C A ε β} (h : Guarded I rely makes owes
      (fun a => Guarded I rely makes owes (fun _ => Q a) R last)
      (fun e => Guarded I rely makes owes (fun _ => R e) R last) t s) :
    Guarded I rely makes owes Q R (ensuring t last) s := by
  refine guarded_bind (guarded_attempt (h.mono (fun a s hlast => guarded_bind ?_)
    fun e s hlast => guarded_bind ?_))
  · exact hlast.mono (fun _ _ h => h) fun _ _ h => h
  · exact hlast.mono (fun _ _ h => h) fun _ _ h => h

lemma guarded_onError {step : ε → Task C A ε β} (h : Guarded I rely makes owes Q
      (fun e => Guarded I rely makes owes (fun _ => R e) R (step e)) t s) :
    Guarded I rely makes owes Q R (onError t step) s :=
  guarded_tryCatch (h.mono (fun _ _ h => h) fun _ _ hstep => guarded_bind hstep)

lemma guarded_perform {c : C} {Q : A c → S → Prop}
    (h : ∀ s₁ s' r, I s₁ → rely s s₁ → makes c s₁ s' r → I s' ∧ owes s₁ s' ∧
      (∀ a, r = .ok a → Q a s') ∧ ∀ e, r = .error e → R e s') :
    Guarded I rely makes owes Q R (Task.perform c) s := by
  intro s₁ s' r hI hrely hmakes
  obtain ⟨hI', howes, hok, herror⟩ := h s₁ s' r hI hrely hmakes
  cases r with
  | error e => exact ⟨hI', howes, herror e rfl⟩
  | ok a => exact ⟨hI', howes, hok a rfl⟩

lemma Guarded.stable (htrans : ∀ {a b c}, rely a b → rely b c → rely a c)
    (hQ : ∀ {a s s'}, rely s s' → Q a s → Q a s') (hR : ∀ {e s s'}, rely s s' → R e s → R e s')
    (h : Guarded I rely makes owes Q R t s) (hrely : rely s s') : Guarded I rely makes owes Q R t s' := by
  cases t with
  | done a => exact hQ hrely h
  | fail e => exact hR hrely h
  | call c next => exact fun s₁ s₂ r hI hrely' hmakes => h s₁ s₂ r hI (htrans hrely hrely') hmakes

end Guarded

/-! ## What every fiber keeps to -/

def Process.Makes (P : Process S Q C A ε α E F B) (cond : ℕ → C → S → Prop) (k : ℕ) (c : C) (s s' : S)
    (r : Except ε (A c)) : Prop :=
  cond k c s ∧ ∃ event, P.exec k event s c = some (s', r)

def Owes (rely : ℕ → S → S → Prop) (leaves : S → S → Prop) (k : ℕ) (s s' : S) : Prop :=
  leaves s s' ∧ ∀ j, j ≠ k → rely j s s'

/-- What a fiber's program comes down to. -/
abbrev Process.Keeps (P : Process S Q C A ε α E F B) (cond : ℕ → C → S → Prop) (I : S → Prop)
    (rely : ℕ → S → S → Prop) (leaves : S → S → Prop) (k : ℕ) {β : Type} (Post : β → S → Prop)
    (R : ε → S → Prop) (t : Task C A ε β) (s : S) : Prop :=
  Guarded I (rely k) (P.Makes cond k) (Owes rely leaves k) Post R t s

/-- An invariant, what each fiber relies on the others for, what holds of a number no fiber has yet, what
every event leaves between the states before and after it, and what holds where a fiber is done. -/
structure Discipline (P : Process S Q C A ε α E F B) (cond : ℕ → C → S → Prop) (I : S → Prop)
    (rely : ℕ → S → S → Prop) (fresh : ℕ → S → Prop) (leaves : S → S → Prop)
    (ends : Q → ℕ → α → S → Prop) : Prop where
  refl : ∀ k s, rely k s s
  trans : ∀ {k a b c}, rely k a b → rely k b c → rely k a c
  fresh_stable : ∀ {k s s'}, rely k s s' → fresh k s → fresh k s'
  leaves_refl : ∀ s, leaves s s
  ends_stable : ∀ {q k a s s'}, rely k s s' → ends q k a s → ends q k a s'
  programs : ∀ k q s, I s → fresh k s →
    P.Keeps cond I rely leaves k (ends q k) (fun _ _ => True) (P.program q) s
  passes : ∀ {e s s'}, I s → P.passes e s = some s' → I s' ∧ leaves s s' ∧ ∀ k, rely k s s'
  crashes : ∀ {e s s'}, I s → P.crashes e s = some s' → I s' ∧ leaves s s' ∧ ∀ k, fresh k s'

variable {P : Process S Q C A ε α E F B} {cond : ℕ → C → S → Prop} {I : S → Prop}
  {rely : ℕ → S → S → Prop} {fresh : ℕ → S → Prop} {leaves : S → S → Prop} {ends : Q → ℕ → α → S → Prop}

/-- The invariant holds, what is left of every fiber keeps to what it should, and the numbers that are not
taken are fresh. -/
structure Held (P : Process S Q C A ε α E F B) (cond : ℕ → C → S → Prop) (I : S → Prop)
    (rely : ℕ → S → S → Prop) (fresh : ℕ → S → Prop) (leaves : S → S → Prop)
    (ends : Q → ℕ → α → S → Prop) (w : World S (Job Q C A ε α)) : Prop where
  inv : I w.shared
  fibers : ∀ {k job}, w.fibers[k]? = some job →
    P.Keeps cond I rely leaves k (ends job.request k) (fun _ _ => True) (job.rest P.program) w.shared
  fresh : ∀ {k}, w.fibers.length ≤ k → fresh k w.shared

lemma held_start {s : S} (hI : I s) (hfresh : ∀ k, fresh k s) :
    Held P cond I rely fresh leaves ends ⟨s, []⟩ where
  inv := hI
  fibers hjob := by cases hjob
  fresh _ := hfresh _

namespace Discipline

variable (h : Discipline P cond I rely fresh leaves ends) {w w' : World S (Job Q C A ε α)}
include h

lemma keeps_of_rely {q : Q} {k : ℕ} {s s' : S} {t : Task C A ε α} (hrely : rely k s s')
    (hkeeps : P.Keeps cond I rely leaves k (ends q k) (fun _ _ => True) t s) :
    P.Keeps cond I rely leaves k (ends q k) (fun _ _ => True) t s' :=
  hkeeps.stable h.trans h.ends_stable (fun _ => id) hrely

lemma step {e : Event Q E F B} (hw : Held P cond I rely fresh leaves ends w)
    (hcond : ∀ k c, P.callAt w e = some (k, c) → cond k c w.shared) (hstep : P.step w e = some w') :
    Held P cond I rely fresh leaves ends w' ∧ leaves w.shared w'.shared := by
  obtain ⟨request, -, rfl⟩ | ⟨k, event, job, c, next, s', r, rfl, hjob, hrest, hexec, rfl⟩ |
    ⟨event, s', -, hpasses, rfl⟩ | ⟨event, s', -, hcrashes, rfl⟩ := Process.step_cases hstep
  · refine ⟨⟨hw.inv, fun {k job} hjob => ?_, fun hk => hw.fresh ?_⟩, h.leaves_refl _⟩
    · dsimp only at hjob ⊢
      rw [List.getElem?_append] at hjob
      split_ifs at hjob with hlt
      · exact hw.fibers hjob
      · cases List.mem_singleton.1 (List.mem_of_getElem? hjob)
        exact h.programs k request _ hw.inv (hw.fresh (not_lt.1 hlt))
    · dsimp only at hk
      rw [List.length_append] at hk
      exact le_trans (Nat.le_add_right _ _) hk
  · have hcall : P.callAt w (.moves k event : Event Q E F B) = some (k, c) := by
      show w.fibers[k]?.bind _ = _
      rw [hjob, Option.bind_some, Job.nextCall, hrest]
      rfl
    have hkeeps := hw.fibers hjob
    rw [hrest] at hkeeps
    obtain ⟨hI', ⟨hleaves, hothers⟩, hnext⟩ :=
      hkeeps _ s' r hw.inv (h.refl k _) ⟨hcond k c hcall, event, hexec⟩
    have hlt : k < w.fibers.length := (List.getElem?_eq_some_iff.1 hjob).1
    refine ⟨⟨hI', fun {j job'} hjob' => ?_, fun {j} hj => ?_⟩, hleaves⟩
    · dsimp only at hjob' ⊢
      by_cases hjk : j = k
      · subst hjk
        rw [List.getElem?_set_self hlt] at hjob'
        cases hjob'
        exact hnext
      · rw [List.getElem?_set_ne (Ne.symm hjk)] at hjob'
        exact h.keeps_of_rely (hothers j hjk) (hw.fibers hjob')
    · dsimp only at hj ⊢
      rw [List.length_set] at hj
      exact h.fresh_stable (hothers j (Nat.ne_of_gt (lt_of_lt_of_le hlt hj))) (hw.fresh hj)
  · obtain ⟨hI', hleaves, hrely⟩ := h.passes hw.inv hpasses
    exact ⟨⟨hI', fun hjob => h.keeps_of_rely (hrely _) (hw.fibers hjob),
      fun hk => h.fresh_stable (hrely _) (hw.fresh hk)⟩, hleaves⟩
  · obtain ⟨hI', hleaves, hfresh⟩ := h.crashes hw.inv hcrashes
    exact ⟨⟨hI', (fun hjob => by cases hjob), fun _ => hfresh _⟩, hleaves⟩

variable {first events : List (Event Q E F B)}

lemma after (hw : Held P cond I rely fresh leaves ends w)
    (hwithin : P.Within cond w events) (hafter : P.after w events = some w') :
    Held P cond I rely fresh leaves ends w' := by
  induction events generalizing w with
  | nil =>
    cases Process.after_nil hafter
    exact hw
  | cons e events ih =>
    obtain ⟨w₁, hstep, hafter⟩ := Process.after_cons hafter
    exact ih (h.step hw hwithin.1 hstep).1 (hwithin.2 w₁ hstep) hafter

/-- What a condition on an event follows from, given the discipline, it follows from over a run. -/
theorem every {first second : World S (Job Q C A ε α) → Event Q E F B → Prop}
    (himp : ∀ {w e}, Held P cond I rely fresh leaves ends w → first w e → second w e)
    (hw : Held P cond I rely fresh leaves ends w) (hwithin : P.Within cond w events)
    (hevery : P.Every first w events) : P.Every second w events := by
  induction events generalizing w with
  | nil => exact trivial
  | cons e events ih =>
    exact ⟨himp hw hevery.1, fun w' hstep =>
      ih (h.step hw hwithin.1 hstep).1 (hwithin.2 w' hstep) (hevery.2 w' hstep)⟩

end Discipline

end Zelavis.Lib.Fibers
