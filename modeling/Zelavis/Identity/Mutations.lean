import Mathlib.Data.List.Basic

/-!
# Changing a record that others change

`database.ts` `mutate`: it reads a record with its version, decides on what is to follow, and inserts,
deletes or updates on condition of that version; a conflict makes it start over, a hundred times at most.
-/

namespace Zelavis.Identity

/-! ## One change -/

/-- A record and how often it has been written. Source: `documents.ts` `Document`, its `version`. -/
structure Versioned (α : Type) where
  version : ℕ
  value : α
  deriving DecidableEq

def Versioned.put {α : Type} (v : Versioned α) (value : α) : Versioned α := ⟨v.version + 1, value⟩

/-- What a conditional write comes to. -/
inductive Written (α : Type) where
  | stored (record : Option (Versioned α))
  | conflict
  | notFound

variable {α : Type}

/-- The conditional write of what is to follow a reading. To delete what is no longer there is no
conflict. Source: `mutate`; `documents.ts` `applyInsert`, `applyUpdate`, `applyDelete`. -/
def write (next : Option α) : Option (Versioned α) → Option (Versioned α) → Written α
  | none, none => .stored (next.map fun value => ⟨1, value⟩)
  | none, some _ => .conflict
  | some _, none => if next.isNone then .stored none else .notFound
  | some read, some stored =>
    if read.version = stored.version then .stored (next.map stored.put) else .conflict

/-- Where a change is: how often it has started over, and what it has read, if it has read. -/
structure Mutate (α : Type) where
  retry : ℕ
  read : Option (Option (Versioned α))
  deriving DecidableEq

def Mutate.start : Mutate α := ⟨0, none⟩

/-- What a step of a change comes to. -/
inductive Came (α : Type) where
  | going (next : Mutate α)
  | through (current next : Option α)
  | failed

/-- The next step of a change. Source: `mutate`. -/
def Mutate.next (mutation : Option α → Option α) (stored : Option (Versioned α)) (m : Mutate α) :
    Option (Versioned α) × Came α :=
  match m.read with
  | none =>
    if stored.isNone ∧ (mutation none).isNone then (stored, .through none none)
    else (stored, .going { m with read := some stored })
  | some read =>
    let current := read.map Versioned.value
    match write (mutation current) read stored with
    | .stored record => (record, .through current (mutation current))
    | .conflict => (stored, if m.retry + 1 < 100 then .going ⟨m.retry + 1, none⟩ else .failed)
    | .notFound => (stored, .failed)

/-! ## What was read, and what is stored -/

/-- What may have become of a record since it was read, where none is deleted: another version, or nothing. -/
def Follows (read stored : Versioned α) : Prop :=
  read.version < stored.version ∨ read = stored

lemma Follows.refl (v : Versioned α) : Follows v v := .inr rfl

lemma Follows.put (v : Versioned α) (value : α) : Follows v (v.put value) :=
  .inl (Nat.lt_succ_self _)

lemma Follows.trans {a b c : Versioned α} (hab : Follows a b) (hbc : Follows b c) : Follows a c := by
  obtain hab | rfl := hab
  · obtain hbc | rfl := hbc
    · exact .inl (Nat.lt_trans hab hbc)
    · exact .inl hab
  · exact hbc

lemma Follows.eq {a b : Versioned α} (h : Follows a b) (hversion : a.version = b.version) : a = b := by
  obtain h | h := h
  · exact absurd hversion (Nat.ne_of_lt h)
  · exact h

def Mutate.Reads (m : Mutate α) (stored : Option (Versioned α)) : Prop :=
  ∀ read, m.read = some read → ∃ v w, read = some v ∧ stored = some w ∧ Follows v w

lemma Mutate.reads_start (stored : Option (Versioned α)) : (Mutate.start : Mutate α).Reads stored := nofun

variable {m : Mutate α}

lemma Mutate.Reads.later {stored later : Option (Versioned α)} (h : m.Reads stored)
    (hlater : ∀ v, stored = some v → ∃ w, later = some w ∧ Follows v w) : m.Reads later := by
  intro read hread
  obtain ⟨u, v, rfl, rfl, huv⟩ := h read hread
  obtain ⟨w, rfl, hvw⟩ := hlater v rfl
  exact ⟨u, w, rfl, rfl, huv.trans hvw⟩

def Mutate.writes (m : Mutate α) (stored : Option (Versioned α)) : Bool :=
  m.read.any fun read => read.any fun v => stored.any fun w => v.version = w.version

lemma Mutate.next_cases {f : α → α} {stored : Option (Versioned α)} (h : m.Reads stored) :
    (stored = none ∧ m.next (Option.map f) stored = (none, .through none none)) ∨
    (∃ m' : Mutate α, m'.Reads stored ∧ m.next (Option.map f) stored = (stored, .going m')) ∨
    m.next (Option.map f) stored = (stored, .failed) ∨
    ∃ v, stored = some v ∧ m.writes stored = true ∧ m.next (Option.map f) stored =
      (some (v.put (f v.value)), .through (some v.value) (some (f v.value))) := by
  obtain ⟨retry, read⟩ := m
  cases read with
  | none =>
    cases stored with
    | none => exact .inl ⟨rfl, rfl⟩
    | some v =>
      refine .inr (.inl ⟨⟨retry, some (some v)⟩, fun read hread => ?_, rfl⟩)
      cases hread
      exact ⟨v, v, rfl, rfl, Follows.refl v⟩
  | some read =>
    obtain ⟨v, w, rfl, rfl, hvw⟩ := h read rfl
    simp only [Mutate.next, write, Option.map_some]
    by_cases hversion : v.version = w.version
    · obtain rfl := hvw.eq hversion
      rw [if_pos rfl]
      exact .inr (.inr (.inr ⟨v, rfl, by simp [Mutate.writes], rfl⟩))
    · rw [if_neg hversion]
      by_cases hretry : retry + 1 < 100
      · rw [if_pos hretry]
        exact .inr (.inl ⟨⟨retry + 1, none⟩, nofun, rfl⟩)
      · rw [if_neg hretry]
        exact .inr (.inr (.inl rfl))

end Zelavis.Identity
