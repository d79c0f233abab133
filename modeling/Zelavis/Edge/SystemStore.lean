import Mathlib.Data.Option.Basic
import Mathlib.Order.Lattice
import Mathlib.Order.Nat

/-!
# Records of the system store

What `system-store.ts` promises of one record: it is read with the moment it was written, and it is
written whatever is stored, where nobody else has written it since, or where there is none.
-/

namespace Zelavis.Edge

variable {α : Type}

/-- A record of the system store, and the moment it was written. Source: `ZelavisSystemStoreRecord`. -/
structure Versioned (α : Type) where
  value : α
  updatedAt : ℕ
  deriving DecidableEq

/-- A record written whatever is stored. Source: `set`. -/
def setRecord {α : Type} (now : ℕ) (stored : Option (Versioned α)) (value : α) : Versioned α :=
  ⟨value, stored.elim now fun r => max now (r.updatedAt + 1)⟩

variable {now : ℕ}

lemma updatedAt_lt_setRecord {r : Versioned α} {value : α} :
    r.updatedAt < (setRecord now (some r) value).updatedAt :=
  lt_of_lt_of_le (Nat.lt_succ_self _) (le_max_right _ _)

/-- A record written where it is still the one that was read. Source: `compareAndSet`. -/
def compareAndSet {α : Type} [DecidableEq α] (now : ℕ) (stored : Option (Versioned α))
    (expected : Versioned α) (value : α) : Option (Versioned α) :=
  stored.bind fun r =>
    if r.updatedAt = expected.updatedAt ∧ r.value = expected.value then
      some ⟨value, max now (expected.updatedAt + 1)⟩
    else none

lemma compareAndSet_eq_some [DecidableEq α] {stored : Option (Versioned α)}
    {expected r : Versioned α} {value : α} (h : compareAndSet now stored expected value = some r) :
    stored = some expected ∧ r.value = value := by
  obtain ⟨s, hs, hr⟩ := Option.bind_eq_some_iff.1 h
  split_ifs at hr with heq
  cases hr
  obtain ⟨v, u⟩ := s
  obtain ⟨v', u'⟩ := expected
  obtain ⟨rfl, rfl⟩ : u = u' ∧ v = v' := heq
  exact ⟨hs, rfl⟩

lemma updatedAt_lt_of_compareAndSet [DecidableEq α]
    {stored : Option (Versioned α)} {expected r : Versioned α} {value : α}
    (h : compareAndSet now stored expected value = some r) : expected.updatedAt < r.updatedAt := by
  obtain ⟨s, -, hr⟩ := Option.bind_eq_some_iff.1 h
  split_ifs at hr
  cases hr
  exact lt_of_lt_of_le (Nat.lt_succ_self _) (le_max_right _ _)

/-- A record written where there is none. Source: `setIfAbsent`. -/
def setIfAbsent {α : Type} (now : ℕ) (stored : Option (Versioned α)) (value : α) :
    Option (Versioned α) :=
  if stored.isNone then some ⟨value, now⟩ else none

lemma setIfAbsent_eq_some {stored : Option (Versioned α)} {r : Versioned α}
    {value : α} (h : setIfAbsent now stored value = some r) : stored = none ∧ r.value = value := by
  unfold setIfAbsent at h
  split_ifs at h with hnone
  cases h
  exact ⟨Option.isNone_iff_eq_none.1 hnone, rfl⟩

/-- A record written where what is stored is still what was read, be it nothing. -/
def putAt {α : Type} [DecidableEq α] (now : ℕ) (stored observed : Option (Versioned α)) (value : α) :
    Option (Versioned α) :=
  match observed with
  | some expected => compareAndSet now stored expected value
  | none => setIfAbsent now stored value

lemma putAt_eq_some [DecidableEq α] {stored observed : Option (Versioned α)}
    {r : Versioned α} {value : α} (h : putAt now stored observed value = some r) :
    stored = observed ∧ r.value = value ∧ ∀ o, observed = some o → o.updatedAt < r.updatedAt := by
  cases observed with
  | some expected =>
    obtain ⟨hs, hv⟩ := compareAndSet_eq_some h
    refine ⟨hs, hv, fun o ho => ?_⟩
    cases ho
    exact updatedAt_lt_of_compareAndSet h
  | none =>
    obtain ⟨hs, hv⟩ := setIfAbsent_eq_some h
    refine ⟨hs, hv, fun o ho => ?_⟩
    cases ho

/-- How a call of the store goes. -/
inductive Reply where
  | done
  | refused
  | lost
  deriving DecidableEq

def Reply.happens (reply : Reply) : Bool := reply ≠ .refused

end Zelavis.Edge
