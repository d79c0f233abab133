import Zelavis.Edge.RouteValidation
import Zelavis.Lib.Turns

/-!
# The system store, and the loops that are built on it

`system-store.ts` `createMemorySystemStore`: records under ids, each with the moment it was written, and
conditional writes that ask for that moment. `auth-repositories.ts` `mutateEntity` reads a record and
writes it back where it is still the one that was read, and starts over where it is not.
-/

namespace Zelavis.Platform.SystemStore

open Lib Turns Edge Option

/-! ## Records and calls -/

/-- Source: `system-store.ts` `normalizePart`; nothing where it throws. -/
def normalizePart (value : Utf16) : Option Utf16 :=
  let normalized := trim value
  if normalized = [] then none else some normalized

/-- Source: `system-store.ts` `createMemorySystemStore`, its `recordId`. -/
def recordId (space key : Utf16) : Option Utf16 := do
  let space ← normalizePart space
  let key ← normalizePart key
  some (space ++ 0 :: key)

variable {V : Type} [DecidableEq V]

/-- The records, by their ids. Source: `system-store.ts` `createMemorySystemStore`, its `records`. -/
abbrev Records (V : Type) := Utf16 → Option (Versioned V)

/-- What a record may be asked. Source: `system-store.ts` `ZelavisSystemStore`. -/
inductive Operation (V : Type) where
  | get
  | set (value : V)
  | setIfAbsent (value : V)
  | compareAndSet (expectedUpdatedAt : ℕ) (value : V) (expectedValue : Option V)
  | compareAndDelete (expectedUpdatedAt : ℕ)
  | delete

/-- What is answered. -/
inductive Answer (V : Type) where
  | threw
  | found (record : Option (Versioned V))
  | whether (done : Bool)

/-- What is stored was written at the moment that is expected, and holds what is expected where that is
said. -/
def isExpected (stored : Option (Versioned V)) (expectedUpdatedAt : ℕ) (expectedValue : Option V) : Bool :=
  stored.any fun r => r.updatedAt = expectedUpdatedAt && expectedValue.all (r.value = ·)

/-- Source: `system-store.ts` `compareAndSet`. -/
def compareAndSetRecord (now : ℕ) (stored : Option (Versioned V)) (expectedUpdatedAt : ℕ) (value : V)
    (expectedValue : Option V) : Option (Versioned V) :=
  if isExpected stored expectedUpdatedAt expectedValue then some (setRecord now stored value) else none

/-- Source: `system-store.ts` `compareAndDelete`. -/
def compareAndDeleteRecord (stored : Option (Versioned V)) (expectedUpdatedAt : ℕ) : Bool :=
  isExpected stored expectedUpdatedAt none

/-- What an operation leaves of a record, and what it answers. Source: `system-store.ts`
`createMemorySystemStore`. -/
def Operation.act (now : ℕ) (stored : Option (Versioned V)) :
    Operation V → Option (Versioned V) × Answer V
  | .get => (stored, .found stored)
  | .set value => (some (setRecord now stored value), .found (some (setRecord now stored value)))
  | .setIfAbsent value =>
    match Edge.setIfAbsent now stored value with
    | some record => (some record, .whether true)
    | none => (stored, .whether false)
  | .compareAndSet expectedUpdatedAt value expectedValue =>
    match compareAndSetRecord now stored expectedUpdatedAt value expectedValue with
    | some record => (some record, .found (some record))
    | none => (stored, .found none)
  | .compareAndDelete expectedUpdatedAt =>
    if compareAndDeleteRecord stored expectedUpdatedAt then (none, .whether true)
    else (stored, .whether false)
  | .delete => (none, .whether stored.isSome)

def Operation.writes (stored : Option (Versioned V)) : Operation V → Bool
  | .get => false
  | .set _ => true
  | .setIfAbsent _ => stored.isNone
  | .compareAndSet expectedUpdatedAt _ expectedValue => isExpected stored expectedUpdatedAt expectedValue
  | .compareAndDelete expectedUpdatedAt => compareAndDeleteRecord stored expectedUpdatedAt
  | .delete => stored.isSome

/-- A call of the store. -/
structure Call (V : Type) where
  space : Utf16
  key : Utf16
  operation : Operation V

def Call.perform (now : ℕ) (records : Records V) (call : Call V) : Records V × Answer V :=
  match recordId call.space call.key with
  | none => (records, .threw)
  | some id =>
    (Function.update records id (call.operation.act now (records id)).1,
      (call.operation.act now (records id)).2)

def Call.writes (records : Records V) (call : Call V) : Option Utf16 :=
  (recordId call.space call.key).filter fun id => call.operation.writes (records id)

/-! ## The loop -/

/-- Where a loop is. -/
inductive Phase (V : Type) where
  | reading (retry : ℕ)
  | writing (retry : ℕ) (observed : Option (Versioned V))
  | returned (next : Option V)
  | threw

/-- A change of an entity. Source: `auth-repositories.ts` `mutateEntity`. -/
structure Mutate (V : Type) where
  kind : Utf16
  entity : Utf16
  mutation : Option V → Option V
  phase : Phase V

/-- The key of an entity. Source: `auth-repositories.ts` `mutateEntity`, its `key`. -/
def Mutate.key (m : Mutate V) : Utf16 := m.kind ++ utf16 ":" ++ m.entity

/-- Source: `auth-repositories.ts` `NAMESPACE`. -/
def NAMESPACE : Utf16 := utf16 "zelavis.platform.auth"

def retries : ℕ := 100

def Mutate.write (m : Mutate V) : Option (Versioned V) → Operation V
  | none => (m.mutation none).elim .get .setIfAbsent
  | some record => (m.mutation (some record.value)).elim (.compareAndDelete record.updatedAt) fun next =>
    .compareAndSet record.updatedAt next none

def Mutate.next (m : Mutate V) : Option (Call V) :=
  match m.phase with
  | .reading _ => some ⟨NAMESPACE, m.key, .get⟩
  | .writing _ observed => some ⟨NAMESPACE, m.key, m.write observed⟩
  | .returned _ | .threw => none

def Phase.again (retry : ℕ) : Phase V :=
  if retry + 1 < retries then .reading (retry + 1) else .threw

/-- Where the loop goes on an answer. Source: `auth-repositories.ts` `mutateEntity`. -/
def Mutate.answered (m : Mutate V) (answer : Answer V) : Mutate V :=
  { m with
    phase := match m.phase, answer with
      | .reading retry, .found observed =>
        if observed.isNone && (m.mutation none).isNone then .returned none else .writing retry observed
      | .writing retry observed, .found record =>
        if record.isSome then .returned (m.mutation (observed.map Versioned.value)) else .again retry
      | .writing retry observed, .whether done =>
        if done then .returned (m.mutation (observed.map Versioned.value)) else .again retry
      | _, _ => .threw }

/-! ## Runs -/

/-- The clock and what is stored. -/
structure Shared (V : Type) where
  now : ℕ
  records : Records V

/-- Any number of loops, beside any calls of others. Each call finds the clock where it was or later. -/
def store (V : Type) [DecidableEq V] : Rules (Shared V) (Mutate V) ℕ (ℕ × Call V) where
  begins m := match m.phase with
    | .reading retry => retry = 0
    | _ => false
  moves now s m :=
    if s.now ≤ now then m.next.map fun call =>
      (⟨now, (call.perform now s.records).1⟩, m.answered (call.perform now s.records).2)
    else none
  passes event s :=
    if s.now ≤ event.1 then some ⟨event.1, (event.2.perform event.1 s.records).1⟩ else none

def called (w : World (Shared V) (Mutate V)) : Turn (Mutate V) ℕ (ℕ × Call V) → Option (ℕ × Call V)
  | .idle | .begin _ => none
  | .move k now => (w.parties[k]?.bind Mutate.next).map (now, ·)
  | .pass event => some event

def written (w : World (Shared V) (Mutate V)) (turn : Turn (Mutate V) ℕ (ℕ × Call V)) : Option Utf16 :=
  (called w turn).bind fun c => c.2.writes w.shared.records

/-! ## What a call comes to -/

variable {now : ℕ} {stored : Option (Versioned V)} {records : Records V} {call : Call V} {id : Utf16}

lemma Operation.act_cases (op : Operation V) (now : ℕ) (stored : Option (Versioned V)) :
    (op.writes stored = false ∧ (op.act now stored).1 = stored) ∨
    (op.writes stored = true ∧ ∃ value, (op.act now stored).1 = some (setRecord now stored value)) ∨
    (op.writes stored = true ∧ stored.isSome = true ∧ (op.act now stored).1 = none) := by
  cases op with
  | get => exact .inl ⟨rfl, rfl⟩
  | set value => exact .inr (.inl ⟨rfl, value, rfl⟩)
  | setIfAbsent value =>
    cases stored with
    | none => exact .inr (.inl ⟨rfl, value, rfl⟩)
    | some r => exact .inl ⟨rfl, rfl⟩
  | compareAndSet expectedUpdatedAt value expectedValue =>
    simp only [Operation.writes, Operation.act, compareAndSetRecord]
    cases isExpected stored expectedUpdatedAt expectedValue with
    | false => exact .inl ⟨rfl, rfl⟩
    | true => exact .inr (.inl ⟨rfl, value, rfl⟩)
  | compareAndDelete expectedUpdatedAt =>
    simp only [Operation.writes, Operation.act]
    cases h : compareAndDeleteRecord stored expectedUpdatedAt with
    | false => exact .inl ⟨rfl, rfl⟩
    | true =>
      have hsome : stored.isSome = true := by
        cases stored with
        | none => cases h
        | some r => rfl
      exact .inr (.inr ⟨rfl, hsome, rfl⟩)
  | delete =>
    cases stored with
    | none => exact .inl ⟨rfl, rfl⟩
    | some r => exact .inr (.inr ⟨rfl, rfl, rfl⟩)

lemma Call.perform_cases (now : ℕ) (records : Records V) (call : Call V) (id : Utf16) :
    (call.writes records ≠ some id ∧ (call.perform now records).1 id = records id) ∨
    (call.writes records = some id ∧
      ∃ value, (call.perform now records).1 id = some (setRecord now (records id) value)) ∨
    (call.writes records = some id ∧ (records id).isSome = true ∧
      (call.perform now records).1 id = none) := by
  unfold Call.writes Call.perform
  cases recordId call.space call.key with
  | none => exact .inl ⟨nofun, rfl⟩
  | some id' =>
    by_cases hid : id = id'
    · subst hid
      dsimp only
      rw [Function.update_self]
      obtain ⟨hw, h⟩ | ⟨hw, h⟩ | ⟨hw, h⟩ := call.operation.act_cases now (records id)
      · exact .inl ⟨by simp [hw], h⟩
      · exact .inr (.inl ⟨by simp [hw], h⟩)
      · exact .inr (.inr ⟨by simp [hw], h⟩)
    · refine .inl ⟨fun h => ?_, Function.update_of_ne hid _ _⟩
      have := (filter_eq_some_iff.1 h).1
      exact hid (some.inj this).symm

variable {expectedValue : Option V}

lemma exists_of_isExpected {expectedUpdatedAt : ℕ}
    (h : isExpected stored expectedUpdatedAt expectedValue = true) :
    ∃ r, stored = some r ∧ r.updatedAt = expectedUpdatedAt := by
  cases stored with
  | none => cases h
  | some r =>
    rw [isExpected, any_some, Bool.and_eq_true] at h
    exact ⟨r, rfl, of_decide_eq_true h.1⟩

lemma Call.perform_eq (hid : recordId call.space call.key = some id) :
    call.perform now records = (Function.update records id (call.operation.act now (records id)).1,
      (call.operation.act now (records id)).2) := by
  rw [Call.perform, hid]

variable {w w' : World (Shared V) (Mutate V)} {turn : Turn (Mutate V) ℕ (ℕ × Call V)}

lemma shared_play (h : (store V).play w turn = some w') : (called w turn = none ∧ w'.shared = w.shared) ∨
    ∃ now call, called w turn = some (now, call) ∧ w.shared.now ≤ now ∧
      w'.shared = ⟨now, (call.perform now w.shared.records).1⟩ := by
  obtain ⟨rfl, rfl⟩ | ⟨party, rfl, -, rfl⟩ | ⟨k, now, m, s', m', rfl, hm, hmove, rfl⟩ |
    ⟨event, s', rfl, hpass, rfl⟩ := Rules.play_cases h
  · exact .inl ⟨rfl, rfl⟩
  · exact .inl ⟨rfl, rfl⟩
  · simp only [store] at hmove
    split_ifs at hmove with hnow
    obtain ⟨call, hcall, heq⟩ := map_eq_some_iff.1 hmove
    cases heq
    refine .inr ⟨now, call, ?_, hnow, rfl⟩
    simp [called, hm, hcall]
  · simp only [store] at hpass
    split_ifs at hpass with hnow
    cases hpass
    exact .inr ⟨event.1, event.2, rfl, hnow, rfl⟩

section

variable (run : Run (store V)) {i j k : ℕ} {r r' : Versioned V}

def recordAt (i : ℕ) (id : Utf16) : Option (Versioned V) := (run.world i).shared.records id

lemma turn_cases (i : ℕ) (id : Utf16) :
    (written (run.world i) (run.turn i) ≠ some id ∧ recordAt run (i + 1) id = recordAt run i id) ∨
    ∃ now call, called (run.world i) (run.turn i) = some (now, call) ∧
      call.writes (run.world i).shared.records = some id ∧ written (run.world i) (run.turn i) = some id ∧
      (run.world (i + 1)).shared.now = now ∧
      ((∃ value, recordAt run (i + 1) id = some (setRecord now (recordAt run i id) value)) ∨
        (recordAt run i id).isSome = true ∧ recordAt run (i + 1) id = none) := by
  obtain ⟨hcalled, hshared⟩ | ⟨now, call, hcalled, -, hshared⟩ := shared_play (run.plays i)
  · refine .inl ⟨by simp [written, hcalled], ?_⟩
    rw [recordAt, hshared, recordAt]
  · have hwritten : written (run.world i) (run.turn i) = call.writes (run.world i).shared.records := by
      simp [written, hcalled]
    have hrecord : recordAt run (i + 1) id = (call.perform now (run.world i).shared.records).1 id := by
      rw [recordAt, hshared]
    rw [hwritten, hrecord, hshared]
    obtain ⟨hw, h⟩ | ⟨hw, h⟩ | ⟨hw, h⟩ :=
      Call.perform_cases now (run.world i).shared.records call id
    · exact .inl ⟨hw, h⟩
    · exact .inr ⟨now, call, hcalled, hw, hw, rfl, .inl h⟩
    · exact .inr ⟨now, call, hcalled, hw, hw, rfl, .inr h⟩

lemma now_le_succ (i : ℕ) : (run.world i).shared.now ≤ (run.world (i + 1)).shared.now := by
  obtain ⟨-, hshared⟩ | ⟨now, call, -, hnow, hshared⟩ := shared_play (run.plays i)
  · rw [hshared]
  · rwa [hshared]

/-! ## When a moment tells a record apart -/

/-- Where a record is created at a turn, the clock is past every moment a record under its id was
written at. -/
def renews (i : ℕ) : Bool :=
  (called (run.world i) (run.turn i)).all fun c =>
    (c.2.writes (run.world i).shared.records).all fun id =>
      (recordAt run i id).isSome || (List.range (i + 1)).all fun j =>
        (recordAt run j id).all (·.updatedAt < c.1)

lemma renews_iff : renews run i = true ↔ ∀ now call id,
    called (run.world i) (run.turn i) = some (now, call) →
    call.writes (run.world i).shared.records = some id → recordAt run i id = none →
    ∀ j ≤ i, ∀ r, recordAt run j id = some r → r.updatedAt < now := by
  simp only [renews, Option.all_eq_true, Bool.or_eq_true, List.all_eq_true, List.mem_range,
    decide_eq_true_eq, Prod.forall, Nat.lt_succ_iff]
  refine ⟨fun h now call id hcalled hwrites hnone j hj r hr => ?_, fun h now call hcalled id hwrites => ?_⟩
  · obtain hsome | hall := h now call hcalled id hwrites
    · rw [hnone] at hsome
      cases hsome
    · exact hall j hj r hr
  · cases hstored : recordAt run i id with
    | none => exact .inr (h now call id hcalled hwrites hstored)
    | some r => exact .inl rfl

def Untouched (id : Utf16) (i j : ℕ) : Prop :=
  ∀ t, i ≤ t → t < j → written (run.world t) (run.turn t) ≠ some id

/-- What the conditional writes are for. -/
structure Sound : Prop where
  /-- A write that carries the moment an earlier read found succeeds only where nothing was done to the
  record since. -/
  set : ∀ i j id r now value expectedValue, i ≤ j → recordAt run i id = some r →
    compareAndSetRecord now (recordAt run j id) r.updatedAt value expectedValue ≠ none →
    Untouched run id i j
  delete : ∀ i j id r, i ≤ j → recordAt run i id = some r →
    compareAndDeleteRecord (recordAt run j id) r.updatedAt = true → Untouched run id i j
  mutate : ∀ i k now m m' id next, run.turn i = .move k now → (run.world i).parties[k]? = some m →
    (run.world (i + 1)).parties[k]? = some m' → m'.phase = .returned next →
    recordId NAMESPACE m.key = some id →
    m.mutation ((recordAt run i id).map Versioned.value) = next ∧
      (recordAt run (i + 1) id).map Versioned.value = next

lemma recordAt_eq (hij : i ≤ j) (h : Untouched run id i j) : recordAt run j id = recordAt run i id := by
  induction j, hij using Nat.le_induction with
  | base => rfl
  | succ j hij ih =>
    obtain ⟨-, heq⟩ | ⟨-, -, -, -, hwritten, -⟩ := turn_cases run j id
    · rw [heq]
      exact ih fun t hit htj => h t hit (Nat.lt_succ_of_lt htj)
    · exact absurd hwritten (h j hij (Nat.lt_succ_self j))

/-- A record was written no earlier than an earlier one under its id, and later where anything was done
in between. By induction on the turns between the two. -/
theorem updatedAt_le (h : ∀ i, renews run i = true) (hij : i ≤ j) (hr : recordAt run i id = some r) :
    ∀ r', recordAt run j id = some r' → r.updatedAt ≤ r'.updatedAt ∧
      (r.updatedAt = r'.updatedAt → Untouched run id i j) := by
  induction j, hij using Nat.le_induction with
  | base =>
    intro r' hr'
    cases hr.symm.trans hr'
    exact ⟨le_rfl, fun _ t hit hti => absurd hti (not_lt.2 hit)⟩
  | succ j hij ih =>
    intro r' hr'
    obtain ⟨hne, heq⟩ | ⟨now, call, hcalled, hwrites, -, -, ⟨value, heq⟩ | ⟨-, heq⟩⟩ := turn_cases run j id
    · obtain ⟨hle, huntouched⟩ := ih r' (heq.symm.trans hr')
      refine ⟨hle, fun hsame t hit htj => ?_⟩
      obtain rfl | hlt := Nat.eq_or_lt_of_le (Nat.le_of_lt_succ htj)
      · exact hne
      · exact huntouched hsame t hit hlt
    · cases heq.symm.trans hr'
      have hlt : r.updatedAt < (setRecord now (recordAt run j id) value).updatedAt := by
        cases hj : recordAt run j id with
        | none => exact (renews_iff run).1 (h j) now call id hcalled hwrites hj i hij r hr
        | some r'' => exact lt_of_le_of_lt (ih r'' hj).1 updatedAt_lt_setRecord
      exact ⟨hlt.le, fun hsame => absurd hsame hlt.ne⟩
    · cases heq.symm.trans hr'

lemma untouched_of_isExpected (h : ∀ i, renews run i = true) (hij : i ≤ j) (hr : recordAt run i id = some r)
    (hexpected : isExpected (recordAt run j id) r.updatedAt expectedValue = true) : Untouched run id i j := by
  obtain ⟨r', hr', heq⟩ := exists_of_isExpected hexpected
  exact (updatedAt_le run h hij hr r' hr').2 heq.symm

/-! ## The loop -/

lemma read_before (hstart : (run.world 0).parties = []) {m : Mutate V} {retry : ℕ}
    {observed : Option (Versioned V)} (hm : (run.world i).parties[k]? = some m)
    (hphase : m.phase = .writing retry observed) (hid : recordId NAMESPACE m.key = some id) :
    (observed = none → m.mutation none ≠ none) ∧ ∃ i₀ ≤ i, recordAt run i₀ id = observed := by
  have hb : (store V).begins m = false := by simp [store, hphase]
  obtain ⟨i₀, hlt, now, m₀, -, -, hmove⟩ := run.entered hstart hm hb
  simp only [store] at hmove
  split_ifs at hmove
  obtain ⟨call, hcall, heq⟩ := map_eq_some_iff.1 hmove
  obtain ⟨-, rfl⟩ := Prod.mk.inj heq
  unfold Mutate.next at hcall
  cases hphase₀ : m₀.phase with
  | reading retry₀ =>
    rw [hphase₀] at hcall
    cases hcall
    rw [Call.perform_eq hid] at hphase
    simp only [Mutate.answered, hphase₀, Operation.act] at hphase ⊢
    split_ifs at hphase with hnone
    cases hphase
    refine ⟨fun hobserved hmutation => hnone ?_, i₀, hlt.le, rfl⟩
    rw [hobserved, hmutation]
    rfl
  | writing retry₀ observed₀ =>
    -- a loop that has written starts over or is done
    simp only [Mutate.answered, hphase₀] at hphase
    cases hanswer : (call.perform now (run.world i₀).shared.records).2 with
    | threw => simp [hanswer] at hphase
    | found | whether =>
      simp only [hanswer, Phase.again] at hphase
      split_ifs at hphase
  | returned | threw =>
    rw [hphase₀] at hcall
    cases hcall

lemma mutate_sound (h : ∀ i, renews run i = true) (hstart : (run.world 0).parties = []) {now : ℕ}
    {m m' : Mutate V} {next : Option V} (hturn : run.turn i = .move k now)
    (hm : (run.world i).parties[k]? = some m) (hm' : (run.world (i + 1)).parties[k]? = some m')
    (hphase' : m'.phase = .returned next) (hid : recordId NAMESPACE m.key = some id) :
    m.mutation ((recordAt run i id).map Versioned.value) = next ∧
      (recordAt run (i + 1) id).map Versioned.value = next := by
  have hplay := run.plays i
  rw [hturn, Rules.play, hm] at hplay
  obtain ⟨⟨s', m''⟩, hmove, heq⟩ := map_eq_some_iff.1 hplay
  simp only [store] at hmove
  split_ifs at hmove
  obtain ⟨call, hcall, hpair⟩ := map_eq_some_iff.1 hmove
  obtain ⟨rfl, rfl⟩ := Prod.mk.inj hpair
  have hparty : m' = m.answered (call.perform now (run.world i).shared.records).2 := by
    rw [← heq] at hm'
    rw [List.getElem?_set_self (List.getElem?_eq_some_iff.1 hm).1] at hm'
    exact (some.inj hm').symm
  have hrecord : recordAt run (i + 1) id = (call.perform now (run.world i).shared.records).1 id := by
    rw [recordAt, ← heq]
  unfold Mutate.next at hcall
  cases hphase : m.phase with
  | reading retry =>
    rw [hphase] at hcall
    cases hcall
    rw [Call.perform_eq hid] at hparty hrecord
    simp only [Operation.act, Function.update_self] at hparty hrecord
    rw [hrecord]
    simp only [hparty, Mutate.answered, hphase] at hphase'
    split_ifs at hphase' with hnone
    cases hphase'
    rw [Bool.and_eq_true, isNone_iff_eq_none, isNone_iff_eq_none] at hnone
    rw [recordAt, hnone.1]
    exact ⟨hnone.2, rfl⟩
  | writing retry observed =>
    obtain ⟨hobserved, i₀, hle, hread⟩ := read_before run hstart hm hphase hid
    rw [hphase] at hcall
    cases hcall
    rw [Call.perform_eq hid] at hparty hrecord
    simp only [Function.update_self] at hrecord
    cases observed with
    | none =>
      cases hnext : m.mutation none with
      | none => exact absurd hnext (hobserved rfl)
      | some v =>
        simp only [Mutate.write, hnext, elim_some, Operation.act] at hparty hrecord
        cases hstored : (run.world i).shared.records id with
        | none =>
          simp only [hstored, Edge.setIfAbsent, isNone_none, if_true] at hparty hrecord
          simp only [hparty, Mutate.answered, hphase, if_true] at hphase'
          cases hphase'
          rw [hrecord, recordAt, hstored]
          exact ⟨rfl, hnext.symm⟩
        | some r =>
          simp only [hstored, Edge.setIfAbsent, isNone_some, Bool.false_eq_true, if_false] at hparty
          simp only [hparty, Mutate.answered, hphase, Bool.false_eq_true, if_false, Phase.again] at hphase'
          split_ifs at hphase'
    | some r =>
      have hsame : ∀ expectedValue, isExpected ((run.world i).shared.records id) r.updatedAt expectedValue =
          true → recordAt run i id = some r := fun expectedValue hexpected =>
        (recordAt_eq run hle (untouched_of_isExpected run h hle hread hexpected)).trans hread
      cases hnext : m.mutation (some r.value) with
      | none =>
        simp only [Mutate.write, hnext, elim_none, Operation.act] at hparty hrecord
        split_ifs at hparty hrecord with hexpected
        · simp only [hparty, Mutate.answered, hphase, if_true] at hphase'
          cases hphase'
          rw [hrecord, hsame none hexpected]
          exact ⟨rfl, hnext.symm⟩
        · simp only [hparty, Mutate.answered, hphase, Bool.false_eq_true, if_false, Phase.again] at hphase'
          split_ifs at hphase'
      | some v =>
        simp only [Mutate.write, hnext, elim_some, Operation.act, compareAndSetRecord]
          at hparty hrecord
        split_ifs at hparty hrecord with hexpected
        · simp only [hparty, Mutate.answered, hphase, isSome_some, if_true] at hphase'
          cases hphase'
          rw [hrecord, hsame none hexpected]
          exact ⟨rfl, hnext.symm⟩
        · simp only [hparty, Mutate.answered, hphase, isSome_none, Bool.false_eq_true, if_false,
            Phase.again] at hphase'
          split_ifs at hphase'
  | returned | threw =>
    rw [hphase] at hcall
    cases hcall

/-! ## Exactly then -/

/-- While a record is there and the clock stands, every moment up to the record's own has been one of its
moments. By induction on the turns. -/
theorem exists_updatedAt (hstart : ∀ id, recordAt run 0 id = none) {t : ℕ} :
    ∀ {i : ℕ} {r : Versioned V}, recordAt run i id = some r → (run.world i).shared.now ≤ t →
      t ≤ r.updatedAt → ∃ i' ≤ i, ∃ r', recordAt run i' id = some r' ∧ r'.updatedAt = t := by
  intro i
  induction i with
  | zero =>
    intro r hr
    cases (hstart id).symm.trans hr
  | succ i ih =>
    intro r hr hnow ht
    obtain ⟨-, heq⟩ | ⟨now, call, -, -, -, hnow', ⟨value, heq⟩ | ⟨-, heq⟩⟩ := turn_cases run i id
    · obtain ⟨i', hle, h⟩ := ih (heq.symm.trans hr) ((now_le_succ run i).trans hnow) ht
      exact ⟨i', Nat.le_succ_of_le hle, h⟩
    · obtain hsame | hlt := Nat.eq_or_lt_of_le ht
      · exact ⟨i + 1, le_rfl, r, hr, hsame.symm⟩
      · cases heq.symm.trans hr
        rw [hnow'] at hnow
        cases hi : recordAt run i id with
        | none =>
          rw [hi] at hlt
          exact absurd hnow (not_le.2 hlt)
        | some r₀ =>
          rw [hi] at hlt
          have hr₀ : t ≤ r₀.updatedAt := by
            obtain h | h := lt_max_iff.1 hlt
            · exact absurd hnow (not_le.2 h)
            · exact Nat.le_of_lt_succ h
          obtain ⟨i', hle, h⟩ := ih hi (by rw [← hnow'] at hnow; exact (now_le_succ run i).trans hnow) hr₀
          exact ⟨i', Nat.le_succ_of_le hle, h⟩
    · cases heq.symm.trans hr

lemma now_le (hij : i ≤ j) : (run.world i).shared.now ≤ (run.world j).shared.now :=
  run.related (T := fun s s' => s.now ≤ s'.now) (fun _ => le_rfl) le_trans (now_le_succ run) hij

lemma renews_of_sound (hstart : ∀ id, recordAt run 0 id = none) (h : Sound run) (i : ℕ) :
    renews run i = true := by
  rw [renews_iff]
  intro now call id hcalled hwrites hnone j hj r hr
  by_contra hlate
  obtain ⟨hidle, -⟩ | ⟨now', call', hcalled', hnow, -⟩ := shared_play (run.plays i)
  · rw [hcalled] at hidle
    cases hidle
  · cases hcalled.symm.trans hcalled'
    obtain ⟨i', hle, r', hr', hmoment⟩ :=
      exists_updatedAt run hstart hr ((now_le run hj).trans hnow) (not_lt.1 hlate)
    obtain ⟨hne, -⟩ | ⟨now', call', hcalled', -, hwritten, -, ⟨value, heq⟩ | ⟨hsome, -⟩⟩ := turn_cases run i id
    · exact hne (by simp [written, hcalled, hwrites])
    · cases hcalled.symm.trans hcalled'
      have hexpected : isExpected (recordAt run (i + 1) id) r'.updatedAt none = true := by
        rw [heq, hnone, isExpected, any_some, hmoment, all_none, Bool.and_true]
        exact decide_eq_true rfl
      have huntouched := h.delete i' (i + 1) id r' (Nat.le_succ_of_le (hle.trans hj)) hr' hexpected
      exact huntouched i (hle.trans hj) (Nat.lt_succ_self i) hwritten
    · rw [hnone] at hsome
      cases hsome

/-- The moment a record was written tells it from every other, and no loop loses an update, exactly where
every record is created at a moment past those of the earlier ones under its id. -/
theorem renews_iff_sound (hstart : ∀ id, recordAt run 0 id = none)
    (hparties : (run.world 0).parties = []) : (∀ i, renews run i = true) ↔ Sound run := by
  refine ⟨fun h => ⟨?_, ?_, ?_⟩, renews_of_sound run hstart⟩
  · intro i j id r now value expectedValue hij hr hset
    have hexpected : isExpected (recordAt run j id) r.updatedAt expectedValue = true := by
      by_contra hexpected
      rw [compareAndSetRecord, if_neg hexpected] at hset
      exact hset rfl
    exact untouched_of_isExpected run h hij hr hexpected
  · intro i j id r hij hr hdelete
    exact untouched_of_isExpected run h hij hr hdelete
  · intro i k now m m' id next hturn hm hm' hphase' hid
    exact mutate_sound run h hparties hturn hm hm' hphase' hid

end

/-! ## A session that is created again -/

def session (operation : Operation ℕ) : Call ℕ := ⟨NAMESPACE, utf16 "session:a", operation⟩

def unused : World (Shared ℕ) (Mutate ℕ) := ⟨⟨0, fun _ => none⟩, []⟩

/-- A session is stored and a loop reads it; it is deleted and stored again at a moment, and the loop goes
on. -/
def recreatedAt (now : ℕ) : List (Turn (Mutate ℕ) ℕ (ℕ × Call ℕ)) := [
  .pass (0, session (.set 1)),
  .begin ⟨utf16 "session", utf16 "a", Option.map (· + 10), .reading 0⟩,
  .move 0 0,
  .pass (0, session .delete),
  .pass (now, session (.set 2)),
  .move 0 now]

def laterRun : Run (store ℕ) := (store ℕ).replay unused (recreatedAt 1) (by decide +kernel)

def sameRun : Run (store ℕ) := (store ℕ).replay unused (recreatedAt 0) (by decide +kernel)

lemma renews_later (i : ℕ) : renews laterRun i = true := by
  by_cases hi : i < 6
  · have hall : ∀ i < 6, renews laterRun i = true := by decide +kernel
    exact hall i hi
  · have hturn : laterRun.turn i = .idle := by
      show (recreatedAt 1).getD i .idle = .idle
      rw [List.getD_eq_getElem?_getD, List.getElem?_eq_none (not_lt.1 hi), getD_none]
    rw [renews, hturn]
    rfl

theorem renews_iff_sound_later : Sound laterRun :=
  (renews_iff_sound laterRun (fun _ => rfl) rfl).1 renews_later

/-- What was stored again is overwritten by what follows from what was deleted. -/
theorem not_sound : ¬∀ run : Run (store ℕ), (∀ id, recordAt run 0 id = none) →
    (run.world 0).parties = [] → Sound run := by
  intro h
  have hsame := (h sameRun (fun _ => rfl) rfl).delete 1 5 ((recordId NAMESPACE (utf16 "session:a")).getD [])
    ⟨1, 0⟩ (by decide) (by decide +kernel) (by decide +kernel)
  exact hsame 4 (by decide) (by decide) (by decide +kernel)

end Zelavis.Platform.SystemStore
