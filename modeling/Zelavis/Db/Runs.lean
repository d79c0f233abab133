import Zelavis.Db.Steps
import Zelavis.Db.Tiers

/-!
# Runs of a store

* `StoreOp` — one operation a caller can ask of a store, and `StoreOp.prog`, its program.
* `Reachable` — the stores that runs lead to from an empty engine, by any handles, any operations
  and with a stop anywhere in each.
-/

namespace Zelavis.Db

open Lib OrderedMap

/-! ## Operations -/

/-- An operation of the store. -/
inductive StoreOp where
  | transact (ops : List TxnOp)
  /-- `events.apply`. -/
  | apply (event : DbEvent)
  | sealPostings
  | reindexLenses
  | rebuildLenses
  | snapshot
  | compact (keep : ℕ)
  | nextSeq
  | openStoreOverKv

def StoreOp.prog (claim : WriterClaim) : StoreOp → StoreM Unit
  | .transact ops => Db.transact claim ops
  | .apply event => applyEvent claim event
  | .sealPostings => do let _ ← Db.sealPostings claim
  | .reindexLenses => do let _ ← Db.reindexLenses claim
  | .rebuildLenses => do let _ ← Db.rebuildLenses claim
  | .snapshot => do let _ ← Db.snapshot claim
  | .compact keep => do let _ ← Db.compact claim keep
  | .nextSeq => do let _ ← Db.nextSeq claim
  | .openStoreOverKv => do let _ ← Db.openStoreOverKv

/-! ## Conditions -/

/-- What a run is asked to meet. -/
structure Conditions where
  event : Contents → StoredEvent → Prop := fun _ _ => True
  snapshot : Contents → Prop := fun _ => True

def OpsMeet (ok : Contents → StoredEvent → Prop) (claim : WriterClaim) (sealed : Bool) :
    List TxnOp → Contents × ℕ → Prop
  | [], _ => True
  | op :: ops, s => (∀ event, op.event claim s.1 = some (some event) → ok s.1 event) ∧
      ∀ s', op.runC claim sealed s = some s' → OpsMeet ok claim sealed ops s'

def StoreOp.Meets (cond : Conditions) (claim : WriterClaim) (m : Store) : StoreOp → Prop
  | .transact ops => ∀ n p, metaOf m.get META_SEALED = some n →
      metaOf m.get META_NEXT_POSITION = some p →
      OpsMeet cond.event claim (decide (0 < n)) ops (m.get, p)
  | .apply event => ∀ seen, versionC event.seq m.get = some seen → seen < event.version →
      cond.event m.get event.stored
  | .snapshot => cond.snapshot m.get
  | _ => True

/-- The stores reached by runs that meet the conditions. -/
inductive Reachable (cond : Conditions) : Store → Prop where
  | empty : Reachable cond .empty
  | step {m m' : Store} (claim : WriterClaim) (op : StoreOp) (h : Reachable cond m)
    (hmeets : op.Meets cond claim m) (hstep : (op.prog claim).Reaches m m') : Reachable cond m'

variable {m : Store} {cond : Conditions}

lemma Reachable.induct {J : Store → Prop} (hempty : J .empty)
    (hop : ∀ (m : Store) (claim : WriterClaim) (op : StoreOp), J m → op.Meets cond claim m →
      (op.prog claim).safe J (fun _ _ => True) m) (h : Reachable cond m) : J m := by
  induction h with
  | empty => exact hempty
  | step claim op h hmeets hstep ih => exact Prog.safe_reaches (hop _ claim op ih hmeets) ih hstep

/-- The engine after operations one after another, every fresh token being `u`. -/
def runStoreOps (claim : WriterClaim) (u : Bytes) (ops : List StoreOp) (m : Store) : Store :=
  ops.foldl (fun m op => ((op.prog claim).run u m).2) m

variable {u : Bytes}

lemma Reachable.run {claim : WriterClaim} {ops : List StoreOp}
    (h : Reachable cond m) (hmeets : ∀ op ∈ ops, ∀ m, op.Meets cond claim m) :
    Reachable cond (runStoreOps claim u ops m) := by
  induction ops generalizing m with
  | nil => exact h
  | cons op ops ih =>
    exact ih (h.step claim op (hmeets op (List.mem_cons_self ..) m)
      (Prog.returns_run u (op.prog claim) m).reaches)
      fun op hop => hmeets op (List.mem_cons_of_mem _ hop)

variable {ops : List TxnOp}

lemma opsMeet_of_forall {ok : Contents → StoredEvent → Prop} {claim : WriterClaim} {sealed : Bool}
    (h : ∀ op ∈ ops, ∀ c event, op.event claim c = some (some event) → ok c event)
    (s : Contents × ℕ) : OpsMeet ok claim sealed ops s := by
  induction ops generalizing s with
  | nil => trivial
  | cons op ops ih =>
    exact ⟨h op (List.mem_cons_self ..) s.1,
      fun s' _ => ih (fun op hop => h op (List.mem_cons_of_mem _ hop)) s'⟩

lemma StoreOp.meets_default (claim : WriterClaim) (m : Store) (op : StoreOp) : op.Meets {} claim m := by
  cases op with
  | transact ops => exact fun _ _ _ _ => opsMeet_of_forall (fun _ _ _ _ _ => trivial) _
  | apply event => exact fun _ _ _ => trivial
  | _ => trivial

def fixedClaim : WriterClaim := ⟨1, [7]⟩

def ranFrom (ops : List StoreOp) : Store :=
  runStoreOps fixedClaim [7] (.openStoreOverKv :: ops) .empty

lemma reachable_ranFrom (ops : List StoreOp) : Reachable {} (ranFrom ops) :=
  Reachable.empty.run fun op _ m => op.meets_default fixedClaim m

lemma discard_safe {α : Type} {I : Store → Prop} {p : StoreM α}
    (h : p.safe I (fun _ _ => True) m) :
    (do let _ ← p : StoreM Unit).safe I (fun _ _ => True) m :=
  Prog.safe_bind.2 (Prog.safe_mono h fun _ _ _ => Prog.safe_pure.2 trivial)

/-! ## Transactions -/

variable {s s' : Contents × ℕ}

section transactions

variable {ok : Contents → StoredEvent → Prop} {claim : WriterClaim} {sealed : Bool}
  {J : Contents → ℕ → Prop}

section

variable (hlog : ∀ c pos event s, J c pos → ok c event → logC sealed event (c, pos) = some s → J s.1 s.2)
include hlog

lemma runC_induct {op : TxnOp} (h : J s.1 s.2)
    (hok : ∀ event, op.event claim s.1 = some (some event) → ok s.1 event)
    (hrun : op.runC claim sealed s = some s') : J s'.1 s'.2 := by
  simp only [TxnOp.runC, Option.bind_eq_bind, Option.bind_eq_some_iff] at hrun
  obtain ⟨_ | event, he, hrun⟩ := hrun
  · rw [← Option.some.inj hrun]
    exact h
  · exact hlog s.1 s.2 event s' h (hok event he) hrun

lemma runOps_induct (hok : OpsMeet ok claim sealed ops s)
    (h : J s.1 s.2) (hrun : runOpsC claim sealed ops s = some s') : J s'.1 s'.2 := by
  induction ops generalizing s with
  | nil =>
    rw [← Option.some.inj hrun]
    exact h
  | cons op ops ih =>
    rw [runOpsC, List.foldlM_cons, Option.bind_eq_bind, Option.bind_eq_some_iff] at hrun
    obtain ⟨s₁, h₁, hrest⟩ := hrun
    exact ih (hok.2 s₁ h₁) (runC_induct hlog h hok.1 h₁) hrest

lemma apply_induct {event : DbEvent}
    (hok : ∀ seen, versionC event.seq s.1 = some seen → seen < event.version → ok s.1 event.stored)
    (h : J s.1 s.2) (hrun : applyC sealed event s = some s') : J s'.1 s'.2 := by
  simp only [applyC, Option.bind_eq_bind, Option.bind_eq_some_iff] at hrun
  obtain ⟨seen, hseen, hrun⟩ := hrun
  split_ifs at hrun with hle
  · rw [← Option.some.inj hrun]
    exact h
  · exact hlog s.1 s.2 _ s' h (hok seen hseen (not_le.1 hle)) hrun

end

end transactions

lemma committed_of_ne {c : Contents} {pos : ℕ} {k : Key}
    (hpos : k ≠ metaKey META_NEXT_POSITION) (hrev : k ≠ metaKey META_REVISION) :
    committed c pos u k = c k := by
  rw [committed, revised_of_ne hrev, after_put, if_neg hpos]

end Zelavis.Db
