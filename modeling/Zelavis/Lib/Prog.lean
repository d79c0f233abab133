import Zelavis.Lib.Decoding
import Zelavis.Lib.OrderedMap

/-!
# Programs over a shared ordered map

A program reads and conditionally writes one ordered map, request by request, as a client of a
key-value engine does.
-/

namespace Zelavis.Lib

open OrderedMap

/-- A program over a map from `K` to `V`, with tokens in `F` and failures in `ε`. -/
inductive Prog (K V F ε α : Type) where
  | pure (a : α)
  | fail (e : ε)
  | get (k : K) (next : Option V → Prog K V F ε α)
  /-- The entries from `lo` up to `hi`, ascending. -/
  | scan (lo : K) (hi : Option K) (next : List (K × V) → Prog K V F ε α)
  | fresh (next : F → Prog K V F ε α)
  | conditionalWrite (writes : List (Write K V)) (conditions : List (K × Option V))
    (next : Bool → Prog K V F ε α)

namespace Prog

variable {K V F ε α β γ : Type}

def bind : Prog K V F ε α → (α → Prog K V F ε β) → Prog K V F ε β
  | pure a, f => f a
  | fail e, _ => fail e
  | get k next, f => get k fun v => (next v).bind f
  | scan lo hi next, f => scan lo hi fun l => (next l).bind f
  | fresh next, f => fresh fun u => (next u).bind f
  | conditionalWrite ws cs next, f => conditionalWrite ws cs fun b => (next b).bind f

instance : Monad (Prog K V F ε) where
  pure := Prog.pure
  bind := Prog.bind

@[simp] lemma pure_eq (a : α) : (Pure.pure a : Prog K V F ε α) = Prog.pure a := rfl

@[simp] lemma bind_eq (p : Prog K V F ε α) (f : α → Prog K V F ε β) : p >>= f = p.bind f := rfl

lemma bind_pure (p : Prog K V F ε α) : p.bind Prog.pure = p := by
  induction p with
  | pure | fail => rfl
  | get _ _ ih | scan _ _ _ ih | fresh _ ih => simp [bind, ih]
  | conditionalWrite ws cs next ih => exact congrArg _ (funext ih)

lemma bind_assoc (p : Prog K V F ε α) (f : α → Prog K V F ε β) (g : β → Prog K V F ε γ) :
    (p.bind f).bind g = p.bind fun a => (f a).bind g := by
  induction p with
  | pure | fail => rfl
  | get _ _ ih | scan _ _ _ ih | fresh _ ih => simp [bind, ih]
  | conditionalWrite ws cs next ih => exact congrArg _ (funext ih)

instance : LawfulMonad (Prog K V F ε) := LawfulMonad.mk' _ bind_pure (fun _ _ => rfl) bind_assoc

def read (k : K) : Prog K V F ε (Option V) := get k Prog.pure

def range (lo : K) (hi : Option K) : Prog K V F ε (List (K × V)) := scan lo hi Prog.pure

def token : Prog K V F ε F := fresh Prog.pure

def tryWrite (ws : List (Write K V)) (cs : List (K × Option V)) : Prog K V F ε Bool :=
  conditionalWrite ws cs Prog.pure

/-! ## Running alone -/

variable [LinearOrder K] [DecidableEq V]

def holds (m : OrderedMap K V) (cs : List (K × Option V)) : Bool :=
  cs.all fun c => m.get c.1 = c.2

def Reaches : Prog K V F ε α → OrderedMap K V → OrderedMap K V → Prop
  | pure _, m, m' => m' = m
  | fail _, m, m' => m' = m
  | get k next, m, m' => (next (m.get k)).Reaches m m'
  | scan lo hi next, m, m' => (next (m.between lo hi)).Reaches m m'
  | fresh next, m, m' => ∃ u, (next u).Reaches m m'
  | conditionalWrite ws cs next, m, m' =>
    if holds m cs then m' = m ∨ (next true).Reaches (m.apply ws) m' else (next false).Reaches m m'

def Returns : Prog K V F ε α → OrderedMap K V → Except ε α → OrderedMap K V → Prop
  | pure a, m, r, m' => r = .ok a ∧ m' = m
  | fail e, m, r, m' => r = .error e ∧ m' = m
  | get k next, m, r, m' => (next (m.get k)).Returns m r m'
  | scan lo hi next, m, r, m' => (next (m.between lo hi)).Returns m r m'
  | fresh next, m, r, m' => ∃ u, (next u).Returns m r m'
  | conditionalWrite ws cs next, m, r, m' =>
    if holds m cs then (next true).Returns (m.apply ws) r m' else (next false).Returns m r m'

/-- The outcome when every fresh token is `u`. -/
def run (u : F) : Prog K V F ε α → OrderedMap K V → Except ε α × OrderedMap K V
  | pure a, m => (.ok a, m)
  | fail e, m => (.error e, m)
  | get k next, m => (next (m.get k)).run u m
  | scan lo hi next, m => (next (m.between lo hi)).run u m
  | fresh next, m => (next u).run u m
  | conditionalWrite ws cs next, m =>
    if holds m cs then (next true).run u (m.apply ws) else (next false).run u m

lemma returns_run (u : F) (p : Prog K V F ε α) (m : OrderedMap K V) :
    p.Returns m (p.run u m).1 (p.run u m).2 := by
  induction p generalizing m with
  | pure | fail => exact ⟨rfl, rfl⟩
  | get _ _ ih | scan _ _ _ ih => exact ih _ m
  | fresh next ih => exact ⟨u, ih u m⟩
  | conditionalWrite ws cs next ih =>
    rw [Returns, run]
    split_ifs
    · exact ih true _
    · exact ih false _

variable {p : Prog K V F ε α} {r : Except ε α}

lemma Returns.reaches {m m' : OrderedMap K V} (h : p.Returns m r m') : p.Reaches m m' := by
  induction p generalizing m with
  | pure | fail => exact h.2
  | get _ _ ih | scan _ _ _ ih => exact ih _ h
  | fresh next ih =>
    obtain ⟨u, hu⟩ := h
    exact ⟨u, ih u hu⟩
  | conditionalWrite ws cs next ih =>
    rw [Returns] at h
    rw [Reaches]
    split_ifs at h ⊢
    · exact Or.inr (ih true h)
    · exact ih false h

/-! ## Weakest preconditions -/

/-- Run alone from `m`, every write leaves a map satisfying `I`, and the program ends in `Q`. -/
def wp (I : OrderedMap K V → Prop) :
    Prog K V F ε α → (Except ε α → OrderedMap K V → Prop) → OrderedMap K V → Prop
  | pure a, Q, m => Q (.ok a) m
  | fail e, Q, m => Q (.error e) m
  | get k next, Q, m => (next (m.get k)).wp I Q m
  | scan lo hi next, Q, m => (next (m.between lo hi)).wp I Q m
  | fresh next, Q, m => ∀ u, (next u).wp I Q m
  | conditionalWrite ws cs next, Q, m =>
    if holds m cs then I (m.apply ws) ∧ (next true).wp I Q (m.apply ws) else (next false).wp I Q m

variable {I : OrderedMap K V → Prop} {m m' : OrderedMap K V} {Q : Except ε α → OrderedMap K V → Prop}
  {a : α}

@[simp] lemma wp_pure : (pure a : Prog K V F ε α).wp I Q m ↔ Q (.ok a) m := Iff.rfl

@[simp] lemma wp_fail {e : ε} : (fail e : Prog K V F ε α).wp I Q m ↔ Q (.error e) m := Iff.rfl

@[simp] lemma wp_read {k : K} {Q : Except ε (Option V) → OrderedMap K V → Prop} :
    (read k : Prog K V F ε (Option V)).wp I Q m ↔ Q (.ok (m.get k)) m := Iff.rfl

variable {hi : Option K}

@[simp] lemma wp_range {lo : K} {Q : Except ε (List (K × V)) → OrderedMap K V → Prop} :
    (range lo hi : Prog K V F ε (List (K × V))).wp I Q m ↔ Q (.ok (m.between lo hi)) m := Iff.rfl

@[simp] lemma wp_token {Q : Except ε F → OrderedMap K V → Prop} :
    (token : Prog K V F ε F).wp I Q m ↔ ∀ u, Q (.ok u) m := Iff.rfl

variable {cs : List (K × Option V)} {ws : List (Write K V)}

@[simp] lemma wp_tryWrite {Q : Except ε Bool → OrderedMap K V → Prop} :
    (tryWrite ws cs : Prog K V F ε Bool).wp I Q m ↔
      if holds m cs then I (m.apply ws) ∧ Q (.ok true) (m.apply ws) else Q (.ok false) m := Iff.rfl

/-- What must hold after a program for the next one to be run on its result. -/
def andThen (I : OrderedMap K V → Prop) (f : α → Prog K V F ε β)
    (Q : Except ε β → OrderedMap K V → Prop) : Except ε α → OrderedMap K V → Prop
  | .ok a, m => (f a).wp I Q m
  | .error e, m => Q (.error e) m

variable {f : α → Prog K V F ε β}

lemma wp_bind {Q : Except ε β → OrderedMap K V → Prop} :
    (p.bind f).wp I Q m ↔ p.wp I (andThen I f Q) m := by
  induction p generalizing m with
  | pure | fail => rfl
  | get _ _ ih | scan _ _ _ ih => exact ih _
  | fresh next ih => exact forall_congr' fun u => ih u
  | conditionalWrite ws cs next ih =>
    rw [bind, wp, wp]
    split_ifs
    · rw [ih]
    · rw [ih]

lemma wp_mono {Q Q' : Except ε α → OrderedMap K V → Prop}
    (h : p.wp I Q m) (hQ : ∀ r m, Q r m → Q' r m) : p.wp I Q' m := by
  induction p generalizing m with
  | pure | fail => exact hQ _ _ h
  | get _ _ ih | scan _ _ _ ih => exact ih _ h
  | fresh next ih => exact fun u => ih u (h u)
  | conditionalWrite ws cs next ih =>
    rw [wp] at h ⊢
    split_ifs at h ⊢
    · exact ⟨h.1, ih true h.2⟩
    · exact ih false h

variable {I' : OrderedMap K V → Prop}

lemma wp_weaken (hI : ∀ m, I m → I' m) (h : p.wp I Q m) : p.wp I' Q m := by
  induction p generalizing m with
  | pure | fail => exact h
  | get _ _ ih | scan _ _ _ ih => exact ih _ h
  | fresh next ih => exact fun u => ih u (h u)
  | conditionalWrite ws cs next ih =>
    rw [wp] at h ⊢
    split_ifs at h ⊢
    · exact ⟨hI _ h.1, ih true h.2⟩
    · exact ih false h

lemma wp_reaches (h : p.wp I Q m) (hI : I m) (hr : p.Reaches m m') : I m' := by
  induction p generalizing m with
  | pure | fail => exact hr ▸ hI
  | get _ _ ih | scan _ _ _ ih => exact ih _ h hI hr
  | fresh next ih =>
    obtain ⟨u, hu⟩ := hr
    exact ih u (h u) hI hu
  | conditionalWrite ws cs next ih =>
    rw [wp] at h
    rw [Reaches] at hr
    split_ifs at h hr
    · rcases hr with rfl | hr
      · exact hI
      · exact ih true h.2 h.1 hr
    · exact ih false h hI hr

lemma wp_returns (h : p.wp I Q m) (hr : p.Returns m r m') : Q r m' := by
  induction p generalizing m with
  | pure | fail => obtain ⟨rfl, rfl⟩ := hr; exact h
  | get _ _ ih | scan _ _ _ ih => exact ih _ h hr
  | fresh next ih =>
    obtain ⟨u, hu⟩ := hr
    exact ih u (h u) hu
  | conditionalWrite ws cs next ih =>
    rw [wp] at h
    rw [Returns] at hr
    split_ifs at h hr
    · exact ih true h.2 hr
    · exact ih false h hr

/-! ## Partial correctness -/

/-- Run alone from `m`, every write leaves a map satisfying `I`, and a result `a` on a map `m'`
satisfies `R a m'`. -/
def safe (I : OrderedMap K V → Prop) (p : Prog K V F ε α) (R : α → OrderedMap K V → Prop)
    (m : OrderedMap K V) : Prop :=
  p.wp I (fun r m' => ∀ a, r = .ok a → R a m') m

variable {R R' : α → OrderedMap K V → Prop}

@[simp] lemma safe_pure : (pure a : Prog K V F ε α).safe I R m ↔ R a m := by
  simp [safe]

@[simp] lemma safe_fail {e : ε} : (fail e : Prog K V F ε α).safe I R m ↔ True := by
  simp [safe]

@[simp] lemma safe_read {k : K} {R : Option V → OrderedMap K V → Prop} :
    (read k : Prog K V F ε (Option V)).safe I R m ↔ R (m.get k) m := by
  simp [safe]

@[simp] lemma safe_range {lo : K} {R : List (K × V) → OrderedMap K V → Prop} :
    (range lo hi : Prog K V F ε (List (K × V))).safe I R m ↔ R (m.between lo hi) m := by
  simp [safe]

@[simp] lemma safe_token {R : F → OrderedMap K V → Prop} :
    (token : Prog K V F ε F).safe I R m ↔ ∀ u, R u m := by
  simp [safe]

@[simp] lemma safe_tryWrite {R : Bool → OrderedMap K V → Prop} :
    (tryWrite ws cs : Prog K V F ε Bool).safe I R m ↔
      if holds m cs then I (m.apply ws) ∧ R true (m.apply ws) else R false m := by
  simp [safe]

@[simp] lemma safe_bind {R : β → OrderedMap K V → Prop} :
    (p.bind f).safe I R m ↔ p.safe I (fun a => (f a).safe I R) m := by
  rw [safe, safe, wp_bind]
  constructor
  · refine fun h => wp_mono h fun r m' hr a ha => ?_
    subst ha
    exact hr
  · refine fun h => wp_mono h fun r m' hr => ?_
    cases r with
    | ok a => exact hr a rfl
    | error e => exact fun b hb => by simp at hb

@[simp] lemma safe_ite {c : Prop} [Decidable c] {p q : Prog K V F ε α} :
    (if c then p else q).safe I R m ↔ (c → p.safe I R m) ∧ (¬ c → q.safe I R m) := by
  split_ifs with h <;> simp [h]

lemma safe_tryWrite_of {R : Bool → OrderedMap K V → Prop} (haccepted : I (m.apply ws) ∧ R true (m.apply ws))
    (hrefused : R false m) : (tryWrite ws cs : Prog K V F ε Bool).safe I R m := by
  rw [safe_tryWrite]
  split_ifs
  · exact haccepted
  · exact hrefused

lemma safe_mono (h : p.safe I R m) (hR : ∀ a m', R a m' → R' a m') : p.safe I R' m :=
  wp_mono h fun _ m' hr a ha => hR a m' (hr a ha)

lemma safe_weaken (hI : ∀ m, I m → I' m) (h : p.safe I R m) : p.safe I' R m :=
  wp_weaken hI h

variable {l : List γ}

lemma safe_mapM {f : γ → Prog K V F ε β} {R : List β → OrderedMap K V → Prop}
    (P : γ → β → Prop) (hf : ∀ c ∈ l, (f c).safe I (fun b m' => m' = m ∧ P c b) m)
    (hdone : ∀ bs, List.Forall₂ P l bs → R bs m) : (l.mapM f).safe I R m := by
  induction l generalizing R with
  | nil => exact safe_pure.2 (hdone [] List.Forall₂.nil)
  | cons c l ih =>
    rw [List.mapM_cons, bind_eq, safe_bind]
    refine safe_mono (hf c (by simp)) fun b m' hb => ?_
    obtain ⟨rfl, hb⟩ := hb
    rw [bind_eq, safe_bind]
    refine ih (fun c hc => hf c (by simp [hc])) fun bs hbs => ?_
    exact safe_pure.2 (hdone (b :: bs) (List.Forall₂.cons hb hbs))

lemma safe_mapM_option {f : γ → Prog K V F ε β} {R : List β → OrderedMap K V → Prop}
    (g : γ → Option β) (hf : ∀ c ∈ l, (f c).safe I (fun b m' => m' = m ∧ g c = some b) m)
    (hdone : ∀ bs, l.mapM g = some bs → R bs m) : (l.mapM f).safe I R m :=
  safe_mapM (fun c b => g c = some b) hf fun bs hbs => hdone bs (mapM_eq_some_iff.2 hbs)

lemma safe_reaches (h : p.safe I R m) (hI : I m) (hr : p.Reaches m m') : I m' :=
  wp_reaches h hI hr

lemma safe_returns (h : p.safe I R m) (hr : p.Returns m (.ok a) m') : R a m' :=
  wp_returns h hr a rfl

/-! ## Programs with a state of their own -/

variable {σ : Type}

/-- Run alone from the state `s` and the map `m`, every write leaves a map satisfying `I`, and a
result `a` with the state `s'` on the map `m'` satisfies `R a s' m'`. -/
def safeFrom (I : OrderedMap K V → Prop) (t : StateT σ (Prog K V F ε) α)
    (R : α → σ → OrderedMap K V → Prop) (s : σ) (m : OrderedMap K V) : Prop :=
  (t.run s).safe I (fun r => R r.1 r.2) m

variable {t : StateT σ (Prog K V F ε) α}

section stateful

variable {R : α → σ → OrderedMap K V → Prop} {s : σ}

lemma safeFrom_pure (h : R a s m) : safeFrom I (Pure.pure a : StateT σ (Prog K V F ε) α) R s m := by
  simpa [safeFrom] using h

lemma safeFrom_bind {f : α → StateT σ (Prog K V F ε) β}
    {R : β → σ → OrderedMap K V → Prop} (h : safeFrom I t (fun a s' m' => safeFrom I (f a) R s' m') s m) :
    safeFrom I (t >>= f) R s m := by
  rw [safeFrom, StateT.run_bind, bind_eq, safe_bind]
  exact h

lemma safeFrom_mono {R R' : α → σ → OrderedMap K V → Prop}
    (h : safeFrom I t R s m) (hR : ∀ a s' m', R a s' m' → R' a s' m') : safeFrom I t R' s m :=
  safe_mono h fun _ _ => hR _ _ _

lemma safeFrom_get {R : σ → σ → OrderedMap K V → Prop} (h : R s s m) :
    safeFrom I (MonadState.get : StateT σ (Prog K V F ε) σ) R s m := by
  simpa [safeFrom] using h

lemma safeFrom_set {R : PUnit → σ → OrderedMap K V → Prop} {s' : σ} (h : R ⟨⟩ s' m) :
    safeFrom I (MonadStateOf.set s' : StateT σ (Prog K V F ε) PUnit) R s m := by
  simpa [safeFrom] using h

lemma safeFrom_modify {R : PUnit → σ → OrderedMap K V → Prop} {f : σ → σ} (h : R ⟨⟩ (f s) m) :
    safeFrom I (modify f : StateT σ (Prog K V F ε) PUnit) R s m := by
  simpa [safeFrom] using h

lemma safeFrom_lift (h : p.safe I (fun a => R a s) m) :
    safeFrom I (StateT.lift p : StateT σ (Prog K V F ε) α) R s m := by
  simp only [safeFrom, StateT.run_lift, bind_eq, safe_bind]
  exact safe_mono h fun a m' ha => safe_pure.2 ha

lemma safeFrom_ite {c : Prop} [Decidable c] {t u : StateT σ (Prog K V F ε) α}
    (ht : c → safeFrom I t R s m) (hu : ¬ c → safeFrom I u R s m) :
    safeFrom I (if c then t else u) R s m := by
  split_ifs with h
  · exact ht h
  · exact hu h

lemma safeFrom_forM {f : γ → StateT σ (Prog K V F ε) PUnit}
    {R : PUnit → σ → OrderedMap K V → Prop} (Inv : List γ → σ → OrderedMap K V → Prop)
    (hstep : ∀ c rest s m, Inv (c :: rest) s m → safeFrom I (f c) (fun _ => Inv rest) s m)
    (hdone : ∀ s m, Inv [] s m → R ⟨⟩ s m) {s : σ} {m : OrderedMap K V}
    (h : Inv l s m) : safeFrom I (l.forM f) R s m := by
  induction l generalizing s m with
  | nil => exact safeFrom_pure (hdone s m h)
  | cons c l ih =>
    exact safeFrom_bind (safeFrom_mono (hstep c l s m h) fun _ _ _ => ih)

end stateful

end Prog

end Zelavis.Lib
