import Zelavis.Db.Migrations
import Zelavis.Lib.FirstPresent

/-!
# Migrations asked for again

What `migrations.ts` `transform` makes of documents it has transformed already.

Documents are compared by what they have under each name.
-/

namespace Zelavis.Db.Retries

open Lib List

/-! ## Documents -/

def SameMembers (data data' : JsonObject) : Prop := ∀ n, ownMember data n = ownMember data' n

/-- The documents of a collection after a run that stopped having written so many. -/
def interrupted (f : JsonObject → JsonObject) (docs : List JsonObject) (written : ℕ) : List JsonObject :=
  (docs.take written).map f ++ docs.drop written

lemma ownMember_filter (data : JsonObject) (p : Utf16 → Bool) (n : Utf16) :
    ownMember (data.filter fun m => p m.1) n = if p n = true then ownMember data n else none := by
  induction data with
  | nil => simp [ownMember]
  | cons m rest ih =>
    obtain ⟨k, v⟩ := m
    rw [filter_cons]
    by_cases hkn : k = n
    · subst hkn
      by_cases hk : p k = true
      · simp [hk, ownMember]
      · rw [if_neg hk, if_neg hk]
        rw [ih, if_neg hk]
    · rw [ownMember, if_neg hkn]
      split_ifs with hk hn hn
      · rw [ownMember, if_neg hkn, ih, if_pos hn]
      · rw [ownMember, if_neg hkn, ih, if_neg hn]
      · rw [ih, if_pos hn]
      · rw [ih, if_neg hn]

lemma ownMember_eraseMember (data : JsonObject) (n m : Utf16) :
    ownMember (eraseMember data n) m = if m = n then none else ownMember data m := by
  unfold eraseMember
  rw [ownMember_filter data (fun k => decide (k ≠ n))]
  by_cases h : m = n <;> simp [h]

lemma ownMember_transform (data : JsonObject) (instructions : List FieldMigration) (keep : List Utf16)
    (n : Utf16) : ownMember (transform data instructions keep) n =
      if n ∈ keep then ownMember (instructions.foldl FieldMigration.apply data) n else none := by
  unfold transform
  rw [ownMember_filter _ (fun k => decide (k ∈ keep))]
  by_cases h : n ∈ keep <;> simp [h]

def proto : Utf16 := utf16 "__proto__"

lemma ownMember_assignMember (data : JsonObject) (n m : Utf16) (v : Json) :
    ownMember (assignMember data n v) m =
      if m = n ∧ ¬(n = proto ∧ ownMember data n = none) then some v else ownMember data m := by
  unfold assignMember
  by_cases hproto : n = utf16 "__proto__" ∧ ownMember data n = none
  · rw [if_pos hproto, if_neg fun h => h.2 hproto]
  · rw [if_neg hproto, ownMember_setMember]
    by_cases h : m = n
    · subst h
      rw [if_pos rfl, if_pos ⟨rfl, hproto⟩]
    · rw [if_neg fun h' : m = n ∧ _ => h h'.1, if_neg (Ne.symm h)]

lemma ownMember_filterMap (names : List Utf16) (M : Utf16 → Option Json) (n : Utf16) :
    ownMember (names.filterMap fun k => (M k).map fun v => (k, v)) n = if n ∈ names then M n else none := by
  induction names with
  | nil => rfl
  | cons k rest ih =>
    cases hk : M k with
    | none =>
      rw [filterMap_cons_none (by rw [hk]; rfl), ih]
      by_cases hkn : n = k
      · subst hkn
        simp [hk]
      · simp [hkn]
    | some v =>
      rw [filterMap_cons_some (by rw [hk]; rfl), ownMember]
      by_cases hkn : k = n
      · subst hkn
        simp [hk]
      · rw [if_neg hkn, ih]
        simp [Ne.symm hkn]

/-! ## Origins -/

/-- Where the fields of a document come from, in terms of the fields of the document it was. -/
abbrev Origins := Utf16 → Source Utf16 Json

def start (withProto : Bool) : Origins := fun n =>
  if n = proto ∧ withProto = false then .nothing else ⟨[n], none⟩

/-- The origins after a field is assigned to: the prototype's name is none where it is no field. -/
def assign (T : Origins) (n : Utf16) (s : Source Utf16 Json) : Origins :=
  if n = proto ∧ (T n).isNothing = true then T else changed T n s

def follow (T : Origins) : FieldMigration → Origins
  | .rename source target =>
    changed (assign T target ((T source).orElse (T target))) source .nothing
  | .set path value => assign T path ⟨[], some value⟩
  | .default path value => assign T path ((T path).orElse ⟨[], some value⟩)
  | .drop path => changed T path .nothing

def origins (withProto : Bool) (instructions : List FieldMigration) : Origins :=
  instructions.foldl follow (start withProto)

def given (withProto : Bool) (n : Utf16) : Bool := withProto && decide (n = proto)

/-- Whether a transformed document has a field `__proto__`. -/
def keepsProto (withProto : Bool) (instructions : List FieldMigration) (keep : List Utf16) : Bool :=
  decide (proto ∈ keep) && !(origins withProto instructions proto).isNothing

/-- Transforming again finds what is there: every kept field is settled, of documents without a field
`__proto__` and of documents with it. -/
def Settles (instructions : List FieldMigration) (keep : List Utf16) : Prop :=
  ∀ withProto : Bool, ∀ f ∈ keep, Source.IsSettled (given withProto) (origins withProto instructions)
    (origins (keepsProto withProto instructions keep) instructions) keep f

instance (instructions : List FieldMigration) (keep : List Utf16) : Decidable (Settles instructions keep) :=
  inferInstanceAs (Decidable (∀ withProto : Bool, ∀ f ∈ keep, Source.IsSettled (given withProto)
    (origins withProto instructions) (origins (keepsProto withProto instructions keep) instructions) keep f))

/-! ## The origins are right -/

/-- Every field of a document is what its origin has in the document it was. -/
structure Tracks (M : Utf16 → Option Json) (data : JsonObject) (T : Origins) : Prop where
  member : ∀ n, ownMember data n = (T n).eval M
  proto : (T proto).isNothing = false → ((T proto).eval M).isSome = true

variable {s : Source Utf16 Json} {n : Utf16}

section

variable {M : Utf16 → Option Json} {data : JsonObject} {T : Origins}

section

variable (h : Tracks M data T)
include h

lemma Tracks.isNothing_iff :
    ownMember data Retries.proto = none ↔ (T Retries.proto).isNothing = true := by
  rw [h.member]
  constructor
  · intro hnone
    by_contra hsome
    have := h.proto (by simpa using hsome)
    rw [hnone] at this
    cases this
  · intro hnothing
    rw [Source.isNothing_iff.1 hnothing, Source.eval_nothing]

lemma Tracks.assign {v : Json}
    (hs : s.eval M = some v) : Tracks M (assignMember data n v) (Retries.assign T n s) := by
  have hskips : (n = Retries.proto ∧ ownMember data n = none) ↔
      n = Retries.proto ∧ (T n).isNothing = true := by
    refine and_congr_right ?_
    rintro rfl
    exact h.isNothing_iff
  unfold Retries.assign
  by_cases hskip : n = Retries.proto ∧ (T n).isNothing = true
  · rw [if_pos hskip]
    refine ⟨fun m => ?_, h.proto⟩
    rw [ownMember_assignMember, if_neg fun hm => hm.2 (hskips.2 hskip), h.member]
  · rw [if_neg hskip]
    constructor
    · intro m
      rw [ownMember_assignMember]
      unfold changed
      by_cases hm : m = n
      · rw [if_pos ⟨hm, fun h => hskip (hskips.1 h)⟩, if_pos hm, hs]
      · rw [if_neg fun h => hm h.1, if_neg hm, h.member]
    · unfold changed
      split_ifs
      · intro _
        rw [hs]
        rfl
      · exact h.proto

lemma Tracks.refill
    (hs : s.eval M = (T n).eval M) : Tracks M data (Retries.assign T n s) := by
  unfold Retries.assign
  by_cases hskip : n = Retries.proto ∧ (T n).isNothing = true
  · rw [if_pos hskip]
    exact h
  · rw [if_neg hskip]
    constructor
    · intro m
      unfold changed
      split_ifs with hm
      · rw [hs, h.member, hm]
      · exact h.member m
    · unfold changed
      split_ifs with hn
      · subst hn
        intro _
        rw [hs]
        exact h.proto (by simpa using hskip)
      · exact h.proto

lemma Tracks.forget {data' : JsonObject}
    (hdata : ∀ m, ownMember data' m = if m = n then none else ownMember data m) :
    Tracks M data' (changed T n .nothing) := by
  constructor
  · intro m
    rw [hdata]
    unfold changed
    split_ifs with hm
    · rfl
    · exact h.member m
  · unfold changed
    split_ifs
    · intro hfalse
      cases hfalse
    · exact h.proto

lemma Tracks.follow (i : FieldMigration) :
    Tracks M (i.apply data) (Retries.follow T i) := by
  cases i with
  | rename source target =>
    unfold FieldMigration.apply Retries.follow
    dsimp only
    cases hsource : ownMember data source with
    | some v =>
      refine (h.assign ?_).forget (ownMember_eraseMember _ _)
      rw [Source.eval_orElse, ← h.member, hsource, Option.some_or]
    | none =>
      refine (h.refill ?_).forget fun m => ?_
      · rw [Source.eval_orElse, ← h.member, hsource, Option.none_or]
      · split_ifs with hm
        · rw [hm, hsource]
        · rfl
  | set path value => exact h.assign rfl
  | default path value =>
    unfold FieldMigration.apply Retries.follow
    dsimp only
    cases hpath : ownMember data path with
    | some v =>
      refine h.refill ?_
      rw [Source.eval_orElse, ← h.member, hpath, Option.some_or]
    | none =>
      refine h.assign ?_
      rw [Source.eval_orElse, ← h.member, hpath, Option.none_or]
      rfl
  | drop path => exact h.forget (ownMember_eraseMember _ _)

end

variable {withProto : Bool}

lemma tracks_start (h : (ownMember data proto).isSome = withProto) :
    Tracks (ownMember data) data (start withProto) := by
  constructor
  · intro n
    unfold start
    split_ifs with hn
    · obtain ⟨rfl, rfl⟩ := hn
      exact Option.not_isSome_iff_eq_none.1 (by rw [h]; simp)
    · rw [Source.eval_name]
  · unfold start
    split_ifs with hn
    · intro hfalse
      cases hfalse
    · intro _
      rw [Source.eval_name, h]
      simpa using hn

lemma tracks_origins (h : (ownMember data proto).isSome = withProto)
    (instructions : List FieldMigration) : Tracks (ownMember data)
      (instructions.foldl FieldMigration.apply data) (origins withProto instructions) := by
  have hrun : ∀ data' T, Tracks (ownMember data) data' T → Tracks (ownMember data)
      (instructions.foldl FieldMigration.apply data') (instructions.foldl Retries.follow T) := by
    induction instructions with
    | nil => exact fun data' T h => h
    | cons i rest ih =>
      intro data' T h
      exact ih _ _ (h.follow i)
  exact hrun _ _ (tracks_start h)

end

/-! ## No field goes to two places -/

/-- No two fields come from one, and none from the prototype's name where that is no field. -/
structure Apart (withProto : Bool) (T : Origins) : Prop where
  disjoint : ∀ f g, f ≠ g → ∀ n ∈ (T f).names, n ∉ (T g).names
  proto : ∀ f, proto ∈ (T f).names → withProto = true

section

variable {withProto : Bool} {T T' : Origins}

lemma Apart.of_moved (h : Apart withProto T) {source target : Utf16}
    (hsource : source ≠ target → (T' source).names = [])
    (htarget : ∀ n ∈ (T' target).names, n ∈ (T source).names ∨ n ∈ (T target).names)
    (hother : ∀ m, m ≠ source → m ≠ target → T' m = T m) : Apart withProto T' := by
  -- what a field has now it had, or the source of it had
  have hfrom : ∀ f, ∀ n ∈ (T' f).names, n ∈ (T f).names ∨ f = target ∧ n ∈ (T source).names := by
    intro f n hn
    by_cases hf : f = target
    · subst hf
      exact (htarget n hn).symm.imp_right fun hn => ⟨rfl, hn⟩
    · by_cases hs : f = source
      · subst hs
        rw [hsource hf] at hn
        exact absurd hn not_mem_nil
      · rw [hother f hs hf] at hn
        exact .inl hn
  have hgone : ∀ f, f ≠ target → ∀ n ∈ (T' f).names, n ∉ (T source).names := by
    intro f hf n hn hold
    by_cases hs : f = source
    · subst hs
      rw [hsource hf] at hn
      exact absurd hn not_mem_nil
    · rw [hother f hs hf] at hn
      exact h.disjoint f source hs n hn hold
  constructor
  · intro f g hfg n hf hg
    rcases hfrom f n hf with hf' | ⟨rfl, hf'⟩
    · rcases hfrom g n hg with hg' | ⟨rfl, hg'⟩
      · exact h.disjoint f g hfg n hf' hg'
      · exact hgone f hfg n hf hg'
    · exact hgone g (Ne.symm hfg) n hg hf'
  · intro f hf
    rcases hfrom f _ hf with hf | ⟨-, hf⟩
    · exact h.proto f hf
    · exact h.proto source hf

lemma Apart.assign (h : Apart withProto T)
    (hs : ∀ m ∈ s.names, m ∈ (T n).names) : Apart withProto (Retries.assign T n s) := by
  unfold Retries.assign
  split_ifs with hskip
  · exact h
  · refine @Apart.of_moved withProto T _ h n n (fun hne => absurd rfl hne) (fun m hm => ?_) fun m hm _ => ?_
    · rw [changed, if_pos rfl] at hm
      exact .inl (hs m hm)
    · rw [changed, if_neg hm]

lemma Apart.follow (h : Apart withProto T) (i : FieldMigration) : Apart withProto (Retries.follow T i) := by
  cases i with
  | rename source target =>
    have hassigned : ∀ m, Retries.assign T target ((T source).orElse (T target)) m = T m ∨
        m = target ∧ Retries.assign T target ((T source).orElse (T target)) m =
          (T source).orElse (T target) := by
      intro m
      unfold Retries.assign
      by_cases hskip : target = Retries.proto ∧ (T target).isNothing = true
      · rw [if_pos hskip]
        exact .inl rfl
      · rw [if_neg hskip]
        by_cases hm : m = target
        · exact .inr ⟨hm, if_pos hm⟩
        · exact .inl (if_neg hm)
    unfold Retries.follow
    dsimp only
    refine @Apart.of_moved withProto T _ h source target (fun _ => ?_) (fun m hm => ?_) fun m hm hm' => ?_
    · rw [changed, if_pos rfl]
      rfl
    · rw [changed] at hm
      split_ifs at hm
      · exact absurd hm not_mem_nil
      · rcases hassigned target with heq | ⟨-, heq⟩
        · rw [heq] at hm
          exact .inr hm
        · rw [heq] at hm
          exact Source.names_orElse _ _ hm
    · rw [changed, if_neg hm]
      exact (hassigned m).resolve_right fun h => hm' h.1
  | set path value => exact h.assign fun m hm => absurd hm not_mem_nil
  | default path value =>
    refine h.assign fun m hm => ?_
    exact (Source.names_orElse _ _ hm).resolve_right not_mem_nil
  | drop path =>
    refine @Apart.of_moved withProto T _ h path path (fun hne => absurd rfl hne) (fun m hm => ?_)
      fun m hm _ => ?_
    · rw [Retries.follow, changed, if_pos rfl] at hm
      exact absurd hm not_mem_nil
    · rw [Retries.follow, changed, if_neg hm]

lemma apart_origins (withProto : Bool) (instructions : List FieldMigration) :
    Apart withProto (origins withProto instructions) := by
  have hrun : ∀ T, Apart withProto T → Apart withProto (instructions.foldl Retries.follow T) := by
    induction instructions with
    | nil => exact fun T h => h
    | cons i rest ih => exact fun T h => ih _ (h.follow i)
  refine hrun _ ⟨fun f g hfg n hf hg => ?_, fun f hf => ?_⟩
  · have hname : ∀ k, n ∈ (start withProto k).names → n = k := by
      intro k hk
      unfold start at hk
      split_ifs at hk
      · exact absurd hk not_mem_nil
      · exact mem_singleton.1 hk
    exact hfg ((hname f hf).symm.trans (hname g hg))
  · unfold start at hf
    split_ifs at hf with hnone
    · exact absurd hf not_mem_nil
    · rw [mem_singleton] at hf
      simpa [← hf] using hnone

end

/-! ## What a transform makes -/

section

variable {withProto : Bool} {instructions : List FieldMigration} {keep : List Utf16}

instance nontrivialJson : Nontrivial Json := ⟨.null, .string [], by decide⟩

variable {data : JsonObject}

lemma madeBy_transform (h : (ownMember data proto).isSome = withProto) :
    Source.MadeBy (given withProto) (origins withProto instructions) keep
      (ownMember (transform data instructions keep)) where
  kept f hf := by
    rw [ownMember_transform, if_pos hf, (tracks_origins h instructions).member]
    refine Source.possible_eval _ fun n hn => ?_
    simp only [given, Bool.and_eq_true, decide_eq_true_eq] at hn
    rw [hn.2, h, hn.1]
  other f hf := by rw [ownMember_transform, if_neg hf]

lemma exists_transform_eq {D : Utf16 → Option Json}
    (hD : Source.MadeBy (given withProto) (origins withProto instructions) keep D) :
    ∃ data, (ownMember data proto).isSome = withProto ∧ ownMember (transform data instructions keep) = D := by
  have hapart := apart_origins withProto instructions
  obtain ⟨M, hgiven, hdrawn, heval⟩ := hD.exists_eval hapart.disjoint
  let names := proto :: keep.flatMap fun f => (origins withProto instructions f).names
  have hM : ∀ n, n ∉ names → M n = none := by
    intro n hn
    by_contra hsome
    rcases hdrawn n (Option.isSome_iff_ne_none.2 hsome) with hproto | ⟨f, hf, hdraws⟩
    · simp only [given, Bool.and_eq_true, decide_eq_true_eq] at hproto
      exact hn (hproto.2 ▸ mem_cons_self)
    · exact hn (mem_cons_of_mem _ (mem_flatMap.2 ⟨f, hf, hdraws⟩))
  have hdata : ownMember (names.filterMap fun k => (M k).map fun v => (k, v)) = M := by
    funext n
    rw [ownMember_filterMap]
    split_ifs with hn
    · rfl
    · exact (hM n hn).symm
  have hproto : (M proto).isSome = withProto := by
    cases hwith : withProto with
    | true => exact hgiven proto (by simp [given, hwith])
    | false =>
      by_contra hsome
      rcases hdrawn proto (by simpa [Option.isSome_iff_ne_none] using hsome) with hfalse | ⟨f, -, hdraws⟩
      · simp [given, hwith] at hfalse
      · have := hapart.proto f hdraws
        rw [hwith] at this
        cases this
  refine ⟨names.filterMap fun k => (M k).map fun v => (k, v), by rw [hdata, hproto], ?_⟩
  funext f
  rw [ownMember_transform]
  split_ifs with hf
  · rw [(tracks_origins (by rw [hdata, hproto]) instructions).member, hdata, heval f hf]
  · exact (hD.other f hf).symm

lemma isSome_proto_transform (h : (ownMember data proto).isSome = withProto) :
    (ownMember (transform data instructions keep) proto).isSome = keepsProto withProto instructions keep := by
  have htracks := tracks_origins h instructions
  unfold keepsProto
  rw [ownMember_transform]
  split_ifs with hproto
  · cases hnothing : (origins withProto instructions proto).isNothing with
    | true => simp [htracks.isNothing_iff.2 hnothing, hproto]
    | false =>
      rw [htracks.member, htracks.proto hnothing]
      simp [hproto]
  · simp [hproto]

end

lemma transform_transform_iff (instructions : List FieldMigration) (keep : List Utf16) :
    (∀ data, SameMembers (transform (transform data instructions keep) instructions keep)
      (transform data instructions keep)) ↔ Settles instructions keep := by
  constructor
  · intro h withProto
    refine Source.forall_eval_eq_iff.1 fun D hD f hf => ?_
    obtain ⟨data, hdata, rfl⟩ := exists_transform_eq hD
    have hsame := h data f
    rw [ownMember_transform, if_pos hf,
      (tracks_origins (isSome_proto_transform hdata) instructions).member] at hsame
    exact hsame
  · intro h data f
    have hmade := @madeBy_transform _ instructions keep data rfl
    rw [ownMember_transform]
    split_ifs with hf
    · rw [(tracks_origins (isSome_proto_transform rfl) instructions).member]
      exact Source.forall_eval_eq_iff.2 (h _) _ hmade f hf
    · exact (hmade.other f hf).symm

/-- The transforms are idempotent, and a run that stopped halfway is finished by another as one that did not
stop, exactly where the instructions settle. -/
theorem transform_idempotent_iff (instructions : List FieldMigration) (keep : List Utf16) :
    ((∀ data, SameMembers (transform (transform data instructions keep) instructions keep)
        (transform data instructions keep)) ∧ ∀ docs written, List.Forall₂ SameMembers
        ((interrupted (transform · instructions keep) docs written).map (transform · instructions keep))
        (docs.map (transform · instructions keep))) ↔ Settles instructions keep := by
  rw [← transform_transform_iff]
  refine ⟨And.left, fun h => ⟨h, fun docs written => ?_⟩⟩
  have hsame : ∀ l : List JsonObject, List.Forall₂ SameMembers l l :=
    fun l => List.forall₂_same.2 fun _ _ _ => rfl
  have hsplit : docs.map (transform · instructions keep) =
      (docs.take written).map (transform · instructions keep) ++
        (docs.drop written).map (transform · instructions keep) := by
    rw [← List.map_append, List.take_append_drop]
  rw [interrupted, List.map_append, hsplit]
  refine List.rel_append ?_ (hsame _)
  rw [List.map_map, List.forall₂_map_left_iff, List.forall₂_map_right_iff]
  exact List.forall₂_same.2 fun data _ => h data

example : Settles [.rename (utf16 "a") (utf16 "b"), .default (utf16 "c") .null, .drop (utf16 "d")]
    [utf16 "b", utf16 "c"] := by decide +kernel

def optionalField (name : Utf16) : CollectionFieldEntry where
  name
  field :=
    { tag := utf16 "string", required := false, accepts := fun _ => true, accepts_reread := fun _ => rfl }

/-- A field moved on to make room for another: the second time the other is moved on as well. -/
theorem not_transform_idempotent :
    ¬∀ (source target : List CollectionFieldEntry) (instructions : List FieldMigration),
      unresolvedIn (differencesBetween source target) instructions = [] → ∀ data, SameMembers
        (transform (transform data instructions (fieldNames target)) instructions (fieldNames target))
        (transform data instructions (fieldNames target)) := by
  intro hall
  have hsame := hall [optionalField (utf16 "a"), optionalField (utf16 "b")]
    [optionalField (utf16 "b"), optionalField (utf16 "c")]
    [.rename (utf16 "b") (utf16 "c"), .rename (utf16 "a") (utf16 "b")] rfl
    [(utf16 "a", .string (utf16 "x")), (utf16 "b", .string (utf16 "y"))] (utf16 "b")
  revert hsame
  decide +kernel

end Zelavis.Db.Retries
